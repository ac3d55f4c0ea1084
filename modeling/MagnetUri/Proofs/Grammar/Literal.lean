import MagnetUri.Proofs.Grammar.Groups
import MagnetUri.Proofs.Grammar.Run

set_option autoImplicit false

/-! Addresses between brackets. Those of version six and those of later versions have no
text in common, and neither holds a bracket. -/

namespace MagnetUri.Grammar

open scoped Computability
open Uri (isIpv4 isIpv6 isIpvFuture)

variable {text : Text}

theorem mem_ipvFuture : text ∈ ipvFuture ↔
    ∃ mark version address, (mark = 'v' ∨ mark = 'V') ∧
      (version ≠ [] ∧ version.all Character.isHexDigit = true) ∧
      (address ≠ [] ∧ address.all Character.inUserinfo = true) ∧
      text = mark :: version ++ '.' :: address := by
  rw [ipvFuture, hexDigit_eq, userinfoChar_eq]
  constructor
  · rintro ⟨_, ⟨_, ⟨_, ⟨mark, marked, rfl⟩, version, digits, rfl⟩, _, rfl, rfl⟩, address, chars, rfl⟩
    have either : mark = 'v' ∨ mark = 'V' := by simpa using marked
    exact ⟨mark, version, address, either, mem_single_oneOrMore.1 digits,
      mem_single_oneOrMore.1 chars, by simp⟩
  · rintro ⟨mark, version, address, either, digits, chars, equal⟩
    have marked : mark ∈ ['v', 'V'] := by simpa using either
    exact ⟨_, ⟨_, ⟨[mark], ⟨mark, marked, rfl⟩, version, mem_single_oneOrMore.2 digits, rfl⟩, ['.'],
      rfl, rfl⟩, address, mem_single_oneOrMore.2 chars, by simp [equal]⟩

theorem isIpvFuture_iff : isIpvFuture text = true ↔ text ∈ ipvFuture := by
  rw [mem_ipvFuture]
  cases text with
  | nil =>
      constructor
      · intro impossible
        cases impossible
      · rintro ⟨mark, version, address, _, _, _, equal⟩
        cases equal
  | cons first rest =>
      simp only [isIpvFuture, Bool.and_eq_true, Bool.or_eq_true, beq_iff_eq]
      constructor
      · rintro ⟨either, accepted⟩
        split at accepted
        next version address cut =>
          simp only [Bool.and_eq_true, Bool.not_eq_true', List.isEmpty_eq_false_iff] at accepted
          obtain ⟨⟨⟨someVersion, digits⟩, someAddress⟩, chars⟩ := accepted
          have joined := Text.eq_append_of_cut? cut
          exact ⟨first, version, address, either, ⟨someVersion, digits⟩, ⟨someAddress, chars⟩,
            by rw [joined]; rfl⟩
        next => cases accepted
      · rintro ⟨mark, version, address, either, ⟨someVersion, digits⟩, ⟨someAddress, chars⟩, equal⟩
        obtain ⟨same, joined⟩ := List.cons.inj equal
        subst same
        have free : '.' ∉ version := by
          intro dot
          exact absurd (List.all_eq_true.1 digits '.' dot) (by decide)
        refine ⟨either, ?_⟩
        have cut := Text.cut?_append free address
        change rest = version ++ '.' :: address at joined
        rw [joined, cut]
        simp [someVersion, digits, someAddress, chars]

theorem isUnreserved_of_isHexDigit {char : Char} (digit : Character.isHexDigit char = true) :
    Character.isUnreserved char = true := by
  rw [isHexDigit_eq, Bool.or_eq_true, Bool.or_eq_true] at digit
  rw [Character.isUnreserved, Character.isLetter, Bool.or_eq_true, Bool.or_eq_true,
    Bool.or_eq_true]
  simp only [Bool.and_eq_true, decide_eq_true_iff, Char.le_def] at digit ⊢
  rcases digit with (decimal | small) | capital
  · exact Or.inl (Or.inr decimal)
  · exact Or.inl (Or.inl (Or.inl ⟨small.1, UInt32.le_trans small.2 (by decide)⟩))
  · exact Or.inl (Or.inl (Or.inr ⟨capital.1, UInt32.le_trans capital.2 (by decide)⟩))

theorem inUserinfo_of_isUnreserved {char : Char} (member : Character.isUnreserved char = true) :
    Character.inUserinfo char = true := by
  rw [Character.inUserinfo, Character.inRegisteredName, member]
  rfl

theorem isHexDigit_of_isDigit {char : Char} (digit : Character.isDigit char = true) :
    Character.isHexDigit char = true := by
  rw [isHexDigit_eq, digit]
  rfl

def inAddress (char : Char) : Bool :=
  Character.isHexDigit char || char == ':' || char == '.'

theorem inAddress_of_isHexDigit {char : Char} (digit : Character.isHexDigit char = true) :
    inAddress char = true := by
  rw [inAddress, digit]
  rfl

theorem all_inAddress_of_isIpv4 (accepted : isIpv4 text = true) :
    text.all inAddress = true := by
  have octetChars {octet : Text} (accepted : Uri.isOctet octet = true) :
      octet.all inAddress = true := by
    apply List.all_eq_true.2
    intro char member
    have digit := List.all_eq_true.1 (isOctet_iff.1 accepted).1.2 char member
    exact inAddress_of_isHexDigit (isHexDigit_of_isDigit digit)
  have dot : inAddress '.' = true := by decide
  obtain ⟨first, second, third, fourth, octets, joined⟩ := isIpv4_iff_exists.1 accepted
  rw [joined]
  simp only [List.all_append, List.all_cons, dot, octetChars octets.1, octetChars octets.2.1,
    octetChars octets.2.2.1, octetChars octets.2.2.2, Bool.and_self]

theorem Grouped.all_inAddress {quadLast : Bool} {count : Nat}
    (grouped : Grouped quadLast count text) : text.all inAddress = true := by
  have groupChars {part : Text} (accepted : Uri.isGroup part = true) :
      part.all inAddress = true := by
    apply List.all_eq_true.2
    intro char member
    exact inAddress_of_isHexDigit (List.all_eq_true.1 (isGroup_iff.1 accepted).2 char member)
  have colon : inAddress ':' = true := by decide
  induction grouped with
  | last accepted => exact groupChars accepted
  | quad _ accepted => exact all_inAddress_of_isIpv4 accepted
  | more accepted _ ih =>
      rw [List.all_append, List.all_cons, groupChars accepted, ih, colon]
      rfl

theorem Side.all_inAddress {quadLast : Bool} {count : Nat} (side : Side quadLast count text) :
    text.all inAddress = true := by
  rcases side with ⟨empty, _⟩ | grouped
  · rw [empty]
    rfl
  · exact grouped.all_inAddress

theorem all_inAddress_of_isIpv6 (accepted : isIpv6 text = true) : text.all inAddress = true := by
  have colon : inAddress ':' = true := by decide
  rcases isIpv6_iff_sides.1 accepted with grouped | ⟨before, after, _, _, joined, left, right, _⟩
  · exact grouped.all_inAddress
  · rw [joined, List.all_append, List.all_cons, List.all_cons, left.all_inAddress,
      right.all_inAddress, colon]
    rfl

theorem inUserinfo_of_inAddress {char : Char} (member : inAddress char = true) :
    Character.inUserinfo char = true := by
  rw [inAddress, Bool.or_eq_true, Bool.or_eq_true, beq_iff_eq, beq_iff_eq] at member
  rcases member with (digit | colon) | dot
  · exact inUserinfo_of_isUnreserved (isUnreserved_of_isHexDigit digit)
  · rw [colon]
    decide
  · rw [dot]
    decide

theorem all_inUserinfo_of_ipv6 (member : text ∈ ipv6Address) :
    text.all Character.inUserinfo = true := by
  have inside := all_inAddress_of_isIpv6 (isIpv6_iff.2 member)
  apply List.all_eq_true.2
  intro char present
  exact inUserinfo_of_inAddress (List.all_eq_true.1 inside char present)

theorem all_inUserinfo_of_ipvFuture (member : text ∈ ipvFuture) :
    text.all Character.inUserinfo = true := by
  obtain ⟨mark, version, address, either, ⟨_, digits⟩, ⟨_, chars⟩, equal⟩ := mem_ipvFuture.1 member
  have marked : Character.inUserinfo mark = true := by
    rcases either with small | capital
    · rw [small]
      decide
    · rw [capital]
      decide
  have versioned : version.all Character.inUserinfo = true := by
    apply List.all_eq_true.2
    intro char present
    have digit := List.all_eq_true.1 digits char present
    exact inUserinfo_of_isUnreserved (isUnreserved_of_isHexDigit digit)
  have dot : Character.inUserinfo '.' = true := by decide
  rw [equal, List.cons_append, List.all_cons, List.all_append, List.all_cons, marked, versioned,
    chars, dot]
  rfl

theorem not_ipv6_of_ipvFuture (member : text ∈ ipvFuture) : text ∉ ipv6Address := by
  intro both
  obtain ⟨mark, version, address, either, _, _, equal⟩ := mem_ipvFuture.1 member
  have inside := all_inAddress_of_isIpv6 (isIpv6_iff.2 both)
  rw [equal, List.cons_append, List.all_cons, Bool.and_eq_true] at inside
  rcases either with small | capital
  · rw [small] at inside
    exact absurd inside.1 (by decide)
  · rw [capital] at inside
    exact absurd inside.1 (by decide)

theorem run_of_ipv4 (member : text ∈ ipv4Address) : Run Character.inRegisteredName text := by
  have inside := all_inAddress_of_isIpv4 (isIpv4_iff.2 member)
  have colon := colon_not_mem_of_isIpv4 (isIpv4_iff.2 member)
  refine run_of_all (List.all_eq_true.2 fun char present => ?_)
  have narrow := inUserinfo_of_inAddress (List.all_eq_true.1 inside char present)
  rw [Character.inUserinfo, Bool.or_eq_true, beq_iff_eq] at narrow
  rcases narrow with named | same
  · exact named
  · exact absurd (same ▸ present) colon

end MagnetUri.Grammar

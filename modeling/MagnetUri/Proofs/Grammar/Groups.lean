import MagnetUri.Proofs.Grammar.Quad
import MagnetUri.Proofs.Number

set_option autoImplicit false

/-! Addresses of version six. Counting the groups on both sides of the first gap accepts
the nine alternatives of the grammar, which differ in how many groups may stand on
either side. A dotted quad is four numbers below 256, each written in the one way without zeros in
front. -/

namespace MagnetUri.Grammar

section Groups

open Uri (isIpv4 isGroup cutGap? groupsOf countGroups? isIpv6)

theorem isGroup_iff {text : Text} : isGroup text = true ↔
    (1 ≤ text.length ∧ text.length ≤ 4) ∧ text.all Character.isHexDigit = true := by
  rw [isGroup, Bool.and_eq_true, decide_eq_true_iff]

theorem isGroup_iff_mem {text : Text} : isGroup text = true ↔ text ∈ group := by
  rw [isGroup_iff, group, hexDigit_eq]
  constructor
  · rintro ⟨bounds, all⟩
    cases text with
    | nil => exact absurd bounds.1 (by decide)
    | cons first rest =>
        rw [List.all_cons, Bool.and_eq_true] at all
        have short : rest.length ≤ 3 := Nat.le_of_succ_le_succ bounds.2
        refine ⟨[first], single_mem_single.2 all.1, rest, ?_, rfl⟩
        exact mem_upTo.2 ⟨rest.length, short, mem_single_pow.2 ⟨rfl, all.2⟩⟩
  · rintro ⟨_, ⟨first, passed, rfl⟩, rest, member, rfl⟩
    obtain ⟨times, short, member⟩ := mem_upTo.1 member
    obtain ⟨length, all⟩ := mem_single_pow.1 member
    simp only [List.singleton_append, List.length_cons, List.all_cons, passed, all, length]
    exact ⟨⟨by omega, by omega⟩, rfl⟩

theorem colon_not_mem_of_isGroup {text : Text} (accepted : isGroup text = true) : ':' ∉ text := by
  intro colon
  have all := (isGroup_iff.1 accepted).2
  exact absurd (List.all_eq_true.1 all ':' colon) (by decide)

theorem contains_dot_of_isGroup {text : Text} (accepted : isGroup text = true) :
    text.contains '.' = false := by
  rw [Bool.eq_false_iff]
  intro dot
  have all := (isGroup_iff.1 accepted).2
  exact absurd (List.all_eq_true.1 all '.' (List.contains_iff_mem.1 dot)) (by decide)

theorem contains_dot_of_isIpv4 {text : Text} (accepted : isIpv4 text = true) :
    text.contains '.' = true := by
  obtain ⟨first, second, third, fourth, _, joined⟩ := isIpv4_iff_exists.1 accepted
  rw [List.contains_iff_mem, joined]
  simp

theorem colon_not_mem_of_isIpv4 {text : Text} (accepted : isIpv4 text = true) : ':' ∉ text := by
  obtain ⟨first, second, third, fourth, octets, joined⟩ := isIpv4_iff_exists.1 accepted
  have free {octet : Text} (accepted : Uri.isOctet octet = true) : ':' ∉ octet := by
    intro colon
    have digits := (isOctet_iff.1 accepted).1.2
    exact absurd (List.all_eq_true.1 digits ':' colon) (by decide)
  rw [joined]
  simp [free octets.1, free octets.2.1, free octets.2.2.1, free octets.2.2.2]

/-- So many groups between colons, where a dotted quad at the end counts for two if one
may stand there. -/
inductive Grouped (quadLast : Bool) : Nat → Text → Prop
  | last {text : Text} (accepted : isGroup text = true) : Grouped quadLast 1 text
  | quad {text : Text} (allowed : quadLast = true) (accepted : isIpv4 text = true) :
      Grouped quadLast 2 text
  | more {count : Nat} {part rest : Text} (accepted : isGroup part = true)
      (later : Grouped quadLast count rest) : Grouped quadLast (count + 1) (part ++ ':' :: rest)

variable {quadLast closed : Bool} {count : Nat} {text : Text}

theorem grouped_of_countGroups? {parts : List Text} (nonempty : parts ≠ [])
    (counted : countGroups? closed parts = some count) :
    Grouped (!closed) count (Text.join ':' parts) := by
  induction parts generalizing count with
  | nil => exact absurd rfl nonempty
  | cons part others ih =>
      rw [countGroups?] at counted
      split at counted
      next dotted =>
        rw [Bool.and_eq_true, Bool.and_eq_true, List.isEmpty_iff] at dotted
        obtain ⟨⟨single, _⟩, allowed⟩ := dotted
        subst single
        split at counted
        next accepted =>
          cases counted
          exact .quad allowed accepted
        next => cases counted
      next =>
        split at counted
        next accepted =>
          obtain ⟨fewer, found, equal⟩ := Option.map_eq_some_iff.1 counted
          subst equal
          cases others with
          | nil =>
              cases found
              exact .last accepted
          | cons next others => exact .more accepted (ih (List.cons_ne_nil next others) found)
        next => cases counted

theorem countGroups?_cons_of_isGroup {part : Text} (accepted : isGroup part = true)
    (parts : List Text) :
    countGroups? closed (part :: parts) = (countGroups? closed parts).map (· + 1) := by
  rw [countGroups?, contains_dot_of_isGroup accepted, Bool.and_false, Bool.false_and,
    if_neg Bool.false_ne_true, if_pos accepted]

theorem countGroups?_of_grouped (grouped : Grouped (!closed) count text) :
    countGroups? closed (Text.separate ':' text) = some count := by
  induction grouped with
  | last accepted =>
      rw [Text.separate_of_not_mem (colon_not_mem_of_isGroup accepted),
        countGroups?_cons_of_isGroup accepted]
      rfl
  | quad allowed accepted =>
      rw [Text.separate_of_not_mem (colon_not_mem_of_isIpv4 accepted), countGroups?,
        contains_dot_of_isIpv4 accepted, allowed, accepted]
      rfl
  | more accepted _ ih =>
      rw [Text.separate_append (colon_not_mem_of_isGroup accepted),
        countGroups?_cons_of_isGroup accepted, ih, Option.map_some]

theorem countGroups?_iff : countGroups? closed (Text.separate ':' text) = some count ↔
    Grouped (!closed) count text := by
  constructor
  · intro counted
    have grouped := grouped_of_countGroups? (Text.separate_ne_nil ':' text) counted
    rw [Text.join_separate] at grouped
    exact grouped
  · exact countGroups?_of_grouped

/-- In front of other parts there are groups only, each of which counts for one. -/
theorem countGroups?_append {later : List Text} (nonempty : later ≠ []) (parts : List Text) :
    countGroups? closed (parts ++ later) =
      (countGroups? true parts).bind fun left => (countGroups? closed later).map (left + ·) := by
  induction parts with
  | nil =>
      simp only [List.nil_append, countGroups?, Option.bind_some, Nat.zero_add]
      exact Option.map_id'.symm
  | cons part parts ih =>
      have front : (parts ++ later).isEmpty = false :=
        List.isEmpty_eq_false_iff.2 (List.append_ne_nil_of_right_ne_nil parts nonempty)
      rw [List.cons_append, countGroups?, countGroups?, front, Bool.not_true, Bool.and_false,
        Bool.false_and, Bool.false_and, if_neg Bool.false_ne_true, if_neg Bool.false_ne_true]
      split
      next =>
        rw [ih]
        cases countGroups? true parts with
        | none => rfl
        | some left =>
            simp only [Option.bind_some, Option.map_some, Option.map_map]
            congr 1
            funext right
            exact Nat.add_right_comm left right 1
      next => rfl

theorem Grouped.head (grouped : Grouped quadLast count text) :
    ∃ first rest, text = first :: rest ∧ first ≠ ':' := by
  have start {part : Text} (nonempty : part ≠ []) (free : ':' ∉ part) (tail : Text) :
      ∃ first rest, part ++ tail = first :: rest ∧ first ≠ ':' := by
    obtain ⟨first, rest, equal⟩ := List.exists_cons_of_ne_nil nonempty
    subst equal
    exact ⟨first, rest ++ tail, rfl, fun colon => free (colon ▸ List.mem_cons_self)⟩
  have nonempty {part : Text} (accepted : isGroup part = true) : part ≠ [] :=
    List.ne_nil_of_length_pos (isGroup_iff.1 accepted).1.1
  cases grouped with
  | last accepted =>
      have found := start (nonempty accepted) (colon_not_mem_of_isGroup accepted) []
      rwa [List.append_nil] at found
  | quad allowed accepted =>
      have dotted : text ≠ [] := by
        obtain ⟨first, second, third, fourth, _, joined⟩ := isIpv4_iff_exists.1 accepted
        simp [joined]
      have found := start dotted (colon_not_mem_of_isIpv4 accepted) []
      rwa [List.append_nil] at found
  | more accepted later =>
      exact start (nonempty accepted) (colon_not_mem_of_isGroup accepted) _

/-- Groups end with no colon, so a colon that closes a text stands behind a gap. -/
theorem Grouped.getLast?_ne_colon (grouped : Grouped quadLast count text) :
    text.getLast? ≠ some ':' := by
  induction grouped with
  | last accepted =>
      intro colon
      exact colon_not_mem_of_isGroup accepted (List.mem_of_getLast? colon)
  | quad _ accepted =>
      intro colon
      exact colon_not_mem_of_isIpv4 accepted (List.mem_of_getLast? colon)
  | more _ later ih =>
      obtain ⟨first, others, equal, _⟩ := later.head
      subst equal
      rw [List.getLast?_append, List.getLast?_cons_cons, List.getLast?_cons, Option.some_or,
        ← List.getLast?_cons]
      exact ih

/-- What is counted without a quad is counted the same where one may stand. -/
theorem Grouped.allow (grouped : Grouped quadLast count text) : Grouped true count text := by
  induction grouped with
  | last accepted => exact .last accepted
  | quad _ accepted => exact .quad rfl accepted
  | more accepted _ ih => exact .more accepted ih

theorem eq_append_of_cutGap? {before after : Text} (found : cutGap? text = some (before, after)) :
    text = before ++ ':' :: ':' :: after := by
  fun_induction cutGap? text generalizing before with
  | case1 rest =>
      cases found
      rfl
  | case2 => cases found
  | case3 char rest other ih =>
      obtain ⟨parts, inner, equal⟩ := Option.map_eq_some_iff.1 found
      cases equal
      rw [ih inner]
      rfl

theorem cutGap?_cons {char : Char} {rest : Text}
    (other : char ≠ ':' ∨ ∀ after, rest ≠ ':' :: after) :
    cutGap? (char :: rest) = (cutGap? rest).map fun parts => (char :: parts.1, parts.2) := by
  rw [cutGap?]
  intro after colon equal
  rcases other with other | other
  · exact other colon
  · exact other after equal

theorem cutGap?_append_of_not_mem {part : Text} (free : ':' ∉ part) (tail : Text) :
    cutGap? (part ++ tail) = (cutGap? tail).map fun parts => (part ++ parts.1, parts.2) := by
  induction part with
  | nil =>
      simp only [List.nil_append]
      exact Option.map_id'.symm
  | cons char rest ih =>
      rw [List.mem_cons, not_or] at free
      have other : char ≠ ':' := fun colon => free.1 colon.symm
      rw [List.cons_append, cutGap?_cons (Or.inl other), ih free.2, Option.map_map]
      rfl

/-- Groups hold no gap, so the first gap of a text that begins with them lies behind them. -/
theorem Grouped.cutGap?_append (grouped : Grouped quadLast count text) (tail : Text) :
    cutGap? (text ++ tail) = (cutGap? tail).map fun parts => (text ++ parts.1, parts.2) := by
  induction grouped with
  | last accepted => exact cutGap?_append_of_not_mem (colon_not_mem_of_isGroup accepted) tail
  | quad _ accepted => exact cutGap?_append_of_not_mem (colon_not_mem_of_isIpv4 accepted) tail
  | @more _ part rest accepted later ih =>
      obtain ⟨first, others, equal, different⟩ := later.head
      have single : ∀ after, rest ++ tail ≠ ':' :: after := by
        intro after impossible
        rw [equal, List.cons_append] at impossible
        exact different (List.cons.inj impossible).1
      rw [List.append_assoc, List.cons_append,
        cutGap?_append_of_not_mem (colon_not_mem_of_isGroup accepted),
        cutGap?_cons (Or.inr single), ih, Option.map_map, Option.map_map]
      congr 1
      funext parts
      simp

def Side (quadLast : Bool) (count : Nat) (text : Text) : Prop :=
  (text = [] ∧ count = 0) ∨ Grouped quadLast count text

theorem Side.allow (side : Side quadLast count text) : Side true count text := by
  rcases side with empty | grouped
  · exact Or.inl empty
  · exact Or.inr grouped.allow

theorem countGroups?_groupsOf :
    countGroups? closed (groupsOf text) = some count ↔ Side (!closed) count text := by
  cases text with
  | nil =>
      constructor
      · intro counted
        cases counted
        exact Or.inl ⟨rfl, rfl⟩
      · rintro (⟨_, zero⟩ | grouped)
        · rw [zero]
          rfl
        · obtain ⟨first, rest, equal, _⟩ := grouped.head
          cases equal
  | cons char rest =>
      rw [groupsOf, List.isEmpty_cons, if_neg Bool.false_ne_true, countGroups?_iff]
      constructor
      · exact Or.inr
      · rintro (⟨impossible, _⟩ | grouped)
        · cases impossible
        · exact grouped

theorem Side.cutGap? {before : Text} (side : Side quadLast count before) (after : Text) :
    cutGap? (before ++ ':' :: ':' :: after) = some (before, after) := by
  rcases side with ⟨empty, _⟩ | grouped
  · rw [empty]
    rfl
  · rw [grouped.cutGap?_append]
    change some (before ++ [], after) = _
    rw [List.append_nil]

theorem Grouped.cutGap?_eq_none (grouped : Grouped quadLast count text) :
    Uri.cutGap? text = none := by
  have found := grouped.cutGap?_append []
  rwa [List.append_nil] at found

theorem Side.cutGap?_eq_none (side : Side quadLast count text) : Uri.cutGap? text = none := by
  rcases side with ⟨empty, _⟩ | grouped
  · rw [empty]
    rfl
  · exact grouped.cutGap?_eq_none

/-- A text that ends with a gap is closed; any other ends as what follows the gap. -/
theorem getLast?_gapped (before after : Text) :
    (before ++ ':' :: ':' :: after).getLast? = if after = [] then some ':' else after.getLast? := by
  rw [List.getLast?_append, List.getLast?_cons_cons, List.getLast?_cons, Option.some_or]
  cases after with
  | nil => rfl
  | cons char rest => rw [List.getLast?_cons, if_neg (List.cons_ne_nil char rest), Option.getD_some]

theorem groupsOf_ne_nil {side : Text} (nonempty : side ≠ []) : groupsOf side ≠ [] := by
  rw [groupsOf, List.isEmpty_eq_false_iff.2 nonempty, if_neg Bool.false_ne_true]
  exact Text.separate_ne_nil ':' side

/-- The groups on both sides of a gap are counted together. A quad is the last of them only if it
ends the text. -/
theorem countGroups?_gapped {before after : Text} :
    countGroups? ((before ++ ':' :: ':' :: after).getLast? == some ':')
        (groupsOf before ++ groupsOf after) = some count ↔
      ∃ left right, Side false left before ∧ Side true right after ∧ left + right = count := by
  rw [getLast?_gapped]
  by_cases empty : after = []
  · have none : groupsOf [] = [] := rfl
    rw [if_pos empty, beq_self_eq_true, empty, none, List.append_nil, countGroups?_groupsOf]
    constructor
    · intro side
      exact ⟨count, 0, side, Or.inl ⟨rfl, rfl⟩, rfl⟩
    · rintro ⟨left, right, side, later, sum⟩
      obtain ⟨_, zero⟩ : ([] : Text) = [] ∧ right = 0 := later.resolve_right fun grouped => by
        obtain ⟨first, rest, equal, _⟩ := grouped.head
        cases equal
      rw [zero, Nat.add_zero] at sum
      exact sum ▸ side
  · rw [if_neg empty, countGroups?_append (groupsOf_ne_nil empty), Option.bind_eq_some_iff]
    constructor
    · rintro ⟨left, leftCount, counted⟩
      obtain ⟨right, rightCount, sum⟩ := Option.map_eq_some_iff.1 counted
      exact ⟨left, right, countGroups?_groupsOf.1 leftCount,
        (countGroups?_groupsOf.1 rightCount).allow, sum⟩
    · rintro ⟨left, right, side, later, sum⟩
      have grouped : Grouped true right after := later.resolve_left fun none => empty none.1
      have unclosed : (after.getLast? == some ':') = false :=
        beq_eq_false_iff_ne.2 grouped.getLast?_ne_colon
      have counted : countGroups? false (groupsOf after) = some right :=
        countGroups?_groupsOf.2 later
      refine ⟨left, countGroups?_groupsOf.2 side, ?_⟩
      rw [unclosed, counted, Option.map_some, sum]

theorem isIpv6_iff_sides : isIpv6 text = true ↔
    Grouped true 8 text ∨ ∃ before after left right, text = before ++ ':' :: ':' :: after ∧
      Side false left before ∧ Side true right after ∧ left + right ≤ 7 := by
  constructor
  · intro accepted
    unfold isIpv6 at accepted
    split at accepted
    next =>
      have side := (countGroups?_groupsOf.1 (eq_of_beq accepted)).allow
      rcases side with ⟨_, impossible⟩ | grouped
      · cases impossible
      · exact Or.inl grouped
    next before after found =>
      have joined := eq_append_of_cutGap? found
      rw [Bool.and_eq_true] at accepted
      obtain ⟨_, accepted⟩ := accepted
      split at accepted
      next count counted =>
        rw [joined, countGroups?_gapped] at counted
        obtain ⟨left, right, leftSide, rightSide, sum⟩ := counted
        have bound : left + right ≤ 7 := sum ▸ of_decide_eq_true accepted
        exact Or.inr ⟨before, after, left, right, joined, leftSide, rightSide, bound⟩
      next => cases accepted
  · rintro (grouped | ⟨before, after, left, right, joined, leftSide, rightSide, bound⟩)
    · have unclosed : (text.getLast? == some ':') = false :=
        beq_eq_false_iff_ne.2 grouped.getLast?_ne_colon
      have side : Side true 8 text := Or.inr grouped
      rw [isIpv6, grouped.cutGap?_eq_none, unclosed]
      exact beq_iff_eq.2 (countGroups?_groupsOf.2 side)
    · have counted := countGroups?_gapped.2 ⟨left, right, leftSide, rightSide, rfl⟩
      rw [joined, isIpv6, leftSide.cutGap? after]
      simp only [rightSide.cutGap?_eq_none, counted, Option.isNone_none, Bool.true_and]
      exact decide_eq_true bound

theorem mem_ledGroup_mul {language : Language Char} : text ∈ ledGroup * language ↔
    ∃ part rest, isGroup part = true ∧ rest ∈ language ∧ text = part ++ ':' :: rest := by
  rw [ledGroup]
  simp only [isGroup_iff_mem]
  constructor
  · rintro ⟨_, ⟨part, accepted, _, rfl, rfl⟩, rest, member, rfl⟩
    exact ⟨part, rest, accepted, member, by simp⟩
  · rintro ⟨part, rest, accepted, member, joined⟩
    exact ⟨part ++ [':'], ⟨part, accepted, [':'], rfl, rfl⟩, rest, member, by simp [joined]⟩

theorem grouped_false_iff : Grouped false count text ↔
    ∃ times, count = times + 1 ∧ text ∈ ledGroup ^ times * group := by
  constructor
  · intro grouped
    induction grouped with
    | last accepted =>
        refine ⟨0, rfl, ?_⟩
        rw [pow_zero, one_mul]
        exact isGroup_iff_mem.1 accepted
    | quad impossible => cases impossible
    | @more _ part rest accepted _ ih =>
        obtain ⟨times, same, member⟩ := ih
        refine ⟨times + 1, by rw [same], ?_⟩
        rw [pow_succ', mul_assoc]
        exact mem_ledGroup_mul.2 ⟨part, rest, accepted, member, rfl⟩
  · rintro ⟨times, same, member⟩
    subst same
    induction times generalizing text with
    | zero =>
        rw [pow_zero, one_mul] at member
        exact .last (isGroup_iff_mem.2 member)
    | succ times ih =>
        rw [pow_succ', mul_assoc] at member
        obtain ⟨part, rest, accepted, member, joined⟩ := mem_ledGroup_mul.1 member
        rw [joined]
        exact .more accepted (ih member)

theorem mem_lastWord : text ∈ lastWord ↔
    (∃ part rest, isGroup part = true ∧ isGroup rest = true ∧ text = part ++ ':' :: rest) ∨
      isIpv4 text = true := by
  have pair : text ∈ group * literal [':'] * group ↔
      ∃ part rest, isGroup part = true ∧ rest ∈ group ∧ text = part ++ ':' :: rest :=
    mem_ledGroup_mul
  simp only [isGroup_iff_mem, isIpv4_iff] at pair ⊢
  rw [lastWord, Language.mem_add, pair]

theorem grouped_true_iff : Grouped true count text ↔ (count = 1 ∧ text ∈ group) ∨
    ∃ times, count = times + 2 ∧ text ∈ ledGroup ^ times * lastWord := by
  constructor
  · intro grouped
    induction grouped with
    | last accepted => exact Or.inl ⟨rfl, isGroup_iff_mem.1 accepted⟩
    | quad _ accepted =>
        refine Or.inr ⟨0, rfl, ?_⟩
        rw [pow_zero, one_mul]
        exact mem_lastWord.2 (Or.inr accepted)
    | @more _ part rest accepted _ ih =>
        rcases ih with ⟨one, member⟩ | ⟨times, same, member⟩
        · refine Or.inr ⟨0, by rw [one], ?_⟩
          rw [pow_zero, one_mul]
          exact mem_lastWord.2
            (Or.inl ⟨part, rest, accepted, isGroup_iff_mem.2 member, rfl⟩)
        · refine Or.inr ⟨times + 1, by rw [same], ?_⟩
          rw [pow_succ', mul_assoc]
          exact mem_ledGroup_mul.2 ⟨part, rest, accepted, member, rfl⟩
  · rintro (⟨one, member⟩ | ⟨times, same, member⟩)
    · rw [one]
      exact .last (isGroup_iff_mem.2 member)
    · subst same
      induction times generalizing text with
      | zero =>
          rw [pow_zero, one_mul] at member
          rcases mem_lastWord.1 member with ⟨part, rest, accepted, last, joined⟩ | accepted
          · rw [joined]
            exact .more accepted (.last last)
          · exact .quad rfl accepted
      | succ times ih =>
          rw [pow_succ', mul_assoc] at member
          obtain ⟨part, rest, accepted, member, joined⟩ := mem_ledGroup_mul.1 member
          rw [joined]
          exact .more accepted (ih member)

theorem mem_leftSide {bound : Nat} : text ∈ optional (upTo bound ledGroup * group) ↔
    ∃ left, left ≤ bound + 1 ∧ Side false left text := by
  rw [mem_optional]
  constructor
  · rintro (empty | ⟨led, member, last, lastMember, joined⟩)
    · exact ⟨0, Nat.zero_le _, Or.inl ⟨empty, rfl⟩⟩
    · obtain ⟨times, short, member⟩ := mem_upTo.1 member
      exact ⟨times + 1, Nat.succ_le_succ short,
        Or.inr (grouped_false_iff.2 ⟨times, rfl, led, member, last, lastMember, joined⟩)⟩
  · rintro ⟨left, short, ⟨empty, _⟩ | grouped⟩
    · exact Or.inl empty
    · obtain ⟨times, same, led, member, last, lastMember, joined⟩ := grouped_false_iff.1 grouped
      have fewer : times ≤ bound := by omega
      exact Or.inr ⟨led, mem_upTo.2 ⟨times, fewer, member⟩, last, lastMember, joined⟩

theorem mem_gapped {left right : Language Char} : text ∈ left * gap * right ↔
    ∃ before ∈ left, ∃ after ∈ right, text = before ++ ':' :: ':' :: after := by
  constructor
  · rintro ⟨_, ⟨before, leftMember, _, rfl, rfl⟩, after, rightMember, rfl⟩
    exact ⟨before, leftMember, after, rightMember, by simp⟩
  · rintro ⟨before, leftMember, after, rightMember, joined⟩
    exact ⟨before ++ [':', ':'], ⟨before, leftMember, [':', ':'], rfl, rfl⟩, after, rightMember,
      by simp [joined]⟩

/-- The texts that may stand before a gap with at most `bound` groups. -/
def leftSide : Nat → Language Char
  | 0 => 1
  | bound + 1 => optional (upTo bound ledGroup * group)

/-- The texts behind a gap that make up `count` groups. -/
def rightSide : Nat → Language Char
  | 0 => 1
  | 1 => group
  | count + 2 => ledGroup ^ count * lastWord

theorem mem_leftSide_iff {bound : Nat} :
    text ∈ leftSide bound ↔ ∃ left, left ≤ bound ∧ Side false left text := by
  cases bound with
  | zero =>
      constructor
      · intro empty
        exact ⟨0, Nat.le_refl 0, Or.inl ⟨empty, rfl⟩⟩
      · rintro ⟨left, none, ⟨empty, _⟩ | grouped⟩
        · exact empty
        · obtain ⟨times, same, _⟩ := grouped_false_iff.1 grouped
          omega
  | succ bound => exact mem_leftSide

theorem mem_rightSide_iff : text ∈ rightSide count ↔ Side true count text := by
  unfold Side
  rw [grouped_true_iff]
  constructor
  · intro member
    match count with
    | 0 => exact Or.inl ⟨member, rfl⟩
    | 1 => exact Or.inr (Or.inl ⟨rfl, member⟩)
    | count + 2 => exact Or.inr (Or.inr ⟨count, rfl, member⟩)
  · rintro (⟨empty, zero⟩ | ⟨one, member⟩ | ⟨times, same, member⟩)
    · rw [zero]
      exact empty
    · rw [one]
      exact member
    · rw [same]
      exact member

/-- The alternatives with a gap differ in how the seven groups are shared out. -/
theorem ipv6Address_eq : ipv6Address = ledGroup ^ 6 * lastWord +
    leftSide 0 * gap * rightSide 7 + leftSide 1 * gap * rightSide 6 +
    leftSide 2 * gap * rightSide 5 + leftSide 3 * gap * rightSide 4 +
    leftSide 4 * gap * rightSide 3 + leftSide 5 * gap * rightSide 2 +
    leftSide 6 * gap * rightSide 1 + leftSide 7 * gap * rightSide 0 := by
  have none : upTo 0 ledGroup = 1 := rfl
  simp only [ipv6Address, leftSide, rightSide, none, one_mul, mul_one, pow_zero, pow_one, mul_assoc]

theorem mem_ipv6Address_iff : text ∈ ipv6Address ↔ text ∈ ledGroup ^ 6 * lastWord ∨
    ∃ bound, bound ≤ 7 ∧ text ∈ leftSide bound * gap * rightSide (7 - bound) := by
  rw [ipv6Address_eq]
  simp only [Language.mem_add]
  constructor
  · rintro ((((((((whole | gapped) | gapped) | gapped) | gapped) | gapped) | gapped) | gapped) |
      gapped)
    · exact Or.inl whole
    · exact Or.inr ⟨0, by omega, gapped⟩
    · exact Or.inr ⟨1, by omega, gapped⟩
    · exact Or.inr ⟨2, by omega, gapped⟩
    · exact Or.inr ⟨3, by omega, gapped⟩
    · exact Or.inr ⟨4, by omega, gapped⟩
    · exact Or.inr ⟨5, by omega, gapped⟩
    · exact Or.inr ⟨6, by omega, gapped⟩
    · exact Or.inr ⟨7, by omega, gapped⟩
  · rintro (whole | ⟨bound, short, gapped⟩)
    · simp only [whole, true_or]
    · have cases : bound = 0 ∨ bound = 1 ∨ bound = 2 ∨ bound = 3 ∨ bound = 4 ∨ bound = 5 ∨
          bound = 6 ∨ bound = 7 := by omega
      rcases cases with same | same | same | same | same | same | same | same
      all_goals
        simp only [same, Nat.reduceSub] at gapped
        simp only [gapped, true_or, or_true]

theorem isIpv6_iff : isIpv6 text = true ↔ text ∈ ipv6Address := by
  have whole : Grouped true 8 text ↔ text ∈ ledGroup ^ 6 * lastWord := by
    rw [grouped_true_iff]
    constructor
    · rintro (⟨impossible, _⟩ | ⟨times, same, member⟩)
      · cases impossible
      · have six : times = 6 := by omega
        rwa [six] at member
    · intro member
      exact Or.inr ⟨6, rfl, member⟩
  rw [isIpv6_iff_sides, mem_ipv6Address_iff, whole]
  simp only [mem_gapped, mem_leftSide_iff, mem_rightSide_iff]
  constructor
  · rintro (member | ⟨before, after, left, right, joined, leftSide, rightSide, bound⟩)
    · exact Or.inl member
    · have count : 7 - (7 - right) = right := by omega
      exact Or.inr ⟨7 - right, by omega, before, ⟨left, by omega, leftSide⟩, after,
        count.symm ▸ rightSide, joined⟩
  · rintro (member | ⟨bound, short, before, ⟨left, fewer, leftSide⟩, after, rightSide, joined⟩)
    · exact Or.inl member
    · exact Or.inr ⟨before, after, left, 7 - bound, joined, leftSide, rightSide, by omega⟩

end Groups

section Numbers

open Uri (isIpv4 isIpv6 isOctet)

variable {text : Text}

theorem isOctet_iff_exists_write :
    isOctet text = true ↔ ∃ number, number < 256 ∧ Decimal.write number = text := by
  rw [isOctet_iff]
  constructor
  · intro accepted
    obtain ⟨⟨nonempty, digits⟩, leading, bound⟩ := accepted
    have numeral : Decimal.isNumeral text = true := by
      rw [Decimal.isNumeral, digits, List.isEmpty_eq_false_iff.2 nonempty]
      rfl
    exact ⟨Decimal.value text, Nat.lt_succ_of_le bound, Decimal.write_value numeral leading⟩
  · intro written
    obtain ⟨number, bound, same⟩ := written
    have numeral := Decimal.isNumeral_write number
    rw [Decimal.isNumeral, Bool.and_eq_true, Bool.not_eq_true', List.isEmpty_eq_false_iff] at numeral
    subst same
    refine ⟨numeral, Decimal.leading_write number, ?_⟩
    rw [Decimal.value_write]
    exact Nat.le_of_lt_succ bound

/-- A list of octets is a list of numbers written in decimal. -/
theorem all_isOctet_iff_exists_map {octets : List Text} : octets.all isOctet = true ↔
    ∃ numbers : List Nat, (∀ number ∈ numbers, number < 256) ∧
      numbers.map Decimal.write = octets := by
  induction octets with
  | nil =>
      constructor
      · intro _
        exact ⟨[], nofun, rfl⟩
      · intro _
        rfl
  | cons octet octets ih =>
      rw [List.all_cons, Bool.and_eq_true, isOctet_iff_exists_write, ih]
      constructor
      · intro both
        obtain ⟨⟨number, bound, same⟩, numbers, bounds, others⟩ := both
        refine ⟨number :: numbers, List.forall_mem_cons.2 ⟨bound, bounds⟩, ?_⟩
        rw [List.map_cons, same, others]
      · intro written
        obtain ⟨numbers, bounds, same⟩ := written
        obtain ⟨number, others, equal, first, later⟩ := List.map_eq_cons_iff.1 same
        subst equal
        rw [List.forall_mem_cons] at bounds
        exact ⟨⟨number, bounds.1, first⟩, others, bounds.2, later⟩

def IsQuad (text : Text) : Prop :=
  ∃ numbers : List Nat, numbers.length = 4 ∧ (∀ number ∈ numbers, number < 256) ∧
    text = Text.join '.' (numbers.map Decimal.write)

theorem isIpv4_iff_isQuad : isIpv4 text = true ↔ IsQuad text := by
  rw [isIpv4, Bool.and_eq_true, beq_iff_eq, all_isOctet_iff_exists_map]
  constructor
  · intro accepted
    obtain ⟨four, numbers, bounds, parts⟩ := accepted
    refine ⟨numbers, ?_, bounds, ?_⟩
    · rw [← four, ← parts, List.length_map]
    · rw [parts, Text.join_separate]
  · intro quad
    obtain ⟨numbers, four, bounds, joined⟩ := quad
    have parts : Text.separate '.' text = numbers.map Decimal.write := by
      refine Text.separate_eq_iff.2 ⟨?_, ?_, joined.symm⟩
      · rw [ne_eq, List.map_eq_nil_iff]
        intro none
        rw [none] at four
        cases four
      · intro part member
        obtain ⟨number, _, same⟩ := List.mem_map.1 member
        rw [← same]
        intro dot
        have digits := Decimal.isNumeral_write number
        rw [Decimal.isNumeral, Bool.and_eq_true] at digits
        exact absurd (List.all_eq_true.1 digits.2 '.' dot) (by decide)
    refine ⟨?_, numbers, bounds, parts.symm⟩
    rw [parts, List.length_map, four]

/-- The tests for addresses accept what derives from their productions: the nine alternatives of
version six, which are eight groups or two sides of one gap with seven groups at most, and the
dotted quads of version four, which are four numbers below 256. -/
theorem addresses_told_by_productions (text : Text) :
    (isIpv6 text = true ↔ text ∈ ipv6Address) ∧
      (isIpv6 text = true ↔ Grouped true 8 text ∨
        ∃ before after left right, text = before ++ ':' :: ':' :: after ∧
          Side false left before ∧ Side true right after ∧ left + right ≤ 7) ∧
      (isIpv4 text = true ↔ text ∈ ipv4Address) ∧ (isIpv4 text = true ↔ IsQuad text) :=
  ⟨isIpv6_iff, isIpv6_iff_sides, isIpv4_iff, isIpv4_iff_isQuad⟩

end Numbers

end MagnetUri.Grammar

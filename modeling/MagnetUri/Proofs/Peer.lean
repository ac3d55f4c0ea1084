import MagnetUri.Peer
import MagnetUri.Proofs.Grammar.Literal
import MagnetUri.Proofs.Number

set_option autoImplicit false

/-! Peer addresses and hints. A text is read as a peer exactly where it joins an address and
the digits of a port in the way of the peer's family. A hint's port may have any number of digits,
since no number is rounded into its range from outside. -/

namespace MagnetUri.Peer

section Addresses

open Decimal (isNumeral)
open Grammar (inAddress)

variable {key text address digits : Text} {peer : Peer}

theorem portDigits?_eq_some_iff : portDigits? text = some digits ↔
    text = ':' :: digits ∧ isNumeral digits = true := by
  constructor
  · intro found
    unfold portDigits? at found
    split at found
    next others =>
      split at found
      next numeral =>
        cases found
        exact ⟨rfl, numeral⟩
      next => cases found
    next => cases found
  · intro both
    rw [both.1, portDigits?, if_pos both.2]

theorem unbracketed?_eq_some_iff : unbracketed? key = some (address, digits) ↔
    key = address ++ ':' :: digits ∧ ':' ∉ address ∧ address ≠ [] ∧ isNumeral digits = true := by
  constructor
  · intro found
    unfold unbracketed? at found
    split at found
    next before after cut =>
      split at found
      next => cases found
      next nonempty =>
        obtain ⟨port, valid, same⟩ := Option.map_eq_some_iff.1 found
        cases same
        obtain ⟨written, numeral⟩ := portDigits?_eq_some_iff.1 valid
        cases written
        refine ⟨Text.eq_append_of_cut? cut, Text.not_mem_of_cut? cut, ?_, numeral⟩
        intro empty
        exact nonempty (List.isEmpty_iff.2 empty)
    next => cases found
  · intro shape
    obtain ⟨joined, absent, nonempty, numeral⟩ := shape
    have port := portDigits?_eq_some_iff.2 ⟨rfl, numeral⟩
    rw [unbracketed?, joined, Text.cut?_append absent]
    simp only [List.isEmpty_iff, nonempty, if_false, port, Option.map_some]

theorem bracketed?_eq_some_iff : bracketed? key = some (address, digits) ↔
    key = '[' :: address ++ ']' :: ':' :: digits ∧ ']' ∉ address ∧ address ≠ [] ∧
      isNumeral digits = true := by
  constructor
  · intro found
    unfold bracketed? at found
    split at found
    next inside =>
      split at found
      next before after cut =>
        split at found
        next => cases found
        next nonempty =>
          obtain ⟨port, valid, same⟩ := Option.map_eq_some_iff.1 found
          cases same
          obtain ⟨written, numeral⟩ := portDigits?_eq_some_iff.1 valid
          rw [Text.eq_append_of_cut? cut, written]
          refine ⟨rfl, Text.not_mem_of_cut? cut, ?_, numeral⟩
          intro empty
          exact nonempty (List.isEmpty_iff.2 empty)
      next => cases found
    next => cases found
  · intro shape
    obtain ⟨joined, absent, nonempty, numeral⟩ := shape
    have port := portDigits?_eq_some_iff.2 ⟨rfl, numeral⟩
    rw [joined, List.cons_append, bracketed?, Text.cut?_append absent]
    simp only [List.isEmpty_iff, nonempty, if_false, port, Option.map_some]

inductive IsWritten : Peer → Text → Prop
  | ipv4 {address digits : Text} (valid : Uri.isIpv4 address = true)
      (numeral : isNumeral digits = true) :
      IsWritten { family := .ipv4, address, port := .nearest (Decimal.value digits) }
        (address ++ ':' :: digits)
  | ipv6 {address digits : Text} (valid : Uri.isIpv6 address = true)
      (numeral : isNumeral digits = true) :
      IsWritten { family := .ipv6, address, port := .nearest (Decimal.value digits) }
        ('[' :: address ++ ']' :: ':' :: digits)

theorem not_mem_of_all {char : Char} (all : address.all inAddress = true)
    (other : inAddress char = false) : char ∉ address := by
  intro member
  have inside := List.all_eq_true.1 all char member
  rw [other] at inside
  cases inside

theorem bracketed?_of_isIpv4 (valid : Uri.isIpv4 address = true) :
    bracketed? (address ++ ':' :: digits) = none := by
  apply Option.eq_none_iff_forall_ne_some.2
  intro parts found
  obtain ⟨other, port⟩ := parts
  have joined := (bracketed?_eq_some_iff.1 found).1
  cases address with
  | nil => exact absurd valid (by decide)
  | cons first rest =>
      obtain ⟨same, _⟩ := List.cons.inj joined
      apply not_mem_of_all (Grammar.all_inAddress_of_isIpv4 valid) (by decide : inAddress '[' = false)
      rw [same]
      exact List.mem_cons_self

theorem parse_eq_ok_iff : parse key = .ok peer ↔ IsWritten peer key := by
  constructor
  · intro read
    unfold parse at read
    split at read
    next address digits found =>
      cases read
      obtain ⟨bracketed, valid⟩ := Option.filter_eq_some_iff.1 found
      obtain ⟨joined, _, _, numeral⟩ := bracketed?_eq_some_iff.1 bracketed
      rw [joined]
      exact .ipv6 valid numeral
    next =>
      split at read
      next address digits found =>
        cases read
        obtain ⟨unbracketed, valid⟩ := Option.filter_eq_some_iff.1 found
        obtain ⟨joined, _, _, numeral⟩ := unbracketed?_eq_some_iff.1 unbracketed
        rw [joined]
        exact .ipv4 valid numeral
      next => cases read
  · intro written
    cases written with
    | @ipv4 address digits valid numeral =>
        have nonempty : address ≠ [] := by
          intro empty
          rw [empty] at valid
          exact absurd valid (by decide)
        have parts := unbracketed?_eq_some_iff.2
          ⟨rfl, Grammar.colon_not_mem_of_isIpv4 valid, nonempty, numeral⟩
        rw [parse, bracketed?_of_isIpv4 valid, parts]
        simp only [Option.filter_none, Option.filter_some, valid, if_true]
    | @ipv6 address digits valid numeral =>
        have nonempty : address ≠ [] := by
          intro empty
          rw [empty] at valid
          exact absurd valid (by decide)
        have closed : ']' ∉ address :=
          not_mem_of_all (Grammar.all_inAddress_of_isIpv6 valid) (by decide)
        have parts := bracketed?_eq_some_iff.2 ⟨rfl, closed, nonempty, numeral⟩
        rw [parse, parts]
        simp only [Option.filter_some, valid, if_true]

def inKey (char : Char) : Bool :=
  inAddress char || char == '[' || char == ']'

theorem inKey_of_inAddress {char : Char} (member : inAddress char = true) :
    inKey char = true := by
  rw [inKey, member]
  rfl

theorem all_inKey_of_isNumeral (numeral : isNumeral digits = true) :
    digits.all inKey = true := by
  rw [isNumeral, Bool.and_eq_true] at numeral
  apply List.all_eq_true.2
  intro char member
  have digit := List.all_eq_true.1 numeral.2 char member
  exact inKey_of_inAddress
    (Grammar.inAddress_of_isHexDigit (Grammar.isHexDigit_of_isDigit digit))

theorem all_inKey_of_inAddress (all : address.all inAddress = true) :
    address.all inKey = true := by
  apply List.all_eq_true.2
  intro char member
  exact inKey_of_inAddress (List.all_eq_true.1 all char member)

theorem IsWritten.all_inKey (written : IsWritten peer key) : key.all inKey = true := by
  have marks : inKey '[' = true ∧ inKey ']' = true ∧ inKey ':' = true := by decide
  cases written with
  | ipv4 valid numeral =>
      rw [List.all_append, List.all_cons, marks.2.2, all_inKey_of_isNumeral numeral,
        all_inKey_of_inAddress (Grammar.all_inAddress_of_isIpv4 valid)]
      rfl
  | ipv6 valid numeral =>
      rw [List.cons_append, List.all_cons, List.all_append, List.all_cons, List.all_cons, marks.1,
        marks.2.1, marks.2.2, all_inKey_of_isNumeral numeral,
        all_inKey_of_inAddress (Grammar.all_inAddress_of_isIpv6 valid)]
      rfl

theorem ofHint?_of_not_inKey {char : Char} (other : inKey char = false) (member : char ∈ key) :
    ofHint? key = none := by
  rw [ofHint?]
  split
  next peer read =>
    have inside := List.all_eq_true.1 (parse_eq_ok_iff.1 read).all_inKey char member
    rw [other] at inside
    cases inside
  next => rfl

end Addresses

section Hints

open Decimal (isNumeral isNumeral_iff_mem)

variable {hint key : Text} {peer : Peer} {number : Nat}

def addresses : Family → Language Char
  | .ipv4 => Grammar.ipv4Address
  | .ipv6 => Grammar.ipv6Address

/-- An address and the digits of a port, as they are joined in a family. -/
def join (family : Family) (address digits : Text) : Text :=
  match family with
  | .ipv4 => address ++ ':' :: digits
  | .ipv6 => '[' :: address ++ ']' :: ':' :: digits

/-- A text that joins the address of a peer with digits whose number is its port, from 1 to
65535. -/
def Names (peer : Peer) (hint : Text) : Prop :=
  peer.address ∈ addresses peer.family ∧
    ∃ digits ∈ Grammar.oneOrMore Grammar.digit,
      (1 ≤ Decimal.value digits ∧ Decimal.value digits ≤ 65535) ∧
        peer.port = .finite (Decimal.value digits) ∧ hint = join peer.family peer.address digits

theorem isWritten_iff : IsWritten peer key ↔ peer.address ∈ addresses peer.family ∧
    ∃ digits ∈ Grammar.oneOrMore Grammar.digit,
      peer.port = .nearest (Decimal.value digits) ∧ key = join peer.family peer.address digits := by
  constructor
  · intro written
    cases written with
    | @ipv4 _ digits valid numeral =>
        dsimp only
        exact ⟨Grammar.isIpv4_iff.1 valid, digits, isNumeral_iff_mem.1 numeral, rfl, rfl⟩
    | @ipv6 _ digits valid numeral =>
        dsimp only
        exact ⟨Grammar.isIpv6_iff.1 valid, digits, isNumeral_iff_mem.1 numeral, rfl, rfl⟩
  · intro shape
    obtain ⟨family, address, port⟩ := peer
    obtain ⟨valid, digits, numeral, rounded, joined⟩ := shape
    dsimp only at valid rounded joined
    rw [rounded, joined]
    cases family with
    | ipv4 => exact .ipv4 (Grammar.isIpv4_iff.2 valid) (isNumeral_iff_mem.2 numeral)
    | ipv6 => exact .ipv6 (Grammar.isIpv6_iff.2 valid) (isNumeral_iff_mem.2 numeral)

theorem isPort_eq_true_iff {result : Binary64} :
    isPort result = true ↔ ∃ port, result = .finite port ∧ 1 ≤ port ∧ port ≤ 65535 := by
  cases result with
  | finite port =>
      rw [isPort, decide_eq_true_iff]
      constructor
      · intro bounds
        exact ⟨port, rfl, bounds⟩
      · intro found
        obtain ⟨other, same, bounds⟩ := found
        cases same
        exact bounds
  | infinite =>
      refine iff_of_false nofun ?_
      intro found
      obtain ⟨port, same, _⟩ := found
      cases same

/-- A number is rounded to a port only if it is that port. -/
theorem isPort_nearest_iff : isPort (.nearest number) = true ↔
    (1 ≤ number ∧ number ≤ 65535) ∧ Binary64.nearest number = .finite number := by
  have safe : 65535 < Binary64.weight 53 := by decide
  rw [isPort_eq_true_iff]
  constructor
  · intro found
    obtain ⟨port, rounded, bounds⟩ := found
    have same : number = port :=
      (Binary64.nearest_eq_finite_iff (Nat.lt_of_le_of_lt bounds.2 safe)).1 rounded
    rw [same] at rounded ⊢
    exact ⟨bounds, rounded⟩
  · intro shape
    exact ⟨number, shape.2, shape.1⟩

theorem ofHint?_eq_some_iff :
    ofHint? hint = some peer ↔ parse hint = .ok peer ∧ isPort peer.port = true := by
  unfold ofHint?
  cases parse hint with
  | ok other =>
      rw [Option.ite_none_right_eq_some, Option.some.injEq, Except.ok.injEq]
      constructor
      · intro both
        exact ⟨both.2, both.2 ▸ both.1⟩
      · intro both
        exact ⟨both.1 ▸ both.2, both.1⟩
  | error => exact iff_of_false nofun fun both => nomatch both.1

theorem ofHint?_eq_some_iff_names : ofHint? hint = some peer ↔ Names peer hint := by
  rw [ofHint?_eq_some_iff, parse_eq_ok_iff, isWritten_iff]
  constructor
  · intro read
    obtain ⟨⟨valid, digits, numeral, rounded, joined⟩, inRange⟩ := read
    rw [rounded] at inRange
    obtain ⟨bounds, kept⟩ := isPort_nearest_iff.1 inRange
    exact ⟨valid, digits, numeral, bounds, rounded.trans kept, joined⟩
  · intro named
    obtain ⟨valid, digits, numeral, bounds, port, joined⟩ := named
    have kept : Binary64.nearest (Decimal.value digits) = .finite (Decimal.value digits) :=
      (Binary64.nearest_eq_finite_iff (Nat.lt_of_le_of_lt bounds.2 (by decide))).2 rfl
    refine ⟨⟨valid, digits, numeral, port.trans kept.symm, joined⟩, ?_⟩
    rw [port, isPort, decide_eq_true_iff]
    exact bounds

/-- A hint is read as a peer exactly where it names it, with the address as it stands there and
the port as the number of its digits. The text that joins an address and a port is read back,
with any number of zeros before the port, exactly where both are valid. -/
theorem hints_read_as_named :
    (∀ hint peer, ofHint? hint = some peer ↔ Names peer hint) ∧
      ∀ family address zeros port,
        ofHint? (join family address (List.replicate zeros '0' ++ Decimal.write port)) =
            some { family, address, port := .finite port } ↔
          address ∈ addresses family ∧ 1 ≤ port ∧ port ≤ 65535 := by
  refine ⟨fun _ _ => ofHint?_eq_some_iff_names, ?_⟩
  intro family address zeros port
  rw [ofHint?_eq_some_iff_names]
  constructor
  · intro named
    obtain ⟨valid, digits, _, bounds, same, _⟩ := named
    cases same
    exact ⟨valid, bounds⟩
  · intro shape
    obtain ⟨numeral, value⟩ := Decimal.numeral_padded zeros port
    refine ⟨shape.1, _, isNumeral_iff_mem.1 numeral, ?_, ?_, rfl⟩
    · rw [value]
      exact shape.2
    · rw [value]

end Hints

end MagnetUri.Peer

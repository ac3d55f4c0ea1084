import MagnetUri.Field
import MagnetUri.Proofs.Percent.Parting
import MagnetUri.Proofs.Percent.Pieces
import MagnetUri.Proofs.Uri.Ascii

set_option autoImplicit false

/-! The meaning of single parameters. The byte tests for keys, also where a key is told
apart after its second byte, come to the same as comparing the keys as they are spelled out. -/

namespace MagnetUri.Field

section Topics

open Character (isDigit IsAscii isAscii_of_isDigit toNat_ofNat_of_lt)

variable {bytes : List UInt8}

theorem encodeChar_of_isAscii {char : Char} (ascii : IsAscii char) :
    Utf8.encodeChar char = [UInt8.ofNat char.toNat] := by
  have small : char.toNat < 0x80 := ascii
  simp only [Utf8.encodeChar]
  rw [if_pos small]

theorem isDigitByte_iff {byte : UInt8} :
    isDigitByte byte = true ↔ ∃ digit, isDigit digit = true ∧ Utf8.encodeChar digit = [byte] := by
  rw [isDigitByte, Bool.and_eq_true, decide_eq_true_iff, decide_eq_true_iff,
    UInt8.le_iff_toNat_le, UInt8.le_iff_toNat_le]
  change 48 ≤ byte.toNat ∧ byte.toNat ≤ 57 ↔ _
  constructor
  · rintro ⟨least, greatest⟩
    have code : (Char.ofNat byte.toNat).toNat = byte.toNat :=
      toNat_ofNat_of_lt (by omega)
    have digit : isDigit (Char.ofNat byte.toNat) = true := by
      rw [Grammar.isDigit_iff, code]
      exact ⟨least, greatest⟩
    have ascii : IsAscii (Char.ofNat byte.toNat) := by
      rw [IsAscii, code]
      omega
    refine ⟨Char.ofNat byte.toNat, digit, ?_⟩
    rw [encodeChar_of_isAscii ascii, code, UInt8.ofNat_toNat]
  · rintro ⟨digit, inside, encoded⟩
    have bounds := Grammar.isDigit_iff.1 inside
    rw [encodeChar_of_isAscii (isAscii_of_isDigit inside)] at encoded
    rw [← (List.cons.inj encoded).1, Utf8.toNat_byte (by omega)]
    exact bounds

theorem all_isDigitByte_iff : bytes.all isDigitByte = true ↔
    ∃ digits : Text, digits.all isDigit = true ∧ Utf8.encode digits = bytes := by
  induction bytes with
  | nil => exact ⟨fun _ => ⟨[], rfl, rfl⟩, fun _ => rfl⟩
  | cons byte rest ih =>
      rw [List.all_cons, Bool.and_eq_true, isDigitByte_iff, ih]
      constructor
      · rintro ⟨⟨digit, first, firstEncoded⟩, digits, later, laterEncoded⟩
        refine ⟨digit :: digits, ?_, ?_⟩
        · rw [List.all_cons, first, later]
          rfl
        · rw [← laterEncoded]
          exact (List.flatMap_cons).trans (congrArg (· ++ Utf8.encode digits) firstEncoded)
      · rintro ⟨digits, all, encoded⟩
        cases digits with
        | nil => cases encoded
        | cons digit digits =>
            rw [List.all_cons, Bool.and_eq_true] at all
            have ascii := isAscii_of_isDigit all.1
            have parts : UInt8.ofNat digit.toNat :: Utf8.encode digits = byte :: rest := by
              rw [← encoded]
              exact (congrArg (· ++ Utf8.encode digits) (encodeChar_of_isAscii ascii)).symm
            obtain ⟨first, later⟩ := List.cons.inj parts
            exact ⟨⟨digit, all.1, by rw [encodeChar_of_isAscii ascii, first]⟩, digits, all.2, later⟩

/-- The keys of exact topics: `xt`, alone or before a dot and a number. -/
def TopicKey (key : Text) : Prop :=
  key = ['x', 't'] ∨
    ∃ digits : Text, digits ≠ [] ∧ digits.all isDigit = true ∧ key = ['x', 't', '.'] ++ digits

theorem isTopicKey_iff : isTopicKey bytes = true ↔ ∃ key, TopicKey key ∧ bytes = Utf8.encode key := by
  constructor
  · intro accepted
    unfold isTopicKey at accepted
    split at accepted
    next => exact ⟨['x', 't'], Or.inl rfl, rfl⟩
    next number _ =>
      rw [Bool.and_eq_true, Bool.not_eq_true', List.isEmpty_eq_false_iff] at accepted
      obtain ⟨digits, all, encoded⟩ := all_isDigitByte_iff.1 accepted.2
      have nonempty : digits ≠ [] := by
        intro empty
        rw [empty] at encoded
        exact accepted.1 encoded.symm
      refine ⟨['x', 't', '.'] ++ digits, Or.inr ⟨digits, nonempty, all, rfl⟩, ?_⟩
      rw [← encoded]
      rfl
    next => cases accepted
  · rintro ⟨key, plain | ⟨digits, nonempty, all, numbered⟩, encoded⟩
    · rw [encoded, plain]
      rfl
    · have number := all_isDigitByte_iff.2 ⟨digits, all, rfl⟩
      have there : Utf8.encode digits ≠ [] := by
        intro empty
        cases digits with
        | nil => exact nonempty rfl
        | cons digit digits =>
            rw [List.all_cons, Bool.and_eq_true] at all
            have first : Utf8.encodeChar digit = [] := (List.append_eq_nil_iff.1 empty).1
            rw [encodeChar_of_isAscii (isAscii_of_isDigit all.1)] at first
            cases first
      rw [encoded, numbered]
      change (!(Utf8.encode digits).isEmpty && (Utf8.encode digits).all isDigitByte) = true
      rw [number, List.isEmpty_eq_false_iff.2 there]
      rfl

def IsTopic (param : Param) : Prop :=
  ∃ key, TopicKey key ∧ param.key.bytes = Utf8.encode key

theorem isTopic_iff {param : Param} : isTopic param = true ↔ IsTopic param :=
  isTopicKey_iff

instance : DecidablePred IsTopic :=
  fun param => decidable_of_iff (isTopic param = true) isTopic_iff

theorem isUri_iff {text : Text} : isUri text = true ↔ ∃ uri, Uri.parse text = .ok uri := by
  unfold isUri
  split
  next uri found => exact ⟨fun _ => ⟨uri, found⟩, fun _ => rfl⟩
  next error found =>
    constructor
    · intro impossible
      cases impossible
    · rintro ⟨uri, other⟩
      cases found.symm.trans other

theorem isExtension_iff {name : Text} {param : Param} : isExtension name param = true ↔
    param.hasValue = true ∧ param.key.bytes = Utf8.encode (['x', '.'] ++ name) := by
  have lead : Utf8.encode (['x', '.'] ++ name) = [0x78, 0x2E] ++ Utf8.encode name :=
    List.flatMap_append
  rw [isExtension, Bool.and_eq_true, Bool.and_eq_true, decide_eq_true_iff, and_assoc, lead]
  apply and_congr_right
  intro _
  constructor
  · rintro ⟨_, tested⟩
    split at tested
    next first rest found =>
      rw [Bool.and_eq_true, Percent.Encoded.spells_iff, Percent.Encoded.spells_iff] at tested
      rw [← Percent.Encoded.bytes_of_splitAt? found, tested.1, tested.2]
      rfl
    next => cases tested
  · intro joined
    have ascii : ∀ byte ∈ ([0x78, 0x2E] : List UInt8), byte.toNat < 0x80 := by
      rw [List.forall_mem_cons, List.forall_mem_singleton]
      decide
    obtain ⟨first, rest, found, firstBytes, restBytes⟩ :=
      Percent.Encoded.exists_splitAt? ascii joined
    have split : param.key.splitAt? 2 = some (first, rest) := found
    have long : 2 ≤ param.key.size := by
      rw [← Percent.Encoded.length_bytes, joined, List.length_append]
      exact Nat.le_add_right _ _
    rw [split]
    simp only [Bool.and_eq_true, Percent.Encoded.spells_iff]
    exact ⟨long, firstBytes, restBytes⟩

/-- A topic's path is parted at its last colon; without one all of it is the hash. -/
theorem splitTopicPath_cases {path space hash : Text} (parted : splitTopicPath path = (space, hash)) :
    ':' ∉ hash ∧ (path = space ++ ':' :: hash ∨ ':' ∉ path ∧ space = [] ∧ hash = path) := by
  unfold splitTopicPath at parted
  cases cut : Text.cutLast? ':' path with
  | none =>
      rw [cut] at parted
      cases parted
      have absent := Text.cutLast?_eq_none_iff.1 cut
      exact ⟨absent, Or.inr ⟨absent, rfl, rfl⟩⟩
  | some parts =>
      rw [cut] at parted
      cases parted
      exact ⟨Text.not_mem_of_cutLast? cut, Or.inl (Text.eq_append_of_cutLast? cut)⟩

end Topics

section Extensions

open Percent (Stored)

variable {name : Text} {key : Stored}

theorem bytes_iff_parts {bytes first rest : List UInt8} : bytes = first ++ rest ↔
    bytes.take first.length = first ∧ bytes.drop first.length = rest := by
  constructor
  · intro same
    rw [same, List.take_left, List.drop_left]
    exact ⟨rfl, rfl⟩
  · rintro ⟨front, behind⟩
    rw [← List.take_append_drop first.length bytes, front, behind]

theorem spells_extension_iff : key.spells (['x', '.'] ++ name) = true ↔
    key.bytes.take 2 = [0x78, 0x2E] ∧ key.bytes.drop 2 = Utf8.encode name := by
  have lead : Utf8.encode (['x', '.'] ++ name) = [0x78, 0x2E] ++ Utf8.encode name :=
    List.flatMap_append
  rw [Stored.spells_iff, lead]
  exact bytes_iff_parts

/-- A key of bytes that begin with `x.` can be told apart behind them. -/
theorem exists_splitAt_of_lead (lead : key.bytes.take 2 = [0x78, 0x2E]) :
    ∃ first rest, key.splitAt 2 = .ok (some (first, rest)) := by
  obtain ⟨found, split, some_iff, _⟩ := key.splitAt_iff 2
  have joined : key.bytes = [0x78, 0x2E] ++ key.bytes.drop 2 := by
    rw [← lead, List.take_append_drop]
  have ascii : ∀ byte ∈ ([0x78, 0x2E] : List UInt8), byte.toNat < 0x80 := by
    rw [List.forall_mem_cons, List.forall_mem_singleton]
    decide
  have long : 2 ≤ key.size := by
    rw [← key.length_bytes, joined, List.length_append]
    exact Nat.le_add_right _ _
  have there : found.isSome = true := by
    apply some_iff.2
    exact ⟨by decide, Int.ofNat_le.2 long, Stored.not_cutsLiteral_of_ascii ascii joined⟩
  obtain ⟨⟨first, rest⟩, same⟩ := Option.isSome_iff_exists.1 there
  exact ⟨first, rest, by rw [split, same]⟩

theorem isExtensionKey_of_value (name : Text) (key : Stored) :
    isExtensionKey name true key = .ok (key.spells (['x', '.'] ++ name)) := by
  obtain ⟨found, split, some_iff, parts⟩ := key.splitAt_iff 2
  rw [isExtensionKey, Bool.true_and, split]
  cases found with
  | none =>
      -- Without parts the key does not begin with the two bytes.
      have other : key.spells (['x', '.'] ++ name) = false := by
        rw [Bool.eq_false_iff, ne_eq, spells_extension_iff]
        rintro ⟨lead, _⟩
        obtain ⟨first, rest, parted⟩ := exists_splitAt_of_lead lead
        cases split.symm.trans parted
      rw [other]
      exact ite_self _
  | some both =>
      obtain ⟨first, rest⟩ := both
      obtain ⟨_, front, behind, _⟩ := parts first rest rfl
      have long : 2 ≤ key.size := Int.ofNat_le.1 (some_iff.1 rfl).2.1
      rw [if_pos (decide_eq_true long)]
      apply congrArg Except.ok
      rw [Bool.eq_iff_iff, Bool.and_eq_true, spells_extension_iff, Stored.spells_iff,
        Stored.spells_iff, front, behind]
      rfl

theorem isExtensionKey_eq (name : Text) (hasValue : Bool) (key : Stored) :
    isExtensionKey name hasValue key = .ok (hasValue && key.spells (['x', '.'] ++ name)) := by
  cases hasValue with
  | false => rfl
  | true => exact isExtensionKey_of_value name key

/-- A parameter's key was kept when it was read, and so are the parts it is told apart into. -/
theorem testExtension_eq (name : Text) (param : Param) :
    testExtension name param = .ok (isExtension name param) := by
  have kept : Stored.keep (Text.units param.key.text) param.key.plusAsSpace =
      .ok param.key.stored := dif_pos param.key.stored.whole
  have same : (param.hasValue && param.key.stored.spells (['x', '.'] ++ name)) =
      isExtension name param := by
    rw [Bool.eq_iff_iff, Bool.and_eq_true, isExtension_iff, Stored.spells_iff,
      Percent.Encoded.bytes_stored]
  rw [testExtension, kept, Except.bind, isExtensionKey_eq, same]
  rfl

/-- The test for an extension holds of a parameter with a value whose key compares equal to `x.`
and the name, and of no other: of keys in tokens and, without failing, of keys in units. -/
theorem extension_told_as_by_comparison (name : Text) :
    (∀ param : Param, isExtension name param = true ↔
      param.hasValue = true ∧ param.key.spells (['x', '.'] ++ name) = true) ∧
    ∀ (hasValue : Bool) (key : Stored), ∃ verdict,
      isExtensionKey name hasValue key = .ok verdict ∧
        (verdict = true ↔ hasValue = true ∧ key.spells (['x', '.'] ++ name) = true) := by
  constructor
  · intro param
    rw [isExtension_iff, Percent.Encoded.spells_iff]
  · intro hasValue key
    exact ⟨_, isExtensionKey_eq name hasValue key, Bool.and_eq_true_iff⟩

/-- A key with an escaped prefix, and one whose second byte lies in a character. -/
example : ((Param.read true "%78.n+=1".toList).toOption.map (isExtension ['n', ' '])) = some true ∧
    ((Param.read true "x€=1".toList).toOption.map (isExtension ['€'])) = some false := by
  decide

end Extensions

end MagnetUri.Field

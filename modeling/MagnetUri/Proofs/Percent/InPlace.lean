import MagnetUri.Percent.InPlace
import MagnetUri.Proofs.Percent.Mend
import MagnetUri.Proofs.Text.Window
import MagnetUri.Proofs.Utf8.Canonical

set_option autoImplicit false

/-! Encoded text read where it stands, and encoded text read token by token. Both have the same
bytes, as many as either size says. Strict decoding and the comparison with plain text tell the same
texts, unless the decoded bytes begin with a byte order mark. -/

namespace MagnetUri

open Character (IsAscii isHexDigit)

variable {char : Char} {unit : UInt16} {text : Text} {rest : List UInt16} {plusAsSpace : Bool}

namespace Text

theorem codeAt_of_not_leading (single : isLeading unit = false) (rest : List UInt16) :
    codeAt unit rest = (unit.toNat, rest) := by
  unfold codeAt
  split
  next => rfl
  next => rw [single, Bool.false_and, if_neg Bool.false_ne_true]

/-- A code is that of the first unit or of a pair that it begins. -/
theorem codeAt_cases (unit : UInt16) (rest : List UInt16) :
    codeAt unit rest = (unit.toNat, rest) ∨
      0xD800 ≤ unit.toNat ∧ 0x10000 ≤ (codeAt unit rest).1 ∧ (codeAt unit rest).1 < 0x110000 := by
  unfold codeAt
  split
  next => exact .inl rfl
  next next others =>
    split
    next pair =>
      simp only [isLeading, isTrailing, Bool.and_eq_true, decide_eq_true_iff] at pair
      right
      dsimp only
      omega
    next => exact .inl rfl

theorem codeAt_unitsOf (char : Char) (rest : List UInt16) : ∃ unit others,
    unitsOf char = unit :: others ∧ codeAt unit (others ++ rest) = (char.toNat, rest) := by
  have bounds := Utf8.code_bounds char
  unfold unitsOf
  split
  next narrow =>
    have code : (UInt16.ofNat char.toNat).toNat = char.toNat := by
      rw [UInt16.toNat_ofNat']
      omega
    refine ⟨_, [], rfl, ?_⟩
    rw [List.nil_append, codeAt_of_not_leading, code]
    rw [isLeading, code, Bool.and_eq_false_iff, decide_eq_false_iff_not, decide_eq_false_iff_not]
    omega
  next wide =>
    have leading : (UInt16.ofNat (0xD800 + (char.toNat - 0x10000) / 0x400)).toNat =
        0xD800 + (char.toNat - 0x10000) / 0x400 := by
      rw [UInt16.toNat_ofNat']
      omega
    have trailing : (UInt16.ofNat (0xDC00 + (char.toNat - 0x10000) % 0x400)).toNat =
        0xDC00 + (char.toNat - 0x10000) % 0x400 := by
      rw [UInt16.toNat_ofNat']
      omega
    refine ⟨_, _, rfl, ?_⟩
    rw [List.singleton_append, codeAt, if_pos, leading, trailing, Prod.mk.injEq]
    · refine ⟨?_, rfl⟩
      omega
    · simp only [isLeading, isTrailing, leading, trailing, Bool.and_eq_true, decide_eq_true_iff]
      omega

end Text

namespace Percent

/-- The bytes of a code are as many as its size says, for half of a pair as well. -/
theorem length_codeBytes {code : Nat} (small : code < 0x110000) :
    (codeBytes code).length = codeSize code := by
  rw [codeBytes, Utf8.length_encodeChar]
  split
  next half =>
    rw [codeSize, if_neg (by omega), if_neg (by omega), if_pos (by omega)]
    rfl
  next whole =>
    rw [Utf8.width, Utf8.toNat_ofNat_of_code (by omega)]
    rfl

theorem codeBytes_toNat (char : Char) : codeBytes char.toNat = Utf8.encodeChar char := by
  have bounds := Utf8.code_bounds char
  rw [codeBytes, if_neg (by omega), Char.ofNat_toNat]

theorem codeAt_of_toNat_lt (small : unit.toNat < 0xD800) (rest : List UInt16) :
    Text.codeAt unit rest = (unit.toNat, rest) :=
  (Text.codeAt_cases unit rest).resolve_right fun pair => Nat.not_le.2 small pair.1

theorem sizeIn_percent (percent : unit.toNat = 0x25) :
    sizeIn (unit :: rest) = 1 + sizeIn (rest.drop 2) := by
  rw [sizeIn, codeAt_of_toNat_lt (by omega)]
  exact if_pos percent

theorem sizeIn_other (other : unit.toNat ≠ 0x25) : sizeIn (unit :: rest) =
    codeSize (Text.codeAt unit rest).1 + sizeIn (Text.codeAt unit rest).2 := by
  rw [sizeIn]
  apply if_neg
  rcases Text.codeAt_cases unit rest with single | pair
  · rw [single]
    exact other
  · omega

theorem sizeIn_ascii (small : unit.toNat < 0x80) (other : unit.toNat ≠ 0x25) :
    sizeIn (unit :: rest) = 1 + sizeIn rest := by
  rw [sizeIn_other other, codeAt_of_toNat_lt (by omega), codeSize, if_pos small]

theorem length_bytesIn (plusAsSpace : Bool) (units : List UInt16) :
    (bytesIn plusAsSpace units).length = sizeIn units := by
  fun_induction bytesIn plusAsSpace units with
  | case1 => rw [List.length_nil, sizeIn]
  | case2 unit rest percent ih =>
      rw [List.length_cons, ih, sizeIn_percent percent, Nat.add_comm]
  | case3 unit rest other plus ih =>
      rw [List.length_cons, ih, sizeIn_ascii (by omega) other, Nat.add_comm]
  | case4 unit rest other _ ascii ih =>
      rw [List.length_cons, ih, sizeIn_ascii ascii other, Nat.add_comm]
  | case5 unit rest other _ _ found ih =>
      have small : found.1 < 0x110000 := by
        have bounded := unit.toNat_lt
        rcases Text.codeAt_cases unit rest with single | pair
        · rw [show found = Text.codeAt unit rest from rfl, single]
          omega
        · exact pair.2.2
      rw [List.length_append, length_codeBytes small, ih, sizeIn_other other]

theorem digitIn?_unit (digit : HexDigit) :
    digitIn? (some (UInt16.ofNat digit.char.toNat)) = some digit.value := by
  have ascii : IsAscii digit.char := Character.isAscii_of_isHexDigit digit.valid
  have small : digit.char.toNat < 0x80 := ascii
  obtain ⟨value, found⟩ := Option.isSome_iff_exists.1 digit.valid
  rw [digitIn?, Option.bind_some, Text.toNat_ofNat_of_isAscii ascii, if_pos small,
    Char.ofNat_toNat, HexDigit.value, found, Option.getD_some]

theorem units_escape (high low : HexDigit) (rest : Text) :
    Text.units ('%' :: high.char :: low.char :: rest) =
      UInt16.ofNat '%'.toNat :: UInt16.ofNat high.char.toNat :: UInt16.ofNat low.char.toNat ::
        Text.units rest := by
  rw [Text.units_cons (by decide), Text.units_cons (Character.isAscii_of_isHexDigit high.valid),
    Text.units_cons (Character.isAscii_of_isHexDigit low.valid)]

theorem bytesIn_ascii (small : unit.toNat < 0x80) (other : unit.toNat ≠ 0x25) :
    bytesIn plusAsSpace (unit :: rest) =
      (if unit.toNat = 0x2B ∧ plusAsSpace = true then 0x20 else UInt8.ofNat unit.toNat) ::
        bytesIn plusAsSpace rest := by
  rw [bytesIn, if_neg other, if_pos small]
  split
  next => rfl
  next => rfl

theorem bytesIn_wide (wide : 0x80 ≤ unit.toNat) : bytesIn plusAsSpace (unit :: rest) =
    codeBytes (Text.codeAt unit rest).1 ++ bytesIn plusAsSpace (Text.codeAt unit rest).2 := by
  rw [bytesIn, if_neg (by omega), if_neg (by omega), if_neg (by omega)]

theorem bytesIn_unitsOf (plain : char ≠ '%') : bytesIn plusAsSpace (Text.unitsOf char ++ rest) =
    Token.bytes plusAsSpace (.literal char plain) ++ bytesIn plusAsSpace rest := by
  rw [Token.bytes]
  by_cases ascii : IsAscii char
  · have small : char.toNat < 0x80 := ascii
    have code := Text.toNat_ofNat_of_isAscii ascii
    have only : Text.unitsOf char = [UInt16.ofNat char.toNat] := if_pos (by omega)
    have other : char.toNat ≠ 0x25 := fun percent => plain (Char.toNat_inj.1 percent)
    have plus : char.toNat = 0x2B ↔ char = '+' :=
      ⟨fun same => Char.toNat_inj.1 same, fun same => congrArg Char.toNat same⟩
    rw [only, List.singleton_append, bytesIn_ascii (by omega) (by omega), code]
    simp only [plus]
    split
    next => rfl
    next =>
      rw [Utf8.encodeChar, if_pos small]
      rfl
  · obtain ⟨unit, others, split, found⟩ := Text.codeAt_unitsOf char rest
    have large : 0x80 ≤ char.toNat := Nat.not_lt.1 ascii
    have wide : 0x80 ≤ unit.toNat := by
      rcases Text.codeAt_cases unit (others ++ rest) with single | pair
      · rw [single] at found
        rw [(Prod.mk.inj found).1]
        exact large
      · omega
    have literal : char ≠ '+' := by
      intro plus
      exact ascii (plus ▸ by decide)
    rw [split, List.cons_append, bytesIn_wide wide, found, codeBytes_toNat,
      if_neg fun both => literal both.1]

theorem bytesIn_units (plusAsSpace : Bool) (tokens : List Token) :
    bytesIn plusAsSpace (Text.units (writeTokens tokens)) =
      tokens.flatMap (Token.bytes plusAsSpace) := by
  induction tokens with
  | nil =>
      change bytesIn plusAsSpace [] = []
      rw [bytesIn]
  | cons token others ih =>
      rw [writeTokens_cons, List.flatMap_cons, ← ih]
      cases token with
      | escape high low =>
          change bytesIn plusAsSpace
            (Text.units ('%' :: high.char :: low.char :: writeTokens others)) = _
          rw [units_escape, bytesIn, if_pos (by decide)]
          simp only [List.getElem?_cons_zero, List.getElem?_cons_succ, digitIn?_unit,
            Option.getD_some]
          rfl
      | literal char plain =>
          change bytesIn plusAsSpace (Text.units (char :: writeTokens others)) = _
          rw [Text.units, List.flatMap_cons, bytesIn_unitsOf plain]
          rfl

theorem digitIn?_shows {window : List UInt16} (shows_ : Text.Shows window text) :
    (digitIn? window[0]?).isSome = text.head?.any isHexDigit := by
  cases shows_ with
  | nil => rfl
  | @ascii char _ _ ascii _ =>
      have small : char.toNat < 0x80 := ascii
      simp only [List.getElem?_cons_zero, digitIn?, Option.bind_some,
        Text.toNat_ofNat_of_isAscii ascii, if_pos small, Char.ofNat_toNat]
      rfl
  | @beyond unit _ char _ wide foreign =>
      have other : isHexDigit char = false := by
        rw [Bool.eq_false_iff]
        exact fun digit => foreign (Character.isAscii_of_isHexDigit digit)
      rw [List.head?_cons, Option.any_some, other, List.getElem?_cons_zero, digitIn?,
        Option.bind_some, if_neg (by omega)]
      rfl

/-- Two digits stand in front of units where they stand in front of the text. -/
theorem digits_units (text : Text) :
    ((digitIn? (Text.units text)[0]?).isSome && (digitIn? (Text.units text)[1]?).isSome) =
      completesEscape text := by
  have shown := Text.shows_units text
  rw [digitIn?_shows shown]
  cases text with
  | nil => rfl
  | cons high others =>
      rw [List.head?_cons, Option.any_some]
      cases digit : isHexDigit high with
      | false => cases others <;> simp [completesEscape, digit]
      | true =>
          rw [Text.units_cons (Character.isAscii_of_isHexDigit digit), List.getElem?_cons_succ,
            digitIn?_shows (Text.shows_units others), Bool.true_and]
          cases others with
          | nil => rfl
          | cons low more =>
              rw [completesEscape, digit, Bool.true_and]
              rfl

theorem ne_percent_of_mem_unitsOf (plain : char ≠ '%') (member : unit ∈ Text.unitsOf char) :
    unit.toNat ≠ 0x25 := by
  have bounds := Utf8.code_bounds char
  unfold Text.unitsOf at member
  split at member
  next =>
    rw [List.mem_singleton.1 member, UInt16.toNat_ofNat']
    intro percent
    have code : char.toNat = 0x25 := by omega
    exact plain (Char.toNat_inj.1 code)
  next =>
    simp only [List.mem_cons, List.not_mem_nil, or_false] at member
    rcases member with leading | trailing
    · rw [leading, UInt16.toNat_ofNat']
      omega
    · rw [trailing, UInt16.toNat_ofNat']
      omega

theorem wholeIn_append {run : List UInt16} (plain : ∀ unit ∈ run, unit.toNat ≠ 0x25)
    (rest : List UInt16) : wholeIn (run ++ rest) = wholeIn rest := by
  induction run with
  | nil => rfl
  | cons unit others ih =>
      rw [List.forall_mem_cons] at plain
      rw [List.cons_append, wholeIn, if_neg plain.1, ih plain.2]

/-- The units of a text have whole escapes where the text has. -/
theorem wholeIn_units_iff : wholeIn (Text.units text) = true ↔ Readable text := by
  rw [← brokenEscape?_eq_none_iff]
  induction text using escapes_induction with
  | nil => exact iff_of_true (by rw [Text.units, List.flatMap_nil, wholeIn]) rfl
  | plain char rest plain ih =>
      rw [Text.units, List.flatMap_cons, brokenEscape?_plain plain, Option.map_eq_none_iff, ← ih,
        wholeIn_append fun unit member => ne_percent_of_mem_unitsOf plain member]
      rfl
  | escape high low rest first second ih =>
      have digits := digits_units (high :: low :: rest)
      rw [completesEscape, first, second] at digits
      rw [brokenEscape?_escape first second, Option.map_eq_none_iff, ← ih,
        Text.units_cons (by decide), wholeIn, if_pos (by decide), digits,
        Text.units_cons (Character.isAscii_of_isHexDigit first),
        Text.units_cons (Character.isAscii_of_isHexDigit second)]
      rfl
  | broken rest incomplete _ =>
      rw [brokenEscape?_broken incomplete, Text.units_cons (by decide), wholeIn,
        if_pos (by decide), digits_units, incomplete]
      exact iff_of_false Bool.false_ne_true (Option.some_ne_none 0)

def Encoded.stored (encoded : Encoded) : Stored where
  units := Text.units encoded.text
  plusAsSpace := encoded.plusAsSpace
  whole := wholeIn_units_iff.2 ⟨encoded.tokens, rfl⟩

theorem Encoded.bytes_stored (encoded : Encoded) : encoded.stored.bytes = encoded.bytes :=
  bytesIn_units encoded.plusAsSpace encoded.tokens

namespace Stored

theorem length_bytes (stored : Stored) : stored.bytes.length = stored.size :=
  length_bytesIn stored.plusAsSpace stored.units

theorem spells_iff {stored : Stored} {plain : Text} :
    stored.spells plain = true ↔ stored.bytes = Utf8.encode plain := by
  simp only [spells, Bool.and_eq_true, beq_iff_eq, ← length_bytes]
  exact (and_congr_left' eq_comm).trans Encoded.length_eq_and_isPrefixOf_iff

theorem sameBytes_iff {left right : Stored} :
    left.sameBytes right = true ↔ left.bytes = right.bytes := by
  simp only [sameBytes, Bool.and_eq_true, beq_iff_eq, ← length_bytes]
  exact Encoded.length_eq_and_isPrefixOf_iff

/-- What is kept in the units of a text is an encoded text. -/
theorem exists_encoded {stored : Stored} (written : stored.units = Text.units text) :
    ∃ encoded : Encoded, encoded.text = text ∧ encoded.stored = stored := by
  obtain ⟨units, plusAsSpace, whole⟩ := stored
  obtain rfl : units = Text.units text := written
  obtain ⟨tokens, same⟩ := wholeIn_units_iff.1 whole
  subst same
  exact ⟨{ tokens, plusAsSpace }, rfl, rfl⟩

end Stored

/-- The size is the number of bytes, and either comparison is equality of bytes: in units, be
there halves of pairs or not, and in tokens, which have the bytes of their units. -/
theorem size_and_comparisons_follow_bytes :
    (∀ (left right : Stored) (plain : Text),
      left.size = left.bytes.length ∧
      (left.spells plain = true ↔ left.bytes = Utf8.encode plain) ∧
      (left.sameBytes right = true ↔ left.bytes = right.bytes)) ∧
    ∀ (left right : Encoded) (plain : Text),
      left.stored.bytes = left.bytes ∧ left.stored.size = left.size ∧
      left.size = left.bytes.length ∧
      (left.spells plain = true ↔ left.bytes = Utf8.encode plain) ∧
      (left.sameBytes right = true ↔ left.bytes = right.bytes) := by
  constructor
  · intro left right plain
    exact ⟨left.length_bytes.symm, Stored.spells_iff, Stored.sameBytes_iff⟩
  · intro left right plain
    have size : left.stored.size = left.size := by
      rw [← Stored.length_bytes, left.bytes_stored, left.length_bytes]
    exact ⟨left.bytes_stored, size, left.length_bytes.symm, Encoded.spells_iff,
      Encoded.sameBytes_iff⟩

/-- Half of a pair in front of a plus sign is measured and read as U+FFFD. -/
example : sizeIn [0xD83E, 0x2B] = 4 ∧
    bytesIn true [0xD83E, 0x2B] = [0xEF, 0xBF, 0xBD, 0x20] := by
  cbv

end Percent
end MagnetUri

namespace MagnetUri.Percent

open Utf8 (markBytes)

variable {encoded : Encoded} {stored : Stored} {plain : Text}

theorem Encoded.decodeStrict_eq_ok_iff :
    encoded.decodeStrict = .ok plain ↔ Utf8.decode? encoded.bytes = some plain := by
  unfold decodeStrict
  split
  next found => rw [found, Except.ok.injEq, Option.some_inj]
  next failed =>
    rw [failed]
    exact iff_of_false nofun nofun

theorem Stored.decode?_eq_some_iff_spells (unmarked : ¬ markBytes <+: stored.bytes) :
    stored.decode? = some plain ↔ stored.spells plain = true := by
  rw [spells_iff]
  exact Utf8.decode?_eq_some_iff_of_unmarked unmarked

theorem Stored.decode?_eq_some_iff_spells_mark (marked : markBytes <+: stored.bytes) :
    stored.decode? = some plain ↔ stored.spells ('\uFEFF' :: plain) = true := by
  rw [spells_iff]
  exact Utf8.decode?_eq_some_iff_of_marked marked

/-- Strict decoding gives the one text that the comparison accepts. Where the bytes begin with
a byte order mark, it gives what follows that mark in the text that the comparison accepts. -/
theorem decoding_agrees_with_comparison_unless_marked (encoded : Encoded) (stored : Stored)
    (plain : Text) :
    ((¬ markBytes <+: encoded.bytes →
        (encoded.decodeStrict = .ok plain ↔ encoded.spells plain = true)) ∧
      (markBytes <+: encoded.bytes →
        (encoded.decodeStrict = .ok plain ↔ encoded.spells ('\uFEFF' :: plain) = true))) ∧
    (¬ markBytes <+: stored.bytes →
      (stored.decode? = some plain ↔ stored.spells plain = true)) ∧
    (markBytes <+: stored.bytes →
      (stored.decode? = some plain ↔ stored.spells ('\uFEFF' :: plain) = true)) := by
  refine ⟨?_, Stored.decode?_eq_some_iff_spells, Stored.decode?_eq_some_iff_spells_mark⟩
  rw [Encoded.decodeStrict_eq_ok_iff, Encoded.spells_iff, Encoded.spells_iff]
  exact ⟨Utf8.decode?_eq_some_iff_of_unmarked, Utf8.decode?_eq_some_iff_of_marked⟩

/-- A text without a byte order mark, decoded in tokens and in units, and one with it. -/
theorem decoding_agrees_with_comparison_euro : ∃ euro marked : Encoded,
    Encoded.read "%E2%82%ac+".toList true = .ok euro ∧ euro.decodeStrict = .ok ['€', ' '] ∧
      euro.stored.decode? = some ['€', ' '] ∧
      Encoded.read "%EF%BB%BFa".toList true = .ok marked ∧ marked.decodeStrict = .ok ['a'] := by
  obtain ⟨euro, euroRead⟩ : ∃ euro, Encoded.read "%E2%82%ac+".toList true = .ok euro := ⟨_, rfl⟩
  obtain ⟨marked, markedRead⟩ : ∃ marked, Encoded.read "%EF%BB%BFa".toList true = .ok marked :=
    ⟨_, rfl⟩
  have euroBytes : euro.bytes = [0xE2, 0x82, 0xAC, 0x20] := by
    cases euroRead
    rfl
  have markedBytes : marked.bytes = [0xEF, 0xBB, 0xBF, 0x61] := by
    cases markedRead
    rfl
  obtain ⟨⟨euroAgrees, _⟩, storedAgrees, _⟩ :=
    decoding_agrees_with_comparison_unless_marked euro euro.stored ['€', ' ']
  obtain ⟨⟨_, markedAgrees⟩, _⟩ :=
    decoding_agrees_with_comparison_unless_marked marked marked.stored ['a']
  refine ⟨euro, marked, euroRead, ?_, ?_, markedRead, ?_⟩
  · rw [euroAgrees (by rw [euroBytes]; decide), Encoded.spells_iff, euroBytes]
    decide
  · rw [Encoded.bytes_stored] at storedAgrees
    rw [storedAgrees (by rw [euroBytes]; decide), Stored.spells_iff, Encoded.bytes_stored, euroBytes]
    decide
  · rw [markedAgrees (by rw [markedBytes]; decide), Encoded.spells_iff, markedBytes]
    decide

/-- A byte order mark in front is compared, but not decoded. -/
theorem marked_text_decoded_and_compared : ∃ encoded : Encoded,
    Encoded.read "%EF%BB%BFa".toList false = .ok encoded ∧ encoded.decodeStrict = .ok ['a'] ∧
      encoded.spells ['a'] = false ∧ encoded.spells ['\uFEFF', 'a'] = true ∧
      encoded.decodeStrict ≠ .ok ['\uFEFF', 'a'] := by
  refine ⟨_, rfl, rfl, by decide, by decide, ?_⟩
  intro same
  cases same

end MagnetUri.Percent

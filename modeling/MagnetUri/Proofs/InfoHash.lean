import MagnetUri.InfoHash
import MagnetUri.Proofs.Base32
import MagnetUri.Proofs.Uri.Ascii
import MagnetUri.Proofs.Utf8.RoundTrip

set_option autoImplicit false

/-! The written forms of info hashes. A text within ASCII is read as a hash exactly where it
is forty hexadecimal digits or thirty-two characters of base32, and a hash that was read is
written with forty small digits. -/

namespace MagnetUri

open Character (IsAscii hexValue? hexDigit)

def Character.isSmallHexDigit (char : Char) : Bool :=
  isDigit char || ('a' ≤ char && char ≤ 'f')

theorem Character.isSmallHexDigit_iff {char : Char} : isSmallHexDigit char = true ↔
    (48 ≤ char.toNat ∧ char.toNat ≤ 57) ∨ (97 ≤ char.toNat ∧ char.toNat ≤ 102) := by
  rw [isSmallHexDigit, Bool.or_eq_true, Grammar.isDigit_iff, Bool.and_eq_true,
    decide_eq_true_iff, decide_eq_true_iff]
  exact Iff.rfl

theorem Character.isAscii_of_isSmallHexDigit {char : Char} (small : isSmallHexDigit char = true) :
    IsAscii char := by
  have bounds := isSmallHexDigit_iff.1 small
  rw [IsAscii]
  omega

theorem Character.hexDigit_hexValue? {char : Char} (small : isSmallHexDigit char = true) :
    ∃ value, hexValue? char = some value ∧ value < 16 ∧ hexDigit value = char := by
  by_cases digit : isDigit char = true
  · have bounds := Grammar.isDigit_iff.1 digit
    have code : 48 + (char.toNat - 48) = char.toNat := by omega
    refine ⟨char.toNat - 48, by rw [hexValue?, if_pos digit], by omega, ?_⟩
    rw [hexDigit, if_pos (by omega), code, Char.ofNat_toNat]
  · have letter : ('a' ≤ char && char ≤ 'f') = true := by
      rcases Bool.or_eq_true_iff.1 small with inside | letter
      · exact absurd inside digit
      · exact letter
    have bounds : 97 ≤ char.toNat ∧ char.toNat ≤ 102 := by
      rw [Bool.and_eq_true, decide_eq_true_iff, decide_eq_true_iff] at letter
      exact letter
    have code : 87 + (char.toNat - 87) = char.toNat := by omega
    refine ⟨char.toNat - 87, by rw [hexValue?, if_neg digit, if_pos letter], by omega, ?_⟩
    rw [hexDigit, if_neg (by omega), code, Char.ofNat_toNat]

namespace InfoHash

structure IsHex (text : Text) : Prop where
  length : text.length = 40
  digits : ∀ char ∈ text, Character.isSmallHexDigit char = true

theorem isHex_replicate {char : Char} (small : Character.isSmallHexDigit char = true) :
    IsHex (List.replicate 40 char) where
  length := List.length_replicate
  digits := by
    intro other member
    rw [List.eq_of_mem_replicate member]
    exact small

theorem byteDigits_ofNat {high low : Nat} (highSmall : high < 16) (lowSmall : low < 16) :
    byteDigits (UInt8.ofNat (16 * high + low)) = [hexDigit high, hexDigit low] := by
  have byte : (UInt8.ofNat (16 * high + low)).toNat = 16 * high + low :=
    Utf8.toNat_byte (by omega)
  have first : (16 * high + low) / 16 = high := by omega
  have second : (16 * high + low) % 16 = low := by omega
  rw [byteDigits, byte, first, second]

theorem pairBytes?_of_digits {text : Text} {count : Nat} (length : text.length = 2 * count)
    (digits : ∀ char ∈ text, Character.isSmallHexDigit char = true) :
    ∃ bytes, pairBytes? text = some bytes ∧ bytes.length = count ∧
      bytes.flatMap byteDigits = text := by
  induction count generalizing text with
  | zero =>
      have empty : text = [] := List.length_eq_zero_iff.1 length
      exact ⟨[], by rw [empty]; rfl, rfl, empty.symm⟩
  | succ count ih =>
      match text, length, digits with
      | first :: second :: rest, length, digits =>
          rw [List.forall_mem_cons, List.forall_mem_cons] at digits
          obtain ⟨firstSmall, secondSmall, later⟩ := digits
          have shorter : rest.length = 2 * count := by
            rw [List.length_cons, List.length_cons] at length
            omega
          obtain ⟨bytes, pairs, counted, written⟩ := ih shorter later
          obtain ⟨high, highValue, highSmall, highSame⟩ :=
            Character.hexDigit_hexValue? firstSmall
          obtain ⟨low, lowValue, lowSmall, lowSame⟩ := Character.hexDigit_hexValue? secondSmall
          refine ⟨UInt8.ofNat (16 * high + low) :: bytes, ?_, ?_, ?_⟩
          · rw [pairBytes?, highValue, lowValue, pairs]
          · rw [List.length_cons, counted]
          · rw [List.flatMap_cons, byteDigits_ofNat highSmall lowSmall, highSame, lowSame, written]
            rfl

theorem parse_of_isHex {text : Text} (hex : IsHex text) :
    ∃ hash, parse text = .ok hash ∧ hash.toHex = text := by
  have length : Text.unitLength text = 40 := by
    rw [Text.unitLength_of_isAscii, hex.length]
    intro char member
    exact Character.isAscii_of_isSmallHexDigit (hex.digits char member)
  have even : text.length = 2 * 20 := hex.length
  obtain ⟨bytes, pairs, complete, written⟩ := pairBytes?_of_digits even hex.digits
  refine ⟨{ bytes, complete }, ?_, written⟩
  rw [parse, if_neg (by omega), ofHex, pairs]
  simp only [complete, dite_true]

end InfoHash

open Character (isHexDigit isSmallHexDigit isSmallHexDigit_iff)

def Character.inBase32 (char : Char) : Bool :=
  isLetter char || ('2' ≤ char && char ≤ '7')

theorem Character.inBase32_iff {char : Char} : inBase32 char = true ↔
    (97 ≤ char.toNat ∧ char.toNat ≤ 122) ∨ (65 ≤ char.toNat ∧ char.toNat ≤ 90) ∨
      (50 ≤ char.toNat ∧ char.toNat ≤ 55) := by
  simp only [inBase32, isLetter, Bool.or_eq_true, Bool.and_eq_true, decide_eq_true_eq]
  exact or_assoc

theorem Character.isSmallHexDigit_hexDigit :
    ∀ value < 16, isSmallHexDigit (hexDigit value) = true := by
  decide

namespace Base32

theorem value?_isSome_iff {char : Char} : (value? char).isSome = true ↔
    (65 ≤ char.toNat ∧ char.toNat ≤ 90) ∨ (50 ≤ char.toNat ∧ char.toNat ≤ 55) := by
  change _ ↔ ('A' ≤ char ∧ char ≤ 'Z') ∨ ('2' ≤ char ∧ char ≤ '7')
  unfold value?
  by_cases letter : 'A' ≤ char ∧ char ≤ 'Z'
  · rw [if_pos letter]
    exact iff_of_true rfl (Or.inl letter)
  · rw [if_neg letter]
    by_cases digit : '2' ≤ char ∧ char ≤ '7'
    · rw [if_pos digit]
      exact iff_of_true rfl (Or.inr digit)
    · rw [if_neg digit]
      exact iff_of_false Bool.false_ne_true (not_or.2 ⟨letter, digit⟩)

end Base32

namespace Text

/-- The capital form of a character within ASCII is one character. -/
theorem capital_of_isAscii {char : Char} (ascii : IsAscii char) :
    ∃ upper, capital char = [upper] ∧
      ((Base32.value? upper).isSome = true ↔ Character.inBase32 char = true) := by
  have below : char.toNat < 0x80 := ascii
  by_cases small : ('a' ≤ char && char ≤ 'z') = true
  · have bounds : 97 ≤ char.toNat ∧ char.toNat ≤ 122 := by
      rw [Bool.and_eq_true, decide_eq_true_iff, decide_eq_true_iff] at small
      exact small
    have code : (Char.ofNat (char.toNat - 32)).toNat = char.toNat - 32 :=
      Character.toNat_ofNat_of_lt (by omega)
    refine ⟨Char.ofNat (char.toNat - 32), by rw [capital, if_pos small], ?_⟩
    rw [Base32.value?_isSome_iff, code, Character.inBase32_iff]
    omega
  · have bounds : ¬ (97 ≤ char.toNat ∧ char.toNat ≤ 122) := by
      intro inside
      apply small
      rw [Bool.and_eq_true, decide_eq_true_iff, decide_eq_true_iff]
      exact inside
    have same : capital char = [char] := by
      rw [capital, if_neg small]
      split <;> first | rfl | omega
    refine ⟨char, same, ?_⟩
    rw [Base32.value?_isSome_iff, Character.inBase32_iff]
    omega

theorem exists_mapM_capitals_iff {text : Text} (ascii : ∀ char ∈ text, IsAscii char)
    {count : Nat} :
    (∃ values, (capitals text).mapM Base32.value? = some values ∧ values.length = count) ↔
      text.length = count ∧ ∀ char ∈ text, Character.inBase32 char = true := by
  induction text generalizing count with
  | nil =>
      constructor
      · intro found
        obtain ⟨values, same, counted⟩ := found
        cases same
        exact ⟨counted, nofun⟩
      · intro shape
        exact ⟨[], rfl, shape.1⟩
  | cons char rest ih =>
      rw [List.forall_mem_cons] at ascii
      obtain ⟨upper, single, member⟩ := capital_of_isAscii ascii.1
      have split : capitals (char :: rest) = upper :: capitals rest := by
        rw [capitals, List.flatMap_cons, single]
        rfl
      rw [split, List.mapM_cons, List.forall_mem_cons, ← member]
      constructor
      · intro found
        obtain ⟨values, same, counted⟩ := found
        obtain ⟨value, first, same⟩ := Option.bind_eq_some_iff.1 same
        obtain ⟨others, later, same⟩ := Option.bind_eq_some_iff.1 same
        cases same
        obtain ⟨length, all⟩ := (ih ascii.2).1 ⟨others, later, rfl⟩
        refine ⟨?_, ?_, all⟩
        · rw [List.length_cons, length, ← counted, List.length_cons]
        · rw [first]
          rfl
      · intro shape
        obtain ⟨length, there, all⟩ := shape
        obtain ⟨value, first⟩ := Option.isSome_iff_exists.1 there
        obtain ⟨others, later, counted⟩ := (ih ascii.2).2 ⟨rfl, all⟩
        refine ⟨value :: others, ?_, ?_⟩
        · rw [first, later]
          rfl
        · rw [List.length_cons, counted, ← length, List.length_cons]

end Text

namespace InfoHash

variable {text : Text} {bytes : List UInt8}

theorem digits_of_pairBytes? (found : pairBytes? text = some bytes) :
    text.length = 2 * bytes.length ∧ ∀ char ∈ text, isHexDigit char = true := by
  fun_induction pairBytes? text generalizing bytes with
  | case1 =>
      cases found
      exact ⟨rfl, nofun⟩
  | case2 => cases found
  | case3 high low rest highValue lowValue others pairs lowFound highFound ih =>
      cases found
      obtain ⟨length, all⟩ := ih pairs
      have highDigit : isHexDigit high = true := by rw [isHexDigit, highFound]; rfl
      have lowDigit : isHexDigit low = true := by rw [isHexDigit, lowFound]; rfl
      constructor
      · rw [List.length_cons, List.length_cons, length, List.length_cons]
        omega
      · rw [List.forall_mem_cons, List.forall_mem_cons]
        exact ⟨highDigit, lowDigit, all⟩
  | case4 => cases found

theorem exists_pairBytes? {count : Nat} (length : text.length = 2 * count)
    (digits : ∀ char ∈ text, isHexDigit char = true) :
    ∃ bytes, pairBytes? text = some bytes ∧ bytes.length = count := by
  induction count generalizing text with
  | zero =>
      have empty : text = [] := List.length_eq_zero_iff.1 length
      exact ⟨[], by rw [empty]; rfl, rfl⟩
  | succ count ih =>
      match text, length, digits with
      | high :: low :: rest, length, digits =>
          rw [List.forall_mem_cons, List.forall_mem_cons] at digits
          obtain ⟨highDigit, lowDigit, later⟩ := digits
          obtain ⟨highValue, highFound⟩ := Option.isSome_iff_exists.1 highDigit
          obtain ⟨lowValue, lowFound⟩ := Option.isSome_iff_exists.1 lowDigit
          have shorter : rest.length = 2 * count := by
            rw [List.length_cons, List.length_cons] at length
            omega
          obtain ⟨bytes, pairs, counted⟩ := ih shorter later
          refine ⟨UInt8.ofNat (16 * highValue + lowValue) :: bytes, ?_, ?_⟩
          · rw [pairBytes?, highFound, lowFound, pairs]
          · rw [List.length_cons, counted]

theorem exists_ofHex_iff : (∃ hash, ofHex text = .ok hash) ↔
    text.length = 40 ∧ ∀ char ∈ text, isHexDigit char = true := by
  unfold ofHex
  constructor
  · intro found
    obtain ⟨hash, found⟩ := found
    split at found
    next bytes pairs =>
      obtain ⟨length, all⟩ := digits_of_pairBytes? pairs
      split at found
      next complete => exact ⟨by rw [length, complete], all⟩
      next => cases found
    next => cases found
  · intro shape
    have even : text.length = 2 * 20 := shape.1
    obtain ⟨bytes, pairs, complete⟩ := exists_pairBytes? even shape.2
    refine ⟨{ bytes, complete }, ?_⟩
    simp only [pairs, complete, dite_true]

theorem exists_ofBase32_iff (ascii : ∀ char ∈ text, IsAscii char) :
    (∃ hash, ofBase32 text = .ok hash) ↔
      text.length = 32 ∧ ∀ char ∈ text, Character.inBase32 char = true := by
  rw [← Text.exists_mapM_capitals_iff ascii]
  unfold ofBase32
  constructor
  · intro found
    obtain ⟨hash, found⟩ := found
    split at found
    next values same =>
      split at found
      next full => exact ⟨values, same, full⟩
      next => cases found
    next => cases found
  · intro shape
    obtain ⟨values, same, full⟩ := shape
    have complete : (Base32.unpack values).length = 20 := by
      rw [Base32.length_unpack, full]
    refine ⟨{ bytes := Base32.unpack values, complete }, ?_⟩
    rw [same]
    simp only [full, if_true, ofBytes, complete, dite_true]

/-- Forty hexadecimal digits or thirty-two characters of base32, in any case. -/
def IsSpelled (text : Text) : Prop :=
  (text.length = 40 ∧ ∀ char ∈ text, isHexDigit char = true) ∨
    (text.length = 32 ∧ ∀ char ∈ text, Character.inBase32 char = true)

theorem exists_parse_iff (ascii : ∀ char ∈ text, IsAscii char) :
    (∃ hash, parse text = .ok hash) ↔ IsSpelled text := by
  unfold parse IsSpelled
  rw [Text.unitLength_of_isAscii ascii]
  by_cases short : text.length = 32
  · rw [if_pos short, exists_ofBase32_iff ascii]
    constructor
    · exact Or.inr
    · intro shape
      apply shape.resolve_left
      intro long
      omega
  · rw [if_neg short, exists_ofHex_iff]
    constructor
    · exact Or.inl
    · intro shape
      apply shape.resolve_right
      intro other
      exact short other.1

/-- A hash is written with forty small digits. -/
theorem isHex_toHex (hash : InfoHash) : IsHex hash.toHex where
  length := by
    have twice (bytes : List UInt8) : (bytes.flatMap byteDigits).length = 2 * bytes.length := by
      induction bytes with
      | nil => rfl
      | cons byte rest ih =>
          rw [List.flatMap_cons, List.length_append, ih, List.length_cons]
          simp only [byteDigits, List.length_cons, List.length_nil]
          omega
    rw [toHex, twice, hash.complete]
  digits := by
    intro char member
    obtain ⟨byte, _, inside⟩ := List.mem_flatMap.1 member
    have small : byte.toNat < 256 := byte.toNat_lt
    rw [byteDigits, List.mem_cons, List.mem_singleton] at inside
    rcases inside with same | same
    · rw [same]
      exact Character.isSmallHexDigit_hexDigit _ (by omega)
    · rw [same]
      exact Character.isSmallHexDigit_hexDigit _ (by omega)

end InfoHash
end MagnetUri

import MagnetUri.Proofs.InfoHash

set_option autoImplicit false

/-! Info hashes in base32. The text that encodes twenty bytes is read back as these bytes, and a
text of thirty-two characters writes the same number in base32 as the forty hexadecimal digits of
the hash that is read from it. The case of letters does not matter to either form. -/

namespace MagnetUri

open Character (small hexDigit hexValue? inBase32)

def Text.SameUpToCase (left right : Text) : Prop :=
  left.map small = right.map small

/-- The place of a character in an alphabet, whatever its case. -/
def Text.digitIn (alphabet : Text) (char : Char) : Nat :=
  (alphabet.map small).idxOf (small char)

/-- The number that a text writes in the digits of an alphabet. -/
def Text.numberIn (alphabet text : Text) : Nat :=
  (text.map alphabet.digitIn).foldl (fun value digit => alphabet.length * value + digit) 0

/-- What is read alike from the small form of the letters A to Z is read alike from that of any
character. -/
theorem Character.read_small {α : Type} {read : Char → α}
    (letters : ∀ place < 26,
      read (small (Char.ofNat (65 + place))) = read (Char.ofNat (65 + place)))
    (char : Char) : read (small char) = read char := by
  by_cases capital : ('A' ≤ char && char ≤ 'Z') = true
  · have bounds : 65 ≤ char.toNat ∧ char.toNat ≤ 90 := by
      rw [Bool.and_eq_true, decide_eq_true_iff, decide_eq_true_iff] at capital
      exact capital
    have same := letters (char.toNat - 65) (by omega)
    rw [Nat.add_sub_cancel' bounds.1, Char.ofNat_toNat] at same
    exact same
  · rw [small, if_neg capital]

theorem Character.hexValue?_small (char : Char) : hexValue? (small char) = hexValue? char :=
  read_small (by decide) char

theorem Character.inBase32_small (char : Char) : inBase32 (small char) = inBase32 char :=
  read_small (by decide) char

namespace Text

variable {text other : Text}

theorem SameUpToCase.digits (same : SameUpToCase text other) (alphabet : Text) :
    text.map alphabet.digitIn = other.map alphabet.digitIn := by
  have reading := congrArg (List.map (alphabet.map small).idxOf) same
  rw [List.map_map, List.map_map] at reading
  exact reading

theorem SameUpToCase.inBase32 (same : SameUpToCase text other)
    (all : ∀ char ∈ other, Character.inBase32 char = true) :
    ∀ char ∈ text, Character.inBase32 char = true := by
  intro char member
  have inside : small char ∈ other.map small := same ▸ List.mem_map_of_mem member
  obtain ⟨twin, there, alike⟩ := List.mem_map.1 inside
  rw [← Character.inBase32_small, ← alike, Character.inBase32_small]
  exact all twin there

theorem SameUpToCase.length (same : SameUpToCase text other) : text.length = other.length := by
  have mapped : (text.map small).length = (other.map small).length := congrArg List.length same
  rw [List.length_map, List.length_map] at mapped
  exact mapped

theorem numberIn_eq {alphabet : Text} {width : Nat} (size : alphabet.length = 2 ^ width)
    (digits : ∀ digit ∈ text.map alphabet.digitIn, digit < 2 ^ width) :
    alphabet.numberIn text = Bits.toNat ((text.map alphabet.digitIn).flatMap (Bits.low width)) := by
  rw [numberIn, size]
  exact (Bits.pushed_flatMap_low digits 0).symm

end Text

namespace Base32

open Text (capital capitals)

theorem value?_letter : ∀ group < 32, value? (letter group) = some group := by
  decide

theorem digitIn_letter : ∀ group < 32,
    inBase32 (letter group) = true ∧ alphabet.digitIn (letter group) = group := by
  decide +kernel

/-- The capital form of a character of base32 is the one that writes its digit. -/
theorem capital_eq_letter {char : Char} (member : inBase32 char = true) :
    alphabet.digitIn char < 32 ∧ capital char = [letter (alphabet.digitIn char)] := by
  have table : ∀ code < 128, inBase32 (Char.ofNat code) = true →
      alphabet.digitIn (Char.ofNat code) < 32 ∧
        capital (Char.ofNat code) = [letter (alphabet.digitIn (Char.ofNat code))] := by
    decide +kernel
  have bounds := Character.inBase32_iff.1 member
  have entry := table char.toNat (by omega)
  rw [Char.ofNat_toNat] at entry
  exact entry member

theorem mapM_capitals {text : Text} (all : ∀ char ∈ text, inBase32 char = true) :
    (capitals text).mapM value? = some (text.map alphabet.digitIn) := by
  induction text with
  | nil => rfl
  | cons char rest ih =>
      rw [List.forall_mem_cons] at all
      obtain ⟨small, upper⟩ := capital_eq_letter all.1
      have later := ih all.2
      rw [capitals] at later ⊢
      rw [List.flatMap_cons, upper, List.singleton_append, List.mapM_cons,
        value?_letter _ small, later]
      rfl

variable {bytes : List UInt8}

/-- The characters of twenty bytes are the letters of their groups, of which none is filled up. -/
theorem encode_spells (complete : bytes.length = 20) :
    (encode bytes).length = 32 ∧ (∀ char ∈ encode bytes, inBase32 char = true) ∧
      (encode bytes).map alphabet.digitIn = groups bytes := by
  obtain ⟨letters, count⟩ := encode_of_length complete
  obtain ⟨small, _⟩ := groups_bits bytes
  rw [letters]
  refine ⟨by rw [List.length_map, count], ?_, ?_⟩
  · intro char member
    obtain ⟨group, inside, same⟩ := List.mem_map.1 member
    rw [← same]
    exact (digitIn_letter group (small group inside)).1
  · rw [List.map_map]
    conv_rhs => rw [← List.map_id (groups bytes)]
    apply List.map_congr_left
    intro group inside
    exact (digitIn_letter group (small group inside)).2

end Base32

namespace InfoHash

variable {text other : Text} {bytes : List UInt8}

def hexAlphabet : Text := "0123456789abcdef".toList

def nibbles (bytes : List UInt8) : List Nat :=
  bytes.flatMap fun byte => [byte.toNat / 16, byte.toNat % 16]

theorem hexDigit_table : ∀ value < 16,
    hexValue? (hexDigit value) = some value ∧ hexAlphabet.digitIn (hexDigit value) = value := by
  decide

theorem ofBase32_eq_ofBytes (complete : text.length = 32)
    (all : ∀ char ∈ text, inBase32 char = true) :
    ofBase32 text = ofBytes (Base32.unpack (text.map Base32.alphabet.digitIn)) := by
  unfold ofBase32
  rw [Base32.mapM_capitals all]
  simp only [List.length_map, complete, if_true]

theorem ofBase32_encode (complete : bytes.length = 20)
    (same : Text.SameUpToCase text (Base32.encode bytes)) : ofBase32 text = ofBytes bytes := by
  obtain ⟨length, all, digits⟩ := Base32.encode_spells complete
  rw [ofBase32_eq_ofBytes (same.length.trans length) (same.inBase32 all), same.digits, digits,
    Base32.unpack_groups]

theorem pairBytes?_map_small : ∀ text : Text, pairBytes? (text.map small) = pairBytes? text
  | [] => rfl
  | [_] => rfl
  | high :: low :: rest => by
      rw [List.map_cons, List.map_cons, pairBytes?, pairBytes?, Character.hexValue?_small,
        Character.hexValue?_small, pairBytes?_map_small rest]

theorem pairBytes?_byteDigits (bytes : List UInt8) :
    pairBytes? (bytes.flatMap byteDigits) = some bytes := by
  induction bytes with
  | nil => rfl
  | cons byte bytes ih =>
      have below : byte.toNat < 256 := byte.toNat_lt
      have high := (hexDigit_table (byte.toNat / 16) (by omega)).1
      have low := (hexDigit_table (byte.toNat % 16) (by omega)).1
      have joined : UInt8.ofNat (16 * (byte.toNat / 16) + byte.toNat % 16) = byte := by
        rw [Nat.div_add_mod, UInt8.ofNat_toNat]
      rw [List.flatMap_cons, byteDigits, List.cons_append, List.singleton_append, pairBytes?, high,
        low, ih]
      simp only [joined]

theorem ofHex_of_sameUpToCase {hash : InfoHash} (same : Text.SameUpToCase text hash.toHex) :
    ofHex text = .ok hash := by
  have pairs : pairBytes? text = some hash.bytes := by
    rw [← pairBytes?_map_small, same, pairBytes?_map_small, toHex, pairBytes?_byteDigits]
  unfold ofHex
  rw [pairs]
  exact dif_pos hash.complete

theorem nibbles_bits (bytes : List UInt8) :
    (∀ digit ∈ nibbles bytes, digit < 2 ^ 4) ∧
      (nibbles bytes).flatMap (Bits.low 4) = Bits.ofBytes bytes := by
  induction bytes with
  | nil => exact ⟨nofun, rfl⟩
  | cons byte bytes ih =>
      have below : byte.toNat < 256 := byte.toNat_lt
      have high : byte.toNat >>> 4 = byte.toNat / 16 := Nat.shiftRight_eq_div_pow _ 4
      have low : Bits.low 4 byte.toNat = Bits.low 4 (byte.toNat % 16) := by
        apply Bits.low_congr
        intro place within
        rw [show 16 = 2 ^ 4 from rfl, Nat.testBit_mod_two_pow, decide_eq_true within, Bool.true_and]
      have split : Bits.low 8 byte.toNat =
          Bits.low 4 (byte.toNat / 16) ++ Bits.low 4 (byte.toNat % 16) := by
        rw [show 8 = 4 + 4 from rfl, Bits.low_add, high, low]
      constructor
      · intro digit member
        rw [nibbles, List.flatMap_cons, List.mem_append, List.mem_pair] at member
        rcases member with (same | same) | later
        · omega
        · omega
        · exact ih.1 digit later
      · rw [nibbles, List.flatMap_cons, List.flatMap_append, ← nibbles, ih.2, List.flatMap_cons,
          List.flatMap_singleton, ← split, Bits.ofBytes, Bits.ofBytes, List.flatMap_cons]

theorem digits_toHex (hash : InfoHash) :
    hash.toHex.map hexAlphabet.digitIn = nibbles hash.bytes := by
  have digits (byte : UInt8) :
      (byteDigits byte).map hexAlphabet.digitIn = [byte.toNat / 16, byte.toNat % 16] := by
    have below : byte.toNat < 256 := byte.toNat_lt
    have high := (hexDigit_table (byte.toNat / 16) (by omega)).2
    have low := (hexDigit_table (byte.toNat % 16) (by omega)).2
    rw [byteDigits, List.map_cons, List.map_singleton, high, low]
  rw [toHex, List.map_flatMap, nibbles]
  exact congrArg hash.bytes.flatMap (funext digits)

theorem numberIn_toHex (hash : InfoHash) :
    hexAlphabet.numberIn hash.toHex = Bits.toNat (Bits.ofBytes hash.bytes) := by
  have size : hexAlphabet.length = 2 ^ 4 := by decide
  obtain ⟨small, written⟩ := nibbles_bits hash.bytes
  rw [Text.numberIn_eq size (by rw [digits_toHex]; exact small), digits_toHex, written]

/-- Thirty-two characters of base32 are read as the hash that writes their number. -/
theorem exists_ofBase32_numberIn (complete : text.length = 32)
    (all : ∀ char ∈ text, inBase32 char = true) :
    ∃ hash, ofBase32 text = .ok hash ∧
      hexAlphabet.numberIn hash.toHex = Base32.alphabet.numberIn text := by
  have size : Base32.alphabet.length = 2 ^ 5 := by decide
  have small : ∀ digit ∈ text.map Base32.alphabet.digitIn, digit < 2 ^ 5 := by
    intro digit member
    obtain ⟨char, inside, same⟩ := List.mem_map.1 member
    rw [← same]
    exact (Base32.capital_eq_letter (all char inside)).1
  have count : (text.map Base32.alphabet.digitIn).length = 32 := by
    rw [List.length_map, complete]
  have filled : (Base32.unpack (text.map Base32.alphabet.digitIn)).length = 20 := by
    rw [Base32.length_unpack, count]
  have bits := Base32.ofBytes_unpack small (by rw [count])
  refine ⟨⟨_, filled⟩, ?_, ?_⟩
  · rw [ofBase32_eq_ofBytes complete all]
    exact dif_pos filled
  · rw [numberIn_toHex, bits, Text.numberIn_eq size small]

/-- The text that encodes twenty bytes in base32 is read as the hash of these bytes, and so is the
hexadecimal text of that hash, each in any case of letters. Any thirty-two characters of base32
write the number that the hash read from them writes in hexadecimal. While they are read, the bytes
taken out and the bits that wait are those of the groups taken in, however often the word has run
over, and thirty-two groups fill twenty bytes. -/
theorem base32_and_hex_write_one_number :
    (∀ bytes : List UInt8, bytes.length = 20 →
      (Base32.encode bytes).length = 32 ∧
      (∀ text, Text.SameUpToCase text (Base32.encode bytes) → ofBase32 text = ofBytes bytes) ∧
      ∃ hash, ofBytes bytes = .ok hash ∧ hash.bytes = bytes ∧
        ∀ text, Text.SameUpToCase text hash.toHex → ofHex text = .ok hash) ∧
    (∀ text : Text, text.length = 32 → (∀ char ∈ text, inBase32 char = true) →
      ∃ hash, ofBase32 text = .ok hash ∧ hash.toHex.length = 40 ∧
        Text.numberIn hexAlphabet hash.toHex = Text.numberIn Base32.alphabet text) ∧
    ∀ groups : List Nat, (∀ group ∈ groups, group < 32) →
      (groups.foldl Base32.Accumulator.take .empty).waiting < 8 ∧
      (groups.foldl Base32.Accumulator.take .empty).given = groups.flatMap (Bits.low 5) ∧
      (groups.length = 32 → (Base32.unpack groups).length = 20) := by
  refine ⟨?_, ?_, ?_⟩
  · intro bytes complete
    obtain ⟨length, _⟩ := Base32.encode_spells complete
    have read : ofBytes bytes = .ok { bytes, complete } := dif_pos complete
    exact ⟨length, fun _ same => ofBase32_encode complete same, _, read, rfl,
      fun _ same => ofHex_of_sameUpToCase same⟩
  · intro text complete all
    obtain ⟨hash, read, number⟩ := exists_ofBase32_numberIn complete all
    exact ⟨hash, read, (isHex_toHex hash).length, number⟩
  · intro groups small
    refine ⟨(Base32.count_groups groups).1, Base32.given_groups small, ?_⟩
    intro count
    rw [Base32.length_unpack, count]

/-- The bytes of a hash that some links carry in base32. -/
def carried : List UInt8 :=
  [210, 71, 78, 134, 201, 91, 25, 184, 188, 253, 185, 43,
    193, 44, 157, 68, 102, 124, 250, 54]

/-- A hash is read from small and capital letters of base32, and from capital digits. -/
theorem carried_read_from_both_forms :
    ∃ hash, hash.bytes = carried ∧
      ofBase32 "2jdu5bwjlmm3RPH5XEV4CLE5IRTHZ6RW".toList = .ok hash ∧
      ofHex "D2474E86C95B19B8BCFDB92BC12C9D44667CFA36".toList = .ok hash := by
  obtain ⟨encoded, _⟩ := base32_and_hex_write_one_number
  obtain ⟨_, fromBase32, hash, read, same, fromHex⟩ := encoded carried rfl
  have hex : hash.toHex = carried.flatMap byteDigits := by rw [toHex, same]
  refine ⟨hash, same, ?_, fromHex _ ?_⟩
  · rw [fromBase32 _ (by unfold Text.SameUpToCase; decide +kernel), read]
  · rw [hex]
    unfold Text.SameUpToCase
    decide +kernel

end InfoHash
end MagnetUri

import MagnetUri.InfoHash
import Mathlib.Algebra.Group.Nat.Defs
import Mathlib.Data.List.Induction

set_option autoImplicit false

/-! Base32 in bits, as section 6 of RFC 4648 writes it: the bits of bytes in groups of five, each
group a character. A state of the reader stands for the bits it has been given. Each group adds its
five, so that the bits which the word carries on above those that wait never come into a byte. -/

namespace MagnetUri

namespace Bits

variable {width value : Nat}

/-- The low bits of a number, the highest of them first. -/
def low : (width value : Nat) → List Bool
  | 0, _ => []
  | width + 1, value => value.testBit width :: low width value

/-- The number that bits write behind another one. -/
def pushed (start : Nat) (bits : List Bool) : Nat :=
  bits.foldl (fun value bit => 2 * value + bit.toNat) start

def toNat (bits : List Bool) : Nat :=
  pushed 0 bits

def chunks (width : Nat) : (count : Nat) → List Bool → List (List Bool)
  | 0, _ => []
  | count + 1, bits => bits.take width :: chunks width count (bits.drop width)

theorem length_low (width value : Nat) : (low width value).length = width := by
  induction width with
  | zero => rfl
  | succ width ih => rw [low, List.length_cons, ih]

theorem low_congr {other : Nat}
    (same : ∀ place < width, value.testBit place = other.testBit place) :
    low width value = low width other := by
  induction width with
  | zero => rfl
  | succ width ih =>
      rw [low, low, same width (Nat.lt_succ_self width),
        ih fun place within => same place (Nat.lt_succ_of_lt within)]

theorem low_add (width more value : Nat) :
    low (width + more) value = low width (value >>> more) ++ low more value := by
  induction width with
  | zero => rw [Nat.zero_add, low, List.nil_append]
  | succ width ih =>
      rw [Nat.add_right_comm, low, ih, low, Nat.testBit_shiftRight, Nat.add_comm more width,
        List.cons_append]

theorem pushed_low (start width value : Nat) :
    pushed start (low width value) = 2 ^ width * start + value % 2 ^ width := by
  induction width generalizing start with
  | zero => rw [low, pushed, List.foldl_nil, Nat.pow_zero, Nat.mod_one, Nat.one_mul, Nat.add_zero]
  | succ width ih =>
      have step := ih (2 * start + (value.testBit width).toNat)
      rw [pushed] at step
      rw [low, pushed, List.foldl_cons, step, Nat.mod_pow_succ, Nat.toNat_testBit, Nat.pow_succ,
        Nat.mul_add, Nat.mul_assoc, Nat.add_assoc, Nat.add_comm (value % 2 ^ width)]

theorem toNat_low (small : value < 2 ^ width) : toNat (low width value) = value := by
  rw [toNat, pushed_low, Nat.mul_zero, Nat.zero_add, Nat.mod_eq_of_lt small]

theorem toNat_concat (bits : List Bool) (bit : Bool) :
    toNat (bits ++ [bit]) = 2 * toNat bits + bit.toNat := by
  rw [toNat, toNat, pushed, pushed, List.foldl_append, List.foldl_cons, List.foldl_nil]

theorem low_toNat (bits : List Bool) : low bits.length (toNat bits) = bits := by
  induction bits using List.reverseRecOn with
  | nil => rfl
  | append_singleton bits bit ih =>
      have half : (2 * toNat bits + bit.toNat) >>> 1 = toNat bits := by
        have below := bit.toNat_lt
        rw [Nat.shiftRight_eq_div_pow, Nat.pow_one]
        omega
      have last : (2 * toNat bits + bit.toNat).testBit 0 = bit := by
        cases bit <;> simp
      rw [toNat_concat, List.length_append, List.length_singleton, low_add, half, ih, low, low,
        last]

theorem toNat_lt (bits : List Bool) : toNat bits < 2 ^ bits.length := by
  induction bits using List.reverseRecOn with
  | nil => exact Nat.one_pos
  | append_singleton bits bit ih =>
      have below := bit.toNat_lt
      rw [toNat_concat, List.length_append, List.length_singleton, Nat.pow_succ]
      omega

/-- Digits below a power of two write one number by themselves and by their bits. -/
theorem pushed_flatMap_low {digits : List Nat} (small : ∀ digit ∈ digits, digit < 2 ^ width)
    (start : Nat) : pushed start (digits.flatMap (low width)) =
      digits.foldl (fun value digit => 2 ^ width * value + digit) start := by
  induction digits generalizing start with
  | nil => rfl
  | cons digit digits ih =>
      rw [List.forall_mem_cons] at small
      have step := pushed_low start width digit
      rw [pushed] at step
      rw [List.flatMap_cons, pushed, List.foldl_append, step, Nat.mod_eq_of_lt small.1,
        List.foldl_cons]
      exact ih small.2 _

theorem length_chunks (width count : Nat) (bits : List Bool) :
    (chunks width count bits).length = count := by
  induction count generalizing bits with
  | zero => rfl
  | succ count ih => rw [chunks, List.length_cons, ih]

theorem flatten_chunks {count : Nat} {bits : List Bool} (whole : bits.length = width * count) :
    (chunks width count bits).flatten = bits := by
  induction count generalizing bits with
  | zero => exact (List.length_eq_zero_iff.1 whole).symm
  | succ count ih =>
      have rest : (bits.drop width).length = width * count := by
        rw [List.length_drop, whole, Nat.mul_succ, Nat.add_sub_cancel]
      rw [chunks, List.flatten_cons, ih rest, List.take_append_drop]

theorem length_of_mem_chunks {count : Nat} {bits chunk : List Bool}
    (whole : bits.length = width * count) (member : chunk ∈ chunks width count bits) :
    chunk.length = width := by
  induction count generalizing bits with
  | zero => cases member
  | succ count ih =>
      rw [Nat.mul_succ] at whole
      rw [chunks, List.mem_cons] at member
      rcases member with same | later
      · rw [same, List.length_take]
        omega
      · apply ih _ later
        rw [List.length_drop]
        omega

theorem flatMap_low_toNat {pieces : List (List Bool)}
    (even : ∀ piece ∈ pieces, piece.length = width) :
    (pieces.map toNat).flatMap (low width) = pieces.flatten := by
  induction pieces with
  | nil => rfl
  | cons piece pieces ih =>
      rw [List.forall_mem_cons] at even
      have same := low_toNat piece
      rw [even.1] at same
      rw [List.map_cons, List.flatMap_cons, same, ih even.2, List.flatten_cons]

def ofBytes (bytes : List UInt8) : List Bool :=
  bytes.flatMap fun byte => low 8 byte.toNat

theorem length_ofBytes (bytes : List UInt8) : (ofBytes bytes).length = 8 * bytes.length := by
  induction bytes with
  | nil => rfl
  | cons byte bytes ih =>
      rw [ofBytes] at ih ⊢
      rw [List.flatMap_cons, List.length_append, length_low, ih, List.length_cons]
      omega

theorem ofBytes_concat (bytes : List UInt8) (byte : UInt8) :
    ofBytes (bytes ++ [byte]) = ofBytes bytes ++ low 8 byte.toNat := by
  rw [ofBytes, ofBytes, List.flatMap_append, List.flatMap_singleton]

theorem ofBytes_injective {left right : List UInt8} (same : ofBytes left = ofBytes right) :
    left = right := by
  induction left generalizing right with
  | nil =>
      have empty := congrArg List.length same
      rw [length_ofBytes, length_ofBytes, List.length_nil] at empty
      exact (List.length_eq_zero_iff.1 (by omega)).symm
  | cons byte left ih =>
      cases right with
      | nil =>
          have empty := congrArg List.length same
          rw [length_ofBytes, length_ofBytes, List.length_nil, List.length_cons] at empty
          omega
      | cons other right =>
          rw [ofBytes, ofBytes, List.flatMap_cons, List.flatMap_cons] at same
          obtain ⟨first, rest⟩ := List.append_inj same (by rw [length_low, length_low])
          have numbers := congrArg toNat first
          rw [toNat_low byte.toNat_lt, toNat_low other.toNat_lt] at numbers
          rw [UInt8.toNat_inj.1 numbers, ih rest]

end Bits

namespace Base32

namespace Accumulator

variable {state : Accumulator} {group : Nat}

/-- The bits that a state has been given: those of its bytes and those that wait. -/
def given (state : Accumulator) : List Bool :=
  Bits.ofBytes state.bytes ++ Bits.low state.waiting state.word.toBitVec.toNat

/-- A group adds five bits to those that are in the bytes and those that wait. -/
theorem count_take (few : state.waiting < 8) (group : Nat) :
    (state.take group).waiting < 8 ∧
      8 * (state.take group).bytes.length + (state.take group).waiting =
        8 * state.bytes.length + state.waiting + 5 := by
  by_cases full : 8 ≤ state.waiting + 5
  · simp only [take, if_pos full, List.length_append, List.length_singleton]
    omega
  · simp only [take, if_neg full]
    omega

theorem count_foldl (few : state.waiting < 8) (groups : List Nat) :
    (groups.foldl take state).waiting < 8 ∧
      8 * (groups.foldl take state).bytes.length + (groups.foldl take state).waiting =
        8 * state.bytes.length + state.waiting + 5 * groups.length := by
  induction groups generalizing state with
  | nil => exact ⟨few, rfl⟩
  | cons group groups ih =>
      obtain ⟨fewer, taken⟩ := count_take few group
      obtain ⟨rest, counted⟩ := ih fewer
      refine ⟨rest, ?_⟩
      rw [List.foldl_cons, counted, taken, List.length_cons]
      omega

theorem testBit_shift (word : Int32) (small : group < 32) {place : Nat} (within : place < 32) :
    (word <<< 5 ||| Int32.ofNat group).toBitVec.toNat.testBit place =
      if place < 5 then group.testBit place else word.toBitVec.toNat.testBit (place - 5) := by
  have five : ((5 : Int32).toBitVec.smod 32).toNat = 5 := by decide
  have shifted : (word <<< 5 ||| Int32.ofNat group).toBitVec =
      word.toBitVec <<< 5 ||| BitVec.ofNat 32 group := by
    rw [Int32.toBitVec_or, Int32.toBitVec_shiftLeft, BitVec.shiftLeft_eq', five]
    rfl
  rw [shifted, BitVec.testBit_toNat, BitVec.testBit_toNat, BitVec.getLsbD_or,
    BitVec.getLsbD_shiftLeft, BitVec.getLsbD_ofNat]
  by_cases low : place < 5
  · simp [low, within]
  · have above : group.testBit place = false := by
      apply Nat.testBit_lt_two_pow
      have wide : 2 ^ 5 ≤ 2 ^ place := Nat.pow_le_pow_right (by decide) (by omega)
      omega
    simp [low, within, above]

theorem testBit_byte (word : Int32) {below : Nat} (few : below < 8) {place : Nat}
    (within : place < 8) :
    (word >>> Int32.ofNat below &&& 0xff).toUInt32.toUInt8.toNat.testBit place =
      word.toBitVec.toNat.testBit (below + place) := by
  have amount : ∀ below < 8, ((Int32.ofNat below).toBitVec.smod 32).toNat = below := by decide
  have mask : ∀ place < 8, (0xff#32).getLsbD place = true := by decide
  have shifted : (word >>> Int32.ofNat below &&& 0xff).toBitVec =
      word.toBitVec.sshiftRight below &&& 0xff#32 := by
    rw [Int32.toBitVec_and, Int32.toBitVec_shiftRight, BitVec.sshiftRight_eq', amount below few]
    rfl
  have number : (word >>> Int32.ofNat below &&& 0xff).toUInt32.toNat =
      (word.toBitVec.sshiftRight below &&& 0xff#32).toNat := congrArg BitVec.toNat shifted
  have bounds : place < 32 ∧ below + place < 32 := by omega
  rw [UInt32.toNat_toUInt8, number, Nat.testBit_mod_two_pow, BitVec.testBit_toNat,
    BitVec.testBit_toNat, BitVec.getLsbD_and, mask place within, BitVec.getLsbD_sshiftRight]
  simp [within, bounds]

/-- Above the bits of a group, the word goes on with those it had. -/
theorem low_shift (few : state.waiting < 8) (small : group < 32) :
    Bits.low (state.waiting + 5) (state.word <<< 5 ||| Int32.ofNat group).toBitVec.toNat =
      Bits.low state.waiting state.word.toBitVec.toNat ++ Bits.low 5 group := by
  rw [Bits.low_add]
  congr 1
  · apply Bits.low_congr
    intro place within
    rw [Nat.testBit_shiftRight, testBit_shift state.word small (by omega), if_neg (by omega),
      Nat.add_sub_cancel_left]
  · apply Bits.low_congr
    intro place within
    rw [testBit_shift state.word small (by omega), if_pos within]

theorem low_byte (word : Int32) {below : Nat} (few : below < 8) :
    Bits.low 8 (word >>> Int32.ofNat below &&& 0xff).toUInt32.toUInt8.toNat ++
        Bits.low below word.toBitVec.toNat =
      Bits.low (8 + below) word.toBitVec.toNat := by
  rw [Bits.low_add]
  congr 1
  apply Bits.low_congr
  intro place within
  rw [testBit_byte word few within, Nat.testBit_shiftRight]

/-- A group is given with all of its bits, and none of those given before is lost. -/
theorem given_take (few : state.waiting < 8) (small : group < 32) :
    (state.take group).given = state.given ++ Bits.low 5 group := by
  have shifted := low_shift few small
  by_cases full : 8 ≤ state.waiting + 5
  · have split : state.waiting + 5 = 8 + (state.waiting + 5 - 8) := by omega
    rw [split, ← low_byte _ (by omega)] at shifted
    simp only [take, if_pos full, given, Bits.ofBytes_concat]
    rw [List.append_assoc, shifted, List.append_assoc]
  · simp only [take, if_neg full, given]
    rw [shifted, List.append_assoc]

theorem given_foldl (few : state.waiting < 8) {groups : List Nat}
    (small : ∀ group ∈ groups, group < 32) :
    (groups.foldl take state).given = state.given ++ groups.flatMap (Bits.low 5) := by
  induction groups generalizing state with
  | nil => exact (List.append_nil _).symm
  | cons group groups ih =>
      rw [List.forall_mem_cons] at small
      rw [List.foldl_cons, ih (count_take few group).1 small.2, given_take few small.1,
        List.append_assoc, List.flatMap_cons]

end Accumulator

/-- Groups of five bits are in the bytes, but for fewer bits than a byte has. -/
theorem count_groups (groups : List Nat) :
    (groups.foldl Accumulator.take .empty).waiting < 8 ∧
      8 * (unpack groups).length + (groups.foldl Accumulator.take .empty).waiting =
        5 * groups.length := by
  have start : Accumulator.empty.waiting < 8 := by decide
  obtain ⟨few, counted⟩ := Accumulator.count_foldl start groups
  have nothing : 8 * Accumulator.empty.bytes.length + Accumulator.empty.waiting = 0 := rfl
  rw [nothing, Nat.zero_add] at counted
  exact ⟨few, counted⟩

theorem length_unpack (groups : List Nat) : (unpack groups).length = 5 * groups.length / 8 := by
  obtain ⟨few, counted⟩ := count_groups groups
  omega

/-- After any number of groups, the state has been given their bits and nothing else. -/
theorem given_groups {groups : List Nat} (small : ∀ group ∈ groups, group < 32) :
    (groups.foldl Accumulator.take .empty).given = groups.flatMap (Bits.low 5) :=
  Accumulator.given_foldl (by decide) small

/-- No bit is left over where the groups fill their bytes. -/
theorem ofBytes_unpack {groups : List Nat} (small : ∀ group ∈ groups, group < 32)
    (whole : 5 * groups.length % 8 = 0) :
    Bits.ofBytes (unpack groups) = groups.flatMap (Bits.low 5) := by
  obtain ⟨few, counted⟩ := count_groups groups
  have none : (groups.foldl Accumulator.take .empty).waiting = 0 := by omega
  have given := given_groups small
  rw [Accumulator.given, none, Bits.low, List.append_nil] at given
  exact given

def alphabet : Text := "ABCDEFGHIJKLMNOPQRSTUVWXYZ234567".toList

def letter (group : Nat) : Char :=
  alphabet.getD group '='

/-- Bytes in groups of five bits, the last of them filled up with zeros. -/
def groups (bytes : List UInt8) : List Nat :=
  let bits := Bits.ofBytes bytes
  let count := (bits.length + 4) / 5
  (Bits.chunks 5 count (bits ++ List.replicate (5 * count - bits.length) false)).map Bits.toNat

/-- The text of bytes, filled up to a multiple of eight characters. -/
def encode (bytes : List UInt8) : Text :=
  let letters := (groups bytes).map letter
  letters ++ List.replicate ((8 - letters.length % 8) % 8) '='

variable {bytes : List UInt8}

theorem length_groups (bytes : List UInt8) :
    (groups bytes).length = (8 * bytes.length + 4) / 5 := by
  rw [groups, List.length_map, Bits.length_chunks, Bits.length_ofBytes]

theorem groups_bits (bytes : List UInt8) :
    (∀ group ∈ groups bytes, group < 32) ∧
      ∃ fill < 5, (groups bytes).flatMap (Bits.low 5) =
        Bits.ofBytes bytes ++ List.replicate fill false := by
  generalize bound : ((Bits.ofBytes bytes).length + 4) / 5 = count
  generalize added : 5 * count - (Bits.ofBytes bytes).length = fill
  have whole : (Bits.ofBytes bytes ++ List.replicate fill false).length = 5 * count := by
    rw [List.length_append, List.length_replicate]
    omega
  have even (chunk : List Bool)
      (member : chunk ∈ Bits.chunks 5 count (Bits.ofBytes bytes ++ List.replicate fill false)) :
      chunk.length = 5 := Bits.length_of_mem_chunks whole member
  have cut : groups bytes = (Bits.chunks 5 count
      (Bits.ofBytes bytes ++ List.replicate fill false)).map Bits.toNat := by
    rw [groups, bound, added]
  rw [cut]
  constructor
  · intro group member
    obtain ⟨chunk, inside, same⟩ := List.mem_map.1 member
    have small := Bits.toNat_lt chunk
    rw [even chunk inside, same] at small
    exact small
  · refine ⟨fill, by omega, ?_⟩
    rw [Bits.flatMap_low_toNat even, Bits.flatten_chunks whole]

/-- Reading gives back the bytes, and drops what fills up the last group. -/
theorem unpack_groups (bytes : List UInt8) : unpack (groups bytes) = bytes := by
  obtain ⟨small, fill, short, bits⟩ := groups_bits bytes
  obtain ⟨few, _⟩ := count_groups (groups bytes)
  have same := given_groups small
  rw [bits, Accumulator.given] at same
  have lengths := congrArg List.length same
  rw [List.length_append, List.length_append, Bits.length_ofBytes, Bits.length_ofBytes,
    Bits.length_low, List.length_replicate] at lengths
  have bytewise : (Bits.ofBytes (unpack (groups bytes))).length = (Bits.ofBytes bytes).length := by
    rw [Bits.length_ofBytes, Bits.length_ofBytes, unpack]
    omega
  exact Bits.ofBytes_injective (List.append_inj same bytewise).1

theorem encode_of_length (complete : bytes.length = 20) :
    encode bytes = (groups bytes).map letter ∧ (groups bytes).length = 32 := by
  have count : (groups bytes).length = 32 := by rw [length_groups, complete]
  refine ⟨?_, count⟩
  rw [encode, List.length_map, count]
  exact List.append_nil _

end Base32
end MagnetUri

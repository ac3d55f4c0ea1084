import MagnetUri.Percent.Encoded

set_option autoImplicit false

/-! Percent-encoded text in UTF-16 units, measured and read where it stands. A pair of units is
one character, and half of a pair may stand on its own. One walk counts the bytes by codes, the
other makes them unit by unit, so that the two have to step alike. -/

namespace MagnetUri.Text

def isLeading (unit : UInt16) : Bool :=
  0xD800 ≤ unit.toNat && unit.toNat < 0xDC00

def isTrailing (unit : UInt16) : Bool :=
  0xDC00 ≤ unit.toNat && unit.toNat < 0xE000

/-- The code that begins with a unit, and the units behind it. Half of a pair that stands on its
own is a code as well. -/
def codeAt (unit : UInt16) : List UInt16 → Nat × List UInt16
  | [] => (unit.toNat, [])
  | next :: rest =>
      if isLeading unit && isTrailing next then
        (0x10000 + (unit.toNat - 0xD800) * 0x400 + (next.toNat - 0xDC00), rest)
      else (unit.toNat, next :: rest)

theorem length_codeAt (unit : UInt16) (units : List UInt16) :
    (codeAt unit units).2.length ≤ units.length := by
  unfold codeAt
  split
  · exact Nat.le_refl _
  · split
    · exact Nat.le_succ _
    · exact Nat.le_refl _

end MagnetUri.Text

namespace MagnetUri.Percent

def digitIn? (unit? : Option UInt16) : Option Nat :=
  unit?.bind fun unit =>
    if unit.toNat < 0x80 then Character.hexValue? (Char.ofNat unit.toNat) else none

/-- Whether two hexadecimal digits follow every percent sign. -/
def wholeIn : List UInt16 → Bool
  | [] => true
  | unit :: rest =>
      if unit.toNat = 0x25 then
        (digitIn? rest[0]?).isSome && (digitIn? rest[1]?).isSome && wholeIn (rest.drop 2)
      else wholeIn rest
termination_by units => units.length
decreasing_by
  all_goals simp only [List.length_cons, List.length_drop]
  all_goals omega

def codeSize (code : Nat) : Nat :=
  if code < 0x80 then 1 else if code < 0x800 then 2 else if code < 0x10000 then 3 else 4

/-- The bytes of a code. Half of a pair is written as U+FFFD. -/
def codeBytes (code : Nat) : List UInt8 :=
  Utf8.encodeChar (if 0xD800 ≤ code ∧ code < 0xE000 then '\uFFFD' else Char.ofNat code)

def sizeIn : List UInt16 → Nat
  | [] => 0
  | unit :: rest =>
      let found := Text.codeAt unit rest
      if found.1 = 0x25 then 1 + sizeIn (rest.drop 2) else codeSize found.1 + sizeIn found.2
termination_by units => units.length
decreasing_by
  · simp only [List.length_cons, List.length_drop]
    omega
  · exact Nat.lt_succ_of_le (Text.length_codeAt unit rest)

def bytesIn (plusAsSpace : Bool) : List UInt16 → List UInt8
  | [] => []
  | unit :: rest =>
      if unit.toNat = 0x25 then
        UInt8.ofNat (16 * (digitIn? rest[0]?).getD 0 + (digitIn? rest[1]?).getD 0) ::
          bytesIn plusAsSpace (rest.drop 2)
      else if unit.toNat = 0x2B ∧ plusAsSpace = true then 0x20 :: bytesIn plusAsSpace rest
      else if unit.toNat < 0x80 then UInt8.ofNat unit.toNat :: bytesIn plusAsSpace rest
      else
        let found := Text.codeAt unit rest
        codeBytes found.1 ++ bytesIn plusAsSpace found.2
termination_by units => units.length
decreasing_by
  · simp only [List.length_cons, List.length_drop]
    omega
  · exact Nat.lt_succ_self _
  · exact Nat.lt_succ_self _
  · exact Nat.lt_succ_of_le (Text.length_codeAt unit rest)

/-- How many units and how many bytes lie in front of where a walk stops. It goes on from step to
step until it has passed `wanted` bytes, or to the end. -/
def walk (wanted : Int) : List UInt16 → (place passed : Nat) → Nat × Nat
  | [], place, passed => (place, passed)
  | unit :: rest, place, passed =>
      if passed < wanted then
        let found := Text.codeAt unit rest
        if found.1 = 0x25 then walk wanted (rest.drop 2) (place + 3) (passed + 1)
        else
          walk wanted found.2 (place + if 0xFFFF < found.1 then 2 else 1)
            (passed + codeSize found.1)
      else (place, passed)
termination_by units => units.length
decreasing_by
  · simp only [List.length_cons, List.length_drop]
    omega
  · exact Nat.lt_succ_of_le (Text.length_codeAt unit rest)

/-- Encoded text as it is kept: units with whole escapes. -/
structure Stored where
  units : List UInt16
  plusAsSpace : Bool
  whole : wholeIn units = true

namespace Stored

/-- Keeps units, or gives them back where an escape in them is broken. -/
def keep (units : List UInt16) (plusAsSpace : Bool) : Except (List UInt16) Stored :=
  if whole : wholeIn units = true then .ok { units, plusAsSpace, whole } else .error units

def size (stored : Stored) : Nat :=
  sizeIn stored.units

def bytes (stored : Stored) : List UInt8 :=
  bytesIn stored.plusAsSpace stored.units

/-- Whether the bytes are those of a plain text. Sizes are compared first, and then byte by
byte with no look at the end. -/
def spells (stored : Stored) (plain : Text) : Bool :=
  let expected := Utf8.encode plain
  expected.length == stored.size && stored.bytes.isPrefixOf expected

def sameBytes (left right : Stored) : Bool :=
  left.size == right.size && left.bytes.isPrefixOf right.bytes

def decode? (stored : Stored) : Option Text :=
  Utf8.decode? stored.bytes

/-- The parts before and after a number of decoded bytes, if a walk stops right behind them. Each
part is kept anew, which would fail where an escape was cut. -/
def splitAt (stored : Stored) (count : Int) :
    Except (List UInt16) (Option (Stored × Stored)) :=
  let (place, passed) := walk count stored.units 0 0
  if passed = count then
    match keep (stored.units.take place) stored.plusAsSpace,
        keep (stored.units.drop place) stored.plusAsSpace with
    | .ok left, .ok right => .ok (some (left, right))
    | .error cut, _ => .error cut
    | .ok _, .error cut => .error cut
  else .ok none

end Stored
end MagnetUri.Percent

import MagnetUri.Text

set_option autoImplicit false

/-! Info hashes: twenty bytes, written as forty hexadecimal digits or as thirty-two base32
characters. Either form is read with letters of either case; base32 takes a text whose capital
form is made of its thirty-two characters. -/

namespace MagnetUri.Text

/-- The capital form of a character where that form is ASCII; any other character
stands for itself. -/
def capital (char : Char) : Text :=
  if 'a' ≤ char && char ≤ 'z' then [Char.ofNat (char.toNat - 32)]
  else
    match char.toNat with
    | 0x00DF => ['S', 'S']
    | 0x0131 => ['I']
    | 0x017F => ['S']
    | 0xFB00 => ['F', 'F']
    | 0xFB01 => ['F', 'I']
    | 0xFB02 => ['F', 'L']
    | 0xFB03 => ['F', 'F', 'I']
    | 0xFB04 => ['F', 'F', 'L']
    | 0xFB05 => ['S', 'T']
    | 0xFB06 => ['S', 'T']
    | _ => [char]

def capitals (text : Text) : Text :=
  text.flatMap capital

end MagnetUri.Text

namespace MagnetUri.Base32

def value? (char : Char) : Option Nat :=
  if 'A' ≤ char ∧ char ≤ 'Z' then some (char.toNat - 65)
  else if '2' ≤ char ∧ char ≤ '7' then some (char.toNat - 24)
  else none

/-- What has been read: the bytes, and at the low end of the word the bits that
wait for the next one. -/
structure Accumulator where
  word : Int32
  waiting : Nat
  bytes : List UInt8

namespace Accumulator

def empty : Accumulator :=
  { word := 0, waiting := 0, bytes := [] }

def take (state : Accumulator) (group : Nat) : Accumulator :=
  let word := state.word <<< 5 ||| Int32.ofNat group
  let waiting := state.waiting + 5
  if 8 ≤ waiting then
    let byte := word >>> Int32.ofNat (waiting - 8) &&& 0xff
    { word, waiting := waiting - 8, bytes := state.bytes ++ [byte.toUInt32.toUInt8] }
  else { word, waiting, bytes := state.bytes }

end Accumulator

def unpack (groups : List Nat) : List UInt8 :=
  (groups.foldl Accumulator.take .empty).bytes

end MagnetUri.Base32

namespace MagnetUri

structure InfoHash where
  bytes : List UInt8
  complete : bytes.length = 20
deriving DecidableEq

namespace InfoHash

inductive ReadError where
  | hex (text : Text)
  | base32 (text : Text)
  | byteCount (count : Nat)
deriving DecidableEq

namespace ReadError

def message : ReadError → String
  | .hex text => "Invalid info hash hex: " ++ String.ofList text
  | .base32 text => "Invalid info hash base32: " ++ String.ofList text
  | .byteCount count =>
      "Invalid info hash bytes: expected 20, got " ++ toString count

end ReadError

def pairBytes? : Text → Option (List UInt8)
  | [] => some []
  | [_] => none
  | high :: low :: rest =>
      match Character.hexValue? high, Character.hexValue? low, pairBytes? rest with
      | some high, some low, some bytes => some (UInt8.ofNat (16 * high + low) :: bytes)
      | _, _, _ => none

def byteDigits (byte : UInt8) : Text :=
  [Character.hexDigit (byte.toNat / 16), Character.hexDigit (byte.toNat % 16)]

def toHex (hash : InfoHash) : Text :=
  hash.bytes.flatMap byteDigits

def ofBytes (bytes : List UInt8) : Except ReadError InfoHash :=
  if complete : bytes.length = 20 then .ok { bytes, complete }
  else .error (.byteCount bytes.length)

def ofHex (text : Text) : Except ReadError InfoHash :=
  match pairBytes? text with
  | some bytes =>
      if complete : bytes.length = 20 then .ok { bytes, complete } else .error (.hex text)
  | none => .error (.hex text)

def ofBase32 (text : Text) : Except ReadError InfoHash :=
  match (Text.capitals text).mapM Base32.value? with
  | some values =>
      if values.length = 32 then ofBytes (Base32.unpack values) else .error (.base32 text)
  | none => .error (.base32 text)

/-- Reads thirty-two units as base32, any other number of them as hexadecimal. -/
def parse (text : Text) : Except ReadError InfoHash :=
  if Text.unitLength text = 32 then ofBase32 text else ofHex text

end InfoHash
end MagnetUri

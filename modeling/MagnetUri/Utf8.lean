import MagnetUri.Text

set_option autoImplicit false

/-! UTF-8, written and read. Reading goes byte by byte and gives one piece per
character and one per malformed stretch, where a stretch ends before the first
byte that cannot continue it. A strict reading takes no malformed stretch, a
lossy one puts U+FFFD for each. Both drop one byte order mark at the start. -/

namespace MagnetUri.Utf8

/-- A byte that continues a character, with the low six bits of `value`. -/
def continuation (value : Nat) : UInt8 :=
  UInt8.ofNat (0x80 + value % 0x40)

def encodeChar (char : Char) : List UInt8 :=
  let code := char.toNat
  if code < 0x80 then [UInt8.ofNat code]
  else if code < 0x800 then [UInt8.ofNat (0xC0 + code / 0x40), continuation code]
  else if code < 0x10000 then
    [UInt8.ofNat (0xE0 + code / 0x1000), continuation (code / 0x40), continuation code]
  else
    [UInt8.ofNat (0xF0 + code / 0x40000), continuation (code / 0x1000),
      continuation (code / 0x40), continuation code]

def encode (text : Text) : List UInt8 :=
  text.flatMap encodeChar

def width (char : Char) : Nat :=
  let code := char.toNat
  if code < 0x80 then 1 else if code < 0x800 then 2 else if code < 0x10000 then 3 else 4

theorem length_encodeChar (char : Char) : (encodeChar char).length = width char := by
  simp only [encodeChar, width]
  split
  · rfl
  · split
    · rfl
    · split <;> rfl

/-- A character whose first bytes have been read: the bits so far, how many bytes
are still to come, and the least and the greatest next byte that can follow. -/
structure Pending where
  value : Nat
  missing : Nat
  least : Nat
  greatest : Nat
deriving DecidableEq

/-- What a byte does where a character may begin: the pieces it finishes, and the
character that it leaves unfinished. -/
def start (byte : UInt8) : List (Option Char) × Option Pending :=
  let code := byte.toNat
  if code < 0x80 then ([some (Char.ofNat code)], none)
  else if code < 0xC2 then ([none], none)
  else if code < 0xE0 then
    ([], some { value := code - 0xC0, missing := 1, least := 0x80, greatest := 0xBF })
  else if code < 0xF0 then
    ([], some { value := code - 0xE0, missing := 2,
                least := if code = 0xE0 then 0xA0 else 0x80,
                greatest := if code = 0xED then 0x9F else 0xBF })
  else if code < 0xF5 then
    ([], some { value := code - 0xF0, missing := 3,
                least := if code = 0xF0 then 0x90 else 0x80,
                greatest := if code = 0xF4 then 0x8F else 0xBF })
  else ([none], none)

/-- What a byte does after the given unfinished character. A byte that cannot
continue it ends a malformed stretch and is looked at again as a first byte. -/
def step (pending : Option Pending) (byte : UInt8) : List (Option Char) × Option Pending :=
  match pending with
  | none => start byte
  | some open_ =>
      let code := byte.toNat
      if open_.least ≤ code ∧ code ≤ open_.greatest then
        let value := open_.value * 0x40 + code % 0x40
        if open_.missing ≤ 1 then ([some (Char.ofNat value)], none)
        else ([], some { value, missing := open_.missing - 1, least := 0x80, greatest := 0xBF })
      else
        let (pieces, next) := start byte
        (none :: pieces, next)

/-- The pieces of the bytes that follow an unfinished character: a character, or
`none` for a malformed stretch. Bytes that stop inside a character are malformed. -/
def piecesAfter (pending : Option Pending) : List UInt8 → List (Option Char)
  | [] => if pending.isSome then [none] else []
  | byte :: rest =>
      let (found, next) := step pending byte
      found ++ piecesAfter next rest

def pieces (bytes : List UInt8) : List (Option Char) :=
  piecesAfter none bytes

def unmarked : List (Option Char) → List (Option Char)
  | [] => []
  | piece :: rest => if piece = some '\uFEFF' then rest else piece :: rest

def decode? (bytes : List UInt8) : Option Text :=
  (unmarked (pieces bytes)).mapM id

def decodeLossy (bytes : List UInt8) : Text :=
  (unmarked (pieces bytes)).map fun piece => piece.getD '\uFFFD'

end MagnetUri.Utf8

set_option autoImplicit false

/-! Characters, texts as lists of characters, and texts in UTF-16 units. The character classes are
those of the generic URI grammar and lie within ASCII. A character above U+FFFF takes two units, and
units need not come from a text: they may hold half of a pair. -/

namespace MagnetUri.Character

def isLetter (char : Char) : Bool :=
  ('a' ≤ char && char ≤ 'z') || ('A' ≤ char && char ≤ 'Z')

def isDigit (char : Char) : Bool :=
  '0' ≤ char && char ≤ '9'

def hexValue? (char : Char) : Option Nat :=
  if isDigit char then some (char.toNat - 48)
  else if 'a' ≤ char && char ≤ 'f' then some (char.toNat - 87)
  else if 'A' ≤ char && char ≤ 'F' then some (char.toNat - 55)
  else none

def isHexDigit (char : Char) : Bool :=
  (hexValue? char).isSome

def hexDigit (value : Nat) : Char :=
  if value < 10 then Char.ofNat (48 + value) else Char.ofNat (87 + value)

def capitalHexDigit (value : Nat) : Char :=
  if value < 10 then Char.ofNat (48 + value) else Char.ofNat (55 + value)

def isUnreserved (char : Char) : Bool :=
  isLetter char || isDigit char || ['-', '.', '_', '~'].contains char

def isSubDelimiter (char : Char) : Bool :=
  ['!', '$', '&', '\x27', '(', ')', '*', '+', ',', ';', '='].contains char

def inScheme (char : Char) : Bool :=
  isLetter char || isDigit char || ['+', '-', '.'].contains char

def inRegisteredName (char : Char) : Bool :=
  isUnreserved char || isSubDelimiter char

def inUserinfo (char : Char) : Bool :=
  inRegisteredName char || char == ':'

def inPath (char : Char) : Bool :=
  inUserinfo char || char == '@' || char == '/'

def inQuery (char : Char) : Bool :=
  inPath char || char == '?'

def inFragment (char : Char) : Bool :=
  inQuery char

/-- What may stand between the slashes and the path, before its parts are told apart. -/
def inAuthority (char : Char) : Bool :=
  inUserinfo char || ['@', '[', ']', '%'].contains char

def small (char : Char) : Char :=
  if 'A' ≤ char && char ≤ 'Z' then Char.ofNat (char.toNat + 32) else char

end MagnetUri.Character

namespace MagnetUri

/-- A text is the list of its Unicode scalar values. -/
abbrev Text := List Char

namespace Text

/-- The parts before and after the first `mark`, which belongs to neither. -/
def cut? (mark : Char) : Text → Option (Text × Text)
  | [] => none
  | char :: rest =>
      if char = mark then some ([], rest)
      else (cut? mark rest).map fun parts => (char :: parts.1, parts.2)

def cutLast? (mark : Char) : Text → Option (Text × Text)
  | [] => none
  | char :: rest =>
      match cutLast? mark rest with
      | some (before, after) => some (char :: before, after)
      | none => if char = mark then some ([], rest) else none

/-- The parts between the marks: one more than there are marks. -/
def separate (mark : Char) : Text → List Text
  | [] => [[]]
  | char :: rest =>
      if char = mark then [] :: separate mark rest
      else
        match separate mark rest with
        | [] => [[char]]
        | part :: parts => (char :: part) :: parts

def join (mark : Char) : List Text → Text
  | [] => []
  | [part] => part
  | part :: next :: parts => part ++ mark :: join mark (next :: parts)

theorem separate_ne_nil (mark : Char) (text : Text) : separate mark text ≠ [] := by
  cases text with
  | nil => simp [separate]
  | cons char rest =>
      simp only [separate]
      split
      · simp
      · split <;> simp

theorem join_separate (mark : Char) (text : Text) : join mark (separate mark text) = text := by
  induction text with
  | nil => rfl
  | cons char rest ih =>
      simp only [separate]
      split
      next same =>
        cases parts : separate mark rest with
        | nil => exact absurd parts (separate_ne_nil mark rest)
        | cons part others =>
            rw [parts] at ih
            simp [join, ih, same]
      next =>
        split
        next empty => exact absurd empty (separate_ne_nil mark rest)
        next part others found =>
            rw [found] at ih
            cases others with
            | nil => simpa [join] using ih
            | cons next others => simpa [join] using ih

theorem eq_append_of_cut? {mark : Char} {text before after : Text}
    (found : cut? mark text = some (before, after)) : text = before ++ mark :: after := by
  induction text generalizing before with
  | nil => simp [cut?] at found
  | cons char rest ih =>
      simp only [cut?] at found
      split at found
      next same =>
        simp only [Option.some.injEq, Prod.mk.injEq] at found
        simp [← found.1, ← found.2, same]
      next =>
        obtain ⟨⟨first, second⟩, inner, same⟩ := Option.map_eq_some_iff.1 found
        simp only [Prod.mk.injEq] at same
        rw [← same.1, ih (inner.trans (by rw [same.2]))]
        rfl

end Text
end MagnetUri

namespace MagnetUri.Text

def isBlank (char : Char) : Bool :=
  let code := char.toNat
  (0x09 ≤ code && code ≤ 0x0D) || code == 0x20 || code == 0xA0 || code == 0x1680 ||
    (0x2000 ≤ code && code ≤ 0x200A) || code == 0x2028 || code == 0x2029 || code == 0x202F ||
    code == 0x205F || code == 0x3000 || code == 0xFEFF

def words : Text → List Text
  | [] => []
  | char :: rest =>
      if isBlank char then words rest
      else
        match rest with
        | [] => [[char]]
        | next :: _ =>
            if isBlank next then [char] :: words rest
            else
              match words rest with
              | [] => [[char]]
              | word :: others => (char :: word) :: others

def unitWidth (char : Char) : Nat :=
  if char.toNat < 0x10000 then 1 else 2

/-- The units of one character, the leading half of a pair first. -/
def unitsOf (char : Char) : List UInt16 :=
  if char.toNat < 0x10000 then [UInt16.ofNat char.toNat]
  else
    let offset := char.toNat - 0x10000
    [UInt16.ofNat (0xD800 + offset / 0x400), UInt16.ofNat (0xDC00 + offset % 0x400)]

def units (text : Text) : List UInt16 :=
  text.flatMap unitsOf

def unitLength : Text → Nat
  | [] => 0
  | char :: rest => unitWidth char + unitLength rest

theorem length_unitsOf (char : Char) : (unitsOf char).length = unitWidth char := by
  unfold unitsOf unitWidth
  split <;> rfl

theorem length_units (text : Text) : (units text).length = unitLength text := by
  induction text with
  | nil => rfl
  | cons char rest ih =>
      simp only [units, unitLength, List.flatMap_cons, List.length_append, length_unitsOf] at ih ⊢
      rw [ih]

/-- The character that a unit is on its own; half of a pair is none and reads as U+FFFD. -/
def ofUnit (unit : UInt16) : Char :=
  if 0xD800 ≤ unit.toNat ∧ unit.toNat < 0xE000 then '\uFFFD' else Char.ofNat unit.toNat

def ofUnits (units : List UInt16) : Text :=
  units.map ofUnit

def unitIn (inClass : Char → Bool) (unit : UInt16) : Bool :=
  decide (unit.toNat < 0x80) && inClass (Char.ofNat unit.toNat)

/-- A place among units and the place where reading has to stop. Neither has to lie
within the units. -/
structure Cursor where
  units : List UInt16
  position : Int
  stop : Int
deriving DecidableEq

namespace Cursor

def onUnits (units : List UInt16) : Cursor :=
  { units, position := 0, stop := units.length }

def whole (text : Text) : Cursor :=
  onUnits (Text.units text)

def atEnd (cursor : Cursor) : Bool :=
  cursor.stop ≤ cursor.position

inductive Sight where
  | unit (value : UInt16)
  /-- The place is at or behind the stop. -/
  | past
  /-- The place is before the stop, but there is no unit. -/
  | nowhere
deriving DecidableEq

def Sight.isIn (inClass : Char → Bool) : Sight → Bool
  | .unit value => unitIn inClass value
  | .past | .nowhere => false

def peek (cursor : Cursor) (offset : Int) : Sight :=
  let place := cursor.position + offset
  if cursor.stop ≤ place then .past
  else if place < 0 then .nowhere
  else
    match cursor.units[place.toNat]? with
    | some value => .unit value
    | none => .nowhere

def moveBy (cursor : Cursor) (count : Nat) : Cursor :=
  { cursor with position := cursor.position + count }

theorem atEnd_iff {cursor : Cursor} : cursor.atEnd = true ↔ cursor.stop ≤ cursor.position :=
  decide_eq_true_iff

/-- What is found in a class stands before the stop. -/
theorem lt_of_isIn {cursor : Cursor} {inClass : Char → Bool}
    (found : (cursor.peek 0).isIn inClass = true) : cursor.position < cursor.stop := by
  apply Int.not_le.1
  intro behind
  rw [peek, if_pos (by omega)] at found
  cases found

/-- A move forward brings a cursor that is before its stop nearer to it. -/
theorem moveBy_shortens {cursor : Cursor} (unfinished : cursor.position < cursor.stop)
    (count : Nat) : ((cursor.moveBy (count + 1)).stop - (cursor.moveBy (count + 1)).position).toNat <
      (cursor.stop - cursor.position).toNat := by
  simp only [moveBy]
  omega

end Cursor
end MagnetUri.Text

import MagnetUri.Proofs.Uri.Ascii
import MagnetUri.Proofs.Utf8.RoundTrip

set_option autoImplicit false

/-! Windows among units. A cursor stands between the units before it and the units behind its
stop; the units in its window are known as far as the first that is beyond ASCII. What such a
cursor sees and where it moves depends on the window alone. -/

namespace MagnetUri.Text

open Character (IsAscii)

variable {char mark : Char} {unit : UInt16} {text taken rest : Text}
  {before window behind run : List UInt16} {inClass : Char → Bool}

theorem toNat_ofNat_of_isAscii (ascii : IsAscii char) :
    (UInt16.ofNat char.toNat).toNat = char.toNat := by
  have small : char.toNat < 0x80 := ascii
  rw [UInt16.toNat_ofNat']
  omega

theorem units_cons (ascii : IsAscii char) (rest : Text) :
    units (char :: rest) = UInt16.ofNat char.toNat :: units rest := by
  have small : char.toNat < 0x80 := ascii
  rw [units, List.flatMap_cons, unitsOf, if_pos (by omega)]
  rfl

theorem units_append (text rest : Text) : units (text ++ rest) = units text ++ units rest :=
  List.flatMap_append

theorem unitLength_append (text rest : Text) :
    unitLength (text ++ rest) = unitLength text + unitLength rest := by
  rw [← length_units, units_append, List.length_append, length_units, length_units]

theorem length_units_of_isAscii (ascii : ∀ char ∈ text, IsAscii char) :
    (units text).length = text.length := by
  rw [length_units, unitLength_of_isAscii ascii]

theorem unitLength_eq_zero_iff : unitLength text = 0 ↔ text = [] := by
  cases text with
  | nil => exact iff_of_true rfl rfl
  | cons char rest =>
      have wide : 0 < unitWidth char := by
        unfold unitWidth
        split <;> decide
      refine iff_of_false ?_ nofun
      rw [unitLength]
      omega

theorem ofUnit_of_isAscii (ascii : IsAscii char) : ofUnit (UInt16.ofNat char.toNat) = char := by
  have small : char.toNat < 0x80 := ascii
  rw [ofUnit, toNat_ofNat_of_isAscii ascii, if_neg (by omega), Char.ofNat_toNat]

theorem ofUnits_units (ascii : ∀ char ∈ text, IsAscii char) : ofUnits (units text) = text := by
  induction text with
  | nil => rfl
  | cons char rest ih =>
      rw [List.forall_mem_cons] at ascii
      rw [units_cons ascii.1, ofUnits, List.map_cons, ofUnit_of_isAscii ascii.1]
      exact congrArg (char :: ·) (ih ascii.2)

theorem unitIn_of_isAscii (ascii : IsAscii char) :
    unitIn inClass (UInt16.ofNat char.toNat) = inClass char := by
  have small : char.toNat < 0x80 := ascii
  rw [unitIn, toNat_ofNat_of_isAscii ascii, decide_eq_true small, Bool.true_and, Char.ofNat_toNat]

theorem unitIn_of_wide (wide : 0x80 ≤ unit.toNat) : unitIn inClass unit = false := by
  rw [unitIn, decide_eq_false (by omega), Bool.false_and]

def Narrow (inClass : Char → Bool) : Prop :=
  ∀ char, inClass char = true → IsAscii char

theorem narrow_mark (ascii : IsAscii mark) : Narrow (· == mark) := by
  intro char same
  rw [eq_of_beq same]
  exact ascii

inductive Shows : List UInt16 → Text → Prop
  | nil : Shows [] []
  | ascii {char : Char} {units : List UInt16} {text : Text} (ascii : IsAscii char)
      (later : Shows units text) : Shows (UInt16.ofNat char.toNat :: units) (char :: text)
  | beyond {unit : UInt16} {units : List UInt16} {char : Char} {text : Text}
      (wide : 0x80 ≤ unit.toNat) (foreign : ¬ IsAscii char) : Shows (unit :: units) (char :: text)

theorem shows_units (text : Text) : Shows (units text) text := by
  induction text with
  | nil => exact .nil
  | cons char rest ih =>
      by_cases ascii : IsAscii char
      · rw [units_cons ascii]
        exact .ascii ascii ih
      · have large : 0x80 ≤ char.toNat := Nat.not_lt.1 ascii
        rw [units, List.flatMap_cons, unitsOf]
        split
        next narrow =>
          apply Shows.beyond _ ascii
          rw [UInt16.toNat_ofNat']
          omega
        next =>
          apply Shows.beyond _ ascii
          have bounds := Utf8.code_bounds char
          rw [UInt16.toNat_ofNat']
          omega

theorem shows_ofUnits (units : List UInt16) : Shows units (ofUnits units) := by
  induction units with
  | nil => exact .nil
  | cons unit others ih =>
      have bounded : unit.toNat < 0x10000 := unit.toNat_lt
      rw [ofUnits, List.map_cons]
      by_cases small : unit.toNat < 0x80
      · have char : ofUnit unit = Char.ofNat unit.toNat := if_neg (by omega)
        have code := Character.toNat_ofNat_of_lt small
        have same : UInt16.ofNat (Char.ofNat unit.toNat).toNat = unit := by
          rw [code, UInt16.ofNat_toNat]
        have shown : Shows (UInt16.ofNat (Char.ofNat unit.toNat).toNat :: others)
            (Char.ofNat unit.toNat :: ofUnits others) :=
          .ascii (by rw [IsAscii, code]; exact small) ih
        rw [same] at shown
        rw [char]
        exact shown
      · apply Shows.beyond (Nat.not_lt.1 small)
        unfold ofUnit
        split
        next => decide
        next whole =>
          have valid : unit.toNat.isValidChar := by
            rw [Nat.isValidChar]
            omega
          intro ascii
          rw [IsAscii, Char.ofNat, dif_pos valid] at ascii
          exact small ascii

theorem Shows.split (shows_ : Shows window (taken ++ rest))
    (ascii : ∀ char ∈ taken, IsAscii char) :
    ∃ left, window = units taken ++ left ∧ Shows left rest := by
  induction taken generalizing window with
  | nil => exact ⟨window, rfl, shows_⟩
  | cons char others ih =>
      rw [List.forall_mem_cons] at ascii
      cases shows_ with
      | ascii _ later =>
          obtain ⟨left, same, shown⟩ := ih later ascii.2
          exact ⟨left, by rw [units_cons ascii.1, same]; rfl, shown⟩
      | beyond _ foreign => exact absurd ascii.1 foreign

namespace Cursor

def between (before window behind : List UInt16) : Cursor where
  units := before ++ (window ++ behind)
  position := before.length
  stop := before.length + window.length

theorem onUnits_eq (units : List UInt16) : onUnits units = between [] units [] := by
  simp [onUnits, between]

theorem peek_between (before window behind : List UInt16) (offset : Nat) :
    (between before window behind).peek offset =
      match window[offset]? with
      | some unit => .unit unit
      | none => .past := by
  have place : ((before.length : Int) + offset).toNat = before.length + offset := by omega
  unfold peek
  simp only [between, place]
  by_cases inside : offset < window.length
  · have found : (before ++ (window ++ behind))[before.length + offset]? = some window[offset] := by
      rw [List.getElem?_append_right (by omega), Nat.add_sub_cancel_left,
        List.getElem?_append_left inside, List.getElem?_eq_getElem inside]
    split
    next past => omega
    next =>
      split
      next negative => omega
      next => rw [found, List.getElem?_eq_getElem inside]
  · rw [List.getElem?_eq_none (Nat.not_lt.1 inside)]
    split
    next => rfl
    next within => omega

theorem atEnd_between (before window behind : List UInt16) :
    (between before window behind).atEnd = window.isEmpty := by
  rw [Bool.eq_iff_iff, atEnd_iff, List.isEmpty_iff_length_eq_zero]
  simp only [between]
  omega

theorem moveBy_between (before run window behind : List UInt16) :
    (between before (run ++ window) behind).moveBy run.length =
      between (before ++ run) window behind := by
  simp [moveBy, between]
  omega

theorem moveBy_moveBy (cursor : Cursor) (first second : Nat) :
    (cursor.moveBy first).moveBy second = cursor.moveBy (first + second) := by
  simp only [moveBy]
  congr 1
  omega

theorem moveBy_zero (cursor : Cursor) : cursor.moveBy 0 = cursor := by
  simp [moveBy]

theorem place_between (before window behind : List UInt16) (count : Nat) :
    ((between before window behind).moveBy count).position.toNat = before.length + count := by
  simp only [moveBy, between]
  omega

/-- A cursor that moves over characters of the text in its window stands in front of the rest. -/
theorem exists_moved (taken : Text) (shows_ : Shows window (taken ++ rest))
    (ascii : ∀ char ∈ taken, IsAscii char) (before behind : List UInt16) :
    ∃ left, Shows left rest ∧ (between before window behind).moveBy taken.length =
      between (before ++ Text.units taken) left behind := by
  obtain ⟨left, same, shown⟩ := shows_.split ascii
  refine ⟨left, shown, ?_⟩
  rw [same, ← length_units_of_isAscii ascii, moveBy_between]

/-- What is seen behind some characters of the text in the window is its next character. -/
theorem isIn_peek (taken : Text) (narrow : Narrow inClass)
    (shows_ : Shows window (taken ++ rest)) (ascii : ∀ char ∈ taken, IsAscii char) :
    ((between before window behind).peek taken.length).isIn inClass = rest.head?.any inClass := by
  obtain ⟨left, same, shown⟩ := shows_.split ascii
  have next : window[taken.length]? = left[0]? := by
    rw [same, ← length_units_of_isAscii ascii, List.getElem?_append_right (Nat.le_refl _),
      Nat.sub_self]
  rw [peek_between, next]
  cases shown with
  | nil => rfl
  | ascii ascii _ => exact unitIn_of_isAscii ascii
  | @beyond unit _ char _ wide foreign =>
      have outside : inClass char = false := by
        rw [Bool.eq_false_iff]
        exact fun inside => foreign (narrow char inside)
      change unitIn inClass unit = inClass char
      rw [unitIn_of_wide wide, outside]

end Cursor
end MagnetUri.Text

import MagnetUri.Effect

set_option autoImplicit false

/-! Lazy selections of a source's elements, and the cursors that make passes over them. A cursor
moves forward only. A step of the source that fails ends the source; a test that fails leaves the
cursor with the element it held, one place further on. -/

namespace MagnetUri

/-- A sequence that can be read any number of times, and breaks off where one of
its steps fails. Sources with one label are one and the same sequence. -/
structure Source (ε α : Type) where
  label : Nat
  steps : List (Except ε α)

def Source.mapError {ε ε' α : Type} (tell : ε → ε') (source : Source ε α) : Source ε' α :=
  { label := source.label, steps := source.steps.map (·.mapError tell) }

structure Selection (ε σ α β : Type) where
  source : Source ε α
  accepts : α → Effect ε σ Bool
  transform : α → Effect ε σ β

namespace Selection

variable {ε σ τ α β γ : Type}

def all (source : Source ε α) (transform : α → Effect ε σ β) : Selection ε σ α β :=
  { source, accepts := fun _ => Effect.pure true, transform }

/-- The same selection over a part of a larger store. -/
def within (place : Place σ τ) (selection : Selection ε τ α β) : Selection ε σ α β :=
  { source := selection.source
    accepts := fun element => (selection.accepts element).within place
    transform := fun element => (selection.transform element).within place }

end Selection
end MagnetUri

namespace MagnetUri.Selection

variable {ε σ α β : Type}

structure Cursor (ε σ α β : Type) where
  selection : Selection ε σ α β
  /-- The steps of the source that are still to be taken. -/
  ahead : List (Except ε α)
  /-- How many steps have been taken, the step onto the end included. -/
  taken : Nat
  element : Option α
  finished : Bool

def cursor (selection : Selection ε σ α β) : Cursor ε σ α β :=
  { selection, ahead := selection.source.steps, taken := 0, element := none, finished := false }

def pastEnd (selection : Selection ε σ α β) : Cursor ε σ α β :=
  { selection, ahead := [], taken := 0, element := none, finished := true }

inductive ReadError (ε : Type) where
  /-- The cursor stands on no element. -/
  | unplaced
  | failed (cause : ε)
deriving DecidableEq

def unplacedMessage : String := "cursor is not positioned on an element"

namespace Cursor

/-- The place of the element in the source, counted from zero. There is none
before the first element and at the end. -/
def position? (cursor : Cursor ε σ α β) : Option Nat :=
  if cursor.finished then none
  else
    match cursor.taken with
    | 0 => none
    | place + 1 => some place

/-- Whether two cursors are at one place of one source. All cursors at the end are. -/
def sameSpot {β' : Type} (left : Cursor ε σ α β) (right : Cursor ε σ α β') : Bool :=
  if left.finished || right.finished then left.finished == right.finished
  else
    left.selection.source.label == right.selection.source.label && left.taken == right.taken

/-- Takes steps until the test accepts an element, the source ends or something fails. -/
def seek (cursor : Cursor ε σ α β) :
    (ahead : List (Except ε α)) → (taken : Nat) → σ →
      Except ε (Option α) × Cursor ε σ α β × σ
  | [], taken, store =>
      (.ok none,
        { cursor with ahead := [], taken := taken + 1, element := none, finished := true }, store)
  | .error failure :: _, taken, store =>
      (.error failure, { cursor with ahead := [], taken }, store)
  | .ok element :: rest, taken, store =>
      match cursor.selection.accepts element store with
      | (.error failure, store) =>
          (.error failure, { cursor with ahead := rest, taken := taken + 1 }, store)
      | (.ok true, store) =>
          (.ok (some element),
            { cursor with ahead := rest, taken := taken + 1, element := some element }, store)
      | (.ok false, store) => seek cursor rest (taken + 1) store

/-- Moves to the next accepted element and gives it, or `none` at the end. -/
def advance (cursor : Cursor ε σ α β) (store : σ) :
    Except ε (Option α) × Cursor ε σ α β × σ :=
  if cursor.finished then (.ok none, cursor, store)
  else seek cursor cursor.ahead cursor.taken store

def current (cursor : Cursor ε σ α β) : Effect (ReadError ε) σ β := fun store =>
  match cursor.finished, cursor.element with
  | false, some element =>
      match cursor.selection.transform element store with
      | (.ok value, store) => (.ok value, store)
      | (.error failure, store) => (.error (.failed failure), store)
  | _, _ => (.error .unplaced, store)

def next (cursor : Cursor ε σ α β) (store : σ) :
    Except ε (Option β) × Cursor ε σ α β × σ :=
  match cursor.advance store with
  | (.error failure, moved, store) => (.error failure, moved, store)
  | (.ok none, moved, store) => (.ok none, moved, store)
  | (.ok (some element), moved, store) =>
      match cursor.selection.transform element store with
      | (.error failure, store) => (.error failure, moved, store)
      | (.ok value, store) => (.ok (some value), moved, store)

theorem seek_shortens {cursor moved : Cursor ε σ α β} {ahead : List (Except ε α)} {taken : Nat}
    {store after : σ} {element : α}
    (landed : seek cursor ahead taken store = (.ok (some element), moved, after)) :
    moved.ahead.length < ahead.length := by
  induction ahead generalizing taken store with
  | nil => simp [seek] at landed
  | cons first rest ih =>
      cases first with
      | error failure => simp [seek] at landed
      | ok candidate =>
          simp only [seek] at landed
          split at landed
          · simp at landed
          · simp only [Prod.mk.injEq] at landed
            simp [← landed.2.1]
          · have shorter := ih landed
            simp only [List.length_cons]
            omega

theorem advance_shortens {cursor moved : Cursor ε σ α β} {store after : σ} {element : α}
    (landed : cursor.advance store = (.ok (some element), moved, after)) :
    moved.ahead.length < cursor.ahead.length := by
  unfold advance at landed
  split at landed
  · simp at landed
  · exact seek_shortens landed

theorem next_shortens {cursor moved : Cursor ε σ α β} {store after : σ} {value : β}
    (landed : cursor.next store = (.ok (some value), moved, after)) :
    moved.ahead.length < cursor.ahead.length := by
  unfold next at landed
  split at landed
  · simp at landed
  · simp at landed
  next step =>
    split at landed
    · simp at landed
    · simp only [Prod.mk.injEq] at landed
      rw [← landed.2.1]
      exact advance_shortens step

def countAhead (cursor : Cursor ε σ α β) : Effect ε σ Nat := fun store =>
  match _ : cursor.advance store with
  | (.error failure, _, store) => (.error failure, store)
  | (.ok none, _, store) => (.ok 0, store)
  | (.ok (some _), moved, store) =>
      match moved.countAhead store with
      | (.error failure, store) => (.error failure, store)
      | (.ok count, store) => (.ok (count + 1), store)
termination_by cursor.ahead.length
decreasing_by exact advance_shortens (by assumption)

def toList (cursor : Cursor ε σ α β) : Effect ε σ (List β) := fun store =>
  match _ : cursor.next store with
  | (.error failure, _, store) => (.error failure, store)
  | (.ok none, _, store) => (.ok [], store)
  | (.ok (some value), moved, store) =>
      match moved.toList store with
      | (.error failure, store) => (.error failure, store)
      | (.ok values, store) => (.ok (value :: values), store)
termination_by cursor.ahead.length
decreasing_by exact next_shortens (by assumption)

end Cursor

def start (selection : Selection ε σ α β) : Effect ε σ (Cursor ε σ α β) := fun store =>
  match selection.cursor.advance store with
  | (.error failure, _, store) => (.error failure, store)
  | (.ok _, moved, store) => (.ok moved, store)

def first? (selection : Selection ε σ α β) : Effect ε σ (Option β) := fun store =>
  match selection.cursor.next store with
  | (outcome, _, store) => (outcome, store)

def isEmpty (selection : Selection ε σ α β) : Effect ε σ Bool := fun store =>
  match selection.cursor.advance store with
  | (.error failure, _, store) => (.error failure, store)
  | (.ok element, _, store) => (.ok element.isNone, store)

def count (selection : Selection ε σ α β) : Effect ε σ Nat :=
  selection.cursor.countAhead

def toList (selection : Selection ε σ α β) : Effect ε σ (List β) :=
  selection.cursor.toList

end MagnetUri.Selection

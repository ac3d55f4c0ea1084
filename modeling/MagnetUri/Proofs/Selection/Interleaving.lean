import MagnetUri.Selection
import Mathlib.Data.List.Basic

set_option autoImplicit false

/-! Cursors that are moved in turn. Each of them keeps what it writes in a place of its own, so a
call on one leaves all others and their places alone. What a cursor replies is what it replies
to its own calls when it is the only one. -/

namespace MagnetUri

structure Place.Lawful {σ τ : Type} (place : Place σ τ) : Prop where
  get_set : ∀ store part, place.get (place.set store part) = part
  set_get : ∀ store, place.set store (place.get store) = store
  set_set : ∀ store first second, place.set (place.set store first) second = place.set store second

def Place.cell {τ : Type} (label : Nat) : Place (Nat → τ) τ where
  get := fun heap => heap label
  set := fun heap => Function.update heap label

theorem Place.cell_lawful {τ : Type} (label : Nat) :
    (Place.cell label : Place (Nat → τ) τ).Lawful where
  get_set := by
    intro heap part
    simp only [cell, Function.update_self]
  set_get := by
    intro heap
    simp only [cell, Function.update_eq_self]
  set_set := by
    intro heap first second
    simp only [cell, Function.update_idem]

theorem Place.cell_get_set_of_ne {τ : Type} {label other : Nat} (different : label ≠ other)
    (heap : Nat → τ) (part : τ) :
    (Place.cell other).get ((Place.cell label).set heap part) = (Place.cell other).get heap := by
  simp only [cell, Function.update_of_ne different.symm]

namespace Selection

variable {ι ε σ τ α β γ : Type}

inductive Call where
  | advance
  | next
  | current
  | isDone
  | position
deriving DecidableEq

inductive Reply (ε α β : Type) where
  | moved (outcome : Except ε (Option α))
  | given (outcome : Except ε (Option β))
  | read (outcome : Except (ReadError ε) β)
  | done (finished : Bool)
  | place (position : Option Nat)
deriving DecidableEq

def Reply.Fails : Reply ε α β → Prop
  | .moved (.error _) => True
  | .given (.error _) => True
  | _ => False

namespace Cursor

def answer (cursor : Cursor ε σ α β) (call : Call) (store : σ) :
    Reply ε α β × Cursor ε σ α β × σ :=
  match call with
  | .advance =>
      let (outcome, moved, store) := cursor.advance store
      (.moved outcome, moved, store)
  | .next =>
      let (outcome, moved, store) := cursor.next store
      (.given outcome, moved, store)
  | .current =>
      let (outcome, store) := cursor.current store
      (.read outcome, cursor, store)
  | .isDone => (.done cursor.finished, cursor, store)
  | .position => (.place cursor.position?, cursor, store)

def run (cursor : Cursor ε σ α β) : List Call → σ → List (Reply ε α β) × Cursor ε σ α β × σ
  | [], store => ([], cursor, store)
  | call :: calls, store =>
      let (reply, cursor, store) := cursor.answer call store
      let (replies, cursor, store) := cursor.run calls store
      (reply :: replies, cursor, store)

end Cursor

/-- The replies to calls made on several cursors in turn, each with the one that gives it. -/
def interleave [DecidableEq ι] (crew : ι → Cursor ε σ α β) :
    List (ι × Call) → σ → List (ι × Reply ε α β) × (ι → Cursor ε σ α β) × σ
  | [], store => ([], crew, store)
  | (who, call) :: schedule, store =>
      let (reply, cursor, store) := (crew who).answer call store
      let (replies, crew, store) := interleave (Function.update crew who cursor) schedule store
      ((who, reply) :: replies, crew, store)

def share [DecidableEq ι] (who : ι) (items : List (ι × γ)) : List γ :=
  items.filterMap fun item => if item.1 = who then some item.2 else none

theorem share_cons_self [DecidableEq ι] (who : ι) (item : γ) (items : List (ι × γ)) :
    share who ((who, item) :: items) = item :: share who items :=
  List.filterMap_cons_some (if_pos rfl)

theorem share_cons_of_ne [DecidableEq ι] {who other : ι} (different : other ≠ who) (item : γ)
    (items : List (ι × γ)) : share who ((other, item) :: items) = share who items :=
  List.filterMap_cons_none (if_neg different)

theorem element_seek {cursor moved : Cursor ε σ α β} {ahead : List (Except ε α)} {taken : Nat}
    {store after : σ} {element : α}
    (landed : Cursor.seek cursor ahead taken store = (.ok (some element), moved, after)) :
    moved.element = some element := by
  fun_induction Cursor.seek cursor ahead taken store with
  | case1 => cases landed
  | case2 => cases landed
  | case3 => cases landed
  | case4 =>
      cases landed
      rfl
  | case5 => simp_all

/-- A cursor stands on the element that moving on gives. -/
theorem element_advance {cursor moved : Cursor ε σ α β} {store after : σ} {element : α}
    (landed : cursor.advance store = (.ok (some element), moved, after)) :
    moved.element = some element := by
  unfold Cursor.advance at landed
  split at landed
  next => cases landed
  next => exact element_seek landed

def Cursor.within (place : Place σ τ) (cursor : Cursor ε τ α β) : Cursor ε σ α β where
  selection := cursor.selection.within place
  ahead := cursor.ahead
  taken := cursor.taken
  element := cursor.element
  finished := cursor.finished

def relocate (place : Place σ τ) (store : σ) (outcome : γ × Cursor ε τ α β × τ) :
    γ × Cursor ε σ α β × σ :=
  (outcome.1, outcome.2.1.within place, place.set store outcome.2.2)

variable {place : Place σ τ}

theorem relocate_set (lawful : place.Lawful) (store : σ) (part : τ)
    (outcome : γ × Cursor ε τ α β × τ) :
    relocate place (place.set store part) outcome = relocate place store outcome := by
  rw [relocate, relocate, lawful.set_set]

theorem relocate_get (lawful : place.Lawful) (store : σ) (value : γ) (cursor : Cursor ε τ α β) :
    relocate place store (value, cursor, place.get store) = (value, cursor.within place, store) := by
  rw [relocate, lawful.set_get]

theorem seek_within (lawful : place.Lawful) (cursor : Cursor ε τ α β) (ahead : List (Except ε α))
    (taken : Nat) (store : σ) : Cursor.seek (cursor.within place) ahead taken store =
      relocate place store (Cursor.seek cursor ahead taken (place.get store)) := by
  induction ahead generalizing taken store with
  | nil =>
      rw [Cursor.seek, Cursor.seek, relocate_get lawful]
      rfl
  | cons step rest ih =>
      cases step with
      | error failure =>
          rw [Cursor.seek, Cursor.seek, relocate_get lawful]
          rfl
      | ok element =>
          have tested : (cursor.within place).selection.accepts element store =
              ((cursor.selection.accepts element (place.get store)).1,
                place.set store (cursor.selection.accepts element (place.get store)).2) := rfl
          rw [Cursor.seek, Cursor.seek, tested]
          rcases cursor.selection.accepts element (place.get store) with ⟨_ | _ | _, part⟩
          · rfl
          · have later := ih (taken + 1) (place.set store part)
            rw [lawful.get_set, relocate_set lawful] at later
            exact later
          · rfl

theorem advance_within (lawful : place.Lawful) (cursor : Cursor ε τ α β) (store : σ) :
    (cursor.within place).advance store =
      relocate place store (cursor.advance (place.get store)) := by
  unfold Cursor.advance
  change (if cursor.finished then _ else _) = _
  split
  next => exact (relocate_get lawful store _ _).symm
  next => exact seek_within lawful cursor cursor.ahead cursor.taken store

theorem next_within (lawful : place.Lawful) (cursor : Cursor ε τ α β) (store : σ) :
    (cursor.within place).next store = relocate place store (cursor.next (place.get store)) := by
  unfold Cursor.next
  rw [advance_within lawful]
  rcases cursor.advance (place.get store) with ⟨_ | _ | element, moved, part⟩
  · rfl
  · rfl
  · have transformed : (cursor.within place).selection.transform element (place.set store part) =
        ((cursor.selection.transform element part).1,
          place.set store (cursor.selection.transform element part).2) := by
      change (_, place.set (place.set store part) _) = _
      rw [lawful.get_set, lawful.set_set]
    simp only [relocate, transformed]
    rcases cursor.selection.transform element part with ⟨_ | _, _⟩ <;> rfl

theorem current_within (lawful : place.Lawful) (cursor : Cursor ε τ α β) (store : σ) :
    (cursor.within place).current store =
      ((cursor.current (place.get store)).1, place.set store (cursor.current (place.get store)).2) := by
  have stays (value : Except (ReadError ε) β) : (value, store) =
      (value, place.set store (place.get store)) := by
    rw [lawful.set_get]
  obtain ⟨⟨source, accepts, transform⟩, ahead, taken, element, finished⟩ := cursor
  cases finished with
  | true => exact stays _
  | false =>
      cases element with
      | none => exact stays _
      | some element =>
          simp only [Cursor.current, Cursor.within, Selection.within, Effect.within]
          rcases transform element (place.get store) with ⟨_ | _, _⟩ <;> rfl

/-- A call on a cursor with its store in a place is the call on it with the place alone. -/
theorem answer_within (lawful : place.Lawful) (cursor : Cursor ε τ α β) (call : Call) (store : σ) :
    (cursor.within place).answer call store =
      relocate place store (cursor.answer call (place.get store)) := by
  cases call with
  | advance =>
      simp only [Cursor.answer, advance_within lawful]
      rfl
  | next =>
      simp only [Cursor.answer, next_within lawful]
      rfl
  | current =>
      simp only [Cursor.answer, current_within lawful]
      rfl
  | isDone => exact (relocate_get lawful store _ _).symm
  | position => exact (relocate_get lawful store _ _).symm

variable [DecidableEq ι] {places : ι → Place σ τ} {crew : ι → Cursor ε τ α β}

theorem update_within (crew : ι → Cursor ε τ α β) (places : ι → Place σ τ) (who : ι)
    (moved : Cursor ε τ α β) :
    Function.update (fun i => (crew i).within (places i)) who (moved.within (places who)) =
      fun i => (Function.update crew who moved i).within (places i) := by
  funext i
  by_cases same : i = who
  · subst same
    rw [Function.update_self, Function.update_self]
  · rw [Function.update_of_ne same, Function.update_of_ne same]

/-- Each of several cursors with places apart replies to its own calls what it replies alone, and
is left as they leave it. -/
theorem interleave_within (lawful : ∀ i, (places i).Lawful)
    (apart : ∀ i j, i ≠ j → ∀ store part,
      (places j).get ((places i).set store part) = (places j).get store)
    (crew : ι → Cursor ε τ α β) (schedule : List (ι × Call)) (store : σ) (i : ι) :
    let run := interleave (fun i => (crew i).within (places i)) schedule store
    let alone := (crew i).run (share i schedule) ((places i).get store)
    share i run.1 = alone.1 ∧ run.2.1 i = alone.2.1.within (places i) ∧
      (places i).get run.2.2 = alone.2.2 := by
  -- By the turns: one call moves one cursor in its own place and nothing else.
  induction schedule generalizing crew store with
  | nil => exact ⟨rfl, rfl, rfl⟩
  | cons turn schedule ih =>
      obtain ⟨who, call⟩ := turn
      simp only [interleave, answer_within (lawful who), relocate, update_within]
      have later := ih (Function.update crew who ((crew who).answer call ((places who).get store)).2.1)
        ((places who).set store ((crew who).answer call ((places who).get store)).2.2)
      by_cases same : who = i
      · subst same
        rw [(lawful who).get_set, Function.update_self] at later
        rw [share_cons_self, share_cons_self]
        exact ⟨congrArg _ later.1, later.2.1, later.2.2⟩
      · rw [apart who i same, Function.update_of_ne (Ne.symm same)] at later
        rw [share_cons_of_ne same, share_cons_of_ne same]
        exact later

end Selection
end MagnetUri

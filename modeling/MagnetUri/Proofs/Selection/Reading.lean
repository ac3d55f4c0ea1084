import MagnetUri.Selection

set_option autoImplicit false

/-! Selections that read their elements, and the order in which passes test and transform.
Every pass gives the values of one partial function in the order of the source, from whatever store
it starts. A pass transforms each accepted element before it tests the next, and none looks further
than it has to. -/

namespace MagnetUri.Selection

section Values

variable {ε σ α β : Type} {selection : Selection ε σ α β} {cursor : Cursor ε σ α β}
  {elements rest : List α} {reading : α → Option β} {values : List β} {store : σ}

structure Reads (selection : Selection ε σ α β) (elements : List α) (reading : α → Option β) :
    Prop where
  steps : selection.source.steps = elements.map .ok
  refuses : ∀ element ∈ elements, reading element = none → ∀ store,
    ∃ after, selection.accepts element store = (.ok false, after)
  takes : ∀ element ∈ elements, ∀ value, reading element = some value → ∀ store,
    ∃ after, selection.accepts element store = (.ok true, after) ∧
      selection.transform element after = (.ok value, after)

structure Faces (selection : Selection ε σ α β) (elements : List α) (cursor : Cursor ε σ α β)
    (rest : List α) : Prop where
  owner : cursor.selection = selection
  unfinished : cursor.finished = false
  ahead : cursor.ahead = rest.map .ok
  within : ∀ element ∈ rest, element ∈ elements

theorem faces_cursor (reads : selection.Reads elements reading) :
    Faces selection elements selection.cursor elements where
  owner := rfl
  unfinished := rfl
  ahead := reads.steps
  within := fun _ member => member

def Moves (selection : Selection ε σ α β) (elements : List α) (reading : α → Option β)
    (values : List β) (outcome : Except ε (Option α) × Cursor ε σ α β × σ) : Prop :=
  match values with
  | [] => ∃ moved after, outcome = (.ok none, moved, after) ∧ moved.finished = true
  | value :: values => ∃ element moved after rest,
      outcome = (.ok (some element), moved, after) ∧ moved.element = some element ∧
        selection.transform element after = (.ok value, after) ∧
        Faces selection elements moved rest ∧ rest.filterMap reading = values

theorem seek_moves (reads : selection.Reads elements reading)
    (owner : cursor.selection = selection) (unfinished : cursor.finished = false)
    (within : ∀ element ∈ rest, element ∈ elements) (taken : Nat) (store : σ) :
    Moves selection elements reading (rest.filterMap reading)
      (Cursor.seek cursor (rest.map .ok) taken store) := by
  induction rest generalizing taken store with
  | nil => exact ⟨_, store, rfl, rfl⟩
  | cons element others ih =>
      rw [List.forall_mem_cons] at within
      cases read : reading element with
      | none =>
          obtain ⟨after, refused⟩ := reads.refuses element within.1 read store
          rw [List.filterMap_cons_none read, List.map_cons, Cursor.seek, owner, refused]
          exact ih within.2 (taken + 1) after
      | some value =>
          obtain ⟨after, accepted, transformed⟩ := reads.takes element within.1 value read store
          rw [List.filterMap_cons_some read, List.map_cons, Cursor.seek, owner, accepted]
          exact ⟨element, _, after, others, rfl, rfl, transformed,
            ⟨rfl, unfinished, rfl, within.2⟩, rfl⟩

theorem advance_moves (reads : selection.Reads elements reading)
    (faces : Faces selection elements cursor rest) (store : σ) :
    Moves selection elements reading (rest.filterMap reading) (cursor.advance store) := by
  rw [Cursor.advance, faces.unfinished, faces.ahead]
  exact seek_moves reads faces.owner faces.unfinished faces.within cursor.taken store

theorem Moves.landed {outcome : Except ε (Option α) × Cursor ε σ α β × σ}
    (moves : Moves selection elements reading values outcome) :
    ∃ found moved after, outcome = (.ok found, moved, after) ∧ found.isNone = values.isEmpty := by
  cases values with
  | nil =>
      obtain ⟨moved, after, same, _⟩ := moves
      exact ⟨none, moved, after, same, rfl⟩
  | cons value values =>
      obtain ⟨element, moved, after, _, same, _⟩ := moves
      exact ⟨some element, moved, after, same, rfl⟩

inductive Cursor.Shows : Cursor ε σ α β → σ → List β → Prop
  | done {cursor : Cursor ε σ α β} {store : σ} (finished : cursor.finished = true) :
      Shows cursor store []
  | value {cursor moved : Cursor ε σ α β} {store after : σ} {found : Option α} {value : β}
      {values : List β} (current : cursor.current store = (.ok value, store))
      (advanced : cursor.advance store = (.ok found, moved, after))
      (later : Shows moved after values) : Shows cursor store (value :: values)

inductive Cursor.Yields : Cursor ε σ α β → σ → List β → Prop
  | done {cursor moved : Cursor ε σ α β} {store after : σ}
      (ended : cursor.next store = (.ok none, moved, after)) : Yields cursor store []
  | value {cursor moved : Cursor ε σ α β} {store after : σ} {value : β} {values : List β}
      (given : cursor.next store = (.ok (some value), moved, after))
      (later : Yields moved after values) : Yields cursor store (value :: values)

/-- Every pass over a selection finds the same values, whatever the store held before. -/
structure Enumerates (selection : Selection ε σ α β) (values : List β) : Prop where
  toList : ∀ store, (selection.toList store).1 = .ok values
  count : ∀ store, (selection.count store).1 = .ok values.length
  first : ∀ store, (selection.first? store).1 = .ok values.head?
  isEmpty : ∀ store, (selection.isEmpty store).1 = .ok values.isEmpty
  start : ∀ store, ∃ cursor after,
    selection.start store = (.ok cursor, after) ∧ cursor.Shows after values
  cursor : ∀ store, selection.cursor.Yields store values

theorem shows_of_moves (reads : selection.Reads elements reading) {found : Option α}
    {moved : Cursor ε σ α β} {after : σ}
    (moves : Moves selection elements reading values (.ok found, moved, after)) :
    moved.Shows after values := by
  -- By the values still to come: one move passes over any number of refused elements.
  induction values generalizing found moved after with
  | nil =>
      obtain ⟨_, _, same, finished⟩ := moves
      cases same
      exact .done finished
  | cons value values ih =>
      obtain ⟨element, _, _, rest, same, holds, transformed, faces, listed⟩ := moves
      cases same
      have current : moved.current after = (.ok value, after) := by
        unfold Cursor.current
        rw [faces.unfinished, holds]
        simp only [faces.owner, transformed]
      have further := advance_moves reads faces after
      rw [listed] at further
      obtain ⟨found, next, last, advanced, _⟩ := further.landed
      rw [advanced] at further
      exact .value current advanced (ih further)

theorem cursor_yields (reads : selection.Reads elements reading)
    (faces : Faces selection elements cursor rest) (store : σ) :
    cursor.Yields store (rest.filterMap reading) := by
  generalize listed : rest.filterMap reading = values
  induction values generalizing cursor rest store with
  | nil =>
      have moves := advance_moves reads faces store
      rw [listed] at moves
      obtain ⟨moved, after, advanced, _⟩ := moves
      apply Cursor.Yields.done
      rw [Cursor.next, advanced]
  | cons value values ih =>
      have moves := advance_moves reads faces store
      rw [listed] at moves
      obtain ⟨element, moved, after, later, advanced, _, transformed, facesLater, listedLater⟩ :=
        moves
      have given : cursor.next store = (.ok (some value), moved, after) := by
        rw [Cursor.next, advanced]
        simp only [faces.owner, transformed]
      exact .value given (ih facesLater after listedLater)

theorem Cursor.Yields.head (yields : cursor.Yields store values) :
    ∃ moved after, cursor.next store = (.ok values.head?, moved, after) := by
  cases yields with
  | done ended => exact ⟨_, _, ended⟩
  | value given => exact ⟨_, _, given⟩

theorem toList_of_yields (yields : cursor.Yields store values) :
    (cursor.toList store).1 = .ok values := by
  induction yields with
  | done ended =>
      rw [Cursor.toList]
      split
      next other => cases ended.symm.trans other
      next => rfl
      next other => cases ended.symm.trans other
  | value given _ ih =>
      rw [Cursor.toList]
      split
      next other => cases given.symm.trans other
      next other => cases given.symm.trans other
      next other =>
        cases given.symm.trans other
        split
        next failed =>
          rw [failed] at ih
          cases ih
        next listing =>
          rw [listing] at ih
          cases ih
          rfl

theorem countAhead_of_faces (reads : selection.Reads elements reading)
    (faces : Faces selection elements cursor rest) (store : σ) :
    (cursor.countAhead store).1 = .ok (rest.filterMap reading).length := by
  generalize listed : rest.filterMap reading = values
  induction values generalizing cursor rest store with
  | nil =>
      have moves := advance_moves reads faces store
      rw [listed] at moves
      obtain ⟨moved, after, advanced, _⟩ := moves
      rw [Cursor.countAhead]
      split
      next other => cases advanced.symm.trans other
      next => rfl
      next other => cases advanced.symm.trans other
  | cons value values ih =>
      have moves := advance_moves reads faces store
      rw [listed] at moves
      obtain ⟨element, moved, after, later, advanced, _, _, facesLater, listedLater⟩ := moves
      have counted := ih facesLater after listedLater
      rw [Cursor.countAhead]
      split
      next other => cases advanced.symm.trans other
      next other => cases advanced.symm.trans other
      next other =>
        cases advanced.symm.trans other
        split
        next failed =>
          rw [failed] at counted
          cases counted
        next count counting =>
          rw [counting] at counted
          cases counted
          rfl

theorem Reads.enumerates (reads : selection.Reads elements reading) :
    selection.Enumerates (elements.filterMap reading) where
  toList := fun store => toList_of_yields (cursor_yields reads (faces_cursor reads) store)
  count := countAhead_of_faces reads (faces_cursor reads)
  first := by
    intro store
    obtain ⟨moved, after, given⟩ := (cursor_yields reads (faces_cursor reads) store).head
    rw [first?, given]
  isEmpty := by
    intro store
    obtain ⟨found, moved, after, advanced, same⟩ :=
      (advance_moves reads (faces_cursor reads) store).landed
    rw [isEmpty, advanced, ← same]
  start := by
    intro store
    have moves := advance_moves reads (faces_cursor reads) store
    obtain ⟨found, moved, after, advanced, _⟩ := moves.landed
    rw [advanced] at moves
    rw [start, advanced]
    exact ⟨moved, after, rfl, shows_of_moves reads moves⟩
  cursor := cursor_yields reads (faces_cursor reads)

theorem Enumerates.unique {others : List β} (first : selection.Enumerates values)
    (second : selection.Enumerates others) (store : σ) : values = others :=
  Except.ok.inj ((first.toList store).symm.trans (second.toList store))

theorem Enumerates.exists_toList (enumerates : selection.Enumerates values) (store : σ) :
    ∃ after, selection.toList store = (.ok values, after) :=
  ⟨_, Prod.ext (enumerates.toList store) rfl⟩

/-- A number of passes in a row, each from the store that the one before left. -/
def passes (selection : Selection ε σ α β) : Nat → Effect ε σ (List (List β))
  | 0 => Effect.pure []
  | count + 1 => selection.toList.bind fun values => (selection.passes count).map (values :: ·)

/-- However often a selection is passed over, it lists the same values. -/
theorem Enumerates.passes (enumerates : selection.Enumerates values) (count : Nat) (store : σ) :
    (selection.passes count store).1 = .ok (List.replicate count values) := by
  induction count generalizing store with
  | zero => rfl
  | succ count ih =>
      obtain ⟨after, listed⟩ := enumerates.exists_toList store
      have later := ih after
      rw [Selection.passes, Effect.bind, listed]
      change (selection.passes count after).1.map (values :: ·) = _
      rw [later]
      rfl

end Values

section Order

variable {ε σ α β : Type} {selection : Selection ε σ α β} {cursor : Cursor ε σ α β}
  {elements rest : List α} {element : α}

/-- Tests the elements in turn and transforms each accepted one at once. -/
def visit (selection : Selection ε σ α β) : List α → Effect ε σ (List β)
  | [] => Effect.pure []
  | element :: rest =>
      (selection.accepts element).bind fun accepted =>
        if accepted then
          (selection.transform element).bind fun value =>
            (selection.visit rest).map fun values => value :: values
        else selection.visit rest

/-- Tests the elements in turn and counts the accepted ones. -/
def tally (selection : Selection ε σ α β) : List α → Effect ε σ Nat
  | [] => Effect.pure 0
  | element :: rest =>
      (selection.accepts element).bind fun accepted =>
        if accepted then (selection.tally rest).map fun count => count + 1
        else selection.tally rest

def search (selection : Selection ε σ α β) : List α → Effect ε σ (Option α)
  | [] => Effect.pure none
  | element :: rest =>
      (selection.accepts element).bind fun accepted =>
        if accepted then Effect.pure (some element) else selection.search rest

def transformFound (selection : Selection ε σ α β) : Option α → Effect ε σ (Option β)
  | none => Effect.pure none
  | some element => (selection.transform element).map some

namespace Cursor

def pass (cursor : Cursor ε σ α β) (rest : List α) : Cursor ε σ α β :=
  { cursor with ahead := rest.map .ok, taken := cursor.taken + 1 }

theorem seek_pass (cursor : Cursor ε σ α β) (rest : List α) (ahead : List (Except ε α))
    (taken : Nat) (store : σ) :
    seek (cursor.pass rest) ahead taken store = seek cursor ahead taken store := by
  induction ahead generalizing taken store with
  | nil => rfl
  | cons step later ih =>
      cases step with
      | error failure => rfl
      | ok element =>
          have tested : (cursor.pass rest).selection.accepts element store =
              cursor.selection.accepts element store := rfl
          rw [seek, seek, tested]
          rcases cursor.selection.accepts element store with ⟨_ | _ | _, after⟩
          · rfl
          · exact ih (taken + 1) after
          · rfl

/-- One call of the test settles a move, or the move goes on behind the element it refused. -/
theorem advance_cons (faces : Faces selection elements cursor (element :: rest)) (store : σ) :
    cursor.advance store =
      match selection.accepts element store with
      | (.error failure, after) => (.error failure, cursor.pass rest, after)
      | (.ok true, after) =>
          (.ok (some element), { cursor.pass rest with element := some element }, after)
      | (.ok false, after) => (cursor.pass rest).advance after := by
  have onward (after : σ) : (cursor.pass rest).advance after =
      seek cursor (rest.map .ok) (cursor.taken + 1) after := by
    have unfinished : (cursor.pass rest).finished = false := faces.unfinished
    rw [advance, unfinished, if_neg Bool.false_ne_true]
    exact seek_pass cursor rest _ _ after
  rw [advance, faces.unfinished, faces.ahead, List.map_cons, if_neg Bool.false_ne_true, seek,
    ← faces.owner]
  rcases cursor.selection.accepts element store with ⟨_ | _ | _, after⟩
  · rfl
  · exact (onward after).symm
  · rfl

theorem advance_nil (faces : Faces selection elements cursor []) (store : σ) :
    ∃ moved, cursor.advance store = (.ok none, moved, store) ∧ moved.element = none := by
  rw [advance, faces.unfinished, faces.ahead]
  exact ⟨_, rfl, rfl⟩

theorem toList_eq (cursor : Cursor ε σ α β) (store : σ) :
    cursor.toList store =
      match cursor.next store with
      | (.error failure, _, after) => (.error failure, after)
      | (.ok none, _, after) => (.ok [], after)
      | (.ok (some value), moved, after) => (moved.toList.map fun values => value :: values) after := by
  rw [toList]
  split
  next step => rw [step]
  next step => rw [step]
  next value moved after step =>
    rw [step]
    simp only [Effect.map]
    split
    next listing => rw [listing]; rfl
    next listing => rw [listing]; rfl

theorem countAhead_eq (cursor : Cursor ε σ α β) (store : σ) :
    cursor.countAhead store =
      match cursor.advance store with
      | (.error failure, _, after) => (.error failure, after)
      | (.ok none, _, after) => (.ok 0, after)
      | (.ok (some _), moved, after) => (moved.countAhead.map fun count => count + 1) after := by
  rw [countAhead]
  split
  next step => rw [step]
  next step => rw [step]
  next element moved after step =>
    rw [step]
    simp only [Effect.map]
    split
    next counting => rw [counting]; rfl
    next counting => rw [counting]; rfl

end Cursor

theorem Faces.pass (faces : Faces selection elements cursor (element :: rest)) :
    Faces selection elements (cursor.pass rest) rest where
  owner := faces.owner
  unfinished := faces.unfinished
  ahead := rfl
  within := (List.forall_mem_cons.1 faces.within).2

theorem Faces.land (faces : Faces selection elements cursor (element :: rest)) :
    Faces selection elements { cursor.pass rest with element := some element } rest where
  owner := faces.owner
  unfinished := faces.unfinished
  ahead := rfl
  within := (List.forall_mem_cons.1 faces.within).2

theorem toList_eq_visit (faces : Faces selection elements cursor rest) :
    cursor.toList = selection.visit rest := by
  induction rest generalizing cursor with
  | nil =>
      funext store
      obtain ⟨moved, ended, _⟩ := Cursor.advance_nil faces store
      rw [Cursor.toList_eq, Cursor.next, ended]
      rfl
  | cons element rest ih =>
      funext store
      rw [Cursor.toList_eq, Cursor.next, Cursor.advance_cons faces, visit, Effect.bind]
      rcases selection.accepts element store with ⟨_ | _ | _, after⟩
      · rfl
      · have later := congrFun (ih faces.pass) after
        rw [Cursor.toList_eq, Cursor.next] at later
        exact later
      · have owner : cursor.selection.transform element after = selection.transform element after := by
          rw [faces.owner]
        simp only [if_true, Effect.bind, Cursor.pass, owner]
        rcases selection.transform element after with ⟨_ | value, last⟩
        · rfl
        · exact congrFun (congrArg (Effect.map _) (ih faces.land)) last

theorem countAhead_eq_tally (faces : Faces selection elements cursor rest) :
    cursor.countAhead = selection.tally rest := by
  induction rest generalizing cursor with
  | nil =>
      funext store
      obtain ⟨moved, ended, _⟩ := Cursor.advance_nil faces store
      rw [Cursor.countAhead_eq, ended]
      rfl
  | cons element rest ih =>
      funext store
      rw [Cursor.countAhead_eq, Cursor.advance_cons faces, tally, Effect.bind]
      rcases selection.accepts element store with ⟨_ | _ | _, after⟩
      · rfl
      · have later := congrFun (ih faces.pass) after
        rw [Cursor.countAhead_eq] at later
        exact later
      · exact congrFun (congrArg (Effect.map _) (ih faces.land)) after

/-- A move calls the test up to the first accepted element, which the cursor then holds. -/
theorem advance_eq_search (faces : Faces selection elements cursor rest) (store : σ) :
    ∃ moved, cursor.advance store =
        ((selection.search rest store).1, moved, (selection.search rest store).2) ∧
      ∀ found, (selection.search rest store).1 = .ok found → moved.element = found := by
  induction rest generalizing cursor store with
  | nil =>
      obtain ⟨moved, ended, empty⟩ := Cursor.advance_nil faces store
      refine ⟨moved, ended, ?_⟩
      intro found same
      cases same
      exact empty
  | cons element rest ih =>
      rw [Cursor.advance_cons faces, search, Effect.bind]
      rcases selection.accepts element store with ⟨_ | _ | _, after⟩
      · refine ⟨_, rfl, ?_⟩
        intro found same
        cases same
      · exact ih faces.pass after
      · refine ⟨_, rfl, ?_⟩
        intro found same
        cases same
        rfl

/-- Every pass makes the calls of a pass over the list of elements, in their order. -/
structure InOrder (selection : Selection ε σ α β) (elements : List α) : Prop where
  toList : selection.toList = selection.visit elements
  count : selection.count = selection.tally elements
  isEmpty : selection.isEmpty = (selection.search elements).map Option.isNone
  first : selection.first? = (selection.search elements).bind selection.transformFound
  start : (selection.start.map fun cursor => cursor.element) = selection.search elements

theorem faces_of_steps (given : selection.source.steps = elements.map .ok) :
    Faces selection elements selection.cursor elements where
  owner := rfl
  unfinished := rfl
  ahead := given
  within := fun _ member => member

theorem inOrder_of_steps (given : selection.source.steps = elements.map .ok) :
    selection.InOrder elements where
  toList := toList_eq_visit (faces_of_steps given)
  count := countAhead_eq_tally (faces_of_steps given)
  isEmpty := by
    funext store
    obtain ⟨moved, advanced, _⟩ := advance_eq_search (faces_of_steps given) store
    rw [isEmpty, advanced, Effect.map]
    rcases selection.search elements store with ⟨_ | found, after⟩ <;> rfl
  first := by
    funext store
    obtain ⟨moved, advanced, _⟩ := advance_eq_search (faces_of_steps given) store
    rw [first?, Cursor.next, advanced, Effect.bind]
    rcases selection.search elements store with ⟨_ | _ | element, after⟩
    · rfl
    · rfl
    · have owner : selection.cursor.selection.transform element after =
          selection.transform element after := rfl
      rcases transformed : selection.transform element after with ⟨_ | _, _⟩ <;>
        simp only [owner, transformFound, Effect.map, transformed] <;> rfl
  start := by
    funext store
    obtain ⟨moved, advanced, holds⟩ := advance_eq_search (faces_of_steps given) store
    rw [Effect.map, start, advanced]
    rcases searched : selection.search elements store with ⟨_ | found, after⟩
    · rfl
    · have held := holds found (congrArg Prod.fst searched)
      simp only [Except.map, held]

end Order

end MagnetUri.Selection

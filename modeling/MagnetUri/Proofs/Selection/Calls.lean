import MagnetUri.Proofs.Selection.Reading

set_option autoImplicit false

/-! The calls that passes make of the test and of the transform. Where both answer by the element
alone the calls of any number of passes can be written down: each pass makes its own from the
first element on, whatever was made before. -/

namespace MagnetUri.Selection

variable {ε σ α β γ : Type} {selection : Selection ε σ α β} {elements rest : List α} {element : α}

inductive Event (α : Type) where
  | tested (element : α)
  | transformed (element : α)
deriving DecidableEq

def note (event : Event α) (effect : Effect ε σ γ) : Effect ε (σ × List (Event α)) γ :=
  fun store =>
    let (outcome, after) := effect store.1
    (outcome, after, store.2 ++ [event])

/-- The same selection with its calls noted beside the store. -/
def noted (selection : Selection ε σ α β) : Selection ε (σ × List (Event α)) α β where
  source := selection.source
  accepts := fun element => note (.tested element) (selection.accepts element)
  transform := fun element => note (.transformed element) (selection.transform element)

/-- The test gives one answer for an element whatever the store holds. The transform may read from
the store what the test has just written there. -/
structure Answers (selection : Selection ε σ α β) (elements : List α) (test : α → Bool)
    (change : α → β) : Prop where
  accepts : ∀ element ∈ elements, ∀ store,
    (selection.accepts element store).1 = .ok (test element)
  transform : ∀ element ∈ elements, test element = true → ∀ store,
    (selection.transform element (selection.accepts element store).2).1 = .ok (change element)

def turn (test : α → Bool) (element : α) : List (Event α) :=
  if test element then [.tested element, .transformed element] else [.tested element]

/-- The elements up to the first one that the test accepts, which is the last of them. -/
def upToFirst (test : α → Bool) (elements : List α) : List α :=
  elements.take (elements.findIdx test + 1)

variable {test : α → Bool} {change : α → β}

structure Notes (plain : Effect ε σ γ) (written : Effect ε (σ × List (Event α)) γ) (store : σ)
    (value : γ) (events : List (Event α)) (after : σ) : Prop where
  plain : plain store = (.ok value, after)
  written : ∀ earlier, written (store, earlier) = (.ok value, after, earlier ++ events)

namespace Notes

variable {δ : Type} {plain : Effect ε σ γ} {written : Effect ε (σ × List (Event α)) γ}
  {store after last : σ} {value : γ} {events later : List (Event α)}

theorem pure (value : γ) (store : σ) :
    Notes (ε := ε) (α := α) (Effect.pure value) (Effect.pure value) store value [] store where
  plain := rfl
  written := by
    intro earlier
    rw [List.append_nil]
    rfl

theorem note (event : Event α) (ran : plain store = (.ok value, after)) :
    Notes plain (Selection.note event plain) store value [event] after where
  plain := ran
  written := by
    intro earlier
    simp only [Selection.note, ran]

theorem map (notes : Notes plain written store value events after) (change : γ → δ) :
    Notes (plain.map change) (written.map change) store (change value) events after where
  plain := by
    rw [Effect.map, notes.plain]
    rfl
  written := by
    intro earlier
    rw [Effect.map, notes.written]
    rfl

theorem bind {next : γ → Effect ε σ δ} {writtenNext : γ → Effect ε (σ × List (Event α)) δ}
    {result : δ} (notes : Notes plain written store value events after)
    (further : Notes (next value) (writtenNext value) after result later last) :
    Notes (plain.bind next) (written.bind writtenNext) store result (events ++ later) last where
  plain := by
    rw [Effect.bind, notes.plain]
    exact further.plain
  written := by
    intro earlier
    rw [Effect.bind, notes.written]
    simp only [further.written, List.append_assoc]

end Notes

variable {store : σ}

theorem notes_accepts (answers : selection.Answers elements test change)
    (member : element ∈ elements) (store : σ) :
    Notes (selection.accepts element) (selection.noted.accepts element) store (test element)
      [.tested element] (selection.accepts element store).2 :=
  .note (.tested element) (Prod.ext (answers.accepts element member store) rfl)

theorem notes_transform (answers : selection.Answers elements test change)
    (member : element ∈ elements) (accepted : test element = true) (store : σ) :
    ∃ after, Notes (selection.transform element) (selection.noted.transform element)
      (selection.accepts element store).2 (change element) [.transformed element] after :=
  ⟨_, .note (.transformed element) (Prod.ext (answers.transform element member accepted store) rfl)⟩

theorem notes_visit (answers : selection.Answers elements test change)
    (within : ∀ element ∈ rest, element ∈ elements) (store : σ) :
    ∃ after, Notes (selection.visit rest) (selection.noted.visit rest) store
      ((rest.filter test).map change) (rest.flatMap (turn test)) after := by
  induction rest generalizing store with
  | nil => exact ⟨store, .pure [] store⟩
  | cons element rest ih =>
      rw [List.forall_mem_cons] at within
      have tested := notes_accepts answers within.1 store
      cases verdict : test element with
      | false =>
          obtain ⟨after, further⟩ := ih within.2 (selection.accepts element store).2
          rw [verdict] at tested
          rw [List.filter_cons_of_neg (Bool.eq_false_iff.1 verdict), List.flatMap_cons, turn,
            if_neg (Bool.eq_false_iff.1 verdict)]
          exact ⟨after, tested.bind further⟩
      | true =>
          obtain ⟨middle, transformed⟩ := notes_transform answers within.1 verdict store
          obtain ⟨after, further⟩ := ih within.2 middle
          rw [verdict] at tested
          rw [List.filter_cons_of_pos verdict, List.map_cons, List.flatMap_cons, turn,
            if_pos verdict]
          exact ⟨after, tested.bind (transformed.bind (further.map _))⟩

theorem notes_tally (answers : selection.Answers elements test change)
    (within : ∀ element ∈ rest, element ∈ elements) (store : σ) :
    ∃ after, Notes (selection.tally rest) (selection.noted.tally rest) store
      (rest.filter test).length (rest.map .tested) after := by
  induction rest generalizing store with
  | nil => exact ⟨store, .pure 0 store⟩
  | cons element rest ih =>
      rw [List.forall_mem_cons] at within
      have tested := notes_accepts answers within.1 store
      obtain ⟨after, further⟩ := ih within.2 (selection.accepts element store).2
      refine ⟨after, ?_⟩
      cases verdict : test element with
      | false =>
          rw [verdict] at tested
          rw [List.filter_cons_of_neg (Bool.eq_false_iff.1 verdict), List.map_cons]
          exact tested.bind further
      | true =>
          rw [verdict] at tested
          rw [List.filter_cons_of_pos verdict, List.length_cons, List.map_cons]
          exact tested.bind (further.map _)

theorem notes_search (answers : selection.Answers elements test change)
    (within : ∀ element ∈ rest, element ∈ elements) (store : σ) :
    ∃ after, Notes (selection.search rest) (selection.noted.search rest) store
      (rest.filter test).head? ((upToFirst test rest).map .tested) after ∧
        ∀ found, (rest.filter test).head? = some found → found ∈ elements ∧ test found = true ∧
          ∃ before, after = (selection.accepts found before).2 := by
  induction rest generalizing store with
  | nil => exact ⟨store, .pure none store, nofun⟩
  | cons element rest ih =>
      rw [List.forall_mem_cons] at within
      have tested := notes_accepts answers within.1 store
      cases verdict : test element with
      | false =>
          obtain ⟨after, further, read⟩ := ih within.2 (selection.accepts element store).2
          rw [verdict] at tested
          rw [List.filter_cons_of_neg (Bool.eq_false_iff.1 verdict), upToFirst,
            List.findIdx_cons, verdict, cond_false, List.take_succ_cons, List.map_cons]
          exact ⟨after, tested.bind further, read⟩
      | true =>
          rw [verdict] at tested
          rw [List.filter_cons_of_pos verdict, upToFirst, List.findIdx_cons, verdict, cond_true,
            List.take_succ_cons, List.take_zero, List.map_cons, List.map_nil]
          refine ⟨_, tested.bind (.pure (some element) _), ?_⟩
          intro found same
          cases same
          exact ⟨within.1, verdict, store, rfl⟩

inductive Pass where
  | toList
  | count
  | isEmpty
  | first
  | start
deriving DecidableEq

inductive Result (α β : Type) where
  | values (listed : List β)
  | number (counted : Nat)
  | verdict (empty : Bool)
  | value (found : Option β)
  | placed (element : Option α)
deriving DecidableEq

def perform (selection : Selection ε σ α β) : Pass → Effect ε σ (Result α β)
  | .toList => selection.toList.map .values
  | .count => selection.count.map .number
  | .isEmpty => selection.isEmpty.map .verdict
  | .first => selection.first?.map .value
  | .start => (selection.start.map fun cursor => cursor.element).map .placed

/-- Makes passes one after another, each from the store that the one before left. -/
def performAll (selection : Selection ε σ α β) : List Pass → Effect ε σ (List (Result α β))
  | [] => Effect.pure []
  | pass :: passes =>
      (selection.perform pass).bind fun result =>
        (selection.performAll passes).map fun results => result :: results

namespace Pass

def result (elements : List α) (test : α → Bool) (change : α → β) : Pass → Result α β
  | toList => .values ((elements.filter test).map change)
  | count => .number (elements.filter test).length
  | isEmpty => .verdict (elements.filter test).isEmpty
  | first => .value ((elements.filter test).head?.map change)
  | start => .placed (elements.filter test).head?

def events (elements : List α) (test : α → Bool) : Pass → List (Event α)
  | toList => elements.flatMap (turn test)
  | count => elements.map .tested
  | isEmpty => (upToFirst test elements).map .tested
  | first =>
      (upToFirst test elements).map .tested ++ (elements.filter test).head?.toList.map .transformed
  | start => (upToFirst test elements).map .tested

end Pass

theorem notes_perform (given : selection.source.steps = elements.map .ok)
    (answers : selection.Answers elements test change) (pass : Pass) (store : σ) :
    ∃ after, Notes (selection.perform pass) (selection.noted.perform pass) store
      (pass.result elements test change) (pass.events elements test) after := by
  have order := inOrder_of_steps given
  have notedOrder : selection.noted.InOrder elements := inOrder_of_steps given
  have all : ∀ element ∈ elements, element ∈ elements := fun _ member => member
  cases pass with
  | toList =>
      obtain ⟨after, notes⟩ := notes_visit answers all store
      rw [perform, perform, order.toList, notedOrder.toList]
      exact ⟨after, notes.map Result.values⟩
  | count =>
      obtain ⟨after, notes⟩ := notes_tally answers all store
      rw [perform, perform, order.count, notedOrder.count]
      exact ⟨after, notes.map Result.number⟩
  | isEmpty =>
      obtain ⟨after, notes, _⟩ := notes_search answers all store
      rw [perform, perform, order.isEmpty, notedOrder.isEmpty]
      have empty : (elements.filter test).head?.isNone = (elements.filter test).isEmpty := by
        cases elements.filter test <;> rfl
      rw [Pass.result, ← empty]
      exact ⟨after, (notes.map Option.isNone).map Result.verdict⟩
  | first =>
      obtain ⟨after, notes, read⟩ := notes_search answers all store
      rw [perform, perform, order.first, notedOrder.first]
      cases found : (elements.filter test).head? with
      | none =>
          rw [found] at notes
          have still : Notes (selection.transformFound none) (selection.noted.transformFound none)
              after none [] after := .pure none after
          rw [Pass.result, Pass.events, found]
          exact ⟨after, (notes.bind still).map Result.value⟩
      | some element =>
          obtain ⟨member, accepted, before, same⟩ := read element found
          obtain ⟨last, transformed⟩ := notes_transform answers member accepted before
          rw [← same] at transformed
          rw [found] at notes
          rw [Pass.result, Pass.events, found]
          exact ⟨last, (notes.bind (transformed.map some)).map Result.value⟩
  | start =>
      obtain ⟨after, notes, _⟩ := notes_search answers all store
      rw [perform, perform, order.start, notedOrder.start]
      exact ⟨after, notes.map Result.placed⟩

theorem notes_performAll (given : selection.source.steps = elements.map .ok)
    (answers : selection.Answers elements test change) (passes : List Pass) (store : σ) :
    ∃ after, Notes (selection.performAll passes) (selection.noted.performAll passes) store
      (passes.map fun pass => pass.result elements test change)
      (passes.flatMap fun pass => pass.events elements test) after := by
  induction passes generalizing store with
  | nil => exact ⟨store, .pure [] store⟩
  | cons pass passes ih =>
      obtain ⟨middle, first⟩ := notes_perform given answers pass store
      obtain ⟨after, further⟩ := ih middle
      exact ⟨after, first.bind (further.map _)⟩

/-- Over a source that gives a list of elements, each pass makes the calls of a pass over that list
in their order. Where the test and the transform are functions of the element, passes made one
after another list, count and find the transformed elements of the filtered list, and each of them
makes the same calls from the first element on, whatever was made before. -/
theorem passes_filter_then_map (given : selection.source.steps = elements.map .ok) :
    selection.InOrder elements ∧
      ∀ (test : α → Bool) (change : α → β), selection.Answers elements test change →
        ∀ (passes : List Pass) (store : σ), ∃ after,
          Notes (selection.performAll passes) (selection.noted.performAll passes) store
            (passes.map fun pass => pass.result elements test change)
            (passes.flatMap fun pass => pass.events elements test) after :=
  ⟨inOrder_of_steps given, fun _ _ => notes_performAll given⟩

/-- Numbers whose test writes to the store what the transform reads from it. -/
def evens (numbers : List Nat) : Selection String Nat Nat Nat where
  source := { label := 0, steps := numbers.map .ok }
  accepts := fun number _ => (.ok (number % 2 == 0), number)
  transform := fun _ store => (.ok (store * store), store)

/-- The first even number is found behind one other, and a list is made from the first number on
again. -/
theorem passes_filter_then_map_evens :
    (evens [1, 2, 3, 4]).source.steps = [1, 2, 3, 4].map .ok ∧
      ∃ after, (evens [1, 2, 3, 4]).noted.performAll [.first, .toList] (0, []) =
        (.ok [.value (some 4), .values [4, 16]], after,
          [.tested 1, .tested 2, .transformed 2,
            .tested 1, .tested 2, .transformed 2, .tested 3, .tested 4, .transformed 4]) := by
  have given : (evens [1, 2, 3, 4]).source.steps = [1, 2, 3, 4].map .ok := rfl
  have answers : (evens [1, 2, 3, 4]).Answers [1, 2, 3, 4] (fun number => number % 2 == 0)
      (fun number => number * number) :=
    ⟨fun _ _ _ => rfl, fun _ _ _ _ => rfl⟩
  obtain ⟨_, calls⟩ := passes_filter_then_map given
  obtain ⟨after, notes⟩ := calls _ _ answers [.first, .toList] 0
  exact ⟨given, after, notes.written []⟩

end MagnetUri.Selection

import MagnetUri.Proofs.Selection.Calls
import MagnetUri.Proofs.Selection.Position

set_option autoImplicit false

/-! The progress of cursors. Where the test tells the elements apart alone, how often a cursor has
been moved determines where it stands, up to the move that brings it to the end. Two cursors over
one source are at the same spot where their counts of moves agree that far. -/

namespace MagnetUri

/-- The elements of some steps up to the first one that fails. -/
def Source.given {ε α : Type} : List (Except ε α) → List α
  | .ok element :: rest => element :: given rest
  | _ => []

def Source.elements {ε α : Type} (source : Source ε α) : List α :=
  given source.steps

theorem Source.given_append {ε α : Type} (elements : List α) (rest : List (Except ε α)) :
    given (elements.map .ok ++ rest) = elements ++ given rest := by
  induction elements with
  | nil => rfl
  | cons element elements ih =>
      rw [List.map_cons, List.cons_append, given, ih]
      rfl

theorem Source.given_map {ε α : Type} (elements : List α) :
    given (elements.map (Except.ok (ε := ε))) = elements := by
  rw [← List.append_nil (elements.map _), given_append]
  exact List.append_nil elements

namespace Selection

variable {ε σ α β γ : Type} {selection : Selection ε σ α β} {cursor moved : Cursor ε σ α β}
  {test : α → Bool} {passed : List α} {count : Nat}

/-- The test fails on no element of the source, and its answer is the same in every store. -/
def Decides (selection : Selection ε σ α β) (test : α → Bool) : Prop :=
  ∀ element, .ok element ∈ selection.source.steps →
    ∀ store, (selection.accepts element store).1 = .ok (test element)

/-- What a cursor becomes by a number of moves, none of which is broken off. What is done to the
store between them does not matter, nor does a transform that fails. -/
inductive Further (origin : Cursor ε σ α β) : Nat → Cursor ε σ α β → Prop
  | still : Further origin 0 origin
  | advance {count : Nat} {cursor : Cursor ε σ α β} (further : Further origin count cursor)
      (store : σ) (through : Succeeds (cursor.advance store).1) :
      Further origin (count + 1) (cursor.advance store).2.1
  | next {count : Nat} {cursor : Cursor ε σ α β} (further : Further origin count cursor)
      (store : σ) (through : Succeeds (cursor.advance store).1) :
      Further origin (count + 1) (cursor.next store).2.1

theorem Further.trans {first middle last : Cursor ε σ α β} {before : Nat}
    (left : Further first before middle) (right : Further middle count last) :
    Further first (before + count) last := by
  induction right with
  | still => exact left
  | advance _ store through ih => exact .advance ih store through
  | next _ store through ih => exact .next ih store through

/-- A cursor that is handed out on the first element has been moved once. -/
theorem further_of_start {store after : σ}
    (ran : selection.start store = (.ok cursor, after)) : Further selection.cursor 1 cursor := by
  rw [start] at ran
  split at ran
  next => cases ran
  next found moved after advanced =>
    cases ran
    have through : Succeeds (selection.cursor.advance store).1 := by
      rw [advanced]
      exact ⟨found, rfl⟩
    have further : Further selection.cursor 1 (selection.cursor.advance store).2.1 :=
      .advance .still store through
    rw [advanced] at further
    exact further

inductive Sought (test : α → Bool) (cursor : Cursor ε σ α β) (ahead : List (Except ε α))
    (taken : Nat) (moved : Cursor ε σ α β) : Prop
  | ended {refused : List α} (none : ∀ element ∈ refused, test element = false)
      (all : ahead = refused.map .ok) (finished : moved.finished = true)
      (owner : moved.selection = cursor.selection)
  | landed {refused : List α} {element : α} (none : ∀ element ∈ refused, test element = false)
      (accepted : test element = true)
      (split : ahead = refused.map .ok ++ .ok element :: moved.ahead)
      (counted : moved.taken = taken + refused.length + 1)
      (finished : moved.finished = cursor.finished) (owner : moved.selection = cursor.selection)

theorem Sought.cons {ahead : List (Except ε α)} {taken : Nat} {element : α}
    (refusal : test element = false) (sought : Sought test cursor ahead (taken + 1) moved) :
    Sought test cursor (.ok element :: ahead) taken moved := by
  have more {refused : List α} (none : ∀ other ∈ refused, test other = false) :
      ∀ other ∈ element :: refused, test other = false :=
    List.forall_mem_cons.2 ⟨refusal, none⟩
  cases sought with
  | ended none all finished owner =>
      exact .ended (more none) (by rw [all, List.map_cons]) finished owner
  | @landed refused _ none accepted split counted finished owner =>
      have further : moved.taken = taken + (element :: refused).length + 1 := by
        rw [counted, List.length_cons]
        omega
      exact .landed (more none) accepted (by rw [split, List.map_cons, List.cons_append]) further
        finished owner

theorem seek_sought (decides : cursor.selection.Decides test) {ahead : List (Except ε α)}
    (within : ∀ step ∈ ahead, step ∈ cursor.selection.source.steps) (taken : Nat) (store : σ)
    (through : Succeeds (Cursor.seek cursor ahead taken store).1) :
    Sought test cursor ahead taken (Cursor.seek cursor ahead taken store).2.1 := by
  have nothing : ∀ element ∈ ([] : List α), test element = false := nofun
  induction ahead generalizing taken store with
  | nil => exact .ended nothing rfl rfl rfl
  | cons step rest ih =>
      rw [List.forall_mem_cons] at within
      cases step with
      | error failure =>
          obtain ⟨found, impossible⟩ := through
          cases impossible
      | ok element =>
          have tested := decides element within.1 store
          rw [Cursor.seek] at through ⊢
          split at through
          next failure after failed =>
            rw [failed] at tested
            cases tested
          next after accepted =>
            rw [accepted] at tested
            exact .landed nothing (Except.ok.inj tested).symm rfl rfl rfl rfl
          next after refused =>
            rw [refused] at tested
            exact .cons (Except.ok.inj tested).symm (ih within.2 (taken + 1) after through)

/-- No search is broken off among steps that do not fail. -/
theorem seek_succeeds (decides : cursor.selection.Decides test) {ahead : List (Except ε α)}
    (within : ∀ step ∈ ahead, step ∈ cursor.selection.source.steps)
    (given : ∀ step ∈ ahead, Succeeds step) (taken : Nat) (store : σ) :
    Succeeds (Cursor.seek cursor ahead taken store).1 := by
  induction ahead generalizing taken store with
  | nil => exact ⟨none, rfl⟩
  | cons step rest ih =>
      rw [List.forall_mem_cons] at within given
      obtain ⟨element, rfl⟩ := given.1
      have tested := decides element within.1 store
      rw [Cursor.seek]
      split
      next failure after failed =>
        rw [failed] at tested
        cases tested
      next after accepted => exact ⟨some element, rfl⟩
      next after refused => exact ih within.2 given.2 (taken + 1) after

structure Behind (selection : Selection ε σ α β) (test : α → Bool) (passed : List α)
    (cursor : Cursor ε σ α β) : Prop where
  steps : selection.source.steps = passed.map .ok ++ cursor.ahead
  taken : cursor.taken = passed.length
  last : ∀ element, passed.getLast? = some element → test element = true

/-- What a number of moves leaves: the cursor has come to that many accepted elements, or there
are fewer of them and it is at the end. -/
structure Counts (selection : Selection ε σ α β) (test : α → Bool) (count : Nat)
    (cursor : Cursor ε σ α β) : Prop where
  owner : cursor.selection = selection
  placed : cursor.finished = false →
    ∃ passed, Behind selection test passed cursor ∧ passed.countP test = count
  ended : cursor.finished = true → selection.source.elements.countP test < count

theorem counts_cursor (selection : Selection ε σ α β) (test : α → Bool) :
    Counts selection test 0 selection.cursor where
  owner := rfl
  placed := fun _ => ⟨[], ⟨rfl, rfl, nofun⟩, rfl⟩
  ended := nofun

theorem countP_eq_zero_of_refused {refused : List α}
    (none : ∀ element ∈ refused, test element = false) : refused.countP test = 0 := by
  rw [List.countP_eq_zero]
  intro element member
  exact Bool.eq_false_iff.1 (none element member)

theorem Behind.within (behind : Behind selection test passed cursor) :
    ∀ step ∈ cursor.ahead, step ∈ selection.source.steps := by
  intro step member
  rw [behind.steps]
  exact List.mem_append_right _ member

theorem Behind.isPrefix (behind : Behind selection test passed cursor) :
    passed <+: selection.source.elements := by
  rw [Source.elements, behind.steps, Source.given_append]
  exact List.prefix_append passed _

theorem Behind.sought (behind : Behind selection test passed cursor)
    (owner : cursor.selection = selection) (unfinished : cursor.finished = false)
    (sought : Sought test cursor cursor.ahead cursor.taken moved) :
    Counts selection test (passed.countP test + 1) moved := by
  cases sought with
  | @ended refused none all finished kept =>
      have total : selection.source.elements.countP test = passed.countP test := by
        rw [Source.elements, behind.steps, all, ← List.map_append, Source.given_map,
          List.countP_append, countP_eq_zero_of_refused none, Nat.add_zero]
      refine ⟨kept.trans owner, ?_, ?_⟩
      · intro unfinished
        rw [finished] at unfinished
        cases unfinished
      · intro _
        rw [total]
        exact Nat.lt_succ_self _
  | @landed refused element none accepted split counted finished kept =>
      refine ⟨kept.trans owner, ?_, ?_⟩
      · intro _
        refine ⟨passed ++ (refused ++ [element]), ⟨?_, ?_, ?_⟩, ?_⟩
        · rw [behind.steps, split]
          simp only [List.map_append, List.map_cons, List.map_nil, List.append_assoc,
            List.cons_append, List.nil_append]
        · rw [counted, behind.taken, List.length_append, List.length_append, List.length_singleton]
          omega
        · intro last same
          rw [← List.append_assoc, List.getLast?_concat] at same
          cases same
          exact accepted
        · rw [List.countP_append, List.countP_append, countP_eq_zero_of_refused none,
            List.countP_singleton, if_pos accepted, Nat.zero_add]
      · intro done
        rw [finished, unfinished] at done
        cases done

theorem Counts.advance (counts : Counts selection test count cursor)
    (decides : selection.Decides test) (store : σ) (through : Succeeds (cursor.advance store).1) :
    Counts selection test (count + 1) (cursor.advance store).2.1 := by
  cases finished : cursor.finished with
  | true =>
      rw [Cursor.advance, if_pos finished]
      refine ⟨counts.owner, ?_, fun _ => Nat.lt_succ_of_lt (counts.ended finished)⟩
      intro unfinished
      rw [finished] at unfinished
      cases unfinished
  | false =>
      obtain ⟨passed, behind, counted⟩ := counts.placed finished
      have owner := counts.owner
      subst owner counted
      rw [Cursor.advance, finished, if_neg Bool.false_ne_true] at through ⊢
      exact behind.sought rfl finished
        (seek_sought decides behind.within cursor.taken store through)

theorem counts_of_further (decides : selection.Decides test)
    (further : Further selection.cursor count cursor) : Counts selection test count cursor := by
  induction further with
  | still => exact counts_cursor selection test
  | advance _ store through ih => exact ih.advance decides store through
  | next _ store through ih =>
      rw [cursor_next]
      exact ih.advance decides store through

theorem Counts.finished_iff (counts : Counts selection test count cursor) :
    cursor.finished = true ↔ selection.source.elements.countP test < count := by
  constructor
  · exact counts.ended
  · intro beyond
    cases finished : cursor.finished with
    | true => rfl
    | false =>
        obtain ⟨passed, behind, counted⟩ := counts.placed finished
        have fewer := behind.isPrefix.sublist.countP_le (p := test)
        omega

/-- Among the elements up to an accepted one, only all of them hold as many accepted ones. -/
theorem eq_of_countP_eq {further : List α} (initial : passed <+: further)
    (last : ∀ element, further.getLast? = some element → test element = true)
    (same : passed.countP test = further.countP test) : passed = further := by
  obtain ⟨extra, rfl⟩ := initial
  rcases extra.eq_nil_or_concat with rfl | ⟨more, element, rfl⟩
  · exact (List.append_nil passed).symm
  · have accepted : test element = true := by
      apply last
      rw [List.concat_eq_append, ← List.append_assoc, List.getLast?_concat]
    rw [List.concat_eq_append, List.countP_append, List.countP_append, List.countP_singleton,
      if_pos accepted] at same
    omega

theorem Behind.taken_eq_iff {other : Selection ε σ α γ} {left : Cursor ε σ α β}
    {right : Cursor ε σ α γ} {earlier later : List α} (first : Behind selection test earlier left)
    (second : Behind other test later right) (same : selection.source = other.source) :
    left.taken = right.taken ↔ earlier.countP test = later.countP test := by
  have before : earlier <+: other.source.elements := same ▸ first.isPrefix
  rw [first.taken, second.taken]
  constructor
  · intro equal
    have within := List.prefix_of_prefix_length_le before second.isPrefix (Nat.le_of_eq equal)
    rw [within.eq_of_length equal]
  · intro equal
    rcases List.prefix_or_prefix_of_prefix before second.isPrefix with within | within
    · rw [eq_of_countP_eq within second.last equal]
    · rw [eq_of_countP_eq within first.last equal.symm]

/-- Where a cursor is: the source and how far into it, or nowhere at the end. -/
def Cursor.spot? (cursor : Cursor ε σ α β) : Option (Nat × Nat) :=
  if cursor.finished then none else some (cursor.selection.source.label, cursor.taken)

theorem Cursor.spot?_of_unfinished (unfinished : cursor.finished = false) :
    cursor.spot? = some (cursor.selection.source.label, cursor.taken) := by
  rw [spot?, unfinished, if_neg Bool.false_ne_true]

theorem Cursor.spot?_eq_none_iff (cursor : Cursor ε σ α β) :
    cursor.spot? = none ↔ cursor.finished = true := by
  rw [spot?]
  cases cursor.finished <;> simp

theorem sameSpot_iff_spot? (left : Cursor ε σ α β) (right : Cursor ε σ α γ) :
    left.sameSpot right = true ↔ left.spot? = right.spot? := by
  rw [Cursor.sameSpot, Cursor.spot?, Cursor.spot?]
  cases left.finished <;> cases right.finished <;> simp

theorem sameSpot_comm (left : Cursor ε σ α β) (right : Cursor ε σ α γ) :
    left.sameSpot right = true ↔ right.sameSpot left = true := by
  rw [sameSpot_iff_spot?, sameSpot_iff_spot?]
  exact eq_comm

theorem sameSpot_equivalence :
    Equivalence fun left right : Cursor ε σ α β => left.sameSpot right = true where
  refl cursor := (sameSpot_iff_spot? cursor cursor).mpr rfl
  symm same := (sameSpot_comm _ _).mp same
  trans := by
    intro left middle right before after
    rw [sameSpot_iff_spot?] at before after ⊢
    exact before.trans after

theorem sameSpot_iff_of_finished {left : Cursor ε σ α β} (right : Cursor ε σ α γ)
    (finished : left.finished = true) :
    left.sameSpot right = true ↔ left.finished = true ∧ right.finished = true := by
  have nowhere := left.spot?_eq_none_iff.mpr finished
  rw [sameSpot_iff_spot?, nowhere, eq_comm, right.spot?_eq_none_iff]
  exact (and_iff_right finished).symm

theorem sameSpot_iff_of_label_ne {left : Cursor ε σ α β} {right : Cursor ε σ α γ}
    (apart : left.selection.source.label ≠ right.selection.source.label) :
    left.sameSpot right = true ↔ left.finished = true ∧ right.finished = true := by
  cases first : left.finished with
  | true => rw [sameSpot_iff_of_finished right first, first]
  | false =>
      cases second : right.finished with
      | true => rw [sameSpot_comm, sameSpot_iff_of_finished left second, first, second, and_comm]
      | false =>
          rw [sameSpot_iff_spot?, Cursor.spot?_of_unfinished first,
            Cursor.spot?_of_unfinished second, Option.some.injEq, Prod.mk.injEq]
          exact iff_of_false (fun same => apart same.1) (fun both => Bool.false_ne_true both.1)

theorem Counts.sameSpot_iff {other : Selection ε σ α γ} {left : Cursor ε σ α β}
    {right : Cursor ε σ α γ} {further : Nat} (first : Counts selection test count left)
    (second : Counts other test further right) (same : selection.source = other.source) :
    left.sameSpot right = true ↔
      min count (selection.source.elements.countP test + 1) =
        min further (selection.source.elements.countP test + 1) := by
  have leftDone := first.finished_iff
  have rightDone := second.finished_iff
  rw [← same] at rightDone
  cases ended : left.finished with
  | true =>
      have beyond := leftDone.mp ended
      rw [sameSpot_iff_of_finished right ended, leftDone, rightDone]
      omega
  | false =>
      have within := mt leftDone.mpr (Bool.eq_false_iff.mp ended)
      cases rightEnded : right.finished with
      | true =>
          have beyond := rightDone.mp rightEnded
          rw [sameSpot_comm, sameSpot_iff_of_finished left rightEnded, leftDone, rightDone]
          omega
      | false =>
          have inside := mt rightDone.mpr (Bool.eq_false_iff.mp rightEnded)
          obtain ⟨earlier, behind, counted⟩ := first.placed ended
          obtain ⟨later, beyond, numbered⟩ := second.placed rightEnded
          have unique := behind.taken_eq_iff beyond same
          rw [counted, numbered] at unique
          rw [sameSpot_iff_spot?, Cursor.spot?_of_unfinished ended,
            Cursor.spot?_of_unfinished rightEnded, first.owner, second.owner, same, Option.some.injEq,
            Prod.mk.injEq, unique, ← same]
          omega

theorem Further.eq_of_finished (further : Further cursor count moved)
    (finished : cursor.finished = true) : moved = cursor := by
  have stays (store : σ) : (cursor.advance store).2.1 = cursor := by
    rw [Cursor.advance, if_pos finished]
  induction further with
  | still => rfl
  | advance _ store _ ih => rw [ih, stays]
  | next _ store _ ih => rw [cursor_next, ih, stays]

theorem Counts.advance_succeeds (counts : Counts selection test count cursor)
    (decides : selection.Decides test) (given : ∀ step ∈ selection.source.steps, Succeeds step)
    (store : σ) : Succeeds (cursor.advance store).1 := by
  cases finished : cursor.finished with
  | true =>
      rw [Cursor.advance, if_pos finished]
      exact ⟨none, rfl⟩
  | false =>
      obtain ⟨passed, behind, _⟩ := counts.placed finished
      have owner := counts.owner
      subst owner
      rw [Cursor.advance, finished, if_neg Bool.false_ne_true]
      have ahead (step : Except ε α) (member : step ∈ cursor.ahead) : Succeeds step :=
        given step (behind.within step member)
      exact seek_succeeds decides behind.within ahead cursor.taken store

structure ByProgress (accepted count further : Nat) (left : Cursor ε σ α β)
    (right : Cursor ε σ α γ) : Prop where
  agree : left.sameSpot right = true ↔ min count (accepted + 1) = min further (accepted + 1)
  leftDone : left.finished = true ↔ accepted < count
  rightDone : right.finished = true ↔ accepted < further

/-- Cursors of two selections with one test from one source are at the same spot where they were
moved equally often, up to the move that brings them to the end. They stay together under equal
numbers of moves. Any other two cursors are only at the same spot if both are at the end, where
they stay. -/
theorem sameSpot_iff_counts_agree (left : Selection ε σ α β) (right : Selection ε σ α γ)
    (test : α → Bool) (same : left.source = right.source) (onLeft : left.Decides test)
    (onRight : right.Decides test) :
    (∀ count further first second, Further left.cursor count first →
      Further right.cursor further second →
        ByProgress (left.source.elements.countP test) count further first second ∧
        ∀ more later last, first.sameSpot second = true → Further first more later →
          Further second more last → later.sameSpot last = true) ∧
    (∀ store cursor after, left.start store = (.ok cursor, after) →
      Further left.cursor 1 cursor) ∧
    ((∀ step ∈ left.source.steps, Succeeds step) →
      ∀ count cursor, Further left.cursor count cursor →
        ∀ store, Succeeds (cursor.advance store).1) ∧
    (∀ cursor : Cursor ε σ α β, cursor.finished = true →
      ∀ count moved, Further cursor count moved → moved = cursor) ∧
    (∀ (first : Cursor ε σ α β) (second : Cursor ε σ α γ),
      first.selection.source.label ≠ second.selection.source.label ∨ first = left.pastEnd →
        (first.sameSpot second = true ↔ first.finished = true ∧ second.finished = true)) ∧
    Equivalence fun first second : Cursor ε σ α β => first.sameSpot second = true := by
  refine ⟨?_, fun _ _ _ ran => further_of_start ran, ?_, ?_, ?_, sameSpot_equivalence⟩
  · intro count further first second ranLeft ranRight
    have before := counts_of_further onLeft ranLeft
    have after := counts_of_further onRight ranRight
    have agree := before.sameSpot_iff after same
    refine ⟨⟨agree, before.finished_iff, ?_⟩, ?_⟩
    · rw [same]
      exact after.finished_iff
    · intro more later last together onward onwardRight
      have ahead := counts_of_further onLeft (ranLeft.trans onward)
      have beyond := counts_of_further onRight (ranRight.trans onwardRight)
      rw [agree] at together
      rw [ahead.sameSpot_iff beyond same]
      omega
  · intro given count cursor further
    exact (counts_of_further onLeft further).advance_succeeds onLeft given
  · intro cursor finished count moved further
    exact further.eq_of_finished finished
  · intro first second apart
    rcases apart with apart | rfl
    · exact sameSpot_iff_of_label_ne apart
    · exact sameSpot_iff_of_finished second rfl

/-- One even number is passed by the second move, and the third finds the cursor at the end. -/
theorem same_spot_past_only_even :
    (evens [2, 3]).Decides (fun number => number % 2 == 0) ∧
      ∃ first second, Further (evens [2, 3]).cursor 2 first ∧
        Further (evens [2, 3]).cursor 3 second ∧ first.sameSpot second = true ∧
        second.finished = true := by
  have decides : (evens [2, 3]).Decides (fun number => number % 2 == 0) := fun _ _ _ => rfl
  have twice : Further (evens [2, 3]).cursor 2 _ :=
    .advance (.advance .still 0 ⟨some 2, rfl⟩) 0 ⟨none, rfl⟩
  have thrice : Further (evens [2, 3]).cursor 3 _ := .next twice 0 ⟨none, rfl⟩
  obtain ⟨counted, _⟩ :=
    sameSpot_iff_counts_agree (evens [2, 3]) (evens [2, 3]) _ rfl decides decides
  obtain ⟨progress, _⟩ := counted 2 3 _ _ twice thrice
  exact ⟨decides, _, _, twice, thrice, progress.agree.mpr rfl, progress.rightDone.mpr (by decide)⟩

end Selection
end MagnetUri

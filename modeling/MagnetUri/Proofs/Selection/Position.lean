import MagnetUri.Selection

set_option autoImplicit false

/-! Cursors whose moves go through or fail. Where no test and no transform fails, every pass goes
through. A move that goes through leaves the cursor on the element at its position; one that is
broken off has counted the steps it took, but leaves the element that was held before. -/

namespace MagnetUri

def Succeeds {ε α : Type} (outcome : Except ε α) : Prop :=
  ∃ value, outcome = .ok value

namespace Selection

variable {ε σ α β : Type} {selection : Selection ε σ α β} {cursor : Cursor ε σ α β}

/-- An element of the source that the test accepts in some store. -/
def Taken (selection : Selection ε σ α β) (element : α) : Prop :=
  .ok element ∈ selection.source.steps ∧ ∃ store, (selection.accepts element store).1 = .ok true

structure Total (selection : Selection ε σ α β) : Prop where
  steps : ∀ step ∈ selection.source.steps, Succeeds step
  accepts : ∀ element, .ok element ∈ selection.source.steps →
    ∀ store, Succeeds (selection.accepts element store).1
  transform : ∀ element, selection.Taken element →
    ∀ store, Succeeds (selection.transform element store).1

inductive Reachable (selection : Selection ε σ α β) : Cursor ε σ α β → Prop
  | cursor : Reachable selection selection.cursor
  | pastEnd : Reachable selection selection.pastEnd
  | advance {cursor : Cursor ε σ α β} (reached : Reachable selection cursor) (store : σ) :
      Reachable selection (cursor.advance store).2.1
  | next {cursor : Cursor ε σ α β} (reached : Reachable selection cursor) (store : σ) :
      Reachable selection (cursor.next store).2.1

structure NeverFails (selection : Selection ε σ α β) : Prop where
  toList : ∀ store, Succeeds (selection.toList store).1
  count : ∀ store, Succeeds (selection.count store).1
  isEmpty : ∀ store, Succeeds (selection.isEmpty store).1
  first : ∀ store, Succeeds (selection.first? store).1
  start : ∀ store, Succeeds (selection.start store).1
  advance : ∀ cursor, selection.Reachable cursor → ∀ store, Succeeds (cursor.advance store).1
  next : ∀ cursor, selection.Reachable cursor → ∀ store, Succeeds (cursor.next store).1
  current : ∀ cursor, selection.Reachable cursor → cursor.position? ≠ none →
    ∀ store, Succeeds (cursor.current store).1

structure Sound (selection : Selection ε σ α β) (cursor : Cursor ε σ α β) : Prop where
  owner : cursor.selection = selection
  ahead : ∀ step ∈ cursor.ahead, step ∈ selection.source.steps
  element : ∀ element, cursor.element = some element → selection.Taken element
  placed : cursor.finished = false → cursor.taken ≠ 0 → ∃ element, cursor.element = some element

theorem sound_cursor : Sound selection selection.cursor where
  owner := rfl
  ahead := fun _ member => member
  element := nofun
  placed := fun _ moved => absurd rfl moved

theorem sound_pastEnd : Sound selection selection.pastEnd where
  owner := rfl
  ahead := nofun
  element := nofun
  placed := nofun

theorem seek_sound (total : selection.Total) (sound : Sound selection cursor)
    {ahead : List (Except ε α)} (within : ∀ step ∈ ahead, step ∈ selection.source.steps)
    (taken : Nat) (store : σ) :
    ∃ found moved after, Cursor.seek cursor ahead taken store = (.ok found, moved, after) ∧
      Sound selection moved ∧ ∀ element, found = some element → selection.Taken element := by
  induction ahead generalizing taken store with
  | nil => exact ⟨none, _, store, rfl, ⟨sound.owner, nofun, nofun, nofun⟩, nofun⟩
  | cons step rest ih =>
      rw [List.forall_mem_cons] at within
      obtain ⟨element, succeeded⟩ := total.steps step within.1
      subst succeeded
      obtain ⟨verdict, accepted⟩ := total.accepts element within.1 store
      have outcome : cursor.selection.accepts element store =
          (.ok verdict, (selection.accepts element store).2) := by
        rw [sound.owner]
        exact Prod.ext accepted rfl
      rw [Cursor.seek, outcome]
      cases verdict with
      | false => exact ih within.2 (taken + 1) _
      | true =>
          have held : selection.Taken element := ⟨within.1, store, accepted⟩
          refine ⟨some element, _, _, rfl, ⟨sound.owner, within.2, ?_, ?_⟩, ?_⟩
          · intro other same
            cases same
            exact held
          · intro _ _
            exact ⟨element, rfl⟩
          · intro other same
            cases same
            exact held

theorem advance_sound (total : selection.Total) (sound : Sound selection cursor) (store : σ) :
    ∃ found moved after, cursor.advance store = (.ok found, moved, after) ∧
      Sound selection moved ∧ ∀ element, found = some element → selection.Taken element := by
  unfold Cursor.advance
  split
  · exact ⟨none, cursor, store, rfl, sound, nofun⟩
  · exact seek_sound total sound sound.ahead cursor.taken store

theorem next_sound (total : selection.Total) (sound : Sound selection cursor) (store : σ) :
    ∃ found moved after, cursor.next store = (.ok found, moved, after) ∧
      Sound selection moved := by
  obtain ⟨found, moved, after, advanced, kept, held⟩ := advance_sound total sound store
  unfold Cursor.next
  rw [advanced]
  cases found with
  | none => exact ⟨none, moved, after, rfl, kept⟩
  | some element =>
      obtain ⟨value, transformed⟩ := total.transform element (held element rfl) after
      have outcome : cursor.selection.transform element after =
          (.ok value, (selection.transform element after).2) := by
        rw [sound.owner]
        exact Prod.ext transformed rfl
      simp only [outcome]
      exact ⟨some value, moved, _, rfl, kept⟩

theorem sound_of_reachable (total : selection.Total) (reached : selection.Reachable cursor) :
    Sound selection cursor := by
  induction reached with
  | cursor => exact sound_cursor
  | pastEnd => exact sound_pastEnd
  | advance _ store ih =>
      obtain ⟨found, moved, after, advanced, kept, _⟩ := advance_sound total ih store
      rw [advanced]
      exact kept
  | next _ store ih =>
      obtain ⟨found, moved, after, advanced, kept⟩ := next_sound total ih store
      rw [advanced]
      exact kept

-- Both passes go by the recursion of the pass, which every step leaves with a sound cursor.
theorem toList_succeeds (total : selection.Total) (sound : Sound selection cursor) (store : σ) :
    Succeeds (cursor.toList store).1 := by
  fun_induction Cursor.toList cursor store with
  | case1 cursor store failure moved after step =>
      obtain ⟨_, _, _, outcome, _⟩ := next_sound total sound store
      cases step.symm.trans outcome
  | case2 => exact ⟨[], rfl⟩
  | case3 cursor store value moved after step failure last later ih =>
      obtain ⟨_, _, _, outcome, kept⟩ := next_sound total sound store
      cases step.symm.trans outcome
      obtain ⟨values, succeeded⟩ := ih kept
      rw [later] at succeeded
      cases succeeded
  | case4 cursor store value moved after step values last later => exact ⟨value :: values, rfl⟩

theorem countAhead_succeeds (total : selection.Total) (sound : Sound selection cursor)
    (store : σ) : Succeeds (cursor.countAhead store).1 := by
  fun_induction Cursor.countAhead cursor store with
  | case1 cursor store failure moved after step =>
      obtain ⟨_, _, _, outcome, _⟩ := advance_sound total sound store
      cases step.symm.trans outcome
  | case2 => exact ⟨0, rfl⟩
  | case3 cursor store element moved after step failure last later ih =>
      obtain ⟨_, _, _, outcome, kept, _⟩ := advance_sound total sound store
      cases step.symm.trans outcome
      obtain ⟨count, succeeded⟩ := ih kept
      rw [later] at succeeded
      cases succeeded
  | case4 cursor store element moved after step count last later => exact ⟨count + 1, rfl⟩

theorem current_succeeds (total : selection.Total) (sound : Sound selection cursor)
    (placed : cursor.position? ≠ none) (store : σ) : Succeeds (cursor.current store).1 := by
  have unfinished : cursor.finished = false := by
    cases finished : cursor.finished with
    | false => rfl
    | true =>
        rw [Cursor.position?, finished] at placed
        exact absurd rfl placed
  have moved : cursor.taken ≠ 0 := by
    intro fresh
    rw [Cursor.position?, unfinished, fresh] at placed
    exact placed rfl
  obtain ⟨element, holds⟩ := sound.placed unfinished moved
  obtain ⟨value, transformed⟩ := total.transform element (sound.element element holds) store
  have outcome : cursor.selection.transform element store =
      (.ok value, (selection.transform element store).2) := by
    rw [sound.owner]
    exact Prod.ext transformed rfl
  refine ⟨value, ?_⟩
  unfold Cursor.current
  rw [unfinished, holds]
  simp only [outcome]

theorem Total.neverFails (total : selection.Total) : selection.NeverFails where
  toList := toList_succeeds total sound_cursor
  count := countAhead_succeeds total sound_cursor
  isEmpty := by
    intro store
    obtain ⟨found, moved, after, advanced, _⟩ := advance_sound total sound_cursor store
    rw [isEmpty, advanced]
    exact ⟨found.isNone, rfl⟩
  first := by
    intro store
    obtain ⟨found, moved, after, advanced, _⟩ := next_sound total sound_cursor store
    rw [first?, advanced]
    exact ⟨found, rfl⟩
  start := by
    intro store
    obtain ⟨found, moved, after, advanced, _⟩ := advance_sound total sound_cursor store
    rw [start, advanced]
    exact ⟨moved, rfl⟩
  advance := by
    intro cursor reached store
    obtain ⟨found, moved, after, advanced, _⟩ :=
      advance_sound total (sound_of_reachable total reached) store
    rw [advanced]
    exact ⟨found, rfl⟩
  next := by
    intro cursor reached store
    obtain ⟨found, moved, after, advanced, _⟩ :=
      next_sound total (sound_of_reachable total reached) store
    rw [advanced]
    exact ⟨found, rfl⟩
  current := fun _ reached => current_succeeds total (sound_of_reachable total reached)

end Selection
end MagnetUri

namespace MagnetUri.Selection

variable {ε σ α β : Type} {selection : Selection ε σ α β} {cursor moved : Cursor ε σ α β}
  {store : σ} {element : α} {place : Nat}

def Stands (selection : Selection ε σ α β) (place : Nat) (element : α) : Prop :=
  selection.source.steps[place]? = some (.ok element)

/-- What every call keeps, be it broken off or not: the steps ahead are those of the source that
have not been taken, unless the source has failed, and what is held was taken before. -/
structure Tracks (selection : Selection ε σ α β) (cursor : Cursor ε σ α β) : Prop where
  owner : cursor.selection = selection
  ahead : cursor.ahead = selection.source.steps.drop cursor.taken ∨ cursor.ahead = []
  held : ∀ element, cursor.element = some element →
    ∃ place, place < cursor.taken ∧ selection.Stands place element

inductive Advanced (selection : Selection ε σ α β) (cursor : Cursor ε σ α β) :
    Except ε (Option α) → Cursor ε σ α β → Prop
  | ended {moved : Cursor ε σ α β} (finished : moved.finished = true)
      (empty : moved.element = none) (owner : moved.selection = selection)
      (ahead : moved.ahead = []) : Advanced selection cursor (.ok none) moved
  | landed {place : Nat} {element : α} (stands : selection.Stands place element)
      (further : cursor.taken ≤ place) :
      Advanced selection cursor (.ok (some element))
        { cursor with
          ahead := selection.source.steps.drop (place + 1)
          taken := place + 1
          element := some element }
  | refused {place : Nat} {tested : α} {failure : ε} (stands : selection.Stands place tested)
      (further : cursor.taken ≤ place)
      (failed : ∃ store, (selection.accepts tested store).1 = .error failure) :
      Advanced selection cursor (.error failure)
        { cursor with ahead := selection.source.steps.drop (place + 1), taken := place + 1 }
  | broken {place : Nat} {failure : ε}
      (failed : selection.source.steps[place]? = some (.error failure))
      (further : cursor.taken ≤ place) :
      Advanced selection cursor (.error failure) { cursor with ahead := [], taken := place }

theorem step_of_drop {steps rest : List (Except ε α)} {step : Except ε α} {taken : Nat}
    (ahead : step :: rest = steps.drop taken) :
    steps[taken]? = some step ∧ rest = steps.drop (taken + 1) := by
  constructor
  · rw [← List.head?_drop, ← ahead, List.head?_cons]
  · rw [← List.tail_drop, ← ahead, List.tail_cons]

theorem seek_advanced (owner : cursor.selection = selection) {ahead : List (Except ε α)}
    {taken : Nat} (further : cursor.taken ≤ taken)
    (behind : ahead = selection.source.steps.drop taken ∨ ahead = []) (store : σ) :
    Advanced selection cursor (Cursor.seek cursor ahead taken store).1
      (Cursor.seek cursor ahead taken store).2.1 := by
  induction ahead generalizing taken store with
  | nil => exact .ended rfl rfl owner rfl
  | cons step rest ih =>
      obtain ⟨there, same⟩ := step_of_drop (behind.resolve_right (List.cons_ne_nil step rest))
      subst same
      cases step with
      | error failure => exact .broken there further
      | ok candidate =>
          have tested : cursor.selection.accepts candidate store =
              selection.accepts candidate store := by rw [owner]
          rw [Cursor.seek, tested]
          split
          next failure after refused =>
            exact .refused there further ⟨store, congrArg Prod.fst refused⟩
          next after accepted => exact .landed there further
          next after passed => exact ih (Nat.le_succ_of_le further) (.inl rfl) after

theorem advance_advanced (tracks : Tracks selection cursor) (unfinished : cursor.finished = false)
    (store : σ) :
    Advanced selection cursor (cursor.advance store).1 (cursor.advance store).2.1 := by
  rw [Cursor.advance, unfinished]
  exact seek_advanced tracks.owner (Nat.le_refl _) tracks.ahead store

theorem Advanced.tracks {outcome : Except ε (Option α)}
    (advanced : Advanced selection cursor outcome moved) (tracks : Tracks selection cursor) :
    Tracks selection moved := by
  -- What a move broken off leaves held was taken before even more steps than it was.
  have earlier {taken : Nat} (further : cursor.taken ≤ taken) (element : α)
      (holds : cursor.element = some element) :
      ∃ place, place < taken ∧ selection.Stands place element := by
    obtain ⟨place, before, stands⟩ := tracks.held element holds
    exact ⟨place, Nat.lt_of_lt_of_le before further, stands⟩
  cases advanced with
  | ended finished empty owner ahead =>
      refine ⟨owner, .inr ahead, ?_⟩
      intro element holds
      rw [empty] at holds
      cases holds
  | @landed place _ stands further =>
      refine ⟨tracks.owner, .inl rfl, ?_⟩
      rintro element ⟨⟩
      exact ⟨place, Nat.lt_succ_self place, stands⟩
  | refused stands further failed =>
      exact ⟨tracks.owner, .inl rfl, earlier (Nat.le_succ_of_le further)⟩
  | broken failed further => exact ⟨tracks.owner, .inr rfl, earlier further⟩

theorem advance_tracks (tracks : Tracks selection cursor) (store : σ) :
    Tracks selection (cursor.advance store).2.1 := by
  cases unfinished : cursor.finished with
  | false => exact (advance_advanced tracks unfinished store).tracks tracks
  | true =>
      rw [Cursor.advance, unfinished]
      exact tracks

/-- Giving the element it moved to leaves a cursor where the move did, also if giving it fails. -/
theorem cursor_next (cursor : Cursor ε σ α β) (store : σ) :
    (cursor.next store).2.1 = (cursor.advance store).2.1 := by
  unfold Cursor.next
  split
  next advanced => rw [advanced]
  next advanced => rw [advanced]
  next advanced =>
    rw [advanced]
    split <;> rfl

theorem tracks_of_reachable (reached : selection.Reachable cursor) : Tracks selection cursor := by
  induction reached with
  | cursor => exact ⟨rfl, .inl rfl, nofun⟩
  | pastEnd => exact ⟨rfl, .inr rfl, nofun⟩
  | advance _ store ih => exact advance_tracks ih store
  | next _ store ih =>
      rw [cursor_next]
      exact advance_tracks ih store

/-- The cursors that a selection hands out and those whose last move was not broken off. One
that was broken off may stand before it, and the transform may have failed on any element. -/
inductive Settled (selection : Selection ε σ α β) : Cursor ε σ α β → Prop
  | cursor : Settled selection selection.cursor
  | pastEnd : Settled selection selection.pastEnd
  | advance {cursor : Cursor ε σ α β} {store : σ} (reached : selection.Reachable cursor)
      (through : Succeeds (cursor.advance store).1) :
      Settled selection (cursor.advance store).2.1
  | next {cursor : Cursor ε σ α β} {store : σ} (reached : selection.Reachable cursor)
      (through : Succeeds (cursor.advance store).1) : Settled selection (cursor.next store).2.1

/-- What a move that goes through establishes: the last step taken gave what is held. -/
def Placed (selection : Selection ε σ α β) (cursor : Cursor ε σ α β) : Prop :=
  cursor.finished = false → ∀ element, cursor.element = some element →
    ∃ place, cursor.taken = place + 1 ∧ selection.Stands place element

theorem Advanced.placed {found : Option α}
    (advanced : Advanced selection cursor (.ok found) moved) : Placed selection moved := by
  cases advanced with
  | ended finished empty owner ahead =>
      intro unfinished
      rw [finished] at unfinished
      cases unfinished
  | @landed place _ stands further =>
      rintro - element ⟨⟩
      exact ⟨place, rfl, stands⟩

theorem advance_placed (reached : selection.Reachable cursor) {store : σ}
    (through : Succeeds (cursor.advance store).1) :
    Placed selection (cursor.advance store).2.1 := by
  cases unfinished : cursor.finished with
  | false =>
      have advanced := advance_advanced (tracks_of_reachable reached) unfinished store
      obtain ⟨found, went⟩ := through
      rw [went] at advanced
      exact advanced.placed
  | true =>
      rw [Cursor.advance, unfinished]
      intro still
      rw [if_pos rfl, unfinished] at still
      cases still

theorem Settled.placed (settled : selection.Settled cursor) : Placed selection cursor := by
  cases settled with
  | cursor => exact fun _ => nofun
  | pastEnd => exact nofun
  | advance reached through => exact advance_placed reached through
  | next reached through =>
      rw [cursor_next]
      exact advance_placed reached through

theorem Settled.reachable (settled : selection.Settled cursor) : selection.Reachable cursor := by
  cases settled with
  | cursor => exact .cursor
  | pastEnd => exact .pastEnd
  | advance reached through => exact .advance reached _
  | next reached through => exact .next reached _

/-- Reading what a cursor holds transforms it, whatever was broken off before. -/
theorem current_of_element (tracks : Tracks selection cursor)
    (unfinished : cursor.finished = false) (holds : cursor.element = some element) :
    cursor.current = (selection.transform element).mapError .failed := by
  funext store
  rcases transformed : selection.transform element store with ⟨failure | value, after⟩ <;>
    simp only [Cursor.current, unfinished, holds, tracks.owner, Effect.mapError, transformed] <;>
    rfl

/-- The place of the step at which a move failed, and the position it left. That is the place of
an element on which the test failed, or the last one before the place where the source did. -/
def FailedAt (selection : Selection ε σ α β) (moved : Cursor ε σ α β) (failure : ε)
    (place : Nat) : Prop :=
  (moved.position? = some place ∧ ∃ tested, selection.Stands place tested ∧
    ∃ store, (selection.accepts tested store).1 = .error failure) ∨
  ((∀ last, moved.position? = some last ↔ place = last + 1) ∧
    selection.source.steps[place]? = some (.error failure))

/-- A cursor as a move that was broken off leaves it: with what it held before, while the position
has come up to a step behind that. -/
structure BrokenOff (selection : Selection ε σ α β) (cursor moved : Cursor ε σ α β)
    (failure : ε) : Prop where
  unfinished : moved.finished = false
  held : moved.element = cursor.element
  read : moved.current = cursor.current
  position : ∃ place, FailedAt selection moved failure place ∧
    ∀ earlier, cursor.position? = some earlier → earlier < place

theorem position?_eq_some_iff (unfinished : cursor.finished = false) :
    cursor.position? = some place ↔ cursor.taken = place + 1 := by
  rw [Cursor.position?, unfinished, if_neg Bool.false_ne_true]
  cases cursor.taken with
  | zero => exact iff_of_false (Option.some_ne_none place).symm (Nat.succ_ne_zero place).symm
  | succ last => rw [Option.some.injEq, Nat.add_right_cancel_iff]

theorem Advanced.brokenOff {failure : ε}
    (advanced : Advanced selection cursor (.error failure) moved)
    (unfinished : cursor.finished = false) : BrokenOff selection cursor moved failure := by
  have later {place : Nat} (further : cursor.taken ≤ place) (earlier : Nat)
      (stood : cursor.position? = some earlier) : earlier < place := by
    rw [position?_eq_some_iff unfinished] at stood
    omega
  cases advanced with
  | @refused place tested _ stands further failed =>
      refine ⟨unfinished, rfl, rfl, place, .inl ⟨?_, tested, stands, failed⟩, later further⟩
      rw [position?_eq_some_iff]
      exact unfinished
  | @broken place _ failed further =>
      refine ⟨unfinished, rfl, rfl, place, .inr ⟨?_, failed⟩, later further⟩
      intro last
      rw [position?_eq_some_iff]
      exact unfinished

/-- A cursor whose last move was not broken off holds the element at its position, and reading it
transforms that element. A move that is broken off leaves the cursor with the element it held
before, which is read as before, while the position has come up to the step that failed. -/
theorem element_at_position_unless_broken_off (selection : Selection ε σ α β) :
    (∀ cursor : Cursor ε σ α β, selection.Settled cursor → cursor.finished = false →
      ∀ element, cursor.element = some element →
        ∃ place, cursor.position? = some place ∧ selection.Stands place element ∧
          cursor.current = (selection.transform element).mapError .failed) ∧
    ∀ cursor : Cursor ε σ α β, selection.Reachable cursor → cursor.finished = false →
      ∀ (store : σ) (failure : ε), (cursor.advance store).1 = .error failure →
        BrokenOff selection cursor (cursor.advance store).2.1 failure ∧
        BrokenOff selection cursor (cursor.next store).2.1 failure := by
  constructor
  · intro cursor settled unfinished element holds
    obtain ⟨place, counted, stands⟩ := settled.placed unfinished element holds
    have tracks := tracks_of_reachable settled.reachable
    exact ⟨place, (position?_eq_some_iff unfinished).mpr counted, stands,
      current_of_element tracks unfinished holds⟩
  · intro cursor reached unfinished store failure failed
    have advanced := advance_advanced (tracks_of_reachable reached) unfinished store
    rw [failed] at advanced
    rw [cursor_next]
    exact ⟨advanced.brokenOff unfinished, advanced.brokenOff unfinished⟩

def refusing (number : Nat) (numbers : List Nat) : Selection String Unit Nat Nat where
  source := { label := 0, steps := numbers.map .ok }
  accepts := fun element =>
    if element = number then
      Effect.ofExcept (.error ("predicate refused " ++ toString element))
    else Effect.pure true
  transform := Effect.pure

/-- Where the test fails on the second number, the first one is held and read at its position. -/
theorem earlier_element_at_position_of_refused :
    ∃ cursor, (refusing 2 [1, 2, 3]).Reachable cursor ∧ cursor.finished = false ∧
      cursor.element = some 1 ∧ cursor.position? = some 1 ∧
      (refusing 2 [1, 2, 3]).Stands 1 2 ∧ (cursor.current ()).1 = .ok 1 := by
  have fresh : (refusing 2 [1, 2, 3]).Reachable (refusing 2 [1, 2, 3]).cursor := .cursor
  exact ⟨_, (fresh.advance ()).advance (), by decide, by decide, by decide, rfl, rfl⟩

end MagnetUri.Selection

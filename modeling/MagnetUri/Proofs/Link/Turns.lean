import MagnetUri.Proofs.Link.Listings
import MagnetUri.Proofs.Selection.Interleaving

set_option autoImplicit false

/-! Identifiers read in turn. A cursor over decoded identifiers leaves the text of its element in
its storage, so with storage of its own it gives that text for as long as it stands there,
wherever other cursors go and whatever was in the storage before. -/

namespace MagnetUri

open Selection (Call Reply Cursor)

namespace Field

def urls (key : Text) (source : Source Error Param) : Selection Error Scratch Param Text where
  source := source
  accepts := hasUrl key
  transform := lastDecoded

variable {key : Text} {source : Source Error Param} {param : Param} {left right scratch : Scratch}
  {cursor : Cursor Error Scratch Param Text} {ahead : List (Except Error Param)}

theorem accepts_eq (owner : cursor.selection = urls key source) (param : Param)
    (scratch : Scratch) : cursor.selection.accepts param scratch = hasUrl key param scratch := by
  rw [owner]
  rfl

theorem transform_eq (owner : cursor.selection = urls key source) (param : Param)
    (scratch : Scratch) :
    cursor.selection.transform param scratch = (.ok scratch.text, scratch) := by
  rw [owner]
  rfl

/-- The test leaves any storage as it is, or it leaves one text in all of them. -/
theorem hasUrl_leaves (key : Text) (param : Param) :
    (∀ scratch, (hasUrl key param scratch : Except Error Bool × Scratch).2 = scratch) ∨
      ∃ text, ∀ scratch, (hasUrl key param scratch : Except Error Bool × Scratch).2.text = text := by
  unfold hasUrl
  cases param.value? with
  | none => exact Or.inl fun _ => rfl
  | some value =>
      by_cases spelled : param.key.spells key = true
      · refine Or.inr ⟨(Utf8.decode? value.bytes).getD [], fun scratch => ?_⟩
        rw [← Scratch.text_decode value scratch]
        simp only [spelled, if_true]
        rcases Scratch.decode value scratch with ⟨_ | _, _⟩ <;> rfl
      · simp [spelled]

theorem hasUrl_agree (key : Text) (param : Param) (left right : Scratch) :
    ∃ leftAfter rightAfter,
      (hasUrl key param left : Except Error Bool × Scratch) =
        (.ok (urlOf? key param).isSome, leftAfter) ∧
      (hasUrl key param right : Except Error Bool × Scratch) =
        (.ok (urlOf? key param).isSome, rightAfter) ∧
      (leftAfter.text = rightAfter.text ∨
        (urlOf? key param = none ∧ leftAfter = left ∧ rightAfter = right)) := by
  obtain ⟨leftAfter, leftTested, leftHolds⟩ := hasUrl_eq key param left
  obtain ⟨rightAfter, rightTested, rightHolds⟩ := hasUrl_eq key param right
  refine ⟨leftAfter, rightAfter, leftTested, rightTested, ?_⟩
  cases found : urlOf? key param with
  | some text => exact Or.inl ((leftHolds text found).trans (rightHolds text found).symm)
  | none =>
      have leftSame : (hasUrl key param left : Except Error Bool × Scratch).2 = leftAfter :=
        congrArg Prod.snd leftTested
      have rightSame : (hasUrl key param right : Except Error Bool × Scratch).2 = rightAfter :=
        congrArg Prod.snd rightTested
      rcases hasUrl_leaves key param with stays | ⟨text, leaves⟩
      · exact Or.inr ⟨rfl, leftSame.symm.trans (stays left), rightSame.symm.trans (stays right)⟩
      · rw [← leftSame, ← rightSame]
        exact Or.inl ((leaves left).trans (leaves right).symm)

/-- Two storages that a cursor cannot tell apart: it holds no element, or they hold one text. -/
def Alike (cursor : Cursor Error Scratch Param Text) (left right : Scratch) : Prop :=
  cursor.element = none ∨ left.text = right.text

inductive Agree {γ : Type} (selection : Selection Error Scratch Param Text) :
    (one other : γ × Cursor Error Scratch Param Text × Scratch) → Prop
  | mk {outcome : γ} {moved : Cursor Error Scratch Param Text} {left right : Scratch}
      (owner : moved.selection = selection) (alike : Alike moved left right) :
      Agree selection (outcome, moved, left) (outcome, moved, right)

theorem seek_agree (owner : cursor.selection = urls key source) (alike : Alike cursor left right)
    (taken : Nat) : Agree (urls key source) (Cursor.seek cursor ahead taken left)
      (Cursor.seek cursor ahead taken right) := by
  induction ahead generalizing taken left right with
  | nil => exact ⟨owner, Or.inl rfl⟩
  | cons step rest ih =>
      cases step with
      | error failure => exact ⟨owner, alike⟩
      | ok param =>
          obtain ⟨leftAfter, rightAfter, leftTested, rightTested, texts⟩ :=
            hasUrl_agree key param left right
          rw [Cursor.seek, Cursor.seek, accepts_eq owner, accepts_eq owner, leftTested, rightTested]
          -- A value that is decoded makes the storages alike; any other test leaves both as they are.
          rcases texts with same | ⟨nothing, leftSame, rightSame⟩
          · cases urlOf? key param with
            | none => exact ih (Or.inr same) (taken + 1)
            | some text => exact ⟨owner, Or.inr same⟩
          · rw [nothing, leftSame, rightSame]
            exact ih alike (taken + 1)

theorem advance_agree (owner : cursor.selection = urls key source)
    (alike : Alike cursor left right) :
    Agree (urls key source) (cursor.advance left) (cursor.advance right) := by
  unfold Cursor.advance
  split
  next => exact ⟨owner, alike⟩
  next => exact seek_agree owner alike cursor.taken

theorem next_agree (owner : cursor.selection = urls key source)
    (alike : Alike cursor left right) :
    Agree (urls key source) (cursor.next left) (cursor.next right) := by
  have agree := advance_agree owner alike
  have landed (element : Param) (moved : Cursor Error Scratch Param Text) (after : Scratch)
      (found : cursor.advance left = (.ok (some element), moved, after)) :
      moved.element = some element := Selection.element_advance found
  unfold Cursor.next
  generalize cursor.advance left = one at agree landed
  generalize cursor.advance right = other at agree
  cases agree with
  | @mk outcome moved leftAfter rightAfter kept alike =>
      rcases outcome with failure | _ | element
      · exact ⟨kept, alike⟩
      · exact ⟨kept, alike⟩
      · have same : leftAfter.text = rightAfter.text :=
          alike.resolve_left fun none => by cases none.symm.trans (landed element moved _ rfl)
        simp only [transform_eq owner, same]
        exact ⟨kept, alike⟩

theorem current_agree (owner : cursor.selection = urls key source)
    (alike : Alike cursor left right) :
    cursor.current left = ((cursor.current left).1, left) ∧
      cursor.current right = ((cursor.current left).1, right) := by
  obtain ⟨selection, ahead, taken, element, finished⟩ := cursor
  change selection = urls key source at owner
  subst owner
  cases finished with
  | true => exact ⟨rfl, rfl⟩
  | false =>
      cases element with
      | none => exact ⟨rfl, rfl⟩
      | some element =>
          have same : left.text = right.text := alike.resolve_left nofun
          refine ⟨rfl, ?_⟩
          change ((.ok right.text, right) : Except (Selection.ReadError Error) Text × Scratch) =
            (.ok left.text, right)
          rw [same]

theorem answer_agree (owner : cursor.selection = urls key source)
    (alike : Alike cursor left right) (call : Call) :
    Agree (urls key source) (cursor.answer call left) (cursor.answer call right) := by
  cases call with
  | advance =>
      have agree := advance_agree owner alike
      unfold Cursor.answer
      generalize cursor.advance left = one at agree
      generalize cursor.advance right = other at agree
      cases agree with
      | mk owner alike => exact ⟨owner, alike⟩
  | next =>
      have agree := next_agree owner alike
      unfold Cursor.answer
      generalize cursor.next left = one at agree
      generalize cursor.next right = other at agree
      cases agree with
      | mk owner alike => exact ⟨owner, alike⟩
  | current =>
      obtain ⟨leftRead, rightRead⟩ := current_agree owner alike
      simp only [Cursor.answer]
      rw [leftRead, rightRead]
      exact ⟨owner, alike⟩
  | isDone => exact ⟨owner, alike⟩
  | position => exact ⟨owner, alike⟩

/-- Two storages that a cursor cannot tell apart make no difference to any of its replies. -/
theorem run_agree (owner : cursor.selection = urls key source) (alike : Alike cursor left right)
    (calls : List Call) : (cursor.run calls left).1 = (cursor.run calls right).1 := by
  induction calls generalizing cursor left right with
  | nil => rfl
  | cons call calls ih =>
      have agree := answer_agree owner alike call
      unfold Cursor.run
      generalize cursor.answer call left = one at agree
      generalize cursor.answer call right = other at agree
      cases agree with
      | @mk reply _ _ _ owner alike => exact congrArg (reply :: ·) (ih owner alike)

structure Placed (key : Text) (source : Source Error Param)
    (cursor : Cursor Error Scratch Param Text) (scratch : Scratch) : Prop where
  owner : cursor.selection = urls key source
  holds : ∀ element, cursor.element = some element → HoldsUrl key element scratch.text

structure Moved {γ : Type} (key : Text) (source : Source Error Param)
    (ahead : List (Except Error Param))
    (result : Except Error γ × Cursor Error Scratch Param Text × Scratch) : Prop where
  takes : ∀ step ∈ result.2.1.ahead, step ∈ ahead
  outcome : match result.1 with
    | .error failure => .error failure ∈ ahead
    | .ok _ => Placed key source result.2.1 result.2.2

theorem Moved.cons {γ : Type} {result : Except Error γ × Cursor Error Scratch Param Text × Scratch}
    (moved : Moved key source ahead result) (step : Except Error Param) :
    Moved key source (step :: ahead) result := by
  obtain ⟨takes, outcome⟩ := moved
  refine ⟨fun _ member => List.mem_cons_of_mem _ (takes _ member), ?_⟩
  rcases result with ⟨failure | value, moved, after⟩
  · exact List.mem_cons_of_mem _ outcome
  · exact outcome

theorem seek_moved (owner : cursor.selection = urls key source) (taken : Nat) (scratch : Scratch) :
    Moved key source ahead (Cursor.seek cursor ahead taken scratch) := by
  induction ahead generalizing taken scratch with
  | nil => exact ⟨nofun, owner, nofun⟩
  | cons step rest ih =>
      cases step with
      | error failure => exact ⟨nofun, List.mem_cons_self⟩
      | ok param =>
          obtain ⟨after, tested, holds⟩ := hasUrl_eq key param scratch
          rw [Cursor.seek, accepts_eq owner, tested]
          cases found : urlOf? key param with
          | none => exact (ih (taken + 1) after).cons _
          | some text =>
              have told : HoldsUrl key param after.text := by
                rw [holds text found]
                exact urlOf?_eq_some_iff.1 found
              refine ⟨fun _ => List.mem_cons_of_mem _, owner, ?_⟩
              intro element same
              cases same
              exact told

theorem advance_moved (placed : Placed key source cursor scratch) :
    Moved key source cursor.ahead (cursor.advance scratch) := by
  unfold Cursor.advance
  split
  next => exact ⟨fun _ => id, placed⟩
  next => exact seek_moved placed.owner cursor.taken scratch

theorem next_moved (placed : Placed key source cursor scratch) :
    Moved key source cursor.ahead (cursor.next scratch) := by
  have moves := advance_moved placed
  unfold Cursor.next
  simp only [transform_eq placed.owner]
  generalize cursor.advance scratch = result at moves
  rcases result with ⟨_ | _ | _, moved, after⟩
  · exact ⟨moves.takes, moves.outcome⟩
  · exact ⟨moves.takes, moves.outcome⟩
  · exact ⟨moves.takes, moves.outcome⟩

/-- After a call that does not fail a cursor is placed, and only a step ahead can fail. -/
theorem answer_placed (placed : Placed key source cursor scratch) (call : Call) :
    let answer := cursor.answer call scratch
    (∀ step ∈ answer.2.1.ahead, step ∈ cursor.ahead) ∧
      (answer.1.Fails → ∃ failure, .error failure ∈ cursor.ahead) ∧
      (¬ answer.1.Fails → Placed key source answer.2.1 answer.2.2) := by
  cases call with
  | advance =>
      have moves := advance_moved placed
      unfold Cursor.answer
      generalize cursor.advance scratch = result at moves
      rcases result with ⟨failure | value, moved, after⟩
      · exact ⟨moves.takes, fun _ => ⟨failure, moves.outcome⟩, fun moved => absurd trivial moved⟩
      · exact ⟨moves.takes, False.elim, fun _ => moves.outcome⟩
  | next =>
      have moves := next_moved placed
      unfold Cursor.answer
      generalize cursor.next scratch = result at moves
      rcases result with ⟨failure | value, moved, after⟩
      · exact ⟨moves.takes, fun _ => ⟨failure, moves.outcome⟩, fun moved => absurd trivial moved⟩
      · exact ⟨moves.takes, False.elim, fun _ => moves.outcome⟩
  | current =>
      have read := (current_agree placed.owner (Or.inr (rfl : scratch.text = scratch.text))).1
      simp only [Cursor.answer]
      rw [read]
      exact ⟨fun _ => id, False.elim, fun _ => placed⟩
  | isDone => exact ⟨fun _ => id, False.elim, fun _ => placed⟩
  | position => exact ⟨fun _ => id, False.elim, fun _ => placed⟩

/-- A cursor is placed as long as no call fails. -/
theorem run_placed (placed : Placed key source cursor scratch) (calls : List Call)
    (moves : ∀ reply ∈ (cursor.run calls scratch).1, ¬ reply.Fails) :
    Placed key source (cursor.run calls scratch).2.1 (cursor.run calls scratch).2.2 := by
  induction calls generalizing cursor scratch with
  | nil => exact placed
  | cons call calls ih =>
      obtain ⟨moved, later⟩ := List.forall_mem_cons.1 moves
      exact ih ((answer_placed placed call).2.2 moved) later

/-- No call fails where the source does not. -/
theorem run_moves (placed : Placed key source cursor scratch)
    (succeeds : ∀ step ∈ cursor.ahead, Succeeds step) (calls : List Call) :
    ∀ reply ∈ (cursor.run calls scratch).1, ¬ reply.Fails := by
  induction calls generalizing cursor scratch with
  | nil => exact nofun
  | cons call calls ih =>
      obtain ⟨ahead, fails, stays⟩ := answer_placed placed call
      have moved : ¬ (cursor.answer call scratch).1.Fails := by
        intro failed
        obtain ⟨failure, there⟩ := fails failed
        obtain ⟨param, same⟩ := succeeds _ there
        cases same
      exact List.forall_mem_cons.2
        ⟨moved, ih (stays moved) fun step member => succeeds step (ahead step member)⟩

theorem current_of_placed (placed : Placed key source cursor scratch)
    (unfinished : cursor.finished = false) {element : Param}
    (held : cursor.element = some element) : cursor.current scratch = (.ok scratch.text, scratch) := by
  simp only [Cursor.current, unfinished, held, transform_eq placed.owner]

end Field

namespace Link

open MagnetUri.Field (Placed)

def HandsOut (view : Selection Field.Error Scratch Param Text) : Prop :=
  ∃ request text link, parse (Settings.ofRequest request) text = .ok link ∧
    ∃ label, ∃ field ∈ link.urlFields label, view = field.2

/-- A selection by the test for a key and the decoded text that it leaves. -/
def SelectsUrls (view : Selection Field.Error Scratch Param Text) : Prop :=
  ∃ key source, view = Field.urls key source

variable {view : Selection Field.Error Scratch Param Text}

theorem selectsUrls_of_handsOut (handed : HandsOut view) :
    SelectsUrls view ∧ ∀ step ∈ view.source.steps, Succeeds step := by
  obtain ⟨request, text, link, accepted, label, field, member, same⟩ := handed
  obtain ⟨params, listed, _⟩ := exists_params_of_parse accepted
  rw [same, urls_of_mem_urlFields member]
  exact ⟨⟨field.1, link.source label, rfl⟩, succeeds_of_mem_source listed label⟩

variable {ι : Type} [DecidableEq ι] {views : ι → Selection Field.Error Scratch Param Text}
  {crew : ι → Cursor Field.Error Scratch Param Text} {labels : ι → Nat}

/-- Cursors over identifiers, moved in turn on a heap where each has storage of its own, reply
what each of them replies to its own calls alone, in any storage at all. Until a move of its
own fails, a cursor gives the decoded text of the element that it stands on, wherever the others
have gone, and over a view of an accepted link no move fails. -/
theorem interleave_keeps_apart
    (urls : ∀ i, HandsOut (views i) ∨ SelectsUrls (views i))
    (starts : ∀ i, crew i = (views i).cursor ∨ crew i = (views i).pastEnd)
    (own : Function.Injective labels) (schedule : List (ι × Call)) (heap : Nat → Scratch) (i : ι) :
    let run := Selection.interleave (fun i => (crew i).within (.cell (labels i))) schedule heap
    let replies := Selection.share i run.1
    (∀ fresh, replies = ((crew i).run (Selection.share i schedule) fresh).1) ∧
    ((∀ reply ∈ replies, ¬ reply.Fails) → ∀ element,
      (run.2.1 i).finished = false → (run.2.1 i).element = some element →
        ∃ value text, element.value? = some value ∧ value.decodeStrict = .ok text ∧
          (run.2.1 i).current run.2.2 = (.ok text, run.2.2)) ∧
    (HandsOut (views i) → ∀ reply ∈ replies, ¬ reply.Fails) := by
  intro run replies
  let place : Place (Nat → Scratch) Scratch := .cell (labels i)
  let alone := (crew i).run (Selection.share i schedule) (place.get heap)
  obtain ⟨replied, state, kept⟩ : replies = alone.1 ∧ run.2.1 i = alone.2.1.within place ∧
      place.get run.2.2 = alone.2.2 :=
    Selection.interleave_within (fun i => Place.cell_lawful (labels i))
      (fun i j different => Place.cell_get_set_of_ne (own.ne different)) crew schedule heap i
  obtain ⟨key, source, view⟩ : SelectsUrls (views i) :=
    (urls i).elim (fun handed => (selectsUrls_of_handsOut handed).1) id
  have owner : (crew i).selection = Field.urls key source := by
    rcases starts i with start | start <;> rw [start, ← view] <;> rfl
  have bare : (crew i).element = none := by
    rcases starts i with start | start <;> rw [start] <;> rfl
  have placed : Placed key source (crew i) (place.get heap) :=
    ⟨owner, fun _ there => by cases bare.symm.trans there⟩
  rw [replied]
  refine ⟨fun fresh => Field.run_agree owner (Or.inl bare) _, ?_, ?_⟩
  · intro moves element unfinished held
    have later : Placed key source alone.2.1 alone.2.2 := Field.run_placed placed _ moves
    rw [state] at unfinished held ⊢
    rw [← kept] at later
    obtain ⟨value, there, decoded⟩ := (later.holds element held).value
    have lawful : place.Lawful := Place.cell_lawful (labels i)
    refine ⟨value, (place.get run.2.2).text, there, decoded, ?_⟩
    rw [Selection.current_within lawful, Field.current_of_placed later unfinished held,
      lawful.set_get]
  · intro handed
    have succeeds : ∀ step ∈ (crew i).ahead, Succeeds step := by
      rcases starts i with start | start <;> rw [start]
      · exact (selectsUrls_of_handsOut handed).2
      · exact nofun
    exact Field.run_moves placed succeeds _

theorem interleave_keeps_apart_trackers :
    let query := "xt=urn:x&tr=udp%3At&ws=http:w".toList
    let link : Link :=
      { uri := { scheme := "magnet".toList, authority := none, path := [], query := some query,
                 fragment := none }
        plusAsSpace := true }
    let views (seeds : Bool) := if seeds then link.webSeeds 0 else link.trackers 0
    let schedule : List (Bool × Call) := [(false, .next), (true, .next), (false, .current)]
    parse Settings.standard ("magnet:?".toList ++ query) = .ok link ∧
      ∀ heap : Nat → Scratch, Selection.share false (Selection.interleave
        (fun seeds => (views seeds).cursor.within (.cell seeds.toNat)) schedule heap).1 =
          [.given (.ok (some "udp:t".toList)), .read (.ok "udp:t".toList)] := by
  intro query link views schedule
  have accepted : parse (Settings.ofRequest fun _ => .other) ("magnet:?".toList ++ query) =
      .ok link := rfl
  refine ⟨accepted, ?_⟩
  intro heap
  have handed (seeds : Bool) : HandsOut (views seeds) ∨ SelectsUrls (views seeds) := by
    refine Or.inl ⟨_, _, link, accepted, 0, ?_⟩
    cases seeds with
    | false => exact ⟨(['t', 'r'], link.trackers 0), by simp [urlFields], rfl⟩
    | true => exact ⟨(['w', 's'], link.webSeeds 0), by simp [urlFields], rfl⟩
  have own : Function.Injective Bool.toNat := by decide
  obtain ⟨same, _⟩ := interleave_keeps_apart handed (fun _ => Or.inl rfl) own schedule heap false
  rw [same (Scratch.ofCapacity 16)]
  decide +kernel

end Link
end MagnetUri

import MagnetUri.Link.Basic
import MagnetUri.Proofs.Field
import MagnetUri.Proofs.Query
import MagnetUri.Proofs.Scratch
import MagnetUri.Proofs.Selection.Position
import MagnetUri.Proofs.Selection.Reading

set_option autoImplicit false

/-! The fields of a link as functions of its parameters. What the accessors find with
cursors and scratch storage is what one reads off the list of the parameters. -/

namespace MagnetUri

namespace Field

variable {key : Text} {param : Param} {scratch : Scratch}

def urlOf? (key : Text) (param : Param) : Option Text :=
  if param.key.spells key then
    (param.value?.bind fun value => Utf8.decode? value.bytes).filter isUri
  else none

theorem urlOf?_of_value {value : Percent.Encoded} (spelled : param.key.spells key = true)
    (there : param.value? = some value) :
    urlOf? key param = (Utf8.decode? value.bytes).filter isUri := by
  rw [urlOf?, if_pos spelled, there]
  rfl

theorem hasUrl_eq {ε : Type} (key : Text) (param : Param) (scratch : Scratch) :
    ∃ after, (hasUrl key param scratch : Except ε Bool × Scratch) =
        (.ok (urlOf? key param).isSome, after) ∧
      ∀ text, urlOf? key param = some text → after.text = text := by
  unfold hasUrl
  cases there : param.value? with
  | none =>
      have nothing : urlOf? key param = none := by
        rw [urlOf?, there]
        split <;> rfl
      rw [nothing]
      refine ⟨scratch, rfl, ?_⟩
      intro text impossible
      cases impossible
  | some value =>
      by_cases spelled : param.key.spells key = true
      · obtain ⟨after, decoded, holds⟩ := Scratch.decode_eq value scratch
        simp only [spelled, if_true, decoded, urlOf?_of_value spelled there,
          Percent.Encoded.decodeStrict]
        cases bytes : Utf8.decode? value.bytes with
        | none =>
            refine ⟨after, rfl, ?_⟩
            intro text impossible
            cases impossible
        | some text =>
            refine ⟨after, ?_, ?_⟩
            · cases tested : isUri text with
              | true => simp [tested]
              | false => simp [tested]
            · intro other found
              obtain ⟨same, _⟩ := Option.filter_eq_some_iff.1 found
              exact holds other (bytes.trans same)
      · have nothing : urlOf? key param = none := by
          rw [urlOf?, if_neg spelled]
        simp only [spelled, nothing]
        refine ⟨scratch, rfl, ?_⟩
        intro text impossible
        cases impossible

def hintOf? (param : Param) : Option Peer :=
  if param.key.spells ['x', '.', 'p', 'e'] then
    param.value?.bind fun value => Peer.ofHint? value.decode
  else none

/-- A hint names a peer or nothing, and only hints do. -/
theorem join_hintOf? (param : Param) : hintOf? param =
    (if isExtension ['p', 'e'] param then some (Peer.ofHint? param.decodedValue) else none).join := by
  unfold hintOf?
  cases there : param.value? with
  | none =>
      have unvalued : isExtension ['p', 'e'] param = false := by
        rw [Bool.eq_false_iff, ne_eq, isExtension_iff, Param.hasValue, there]
        exact fun both => Bool.false_ne_true both.1
      rw [unvalued]
      exact ite_self _
  | some value =>
      have same : isExtension ['p', 'e'] param = param.key.spells ['x', '.', 'p', 'e'] := by
        rw [Bool.eq_iff_iff, isExtension_iff, Percent.Encoded.spells_iff, Param.hasValue, there]
        exact and_iff_right rfl
      rw [same, Param.decodedValue, there]
      split <;> rfl

end Field

namespace Link

open MagnetUri.Field (IsTopic isTopic_iff)

variable {link : Link} {params : List Param}

theorem steps_source (listed : link.query.Lists params) (label : Nat) :
    (link.source label).steps = params.map .ok := by
  change link.query.params.map (·.mapError Field.Error.unreadable) = _
  rw [listed, List.map_map]
  rfl

theorem urls_reads (listed : link.query.Lists params) (key : Text) (label : Nat) :
    (link.urls key label).Reads params (Field.urlOf? key) where
  steps := steps_source listed label
  refuses := by
    intro param _ nothing scratch
    obtain ⟨after, tested, _⟩ := Field.hasUrl_eq key param scratch
    rw [nothing] at tested
    exact ⟨after, tested⟩
  takes := by
    intro param _ text found scratch
    obtain ⟨after, tested, holds⟩ := Field.hasUrl_eq key param scratch
    rw [found] at tested
    have transformed : Field.lastDecoded param after =
        ((.ok text, after) : Except Field.Error Text × Scratch) := by
      rw [Field.lastDecoded, holds text found]
    exact ⟨after, tested, transformed⟩

/-- What a computation gives for a parameter, if that is an exact topic. -/
def atTopic? {α : Type} (transform : Param → Except Field.Error α) (param : Param) : Option α :=
  if Field.isTopic param then (transform param).toOption else none

theorem topics_reads {σ α : Type} {transform : Param → Except Field.Error α}
    (listed : link.query.Lists params)
    (succeeds : ∀ param ∈ params, IsTopic param → Succeeds (transform param)) (label : Nat) :
    (link.topics label transform : Selection Field.Error σ Param α).Reads params
      (atTopic? transform) where
  steps := steps_source listed label
  refuses := by
    intro param member nothing store
    refine ⟨store, ?_⟩
    cases tested : Field.isTopic param with
    | false => exact congrArg (fun verdict => (Except.ok verdict, store)) tested
    | true =>
        obtain ⟨value, transformed⟩ := succeeds param member (isTopic_iff.1 tested)
        rw [atTopic?, if_pos tested, transformed] at nothing
        cases nothing
  takes := by
    intro param member value found store
    rw [atTopic?] at found
    split at found
    next topic =>
      obtain ⟨other, transformed⟩ := succeeds param member (isTopic_iff.1 topic)
      rw [transformed] at found
      cases found
      refine ⟨store, ?_, ?_⟩
      · exact congrArg (fun verdict => (Except.ok verdict, store)) topic
      · exact congrArg (fun outcome => (outcome, store)) transformed
    next => cases found

theorem namedValue?_eq (listed : link.query.Lists params) (key : Text) :
    link.namedValue? key =
      .ok ((params.find? fun param => param.key.spells key).bind Param.value?) := by
  rw [namedValue?, Query.find?, listed, Query.firstWhere_map_ok fun _ => rfl]
  rfl

theorem exactLength?_eq (listed : link.query.Lists params) :
    link.exactLength? = .ok (((params.find? fun param => param.key.spells ['x', 'l']).bind
      Param.value?).bind fun value => safeNumber? value.decode) := by
  rw [exactLength?, namedValue?_eq listed]
  rfl

theorem extension?_eq (listed : link.query.Lists params) (name : Text) :
    link.extension? name = .ok ((params.find? (Field.isExtension name)).bind Param.value?) := by
  rw [extension?, listed, Query.firstWhere_map_ok (Field.testExtension_eq name)]
  rfl

theorem hints_reads {σ : Type} (listed : link.query.Lists params) (label : Nat) :
    (link.hints label : Selection Field.Error σ Param (Option Peer)).Reads params fun param =>
      if Field.isExtension ['p', 'e'] param then some (Peer.ofHint? param.decodedValue)
      else none where
  steps := steps_source listed label
  refuses := by
    intro param _ nothing store
    have other : Field.isExtension ['p', 'e'] param = false := by
      rw [Bool.eq_false_iff]
      intro hint
      rw [if_pos hint] at nothing
      cases nothing
    refine ⟨store, ?_⟩
    change Effect.ofExcept ((Field.testExtension ['p', 'e'] param).mapError _) store = _
    rw [Field.testExtension_eq, other]
    rfl
  takes := by
    intro param _ value found store
    rw [Option.ite_none_right_eq_some, Option.some.injEq] at found
    refine ⟨store, ?_, ?_⟩
    · change Effect.ofExcept ((Field.testExtension ['p', 'e'] param).mapError _) store = _
      rw [Field.testExtension_eq, found.1]
      rfl
    · rw [← found.2]
      rfl

theorem peers_eq (listed : link.query.Lists params) :
    link.peers = .ok (params.filterMap Field.hintOf?) := by
  obtain ⟨after, collected⟩ := (hints_reads listed 0).enumerates.exists_toList ()
  have joined : params.filterMap Field.hintOf? = (params.filterMap fun param =>
      if Field.isExtension ['p', 'e'] param then some (Peer.ofHint? param.decodedValue)
      else none).filterMap id := by
    rw [List.filterMap_filterMap]
    apply List.filterMap_congr
    intro param _
    rw [Field.join_hintOf?]
    rfl
  rw [peers, collected, joined]
  rfl

end Link
end MagnetUri

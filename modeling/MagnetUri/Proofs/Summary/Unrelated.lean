import MagnetUri.Proofs.Summary.Spelling

set_option autoImplicit false

/-! Parameters that nothing reads. A parameter whose key is neither that of an exact topic nor
that of a field of summaries can stand anywhere in a query: the checks pass over it, and so do
all fields. -/

namespace MagnetUri

open Percent (Encoded)

variable {param : Param} {params lefts rights : List Param} {key : Text}

/-- The keys of the fields that a summary takes from a link, but for exact topics. -/
def Summary.keys : List Text :=
  [['d', 'n'], ['t', 'r'], ['w', 's'], ['k', 't'], ['x', 'l'], ['x', '.', 'p', 'e']]

structure Param.Unrelated (param : Param) : Prop where
  noTopic : ¬ Field.IsTopic param
  noField : ∀ key ∈ Summary.keys, param.key.spells key = false

namespace Link

open MagnetUri.Field (IsTopic isTopic isTopic_iff isUri)

theorem map_snd_topicsFrom (index : Nat) (params : List Param) :
    (topicsFrom index params).map Prod.snd = params.filter isTopic := by
  induction params generalizing index with
  | nil => rfl
  | cons first others ih =>
      rw [topicsFrom, List.filter_cons]
      split
      next => rw [List.map_cons, ih]
      next => exact ih (index + 1)

/-- What the checks come to, but for the place of a bad topic, is told by the topics alone. -/
theorem mapError_code_checkTopics (params : List Param) :
    (checkTopics params).mapError Error.code =
      if params.filter isTopic = [] then .error Error.missingTopic.code
      else
        match (params.filter isTopic).find? fun topic => !isUri topic.valueText with
        | some _ => .error (Error.invalidTopic 0).code
        | none => .ok () := by
  have found : (params.filter isTopic).find? (fun topic => !isUri topic.valueText) =
      ((topicsFrom 0 params).find? isBad).map Prod.snd := by
    rw [← map_snd_topicsFrom 0 params]
    exact List.find?_map
  have empty : params.filter isTopic = [] ↔ topicsFrom 0 params = [] := by
    rw [← map_snd_topicsFrom 0 params, List.map_eq_nil_iff]
  rw [checkTopics_eq, found]
  simp only [empty]
  split
  next => rfl
  next => cases (topicsFrom 0 params).find? isBad <;> rfl

theorem filter_isTopic_insert (unrelated : param.Unrelated) :
    (lefts ++ param :: rights).filter isTopic = (lefts ++ rights).filter isTopic := by
  have other : ¬ isTopic param = true := unrelated.noTopic ∘ isTopic_iff.1
  rw [List.filter_append, List.filter_append, List.filter_cons_of_neg other]

def codeOf (result : Except Error Link) : Except String Unit :=
  (outcome result).mapError Error.code

theorem codeOf_eq_ok_iff {result : Except Error Link} :
    codeOf result = .ok () ↔ ∃ link, result = .ok link := by
  cases result with
  | error other => exact iff_of_false nofun nofun
  | ok link => exact iff_of_true rfl ⟨link, rfl⟩

theorem codeOf_eq_error_iff {result : Except Error Link} {code : String} :
    codeOf result = .error code ↔ ∃ error, result = .error error ∧ error.code = code := by
  cases result with
  | error other =>
      constructor
      · intro same
        cases same
        exact ⟨other, rfl, rfl⟩
      · rintro ⟨_, same, equal⟩
        cases same
        exact congrArg Except.error equal
  | ok link => exact iff_of_false nofun nofun

theorem codeOf_check_congr {settings : Settings} {one other : Uri}
    (scheme : one.smallScheme = other.smallScheme)
    (listed : (one.params settings.plusAsSpace).Lists lefts)
    (otherListed : (other.params settings.plusAsSpace).Lists rights)
    (same : (checkTopics lefts).mapError Error.code = (checkTopics rights).mapError Error.code) :
    codeOf (check settings one) = codeOf (check settings other) := by
  have agree : SchemeAllowed settings one ↔ SchemeAllowed settings other := by
    rw [SchemeAllowed, SchemeAllowed, scheme]
  have coded (uri : Uri) (result : Except Error Unit) :
      codeOf (result.map fun _ => { uri, plusAsSpace := settings.plusAsSpace }) =
        result.mapError Error.code := by
    cases result <;> rfl
  by_cases allowed : SchemeAllowed settings one
  · rw [check_of_allowed allowed listed, check_of_allowed (agree.1 allowed) otherListed, coded,
      coded, same]
  · rw [check_of_forbidden allowed, check_of_forbidden (allowed ∘ agree.2)]

end Link

namespace Summary

open Link (Passes atTopic?)

theorem filterMap_insert {α : Type} {field : Param → Option α} (none : field param = none) :
    (lefts ++ param :: rights).filterMap field = (lefts ++ rights).filterMap field := by
  rw [List.filterMap_append, List.filterMap_append, List.filterMap_cons_none none]

theorem valueOf?_insert (unrelated : param.Unrelated) (member : key ∈ keys) :
    valueOf? key (lefts ++ param :: rights) = valueOf? key (lefts ++ rights) := by
  rw [valueOf?, valueOf?, List.find?_append, List.find?_append, List.find?_cons,
    unrelated.noField key member]

theorem urlOf?_of_unrelated (unrelated : param.Unrelated) (member : key ∈ keys) :
    Field.urlOf? key param = none := by
  rw [Field.urlOf?, unrelated.noField key member, if_neg Bool.false_ne_true]

theorem hintOf?_of_unrelated (unrelated : param.Unrelated) : Field.hintOf? param = none := by
  rw [Field.hintOf?, unrelated.noField _ (by decide), if_neg Bool.false_ne_true]

theorem atTopic?_of_unrelated (unrelated : param.Unrelated) :
    atTopic? Field.topicUri param = none := by
  rw [atTopic?, if_neg (unrelated.noTopic ∘ Field.isTopic_iff.1)]

theorem withHash_insert (unrelated : param.Unrelated) (hash : InfoHash) :
    withHash hash (lefts ++ param :: rights) = withHash hash (lefts ++ rights) := by
  unfold withHash
  rw [filterMap_insert (hintOf?_of_unrelated unrelated),
    filterMap_insert (urlOf?_of_unrelated unrelated (by decide)),
    filterMap_insert (urlOf?_of_unrelated unrelated (by decide)),
    valueOf?_insert unrelated (by decide), valueOf?_insert unrelated (by decide),
    valueOf?_insert unrelated (by decide)]

/-- No field of a summary changes with an unrelated parameter. -/
theorem ofParams_insert (unrelated : param.Unrelated) :
    ofParams (lefts ++ param :: rights) = ofParams (lefts ++ rights) := by
  unfold ofParams
  rw [filterMap_insert (atTopic?_of_unrelated unrelated)]
  simp only [withHash_insert unrelated]

end Summary

def Uri.ofPieces (uri : Uri) (pieces : List Text) : Uri :=
  { uri with query := some (Text.join '&' pieces) }

namespace Uri

open Character
open Grammar (Run)

variable {uri : Uri} {query segment text : Text} {before after : List Text}

theorem run_inQuery_join_iff {pieces : List Text} :
    Run inQuery (Text.join '&' pieces) ↔ ∀ piece ∈ pieces, Run inQuery piece := by
  apply Percent.run_join_iff ampersand_separates (by decide) (by decide)
  intro char digit
  have user := Grammar.inUserinfo_of_isUnreserved (Grammar.isUnreserved_of_isHexDigit digit)
  rw [inQuery, inPath, user]
  rfl

theorem parseAbsolute_ofPieces (parsed : parseAbsolute text = .ok uri)
    (asked : uri.query = some query) (split : Text.separate '&' query = before ++ after)
    (written : isRun inQuery segment = true) :
    parseAbsolute (uri.ofPieces (before ++ segment :: after)).text =
      .ok (uri.ofPieces (before ++ segment :: after)) := by
  obtain ⟨_, derives, absolute⟩ := parseAbsolute_eq_ok_iff.1 parsed
  have run := Grammar.mem_query.1 (derives.query query asked)
  rw [← Text.join_separate '&' query, split, run_inQuery_join_iff, List.forall_mem_append] at run
  have widened : Run inQuery (Text.join '&' (before ++ segment :: after)) :=
    run_inQuery_join_iff.2 (List.forall_mem_append.2
      ⟨run.1, List.forall_mem_cons.2 ⟨(Grammar.isRun_iff (by decide)).1 written, run.2⟩⟩)
  refine parseAbsolute_eq_ok_iff.2 ⟨rfl, ?_, absolute⟩
  refine ⟨derives.scheme, derives.authority, derives.path, ?_, derives.fragment⟩
  intro text same
  cases same
  exact Grammar.mem_query.2 widened

theorem params_ofPieces (pieces : List Text) (nonempty : pieces ≠ [])
    (absent : ∀ piece ∈ pieces, '&' ∉ piece) (plusAsSpace : Bool) :
    ((uri.ofPieces pieces).params plusAsSpace).params = pieces.map (Param.read plusAsSpace) := by
  change (Text.separate '&' (Text.join '&' pieces)).map (Param.read plusAsSpace) = _
  rw [Text.separate_join nonempty absent]

/-- One more piece gives one more parameter, at its place among the others. -/
theorem exists_lists_ofPieces {plusAsSpace : Bool}
    (listed : (uri.params plusAsSpace).Lists params) (asked : uri.query = some query)
    (split : Text.separate '&' query = before ++ after) (single : '&' ∉ segment)
    (read : Param.read plusAsSpace segment = .ok param) :
    ∃ lefts rights, params = lefts ++ rights ∧
      ((uri.ofPieces (before ++ segment :: after)).params plusAsSpace).Lists
        (lefts ++ param :: rights) := by
  have steps : (before ++ after).map (Param.read plusAsSpace) = params.map .ok := by
    rw [← split, ← listed]
    unfold Query.params Uri.params
    rw [asked]
    rfl
  rw [List.map_append] at steps
  obtain ⟨lefts, rights, parted, first, last⟩ := List.append_eq_map_iff.1 steps
  refine ⟨lefts, rights, parted, ?_⟩
  have absent : ∀ piece ∈ before ++ segment :: after, '&' ∉ piece := by
    have others : ∀ piece ∈ before ++ after, '&' ∉ piece := fun piece member =>
      Text.not_mem_of_mem_separate (split ▸ member)
    rw [List.forall_mem_append] at others ⊢
    exact ⟨others.1, List.forall_mem_cons.2 ⟨single, others.2⟩⟩
  rw [Query.Lists, params_ofPieces _ (by simp) absent, List.map_append, List.map_cons, read,
    List.map_append, List.map_cons, first, last]

end Uri

namespace Summary

variable {uri : Uri} {query segment text : Text} {before after : List Text}

/-- A parameter that neither links nor summaries look for, put anywhere into the query of an
absolute identifier, makes no difference to whether it is a link or to why it is none, and none
to its summary. -/
theorem parse_unrelated_invariant (parsed : Uri.parseAbsolute text = .ok uri)
    (asked : uri.query = some query) (split : Text.separate '&' query = before ++ after)
    (single : '&' ∉ segment) (written : Uri.isRun Character.inQuery segment = true)
    (read : Param.read true segment = .ok param) (unrelated : param.Unrelated) :
    let widened := uri.ofPieces (before ++ segment :: after)
    Uri.parseAbsolute widened.text = .ok widened ∧
    (∀ request, let settings := Settings.ofRequest request
      ((∃ link, Link.parse settings text = .ok link) ↔
        ∃ link, Link.parse settings widened.text = .ok link) ∧
      ∀ code, (∃ error, Link.parse settings text = .error error ∧ error.code = code) ↔
        ∃ error, Link.parse settings widened.text = .error error ∧ error.code = code) ∧
    ∀ summary, parse text = .ok summary ↔ parse widened.text = .ok summary := by
  intro widened
  have widenedParsed := Uri.parseAbsolute_ofPieces parsed asked split written
  obtain ⟨params, listed⟩ := uri.exists_params (Uri.parseAbsolute_eq_ok_iff.1 parsed).2.1 true
  obtain ⟨lefts, rights, parted, widenedListed⟩ :=
    Uri.exists_lists_ofPieces listed asked split single read
  subst parted
  have scheme : uri.smallScheme = widened.smallScheme := rfl
  have codes (settings : Settings) : Link.codeOf (Link.parse settings text) =
      Link.codeOf (Link.parse settings widened.text) := by
    rw [Link.parse_of_absolute parsed, Link.parse_of_absolute widenedParsed]
    -- The key was decoded with plus signs as spaces, but links may be read with another meaning.
    apply Link.codeOf_check_congr scheme (listed.withPlus settings.plusAsSpace)
      (widenedListed.withPlus settings.plusAsSpace)
    rw [Link.checkTopics_withPlus, Link.checkTopics_withPlus, Link.mapError_code_checkTopics,
      Link.mapError_code_checkTopics, Link.filter_isTopic_insert unrelated]
  refine ⟨widenedParsed, ?_, ?_⟩
  · intro request settings
    constructor
    · rw [← Link.codeOf_eq_ok_iff, ← Link.codeOf_eq_ok_iff, codes]
    · intro code
      rw [← Link.codeOf_eq_error_iff, ← Link.codeOf_eq_error_iff, codes]
  · intro summary
    cases first : Link.parse Settings.standard text with
    | error cause =>
        have rejected := Link.codeOf_eq_error_iff.2 ⟨cause, first, rfl⟩
        rw [codes] at rejected
        obtain ⟨other, second, _⟩ := Link.codeOf_eq_error_iff.1 rejected
        rw [parse_of_rejected first, parse_of_rejected second]
        exact iff_of_false nofun nofun
    | ok link =>
        have accepted := Link.codeOf_eq_ok_iff.2 ⟨link, first⟩
        rw [codes] at accepted
        obtain ⟨other, second⟩ := Link.codeOf_eq_ok_iff.1 accepted
        rw [parse_of_listed parsed listed first,
          parse_of_listed widenedParsed widenedListed second, ofParams_insert unrelated]

/-- A piece between the topic and a tracker, with a key that comes near to the tracker's. -/
theorem parse_unrelated_invariant_between :
    let topic := "xt=urn:btih:".toList ++ List.replicate 40 'C'
    let text := "magnet:?".toList ++ topic ++ "&tr=udp:t".toList
    let widenedText := "magnet:?".toList ++ topic ++ "&t+%72=udp:s&tr=udp:t".toList
    ∃ summary, parse text = .ok summary ∧ parse widenedText = .ok summary ∧
      summary.trackers = some ["udp:t".toList] := by
  intro topic text widenedText
  let uri : Uri :=
    { scheme := "magnet".toList, authority := none, path := []
      query := some (topic ++ "&tr=udp:t".toList), fragment := none }
  let segment := "t+%72=udp:s".toList
  have parsed : Uri.parseAbsolute text = .ok uri := rfl
  have split : Text.separate '&' (topic ++ "&tr=udp:t".toList) =
      [topic] ++ ["tr=udp:t".toList] := rfl
  obtain ⟨param, read, noTopic, noField⟩ : ∃ param, Param.read true segment = .ok param ∧
      ¬ Field.isTopic param = true ∧ ∀ key ∈ keys, param.key.spells key = false :=
    ⟨_, rfl, by decide, by decide⟩
  have same := (parse_unrelated_invariant parsed rfl split (by decide) (by decide) read
    ⟨noTopic ∘ Field.isTopic_iff.2, noField⟩).2.2
  have written : (uri.ofPieces ([topic] ++ segment :: ["tr=udp:t".toList])).text = widenedText := rfl
  have accepted : Link.parse Settings.standard text = .ok { uri, plusAsSpace := true } := rfl
  let params : List Param := ((uri.params true).params.mapM id).toOption.getD []
  have listed : (uri.params true).Lists params := rfl
  obtain ⟨summary, made, trackers⟩ : ∃ summary, ofParams params = .ok summary ∧
      summary.trackers = some ["udp:t".toList] := ⟨_, rfl, rfl⟩
  have found : parse text = .ok summary := (parse_of_listed parsed listed accepted).trans made
  exact ⟨summary, found, written ▸ (same summary).1 found, trackers⟩

end Summary
end MagnetUri

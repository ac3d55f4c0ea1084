import MagnetUri.Proofs.Link.Journal
import MagnetUri.Proofs.Link.Listings

set_option autoImplicit false

/-! One text read under different settings. Only the demand for the magnet scheme decides
whether the text is a link. The meaning of plus signs decides which identifiers are listed
under a key, and leaves the topics, the peers and the length alone. -/

namespace MagnetUri.Link

open MagnetUri.Field (Unspaced)

variable {first second : Settings} {text key : Text} {one other : Link} {params : List Param}
  {uri : Uri}

theorem Qualifies.withPlus (qualifies : Qualifies first uri params)
    (allowed : SchemeAllowed second uri) :
    Qualifies second uri (params.map (Param.withPlus second.plusAsSpace)) := by
  have accepted := checkTopics_eq_ok_iff.2 ⟨qualifies.topic, qualifies.topics⟩
  rw [← checkTopics_withPlus second.plusAsSpace] at accepted
  obtain ⟨topic, topics⟩ := checkTopics_eq_ok_iff.1 accepted
  exact ⟨allowed, qualifies.listed.withPlus second.plusAsSpace, topic, topics⟩

theorem exists_parse_of_allowed (accepted : parse first text = .ok one)
    (allowed : SchemeAllowed second one.uri) :
    ∃ other, parse second text = .ok other ∧ other.uri = one.uri := by
  obtain ⟨_, parsed, params, qualifies⟩ := parse_eq_ok_iff.1 accepted
  refine ⟨{ uri := one.uri, plusAsSpace := second.plusAsSpace }, ?_, rfl⟩
  exact parse_eq_ok_iff.2 ⟨rfl, parsed, _, qualifies.withPlus allowed⟩

/-- Under settings that demand the same of the scheme, a text is rejected with one error or
accepted as one identifier. -/
theorem parse_parse_cases (required : first.requireMagnetScheme = second.requireMagnetScheme)
    (text : Text) :
    (∃ error, parse first text = .error error ∧ parse second text = .error error) ∨
      ∃ one other, parse first text = .ok one ∧ parse second text = .ok other ∧
        one.uri = other.uri := by
  cases found : Uri.read false text with
  | error cause => exact Or.inl ⟨_, parse_of_failed found, parse_of_failed found⟩
  | ok parts =>
      obtain ⟨uri, rest⟩ := parts
      obtain ⟨_, derives, _⟩ := Uri.read_eq_ok_iff.1 found
      obtain ⟨params, listed⟩ := uri.exists_params derives first.plusAsSpace
      have same : outcome (check first uri) = outcome (check second uri) :=
        check_congr required rfl listed (listed.withPlus second.plusAsSpace)
          (checkTopics_withPlus second.plusAsSpace params).symm
      cases checked : check first uri with
      | error error =>
          rw [checked] at same
          have rejected := outcome_eq_error_iff.1 same.symm
          exact Or.inl ⟨error, parse_of_rejected found checked, parse_of_rejected found rejected⟩
      | ok one =>
          rw [checked] at same
          obtain ⟨other, accepted⟩ := outcome_eq_ok_iff.1 same.symm
          rw [parse_of_checked found checked, parse_of_checked found accepted]
          -- What is left over is looked at behind the checks, whatever the settings are.
          by_cases whole : rest = []
          · rw [if_pos whole, if_pos whole]
            refine Or.inr ⟨one, other, rfl, rfl, ?_⟩
            rw [((check_eq_ok_iff derives).1 checked).1, ((check_eq_ok_iff derives).1 accepted).1]
          · rw [if_neg whole, if_neg whole]
            exact Or.inl ⟨_, rfl, rfl⟩

/-- Demanding the magnet scheme takes the links of all other schemes away, and no link else. -/
theorem exists_parse_required_iff (required : first.requireMagnetScheme = true) :
    (∃ link, parse first text = .ok link) ↔
      ∃ link, parse second text = .ok link ∧ link.uri.smallScheme = magnetScheme := by
  constructor
  · intro accepted
    obtain ⟨link, accepted⟩ := accepted
    have magnet : link.uri.smallScheme = magnetScheme := by
      obtain ⟨_, _, _, qualifies⟩ := parse_eq_ok_iff.1 accepted
      exact qualifies.scheme required
    have allowed : SchemeAllowed second link.uri := fun _ => magnet
    obtain ⟨other, otherAccepted, same⟩ := exists_parse_of_allowed accepted allowed
    exact ⟨other, otherAccepted, by rw [same, magnet]⟩
  · intro accepted
    obtain ⟨link, accepted, magnet⟩ := accepted
    have allowed : SchemeAllowed first link.uri := fun _ => magnet
    obtain ⟨other, otherAccepted, _⟩ := exists_parse_of_allowed accepted allowed
    exact ⟨other, otherAccepted⟩

structure SameFields (one other : Link) : Prop where
  uri : one.uri = other.uri
  exactTopics : ∃ topics, ∀ (σ : Type) (label : Nat),
    (one.exactTopics label : Selection Field.Error σ Param Uri).Enumerates topics ∧
      (other.exactTopics label : Selection Field.Error σ Param Uri).Enumerates topics
  topicHashes : ∃ hashes, ∀ (σ : Type) (label : Nat),
    (one.topicHashes label : Selection Field.Error σ Param Text).Enumerates hashes ∧
      (other.topicHashes label : Selection Field.Error σ Param Text).Enumerates hashes
  topicNamespaces : ∃ spaces, ∀ (σ : Type) (label : Nat),
    (one.topicNamespaces label : Selection Field.Error σ Param Text).Enumerates spaces ∧
      (other.topicNamespaces label : Selection Field.Error σ Param Text).Enumerates spaces
  peers : ∃ peers, one.peers = .ok peers ∧ other.peers = .ok peers
  exactLength : ∃ length, one.exactLength? = .ok length ∧ other.exactLength? = .ok length

/-- Where plus signs are spaces, the identifiers under every key are those of the parameters
whose values are written without a plus sign. -/
def ListsUnspaced (spaced plain : Link) : Prop :=
  ∃ params, plain.query.Lists params ∧ ∀ label key spacedUrls plainUrls,
    (key, spacedUrls) ∈ spaced.urlFields label → (key, plainUrls) ∈ plain.urlFields label →
      plainUrls.Enumerates (params.filterMap (Field.urlOf? key)) ∧
      spacedUrls.Enumerates
        ((params.filter fun param => '+' ∉ param.valueText).filterMap (Field.urlOf? key))

theorem filterMap_withPlus {α : Type} {field : Param → Option α} {plusAsSpace : Bool}
    (same : ∀ param, field (param.withPlus plusAsSpace) = field param) (params : List Param) :
    (params.map (Param.withPlus plusAsSpace)).filterMap field = params.filterMap field := by
  rw [List.filterMap_map]
  exact List.filterMap_congr fun param _ => same param

theorem atTopic?_topicUri_withPlus (plusAsSpace : Bool) (param : Param) :
    atTopic? Field.topicUri (param.withPlus plusAsSpace) = atTopic? Field.topicUri param := by
  rw [atTopic?, atTopic?, Field.isTopic_withPlus, Field.topicUri, Field.topicUri,
    Param.valueText_withPlus]

theorem exactLength?_withPlus (listed : one.query.Lists params) {plusAsSpace : Bool}
    (otherListed : other.query.Lists (params.map (Param.withPlus plusAsSpace))) :
    other.exactLength? = one.exactLength? := by
  rw [exactLength?_eq listed, exactLength?_eq otherListed, List.find?_map]
  have keys : (fun param : Param => param.key.spells ['x', 'l']) ∘ Param.withPlus plusAsSpace =
      fun param => param.key.spells ['x', 'l'] := by
    funext param
    exact Field.spells_withPlus (by decide) param.key plusAsSpace
  rw [keys]
  apply congrArg Except.ok
  cases params.find? fun param => param.key.spells ['x', 'l'] with
  | none => rfl
  | some param =>
      obtain ⟨keyText, value?⟩ := param
      cases value? with
      | none => rfl
      | some value => exact Field.safeNumber?_decode_withPlus value plusAsSpace

theorem passes_withPlus {param : Param} (passes : Passes param) (plusAsSpace : Bool) :
    Passes (param.withPlus plusAsSpace) := by
  intro topic
  rw [Param.valueText_withPlus]
  apply passes
  rw [← Field.isTopic_iff, Field.isTopic_withPlus] at topic
  exact Field.isTopic_iff.1 topic

theorem sameFields_of_withPlus (uris : one.uri = other.uri) (listed : one.query.Lists params)
    (passes : ∀ param ∈ params, Passes param) : SameFields one other := by
  have otherListed : other.query.Lists (params.map (Param.withPlus other.plusAsSpace)) := by
    rw [query, ← uris]
    exact listed.withPlus other.plusAsSpace
  have otherPasses : ∀ param ∈ params.map (Param.withPlus other.plusAsSpace), Passes param := by
    intro changed member
    obtain ⟨param, inside, same⟩ := List.mem_map.1 member
    rw [← same]
    exact passes_withPlus (passes param inside) other.plusAsSpace
  have topics := filterMap_withPlus (atTopic?_topicUri_withPlus other.plusAsSpace) params
  have hints := filterMap_withPlus (Field.hintOf?_withPlus other.plusAsSpace) params
  have otherTopics (σ : Type) := exactTopics_enumerate (σ := σ) otherListed otherPasses
  have otherHashes (σ : Type) := topicHashes_enumerate (σ := σ) otherListed otherPasses
  have otherSpaces (σ : Type) := topicNamespaces_enumerate (σ := σ) otherListed otherPasses
  rw [topics] at otherTopics otherHashes otherSpaces
  exact {
    uri := uris
    exactTopics := ⟨_, fun σ label =>
      ⟨exactTopics_enumerate listed passes label, otherTopics σ label⟩⟩
    topicHashes := ⟨_, fun σ label =>
      ⟨topicHashes_enumerate listed passes label, otherHashes σ label⟩⟩
    topicNamespaces := ⟨_, fun σ label =>
      ⟨topicNamespaces_enumerate listed passes label, otherSpaces σ label⟩⟩
    peers := by
      refine ⟨_, peers_eq listed, ?_⟩
      rw [peers_eq otherListed, hints]
    exactLength := ⟨_, exactLength?_eq listed,
      (exactLength?_withPlus listed otherListed).trans (exactLength?_eq listed)⟩ }

theorem listsUnspaced_of_withPlus (uris : one.uri = other.uri) (spaced : one.plusAsSpace = true)
    (listed : other.query.Lists params) : ListsUnspaced one other := by
  have spacedListed : one.query.Lists (params.map (Param.withPlus true)) := by
    rw [query, uris, spaced]
    exact listed.withPlus true
  refine ⟨params, listed, ?_⟩
  intro label key spacedUrls plainUrls spacedMember plainMember
  have unspaced : Unspaced key := by
    simp only [urlFields, List.mem_cons, List.not_mem_nil, or_false, Prod.mk.injEq] at plainMember
    rcases plainMember with same | same | same | same | same <;> rw [same.1] <;> decide
  -- A value with a plus sign holds a space when it is decoded, and no identifier does.
  have kept : (params.map (Param.withPlus true)).filterMap (Field.urlOf? key) =
      (params.filter fun param => '+' ∉ param.valueText).filterMap (Field.urlOf? key) := by
    rw [List.filterMap_map, List.filterMap_filter]
    apply List.filterMap_congr
    intro param _
    rw [Function.comp_apply, Field.urlOf?_withPlus_true unspaced]
    simp only [decide_not, Bool.not_eq_true', decide_eq_false_iff_not, ite_not]
  refine ⟨enumerates_of_mem_urlFields listed plainMember, ?_⟩
  rw [← kept]
  exact enumerates_of_mem_urlFields spacedListed spacedMember

/-- Settings that demand the same of the scheme give a text the same outcome, whatever else is
handed in: one error, or links that agree in all but the identifiers whose plus signs are spaces in
one of them. Demanding the magnet scheme only takes the links of other schemes away. Whoever logs
has no part in the outcome, but that a run ends where its logger fails. -/
theorem parseLogged_noninterference (request otherRequest : Settings.Key → Setting) (text : Text) :
    let first := Settings.ofRequest request
    let second := Settings.ofRequest otherRequest
    ∃ result otherResult, ComesTo first text result ∧ ComesTo second text otherResult ∧
      (first.requireMagnetScheme = second.requireMagnetScheme →
        (∃ error, result = .error error ∧ otherResult = .error error) ∨
        ∃ one other, result = .ok one ∧ otherResult = .ok other ∧ SameFields one other ∧
          (first.plusAsSpace = true → second.plusAsSpace = false → ListsUnspaced one other)) ∧
      (first.requireMagnetScheme = true →
        ((∃ link, result = .ok link) ↔
          ∃ link, otherResult = .ok link ∧ link.uri.smallScheme = magnetScheme)) := by
  intro first second
  refine ⟨_, _, comesTo_parse first text, comesTo_parse second text, ?_, exists_parse_required_iff⟩
  intro required
  rcases parse_parse_cases required text with rejected | accepted
  · exact Or.inl rejected
  · obtain ⟨one, other, read, otherRead, uris⟩ := accepted
    obtain ⟨params, listed, passes⟩ := exists_params_of_parse read
    refine Or.inr
      ⟨one, other, read, otherRead, sameFields_of_withPlus uris listed passes, ?_⟩
    intro spaced _
    obtain ⟨plain, plainListed, _⟩ := exists_params_of_parse otherRead
    have meaning : one.plusAsSpace = true := (parse_eq_ok_iff.1 read).1.trans spaced
    exact listsUnspaced_of_withPlus uris meaning plainListed

/-- One text under two meanings of plus signs, with a logger that writes and one that does not. -/
theorem parseLogged_noninterference_plus :
    let text := "magnet:?xt=urn:x&tr=a+b:c&tr=t:".toList
    let request : Settings.Key → Setting
      | .logLevel => .word "debug"
      | _ => .other
    let otherRequest : Settings.Key → Setting
      | .plusAsSpace => .truth false
      | _ => .other
    let run := (parseLogged (Settings.ofRequest request) (.into .record) text [] :
      Except Empty (Except Error Link) × Log.Journal String)
    let otherRun := (parseLogged (Settings.ofRequest otherRequest) .discard text () :
      Except Empty (Except Error Link) × Unit)
    ∃ spaced plain, run.1 = .ok (.ok spaced) ∧ otherRun.1 = .ok (.ok plain) ∧
      SameFields spaced plain ∧ (spaced.trackers 0).Enumerates ["t:".toList] ∧
      (plain.trackers 0).Enumerates ["a+b:c".toList, "t:".toList] := by
  intro text request otherRequest run otherRun
  let link (plusAsSpace : Bool) : Link :=
    { uri := { scheme := "magnet".toList, authority := none, path := [],
               query := some "xt=urn:x&tr=a+b:c&tr=t:".toList, fragment := none }
      plusAsSpace }
  obtain ⟨result, otherResult, comes, otherComes, shape, _⟩ :=
    parseLogged_noninterference request otherRequest text
  have accepted : run.1 = .ok (.ok (link true)) :=
    congrArg Prod.fst (comesTo_parse (Settings.ofRequest request) text Empty _ (.into .record) [])
  have otherAccepted : otherRun.1 = .ok (.ok (link false)) :=
    congrArg Prod.fst (comesTo_parse (Settings.ofRequest otherRequest) text Empty _ .discard ())
  rw [← comes.eq_of_run accepted, ← otherComes.eq_of_run otherAccepted] at shape
  rcases shape rfl with rejected | shape
  · obtain ⟨_, rejected, _⟩ := rejected
    cases rejected
  · obtain ⟨spaced, plain, read, otherRead, same, lists⟩ := shape
    cases read
    cases otherRead
    obtain ⟨params, listed, urls⟩ := lists rfl rfl
    obtain ⟨plainUrls, spacedUrls⟩ :=
      urls 0 ['t', 'r'] _ _ List.mem_cons_self List.mem_cons_self
    have found : ((link false).query.params.mapM id).toOption.getD [] = params := by
      rw [listed.mapM]
      rfl
    rw [← found] at plainUrls spacedUrls
    have plainSame : (((link false).query.params.mapM id).toOption.getD []).filterMap
        (Field.urlOf? ['t', 'r']) = ["a+b:c".toList, "t:".toList] := by decide
    have spacedSame : ((((link false).query.params.mapM id).toOption.getD []).filter
        fun param => '+' ∉ param.valueText).filterMap (Field.urlOf? ['t', 'r']) =
        ["t:".toList] := by decide
    rw [plainSame] at plainUrls
    rw [spacedSame] at spacedUrls
    exact ⟨_, _, accepted, otherAccepted, same, spacedUrls, plainUrls⟩

/-- Two runs on one text, under settings that differ only in what is logged. One logger has no room
left, and its run gives no link. -/
theorem parseLogged_differs_with_full_log :
    let text := "magnet:?xt=urn:x".toList
    let request : Settings.Key → Setting
      | .logLevel => .word "debug"
      | _ => .other
    let full : Log.Logger String Unit String := fun _ => Effect.ofExcept (.error "no room")
    (Settings.ofRequest request).requireMagnetScheme = Settings.standard.requireMagnetScheme ∧
      (parseLogged (Settings.ofRequest request) full text ()).1 = .error "no room" ∧
      ∃ link, (parseLogged Settings.standard full text ()).1 = .ok (.ok link) := by
  intro text request full
  refine ⟨rfl, (comesTo_parse _ text).fails_iff.2 ⟨rfl, rfl⟩, ?_⟩
  exact ⟨_, congrArg Prod.fst (comesTo_parse Settings.standard text String Unit full ())⟩

end MagnetUri.Link

import MagnetUri.Proofs.Link.Safety

set_option autoImplicit false

/-! What a link lists. The identifiers, the hashes and the hash namespaces of the exact topics
stand side by side; the other identifiers, read through scratch storage, are those that the
parameters hold on their own. -/

namespace MagnetUri.Link

open MagnetUri.Field (splitTopicPath)

variable {σ α β : Type} {link : Link} {params : List Param} {uri : Uri}

theorem atTopic?_map (transform : Param → Except Field.Error α) (change : α → β)
    (param : Param) : atTopic? (fun param => (transform param).map change) param =
      (atTopic? transform param).map change := by
  unfold atTopic?
  by_cases topic : Field.isTopic param = true
  · have mapped : ((transform param).map change).toOption =
        (transform param).toOption.map change := by
      cases transform param <;> rfl
    rw [if_pos topic, if_pos topic]
    exact mapped
  · rw [if_neg topic, if_neg topic]
    rfl

theorem filterMap_atTopic?_map (transform : Param → Except Field.Error α) (change : α → β)
    (params : List Param) :
    params.filterMap (atTopic? fun param => (transform param).map change) =
      (params.filterMap (atTopic? transform)).map change := by
  rw [List.map_filterMap]
  apply List.filterMap_congr
  intro param _
  exact atTopic?_map transform change param

theorem parse_of_atTopic? {param : Param} (found : atTopic? Field.topicUri param = some uri) :
    Uri.parse param.valueText = .ok uri := by
  rw [atTopic?] at found
  split at found
  next =>
    rw [Field.topicUri] at found
    cases parsed : Uri.parse param.valueText with
    | error cause =>
        rw [parsed] at found
        cases found
    | ok topic =>
        rw [parsed] at found
        cases found
        rfl
  next => cases found

theorem derives_of_mem_topics (member : uri ∈ params.filterMap (atTopic? Field.topicUri)) :
    uri.Derives := by
  obtain ⟨param, _, found⟩ := List.mem_filterMap.1 member
  exact (Uri.parse_eq_ok_iff.1 (parse_of_atTopic? found)).2

theorem exactTopics_enumerate (listed : link.query.Lists params)
    (passes : ∀ param ∈ params, Passes param) (label : Nat) :
    (link.exactTopics label : Selection Field.Error σ Param Uri).Enumerates
      (params.filterMap (atTopic? Field.topicUri)) := by
  apply Selection.Reads.enumerates
  apply topics_reads listed
  intro param member
  exact topicUri_succeeds (passes param member)

/-- A change of the identifiers is listed in their order. -/
theorem topics_map_enumerate (listed : link.query.Lists params)
    (passes : ∀ param ∈ params, Passes param) (change : Uri → α) (label : Nat) :
    (link.topics label fun param => (Field.topicUri param).map change :
      Selection Field.Error σ Param α).Enumerates
      ((params.filterMap (atTopic? Field.topicUri)).map change) := by
  rw [← filterMap_atTopic?_map]
  apply Selection.Reads.enumerates
  apply topics_reads listed
  intro param member topic
  exact (topicUri_succeeds (passes param member) topic).map change

theorem topicHashes_enumerate (listed : link.query.Lists params)
    (passes : ∀ param ∈ params, Passes param) (label : Nat) :
    (link.topicHashes label : Selection Field.Error σ Param Text).Enumerates
      ((params.filterMap (atTopic? Field.topicUri)).map fun uri =>
        (splitTopicPath uri.path).2) :=
  topics_map_enumerate listed passes _ label

theorem topicNamespaces_enumerate (listed : link.query.Lists params)
    (passes : ∀ param ∈ params, Passes param) (label : Nat) :
    (link.topicNamespaces label : Selection Field.Error σ Param Text).Enumerates
      ((params.filterMap (atTopic? Field.topicUri)).map fun uri =>
        (splitTopicPath uri.path).1) :=
  topics_map_enumerate listed passes _ label

structure Topic where
  param : Param
  uri : Uri
  hash : Text
  space : Text

def Topic.of (param : Param) (uri : Uri) : Topic where
  param := param
  uri := uri
  hash := (splitTopicPath uri.path).2
  space := (splitTopicPath uri.path).1

structure Topic.Aligned (topic : Topic) : Prop where
  text : topic.uri.text = topic.param.valueText
  readAgain : ∃ again, Uri.parse topic.param.valueText = .ok again ∧ topic.uri.same again = true
  unmarked : ':' ∉ topic.hash
  path : topic.uri.path = topic.space ++ ':' :: topic.hash ∨
    ':' ∉ topic.uri.path ∧ topic.space = [] ∧ topic.hash = topic.uri.path

/-- A selection lists these values, in one pass and in any number of them. -/
structure AlwaysLists (selection : Selection Field.Error σ Param α) (values : List α) : Prop where
  enumerates : selection.Enumerates values
  passes : ∀ count store, (selection.passes count store).1 = .ok (List.replicate count values)

theorem alwaysLists_of_enumerates {selection : Selection Field.Error σ Param α} {values : List α}
    (enumerates : selection.Enumerates values) : AlwaysLists selection values :=
  ⟨enumerates, enumerates.passes⟩

def Topic.ofParam? (param : Param) : Option Topic :=
  (atTopic? Field.topicUri param).map (Topic.of param)

def topicsOf (params : List Param) : List Topic :=
  params.filterMap Topic.ofParam?

theorem Topic.aligned_of_mem {topic : Topic} (member : topic ∈ topicsOf params) :
    topic.Aligned := by
  obtain ⟨param, _, found⟩ := List.mem_filterMap.1 member
  obtain ⟨uri, read, same⟩ := Option.map_eq_some_iff.1 found
  subst same
  have parsed := parse_of_atTopic? read
  have reflexive : uri.same uri = true := by simp [Uri.same]
  obtain ⟨unmarked, path⟩ := Field.splitTopicPath_cases (rfl : splitTopicPath uri.path = _)
  exact ⟨(Uri.parse_eq_ok_iff.1 parsed).1, ⟨uri, parsed, reflexive⟩, unmarked, path⟩

/-- What is told of the topics' identifiers is listed in their order. -/
theorem map_topicsOf {change : Topic → α} {read : Uri → α}
    (reads : ∀ param uri, change (Topic.of param uri) = read uri) (params : List Param) :
    (topicsOf params).map change = (params.filterMap (atTopic? Field.topicUri)).map read := by
  rw [topicsOf, List.map_filterMap, List.map_filterMap]
  apply List.filterMap_congr
  intro param _
  rw [Topic.ofParam?, Option.map_map]
  exact congrArg (Option.map · _) (funext (reads param))

theorem map_param_topicsOf (passes : ∀ param ∈ params, Passes param) :
    (topicsOf params).map Topic.param = params.filter (Field.IsTopic ·) := by
  induction params with
  | nil => rfl
  | cons param others ih =>
      rw [List.forall_mem_cons] at passes
      by_cases topic : Field.IsTopic param
      · obtain ⟨uri, parsed⟩ := passes.1 topic
        have read : Topic.ofParam? param = some (Topic.of param uri) := by
          rw [Topic.ofParam?, atTopic?, if_pos (Field.isTopic_iff.2 topic), Field.topicUri, parsed]
          rfl
        rw [topicsOf, List.filterMap_cons_some read, List.map_cons, List.filter_cons,
          if_pos (decide_eq_true topic)]
        exact congrArg (param :: ·) (ih passes.2)
      · have none : Topic.ofParam? param = none := by
          rw [Topic.ofParam?, atTopic?, if_neg fun accepted => topic (Field.isTopic_iff.1 accepted)]
          rfl
        rw [topicsOf, List.filterMap_cons_none none, List.filter_cons,
          if_neg fun accepted => topic (of_decide_eq_true accepted)]
        exact ih passes.2

/-- The three listings of a link's exact topics run side by side, in the order of its query: one
identifier for each parameter with the key of a topic, and the two parts of its path. -/
theorem topics_stay_aligned (settings : Settings) (text : Text) (link : Link)
    (accepted : parse settings text = .ok link) :
    ∃ params topics, link.query.Lists params ∧ topics ≠ [] ∧
      topics.map Topic.param = params.filter (Field.IsTopic ·) ∧
      (∀ topic ∈ topics, topic.Aligned) ∧
      ∀ (σ : Type) (label : Nat),
        AlwaysLists (link.exactTopics label : Selection Field.Error σ Param Uri)
          (topics.map Topic.uri) ∧
        AlwaysLists (link.topicHashes label : Selection Field.Error σ Param Text)
          (topics.map Topic.hash) ∧
        AlwaysLists (link.topicNamespaces label : Selection Field.Error σ Param Text)
          (topics.map Topic.space) := by
  obtain ⟨plus, _, params, qualifies⟩ := parse_eq_ok_iff.1 accepted
  have listed : link.query.Lists params := by
    rw [query, plus]
    exact qualifies.listed
  have sources := map_param_topicsOf qualifies.topics
  refine ⟨params, topicsOf params, listed, ?_, sources, fun _ => Topic.aligned_of_mem, ?_⟩
  · intro empty
    obtain ⟨param, member, topic⟩ := qualifies.topic
    have kept : param ∈ params.filter (Field.IsTopic ·) :=
      List.mem_filter.2 ⟨member, decide_eq_true topic⟩
    rw [← sources, empty] at kept
    cases kept
  · intro σ label
    refine ⟨?_, ?_, ?_⟩
    · rw [map_topicsOf (fun _ _ => rfl), List.map_id']
      exact alwaysLists_of_enumerates (exactTopics_enumerate listed qualifies.topics label)
    · rw [map_topicsOf (fun _ _ => rfl)]
      exact alwaysLists_of_enumerates (topicHashes_enumerate listed qualifies.topics label)
    · rw [map_topicsOf (fun _ _ => rfl)]
      exact alwaysLists_of_enumerates (topicNamespaces_enumerate listed qualifies.topics label)

/-- Two topics around a name: one path has two colons, the other none. -/
theorem topics_stay_aligned_pair :
    ∃ link, parse Settings.standard "magnet:?xt=urn:tree:tiger:ab&dn=x&xt.1=urn:cd".toList =
        .ok link ∧
      ∃ topics : List Topic, topics ≠ [] ∧ (∀ topic ∈ topics, topic.Aligned) ∧
        AlwaysLists (link.topicHashes 0 : Selection Field.Error Unit Param Text)
          (topics.map Topic.hash) := by
  obtain ⟨link, accepted⟩ : ∃ link, parse Settings.standard
      "magnet:?xt=urn:tree:tiger:ab&dn=x&xt.1=urn:cd".toList = .ok link := ⟨_, rfl⟩
  obtain ⟨_, topics, _, there, _, aligned, lists⟩ := topics_stay_aligned _ _ link accepted
  exact ⟨link, accepted, topics, there, aligned, (lists Unit 0).2.1⟩

end MagnetUri.Link

namespace MagnetUri

namespace Field

variable {key text : Text} {param : Param}

structure HoldsUrl (key : Text) (param : Param) (text : Text) : Prop where
  key : param.key.bytes = Utf8.encode key
  value : ∃ value, param.value? = some value ∧ value.decodeStrict = .ok text
  uri : ∃ uri, Uri.parse text = .ok uri

theorem urlOf?_eq_some_iff : urlOf? key param = some text ↔ HoldsUrl key param text := by
  constructor
  · intro found
    by_cases spelled : param.key.spells key = true
    · cases there : param.value? with
      | none =>
          rw [urlOf?, if_pos spelled, there] at found
          cases found
      | some value =>
          rw [urlOf?_of_value spelled there, Option.filter_eq_some_iff] at found
          have decoded : value.decodeStrict = .ok text := by
            rw [Percent.Encoded.decodeStrict, found.1]
          exact ⟨Percent.Encoded.spells_iff.1 spelled, ⟨value, there, decoded⟩,
            isUri_iff.1 found.2⟩
    · rw [urlOf?, if_neg spelled] at found
      cases found
  · intro holds
    obtain ⟨value, there, decoded⟩ := holds.value
    have plain : Utf8.decode? value.bytes = some text := by
      unfold Percent.Encoded.decodeStrict at decoded
      split at decoded
      next other found =>
        cases decoded
        exact found
      next => cases decoded
    rw [urlOf?_of_value (Percent.Encoded.spells_iff.2 holds.key) there, Option.filter_eq_some_iff]
    exact ⟨plain, isUri_iff.2 holds.uri⟩

end Field

namespace Link

/-- The selections of identifiers, each behind the key that it looks for. -/
def urlFields (link : Link) (label : Nat) :
    List (Text × Selection Field.Error Scratch Param Text) :=
  [(['t', 'r'], link.trackers label), (['x', 's'], link.exactSources label),
    (['a', 's'], link.acceptableSources label), (['m', 't'], link.manifests label),
    (['w', 's'], link.webSeeds label)]

variable {link : Link} {params : List Param}

theorem urls_of_mem_urlFields {label : Nat}
    {field : Text × Selection Field.Error Scratch Param Text}
    (member : field ∈ link.urlFields label) : field.2 = link.urls field.1 label := by
  simp only [urlFields, List.mem_cons, List.not_mem_nil, or_false] at member
  rcases member with same | same | same | same | same <;> rw [same] <;> rfl

theorem enumerates_of_mem_urlFields (listed : link.query.Lists params) {label : Nat}
    {field : Text × Selection Field.Error Scratch Param Text}
    (member : field ∈ link.urlFields label) :
    field.2.Enumerates (params.filterMap (Field.urlOf? field.1)) := by
  rw [urls_of_mem_urlFields member]
  exact (urls_reads listed field.1 label).enumerates

/-- Every pass over the identifiers under a key finds those that the parameters hold on their
own, whatever was in the storage, and so does a pass over the storage that a pass has left. -/
theorem urlFields_enumerate {request : Settings.Key → Setting} {text : Text} {link : Link}
    (accepted : parse (Settings.ofRequest request) text = .ok link) :
    ∃ params, link.query.Lists params ∧
      ∀ label, ∀ field ∈ link.urlFields label, ∃ urlOf? : Param → Option Text,
        (∀ param url, urlOf? param = some url ↔ Field.HoldsUrl field.1 param url) ∧
        field.2.Enumerates (params.filterMap urlOf?) ∧
        ∀ scratch, (field.2.toList (field.2.toList scratch).2).1 =
          .ok (params.filterMap urlOf?) := by
  obtain ⟨params, listed, _⟩ := exists_params_of_parse accepted
  refine ⟨params, listed, ?_⟩
  intro label field member
  have enumerates := enumerates_of_mem_urlFields listed member
  refine ⟨Field.urlOf? field.1, fun _ _ => Field.urlOf?_eq_some_iff, enumerates, ?_⟩
  intro scratch
  exact enumerates.toList _

theorem urlFields_enumerate_trackers :
    let query := "xt=urn:x&tr=udp%3At&tr=%FF&tr=t&tr&t%72=x:".toList
    let link : Link :=
      { uri := { scheme := "magnet".toList, authority := none, path := [], query := some query,
                 fragment := none }
        plusAsSpace := true }
    parse Settings.standard ("magnet:?".toList ++ query) = .ok link ∧
      (link.trackers 0).Enumerates ["udp:t".toList, "x:".toList] := by
  intro query link
  have accepted : parse (Settings.ofRequest fun _ => .other) ("magnet:?".toList ++ query) =
      .ok link := rfl
  obtain ⟨params, listed, fields⟩ := urlFields_enumerate accepted
  obtain ⟨urlOf?, holds, enumerates, _⟩ := fields 0 (['t', 'r'], link.trackers 0) List.mem_cons_self
  have same : urlOf? = Field.urlOf? ['t', 'r'] := by
    funext param
    apply Option.ext
    intro url
    rw [holds, Field.urlOf?_eq_some_iff]
  have found : (link.query.params.mapM id).toOption.getD [] = params := by
    rw [listed.mapM]
    rfl
  have urls : ((link.query.params.mapM id).toOption.getD []).filterMap (Field.urlOf? ['t', 'r']) =
      ["udp:t".toList, "x:".toList] := by decide
  rw [same, ← found, urls] at enumerates
  exact ⟨accepted, enumerates⟩

end Link
end MagnetUri

import MagnetUri.Proofs.Link.Draft
import MagnetUri.Proofs.Summary

set_option autoImplicit false

/-! Summaries of links that were written. The hash and the addresses come back as they were
given, and nothing comes back that was not given. So does a name, but for a byte order mark in
front. -/

namespace MagnetUri.Link.Draft

variable {draft : Draft} {topic : Param} {further : List Param}

theorem Params.known (params : Params draft topic further) : ∀ param ∈ topic :: further,
    ∃ key ∈ [['x', 't'], ['d', 'n'], ['t', 'r'], ['w', 's']],
      param.key.bytes = Utf8.encode key := by
  intro param member
  rcases List.mem_cons.1 member with same | later
  · rw [same]
    exact ⟨['x', 't'], List.mem_cons_self, params.topicBytes⟩
  · obtain ⟨key, inside, bytes⟩ := params.keyBytes later
    exact ⟨key, List.mem_cons_of_mem _ inside, bytes⟩

theorem Params.absent (params : Params draft topic further) {key : Text}
    (other : key ∉ [['x', 't'], ['d', 'n'], ['t', 'r'], ['w', 's']]) :
    ∀ param ∈ topic :: further, param.key.bytes ≠ Utf8.encode key := by
  intro param member same
  obtain ⟨known, inside, bytes⟩ := params.known param member
  have equal : known = key := Utf8.encode_injective (bytes.symm.trans same)
  exact other (equal ▸ inside)

theorem Params.valueOf?_of_absent (params : Params draft topic further) {key : Text}
    (other : key ∉ [['x', 't'], ['d', 'n'], ['t', 'r'], ['w', 's']]) :
    Summary.valueOf? key (topic :: further) = none := by
  have none : (topic :: further).find? (fun param => param.key.spells key) = none := by
    apply List.find?_eq_none.2
    intro param member spelled
    exact params.absent other param member (Percent.Encoded.spells_iff.1 spelled)
  rw [Summary.valueOf?, none]
  rfl

theorem Params.no_hint (params : Params draft topic further) :
    (topic :: further).filterMap Field.hintOf? = [] := by
  apply List.filterMap_eq_nil_iff.2
  intro param member
  have other : ¬ param.key.spells ['x', '.', 'p', 'e'] = true := by
    rw [Percent.Encoded.spells_iff]
    exact params.absent (by decide) param member
  rw [Field.hintOf?, if_neg other]

theorem Params.topics (hex : InfoHash.IsHex draft.infoHash) (params : Params draft topic further) :
    (topic :: further).filterMap (atTopic? Field.topicUri) = [draft.topicUri] := by
  have first : atTopic? Field.topicUri topic = some draft.topicUri := by
    rw [atTopic?, if_pos params.isTopic_topic, Field.topicUri, params.valueText,
      parse_topicValue hex]
    rfl
  have others : further.filterMap (atTopic? Field.topicUri) = [] := by
    apply List.filterMap_eq_nil_iff.2
    intro param member
    rw [atTopic?, params.isTopic_further member]
    rfl
  rw [List.filterMap_cons_some first, others]

theorem btihHash?_topicUri (draft : Draft) :
    Summary.btihHash? draft.topicUri = some draft.infoHash := by
  have scheme : draft.topicUri.smallScheme = Summary.urnScheme :=
    (by decide : ['u', 'r', 'n'].map Character.small = Summary.urnScheme)
  have lead : (draft.topicUri.path.take Summary.btihLead.length).map Character.small =
      Summary.btihLead :=
    (by decide : ['b', 't', 'i', 'h', ':'].map Character.small = Summary.btihLead)
  rw [Summary.btihHash?, if_pos ⟨scheme, lead⟩]
  rfl

/-- Identifiers are ASCII, so none of them begins with a byte order mark. -/
theorem decode?_encode_of_isUri {text : Text} (accepted : Field.isUri text = true) :
    Utf8.decode? (Utf8.encode text) = some text := by
  apply Utf8.decode?_encode
  intro mark
  obtain ⟨uri, parsed⟩ := Field.isUri_iff.1 accepted
  obtain ⟨joined, derives⟩ := Uri.parse_eq_ok_iff.1 parsed
  have member : '\uFEFF' ∈ uri.text := by
    rw [joined]
    exact List.mem_of_head? mark
  have ascii := derives.isAscii member
  revert ascii
  decide

def valueAt? (key : Text) (field : Text × Text) : Option Text :=
  if field.1 = key then some field.2 else none

theorem urlOf?_of_carries {key : Text} {field : Text × Text} {param : Param}
    (carries : Carries field param) (accepted : field.1 = key → Field.isUri field.2 = true) :
    Field.urlOf? key param = valueAt? key field := by
  by_cases same : field.1 = key
  · obtain ⟨value, there, bytes⟩ := carries.value
    have spelled : param.key.spells key = true := by
      rw [Percent.Encoded.spells_iff, carries.keyBytes, same]
    rw [Field.urlOf?_of_value spelled there, bytes, decode?_encode_of_isUri (accepted same),
      Option.filter_some, if_pos (accepted same), valueAt?, if_pos same]
  · have other : ¬ param.key.spells key = true := by
      intro spelled
      rw [Percent.Encoded.spells_iff, carries.keyBytes] at spelled
      exact same (Utf8.encode_injective spelled)
    rw [Field.urlOf?, if_neg other, valueAt?, if_neg same]

theorem filterMap_urlOf? {key : Text} {written : List (Text × Text)} {params : List Param}
    (carried : List.Forall₂ Carries written params)
    (accepted : ∀ field ∈ written, field.1 = key → Field.isUri field.2 = true) :
    params.filterMap (Field.urlOf? key) = written.filterMap (valueAt? key) := by
  induction carried with
  | nil => rfl
  | @cons field param _ _ carries _ ih =>
      rw [List.forall_mem_cons] at accepted
      rw [List.filterMap_cons, List.filterMap_cons, urlOf?_of_carries carries accepted.1,
        ih accepted.2]

theorem filterMap_valueAt?_same (key : Text) (values : List Text) :
    (values.map (key, ·)).filterMap (valueAt? key) = values := by
  have each : valueAt? key ∘ (key, ·) = some := by
    funext value
    rw [Function.comp, valueAt?, if_pos rfl]
  rw [List.filterMap_map, each, List.filterMap_some]

theorem filterMap_valueAt?_other {key other : Text} (different : other ≠ key)
    (values : List Text) : (values.map (other, ·)).filterMap (valueAt? key) = [] := by
  apply List.filterMap_eq_nil_iff.2
  intro field member
  obtain ⟨value, _, same⟩ := List.mem_map.1 member
  rw [← same, valueAt?, if_neg different]

theorem filterMap_fields (draft : Draft) (key : Text) (noName : ['d', 'n'] ≠ key) :
    draft.fields.filterMap (valueAt? key) =
      ((draft.trackers.getD []).map (['t', 'r'], ·)).filterMap (valueAt? key) ++
        ((draft.webSeeds.getD []).map (['w', 's'], ·)).filterMap (valueAt? key) := by
  unfold fields
  rw [List.filterMap_append, List.filterMap_append]
  match draft.name with
  | none => rfl
  | some [] => rfl
  | some (first :: rest) =>
      have unnamed : valueAt? key (['d', 'n'], first :: rest) = none := by
        rw [valueAt?, if_neg noName]
      rw [List.filterMap_cons_none unnamed]
      rfl

theorem Params.urls (params : Params draft topic further) {key : Text} (noTopic : ['x', 't'] ≠ key)
    (accepted : ∀ field ∈ draft.fields, field.1 = key → Field.isUri field.2 = true) :
    (topic :: further).filterMap (Field.urlOf? key) = draft.fields.filterMap (valueAt? key) := by
  have unspelled : ¬ topic.key.spells key = true := by
    intro spelled
    rw [Percent.Encoded.spells_iff, params.topicBytes] at spelled
    exact noTopic (Utf8.encode_injective spelled)
  have first : Field.urlOf? key topic = none := by
    rw [Field.urlOf?, if_neg unspelled]
  rw [List.filterMap_cons_none first, filterMap_urlOf? params.further accepted]

theorem Params.trackers (params : Params draft topic further)
    (accepted : ∀ url ∈ draft.trackers.getD [], Field.isUri url = true) :
    (topic :: further).filterMap (Field.urlOf? ['t', 'r']) = draft.trackers.getD [] := by
  rw [params.urls (by decide), filterMap_fields draft _ (by decide), filterMap_valueAt?_same,
    filterMap_valueAt?_other (by decide), List.append_nil]
  intro field member same
  rcases mem_fields_cases member with named | ⟨_, inside⟩ | ⟨seed, _⟩
  · cases named.symm.trans same
  · exact accepted field.2 inside
  · cases seed.symm.trans same

theorem Params.webSeeds (params : Params draft topic further)
    (accepted : ∀ url ∈ draft.webSeeds.getD [], Field.isUri url = true) :
    (topic :: further).filterMap (Field.urlOf? ['w', 's']) = draft.webSeeds.getD [] := by
  rw [params.urls (by decide), filterMap_fields draft _ (by decide), filterMap_valueAt?_same,
    filterMap_valueAt?_other (by decide), List.nil_append]
  intro field member same
  rcases mem_fields_cases member with named | ⟨tracker, _⟩ | ⟨_, inside⟩
  · cases named.symm.trans same
  · cases tracker.symm.trans same
  · exact accepted field.2 inside

theorem parse_summary (hex : InfoHash.IsHex draft.infoHash)
    (params : Params draft topic further) :
    ∃ hash : InfoHash, hash.toHex = draft.infoHash ∧
      Summary.parse draft.text = .ok (Summary.withHash hash (topic :: further)) := by
  obtain ⟨hash, parsed, written⟩ := InfoHash.parse_of_isHex hex
  refine ⟨hash, written, ?_⟩
  have read : Summary.ofLink draft.link = Summary.ofParams (topic :: further) :=
    Summary.ofLink_eq_ofParams params.listed (params.passes hex)
  rw [Summary.parse, parse_text hex]
  simp only [read, Summary.ofParams, params.topics hex, List.findSome?_cons,
    btihHash?_topicUri, parsed]

/-- A draft's link is read back: its parameters are the fields of the draft and nothing
else, and its summary has the hash and, if they are identifiers, all addresses. Lists that are
absent or empty are absent there, and so is all that no draft has. -/
theorem text_reads_back (draft : Draft) (hex : InfoHash.IsHex draft.infoHash) :
    (∃ link topic further, parse Settings.standard draft.text = .ok link ∧
      (link.uri.params true).Lists (topic :: further) ∧ topic.key.text = ['x', 't'] ∧
      topic.value?.map Percent.Encoded.text =
        some (['u', 'r', 'n', ':', 'b', 't', 'i', 'h', ':'] ++ draft.infoHash) ∧
      List.Forall₂ Carries draft.fields further) ∧
    ((∀ url ∈ draft.trackers.getD [] ++ draft.webSeeds.getD [], ∃ uri, Uri.parse url = .ok uri) →
      ∃ summary, Summary.parse draft.text = .ok summary ∧
        summary.infoHash.toHex = draft.infoHash ∧
        Summary.Holds summary.trackers (draft.trackers.getD []) ∧
        Summary.Holds summary.webSeeds (draft.webSeeds.getD []) ∧
        summary.peers = none ∧ summary.exactLength = none ∧ summary.keywords = none) := by
  obtain ⟨topic, further, params⟩ := exists_draftParams hex
  constructor
  · exact ⟨draft.link, topic, further, parse_text hex, params.listed, params.topicKey,
      params.topicValue, params.further⟩
  · intro accepted
    have uris : ∀ url ∈ draft.trackers.getD [] ++ draft.webSeeds.getD [],
        Field.isUri url = true := fun url member => Field.isUri_iff.2 (accepted url member)
    have trackers := params.trackers fun url member => uris url (List.mem_append_left _ member)
    have webSeeds := params.webSeeds fun url member => uris url (List.mem_append_right _ member)
    have noLength : Summary.valueOf? ['x', 'l'] (topic :: further) = none :=
      params.valueOf?_of_absent (by decide)
    have noKeywords : Summary.valueOf? ['k', 't'] (topic :: further) = none :=
      params.valueOf?_of_absent (by decide)
    obtain ⟨hash, written, read⟩ := parse_summary hex params
    refine ⟨_, read, written, ?_⟩
    rw [Summary.withHash, trackers, webSeeds, params.no_hint, noLength, noKeywords]
    exact ⟨Summary.holds_ifAny _, Summary.holds_ifAny _, rfl, rfl, rfl⟩

theorem text_reads_back_tracker :
    let draft : Draft :=
      { infoHash := List.replicate 40 'c', name := some ['a', ' ', '+'],
        trackers := some [['u', 'd', 'p', ':', 't'], ['u', 'd', 'p', ':', 't']],
        webSeeds := some [] }
    InfoHash.IsHex draft.infoHash ∧ ∃ summary, Summary.parse draft.text = .ok summary ∧
      summary.infoHash.toHex = draft.infoHash ∧
      summary.trackers = some [['u', 'd', 'p', ':', 't'], ['u', 'd', 'p', ':', 't']] ∧
      summary.webSeeds = none := by
  intro draft
  have hex : InfoHash.IsHex draft.infoHash := by
    refine ⟨by decide, ?_⟩
    intro char member
    rw [List.eq_of_mem_replicate member]
    decide
  have accepted : ∀ url ∈ draft.trackers.getD [] ++ draft.webSeeds.getD [],
      ∃ uri, Uri.parse url = .ok uri := by
    intro url member
    have same : url = ['u', 'd', 'p', ':', 't'] := by simpa [draft] using member
    rw [same]
    exact ⟨_, rfl⟩
  obtain ⟨summary, read, hash, trackers, webSeeds, _⟩ := (text_reads_back draft hex).2 accepted
  refine ⟨hex, summary, read, hash, ?_, ?_⟩
  · exact (trackers.resolve_left fun absent => List.cons_ne_nil _ _ absent.2).1
  · exact (webSeeds.resolve_right fun there => there.2 rfl).1

end MagnetUri.Link.Draft

namespace MagnetUri

namespace Link.Draft

variable {draft : Draft} {topic : Param} {further : List Param}

theorem Params.valueOf?_name {name : Text} (params : Params draft topic further)
    (given : draft.name = some name) (there : name ≠ []) : ∃ value,
      Summary.valueOf? ['d', 'n'] (topic :: further) = some value ∧
        value.bytes = Utf8.encode name := by
  have carried := params.further
  unfold fields at carried
  match name, given, there with
  | first :: rest, given, _ =>
      rw [given] at carried
      cases carried with
      | @cons _ param _ others carries later =>
          obtain ⟨value, present, bytes⟩ := carries.value
          refine ⟨value, Summary.valueOf?_eq_some_iff.2 ?_, bytes⟩
          refine ⟨[topic], param, others, rfl, carries.keyBytes, present, ?_⟩
          intro other member
          rw [List.mem_singleton.1 member, params.topicBytes]
          decide

theorem exists_named_summary {name : Text} (hex : InfoHash.IsHex draft.infoHash)
    (given : draft.name = some name) (there : name ≠ []) :
    ∃ summary, Summary.parse draft.text = .ok summary ∧
      summary.name = Summary.ifAny (Utf8.withoutMark name) := by
  obtain ⟨topic, further, params⟩ := exists_draftParams hex
  obtain ⟨hash, _, read⟩ := parse_summary hex params
  obtain ⟨value, found, bytes⟩ := params.valueOf?_name given there
  refine ⟨_, read, ?_⟩
  rw [Summary.withHash, found, ← Utf8.decodeLossy_encode, ← bytes]
  rfl

/-- A draft's name is read back from its link, unless it begins with a byte order mark. Such a name
loses the mark, and is no name any more if there is nothing else. -/
theorem name_reads_back_unless_marked (draft : Draft) (hex : InfoHash.IsHex draft.infoHash)
    (name : Text) (given : draft.name = some name) (there : name ≠ []) :
    ∃ summary, Summary.parse draft.text = .ok summary ∧
      (summary.name = some name ↔ name.head? ≠ some '\uFEFF') ∧
      ∀ rest, name = '\uFEFF' :: rest →
        summary.name = if rest = [] then none else some rest := by
  obtain ⟨summary, read, named⟩ := exists_named_summary hex given there
  refine ⟨summary, read, ?_, ?_⟩
  · rw [named, Summary.ifAny_eq_some_iff, Utf8.withoutMark_eq_self_iff]
    exact and_iff_right there
  · intro rest marked
    rw [named, marked, Utf8.withoutMark_mark]
    cases rest with
    | nil => rfl
    | cons char others => rfl

/-- A name of marks, signs and spaces, and one of a byte order mark alone. -/
theorem name_reads_back_unmarked :
    (let draft : Draft :=
      { infoHash := List.replicate 40 'c', name := some ['%', '+', ' ', '\uFEFF'], trackers := none
        webSeeds := some [['?']] }
    ∃ summary, Summary.parse draft.text = .ok summary ∧
      summary.name = some ['%', '+', ' ', '\uFEFF']) ∧
    let draft : Draft :=
      { infoHash := List.replicate 40 'c', name := some ['\uFEFF'], trackers := none
        webSeeds := none }
    ∃ summary, Summary.parse draft.text = .ok summary ∧ summary.name = none := by
  have hex := InfoHash.isHex_replicate (by decide : Character.isSmallHexDigit 'c' = true)
  constructor
  · intro draft
    obtain ⟨summary, read, kept, _⟩ := name_reads_back_unless_marked draft hex
      ['%', '+', ' ', '\uFEFF'] rfl (List.cons_ne_nil _ _)
    exact ⟨summary, read, kept.2 (by decide)⟩
  · intro draft
    obtain ⟨summary, read, _, marked⟩ :=
      name_reads_back_unless_marked draft hex ['\uFEFF'] rfl (List.cons_ne_nil _ _)
    exact ⟨summary, read, marked [] rfl⟩

/-- A name that begins with a byte order mark comes back without it. -/
theorem marked_name_reads_back_changed :
    let draft : Draft :=
      { infoHash := List.replicate 40 'c', name := some ['\uFEFF', 'a'], trackers := none
        webSeeds := none }
    InfoHash.IsHex draft.infoHash ∧ ∃ summary, Summary.parse draft.text = .ok summary ∧
      summary.name = some ['a'] ∧ summary.name ≠ draft.name := by
  intro draft
  have hex : InfoHash.IsHex draft.infoHash := InfoHash.isHex_replicate (by decide)
  obtain ⟨summary, read, named⟩ := exists_named_summary hex rfl (List.cons_ne_nil _ _)
  have changed : summary.name = some ['a'] := named
  exact ⟨hex, summary, read, changed, changed ▸ by decide⟩

end Link.Draft
end MagnetUri

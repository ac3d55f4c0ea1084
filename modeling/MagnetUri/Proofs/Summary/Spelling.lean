import MagnetUri.Proofs.Link.Comparison
import MagnetUri.Proofs.Summary

set_option autoImplicit false

/-! Links that spell the same in different ways. An exact topic is encoded once, so its value
counts as it is written; every key and every other value counts by its decoded bytes. Texts
that agree in these are links together, and then they have one summary. -/

namespace MagnetUri

open Percent (Encoded)

structure Param.Respells (left right : Param) : Prop where
  hasValue : left.hasValue = right.hasValue
  key : left.key.bytes = right.key.bytes
  topic : Field.IsTopic left → left.valueText = right.valueText
  value : ¬ Field.IsTopic left → left.value?.map Encoded.bytes = right.value?.map Encoded.bytes

open Param (Respells)

variable {left right : Param} {lefts rights : List Param} {key : Text}

theorem Param.respells_iff : Respells left right ↔
    left.hasValue = right.hasValue ∧ left.key.bytes = right.key.bytes ∧
      if Field.isTopic left then left.valueText = right.valueText
      else left.value?.map Encoded.bytes = right.value?.map Encoded.bytes := by
  constructor
  · intro respells
    refine ⟨respells.hasValue, respells.key, ?_⟩
    split
    next topic => exact respells.topic (Field.isTopic_iff.1 topic)
    next other => exact respells.value (other ∘ Field.isTopic_iff.2)
  · intro tested
    obtain ⟨hasValue, key, rest⟩ := tested
    by_cases topic : Field.isTopic left = true
    · rw [if_pos topic] at rest
      exact ⟨hasValue, key, fun _ => rest, fun other => absurd (Field.isTopic_iff.1 topic) other⟩
    · rw [if_neg topic] at rest
      exact ⟨hasValue, key, fun other => absurd (Field.isTopic_iff.2 other) topic, fun _ => rest⟩

instance : DecidableRel Respells := fun _ _ =>
  decidable_of_iff _ Param.respells_iff.symm

namespace Field

theorem sameTopic_of_respells (respells : Respells left right) : Link.SameTopic left right where
  isTopic := congrArg isTopicKey respells.key
  written := respells.topic

theorem spells_of_respells (respells : Respells left right) (key : Text) :
    left.key.spells key = right.key.spells key := by
  rw [Bool.eq_iff_iff, Encoded.spells_iff, Encoded.spells_iff, respells.key]

/-- The values under any key but those of exact topics count by their bytes. -/
theorem map_bytes_of_respells (respells : Respells left right)
    (other : isTopicKey (Utf8.encode key) = false) (spelled : left.key.spells key = true) :
    left.value?.map Encoded.bytes = right.value?.map Encoded.bytes := by
  apply respells.value
  intro topic
  have accepted := isTopic_iff.2 topic
  rw [isTopic, Encoded.spells_iff.1 spelled, other] at accepted
  cases accepted

theorem bind_bytes_congr {α : Type} {one other : Option Encoded}
    (same : one.map Encoded.bytes = other.map Encoded.bytes)
    (reading : List UInt8 → Option α) :
    (one.bind fun value => reading value.bytes) =
      other.bind fun value => reading value.bytes := by
  have factored (value? : Option Encoded) : (value?.bind fun value => reading value.bytes) =
      (value?.map Encoded.bytes).bind reading := by
    cases value? <;> rfl
  rw [factored, factored, same]

theorem atTopic?_topicUri_congr (respells : Respells left right) :
    Link.atTopic? topicUri left = Link.atTopic? topicUri right := by
  unfold Link.atTopic?
  rw [← (sameTopic_of_respells respells).isTopic]
  split
  next topic => rw [topicUri, topicUri, respells.topic (isTopic_iff.1 topic)]
  next => rfl

theorem urlOf?_congr (respells : Respells left right)
    (other : isTopicKey (Utf8.encode key) = false) : urlOf? key left = urlOf? key right := by
  unfold urlOf?
  rw [← spells_of_respells respells]
  split
  next spelled =>
    have same := map_bytes_of_respells respells other spelled
    rw [bind_bytes_congr same Utf8.decode?]
  next => rfl

theorem hintOf?_congr (respells : Respells left right) : hintOf? left = hintOf? right := by
  unfold hintOf?
  rw [← spells_of_respells respells]
  split
  next spelled =>
    have same := map_bytes_of_respells respells (by decide) spelled
    exact bind_bytes_congr same fun bytes => Peer.ofHint? (Utf8.decodeLossy bytes)
  next => rfl

end Field

namespace Link

theorem checkTopics_of_respells (respelled : List.Forall₂ Respells lefts rights) :
    checkTopics lefts = checkTopics rights :=
  checkTopics_congr (respelled.imp fun _ _ => Field.sameTopic_of_respells)

variable {one other : Uri} {text otherText : Text}

theorem outcome_parse_of_respells (parsed : Uri.parseAbsolute text = .ok one)
    (otherParsed : Uri.parseAbsolute otherText = .ok other)
    (scheme : one.smallScheme = other.smallScheme) (listed : (one.params true).Lists lefts)
    (otherListed : (other.params true).Lists rights)
    (respelled : List.Forall₂ Respells lefts rights) (settings : Settings) :
    outcome (parse settings text) = outcome (parse settings otherText) := by
  rw [parse_of_absolute parsed, parse_of_absolute otherParsed]
  -- The parameters are compared with plus signs as spaces, but may be read with another meaning.
  apply check_congr rfl scheme (listed.withPlus settings.plusAsSpace)
    (otherListed.withPlus settings.plusAsSpace)
  rw [checkTopics_withPlus, checkTopics_withPlus, checkTopics_of_respells respelled]

end Link

namespace Summary

open Link (Passes atTopic?)

theorem filterMap_of_respells {α : Type} {field : Param → Option α}
    (same : ∀ left right, Respells left right → field left = field right)
    (respelled : List.Forall₂ Respells lefts rights) :
    lefts.filterMap field = rights.filterMap field := by
  induction respelled with
  | nil => rfl
  | cons first later ih => rw [List.filterMap_cons, List.filterMap_cons, same _ _ first, ih]

theorem map_bytes_valueOf?_congr (respelled : List.Forall₂ Respells lefts rights)
    (other : Field.isTopicKey (Utf8.encode key) = false) :
    (valueOf? key lefts).map Encoded.bytes = (valueOf? key rights).map Encoded.bytes := by
  unfold valueOf?
  induction respelled with
  | nil => rfl
  | @cons left right lefts rights first later ih =>
      rw [List.find?_cons, List.find?_cons, ← Field.spells_of_respells first]
      cases spelled : left.key.spells key with
      | true => exact Field.map_bytes_of_respells first other spelled
      | false => exact ih

theorem map_decode_valueOf?_congr (respelled : List.Forall₂ Respells lefts rights)
    (other : Field.isTopicKey (Utf8.encode key) = false) :
    (valueOf? key lefts).map Encoded.decode = (valueOf? key rights).map Encoded.decode := by
  have factored (value? : Option Encoded) :
      value?.map Encoded.decode = (value?.map Encoded.bytes).map Utf8.decodeLossy := by
    rw [Option.map_map]
    rfl
  rw [factored, factored, map_bytes_valueOf?_congr respelled other]

theorem withHash_congr (respelled : List.Forall₂ Respells lefts rights) (hash : InfoHash) :
    withHash hash lefts = withHash hash rights := by
  have urls (key : Text) (other : Field.isTopicKey (Utf8.encode key) = false) :
      lefts.filterMap (Field.urlOf? key) = rights.filterMap (Field.urlOf? key) :=
    filterMap_of_respells (fun _ _ respells => Field.urlOf?_congr respells other) respelled
  have hints : lefts.filterMap Field.hintOf? = rights.filterMap Field.hintOf? :=
    filterMap_of_respells (fun _ _ => Field.hintOf?_congr) respelled
  have name : (valueOf? ['d', 'n'] lefts).map Encoded.decode =
      (valueOf? ['d', 'n'] rights).map Encoded.decode :=
    map_decode_valueOf?_congr respelled (by decide)
  have length : ((valueOf? ['x', 'l'] lefts).bind fun value => Link.safeNumber? value.decode) =
      (valueOf? ['x', 'l'] rights).bind fun value => Link.safeNumber? value.decode :=
    Field.bind_bytes_congr (map_bytes_valueOf?_congr respelled (by decide))
      fun bytes => Link.safeNumber? (Utf8.decodeLossy bytes)
  have keywords : (valueOf? ['k', 't'] lefts).elim [] Encoded.decode =
      (valueOf? ['k', 't'] rights).elim [] Encoded.decode := by
    have factored (value? : Option Encoded) :
        value?.elim [] Encoded.decode = (value?.map Encoded.decode).getD [] := by
      cases value? <;> rfl
    rw [factored, factored, map_decode_valueOf?_congr respelled (by decide)]
  unfold withHash nonEmpty?
  rw [name, urls ['t', 'r'] (by decide), urls ['w', 's'] (by decide), hints, length, keywords]

theorem ofParams_congr (respelled : List.Forall₂ Respells lefts rights) :
    ofParams lefts = ofParams rights := by
  have topics : lefts.filterMap (atTopic? Field.topicUri) =
      rights.filterMap (atTopic? Field.topicUri) :=
    filterMap_of_respells (fun _ _ => Field.atTopic?_topicUri_congr) respelled
  unfold ofParams
  rw [topics]
  split
  next => rfl
  next => simp only [withHash_congr respelled]

variable {text otherText : Text} {one other : Uri}

/-- Two absolute identifiers of one scheme whose queries spell the same parameters are links
together, or are rejected for one reason, whatever the settings; and they have one summary, or
fail to have one for one reason. -/
theorem parse_spelling_invariant (parsed : Uri.parseAbsolute text = .ok one)
    (otherParsed : Uri.parseAbsolute otherText = .ok other)
    (scheme : one.smallScheme = other.smallScheme) (listed : (one.params true).Lists lefts)
    (otherListed : (other.params true).Lists rights)
    (respelled : List.Forall₂ Respells lefts rights) :
    (∀ request, let settings := Settings.ofRequest request
      ((∃ link, Link.parse settings text = .ok link) ↔
        ∃ link, Link.parse settings otherText = .ok link) ∧
      ∀ error, Link.parse settings text = .error error ↔
        Link.parse settings otherText = .error error) ∧
    parse text = parse otherText := by
  have outcomes (settings : Settings) :=
    Link.outcome_parse_of_respells parsed otherParsed scheme listed otherListed respelled settings
  constructor
  · intro request settings
    constructor
    · rw [← Link.outcome_eq_ok_iff, ← Link.outcome_eq_ok_iff, outcomes]
    · intro error
      rw [← Link.outcome_eq_error_iff, ← Link.outcome_eq_error_iff, outcomes]
  · cases read : Link.parse Settings.standard text with
    | error cause =>
        have rejected := Link.outcome_eq_error_iff.2 read
        rw [outcomes, Link.outcome_eq_error_iff] at rejected
        rw [parse_of_rejected read, parse_of_rejected rejected]
    | ok link =>
        have accepted := Link.outcome_eq_ok_iff.2 ⟨link, read⟩
        rw [outcomes] at accepted
        obtain ⟨otherLink, otherRead⟩ := Link.outcome_eq_ok_iff.1 accepted
        rw [parse_of_listed parsed listed read, parse_of_listed otherParsed otherListed otherRead,
          ofParams_congr respelled]

theorem parse_spelling_invariant_escaped :
    let hash := List.replicate 40 'C'
    let text := "magnet:?xt=urn:btih:".toList ++ hash ++ "&dn=a+b&tr=udp:t".toList
    let otherText := "MAGNET:?%78t=urn:btih:".toList ++ hash ++ "&d%6e=%61%20b&%74r=ud%70%3at".toList
    ∃ summary, parse text = .ok summary ∧ parse otherText = .ok summary ∧
      summary.name = some "a b".toList ∧ summary.trackers = some ["udp:t".toList] := by
  intro hash text otherText
  let uri (scheme query : Text) : Uri :=
    { scheme, authority := none, path := [], query := some query, fragment := none }
  let one := uri "magnet".toList ("xt=urn:btih:".toList ++ hash ++ "&dn=a+b&tr=udp:t".toList)
  let other := uri "MAGNET".toList
    ("%78t=urn:btih:".toList ++ hash ++ "&d%6e=%61%20b&%74r=ud%70%3at".toList)
  let params (uri : Uri) : List Param := ((uri.params true).params.mapM id).toOption.getD []
  have parsed : Uri.parseAbsolute text = .ok one := rfl
  have otherParsed : Uri.parseAbsolute otherText = .ok other := rfl
  have listed : (one.params true).Lists (params one) := rfl
  have otherListed : (other.params true).Lists (params other) := rfl
  have respelled : List.Forall₂ Respells (params one) (params other) := by decide
  have same := (parse_spelling_invariant parsed otherParsed (by decide) listed otherListed
    respelled).2
  have accepted : Link.parse Settings.standard text = .ok { uri := one, plusAsSpace := true } := rfl
  obtain ⟨summary, made, name, trackers⟩ : ∃ summary, ofParams (params one) = .ok summary ∧
      summary.name = some "a b".toList ∧ summary.trackers = some ["udp:t".toList] :=
    ⟨_, rfl, rfl, rfl⟩
  have read : parse text = .ok summary := (parse_of_listed parsed listed accepted).trans made
  exact ⟨summary, read, same.symm.trans read, name, trackers⟩

end Summary
end MagnetUri

import MagnetUri.Proofs.InfoHash
import MagnetUri.Proofs.Link.Listings
import MagnetUri.Proofs.Link.Safety
import MagnetUri.Proofs.Number
import MagnetUri.Proofs.Peer
import MagnetUri.Proofs.Text.Parts
import MagnetUri.Summary

set_option autoImplicit false

/-! Summaries as functions of the parameters, which links have one, and what it says of them. A
summary fails with the link, or for want of a readable hash, and in no other way. The topic with the
hash is found by the beginning of its path, where the cut at the last colon finds the same place. -/

namespace MagnetUri.Summary

open Link (Passes atTopic?)

variable {key : Text} {params : List Param} {value : Percent.Encoded}

def valueOf? (key : Text) (params : List Param) : Option Percent.Encoded :=
  (params.find? fun param => param.key.spells key).bind Param.value?

def FirstValue (key : Text) (params : List Param) (value : Percent.Encoded) : Prop :=
  ∃ before param after, params = before ++ param :: after ∧
    param.key.bytes = Utf8.encode key ∧ param.value? = some value ∧
    ∀ other ∈ before, other.key.bytes ≠ Utf8.encode key

theorem valueOf?_eq_some_iff : valueOf? key params = some value ↔ FirstValue key params value := by
  rw [valueOf?, Option.bind_eq_some_iff]
  simp only [List.find?_eq_some_iff_append, Percent.Encoded.spells_iff, Bool.not_eq_true',
    Bool.eq_false_iff, ne_eq]
  constructor
  · intro found
    obtain ⟨param, ⟨spelled, before, after, split, earlier⟩, there⟩ := found
    exact ⟨before, param, after, split, spelled, there, earlier⟩
  · intro first
    obtain ⟨before, param, after, split, spelled, there, earlier⟩ := first
    exact ⟨param, ⟨spelled, before, after, split, earlier⟩, there⟩

/-- A field that lists these values, and is absent where there are none. -/
def Holds {α : Type} (field : Option (List α)) (values : List α) : Prop :=
  field = none ∧ values = [] ∨ field = some values ∧ values ≠ []

theorem holds_ifAny {α : Type} (values : List α) : Holds (ifAny values) values := by
  cases values with
  | nil => exact Or.inl ⟨rfl, rfl⟩
  | cons first others => exact Or.inr ⟨rfl, List.cons_ne_nil first others⟩

theorem ifAny_eq_some_iff {α : Type} {values given : List α} :
    ifAny values = some given ↔ given ≠ [] ∧ values = given := by
  cases values with
  | nil => exact iff_of_false nofun fun both => both.1 both.2.symm
  | cons first others =>
      constructor
      · intro same
        cases same
        exact ⟨List.cons_ne_nil first others, rfl⟩
      · intro both
        exact congrArg some both.2

def withHash (hash : InfoHash) (params : List Param) : Summary where
  infoHash := hash
  name := nonEmpty? (valueOf? ['d', 'n'] params)
  trackers := ifAny (params.filterMap (Field.urlOf? ['t', 'r']))
  webSeeds := ifAny (params.filterMap (Field.urlOf? ['w', 's']))
  peers := ifAny (params.filterMap Field.hintOf?)
  exactLength := (valueOf? ['x', 'l'] params).bind fun value => Link.safeNumber? value.decode
  keywords := ifAny (Text.words ((valueOf? ['k', 't'] params).elim [] Percent.Encoded.decode))

def ofParams (params : List Param) : Except Error Summary :=
  match (params.filterMap (atTopic? Field.topicUri)).findSome? btihHash? with
  | none => .error .noHash
  | some hash =>
      match InfoHash.parse hash with
      | .error cause => .error (.badHash cause)
      | .ok hash => .ok (withHash hash params)

theorem ofLink_eq_ofParams {link : Link} {params : List Param} (listed : link.query.Lists params)
    (passes : ∀ param ∈ params, Passes param) : ofLink link = ofParams params := by
  have succeeds (param : Param) (member : param ∈ params) :=
    Link.topicUri_succeeds (passes param member)
  obtain ⟨_, topics⟩ := (Link.topics_reads listed succeeds 0).enumerates.exists_toList ()
  obtain ⟨scratch, trackers⟩ := (Link.urls_reads listed ['t', 'r'] 0).enumerates.exists_toList
    (Scratch.ofCapacity Scratch.defaultCapacity)
  obtain ⟨_, webSeeds⟩ := (Link.urls_reads listed ['w', 's'] 0).enumerates.exists_toList scratch
  have named (key : Text) : link.namedValue? key = .ok (valueOf? key params) :=
    Link.namedValue?_eq listed key
  unfold ofLink ofParams
  simp only [Link.exactTopics, topics, Link.displayName?, Link.keywords?, Link.exactLength?, named,
    Link.trackers, trackers, Link.webSeeds, webSeeds, Link.peers_eq listed, bind, Except.bind,
    Except.mapError, Except.map, pure, Except.pure]
  cases (params.filterMap (atTopic? Field.topicUri)).findSome? btihHash? with
  | none => rfl
  | some text =>
      cases parsed : InfoHash.parse text with
      | error cause => simp only [parsed]
      | ok hash => simp only [parsed, withHash]

open MagnetUri.Field (splitTopicPath)

variable {topic : Uri} {topics : List Uri} {hash : Text}

/-- A topic in the urn scheme whose path goes on with this text behind the btih namespace
and its colon, in any case of letters. -/
structure NamesHash (topic : Uri) (hash : Text) : Prop where
  scheme : topic.smallScheme = urnScheme
  path : ∃ lead, lead.map Character.small = btihLead ∧ topic.path = lead ++ hash

theorem btihHash?_eq_some_iff : btihHash? topic = some hash ↔ NamesHash topic hash := by
  unfold btihHash?
  constructor
  · intro found
    split at found
    next named =>
      cases found
      have joined := List.take_append_drop btihLead.length topic.path
      exact ⟨named.1, topic.path.take btihLead.length, named.2, joined.symm⟩
    next => cases found
  · intro names
    obtain ⟨lead, small, joined⟩ := names.path
    have length : lead.length = btihLead.length := by rw [← small, List.length_map]
    have front : topic.path.take btihLead.length = lead := by
      rw [joined, ← length, List.take_left]
    have rest : topic.path.drop btihLead.length = hash := by
      rw [joined, ← length, List.drop_left]
    rw [front, rest, if_pos ⟨names.scheme, small⟩]

theorem btihHash?_eq_none_iff : btihHash? topic = none ↔ ∀ text, ¬ NamesHash topic text := by
  simp only [Option.eq_none_iff_forall_ne_some, ne_eq, btihHash?_eq_some_iff]

def InBtih (topic : Uri) (space : Text) : Prop :=
  topic.smallScheme = urnScheme ∧ space.map Character.small = ['b', 't', 'i', 'h']

/-- With no colon in the hash, the last colon of the path ends the namespace. -/
theorem NamesHash.splitTopicPath (names : NamesHash topic hash) (absent : ':' ∉ hash) :
    ∃ space, Field.splitTopicPath topic.path = (space, hash) ∧ InBtih topic space := by
  obtain ⟨lead, small, joined⟩ := names.path
  have parts : lead.map Character.small = ['b', 't', 'i', 'h'] ++ [':'] := small
  obtain ⟨space, last, same, spaceSmall, lastSmall⟩ := List.map_eq_append_iff.1 parts
  obtain ⟨colon, single, colonSmall⟩ := List.map_eq_singleton_iff.1 lastSmall
  rw [Character.eq_colon_of_small colonSmall] at single
  refine ⟨space, ?_, names.scheme, spaceSmall⟩
  have path : topic.path = space ++ ':' :: hash := by
    rw [joined, same, single, List.append_assoc]
    rfl
  rw [Field.splitTopicPath, path, Text.cutLast?_append absent]
  rfl

theorem namesHash_of_inBtih (named : InBtih topic (splitTopicPath topic.path).1) :
    NamesHash topic (splitTopicPath topic.path).2 := by
  unfold Field.splitTopicPath at named ⊢
  cases cut : Text.cutLast? ':' topic.path with
  | none =>
      rw [cut] at named
      cases named.2
  | some parts =>
      obtain ⟨space, rest⟩ := parts
      rw [cut] at named
      refine ⟨named.1, space ++ [':'], ?_, ?_⟩
      · rw [List.map_append]
        exact congrArg (· ++ [':']) named.2
      · rw [Text.eq_append_of_cutLast? cut, List.append_assoc]
        rfl

theorem colon_not_mem_of_isSpelled (spelled : InfoHash.IsSpelled hash) : ':' ∉ hash := by
  intro member
  rcases spelled with hex | base32
  · exact absurd (hex.2 ':' member) (by decide)
  · exact absurd (base32.2 ':' member) (by decide)

structure FirstInBtih (topics : List Uri) (spaces : List Text) (place : Nat) : Prop where
  here : ∃ topic space, topics[place]? = some topic ∧ spaces[place]? = some space ∧
    InBtih topic space
  earlier : ∀ other < place, ∀ topic space, topics[other]? = some topic →
    spaces[other]? = some space → ¬ InBtih topic space

/-- The first topic that names any text as its hash names this one. -/
def FirstNamed (topics : List Uri) (hash : Text) : Prop :=
  ∃ before topic after, topics = before ++ topic :: after ∧ NamesHash topic hash ∧
    ∀ other ∈ before, ∀ text, ¬ NamesHash other text

theorem findSome?_btihHash?_eq_some_iff :
    topics.findSome? btihHash? = some hash ↔ FirstNamed topics hash := by
  simp only [List.findSome?_eq_some_iff, btihHash?_eq_some_iff, btihHash?_eq_none_iff, FirstNamed]

theorem FirstNamed.firstInBtih (first : FirstNamed topics hash) (absent : ':' ∉ hash) :
    ∃ place, FirstInBtih topics (topics.map fun topic => (splitTopicPath topic.path).1) place ∧
      (topics.map fun topic => (splitTopicPath topic.path).2)[place]? = some hash := by
  obtain ⟨before, topic, after, split, names, earlier⟩ := first
  obtain ⟨space, cut, named⟩ := names.splitTopicPath absent
  have here : topics[before.length]? = some topic := by
    rw [split, List.getElem?_append_right (Nat.le_refl _), Nat.sub_self]
    rfl
  refine ⟨before.length, ⟨⟨topic, space, here, ?_, named⟩, ?_⟩, ?_⟩
  · rw [List.getElem?_map, here, Option.map_some, cut]
  · intro other smaller topic space found spaceFound inside
    rw [List.getElem?_map, found, Option.map_some, Option.some.injEq] at spaceFound
    rw [split, List.getElem?_append_left smaller] at found
    rw [← spaceFound] at inside
    exact earlier topic (List.mem_of_getElem? found) _ (namesHash_of_inBtih inside)
  · rw [List.getElem?_map, here, Option.map_some, cut]

end MagnetUri.Summary

namespace MagnetUri.Link

open Summary (FirstValue valueOf? valueOf?_eq_some_iff)

variable {text : Text} {size : Nat}

theorem safeNumber?_eq_some_iff : safeNumber? text = some size ↔
    text ∈ Grammar.oneOrMore Grammar.digit ∧ Decimal.value text = size ∧ size ≤ 2 ^ 53 - 1 := by
  rw [safeNumber?, Option.ite_none_right_eq_some, Decimal.isNumeral_iff_mem,
    Binary64.safe?_nearest_eq_some_iff]
  exact Iff.rfl

/-- A link has the exact length that is written by the first parameter whose key has the bytes of
its name once decoded: digits of any number, zeros in front among them, whose number is below 2^53.
It has none where there is no such parameter, where that parameter has no value, or where the value
is anything else. -/
theorem exactLength_told_by_digits {request : Settings.Key → Setting} {link : Link}
    (accepted : parse (Settings.ofRequest request) text = .ok link) :
    ∃ params, link.query.Lists params ∧ ∃ length?, link.exactLength? = .ok length? ∧
      ∀ size, length? = some size ↔
        ∃ value, FirstValue ['x', 'l'] params value ∧
          value.decode ∈ Grammar.oneOrMore Grammar.digit ∧
          Decimal.value value.decode = size ∧ size ≤ 2 ^ 53 - 1 := by
  obtain ⟨params, listed, _⟩ := exists_params_of_parse accepted
  refine ⟨params, listed, _, exactLength?_eq listed, ?_⟩
  intro size
  simp only [← valueOf?_eq_some_iff, ← safeNumber?_eq_some_iff]
  exact Option.bind_eq_some_iff

theorem exactLength_told_by_digits_escaped :
    let query := "xt=urn:x&%78l=%309007199254740991&xl=5".toList
    let link : Link :=
      { uri := { scheme := "magnet".toList, authority := none, path := [], query := some query,
                 fragment := none }
        plusAsSpace := true }
    parse Settings.standard ("magnet:?".toList ++ query) = .ok link ∧
      link.exactLength? = .ok (some (2 ^ 53 - 1)) := by
  intro query link
  have accepted : parse (Settings.ofRequest fun _ => .other) ("magnet:?".toList ++ query) =
      .ok link := rfl
  obtain ⟨params, listed, length?, found, told⟩ := exactLength_told_by_digits accepted
  have same : (link.query.params.mapM id).toOption.getD [] = params := by
    rw [listed.mapM]
    rfl
  have first : ((valueOf? ['x', 'l'] params).map Percent.Encoded.decode) =
      some "09007199254740991".toList := by
    rw [← same]
    decide
  obtain ⟨value, there, decoded⟩ := Option.map_eq_some_iff.1 first
  have digits : Decimal.isNumeral value.decode = true ∧
      Decimal.value value.decode = 2 ^ 53 - 1 := by
    rw [decoded]
    decide
  rw [found, (told (2 ^ 53 - 1)).2 ⟨value, valueOf?_eq_some_iff.1 there,
    Decimal.isNumeral_iff_mem.1 digits.1, digits.2, Nat.le_refl _⟩]
  exact ⟨accepted, rfl⟩

end MagnetUri.Link

namespace MagnetUri.Summary

open Link (Passes atTopic?)

variable {text : Text} {params : List Param} {param : Param}

def HintsAt (param : Param) (peer : Peer) : Prop :=
  param.key.bytes = Utf8.encode ['x', '.', 'p', 'e'] ∧
    ∃ value, param.value? = some value ∧ Peer.Names peer (Utf8.decodeLossy value.bytes)

structure Describes (summary : Summary) (link : Link) (params : List Param) : Prop where
  digits : InfoHash.IsHex summary.infoHash.toHex
  infoHash : ∃ topics spaces hashes place hash,
    (link.exactTopics 0 : Selection Field.Error Unit Param Uri).Enumerates topics ∧
    (link.topicNamespaces 0 : Selection Field.Error Unit Param Text).Enumerates spaces ∧
    (link.topicHashes 0 : Selection Field.Error Unit Param Text).Enumerates hashes ∧
    FirstInBtih topics spaces place ∧ hashes[place]? = some hash ∧
    InfoHash.parse hash = .ok summary.infoHash
  name : ∀ text, summary.name = some text ↔
    text ≠ [] ∧ ∃ value, FirstValue ['d', 'n'] params value ∧ Utf8.decodeLossy value.bytes = text
  trackers : ∃ urls, Holds summary.trackers urls ∧ ∀ label, (link.trackers label).Enumerates urls
  webSeeds : ∃ urls, Holds summary.webSeeds urls ∧ ∀ label, (link.webSeeds label).Enumerates urls
  peers : ∃ peers hint, Holds summary.peers peers ∧ link.peers = .ok peers ∧
    peers = params.filterMap hint ∧ ∀ param peer, hint param = some peer ↔ HintsAt param peer
  exactLength : link.exactLength? = .ok summary.exactLength ∧
    ∀ size, summary.exactLength = some size ↔
      ∃ value digits, FirstValue ['x', 'l'] params value ∧ Utf8.decodeLossy value.bytes = digits ∧
        digits ∈ Grammar.oneOrMore Grammar.digit ∧ Decimal.value digits = size ∧ size ≤ 2 ^ 53 - 1
  keywords : ∃ words, Holds summary.keywords words ∧
    (∀ value, FirstValue ['k', 't'] params value →
      words = Text.nonBlankParts (Utf8.decodeLossy value.bytes)) ∧
    ((∀ value, ¬ FirstValue ['k', 't'] params value) → words = [])

theorem name_eq_some_iff {named : Option Percent.Encoded} : nonEmpty? named = some text ↔
    text ≠ [] ∧ ∃ value, named = some value ∧ Utf8.decodeLossy value.bytes = text := by
  rw [nonEmpty?, Option.bind_map, Option.bind_eq_some_iff]
  simp only [Function.comp_apply, ifAny_eq_some_iff]
  constructor
  · intro found
    obtain ⟨value, there, nonempty, decoded⟩ := found
    exact ⟨nonempty, value, there, decoded⟩
  · intro found
    obtain ⟨nonempty, value, there, decoded⟩ := found
    exact ⟨value, there, nonempty, decoded⟩

theorem hintOf?_eq_some_iff {peer : Peer} :
    Field.hintOf? param = some peer ↔ HintsAt param peer := by
  rw [Field.hintOf?, Option.ite_none_right_eq_some, Percent.Encoded.spells_iff,
    Option.bind_eq_some_iff]
  simp only [Peer.ofHint?_eq_some_iff_names]
  exact Iff.rfl

theorem exactLength_eq_some_iff {size : Nat} :
    ((valueOf? ['x', 'l'] params).bind fun value => Link.safeNumber? value.decode) = some size ↔
      ∃ value digits, FirstValue ['x', 'l'] params value ∧ Utf8.decodeLossy value.bytes = digits ∧
        digits ∈ Grammar.oneOrMore Grammar.digit ∧ Decimal.value digits = size ∧
          size ≤ 2 ^ 53 - 1 := by
  simp only [Option.bind_eq_some_iff, valueOf?_eq_some_iff, Link.safeNumber?_eq_some_iff]
  constructor
  · intro found
    obtain ⟨value, first, digits, number, small⟩ := found
    exact ⟨value, _, first, rfl, digits, number, small⟩
  · intro found
    obtain ⟨value, digits, first, decoded, numeral, number, small⟩ := found
    subst decoded
    exact ⟨value, first, numeral, number, small⟩

theorem withHash_describes {link : Link} {hash : InfoHash} {written : Text}
    (listed : link.query.Lists params) (passes : ∀ param ∈ params, Passes param)
    (first : FirstNamed (params.filterMap (atTopic? Field.topicUri)) written)
    (parsed : InfoHash.parse written = .ok hash) (absent : ':' ∉ written) :
    (withHash hash params).Describes link params where
  digits := InfoHash.isHex_toHex hash
  infoHash := by
    obtain ⟨place, firstPlace, there⟩ := first.firstInBtih absent
    exact ⟨_, _, _, place, written, Link.exactTopics_enumerate listed passes 0,
      Link.topicNamespaces_enumerate listed passes 0, Link.topicHashes_enumerate listed passes 0,
      firstPlace, there, parsed⟩
  name := by
    intro text
    simp only [← valueOf?_eq_some_iff]
    exact name_eq_some_iff
  trackers := ⟨_, holds_ifAny _, fun label => (Link.urls_reads listed ['t', 'r'] label).enumerates⟩
  webSeeds := ⟨_, holds_ifAny _, fun label => (Link.urls_reads listed ['w', 's'] label).enumerates⟩
  peers := ⟨_, Field.hintOf?, holds_ifAny _, Link.peers_eq listed, rfl,
    fun _ _ => hintOf?_eq_some_iff⟩
  exactLength := ⟨Link.exactLength?_eq listed, fun _ => exactLength_eq_some_iff⟩
  keywords := by
    refine ⟨_, holds_ifAny _, ?_, ?_⟩
    · intro value found
      rw [valueOf?_eq_some_iff.2 found]
      exact Text.words_eq_nonBlankParts value.decode
    · intro none
      have absent : valueOf? ['k', 't'] params = Option.none := by
        apply Option.eq_none_iff_forall_ne_some.2
        intro value found
        exact none value (valueOf?_eq_some_iff.1 found)
      rw [absent]
      rfl

variable {summary : Summary} {error : Error} {written : Text}

theorem isAscii_of_firstNamed
    (first : FirstNamed (params.filterMap (atTopic? Field.topicUri)) written) :
    ∀ char ∈ written, Character.IsAscii char := by
  intro char inside
  obtain ⟨before, topic, after, split, names, _⟩ := first
  obtain ⟨lead, _, path⟩ := names.path
  have member : topic ∈ params.filterMap (atTopic? Field.topicUri) := by
    rw [split]
    exact List.mem_append_cons_self
  apply (Link.derives_of_mem_topics member).isAscii_path
  rw [path]
  exact List.mem_append_right lead inside

theorem ofParams_eq_ok_iff : ofParams params = .ok summary ↔
    ∃ written hash, FirstNamed (params.filterMap (atTopic? Field.topicUri)) written ∧
      InfoHash.parse written = .ok hash ∧ summary = withHash hash params := by
  simp only [← findSome?_btihHash?_eq_some_iff]
  unfold ofParams
  constructor
  · intro made
    split at made
    next => cases made
    next written found =>
      split at made
      next => cases made
      next hash parsed =>
        cases made
        exact ⟨written, hash, found, parsed, rfl⟩
  · intro shape
    obtain ⟨written, hash, found, parsed, same⟩ := shape
    rw [found, same]
    simp only [parsed]

theorem ofParams_error (failed : ofParams params = .error error) :
    error = .noHash ∨ ∃ cause, error = .badHash cause := by
  unfold ofParams at failed
  split at failed
  next =>
    cases failed
    exact Or.inl rfl
  next =>
    split at failed
    next cause _ =>
      cases failed
      exact Or.inr ⟨cause, rfl⟩
    next => cases failed

theorem parse_of_rejected {cause : Link.Error}
    (rejected : Link.parse Settings.standard text = .error cause) :
    parse text = .error (.rejected cause) := by
  rw [parse, rejected]

theorem exists_parse_eq_ofParams {link : Link}
    (accepted : Link.parse Settings.standard text = .ok link) :
    ∃ params, link.query.Lists params ∧ (∀ param ∈ params, Passes param) ∧
      parse text = ofParams params := by
  obtain ⟨params, listed, passes⟩ := Link.exists_params_of_parse accepted
  refine ⟨params, listed, passes, ?_⟩
  rw [parse, accepted]
  exact ofLink_eq_ofParams listed passes

/-- The parameters of a link are those of its identifier, with plus signs as spaces. -/
theorem parse_of_listed {link : Link} {uri : Uri} (parsed : Uri.parseAbsolute text = .ok uri)
    (listed : (uri.params true).Lists params)
    (accepted : Link.parse Settings.standard text = .ok link) : parse text = ofParams params := by
  obtain ⟨others, othersListed, _, same⟩ := exists_parse_eq_ofParams accepted
  obtain ⟨meaning, linkParsed, _⟩ := Link.parse_eq_ok_iff.1 accepted
  have equal : link.uri = uri := Except.ok.inj (linkParsed.symm.trans parsed)
  have plus : link.plusAsSpace = true := meaning
  rw [Link.query, equal, plus] at othersListed
  rw [same, othersListed.unique listed]

theorem lead_of_rejected (cause : Link.Error) :
    ∃ rest, (Error.rejected cause).message = Error.lead ++ rest := by
  cases cause with
  | scheme => exact ⟨"", String.append_empty.symm⟩
  | missingTopic => exact ⟨_, rfl⟩
  | invalidTopic => exact ⟨_, rfl⟩
  | malformed cause => exact ⟨_, String.append_assoc⟩
  | unreadable cause => exact ⟨_, String.append_assoc⟩

/-- A text has a summary where it is a link and the first of its topics that names the btih
namespace goes on with a written hash. Every error is told as one of the summary, and it is
that of the link where there is no link. -/
theorem parse_decided_by_topics (text : Text) :
    ((∃ summary, parse text = .ok summary) ↔
      ∃ link topics written, Link.parse Settings.standard text = .ok link ∧
        (link.exactTopics 0 : Selection Field.Error Unit Param Uri).Enumerates topics ∧
        FirstNamed topics written ∧ InfoHash.IsSpelled written) ∧
    (∀ error, parse text = .error error →
      (∃ rest, error.message = Error.lead ++ rest) ∧ (∀ cause, error ≠ .field cause) ∧
      ∀ cause, error.rejection? = some cause ↔
        Link.parse Settings.standard text = .error cause) ∧
    (∀ summary, parse text = .ok summary → ∃ link params,
      Link.parse Settings.standard text = .ok link ∧ link.query.Lists params ∧
        summary.Describes link params) := by
  cases read : Link.parse Settings.standard text with
  | error cause =>
      rw [parse_of_rejected read]
      refine ⟨iff_of_false nofun nofun, ?_, nofun⟩
      intro error same
      cases same
      refine ⟨lead_of_rejected cause, nofun, ?_⟩
      intro other
      simp only [Error.rejection?, Option.some.injEq, Except.error.injEq]
  | ok link =>
      obtain ⟨params, listed, passes, same⟩ := exists_parse_eq_ofParams read
      have topics : (link.exactTopics 0 : Selection Field.Error Unit Param Uri).Enumerates _ :=
        Link.exactTopics_enumerate listed passes 0
      rw [same]
      refine ⟨?_, ?_, ?_⟩
      · constructor
        · intro made
          obtain ⟨summary, made⟩ := made
          obtain ⟨written, hash, first, parsed, _⟩ := ofParams_eq_ok_iff.1 made
          have ascii := isAscii_of_firstNamed first
          exact ⟨link, _, written, rfl, topics, first,
            (InfoHash.exists_parse_iff ascii).1 ⟨hash, parsed⟩⟩
        · intro shape
          obtain ⟨other, found, written, equal, enumerates, first, spelled⟩ := shape
          cases equal
          rw [enumerates.unique topics ()] at first
          have ascii := isAscii_of_firstNamed first
          obtain ⟨hash, parsed⟩ := (InfoHash.exists_parse_iff ascii).2 spelled
          exact ⟨_, ofParams_eq_ok_iff.2 ⟨written, hash, first, parsed, rfl⟩⟩
      · intro error failed
        rcases ofParams_error failed with unnamed | ⟨cause, unread⟩
        · rw [unnamed]
          exact ⟨⟨_, rfl⟩, nofun, fun _ => iff_of_false nofun nofun⟩
        · rw [unread]
          exact ⟨⟨_, String.append_assoc⟩, nofun, fun _ => iff_of_false nofun nofun⟩
      · intro summary made
        obtain ⟨written, hash, first, parsed, equal⟩ := ofParams_eq_ok_iff.1 made
        have spelled := (InfoHash.exists_parse_iff (isAscii_of_firstNamed first)).1 ⟨hash, parsed⟩
        rw [equal]
        exact ⟨link, params, rfl, listed, withHash_describes listed passes first parsed
          (colon_not_mem_of_isSpelled spelled)⟩

set_option maxRecDepth 2000 in
/-- A link with all fields but web seeds, some of them escaped, among them a peer hint with a zero
in front of its port. -/
theorem parse_decided_by_topics_filled :
    let query := "xt=urn:btih:".toList ++ List.replicate 40 'C' ++
      "&dn=a+%C3%A9&%74r=udp:t&kt=one++two&x.pe=1.2.3.4:05&%78.pe=t:1&xl=042".toList
    ∃ summary link params, parse ("magnet:?".toList ++ query) = .ok summary ∧
      Link.parse Settings.standard ("magnet:?".toList ++ query) = .ok link ∧
      link.query.Lists params ∧ summary.Describes link params ∧
      summary.name = some "a é".toList ∧ summary.trackers = some ["udp:t".toList] ∧
      summary.webSeeds = none ∧ summary.exactLength = some 42 ∧
      summary.keywords = some ["one".toList, "two".toList] ∧
      summary.peers =
        some [{ family := .ipv4, address := "1.2.3.4".toList, port := .finite 5 }] := by
  intro query
  let uri : Uri :=
    { scheme := "magnet".toList, authority := none, path := [], query := some query
      fragment := none }
  let params : List Param := ((uri.params true).params.mapM id).toOption.getD []
  have parsed : Uri.parseAbsolute ("magnet:?".toList ++ query) = .ok uri := rfl
  have listed : (uri.params true).Lists params := rfl
  have accepted : Link.parse Settings.standard ("magnet:?".toList ++ query) =
      .ok { uri, plusAsSpace := true } := rfl
  obtain ⟨summary, made, fields⟩ : ∃ summary, ofParams params = .ok summary ∧
      summary.name = some "a é".toList ∧ summary.trackers = some ["udp:t".toList] ∧
      summary.webSeeds = none ∧ summary.exactLength = some 42 ∧
      summary.keywords = some ["one".toList, "two".toList] ∧ summary.peers =
        some [{ family := .ipv4, address := "1.2.3.4".toList, port := .finite 5 }] :=
    ⟨_, rfl, by decide +kernel⟩
  have read := (parse_of_listed parsed listed accepted).trans made
  obtain ⟨link, others, found, lists, describes⟩ :=
    (parse_decided_by_topics ("magnet:?".toList ++ query)).2.2 summary read
  exact ⟨summary, link, others, read, found, lists, describes, fields⟩

end MagnetUri.Summary

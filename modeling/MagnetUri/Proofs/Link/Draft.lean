import MagnetUri.Link.Basic
import MagnetUri.Proofs.InfoHash
import MagnetUri.Proofs.Link.Acceptance
import MagnetUri.Proofs.Link.Fields
import Mathlib.Data.List.Forall2

set_option autoImplicit false

/-! Links that were written. A draft's text is an identifier, the parameters of its query
are the fields of the draft in their order, and their values decode to what was given. -/

namespace MagnetUri.Link.Draft

open Character (isUnreserved capitalHexDigit)
open Grammar (Run)

/-- What stands for itself in a value. The colon is in the first value only. -/
def inWord (char : Char) : Bool :=
  isUnreserved char || char == ':'

def inValue (char : Char) : Bool :=
  inWord char || char == '+'

structure Escapes (text : Text) (bytes : List UInt8) : Prop where
  run : Run inValue text
  tokens : ∃ tokens, Percent.writeTokens tokens = text ∧
    tokens.flatMap (Percent.Token.bytes true) = bytes

variable {text more : Text} {bytes others : List UInt8} {char : Char}

theorem Escapes.nil : Escapes [] [] :=
  ⟨.nil, [], rfl, rfl⟩

theorem Escapes.append (first : Escapes text bytes) (second : Escapes more others) :
    Escapes (text ++ more) (bytes ++ others) := by
  obtain ⟨left, leftWritten, leftBytes⟩ := first.tokens
  obtain ⟨right, rightWritten, rightBytes⟩ := second.tokens
  refine ⟨first.run.append second.run, left ++ right, ?_, ?_⟩
  · rw [Percent.writeTokens_append, leftWritten, rightWritten]
  · rw [List.flatMap_append, leftBytes, rightBytes]

theorem escapes_flatMap {α : Type} {items : List α} {write : α → Text} {encode : α → List UInt8}
    (each : ∀ item ∈ items, Escapes (write item) (encode item)) :
    Escapes (items.flatMap write) (items.flatMap encode) := by
  induction items with
  | nil => exact .nil
  | cons item rest ih =>
      rw [List.forall_mem_cons] at each
      rw [List.flatMap_cons, List.flatMap_cons]
      exact each.1.append (ih each.2)

theorem escapes_literal (member : inWord char = true) :
    Escapes [char] (Utf8.encodeChar char) := by
  have plain : char ≠ '%' := by
    intro percent
    rw [percent] at member
    cases member
  have noPlus : char ≠ '+' := by
    intro plus
    rw [plus] at member
    cases member
  have inside : inValue char = true := Bool.or_eq_true_iff.2 (Or.inl member)
  refine ⟨.plain inside .nil, [.literal char plain], rfl, ?_⟩
  rw [List.flatMap_cons, Percent.Token.bytes, if_neg (fun both => noPlus both.1)]
  exact List.append_nil _

theorem escapes_plus : Escapes ['+'] (Utf8.encodeChar ' ') := by
  exact ⟨.plain (by decide) .nil, [.literal '+' (by decide)], rfl, rfl⟩

theorem hexValue?_capitalHexDigit {value : Nat} (small : value < 16) :
    Character.hexValue? (capitalHexDigit value) = some value := by
  have all : ∀ value < 16, Character.hexValue? (capitalHexDigit value) = some value := by decide
  exact all value small

theorem escapes_escapeByte (byte : UInt8) : Escapes (escapeByte byte) [byte] := by
  have bound := byte.toNat_lt
  have high := hexValue?_capitalHexDigit (show byte.toNat / 16 < 16 by omega)
  have low := hexValue?_capitalHexDigit (show byte.toNat % 16 < 16 by omega)
  have highValid : Character.isHexDigit (capitalHexDigit (byte.toNat / 16)) = true := by
    rw [Character.isHexDigit, high]
    rfl
  have lowValid : Character.isHexDigit (capitalHexDigit (byte.toNat % 16)) = true := by
    rw [Character.isHexDigit, low]
    rfl
  refine ⟨.escape highValid lowValid .nil, [.escape ⟨_, highValid⟩ ⟨_, lowValid⟩], rfl, ?_⟩
  have joined : 16 * (byte.toNat / 16) + byte.toNat % 16 = byte.toNat := by omega
  rw [List.flatMap_cons, Percent.Token.bytes, Percent.HexDigit.value, Percent.HexDigit.value,
    high, low, Option.getD_some, Option.getD_some, joined, UInt8.ofNat_toNat]
  rfl

theorem inWord_of_isUnreserved (unreserved : isUnreserved char = true) : inWord char = true :=
  Bool.or_eq_true_iff.2 (Or.inl unreserved)

theorem escapes_escapeChar (char : Char) : Escapes (escapeChar char) (Utf8.encodeChar char) := by
  unfold escapeChar
  split
  next unreserved => exact escapes_literal (inWord_of_isUnreserved unreserved)
  next =>
    have each : Escapes ((Utf8.encodeChar char).flatMap escapeByte)
        ((Utf8.encodeChar char).flatMap ([·])) :=
      escapes_flatMap fun byte _ => escapes_escapeByte byte
    rwa [List.flatMap_singleton'] at each

theorem escapes_escapeValue (value : Text) : Escapes (escapeValue value) (Utf8.encode value) :=
  escapes_flatMap fun char _ => escapes_escapeChar char

theorem escapes_escapeName (name : Text) : Escapes (escapeName name) (Utf8.encode name) := by
  apply escapes_flatMap
  intro char _
  split
  next space =>
    rw [space]
    exact escapes_plus
  next => exact escapes_escapeChar char

theorem escapes_word (word : text.all inWord = true) : Escapes text (Utf8.encode text) := by
  have each : Escapes (text.flatMap ([·])) (text.flatMap Utf8.encodeChar) :=
    escapes_flatMap fun char member => escapes_literal (List.all_eq_true.1 word char member)
  rwa [List.flatMap_singleton'] at each

def fields (draft : Draft) : List (Text × Text) :=
  (match draft.name with
    | some (first :: rest) => [(['d', 'n'], first :: rest)]
    | _ => []) ++
  (draft.trackers.getD []).map (['t', 'r'], ·) ++
  (draft.webSeeds.getD []).map (['w', 's'], ·)

structure Writes (field : Text × Text) (piece : Text) : Prop where
  key : Escapes field.1 (Utf8.encode field.1)
  value : ∃ value, Escapes value (Utf8.encode field.2) ∧ piece = field.1 ++ '=' :: value

structure Carries (field : Text × Text) (param : Param) : Prop where
  key : param.key.text = field.1
  keyBytes : param.key.bytes = Utf8.encode field.1
  value : ∃ value, param.value? = some value ∧ value.bytes = Utf8.encode field.2

theorem equals_not_mem (escapes : Escapes text bytes) : '=' ∉ text :=
  escapes.run.not_mem (by decide) (by decide) (by decide)

theorem ampersand_not_mem (escapes : Escapes text bytes) : '&' ∉ text :=
  escapes.run.not_mem (by decide) (by decide) (by decide)

theorem read_of_escapes (escapes : Escapes text bytes) :
    ∃ encoded, Percent.Encoded.read text true = .ok encoded ∧ encoded.text = text ∧
      encoded.bytes = bytes := by
  obtain ⟨tokens, written, decoded⟩ := escapes.tokens
  exact ⟨⟨tokens, true⟩, Percent.Encoded.read_eq_ok_iff.2 ⟨written, rfl⟩, written, decoded⟩

theorem read_piece {key value : Text} {keyBytes valueBytes : List UInt8}
    (keyEscapes : Escapes key keyBytes) (valueEscapes : Escapes value valueBytes) :
    ∃ param encoded, Param.read true (key ++ '=' :: value) = .ok param ∧
      (param.key.text = key ∧ param.key.bytes = keyBytes) ∧
      param.value? = some encoded ∧ encoded.text = value ∧ encoded.bytes = valueBytes := by
  obtain ⟨keyRead, keyFound, keySame⟩ := read_of_escapes keyEscapes
  obtain ⟨valueRead, valueFound, valueSame⟩ := read_of_escapes valueEscapes
  refine ⟨{ key := keyRead, value? := some valueRead }, valueRead, ?_, keySame, rfl, valueSame⟩
  rw [Param.read, Text.cut?_append (equals_not_mem keyEscapes)]
  simp only [keyFound, valueFound]

theorem exists_params {written : List (Text × Text)} {pieces : List Text}
    (writes : List.Forall₂ Writes written pieces) :
    ∃ params, pieces.map (Param.read true) = params.map .ok ∧
      List.Forall₂ Carries written params := by
  induction writes with
  | nil => exact ⟨[], rfl, .nil⟩
  | @cons field piece _ _ first _ ih =>
      obtain ⟨params, later, carried⟩ := ih
      obtain ⟨value, valueEscapes, equal⟩ := first.value
      obtain ⟨param, encoded, found, key, there, _, decoded⟩ := read_piece first.key valueEscapes
      refine ⟨param :: params, ?_, .cons ⟨key.1, key.2, encoded, there, decoded⟩ carried⟩
      rw [List.map_cons, List.map_cons, equal, found, later]

theorem escapes_key {key : Text} (known : key ∈ [['d', 'n'], ['t', 'r'], ['w', 's'], ['x', 't']]) :
    Escapes key (Utf8.encode key) := by
  have words : ∀ key ∈ [['d', 'n'], ['t', 'r'], ['w', 's'], ['x', 't']],
      key.all inWord = true := by decide
  exact escapes_word (words key known)

theorem writes_further (draft : Draft) :
    List.Forall₂ Writes draft.fields draft.furtherParams := by
  have lists (key : Text) (known : key ∈ [['d', 'n'], ['t', 'r'], ['w', 's'], ['x', 't']])
      (values : List Text) : List.Forall₂ Writes (values.map (key, ·))
        (values.map (key ++ ['='] ++ escapeValue ·)) := by
    rw [List.forall₂_map_left_iff, List.forall₂_map_right_iff, List.forall₂_same]
    intro value _
    exact ⟨escapes_key known, escapeValue value, escapes_escapeValue value, by simp⟩
  have trackers := lists ['t', 'r'] (by decide)
  have seeds := lists ['w', 's'] (by decide)
  unfold fields furtherParams
  match draft.name with
  | none => exact List.rel_append (List.rel_append .nil (trackers _)) (seeds _)
  | some [] => exact List.rel_append (List.rel_append .nil (trackers _)) (seeds _)
  | some (first :: rest) =>
      have value := escapes_escapeName (first :: rest)
      have named : Writes (['d', 'n'], first :: rest)
          (['d', 'n', '='] ++ escapeName (first :: rest)) :=
        ⟨escapes_key List.mem_cons_self, escapeName (first :: rest), value, rfl⟩
      exact List.rel_append (List.rel_append (.cons named .nil) (trackers _)) (seeds _)

variable {draft : Draft}

def topicValue (draft : Draft) : Text :=
  ['u', 'r', 'n', ':', 'b', 't', 'i', 'h', ':'] ++ draft.infoHash

def topicUri (draft : Draft) : Uri where
  scheme := ['u', 'r', 'n']
  authority := none
  path := ['b', 't', 'i', 'h', ':'] ++ draft.infoHash
  query := none
  fragment := none

def uri (draft : Draft) : Uri where
  scheme := magnetScheme
  authority := none
  path := []
  query := some draft.query
  fragment := none

def link (draft : Draft) : Link where
  uri := draft.uri
  plusAsSpace := true

theorem inWord_of_isSmallHexDigit (small : Character.isSmallHexDigit char = true) :
    inWord char = true := by
  apply inWord_of_isUnreserved
  rcases Bool.or_eq_true_iff.1 small with digit | letter
  · rw [isUnreserved, digit]
    simp
  · rw [Bool.and_eq_true, decide_eq_true_iff, decide_eq_true_iff] at letter
    have wide : char ≤ 'z' := Char.le_trans letter.2 (by decide)
    rw [isUnreserved, Character.isLetter, decide_eq_true letter.1, decide_eq_true wide]
    rfl

theorem all_inWord_of_isHex (hex : InfoHash.IsHex draft.infoHash) :
    draft.infoHash.all inWord = true := by
  apply List.all_eq_true.2
  intro char member
  exact inWord_of_isSmallHexDigit (hex.digits char member)

theorem escapes_topicValue (hex : InfoHash.IsHex draft.infoHash) :
    Escapes draft.topicValue (Utf8.encode draft.topicValue) := by
  have lead : ['u', 'r', 'n', ':', 'b', 't', 'i', 'h', ':'].all inWord = true := by decide
  apply escapes_word
  rw [topicValue, List.all_append, lead, all_inWord_of_isHex hex]
  rfl

def pieces (draft : Draft) : List Text :=
  (['x', 't'] ++ '=' :: draft.topicValue) :: draft.furtherParams

theorem writes_pieces (hex : InfoHash.IsHex draft.infoHash) :
    List.Forall₂ Writes ((['x', 't'], draft.topicValue) :: draft.fields) draft.pieces := by
  refine .cons ⟨?_, draft.topicValue, escapes_topicValue hex, rfl⟩ draft.writes_further
  exact escapes_key (by simp)

theorem mem_of_forall₂ {α β : Type} {relation : α → β → Prop} {items : List α} {results : List β}
    (related : List.Forall₂ relation items results) :
    ∀ result ∈ results, ∃ item ∈ items, relation item result := by
  induction related with
  | nil =>
      intro result member
      cases member
  | @cons item result _ _ first _ ih =>
      intro other member
      rcases List.mem_cons.1 member with same | later
      · rw [same]
        exact ⟨item, List.mem_cons_self, first⟩
      · obtain ⟨source, inside, holds⟩ := ih other later
        exact ⟨source, List.mem_cons_of_mem item inside, holds⟩

theorem inUserinfo_of_inValue (member : inValue char = true) :
    Character.inUserinfo char = true := by
  rw [inValue, inWord, Bool.or_eq_true, Bool.or_eq_true, beq_iff_eq, beq_iff_eq] at member
  rcases member with (unreserved | colon) | plus
  · exact Grammar.inUserinfo_of_isUnreserved unreserved
  · rw [colon]
    decide
  · rw [plus]
    decide

theorem inPath_of_inValue (member : inValue char = true) : Character.inPath char = true := by
  rw [Character.inPath, inUserinfo_of_inValue member]
  rfl

theorem Escapes.inQuery (escapes : Escapes text bytes) : Run Character.inQuery text := by
  apply escapes.run.mono
  intro char member
  rw [Character.inQuery, inPath_of_inValue member]
  rfl

theorem run_of_writes {field : Text × Text} {piece : Text} (writes : Writes field piece) :
    Run Character.inQuery piece := by
  obtain ⟨value, valueEscapes, equal⟩ := writes.value
  rw [equal]
  exact writes.key.inQuery.append (.plain (by decide) valueEscapes.inQuery)

theorem ampersand_not_mem_piece {field : Text × Text} {piece : Text}
    (writes : Writes field piece) : '&' ∉ piece := by
  obtain ⟨value, valueEscapes, equal⟩ := writes.value
  rw [equal, List.mem_append, List.mem_cons]
  intro member
  rcases member with inKey | equals | inValue
  · exact ampersand_not_mem writes.key inKey
  · cases equals
  · exact ampersand_not_mem valueEscapes inValue

theorem run_join {parts : List Text} (runs : ∀ part ∈ parts, Run Character.inQuery part) :
    Run Character.inQuery (Text.join '&' parts) := by
  induction parts with
  | nil => exact .nil
  | cons part others ih =>
      rw [List.forall_mem_cons] at runs
      cases others with
      | nil => exact runs.1
      | cons next others => exact runs.1.append (.plain (by decide) (ih runs.2))

theorem uri_derives (hex : InfoHash.IsHex draft.infoHash) : draft.uri.Derives where
  scheme := Uri.mem_scheme.2 ⟨'m', ['a', 'g', 'n', 'e', 't'], rfl, by decide, by decide⟩
  authority := nofun
  path := Grammar.mem_pathAlone.2 ⟨.nil, nofun⟩
  query := by
    intro text found
    cases found
    apply Grammar.mem_query.2
    apply run_join
    intro piece member
    obtain ⟨field, _, writes⟩ := mem_of_forall₂ (writes_pieces hex) piece member
    exact run_of_writes writes
  fragment := nofun

theorem uri_text (draft : Draft) : draft.uri.text = draft.text := by
  simp [Uri.text, uri, text, magnetScheme]

theorem topicUri_derives (hex : InfoHash.IsHex draft.infoHash) : draft.topicUri.Derives where
  scheme := Uri.mem_scheme.2 ⟨'u', ['r', 'n'], rfl, by decide, by decide⟩
  authority := nofun
  path := by
    refine Grammar.mem_pathAlone.2 ⟨?_, nofun⟩
    have word : (['b', 't', 'i', 'h', ':'] ++ draft.infoHash).all inWord = true := by
      rw [List.all_append, all_inWord_of_isHex hex]
      rfl
    apply (Grammar.run_of_all word).mono
    intro char member
    exact inPath_of_inValue (Bool.or_eq_true_iff.2 (Or.inl member))
  query := nofun
  fragment := nofun

theorem parse_topicValue (hex : InfoHash.IsHex draft.infoHash) :
    Uri.parse draft.topicValue = .ok draft.topicUri := by
  apply Uri.parse_eq_ok_iff.2
  refine ⟨?_, topicUri_derives hex⟩
  simp [Uri.text, topicUri, topicValue]

structure Params (draft : Draft) (topic : Param) (further : List Param) : Prop where
  listed : draft.link.query.Lists (topic :: further)
  topicKey : topic.key.text = ['x', 't']
  topicBytes : topic.key.bytes = Utf8.encode ['x', 't']
  topicValue : topic.value?.map Percent.Encoded.text = some draft.topicValue
  further : List.Forall₂ Carries draft.fields further

theorem exists_draftParams (hex : InfoHash.IsHex draft.infoHash) :
    ∃ topic further, Params draft topic further := by
  obtain ⟨further, furtherRead, carried⟩ := exists_params draft.writes_further
  have key : Escapes ['x', 't'] (Utf8.encode ['x', 't']) := escapes_key (by simp)
  obtain ⟨topic, encoded, topicRead, topicKey, there, written, _⟩ :=
    read_piece key (escapes_topicValue hex)
  refine ⟨topic, further, ?_, topicKey.1, topicKey.2, ?_, carried⟩
  · have separated : Text.separate '&' draft.query = draft.pieces := by
      apply Text.separate_join (List.cons_ne_nil _ _)
      intro piece member
      obtain ⟨field, _, writes⟩ := mem_of_forall₂ (writes_pieces hex) piece member
      exact ampersand_not_mem_piece writes
    change (Text.separate '&' draft.query).map (Param.read true) = _
    rw [separated, pieces, List.map_cons, List.map_cons, topicRead, furtherRead]
  · rw [there, Option.map_some, written]

theorem mem_fields_cases {field : Text × Text} (member : field ∈ draft.fields) :
    field.1 = ['d', 'n'] ∨ (field.1 = ['t', 'r'] ∧ field.2 ∈ draft.trackers.getD []) ∨
      (field.1 = ['w', 's'] ∧ field.2 ∈ draft.webSeeds.getD []) := by
  have listed (key : Text) (values : List Text) (inside : field ∈ values.map (key, ·)) :
      field.1 = key ∧ field.2 ∈ values := by
    obtain ⟨value, present, same⟩ := List.mem_map.1 inside
    rw [← same]
    exact ⟨rfl, present⟩
  unfold fields at member
  rcases List.mem_append.1 member with inside | seed
  · rcases List.mem_append.1 inside with named | tracker
    · split at named
      next =>
        rw [List.mem_singleton.1 named]
        exact Or.inl rfl
      next => cases named
    · exact Or.inr (Or.inl (listed _ _ tracker))
  · exact Or.inr (Or.inr (listed _ _ seed))

theorem key_of_mem_fields {field : Text × Text} (member : field ∈ draft.fields) :
    field.1 ∈ [['d', 'n'], ['t', 'r'], ['w', 's']] := by
  rcases mem_fields_cases member with named | ⟨tracker, _⟩ | ⟨seed, _⟩
  · simp [named]
  · simp [tracker]
  · simp [seed]

theorem Params.keyBytes {topic param : Param} {further : List Param}
    (params : Params draft topic further) (member : param ∈ further) :
    ∃ key ∈ [['d', 'n'], ['t', 'r'], ['w', 's']], param.key.bytes = Utf8.encode key := by
  obtain ⟨field, inside, carries⟩ := mem_of_forall₂ params.further param member
  exact ⟨field.1, key_of_mem_fields inside, carries.keyBytes⟩

theorem Params.isTopic_topic {topic : Param} {further : List Param}
    (params : Params draft topic further) : Field.isTopic topic = true := by
  rw [Field.isTopic, params.topicBytes]
  decide

theorem Params.isTopic_further {topic param : Param} {further : List Param}
    (params : Params draft topic further) (member : param ∈ further) :
    Field.isTopic param = false := by
  have others : ∀ key ∈ [['d', 'n'], ['t', 'r'], ['w', 's']],
      Field.isTopicKey (Utf8.encode key) = false := by decide
  obtain ⟨key, known, bytes⟩ := params.keyBytes member
  rw [Field.isTopic, bytes]
  exact others key known

theorem Params.valueText {topic : Param} {further : List Param}
    (params : Params draft topic further) : topic.valueText = draft.topicValue := by
  obtain ⟨value, there, written⟩ := Option.map_eq_some_iff.1 params.topicValue
  rw [Param.valueText, there]
  exact written

theorem Params.passes {topic : Param} {further : List Param} (hex : InfoHash.IsHex draft.infoHash)
    (params : Params draft topic further) : ∀ param ∈ topic :: further, Passes param := by
  intro param member isTopic
  rcases List.mem_cons.1 member with same | later
  · rw [same, params.valueText]
    exact ⟨draft.topicUri, parse_topicValue hex⟩
  · have other := params.isTopic_further later
    rw [Field.isTopic_iff.2 isTopic] at other
    cases other

theorem parse_text (hex : InfoHash.IsHex draft.infoHash) :
    parse Settings.standard draft.text = .ok draft.link := by
  obtain ⟨topic, further, params⟩ := exists_draftParams hex
  have parsed : Uri.parseAbsolute draft.text = .ok draft.uri :=
    Uri.parseAbsolute_eq_ok_iff.2 ⟨uri_text draft, uri_derives hex, rfl⟩
  refine parse_eq_ok_iff.2 ⟨rfl, parsed, topic :: further, ?_⟩
  refine ⟨fun _ => (by decide : magnetScheme.map Character.small = magnetScheme), params.listed, ?_,
    params.passes hex⟩
  exact ⟨topic, List.mem_cons_self, Field.isTopic_iff.1 params.isTopic_topic⟩

end MagnetUri.Link.Draft

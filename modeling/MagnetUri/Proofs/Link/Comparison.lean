import MagnetUri.Proofs.Link.Acceptance
import MagnetUri.Proofs.Link.Fields
import MagnetUri.Proofs.Peer
import MagnetUri.Proofs.Query
import MagnetUri.Proofs.Utf8.Canonical
import Mathlib.Data.List.Forall2

set_option autoImplicit false

/-! Links compared by their parameters. The checks look only at which parameters are exact
topics and at how their values are written, so parameters that agree in this are checked with one
outcome. An identifier may hold a plus sign but no space, and only there two meanings of plus signs
part. -/

namespace MagnetUri

open Percent (Encoded space plus)
open Percent.Encoded (Indifferent)

namespace Field

variable {key : Text} {bytes : List UInt8} {param : Param}

/-- A key that a parameter spells without spaces and plus signs. -/
def Unspaced (key : Text) : Prop :=
  space ∉ Utf8.encode key ∧ plus ∉ Utf8.encode key

instance (key : Text) : Decidable (Unspaced key) :=
  inferInstanceAs (Decidable (_ ∧ _))

theorem spells_withPlus (unspaced : Unspaced key) (encoded : Encoded) (plusAsSpace : Bool) :
    (encoded.withPlus plusAsSpace).spells key = encoded.spells key := by
  have indifferent : Indifferent (· = Utf8.encode key) False := by
    intro bytes present
    apply eq_false
    intro same
    rw [same] at present
    rcases present with inside | inside
    · exact unspaced.1 inside
    · exact unspaced.2 inside
  rw [Bool.eq_iff_iff, Encoded.spells_iff, Encoded.spells_iff]
  exact iff_of_eq (indifferent.withPlus encoded plusAsSpace)

theorem not_mem_of_isTopicKey {byte : UInt8} (accepted : isTopicKey bytes = true)
    (other : byte ∉ [0x78, 0x74, 0x2E]) (noDigit : isDigitByte byte = false) : byte ∉ bytes := by
  unfold isTopicKey at accepted
  split at accepted
  next =>
    intro member
    exact other (List.mem_append_left [0x2E] member)
  next number =>
    rw [Bool.and_eq_true] at accepted
    intro member
    have later : byte ∈ number :=
      (List.mem_append.1 (member : byte ∈ [0x78, 0x74, 0x2E] ++ number)).resolve_left other
    have digit := List.all_eq_true.1 accepted.2 byte later
    rw [noDigit] at digit
    cases digit
  next => cases accepted

theorem isTopic_withPlus (plusAsSpace : Bool) (param : Param) :
    isTopic (param.withPlus plusAsSpace) = isTopic param := by
  have indifferent : Indifferent isTopicKey false := by
    intro bytes present
    apply Bool.eq_false_iff.2
    intro accepted
    rcases present with inside | inside
    · exact not_mem_of_isTopicKey accepted (by decide) (by decide) inside
    · exact not_mem_of_isTopicKey accepted (by decide) (by decide) inside
  exact indifferent.withPlus param.key plusAsSpace

/-- What turns down every text with a space or a plus sign is indifferent. -/
theorem indifferent_decodeLossy {γ : Type} {reading : Text → γ} {refusal : γ}
    (spaced : ∀ text, ' ' ∈ text → reading text = refusal)
    (marked : ∀ text, '+' ∈ text → reading text = refusal) :
    Indifferent (fun bytes => reading (Utf8.decodeLossy bytes)) refusal := by
  intro bytes present
  rcases present with inside | inside
  · exact spaced _ (Utf8.mem_decodeLossy (by decide) inside)
  · exact marked _ (Utf8.mem_decodeLossy (by decide) inside)

theorem ofHint?_decode_withPlus (encoded : Encoded) (plusAsSpace : Bool) :
    Peer.ofHint? (encoded.withPlus plusAsSpace).decode = Peer.ofHint? encoded.decode := by
  have indifferent : Indifferent (fun bytes => Peer.ofHint? (Utf8.decodeLossy bytes)) none :=
    indifferent_decodeLossy (fun _ => Peer.ofHint?_of_not_inKey (by decide))
      (fun _ => Peer.ofHint?_of_not_inKey (by decide))
  exact indifferent.withPlus encoded plusAsSpace

theorem safeNumber?_of_not_isDigit {char : Char} {text : Text}
    (other : Character.isDigit char = false) (member : char ∈ text) :
    Link.safeNumber? text = none := by
  rw [Link.safeNumber?, if_neg]
  intro numeral
  rw [Decimal.isNumeral, Bool.and_eq_true] at numeral
  have digit := List.all_eq_true.1 numeral.2 char member
  rw [other] at digit
  cases digit

theorem safeNumber?_decode_withPlus (encoded : Encoded) (plusAsSpace : Bool) :
    Link.safeNumber? (encoded.withPlus plusAsSpace).decode = Link.safeNumber? encoded.decode := by
  have indifferent : Indifferent (fun bytes => Link.safeNumber? (Utf8.decodeLossy bytes)) none :=
    indifferent_decodeLossy (fun _ => safeNumber?_of_not_isDigit (by decide))
      (fun _ => safeNumber?_of_not_isDigit (by decide))
  exact indifferent.withPlus encoded plusAsSpace

theorem hintOf?_withPlus (plusAsSpace : Bool) (param : Param) :
    hintOf? (param.withPlus plusAsSpace) = hintOf? param := by
  obtain ⟨key, value?⟩ := param
  unfold hintOf? Param.withPlus
  rw [spells_withPlus (by decide)]
  cases value? with
  | none => rfl
  | some value => simp only [Option.map_some, Option.bind_some, ofHint?_decode_withPlus]

theorem isUri_of_space {text : Text} (member : ' ' ∈ text) : isUri text = false := by
  apply Bool.eq_false_iff.2
  intro accepted
  obtain ⟨uri, found⟩ := isUri_iff.1 accepted
  obtain ⟨written, derives⟩ := Uri.parse_eq_ok_iff.1 found
  apply derives.space_not_mem
  rw [written]
  exact member

/-- A plus sign that is read as a space keeps the value from being an identifier. -/
theorem decode?_filter_isUri_of_space (member : space ∈ bytes) :
    (Utf8.decode? bytes).filter isUri = none := by
  cases decoded : Utf8.decode? bytes with
  | none => rfl
  | some text =>
      have inside : ' ' ∈ text := Utf8.mem_of_decode? decoded (by decide) member
      simp [isUri_of_space inside]

theorem urlOf?_withPlus_true (unspaced : Unspaced key) (param : Param) :
    urlOf? key (param.withPlus true) =
      if '+' ∈ param.valueText then none else urlOf? key param := by
  obtain ⟨keyText, value?⟩ := param
  unfold urlOf? Param.withPlus
  rw [spells_withPlus unspaced]
  cases value? with
  | none => simp [Param.valueText]
  | some value =>
      by_cases present : '+' ∈ value.text
      · have spaced : space ∈ (value.withPlus true).bytes := by
          have written : '+' ∈ (value.withPlus true).text := present
          exact Encoded.mem_bytes_of_plus written
        simp [Param.valueText, present, decode?_filter_isUri_of_space spaced]
      · have same := Encoded.bytes_withPlus present true
        simp only [Param.valueText, Option.elim_some, present, Option.map_some, Option.bind_some,
          same, if_false]

end Field
end MagnetUri

namespace MagnetUri.Link

open MagnetUri.Field (IsTopic isTopic isTopic_iff isUri)

structure SameTopic (left right : Param) : Prop where
  isTopic : isTopic left = isTopic right
  written : IsTopic left → left.valueText = right.valueText

variable {left right : Param} {lefts rights : List Param}

/-- The place of a topic and its value as it is written. -/
def spell (topic : Nat × Param) : Nat × Text :=
  (topic.1, topic.2.valueText)

theorem map_spell_topicsFrom (alike : List.Forall₂ SameTopic lefts rights) (index : Nat) :
    (topicsFrom index lefts).map spell = (topicsFrom index rights).map spell := by
  induction alike generalizing index with
  | nil => rfl
  | @cons left right lefts rights first later ih =>
      rw [topicsFrom, topicsFrom, ← first.isTopic]
      split
      next topic =>
        have written := first.written (isTopic_iff.1 topic)
        rw [List.map_cons, List.map_cons, ih, spell, spell, written]
      next => exact ih (index + 1)

/-- The outcome of checking the topics at these places, with values written like this. -/
def verdict (topics : List (Nat × Text)) : Except Error Unit :=
  if topics = [] then .error .missingTopic
  else
    match topics.find? fun topic => !isUri topic.2 with
    | some (index, _) => .error (.invalidTopic index)
    | none => .ok ()

theorem checkTopics_eq_verdict (params : List Param) :
    checkTopics params = verdict ((topicsFrom 0 params).map spell) := by
  have found : ((topicsFrom 0 params).map spell).find? (fun topic => !isUri topic.2) =
      ((topicsFrom 0 params).find? isBad).map spell := List.find?_map
  rw [checkTopics_eq, verdict, found]
  simp only [List.map_eq_nil_iff]
  cases (topicsFrom 0 params).find? isBad <;> rfl

theorem checkTopics_congr (alike : List.Forall₂ SameTopic lefts rights) :
    checkTopics lefts = checkTopics rights := by
  rw [checkTopics_eq_verdict, checkTopics_eq_verdict, map_spell_topicsFrom alike]

theorem sameTopic_withPlus (plusAsSpace : Bool) (param : Param) :
    SameTopic param (param.withPlus plusAsSpace) where
  isTopic := (Field.isTopic_withPlus plusAsSpace param).symm
  written := fun _ => (Param.valueText_withPlus plusAsSpace param).symm

/-- The meaning of plus signs makes no difference to the checks. -/
theorem checkTopics_withPlus (plusAsSpace : Bool) (params : List Param) :
    checkTopics (params.map (Param.withPlus plusAsSpace)) = checkTopics params := by
  symm
  apply checkTopics_congr
  rw [List.forall₂_map_right_iff, List.forall₂_same]
  intro param _
  exact sameTopic_withPlus plusAsSpace param

def outcome (result : Except Error Link) : Except Error Unit :=
  result.map fun _ => ()

theorem outcome_eq_error_iff {result : Except Error Link} {error : Error} :
    outcome result = .error error ↔ result = .error error := by
  cases result with
  | error other => exact Iff.intro (fun same => by cases same; rfl) fun same => by cases same; rfl
  | ok link => exact iff_of_false nofun nofun

theorem outcome_eq_ok_iff {result : Except Error Link} :
    outcome result = .ok () ↔ ∃ link, result = .ok link := by
  cases result with
  | error other => exact iff_of_false nofun nofun
  | ok link => exact iff_of_true rfl ⟨link, rfl⟩

variable {first second : Settings} {one other : Uri}

theorem check_congr (required : first.requireMagnetScheme = second.requireMagnetScheme)
    (scheme : one.smallScheme = other.smallScheme)
    (listed : (one.params first.plusAsSpace).Lists lefts)
    (otherListed : (other.params second.plusAsSpace).Lists rights)
    (same : checkTopics lefts = checkTopics rights) :
    outcome (check first one) = outcome (check second other) := by
  have agree : SchemeAllowed first one ↔ SchemeAllowed second other := by
    rw [SchemeAllowed, SchemeAllowed, required, scheme]
  by_cases allowed : SchemeAllowed first one
  · rw [check_of_allowed allowed listed, check_of_allowed (agree.1 allowed) otherListed, same]
    cases checkTopics rights <;> rfl
  · rw [check_of_forbidden allowed, check_of_forbidden (allowed ∘ agree.2)]

theorem parse_of_absolute {settings : Settings} {text : Text} {uri : Uri}
    (parsed : Uri.parseAbsolute text = .ok uri) : parse settings text = check settings uri := by
  obtain ⟨joined, derives, absolute⟩ := Uri.parseAbsolute_eq_ok_iff.1 parsed
  have found : Uri.read false text = .ok (uri, []) :=
    Uri.read_eq_ok_iff.2 ⟨(List.append_nil uri.text).trans joined, derives, fun _ => absolute,
      Uri.ends_nil⟩
  cases checked : check settings uri with
  | error error => exact parse_of_rejected found checked
  | ok link => rw [parse_of_checked found checked, if_pos rfl]

end MagnetUri.Link

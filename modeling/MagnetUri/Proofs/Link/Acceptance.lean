import MagnetUri.Link.Parser
import MagnetUri.Proofs.Field
import MagnetUri.Proofs.Query

set_option autoImplicit false

/-! Which texts are magnet links, and why another text is none. The checks are told one
by one and in the order in which they are made, each of them on the longest beginning of
the text that is an absolute identifier. -/

namespace MagnetUri.Link

open MagnetUri.Field (IsTopic isTopic isTopic_iff isUri isUri_iff)

variable {params before after : List Param} {param : Param} {index place : Nat} {error : Error}

/-- A parameter that is an exact topic has a value that is an identifier. -/
def Passes (param : Param) : Prop :=
  IsTopic param → ∃ topic, Uri.parse param.valueText = .ok topic

inductive BadTopics (params : List Param) : Error → Prop
  | missing (none : ∀ param ∈ params, ¬ IsTopic param) : BadTopics params .missingTopic
  | invalid {before after : List Param} {param : Param}
      (split : params = before ++ param :: after) (earlier : ∀ other ∈ before, Passes other)
      (topic : IsTopic param) (bad : ∀ uri, Uri.parse param.valueText ≠ .ok uri) :
      BadTopics params (.invalidTopic before.length)

theorem topicsFrom_eq_nil_iff :
    topicsFrom index params = [] ↔ ∀ param ∈ params, ¬ IsTopic param := by
  induction params generalizing index with
  | nil => exact ⟨fun _ _ member => (by cases member), fun _ => rfl⟩
  | cons first others ih =>
      rw [List.forall_mem_cons, topicsFrom]
      split
      next topic =>
        constructor
        · intro impossible
          cases impossible
        · rintro ⟨other, _⟩
          exact absurd (isTopic_iff.1 topic) other
      next other =>
        rw [ih, isTopic_iff] at *
        exact ⟨fun later => ⟨other, later⟩, fun both => both.2⟩

def isBad (topic : Nat × Param) : Bool :=
  !isUri topic.2.valueText

theorem isBad_iff : isBad (place, param) = true ↔ ∀ uri, Uri.parse param.valueText ≠ .ok uri := by
  rw [isBad, Bool.not_eq_true', Bool.eq_false_iff, ne_eq, isUri_iff, not_exists]

theorem passes_of_not_isBad (good : isBad (place, param) = false) : Passes param := by
  rw [isBad, Bool.not_eq_false'] at good
  exact fun _ => isUri_iff.1 good

/-- A parameter in front of others that passes adds nothing to what is found in them. -/
theorem find?_topicsFrom_cons (passes : Passes param) :
    (topicsFrom index (param :: after)).find? isBad =
      (topicsFrom (index + 1) after).find? isBad := by
  rw [topicsFrom]
  split
  next topic =>
    have good : isBad (index, param) = false := by
      rw [isBad, isUri_iff.2 (passes (isTopic_iff.1 topic))]
      rfl
    rw [List.find?_cons, good]
  next => rfl

theorem find?_topicsFrom_append (earlier : ∀ other ∈ before, Passes other) (topic : IsTopic param)
    (bad : ∀ uri, Uri.parse param.valueText ≠ .ok uri) :
    (topicsFrom index (before ++ param :: after)).find? isBad =
      some (index + before.length, param) := by
  induction before generalizing index with
  | nil =>
      rw [List.nil_append, topicsFrom, if_pos (isTopic_iff.2 topic), List.find?_cons,
        isBad_iff.2 bad]
      rfl
  | cons first others ih =>
      rw [List.forall_mem_cons] at earlier
      rw [List.cons_append, find?_topicsFrom_cons earlier.1, ih earlier.2, List.length_cons,
        Nat.add_assoc, Nat.add_comm 1]

theorem passes_of_find?_topicsFrom (none : (topicsFrom index params).find? isBad = none) :
    ∀ param ∈ params, Passes param := by
  induction params generalizing index with
  | nil =>
      intro param member
      cases member
  | cons first others ih =>
      rw [topicsFrom] at none
      rw [List.forall_mem_cons]
      split at none
      next topic =>
        rw [List.find?_cons] at none
        split at none
        next => cases none
        next good => exact ⟨passes_of_not_isBad good, ih none⟩
      next other => exact ⟨fun topic => absurd (isTopic_iff.2 topic) other, ih none⟩

theorem exists_of_find?_topicsFrom
    (found : (topicsFrom index params).find? isBad = some (place, param)) :
    ∃ before after, params = before ++ param :: after ∧ place = index + before.length ∧
      (∀ other ∈ before, Passes other) ∧ IsTopic param ∧
      ∀ uri, Uri.parse param.valueText ≠ .ok uri := by
  induction params generalizing index with
  | nil => cases found
  | cons first others ih =>
      by_cases passes : Passes first
      · rw [find?_topicsFrom_cons passes] at found
        obtain ⟨before, after, split, counted, earlier, topic, bad⟩ := ih found
        refine ⟨first :: before, after, by rw [split]; rfl, ?_, ?_, topic, bad⟩
        · rw [counted, List.length_cons, Nat.add_assoc, Nat.add_comm 1]
        · exact List.forall_mem_cons.2 ⟨passes, earlier⟩
      · obtain ⟨topic, bad⟩ := Classical.not_imp.1 passes
        rw [not_exists] at bad
        have none : ∀ other ∈ [], Passes other := nofun
        have here : (topicsFrom index ([] ++ first :: others)).find? isBad =
            some (index + 0, first) := find?_topicsFrom_append none topic bad
        rw [List.nil_append, found] at here
        cases here
        exact ⟨[], others, rfl, rfl, fun _ member => (by cases member), topic, bad⟩

theorem checkTopics_eq : checkTopics params =
    if topicsFrom 0 params = [] then .error .missingTopic
    else
      match (topicsFrom 0 params).find? isBad with
      | some (place, _) => .error (.invalidTopic place)
      | none => .ok () := by
  unfold checkTopics
  split
  next empty => rw [if_pos empty]
  next there => rw [if_neg there]; rfl

theorem checkTopics_eq_ok_iff : checkTopics params = .ok () ↔
    (∃ param ∈ params, IsTopic param) ∧ ∀ param ∈ params, Passes param := by
  have there : topicsFrom 0 params ≠ [] ↔ ∃ param ∈ params, IsTopic param := by
    simp only [ne_eq, topicsFrom_eq_nil_iff, not_forall, not_not, exists_prop]
  rw [← there, checkTopics_eq]
  constructor
  · intro accepted
    split at accepted
    next => cases accepted
    next nonempty =>
      split at accepted
      next => cases accepted
      next none => exact ⟨nonempty, passes_of_find?_topicsFrom none⟩
  · rintro ⟨nonempty, passes⟩
    rw [if_neg nonempty]
    split
    next place param found =>
      obtain ⟨before, after, split, _, _, topic, bad⟩ := exists_of_find?_topicsFrom found
      have member : param ∈ params := by
        rw [split]
        exact List.mem_append_cons_self
      obtain ⟨uri, found⟩ := passes param member topic
      exact absurd found (bad uri)
    next => rfl

theorem checkTopics_eq_error_iff : checkTopics params = .error error ↔ BadTopics params error := by
  rw [checkTopics_eq]
  constructor
  · intro rejected
    split at rejected
    next empty =>
      cases rejected
      exact .missing (topicsFrom_eq_nil_iff.1 empty)
    next =>
      split at rejected
      next place param found =>
        cases rejected
        obtain ⟨before, after, split, counted, earlier, topic, bad⟩ :=
          exists_of_find?_topicsFrom found
        rw [counted, Nat.zero_add]
        exact .invalid split earlier topic bad
      next => cases rejected
  · intro reason
    cases reason with
    | missing none => rw [if_pos (topicsFrom_eq_nil_iff.2 none)]
    | @invalid before after param split earlier topic bad =>
        have member : param ∈ params := by
          rw [split]
          exact List.mem_append_cons_self
        have there : topicsFrom 0 params ≠ [] := by
          intro empty
          exact topicsFrom_eq_nil_iff.1 empty param member topic
        rw [if_neg there, split, find?_topicsFrom_append earlier topic bad, Nat.zero_add]

variable {settings : Settings} {text rest : Text} {uri : Uri} {link : Link}

def SchemeAllowed (settings : Settings) (uri : Uri) : Prop :=
  settings.requireMagnetScheme = true → uri.smallScheme = magnetScheme

structure Qualifies (settings : Settings) (uri : Uri) (params : List Param) : Prop where
  scheme : SchemeAllowed settings uri
  listed : (uri.params settings.plusAsSpace).Lists params
  topic : ∃ param ∈ params, IsTopic param
  topics : ∀ param ∈ params, Passes param

inductive Rejection (settings : Settings) (text : Text) : Error → Prop
  | malformed {cause : Uri.SyntaxError} (failed : Uri.read false text = .error cause) :
      Rejection settings text (.malformed cause)
  | scheme {uri : Uri} {rest : Text} (found : Uri.read false text = .ok (uri, rest))
      (forbidden : ¬ SchemeAllowed settings uri) : Rejection settings text .scheme
  | topics {uri : Uri} {rest : Text} {params : List Param} {error : Error}
      (found : Uri.read false text = .ok (uri, rest)) (allowed : SchemeAllowed settings uri)
      (listed : (uri.params settings.plusAsSpace).Lists params)
      (bad : BadTopics params error) : Rejection settings text error
  | leftover {uri : Uri} {rest : Text} {params : List Param}
      (found : Uri.read false text = .ok (uri, rest)) (qualifies : Qualifies settings uri params)
      (more : rest ≠ []) :
      Rejection settings text
        (.malformed { fault := .leftover rest, position := Text.unitLength uri.text })

theorem check_of_forbidden (forbidden : ¬ SchemeAllowed settings uri) :
    check settings uri = .error .scheme := by
  obtain ⟨required, other⟩ := Classical.not_imp.1 forbidden
  rw [check, if_pos]
  rw [required, Bool.true_and, bne_iff_ne]
  exact other

theorem check_of_allowed (allowed : SchemeAllowed settings uri)
    (listed : (uri.params settings.plusAsSpace).Lists params) : check settings uri =
      (checkTopics params).map fun _ => { uri, plusAsSpace := settings.plusAsSpace } := by
  rw [check, if_neg, listed.mapM]
  rw [Bool.and_eq_true, bne_iff_ne, not_and, not_not]
  exact allowed

theorem check_eq_ok_iff (derives : uri.Derives) : check settings uri = .ok link ↔
    link = { uri, plusAsSpace := settings.plusAsSpace } ∧
      ∃ params, Qualifies settings uri params := by
  obtain ⟨params, listed⟩ := uri.exists_params derives settings.plusAsSpace
  by_cases allowed : SchemeAllowed settings uri
  · rw [check_of_allowed allowed listed]
    constructor
    · intro accepted
      cases checked : checkTopics params with
      | error cause =>
          rw [checked] at accepted
          cases accepted
      | ok =>
          rw [checked] at accepted
          cases accepted
          have topics := checkTopics_eq_ok_iff.1 checked
          exact ⟨rfl, params, allowed, listed, topics.1, topics.2⟩
    · rintro ⟨equal, others, qualifies⟩
      have same := listed.unique qualifies.listed
      rw [checkTopics_eq_ok_iff.2 (same ▸ ⟨qualifies.topic, qualifies.topics⟩), equal]
      rfl
  · rw [check_of_forbidden allowed]
    constructor
    · intro impossible
      cases impossible
    · rintro ⟨_, _, qualifies⟩
      exact absurd qualifies.scheme allowed

theorem check_eq_error_iff (derives : uri.Derives) : check settings uri = .error error ↔
    (error = .scheme ∧ ¬ SchemeAllowed settings uri) ∨
      (SchemeAllowed settings uri ∧ ∃ params, (uri.params settings.plusAsSpace).Lists params ∧
        BadTopics params error) := by
  obtain ⟨params, listed⟩ := uri.exists_params derives settings.plusAsSpace
  by_cases allowed : SchemeAllowed settings uri
  · rw [check_of_allowed allowed listed]
    constructor
    · intro rejected
      cases checked : checkTopics params with
      | error cause =>
          rw [checked] at rejected
          cases rejected
          exact Or.inr ⟨allowed, params, listed, checkTopics_eq_error_iff.1 checked⟩
      | ok =>
          rw [checked] at rejected
          cases rejected
    · rintro (⟨_, forbidden⟩ | ⟨_, others, otherListed, bad⟩)
      · exact absurd allowed forbidden
      · rw [listed.unique otherListed, checkTopics_eq_error_iff.2 bad]
        rfl
  · rw [check_of_forbidden allowed]
    constructor
    · intro same
      cases same
      exact Or.inl ⟨rfl, allowed⟩
    · rintro (⟨same, _⟩ | ⟨other, _⟩)
      · rw [same]
      · exact absurd other allowed

theorem leftover_eq (found : Uri.read false text = .ok (uri, rest)) :
    Uri.leftover text rest =
      { fault := .leftover rest, position := Text.unitLength uri.text } := by
  obtain ⟨joined, derives, _⟩ := Uri.read_eq_ok_iff.1 found
  have length : text.length - rest.length = Text.unitLength uri.text := by
    rw [derives.unitLength, ← joined, List.length_append, Nat.add_sub_cancel]
  rw [Uri.leftover, length]

theorem parse_of_failed {cause : Uri.SyntaxError} (failed : Uri.read false text = .error cause) :
    parse settings text = .error (.malformed cause) := by
  rw [parse, read, failed]

theorem parse_of_rejected (found : Uri.read false text = .ok (uri, rest))
    (rejected : check settings uri = .error error) : parse settings text = .error error := by
  rw [parse, read, found]
  simp only [rejected]
  rfl

theorem parse_of_checked (found : Uri.read false text = .ok (uri, rest))
    (checked : check settings uri = .ok link) : parse settings text =
      if rest = [] then .ok link else .error (.malformed (Uri.leftover text rest)) := by
  rw [parse, read, found]
  simp only [checked]
  cases rest with
  | nil => rfl
  | cons char after => rfl

theorem parse_eq_ok_iff : parse settings text = .ok link ↔
    link.plusAsSpace = settings.plusAsSpace ∧ Uri.parseAbsolute text = .ok link.uri ∧
      ∃ params, Qualifies settings link.uri params := by
  constructor
  · intro accepted
    cases found : Uri.read false text with
    | error cause =>
        rw [parse_of_failed found] at accepted
        cases accepted
    | ok parts =>
        obtain ⟨uri, rest⟩ := parts
        obtain ⟨_, derives, _⟩ := Uri.read_eq_ok_iff.1 found
        cases checked : check settings uri with
        | error cause =>
            rw [parse_of_rejected found checked] at accepted
            cases accepted
        | ok other =>
            rw [parse_of_checked found checked] at accepted
            split at accepted
            next empty =>
              cases accepted
              obtain ⟨equal, qualifies⟩ := (check_eq_ok_iff derives).1 checked
              rw [empty] at found
              rw [equal, Uri.parseAbsolute, Uri.ofText, found]
              exact ⟨rfl, rfl, qualifies⟩
            next => cases accepted
  · rintro ⟨plus, parsed, qualifies⟩
    obtain ⟨joined, derives, absolute⟩ := Uri.parseAbsolute_eq_ok_iff.1 parsed
    have found : Uri.read false text = .ok (link.uri, []) :=
      Uri.read_eq_ok_iff.2 ⟨(List.append_nil link.uri.text).trans joined, derives, fun _ => absolute,
        Uri.ends_nil⟩
    have checked : check settings link.uri = .ok link :=
      (check_eq_ok_iff derives).2 ⟨by rw [← plus], qualifies⟩
    rw [parse_of_checked found checked, if_pos rfl]

theorem exists_params_of_parse (accepted : parse settings text = .ok link) :
    ∃ params, link.query.Lists params ∧ ∀ param ∈ params, Passes param := by
  obtain ⟨plus, _, params, qualifies⟩ := parse_eq_ok_iff.1 accepted
  refine ⟨params, ?_, qualifies.topics⟩
  rw [query, plus]
  exact qualifies.listed

theorem parse_eq_error_iff :
    parse settings text = .error error ↔ Rejection settings text error := by
  constructor
  · intro rejected
    cases found : Uri.read false text with
    | error cause =>
        rw [parse_of_failed found] at rejected
        cases rejected
        exact .malformed found
    | ok parts =>
        obtain ⟨uri, rest⟩ := parts
        obtain ⟨_, derives, _⟩ := Uri.read_eq_ok_iff.1 found
        cases checked : check settings uri with
        | error cause =>
            rw [parse_of_rejected found checked] at rejected
            cases rejected
            rcases (check_eq_error_iff derives).1 checked with
              ⟨same, forbidden⟩ | ⟨allowed, params, listed, bad⟩
            · rw [same]
              exact .scheme found forbidden
            · exact .topics found allowed listed bad
        | ok link =>
            rw [parse_of_checked found checked] at rejected
            split at rejected
            next => cases rejected
            next more =>
              cases rejected
              obtain ⟨_, params, qualifies⟩ := (check_eq_ok_iff derives).1 checked
              rw [leftover_eq found]
              exact .leftover found qualifies more
  · intro reason
    cases reason with
    | malformed failed => exact parse_of_failed failed
    | scheme found forbidden => exact parse_of_rejected found (check_of_forbidden forbidden)
    | topics found allowed listed bad =>
        have derives := (Uri.read_eq_ok_iff.1 found).2.1
        exact parse_of_rejected found
          ((check_eq_error_iff derives).2 (Or.inr ⟨allowed, _, listed, bad⟩))
    | leftover found qualifies more =>
        have derives := (Uri.read_eq_ok_iff.1 found).2.1
        have checked := (check_eq_ok_iff derives).2 ⟨rfl, _, qualifies⟩
        rw [parse_of_checked found checked, if_neg more, leftover_eq found]

/-- A text is a link where it passes all checks, and else it is rejected by the first that
fails. -/
theorem parse_decided_by_checks (request : Settings.Key → Setting) (text : Text) :
    let settings := Settings.ofRequest request
    ((∃ link, parse settings text = .ok link) ↔
      ∃ uri params, uri.IsDerivationOf text ∧ uri.fragment = none ∧
        Qualifies settings uri params) ∧
    (∀ link, parse settings text = .ok link ↔
      link.plusAsSpace = settings.plusAsSpace ∧ link.uri.IsDerivationOf text ∧
        link.uri.fragment = none ∧ ∃ params, Qualifies settings link.uri params) ∧
    (∀ error, parse settings text = .error error ↔ Rejection settings text error) := by
  intro settings
  have accepts (link : Link) : parse settings text = .ok link ↔
      link.plusAsSpace = settings.plusAsSpace ∧ link.uri.IsDerivationOf text ∧
        link.uri.fragment = none ∧ ∃ params, Qualifies settings link.uri params := by
    rw [parse_eq_ok_iff, Uri.parseAbsolute_eq_ok_iff, Uri.isDerivationOf_iff]
    simp only [and_assoc]
  refine ⟨?_, accepts, fun error => parse_eq_error_iff⟩
  constructor
  · rintro ⟨link, accepted⟩
    obtain ⟨_, derivation, absolute, params, qualifies⟩ := (accepts link).1 accepted
    exact ⟨link.uri, params, derivation, absolute, qualifies⟩
  · rintro ⟨uri, params, derivation, absolute, qualifies⟩
    exact ⟨{ uri, plusAsSpace := settings.plusAsSpace },
      (accepts _).2 ⟨rfl, derivation, absolute, params, qualifies⟩⟩

/-- A link whose first topic has an escaped key with a number, and a text whose second topic is
bad at the third place among its parameters. -/
theorem parse_decided_by_checks_escaped :
    let text := "MAGNET:?dn=a&%78t.07=urn:x&xt=a:b@c".toList
    let otherText := "magnet:?dn=a&x%74=urn:x&xt.1=nope&xt".toList
    (∃ link params, parse Settings.standard text = .ok link ∧ link.uri.IsDerivationOf text ∧
      Qualifies Settings.standard link.uri params ∧
      (params.filter isTopic).map Param.valueText = ["urn:x".toList, "a:b@c".toList]) ∧
    Rejection Settings.standard otherText (.invalidTopic 2) := by
  intro text otherText
  let uri : Uri :=
    { scheme := "MAGNET".toList, authority := none, path := []
      query := some "dn=a&%78t.07=urn:x&xt=a:b@c".toList, fragment := none }
  have accepted : parse Settings.standard text = .ok { uri, plusAsSpace := true } := rfl
  constructor
  · obtain ⟨_, derivation, _, params, qualifies⟩ :=
      ((parse_decided_by_checks (fun _ => .other) text).2.1 _).1 accepted
    have same : ((uri.params true).params.mapM id).toOption.getD [] = params := by
      have listed : (uri.params true).Lists params := qualifies.listed
      rw [listed.mapM]
      rfl
    refine ⟨_, params, accepted, derivation, qualifies, ?_⟩
    rw [← same]
    decide
  · exact ((parse_decided_by_checks (fun _ => .other) otherText).2.2 _).1 rfl

end MagnetUri.Link

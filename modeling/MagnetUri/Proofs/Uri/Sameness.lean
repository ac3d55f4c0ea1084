import MagnetUri.Proofs.Uri.Ascii
import MagnetUri.Proofs.Uri.Recognition

set_option autoImplicit false

/-! Sameness of identifiers. It looks at components without their delimiters, and yet it tells
texts apart: a text has one derivation, so behind the scheme equal components are equal texts,
and the scheme alone is compared in small letters. -/

namespace MagnetUri.Uri

variable {left right : Uri}

structure Written where
  text : Text
  uri : Uri
  parsed : parse text = .ok uri

/-- The text with small letters up to its first colon. -/
def smallLead (text : Text) : Text :=
  (text.takeWhile (· ≠ ':')).map Character.small ++ text.dropWhile (· ≠ ':')

def behindScheme (uri : Uri) : Text :=
  (uri.authority.map Authority.text).elim [] (fun inner => '/' :: '/' :: inner) ++
    (uri.path ++ (uri.query.elim [] ('?' :: ·) ++ uri.fragment.elim [] ('#' :: ·)))

theorem text_eq_behindScheme (uri : Uri) : uri.text = uri.scheme ++ ':' :: uri.behindScheme := by
  rw [text, behindScheme]
  cases uri.authority <;> simp

theorem colon_not_mem_smallScheme (derives : left.Derives) : ':' ∉ left.smallScheme := by
  intro member
  obtain ⟨char, inside, small⟩ := List.mem_map.1 member
  rw [Character.eq_colon_of_small small] at inside
  exact colon_not_mem_scheme derives.scheme inside

theorem smallLead_text (derives : left.Derives) :
    smallLead left.text = left.smallScheme ++ ':' :: left.behindScheme := by
  have before : ∀ char ∈ left.scheme, decide (char ≠ ':') = true := by
    intro char member
    apply decide_eq_true
    intro same
    rw [same] at member
    exact colon_not_mem_scheme derives.scheme member
  rw [text_eq_behindScheme, smallLead, List.takeWhile_append_of_pos before,
    List.dropWhile_append_of_pos before]
  simp [smallScheme]

theorem smallLead_text_eq_iff (leftDerives : left.Derives) (rightDerives : right.Derives) :
    smallLead left.text = smallLead right.text ↔
      left.smallScheme = right.smallScheme ∧ left.behindScheme = right.behindScheme := by
  rw [smallLead_text leftDerives, smallLead_text rightDerives]
  constructor
  · intro same
    have cut := Text.cut?_append (colon_not_mem_smallScheme leftDerives) left.behindScheme
    rw [same, Text.cut?_append (colon_not_mem_smallScheme rightDerives)] at cut
    obtain ⟨scheme, behind⟩ := Prod.mk.inj (Option.some.inj cut)
    exact ⟨scheme.symm, behind.symm⟩
  · intro ⟨scheme, behind⟩
    rw [scheme, behind]

theorem eq_of_text_eq (leftDerives : left.Derives) (rightDerives : right.Derives)
    (same : left.text = right.text) : left = right := by
  have first := parse_eq_ok_iff.2 ⟨same, leftDerives⟩
  rw [parse_eq_ok_iff.2 ⟨rfl, rightDerives⟩] at first
  exact (Except.ok.inj first).symm

structure Alike (left right : Uri) : Prop where
  scheme : left.smallScheme = right.smallScheme
  authority : left.authority = right.authority
  path : left.path = right.path
  query : left.query = right.query
  fragment : left.fragment = right.fragment

theorem alike_of_behindScheme_eq (leftDerives : left.Derives) (rightDerives : right.Derives)
    (scheme : left.smallScheme = right.smallScheme)
    (behind : left.behindScheme = right.behindScheme) : Alike left right := by
  -- With the other's scheme an identifier derives as before, and then it has the other's text.
  have derives : { left with scheme := right.scheme }.Derives :=
    ⟨rightDerives.scheme, leftDerives.authority, leftDerives.path, leftDerives.query,
      leftDerives.fragment⟩
  have texts : { left with scheme := right.scheme }.text = right.text := by
    rw [text_eq_behindScheme, text_eq_behindScheme, ← behind]
    rfl
  have same := eq_of_text_eq derives rightDerives texts
  refine ⟨scheme, ?_, ?_, ?_, ?_⟩
  all_goals rw [← same]

theorem same_iff_slices : left.same right = true ↔ left.smallScheme = right.smallScheme ∧
    left.authority.map Authority.text = right.authority.map Authority.text ∧
    left.path = right.path ∧ left.query = right.query ∧ left.fragment = right.fragment := by
  simp only [same, Bool.and_eq_true, beq_iff_eq, and_assoc]

theorem same_iff_behindScheme_eq (leftDerives : left.Derives) (rightDerives : right.Derives) :
    left.same right = true ↔
      left.smallScheme = right.smallScheme ∧ left.behindScheme = right.behindScheme := by
  rw [same_iff_slices]
  constructor
  · intro ⟨scheme, authority, path, query, fragment⟩
    exact ⟨scheme, by rw [behindScheme, authority, path, query, fragment, behindScheme]⟩
  · intro ⟨scheme, behind⟩
    have alike := alike_of_behindScheme_eq leftDerives rightDerives scheme behind
    exact ⟨scheme, congrArg _ alike.authority, alike.path, alike.query, alike.fragment⟩

theorem same_iff_alike (leftDerives : left.Derives) (rightDerives : right.Derives) :
    left.same right = true ↔ Alike left right := by
  constructor
  · intro same
    obtain ⟨scheme, behind⟩ := (same_iff_behindScheme_eq leftDerives rightDerives).1 same
    exact alike_of_behindScheme_eq leftDerives rightDerives scheme behind
  · intro alike
    exact same_iff_slices.2
      ⟨alike.scheme, congrArg _ alike.authority, alike.path, alike.query, alike.fragment⟩

def optionalParts : List (Uri → Option Text) :=
  [fun uri => uri.authority.map Authority.text, fun uri => uri.authority.bind Authority.port,
    Uri.query, Uri.fragment]

theorem Alike.optionalPart (alike : Alike left right) {part : Uri → Option Text}
    (member : part ∈ optionalParts) : part left = part right := by
  simp only [optionalParts, List.mem_cons, List.not_mem_nil, or_false] at member
  rcases member with named | named | named | named
  · rw [named]
    exact congrArg _ alike.authority
  · rw [named]
    exact congrArg (·.bind Authority.port) alike.authority
  · rw [named, alike.query]
  · rw [named, alike.fragment]

theorem Written.derives (written : Written) : written.uri.Derives :=
  (parse_eq_ok_iff.1 written.parsed).2

theorem Written.same_iff_smallLead_eq (left right : Written) :
    left.uri.same right.uri = true ↔ smallLead left.text = smallLead right.text := by
  have leftText := (parse_eq_ok_iff.1 left.parsed).1
  have rightText := (parse_eq_ok_iff.1 right.parsed).1
  rw [← leftText, ← rightText, smallLead_text_eq_iff left.derives right.derives,
    same_iff_behindScheme_eq left.derives right.derives]

/-- Identifiers that were read are the same exactly where their texts are, but for the capitals
before the first colon. So sameness is an equivalence, it leaves no component open, and it tells
an absent part from one that is there, be it empty. -/
theorem same_iff_texts_agree :
    (∀ left right : Written,
      left.uri.same right.uri = true ↔ smallLead left.text = smallLead right.text) ∧
    Equivalence (fun left right : Written => left.uri.same right.uri = true) ∧
    ∀ left right : Written,
      (left.uri.same right.uri = true → Alike left.uri right.uri) ∧
      ∀ part ∈ optionalParts, ∀ text, part left.uri = none → part right.uri = some text →
        left.uri.same right.uri = false := by
  refine ⟨Written.same_iff_smallLead_eq, ⟨?_, ?_, ?_⟩, ?_⟩
  · intro written
    exact (written.same_iff_smallLead_eq written).2 rfl
  · intro left right same
    rw [Written.same_iff_smallLead_eq] at same ⊢
    exact same.symm
  · intro left middle right first second
    rw [Written.same_iff_smallLead_eq] at first second ⊢
    exact first.trans second
  · intro left right
    have alike := (same_iff_alike left.derives right.derives).1
    refine ⟨alike, ?_⟩
    intro part member text absent present
    rw [Bool.eq_false_iff]
    intro same
    rw [(alike same).optionalPart member, present] at absent
    cases absent

/-- Capitals in the scheme do not matter, a colon without a port does. -/
theorem same_iff_texts_agree_empty_port : ∃ capital small portless : Written,
    capital.text = "HTTP://u@h:/p?#".toList ∧ small.text = "http://u@h:/p?#".toList ∧
      portless.text = "http://u@h/p?#".toList ∧ capital.uri.same small.uri = true ∧
      portless.uri.same small.uri = false := by
  let capital : Written := ⟨"HTTP://u@h:/p?#".toList, _, rfl⟩
  let small : Written := ⟨"http://u@h:/p?#".toList, _, rfl⟩
  let portless : Written := ⟨"http://u@h/p?#".toList, _, rfl⟩
  obtain ⟨told, _, parts⟩ := same_iff_texts_agree
  have port : (fun uri : Uri => uri.authority.bind Authority.port) ∈ optionalParts :=
    List.mem_cons_of_mem _ List.mem_cons_self
  refine ⟨capital, small, portless, rfl, rfl, rfl, ?_, ?_⟩
  · exact (told capital small).2 (by decide)
  · exact (parts portless small).2 _ port [] rfl rfl

end MagnetUri.Uri

import MagnetUri.Proofs.Grammar.Literal
import MagnetUri.Proofs.Grammar.Run
import MagnetUri.Uri.Basic
import MagnetUri.Proofs.Uri.Beginning

set_option autoImplicit false

/-! Derivations told by components, and what each reader of a component takes. An identifier
whose components each lie in their productions has a text in the language, and every text of the
language is that of one. A reader succeeds exactly where a component stands in front of a text that
cannot go it on. -/

namespace MagnetUri

open scoped Computability
open Grammar (mem_optional)

/-- The address is the one that its kind says; a name is a host that is no dotted quad. -/
def Host.Derives : Host → Prop
  | .ipv4 address => address ∈ Grammar.ipv4Address
  | .ipv6 address => address ∈ Grammar.ipv6Address
  | .ipvFuture address => address ∈ Grammar.ipvFuture
  | .name encoded => encoded ∈ Grammar.registeredName ∧ encoded ∉ Grammar.ipv4Address

structure Authority.Derives (authority : Authority) : Prop where
  userinfo : ∀ text, authority.userinfo = some text → text ∈ Grammar.userinfo
  host : authority.host.Derives
  port : ∀ digits, authority.port = some digits → digits ∈ Grammar.port

structure Uri.Derives (uri : Uri) : Prop where
  scheme : uri.scheme ∈ Grammar.scheme
  authority : ∀ authority, uri.authority = some authority → authority.Derives
  path : uri.path ∈ if uri.authority.isSome then Grammar.pathAbempty else Grammar.pathAlone
  query : ∀ text, uri.query = some text → text ∈ Grammar.query
  fragment : ∀ text, uri.fragment = some text → text ∈ Grammar.fragment

namespace Grammar

variable {text : Text} {language : Language Char}

theorem mem_optional_behind {mark : Text} : text ∈ optional (literal mark * language) ↔
    ∃ component : Option Text, (∀ inner, component = some inner → inner ∈ language) ∧
      component.elim [] (mark ++ ·) = text := by
  rw [mem_optional, mem_literal_mul]
  constructor
  · rintro (empty | ⟨inner, member, joined⟩)
    · exact ⟨none, fun _ impossible => (by cases impossible), empty.symm⟩
    · exact ⟨some inner, fun _ same => (by cases same; exact member), joined⟩
  · rintro ⟨component, member, joined⟩
    cases component with
    | none => exact Or.inl joined.symm
    | some inner => exact Or.inr ⟨inner, member inner rfl, joined⟩

theorem mem_optional_before {mark : Text} : text ∈ optional (language * literal mark) ↔
    ∃ component : Option Text, (∀ inner, component = some inner → inner ∈ language) ∧
      component.elim [] (· ++ mark) = text := by
  rw [mem_optional, mem_mul_literal]
  constructor
  · rintro (empty | ⟨inner, member, joined⟩)
    · exact ⟨none, fun _ impossible => (by cases impossible), empty.symm⟩
    · exact ⟨some inner, fun _ same => (by cases same; exact member), joined⟩
  · rintro ⟨component, member, joined⟩
    cases component with
    | none => exact Or.inl joined.symm
    | some inner => exact Or.inr ⟨inner, member inner rfl, joined⟩

theorem mem_ipLiteral : text ∈ ipLiteral ↔
    ∃ address, (address ∈ ipv6Address ∨ address ∈ ipvFuture) ∧ text = '[' :: address ++ [']'] := by
  rw [ipLiteral, mem_mul_literal]
  simp only [mem_literal_mul]
  constructor
  · rintro ⟨_, ⟨address, member, rfl⟩, joined⟩
    exact ⟨address, member, joined.symm⟩
  · rintro ⟨address, member, joined⟩
    exact ⟨'[' :: address, ⟨address, member, rfl⟩, joined.symm⟩

theorem mem_host : text ∈ host ↔ ∃ found : Host, found.Derives ∧ found.text = text := by
  rw [host, Language.mem_add, Language.mem_add, mem_ipLiteral]
  constructor
  · rintro ((⟨address, member | member, equal⟩ | quad) | name)
    · exact ⟨.ipv6 address, member, equal.symm⟩
    · exact ⟨.ipvFuture address, member, equal.symm⟩
    · exact ⟨.ipv4 text, quad, rfl⟩
    · by_cases quad : text ∈ ipv4Address
      · exact ⟨.ipv4 text, quad, rfl⟩
      · exact ⟨.name text, ⟨name, quad⟩, rfl⟩
  · rintro ⟨found, derives, equal⟩
    cases found with
    | ipv4 address => exact Or.inl (Or.inr (equal ▸ derives))
    | ipv6 address => exact Or.inl (Or.inl ⟨address, Or.inl derives, equal.symm⟩)
    | ipvFuture address => exact Or.inl (Or.inl ⟨address, Or.inr derives, equal.symm⟩)
    | name encoded => exact Or.inr (equal ▸ derives.1)

theorem mem_authority :
    text ∈ authority ↔ ∃ found : Authority, found.Derives ∧ found.text = text := by
  rw [authority]
  constructor
  · rintro ⟨_, ⟨led, ledMember, named, namedMember, rfl⟩, closed, closedMember, rfl⟩
    obtain ⟨userinfo, userinfoMember, equal⟩ := mem_optional_before.1 ledMember
    obtain ⟨host, derives, hostEqual⟩ := mem_host.1 namedMember
    obtain ⟨port, portMember, portEqual⟩ := mem_optional_behind.1 closedMember
    refine ⟨⟨userinfo, host, port⟩, ⟨userinfoMember, derives, portMember⟩, ?_⟩
    rw [← equal, ← hostEqual, ← portEqual]
    rfl
  · rintro ⟨⟨userinfo, host, port⟩, derives, equal⟩
    refine ⟨_, ⟨_, mem_optional_before.2 ⟨userinfo, derives.userinfo, rfl⟩, host.text,
      mem_host.2 ⟨host, derives.host, rfl⟩, rfl⟩, _,
      mem_optional_behind.2 ⟨port, derives.port, rfl⟩, ?_⟩
    rw [← equal]
    rfl

theorem mem_hierPart : text ∈ hierPart ↔ ∃ (found : Option Authority) (path : Text),
    (∀ part, found = some part → part.Derives) ∧
      path ∈ (if found.isSome then pathAbempty else pathAlone) ∧
      (found.elim [] fun part => '/' :: '/' :: part.text) ++ path = text := by
  rw [hierPart, Language.mem_add]
  constructor
  · rintro (⟨led, ledMember, path, pathMember, joined⟩ | alone)
    · obtain ⟨inner, member, equal⟩ := mem_literal_mul.1 ledMember
      obtain ⟨part, derives, partEqual⟩ := mem_authority.1 member
      refine ⟨some part, path, fun _ same => (by cases same; exact derives), pathMember, ?_⟩
      rw [← joined, ← equal, ← partEqual]
      rfl
    · exact ⟨none, text, fun _ impossible => (by cases impossible), alone, rfl⟩
  · rintro ⟨found, path, derives, member, joined⟩
    cases found with
    | none => exact Or.inr (joined ▸ member)
    | some part =>
        have inner := mem_authority.2 ⟨part, derives part rfl, rfl⟩
        exact Or.inl ⟨_, mem_literal_mul.2 ⟨part.text, inner, rfl⟩, path, member, joined⟩

theorem mem_absoluteUri : text ∈ absoluteUri ↔
    ∃ found : Uri, found.Derives ∧ found.fragment = none ∧ found.text = text := by
  rw [absoluteUri]
  constructor
  · rintro ⟨_, ⟨led, ledMember, hier, hierMember, rfl⟩, asked, askedMember, rfl⟩
    obtain ⟨scheme, schemeMember, schemeEqual⟩ := mem_mul_literal.1 ledMember
    obtain ⟨authority, path, derives, pathMember, hierEqual⟩ := mem_hierPart.1 hierMember
    obtain ⟨query, queryMember, queryEqual⟩ := mem_optional_behind.1 askedMember
    refine ⟨⟨scheme, authority, path, query, none⟩,
      ⟨schemeMember, derives, pathMember, queryMember, fun _ impossible => by cases impossible⟩,
      rfl, ?_⟩
    rw [← schemeEqual, ← hierEqual, ← queryEqual]
    simp [Uri.text]
  · rintro ⟨⟨scheme, authority, path, query, fragment⟩, derives, absent, equal⟩
    have none : fragment = none := absent
    subst none
    refine ⟨_, ⟨_, mem_mul_literal.2 ⟨scheme, derives.scheme, rfl⟩, _,
      mem_hierPart.2 ⟨authority, path, derives.authority, derives.path, rfl⟩, rfl⟩, _,
      mem_optional_behind.2 ⟨query, derives.query, rfl⟩, ?_⟩
    rw [← equal]
    simp [Uri.text]

theorem mem_uri : text ∈ uri ↔ ∃ found : Uri, found.Derives ∧ found.text = text := by
  rw [uri]
  constructor
  · rintro ⟨absolute, absoluteMember, closed, closedMember, rfl⟩
    obtain ⟨found, derives, absent, equal⟩ := mem_absoluteUri.1 absoluteMember
    obtain ⟨fragment, fragmentMember, fragmentEqual⟩ := mem_optional_behind.1 closedMember
    refine ⟨{ found with fragment },
      ⟨derives.scheme, derives.authority, derives.path, derives.query, fragmentMember⟩, ?_⟩
    rw [← equal, ← fragmentEqual]
    simp [Uri.text, absent]
  · rintro ⟨found, derives, equal⟩
    have absolute : { found with fragment := none }.Derives :=
      ⟨derives.scheme, derives.authority, derives.path, derives.query,
        fun _ impossible => by cases impossible⟩
    refine ⟨_, mem_absoluteUri.2 ⟨_, absolute, rfl, rfl⟩, _,
      mem_optional_behind.2 ⟨found.fragment, derives.fragment, rfl⟩, ?_⟩
    rw [← equal]
    simp [Uri.text]

end Grammar
end MagnetUri

namespace MagnetUri.Uri

open Character
open Grammar (Run Halts)

variable {text rest : Text}

theorem readAfter_eq_ok_iff {α : Type} {reader : Text → Except SyntaxError α} {value : α} :
    readAfter text rest reader = .ok value ↔ reader rest = .ok value := by
  constructor
  · exact eq_of_readAfter
  · intro found
    rw [readAfter, found]
    rfl

theorem readComponent_eq_ok_iff {inClass : Char → Bool} {component : Text}
    (plain : inClass '%' = false) : readComponent inClass text = .ok (component, rest) ↔
      component ++ rest = text ∧ Run inClass component ∧ Halts inClass rest := by
  rw [← Grammar.readRun_eq_ok_iff plain]
  unfold readComponent
  cases found : readRun inClass text with
  | error place =>
      constructor
      · intro impossible
        cases impossible
      · intro impossible
        cases impossible
  | ok parts =>
      constructor
      · intro same
        cases same
        rfl
      · intro same
        cases same
        rfl

theorem readOptional_behind {delimiter : Char} {inClass : Char → Bool} {after : Text}
    {component : Option Text} :
    readOptional delimiter inClass (delimiter :: after) = .ok (component, rest) ↔
      ∃ run, component = some run ∧ readComponent inClass after = .ok (run, rest) := by
  rw [readOptional, if_pos rfl]
  cases read : readComponent inClass after with
  | error error =>
      constructor
      · intro impossible
        cases impossible
      · intro found
        obtain ⟨run, _, impossible⟩ := found
        cases impossible
  | ok parts =>
      obtain ⟨run, left⟩ := parts
      constructor
      · intro found
        cases found
        exact ⟨run, rfl, rfl⟩
      · intro found
        obtain ⟨other, same, parted⟩ := found
        cases parted
        rw [same]

/-- A text in front of which a component with a delimiter is either read or absent. -/
theorem readOptional_eq_ok_iff {delimiter : Char} {inClass : Char → Bool}
    {component : Option Text} (plain : inClass '%' = false) :
    readOptional delimiter inClass text = .ok (component, rest) ↔
      component.elim [] (delimiter :: ·) ++ rest = text ∧
        match component with
        | none => ∀ after, rest ≠ delimiter :: after
        | some run => Run inClass run ∧ Halts inClass rest := by
  cases text with
  | nil =>
      constructor
      · intro found
        cases found
        exact ⟨rfl, fun _ impossible => by cases impossible⟩
      · intro both
        obtain ⟨joined, _⟩ := both
        cases component with
        | none =>
            cases joined
            rfl
        | some run => cases joined
  | cons char after =>
      by_cases same : char = delimiter
      · subst same
        rw [readOptional_behind]
        constructor
        · intro found
          obtain ⟨run, equal, read⟩ := found
          subst equal
          obtain ⟨inner, taken, halts⟩ := (readComponent_eq_ok_iff plain).1 read
          exact ⟨congrArg (char :: ·) inner, taken, halts⟩
        · intro both
          obtain ⟨joined, condition⟩ := both
          cases component with
          | none => exact absurd joined (condition after)
          | some run =>
              have inner := (List.cons.inj joined).2
              exact ⟨run, rfl, (readComponent_eq_ok_iff plain).2 ⟨inner, condition⟩⟩
      · rw [readOptional, if_neg same]
        constructor
        · intro found
          cases found
          exact ⟨rfl, fun _ equal => same (List.cons.inj equal).1⟩
        · intro both
          obtain ⟨joined, _⟩ := both
          cases component with
          | none =>
              change rest = char :: after at joined
              rw [joined]
          | some run => exact absurd (List.cons.inj joined).1.symm same

theorem mem_scheme {scheme : Text} : scheme ∈ Grammar.scheme ↔
    ∃ first others, scheme = first :: others ∧ isLetter first = true ∧
      others.all inScheme = true := by
  rw [Grammar.scheme, Grammar.schemeChar_eq, Grammar.letter_eq]
  constructor
  · rintro ⟨_, ⟨first, letter, rfl⟩, others, member, rfl⟩
    exact ⟨first, others, rfl, letter, Grammar.mem_single_star.1 member⟩
  · rintro ⟨first, others, equal, letter, all⟩
    exact ⟨[first], ⟨first, letter, rfl⟩, others, Grammar.mem_single_star.2 all, equal.symm⟩

theorem colon_not_mem_scheme {scheme : Text} (member : scheme ∈ Grammar.scheme) :
    ':' ∉ scheme := by
  obtain ⟨first, others, same, letter, all⟩ := mem_scheme.1 member
  intro colon
  rw [same] at colon
  rcases List.mem_cons.1 colon with first | later
  · rw [← first] at letter
    cases letter
  · exact absurd (List.all_eq_true.1 all ':' later) (by decide)

theorem readScheme_eq_ok_iff {scheme : Text} : readScheme text = .ok (scheme, rest) ↔
    scheme ++ ':' :: rest = text ∧ scheme ∈ Grammar.scheme := by
  constructor
  · intro found
    refine ⟨append_of_readScheme found, mem_scheme.2 ?_⟩
    cases text with
    | nil => cases found
    | cons first after =>
        simp only [readScheme] at found
        split at found
        next letter =>
          split at found
          next =>
            cases found
            exact ⟨first, _, rfl, letter, List.all_takeWhile⟩
          next => cases found
        next => cases found
  · rintro ⟨joined, member⟩
    obtain ⟨first, others, equal, letter, all⟩ := mem_scheme.1 member
    subst equal joined
    have members := List.all_eq_true.1 all
    rw [List.cons_append, readScheme, if_pos letter, List.takeWhile_append_of_pos members,
      List.dropWhile_append_of_pos members]
    simp [inScheme, isLetter, isDigit]

theorem at_not_mem_of_run {inClass : Char → Bool} {run : Text} (taken : Run inClass run)
    (outside : inClass '@' = false) : '@' ∉ run :=
  taken.not_mem outside (by decide) (by decide)

theorem splitUserinfo_eq_ok_iff {extent : Text} {userinfo : Option Text} :
    splitUserinfo extent = .ok (userinfo, rest) ↔
      userinfo.elim [] (· ++ ['@']) ++ rest = extent ∧
        (∀ part, userinfo = some part → part ∈ Grammar.userinfo) ∧ '@' ∉ rest := by
  constructor
  · intro found
    refine ⟨append_of_splitUserinfo found, ?_⟩
    unfold splitUserinfo at found
    split at found
    next absent =>
      cases found
      exact ⟨fun _ impossible => (by cases impossible), Text.cut?_eq_none_iff.1 absent⟩
    next before after cut =>
      split at found
      next => cases found
      next single =>
        split at found
        next accepted =>
          cases found
          refine ⟨fun part same => ?_, Text.cut?_eq_none_iff.1 single⟩
          cases same
          exact Grammar.mem_userinfo.2 ((Grammar.isRun_iff (by decide)).1 accepted)
        next => cases found
  · rintro ⟨joined, members, absent⟩
    have single := Text.cut?_eq_none_iff.2 absent
    subst joined
    cases userinfo with
    | none =>
        change splitUserinfo rest = _
        rw [splitUserinfo, single]
    | some part =>
        have taken := Grammar.mem_userinfo.1 (members part rfl)
        have accepted := (Grammar.isRun_iff (by decide)).2 taken
        have free := at_not_mem_of_run taken (by decide)
        have extent : part ++ ['@'] ++ rest = part ++ '@' :: rest := by simp
        change splitUserinfo (part ++ ['@'] ++ rest) = _
        rw [extent, splitUserinfo, Text.cut?_append free]
        simp only [single, accepted, if_true]

theorem hostOfLiteral_eq_ok_iff {address : Text} {host : Host} :
    hostOfLiteral address = .ok host ↔
      host.Derives ∧ (host = .ipv6 address ∨ host = .ipvFuture address) := by
  unfold hostOfLiteral
  constructor
  · intro found
    split at found
    next six =>
      cases found
      exact ⟨Grammar.isIpv6_iff.1 six, Or.inl rfl⟩
    next =>
      split at found
      next future =>
        cases found
        exact ⟨Grammar.isIpvFuture_iff.1 future, Or.inr rfl⟩
      next => cases found
  · rintro ⟨derives, six | future⟩
    · subst six
      rw [if_pos (Grammar.isIpv6_iff.2 derives)]
    · subst future
      have other : ¬isIpv6 address = true := fun six =>
        Grammar.not_ipv6_of_ipvFuture derives (Grammar.isIpv6_iff.1 six)
      rw [if_neg other, if_pos (Grammar.isIpvFuture_iff.2 derives)]

theorem hostOfName_eq_ok_iff {name : Text} {host : Host} : hostOfName name = .ok host ↔
    host.Derives ∧ (host = .ipv4 name ∨ host = .name name) := by
  unfold hostOfName
  constructor
  · intro found
    split at found
    next => cases found
    next => cases found
    next run read =>
      have joined := append_of_readRun read
      rw [List.append_nil] at joined
      have taken := joined ▸ (Grammar.run_of_readRun read).1
      cases found
      split
      next quad => exact ⟨Grammar.isIpv4_iff.1 quad, Or.inl rfl⟩
      next other =>
        exact ⟨⟨Grammar.mem_registeredName.2 taken, fun quad => other (Grammar.isIpv4_iff.2 quad)⟩,
          Or.inr rfl⟩
  · intro ⟨derives, either⟩
    have taken : Run inRegisteredName name := by
      rcases either with quad | named
      · subst quad
        exact Grammar.run_of_ipv4 derives
      · subst named
        exact Grammar.mem_registeredName.1 derives.1
    have read := Grammar.readRun_append (by decide) taken Grammar.halts_nil
    rw [List.append_nil] at read
    simp only [read]
    rcases either with quad | named
    · subst quad
      rw [if_pos (Grammar.isIpv4_iff.2 derives)]
    · subst named
      rw [if_neg fun quad => derives.2 (Grammar.isIpv4_iff.1 quad)]

end MagnetUri.Uri

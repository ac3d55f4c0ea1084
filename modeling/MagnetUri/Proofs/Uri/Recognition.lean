import MagnetUri.Proofs.Uri.Reading

set_option autoImplicit false

/-! The readers recognize the languages of the grammar. The stops of the single readers come to one
condition on the identifier and on the character behind it, so a text is read exactly where it
derives, and the components that come out are the ones of its derivation. -/

namespace MagnetUri.Uri

open Character
open Grammar (Run Halts)

variable {withFragment : Bool} {uri : Uri} {text rest : Text}

/-- Whether a character behind an identifier is taken for a part of it. -/
def continues (withFragment : Bool) (uri : Uri) (char : Char) : Bool :=
  char == '%' ||
    match uri.fragment, uri.query with
    | some _, _ => inFragment char
    | none, some _ => inQuery char || (withFragment && char == '#')
    | none, none =>
        inQuery char || (withFragment && char == '#') ||
          (uri.authority.isSome && uri.path.isEmpty && inAuthority char)

def Ends (withFragment : Bool) (uri : Uri) (rest : Text) : Prop :=
  ∀ char after, rest = char :: after → uri.continues withFragment char = false

def behindQuery (uri : Uri) (rest : Text) : Text :=
  uri.fragment.elim [] ('#' :: ·) ++ rest

def behindPath (uri : Uri) (rest : Text) : Text :=
  uri.query.elim [] ('?' :: ·) ++ uri.behindQuery rest

structure Steps (withFragment : Bool) (uri : Uri) (rest : Text) : Prop where
  scheme : uri.scheme ∈ Grammar.scheme
  authority : match uri.authority with
    | none => ∀ after, uri.path ++ uri.behindPath rest ≠ '/' :: '/' :: after
    | some part => part.Derives ∧ Bounded (uri.path ++ uri.behindPath rest)
  path : Run inPath uri.path ∧ Halts inPath (uri.behindPath rest)
  query : match uri.query with
    | none => ∀ after, uri.behindQuery rest ≠ '?' :: after
    | some run => Run inQuery run ∧ Halts inQuery (uri.behindQuery rest)
  fragment : match uri.fragment with
    | none => withFragment = true → ∀ after, rest ≠ '#' :: after
    | some run => withFragment = true ∧ Run inFragment run ∧ Halts inFragment rest

theorem text_append : uri.text ++ rest = uri.scheme ++ ':' ::
    (uri.authority.elim [] (fun part => '/' :: '/' :: part.text) ++
      (uri.path ++ uri.behindPath rest)) := by
  simp [Uri.text, behindPath, behindQuery]

theorem read_eq_ok_iff_steps : read withFragment text = .ok (uri, rest) ↔
    uri.text ++ rest = text ∧ uri.Steps withFragment rest := by
  constructor
  · intro found
    refine ⟨append_of_read found, ?_⟩
    simp only [read, bind, Except.bind, pure, Except.pure] at found
    split at found
    next => cases found
    next schemeParts readScheme =>
      split at found
      next => cases found
      next authorityParts readAuthority =>
        split at found
        next => cases found
        next pathParts readPath =>
          split at found
          next => cases found
          next queryParts readQuery =>
            split at found
            next => cases found
            next fragmentParts readFragment =>
              cases found
              have scheme := readScheme_eq_ok_iff.1 readScheme
              have authority := readOptionalAuthority_eq_ok_iff.1 (eq_of_readAfter readAuthority)
              have path := (readComponent_eq_ok_iff (by decide)).1 (eq_of_readAfter readPath)
              have query := (readOptional_eq_ok_iff (by decide)).1 (eq_of_readAfter readQuery)
              have fragment := readFragment_eq_ok_iff.1 (eq_of_readAfter readFragment)
              rw [← query.1, ← fragment.1] at path
              rw [← path.1] at authority
              rw [← fragment.1] at query
              exact ⟨scheme.2, authority.2, path.2, query.2, fragment.2⟩
  · rintro ⟨joined, steps⟩
    have scheme := readScheme_eq_ok_iff.2 ⟨text_append.symm.trans joined, steps.scheme⟩
    have authority := readOptionalAuthority_eq_ok_iff.2 ⟨rfl, steps.authority⟩
    have path := (readComponent_eq_ok_iff (by decide)).2 ⟨rfl, steps.path⟩
    have query : readOptional '?' inQuery (uri.behindPath rest) =
        .ok (uri.query, uri.behindQuery rest) :=
      (readOptional_eq_ok_iff (by decide)).2 ⟨rfl, steps.query⟩
    have fragment : readFragment withFragment (uri.behindQuery rest) = .ok (uri.fragment, rest) :=
      readFragment_eq_ok_iff.2 ⟨rfl, steps.fragment⟩
    simp only [read, bind, Except.bind, pure, Except.pure, scheme, readAfter_eq_ok_iff.2 authority,
      readAfter_eq_ok_iff.2 path, readAfter_eq_ok_iff.2 query, readAfter_eq_ok_iff.2 fragment]

theorem behindQuery_cons {char : Char} {after : Text}
    (shape : uri.behindQuery rest = char :: after) :
    char = '#' ∨ (uri.fragment = none ∧ rest = char :: after) := by
  unfold behindQuery at shape
  cases found : uri.fragment with
  | none =>
      rw [found] at shape
      exact Or.inr ⟨rfl, shape⟩
  | some run =>
      rw [found] at shape
      exact Or.inl (List.cons.inj shape).1.symm

theorem behindPath_cons {char : Char} {after : Text}
    (shape : uri.behindPath rest = char :: after) :
    char = '?' ∨ (uri.query = none ∧ uri.behindQuery rest = char :: after) := by
  unfold behindPath at shape
  cases found : uri.query with
  | none =>
      rw [found] at shape
      exact Or.inr ⟨rfl, shape⟩
  | some run =>
      rw [found] at shape
      exact Or.inl (List.cons.inj shape).1.symm

theorem run_of_path {withAuthority : Bool} {path : Text}
    (member : path ∈ if withAuthority then Grammar.pathAbempty else Grammar.pathAlone) :
    Run inPath path := by
  cases withAuthority with
  | true => exact (Grammar.mem_pathAbempty.1 member).1
  | false => exact (Grammar.mem_pathAlone.1 member).1

theorem slash_of_bounded {path behind : Text} (run : Run inPath path)
    (bounded : Bounded (path ++ behind)) : path = [] ∨ ∃ after, path = '/' :: after := by
  cases path with
  | nil => exact Or.inl rfl
  | cons char after =>
      have outside := bounded char (after ++ behind) rfl
      have slash : char = '/' := by
        by_contra other
        have inside : Run inAuthority [char] := by
          rcases run.mem List.mem_cons_self with member | percent | digit
          · have segment := Grammar.inSegment_of_inPath member other
            rcases Bool.or_eq_true_iff.1 segment with user | at_
            · exact .plain (inAuthority_of_inUserinfo user) .nil
            · exact .plain (by rw [eq_of_beq at_]; decide) .nil
          · exact .plain (by rw [percent]; decide) .nil
          · have unreserved := Grammar.isUnreserved_of_isHexDigit digit
            exact .plain (inAuthority_of_inUserinfo
              (Grammar.inUserinfo_of_isUnreserved unreserved)) .nil
        cases inside with
        | plain member _ => exact Bool.false_ne_true (outside.symm.trans member)
      exact Or.inr ⟨after, by rw [slash]⟩

theorem derives_of_steps (steps : uri.Steps withFragment rest) : uri.Derives := by
  have authoritySteps := steps.authority
  have querySteps := steps.query
  have fragmentSteps := steps.fragment
  refine ⟨steps.scheme, ?_, ?_, ?_, ?_⟩
  · intro part found
    rw [found] at authoritySteps
    exact authoritySteps.1
  · cases found : uri.authority with
    | none =>
        rw [found] at authoritySteps
        refine Grammar.mem_pathAlone.2 ⟨steps.path.1, fun after slashes => ?_⟩
        exact authoritySteps (after ++ uri.behindPath rest) (by rw [slashes]; rfl)
    | some part =>
        rw [found] at authoritySteps
        exact Grammar.mem_pathAbempty.2
          ⟨steps.path.1, slash_of_bounded steps.path.1 authoritySteps.2⟩
  · intro run found
    rw [found] at querySteps
    exact Grammar.mem_query.2 querySteps.1
  · intro run found
    rw [found] at fragmentSteps
    exact Grammar.mem_fragment.2 fragmentSteps.2.1

theorem ends_of_steps (steps : uri.Steps withFragment rest) : uri.Ends withFragment rest := by
  intro char after shape
  have authoritySteps := steps.authority
  have pathSteps := steps.path.2
  have querySteps := steps.query
  have fragmentSteps := steps.fragment
  unfold continues
  cases fragment : uri.fragment with
  | some run =>
      rw [fragment] at fragmentSteps
      obtain ⟨outside, plain⟩ := fragmentSteps.2.2 char after shape
      simp only [outside, beq_eq_false_iff_ne.2 plain, Bool.or_self]
  | none =>
      rw [fragment] at fragmentSteps
      have behindQuery : uri.behindQuery rest = rest := by
        rw [Uri.behindQuery, fragment]
        rfl
      have noHash : (withFragment && char == '#') = false := by
        rw [Bool.eq_false_iff]
        intro both
        rw [Bool.and_eq_true, beq_iff_eq] at both
        exact fragmentSteps both.1 after (both.2 ▸ shape)
      cases query : uri.query with
      | some run =>
          rw [query, behindQuery] at querySteps
          obtain ⟨outside, plain⟩ := querySteps.2 char after shape
          simp only [outside, noHash, beq_eq_false_iff_ne.2 plain, Bool.or_self]
      | none =>
          rw [query, behindQuery] at querySteps
          have behindPath : uri.behindPath rest = rest := by
            rw [Uri.behindPath, query, behindQuery]
            rfl
          rw [behindPath] at pathSteps authoritySteps
          obtain ⟨outside, plain⟩ := pathSteps char after shape
          have noMark : (char == '?') = false :=
            beq_eq_false_iff_ne.2 fun mark => querySteps after (mark ▸ shape)
          have noAuthority :
              (uri.authority.isSome && uri.path.isEmpty && inAuthority char) = false := by
            cases authority : uri.authority with
            | none => rfl
            | some part =>
                rw [authority] at authoritySteps
                cases path : uri.path with
                | nil =>
                    rw [path] at authoritySteps
                    exact authoritySteps.2 char after shape
                | cons first others => rfl
          simp only [inQuery, outside, noMark, noHash, noAuthority, beq_eq_false_iff_ne.2 plain,
            Bool.or_self]

theorem halts_behindPath (ends : uri.Ends withFragment rest) :
    Halts inPath (uri.behindPath rest) := by
  intro char after shape
  rcases behindPath_cons shape with mark | ⟨noQuery, shape⟩
  · rw [mark]
    decide
  · rcases behindQuery_cons shape with hash | ⟨noFragment, shape⟩
    · rw [hash]
      decide
    · have stopped := ends char after shape
      simp only [continues, noQuery, noFragment, inQuery, Bool.or_eq_false_iff] at stopped
      exact ⟨stopped.2.1.1.1, beq_eq_false_iff_ne.1 stopped.1⟩

theorem halts_behindQuery {run : Text} (found : uri.query = some run)
    (ends : uri.Ends withFragment rest) : Halts inQuery (uri.behindQuery rest) := by
  intro char after shape
  rcases behindQuery_cons shape with hash | ⟨noFragment, shape⟩
  · rw [hash]
    decide
  · have stopped := ends char after shape
    simp only [continues, found, noFragment, Bool.or_eq_false_iff] at stopped
    exact ⟨stopped.2.1, beq_eq_false_iff_ne.1 stopped.1⟩

theorem bounded_behindPath {part : Authority} (found : uri.authority = some part)
    (empty : uri.path = []) (ends : uri.Ends withFragment rest) :
    Bounded (uri.behindPath rest) := by
  intro char after shape
  rcases behindPath_cons shape with mark | ⟨noQuery, shape⟩
  · rw [mark]
    decide
  · rcases behindQuery_cons shape with hash | ⟨noFragment, shape⟩
    · rw [hash]
      decide
    · have stopped := ends char after shape
      simp only [continues, noQuery, noFragment, found, empty, Option.isSome_some,
        List.isEmpty_nil, Bool.true_and, Bool.or_eq_false_iff] at stopped
      exact stopped.2.2

/-- A path without two slashes in front does not get them from what stands behind it. -/
theorem unslashed_append {path behind : Text} (unslashed : ∀ after, path ≠ '/' :: '/' :: after)
    (halts : Halts inPath behind) : ∀ after, path ++ behind ≠ '/' :: '/' :: after := by
  intro after slashes
  cases path with
  | nil => exact absurd (halts _ _ slashes).1 (by decide)
  | cons first others =>
      obtain ⟨slash, slashes⟩ := List.cons.inj slashes
      cases others with
      | nil => exact absurd (halts _ _ slashes).1 (by decide)
      | cons second others =>
          obtain ⟨again, _⟩ := List.cons.inj slashes
          exact unslashed others (by rw [slash, again])

theorem steps_of_derives (derives : uri.Derives)
    (absolute : withFragment = false → uri.fragment = none) (ends : uri.Ends withFragment rest) :
    uri.Steps withFragment rest := by
  have none_of {char : Char} {after : Text} (continued : uri.continues withFragment char = true)
      (shape : rest = char :: after) : False :=
    Bool.false_ne_true ((ends char after shape).symm.trans continued)
  have pathHalts := halts_behindPath ends
  have member := derives.path
  refine ⟨derives.scheme, ?_, ⟨run_of_path member, pathHalts⟩, ?_, ?_⟩
  · cases found : uri.authority with
    | none =>
        rw [found] at member
        exact unslashed_append (Grammar.mem_pathAlone.1 member).2 pathHalts
    | some part =>
        rw [found] at member
        refine ⟨derives.authority part found, ?_⟩
        rcases (Grammar.mem_pathAbempty.1 member).2 with empty | ⟨others, slashed⟩
        · rw [empty]
          exact bounded_behindPath found empty ends
        · rw [slashed]
          intro char after shape
          rw [← (List.cons.inj shape).1]
          decide
  · cases found : uri.query with
    | none =>
        intro after shape
        rcases behindQuery_cons shape with impossible | ⟨noFragment, shape⟩
        · exact absurd impossible (by decide)
        · exact none_of (by simp [continues, noFragment, found, inQuery]) shape
    | some inner =>
        exact ⟨Grammar.mem_query.1 (derives.query inner found), halts_behindQuery found ends⟩
  · cases found : uri.fragment with
    | none =>
        intro allowed after shape
        refine none_of ?_ shape
        cases query : uri.query <;> simp [continues, found, query, allowed]
    | some inner =>
        have allowed : withFragment = true := by
          rw [← Bool.not_eq_false]
          intro forbidden
          rw [absolute forbidden] at found
          cases found
        refine ⟨allowed, Grammar.mem_fragment.1 (derives.fragment inner found), ?_⟩
        intro char after shape
        have stopped := ends char after shape
        simp only [continues, found, Bool.or_eq_false_iff] at stopped
        exact ⟨stopped.2, beq_eq_false_iff_ne.1 stopped.1⟩

/-- What is read is an identifier of the grammar, as far as that can be gone on. -/
theorem read_eq_ok_iff : read withFragment text = .ok (uri, rest) ↔
    uri.text ++ rest = text ∧ uri.Derives ∧ (withFragment = false → uri.fragment = none) ∧
      uri.Ends withFragment rest := by
  rw [read_eq_ok_iff_steps]
  constructor
  · rintro ⟨joined, steps⟩
    refine ⟨joined, derives_of_steps steps, ?_, ends_of_steps steps⟩
    intro forbidden
    have fragment := steps.fragment
    cases found : uri.fragment with
    | none => rfl
    | some run =>
        rw [found] at fragment
        exact absurd (forbidden.symm.trans fragment.1) Bool.false_ne_true
  · rintro ⟨joined, derives, absolute, ends⟩
    exact ⟨joined, steps_of_derives derives absolute ends⟩

theorem ends_nil : uri.Ends withFragment [] := by
  intro char after impossible
  cases impossible

theorem ofText_eq_ok_iff : ofText withFragment text = .ok uri ↔
    uri.text = text ∧ uri.Derives ∧ (withFragment = false → uri.fragment = none) := by
  constructor
  · intro found
    refine ⟨text_of_ofText found, ?_⟩
    unfold ofText at found
    split at found
    next => cases found
    next read =>
      cases found
      obtain ⟨_, derives, absolute, _⟩ := read_eq_ok_iff.1 read
      exact ⟨derives, absolute⟩
    next => cases found
  · rintro ⟨equal, derives, absolute⟩
    have read := read_eq_ok_iff.2 ⟨(List.append_nil uri.text).trans equal, derives, absolute, ends_nil⟩
    rw [ofText, read]

end MagnetUri.Uri

namespace MagnetUri

structure Host.Classified (host : Host) : Prop where
  ipv6 : (∃ address, host = .ipv6 address) ↔
    ∃ address ∈ Grammar.ipv6Address, host.text = '[' :: address ++ [']']
  ipvFuture : (∃ address, host = .ipvFuture address) ↔
    ∃ address ∈ Grammar.ipvFuture, host.text = '[' :: address ++ [']']
  ipv4 : (∃ address, host = .ipv4 address) ↔ host.text ∈ Grammar.ipv4Address
  name : (∃ encoded, host = .name encoded) ↔
    host.text ∉ Grammar.ipLiteral ∧ host.text ∉ Grammar.ipv4Address

structure Uri.IsDerivationOf (uri : Uri) (text : Text) : Prop where
  derives : uri.Derives
  joined : uri.text = text
  hosts : ∀ authority, uri.authority = some authority → authority.host.Classified

namespace Uri

open Grammar (Run)

theorem ne_bracketed_of_run {run address : Text} (taken : Run Character.inRegisteredName run) :
    run ≠ '[' :: address ++ [']'] := by
  intro equal
  have bracket : '[' ∈ run := by
    rw [equal]
    exact List.mem_cons_self
  exact taken.not_mem (by decide) (by decide) (by decide) bracket

theorem not_ipLiteral_of_run {run : Text} (taken : Run Character.inRegisteredName run) :
    run ∉ Grammar.ipLiteral := by
  intro literal
  obtain ⟨address, _, equal⟩ := Grammar.mem_ipLiteral.1 literal
  exact ne_bracketed_of_run taken equal

theorem bracketed_inj {left right : Text} (same : '[' :: left ++ [']'] = '[' :: right ++ [']']) :
    left = right :=
  List.append_cancel_right (List.cons.inj same).2

theorem not_ipv4_of_bracketed {address : Text} : '[' :: address ++ [']'] ∉ Grammar.ipv4Address := by
  intro quad
  exact ne_bracketed_of_run (Grammar.run_of_ipv4 quad) rfl

theorem classified_of_derives {host : Host} (derives : host.Derives) : host.Classified := by
  cases host with
  | ipv4 address =>
      have quad : address ∈ Grammar.ipv4Address := derives
      have taken := Grammar.run_of_ipv4 quad
      refine ⟨?_, ?_, ?_, ?_⟩
      · exact ⟨nofun, fun ⟨_, _, equal⟩ => absurd equal (ne_bracketed_of_run taken)⟩
      · exact ⟨nofun, fun ⟨_, _, equal⟩ => absurd equal (ne_bracketed_of_run taken)⟩
      · exact ⟨fun _ => quad, fun _ => ⟨address, rfl⟩⟩
      · exact ⟨nofun, fun ⟨_, other⟩ => absurd quad other⟩
  | ipv6 address =>
      have six : address ∈ Grammar.ipv6Address := derives
      refine ⟨?_, ?_, ?_, ?_⟩
      · exact ⟨fun _ => ⟨address, six, rfl⟩, fun _ => ⟨address, rfl⟩⟩
      · refine ⟨nofun, fun ⟨other, future, equal⟩ => ?_⟩
        exact absurd (bracketed_inj equal ▸ six) (Grammar.not_ipv6_of_ipvFuture future)
      · exact ⟨nofun, fun quad => absurd quad not_ipv4_of_bracketed⟩
      · refine ⟨nofun, fun ⟨other, _⟩ => ?_⟩
        exact absurd (Grammar.mem_ipLiteral.2 ⟨address, Or.inl six, rfl⟩) other
  | ipvFuture address =>
      have future : address ∈ Grammar.ipvFuture := derives
      refine ⟨?_, ?_, ?_, ?_⟩
      · refine ⟨nofun, fun ⟨other, six, equal⟩ => ?_⟩
        exact absurd (bracketed_inj equal ▸ six) (Grammar.not_ipv6_of_ipvFuture future)
      · exact ⟨fun _ => ⟨address, future, rfl⟩, fun _ => ⟨address, rfl⟩⟩
      · exact ⟨nofun, fun quad => absurd quad not_ipv4_of_bracketed⟩
      · refine ⟨nofun, fun ⟨other, _⟩ => ?_⟩
        exact absurd (Grammar.mem_ipLiteral.2 ⟨address, Or.inr future, rfl⟩) other
  | name encoded =>
      obtain ⟨named, noQuad⟩ := derives
      have taken := Grammar.mem_registeredName.1 named
      refine ⟨?_, ?_, ?_, ?_⟩
      · exact ⟨nofun, fun ⟨_, _, equal⟩ => absurd equal (ne_bracketed_of_run taken)⟩
      · exact ⟨nofun, fun ⟨_, _, equal⟩ => absurd equal (ne_bracketed_of_run taken)⟩
      · exact ⟨nofun, fun quad => absurd quad noQuad⟩
      · exact ⟨fun _ => ⟨not_ipLiteral_of_run taken, noQuad⟩, fun _ => ⟨encoded, rfl⟩⟩

variable {text : Text} {uri : Uri}

theorem isDerivationOf_iff : uri.IsDerivationOf text ↔ uri.text = text ∧ uri.Derives := by
  constructor
  · intro derivation
    exact ⟨derivation.joined, derivation.derives⟩
  · rintro ⟨joined, derives⟩
    refine ⟨derives, joined, fun authority found => ?_⟩
    exact classified_of_derives (derives.authority authority found).host

theorem parse_eq_ok_iff : parse text = .ok uri ↔ uri.text = text ∧ uri.Derives := by
  rw [parse, ofText_eq_ok_iff]
  constructor
  · rintro ⟨joined, derives, _⟩
    exact ⟨joined, derives⟩
  · rintro ⟨joined, derives⟩
    exact ⟨joined, derives, fun impossible => by cases impossible⟩

theorem parseAbsolute_eq_ok_iff : parseAbsolute text = .ok uri ↔
    uri.text = text ∧ uri.Derives ∧ uri.fragment = none := by
  rw [parseAbsolute, ofText_eq_ok_iff]
  constructor
  · rintro ⟨joined, derives, absolute⟩
    exact ⟨joined, derives, absolute rfl⟩
  · rintro ⟨joined, derives, absolute⟩
    exact ⟨joined, derives, fun _ => absolute⟩

/-- Reading a whole text finds the derivation of the text in the grammar, if it has one. -/
theorem parse_recognizes_grammar (text : Text) :
    ((∃ uri, parse text = .ok uri) ↔ text ∈ Grammar.uri) ∧
    ((∃ uri, parseAbsolute text = .ok uri) ↔ text ∈ Grammar.absoluteUri) ∧
    (∀ uri, parse text = .ok uri ↔ uri.IsDerivationOf text) ∧
    (∀ uri, parseAbsolute text = .ok uri ↔ uri.IsDerivationOf text ∧ uri.fragment = none) := by
  refine ⟨?_, ?_, ?_, ?_⟩
  · rw [Grammar.mem_uri]
    apply exists_congr
    intro uri
    rw [parse_eq_ok_iff]
    exact And.comm
  · rw [Grammar.mem_absoluteUri]
    apply exists_congr
    intro uri
    rw [parseAbsolute_eq_ok_iff]
    constructor
    · rintro ⟨joined, derives, absolute⟩
      exact ⟨derives, absolute, joined⟩
    · rintro ⟨derives, absolute, joined⟩
      exact ⟨joined, derives, absolute⟩
  · intro uri
    rw [parse_eq_ok_iff, isDerivationOf_iff]
  · intro uri
    rw [parseAbsolute_eq_ok_iff, isDerivationOf_iff, and_assoc]

end Uri
end MagnetUri

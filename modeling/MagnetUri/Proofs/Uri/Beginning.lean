import MagnetUri.Uri.Parser

set_option autoImplicit false

/-! What readers take and how they fail. What a reader takes, written out again and followed by what
it leaves, is the text. No reader complains that a text goes on behind its identifier. -/

namespace MagnetUri.Uri

section Text

theorem eq_of_readAfter {α : Type} {text rest : Text} {reader : Text → Except SyntaxError α}
    {value : α} (found : readAfter text rest reader = .ok value) : reader rest = .ok value := by
  unfold readAfter at found
  cases read : reader rest with
  | error error => rw [read] at found; cases found
  | ok result =>
      rw [read] at found
      cases found
      rfl

theorem append_of_readRun {inClass : Char → Bool} {text run rest : Text}
    (found : readRun inClass text = .ok (run, rest)) : run ++ rest = text := by
  fun_induction readRun inClass text generalizing run rest with
  | case1 =>
      cases found
      rfl
  | case2 high low after valid inner left read ih =>
      cases found
      simp only [List.cons_append, ih read]
  | case3 => cases found
  | case4 => cases found
  | case5 => cases found
  | case6 char after _ plain member inner left read ih =>
      cases found
      simp only [List.cons_append, ih read]
  | case7 => cases found
  | case8 =>
      cases found
      rfl

theorem append_of_readComponent {inClass : Char → Bool} {text component rest : Text}
    (found : readComponent inClass text = .ok (component, rest)) : component ++ rest = text := by
  unfold readComponent at found
  cases read : readRun inClass text with
  | error place => rw [read] at found; cases found
  | ok parts =>
      rw [read] at found
      cases found
      exact append_of_readRun read

theorem append_of_readOptional {delimiter : Char} {inClass : Char → Bool} {text rest : Text}
    {component : Option Text}
    (found : readOptional delimiter inClass text = .ok (component, rest)) :
    component.elim [] (delimiter :: ·) ++ rest = text := by
  cases text with
  | nil =>
      cases found
      rfl
  | cons char after =>
      simp only [readOptional] at found
      split at found
      next same =>
        split at found
        next read =>
          cases found
          simp [append_of_readComponent read, same]
        next => cases found
      next =>
        cases found
        rfl

theorem append_of_readScheme {text scheme rest : Text}
    (found : readScheme text = .ok (scheme, rest)) : scheme ++ ':' :: rest = text := by
  cases text with
  | nil => cases found
  | cons first after =>
      simp only [readScheme] at found
      split at found
      next =>
        split at found
        next left =>
          cases found
          rw [List.cons_append, ← left, List.takeWhile_append_dropWhile]
        next => cases found
      next => cases found

theorem append_of_splitUserinfo {extent rest : Text} {userinfo : Option Text}
    (found : splitUserinfo extent = .ok (userinfo, rest)) :
    userinfo.elim [] (· ++ ['@']) ++ rest = extent := by
  unfold splitUserinfo at found
  split at found
  next =>
    cases found
    rfl
  next before after cut =>
    split at found
    next => cases found
    next =>
      split at found
      next =>
        cases found
        simp [Text.eq_append_of_cut? cut]
      next => cases found

theorem text_of_hostOfLiteral {address : Text} {host : Host}
    (found : hostOfLiteral address = .ok host) : host.text = '[' :: address ++ [']'] := by
  unfold hostOfLiteral at found
  split at found
  next =>
    cases found
    rfl
  next =>
    split at found
    next =>
      cases found
      rfl
    next => cases found

theorem text_of_hostOfName {name : Text} {host : Host} (found : hostOfName name = .ok host) :
    host.text = name := by
  unfold hostOfName at found
  split at found
  next => cases found
  next => cases found
  next =>
    cases found
    split <;> rfl

theorem append_of_splitHost {extent rest : Text} {host : Host}
    (found : splitHost extent = .ok (host, rest)) : host.text ++ rest = extent := by
  unfold splitHost at found
  split at found
  next inside =>
    split at found
    next => cases found
    next address after cut =>
      cases read : hostOfLiteral address with
      | error error => rw [read] at found; cases found
      | ok literal =>
          rw [read] at found
          cases found
          simp [text_of_hostOfLiteral read, Text.eq_append_of_cut? cut]
  next =>
    cases read : hostOfName (extent.takeWhile (· ≠ ':')) with
    | error error => rw [read] at found; cases found
    | ok name =>
        rw [read] at found
        cases found
        rw [text_of_hostOfName read]
        exact List.takeWhile_append_dropWhile

theorem eq_of_readPort {text : Text} {port : Option Text} (found : readPort text = .ok port) :
    port.elim [] (':' :: ·) = text := by
  cases text with
  | nil =>
      cases found
      rfl
  | cons mark digits =>
      simp only [readPort] at found
      split at found
      next shape =>
        cases found
        simp [shape.1]
      next => cases found

theorem text_of_readAuthority {extent : Text} {authority : Authority}
    (found : readAuthority extent = .ok authority) : authority.text = extent := by
  simp only [readAuthority, bind, Except.bind, pure, Except.pure] at found
  split at found
  next => cases found
  next userinfoParts readUserinfo =>
    split at found
    next => cases found
    next hostParts readHost =>
      split at found
      next => cases found
      next port readPort =>
        cases found
        simp only [Authority.text, List.append_assoc]
        rw [eq_of_readPort (eq_of_readAfter readPort), append_of_splitHost (eq_of_readAfter readHost),
          append_of_splitUserinfo readUserinfo]

theorem append_of_readOptionalAuthority {text rest : Text} {authority : Option Authority}
    (found : readOptionalAuthority text = .ok (authority, rest)) :
    authority.elim [] (fun part => '/' :: '/' :: part.text) ++ rest = text := by
  unfold readOptionalAuthority at found
  split at found
  next after =>
    split at found
    next part read =>
      cases found
      simp [text_of_readAuthority read, List.takeWhile_append_dropWhile]
    next => cases found
  next =>
    cases found
    rfl

theorem append_of_readFragment {withFragment : Bool} {text rest : Text} {fragment : Option Text}
    (found : readFragment withFragment text = .ok (fragment, rest)) :
    fragment.elim [] ('#' :: ·) ++ rest = text := by
  unfold readFragment at found
  split at found
  next => exact append_of_readOptional found
  next =>
    cases found
    rfl

/-- What is read and what is left make up the text. -/
theorem append_of_read {withFragment : Bool} {text rest : Text} {uri : Uri}
    (found : read withFragment text = .ok (uri, rest)) : uri.text ++ rest = text := by
  simp only [read, bind, Except.bind, pure, Except.pure] at found
  split at found
  next => cases found
  next schemeParts readScheme =>
    split at found
    next => cases found
    next authorityParts readAuthority =>
      split at found
      next => cases found
      next pathParts readPath =>
        split at found
        next => cases found
        next queryParts readQuery =>
          split at found
          next => cases found
          next fragmentParts readFragment =>
            cases found
            simp only [Uri.text, List.append_assoc, List.cons_append]
            rw [append_of_readFragment (eq_of_readAfter readFragment),
              append_of_readOptional (eq_of_readAfter readQuery),
              append_of_readComponent (eq_of_readAfter readPath),
              append_of_readOptionalAuthority (eq_of_readAfter readAuthority),
              append_of_readScheme readScheme]

/-- The identifier that a whole text writes has that text. -/
theorem text_of_ofText {withFragment : Bool} {text : Text} {uri : Uri}
    (found : ofText withFragment text = .ok uri) : uri.text = text := by
  unfold ofText at found
  split at found
  next => cases found
  next read =>
    cases found
    simpa using append_of_read read
  next => cases found

end Text

section Faults

variable {α β : Type} {outcome : Except SyntaxError α}

def NoLeftover : Except SyntaxError α → Prop
  | .ok _ => True
  | .error error => ∀ rest, error.fault ≠ .leftover rest

theorem NoLeftover.bind {next : α → Except SyntaxError β} (first : NoLeftover outcome)
    (later : ∀ value, NoLeftover (next value)) : NoLeftover (outcome >>= next) := by
  cases outcome with
  | error error => exact first
  | ok value => exact later value

theorem NoLeftover.map (first : NoLeftover outcome) (change : α → β) :
    NoLeftover (outcome.map change) := by
  cases outcome with
  | error error => exact first
  | ok value => trivial

theorem NoLeftover.after {reader : Text → Except SyntaxError α}
    (reads : ∀ text, NoLeftover (reader text)) (text rest : Text) :
    NoLeftover (readAfter text rest reader) := by
  have inner := reads rest
  unfold readAfter
  cases found : reader rest with
  | error error => rw [found] at inner; exact inner
  | ok value => trivial

theorem noLeftover_readComponent (inClass : Char → Bool) (text : Text) :
    NoLeftover (readComponent inClass text) := by
  unfold readComponent
  cases readRun inClass text with
  | error place => exact nofun
  | ok parts => trivial

theorem noLeftover_readOptional (delimiter : Char) (inClass : Char → Bool) (text : Text) :
    NoLeftover (readOptional delimiter inClass text) := by
  cases text with
  | nil => trivial
  | cons char rest =>
      have component := noLeftover_readComponent inClass rest
      rw [readOptional]
      split
      next =>
        split
        next => trivial
        next failed => rw [failed] at component; exact component
      next => trivial

theorem noLeftover_readScheme (text : Text) : NoLeftover (readScheme text) := by
  unfold readScheme
  split
  next => exact nofun
  next =>
    split
    next =>
      dsimp only
      split
      next => trivial
      next => exact nofun
    next => exact nofun

theorem noLeftover_splitUserinfo (extent : Text) : NoLeftover (splitUserinfo extent) := by
  unfold splitUserinfo
  split
  next => trivial
  next =>
    split
    next => exact nofun
    next =>
      split
      next => trivial
      next => exact nofun

theorem noLeftover_splitHost (extent : Text) : NoLeftover (splitHost extent) := by
  unfold splitHost
  split
  next =>
    split
    next => exact nofun
    next =>
      apply NoLeftover.map
      unfold hostOfLiteral
      split
      next => trivial
      next =>
        split
        next => trivial
        next => exact nofun
  next =>
    apply NoLeftover.map
    unfold hostOfName
    split
    next => exact nofun
    next => exact nofun
    next => trivial

theorem noLeftover_readPort (text : Text) : NoLeftover (readPort text) := by
  unfold readPort
  split
  next => trivial
  next =>
    split
    next => trivial
    next => exact nofun

theorem noLeftover_readAuthority (extent : Text) : NoLeftover (readAuthority extent) :=
  (noLeftover_splitUserinfo extent).bind fun _ =>
    (NoLeftover.after noLeftover_splitHost extent _).bind fun _ =>
      (NoLeftover.after noLeftover_readPort extent _).bind fun _ => trivial

theorem noLeftover_readOptionalAuthority (text : Text) :
    NoLeftover (readOptionalAuthority text) := by
  unfold readOptionalAuthority
  split
  next rest =>
    have authority := noLeftover_readAuthority (rest.takeWhile Character.inAuthority)
    split
    next => trivial
    next failed => rw [failed] at authority; exact authority
  next => trivial

theorem noLeftover_readFragment (withFragment : Bool) (text : Text) :
    NoLeftover (readFragment withFragment text) := by
  unfold readFragment
  split
  next => exact noLeftover_readOptional _ _ text
  next => trivial

theorem noLeftover_read (withFragment : Bool) (text : Text) : NoLeftover (read withFragment text) :=
  (noLeftover_readScheme text).bind fun _ =>
    (NoLeftover.after noLeftover_readOptionalAuthority text _).bind fun _ =>
      (NoLeftover.after (noLeftover_readComponent _) text _).bind fun _ =>
        (NoLeftover.after (noLeftover_readOptional _ _) text _).bind fun _ =>
          (NoLeftover.after (noLeftover_readFragment _) text _).bind fun _ => trivial

end Faults

end MagnetUri.Uri

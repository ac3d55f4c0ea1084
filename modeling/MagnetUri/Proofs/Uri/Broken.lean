import MagnetUri.Proofs.Uri.Escape

set_option autoImplicit false

/-! Broken escapes in whole texts. A text that would be an identifier if its broken escapes were
mended is rejected for the first of them. The user information and an address between brackets are
judged as a whole, so what is broken there is told of them. -/

namespace MagnetUri

open Percent (brokenEscape?)

variable {rest : Text} {place : Nat}

inductive Uri.Region where
  | userinfo
  | literal
  | other
deriving DecidableEq

def Uri.Region.complaint (authorityStart hostStart place : Nat) : Region → SyntaxError
  | .userinfo => { fault := .userinfo, position := authorityStart }
  | .literal => { fault := .literal, position := hostStart }
  | .other => { fault := .brokenEscape, position := place }

namespace Host

def isLiteral : Host → Bool
  | .ipv6 _ | .ipvFuture _ => true
  | .ipv4 _ | .name _ => false

def regionAt (host : Host) (place : Nat) : Uri.Region :=
  if host.isLiteral ∧ place < host.text.length then .literal else .other

end Host

namespace Authority

def hostStart (authority : Authority) : Nat :=
  authority.userinfo.elim 0 (·.length + 1)

def regionAt (authority : Authority) (place : Nat) : Uri.Region :=
  if place < authority.userinfo.elim 0 List.length then .userinfo
  else authority.host.regionAt (place - authority.hostStart)

end Authority

namespace Uri

def authorityStart (uri : Uri) : Nat :=
  uri.scheme.length + 3

def hostStart (uri : Uri) : Nat :=
  uri.authorityStart + uri.authority.elim 0 Authority.hostStart

def regionAt (uri : Uri) (place : Nat) : Region :=
  uri.authority.elim .other fun part => part.regionAt (place - uri.authorityStart)

end Uri

/-- No place of a host is told of its user information. -/
theorem Host.complaint_regionAt (host : Host) (start other hostStart place told : Nat) :
    (host.regionAt place).complaint start hostStart told =
      (host.regionAt place).complaint other hostStart told := by
  unfold regionAt
  split
  next => rfl
  next => rfl

theorem Host.regionAt_end {host : Host} (beyond : host.text.length ≤ place) :
    host.regionAt place = .other :=
  if_neg fun both => Nat.not_lt.2 beyond both.2

namespace Authority

variable {authority : Authority}

theorem hostStart_eq : authority.hostStart =
    (authority.userinfo.elim ([] : Text) (· ++ ['@'])).length := by
  unfold hostStart
  cases authority.userinfo with
  | none => rfl
  | some userinfo =>
      change userinfo.length + 1 = (userinfo ++ ['@']).length
      rw [List.length_append, List.length_singleton]

theorem regionAt_userinfo {userinfo : Text} (given : authority.userinfo = some userinfo)
    (before : place < userinfo.length) : authority.regionAt place = .userinfo := by
  rw [regionAt, given, Option.elim_some, if_pos before]

theorem regionAt_host (authority : Authority) (place : Nat) :
    authority.regionAt (place + authority.hostStart) = authority.host.regionAt place := by
  have outside : ¬place + authority.hostStart < authority.userinfo.elim 0 List.length := by
    unfold hostStart
    cases authority.userinfo with
    | none => exact Nat.not_lt_zero _
    | some userinfo =>
        change ¬place + (userinfo.length + 1) < userinfo.length
        omega
  rw [regionAt, if_neg outside, Nat.add_sub_cancel]

theorem regionAt_end (beyond : authority.text.length ≤ place) :
    authority.regionAt place = .other := by
  rw [text, List.length_append, List.length_append, ← hostStart_eq] at beyond
  have behind : place = place - authority.hostStart + authority.hostStart := by omega
  rw [behind, regionAt_host, Host.regionAt_end (by omega)]

end Authority

namespace Uri

theorem Region.shift_complaint (region : Region) (authorityStart hostStart place distance : Nat) :
    (region.complaint authorityStart hostStart place).shift distance =
      region.complaint (authorityStart + distance) (hostStart + distance) (place + distance) := by
  cases region with
  | userinfo => rfl
  | literal => rfl
  | other => rfl

/-- What is told of an authority, from the start of the identifier. -/
theorem complaint_authority {uri : Uri} {part : Authority} (given : uri.authority = some part)
    (within : Nat) (same : within + 2 + (uri.scheme.length + 1) = place) :
    ((part.regionAt within).complaint 2 (part.hostStart + 2) (within + 2)).shift
        (uri.scheme.length + 1 : Nat) =
      (uri.regionAt place).complaint uri.authorityStart uri.hostStart place := by
  have region : uri.regionAt place = part.regionAt within := by
    have start : place - uri.authorityStart = within := by
      rw [authorityStart]
      omega
    rw [regionAt, given, Option.elim_some, start]
  rw [Region.shift_complaint, region, hostStart, authorityStart, given, Option.elim_some, ← same]
  congr 1
  · omega
  · omega

/-- Behind the scheme and the authority an escape is told where it is broken. -/
theorem regionAt_behind {uri : Uri} {after : Text}
    (read : readOptionalAuthority rest = .ok (uri.authority, after))
    (broken : brokenEscape? rest = some place) :
    uri.regionAt (place + (uri.scheme.length + 1)) = .other := by
  obtain ⟨joined, condition⟩ := readOptionalAuthority_eq_ok_iff.1 read
  unfold regionAt authorityStart
  cases given : uri.authority with
  | none => rfl
  | some part =>
      rw [given] at joined condition
      have whole := whole_slashed condition.1
      rw [← joined, Option.elim_some, whole.brokenEscape?] at broken
      obtain ⟨inner, _, same⟩ := Option.map_eq_some_iff.1 broken
      rw [List.length_cons, List.length_cons] at same
      exact Authority.regionAt_end (by omega)

end Uri
end MagnetUri

namespace MagnetUri.Uri

open Character
open Grammar (Run)
open Percent (brokenEscape? mend mend_eq_self_iff)

variable {α β ε δ : Type} {text rest extent : Text} {place : Nat} {inClass : Char → Bool}
  {fails : ε → Prop} {mended broken : Except ε (α × Text)}

/-- A reader does with a text what it does with the mended text, or fails as told. -/
def Keeps (fails : ε → Prop) : Except ε (α × Text) → Except ε (α × Text) → Prop
  | .error _, _ => True
  | .ok (value, later), .ok (taken, rest) => taken = value ∧ mend rest = later
  | .ok _, .error error => fails error

def Breaks (error : SyntaxError) : Prop :=
  error.fault = .brokenEscape

theorem Keeps.map (keeps : Keeps fails mended broken) (change : α → β) :
    Keeps fails (mended.map fun parts => (change parts.1, parts.2))
      (broken.map fun parts => (change parts.1, parts.2)) := by
  cases mended with
  | error error => trivial
  | ok parts =>
      cases broken with
      | error error => exact keeps
      | ok taken => exact ⟨congrArg change keeps.1, keeps.2⟩

theorem Keeps.mapError {stillFails : δ → Prop} (keeps : Keeps fails mended broken)
    (first second : ε → δ) (still : ∀ error, fails error → stillFails (second error)) :
    Keeps stillFails (mended.mapError first) (broken.mapError second) := by
  cases mended with
  | error error => trivial
  | ok parts =>
      cases broken with
      | error error => exact still error keeps
      | ok taken => exact keeps

theorem Keeps.bind {next nextBroken : α × Text → Except ε (β × Text)}
    (first : Keeps fails mended broken)
    (later : ∀ value rest, Keeps fails (next (value, mend rest)) (nextBroken (value, rest))) :
    Keeps fails (mended >>= next) (broken >>= nextBroken) := by
  cases mended with
  | error error => trivial
  | ok parts =>
      cases broken with
      | error error =>
          change Keeps fails (next parts) (.error error)
          cases next parts with
          | error error => trivial
          | ok value => exact first
      | ok taken =>
          obtain ⟨value, rest⟩ := taken
          have same : parts = (value, mend rest) := Prod.ext first.1.symm first.2.symm
          rw [same]
          exact later value rest

theorem Keeps.after {reader : Text → Except SyntaxError (α × Text)}
    (keeps : Keeps Breaks (reader (mend rest)) (reader rest)) :
    Keeps Breaks (readAfter (mend text) (mend rest) reader) (readAfter text rest reader) :=
  keeps.mapError _ _ fun _ => id

/-- A run of a mended text is one of the text, unless an escape is broken before its end. -/
theorem keeps_readRun (inClass : Char → Bool) (text : Text) :
    Keeps (fun _ => True) (readRun inClass (mend text)) (readRun inClass text) := by
  induction text using Percent.escapes_induction with
  | nil => exact ⟨rfl, rfl⟩
  | plain char rest plain ih =>
      rw [Percent.mend_plain plain]
      cases inside : inClass char with
      | false =>
          rw [readRun_outside plain inside, readRun_outside plain inside]
          exact ⟨rfl, Percent.mend_plain plain⟩
      | true =>
          rw [readRun_plain plain inside, readRun_plain plain inside]
          exact (ih.map (char :: ·)).mapError (· + 1) (· + 1) fun _ _ => trivial
  | escape high low rest first second ih =>
      rw [Percent.mend_escape first second, readRun_escape first second,
        readRun_escape first second]
      exact (ih.map ('%' :: high :: low :: ·)).mapError (· + 3) (· + 3) fun _ _ => trivial
  | broken rest incomplete _ =>
      rw [readRun_broken incomplete]
      cases readRun inClass (mend ('%' :: rest)) with
      | error place => trivial
      | ok parts => trivial

theorem keeps_readComponent (inClass : Char → Bool) (text : Text) :
    Keeps Breaks (readComponent inClass (mend text)) (readComponent inClass text) :=
  (keeps_readRun inClass text).mapError _ _ fun _ _ => rfl

theorem keeps_readOptional {delimiter : Char} (other : delimiter ≠ 'a') (plain : delimiter ≠ '%')
    (inClass : Char → Bool) (text : Text) :
    Keeps Breaks (readOptional delimiter inClass (mend text))
      (readOptional delimiter inClass text) := by
  by_cases led : ∃ rest, text = delimiter :: rest
  · obtain ⟨rest, same⟩ := led
    rw [same, Percent.mend_plain plain, readOptional_delimiter, readOptional_delimiter]
    exact ((keeps_readComponent inClass rest).map _).mapError _ _ fun _ => id
  · have unled : ∀ rest, mend text ≠ delimiter :: rest := by
      intro rest same
      obtain ⟨after, found, _⟩ := (Percent.mend_eq_cons other plain).1 same
      exact led ⟨after, found⟩
    rw [readOptional_unled unled, readOptional_unled fun rest same => led ⟨rest, same⟩]
    exact ⟨rfl, rfl⟩

theorem keeps_readFragment (withFragment : Bool) (text : Text) :
    Keeps Breaks (readFragment withFragment (mend text)) (readFragment withFragment text) := by
  unfold readFragment
  split
  next => exact keeps_readOptional (by decide) (by decide) inFragment text
  next => exact ⟨rfl, rfl⟩

def readBehind (withFragment : Bool) (text scheme : Text) (authority : Option Authority)
    (afterAuthority : Text) : Except SyntaxError (Uri × Text) := do
  let (path, afterPath) ← readAfter text afterAuthority (readComponent inPath)
  let (query, afterQuery) ← readAfter text afterPath (readOptional '?' inQuery)
  let (fragment, rest) ← readAfter text afterQuery (readFragment withFragment)
  return ({ scheme, authority, path, query, fragment }, rest)

theorem keeps_readBehind (withFragment : Bool) (text scheme : Text)
    (authority : Option Authority) (rest : Text) :
    Keeps Breaks (readBehind withFragment (mend text) scheme authority (mend rest))
      (readBehind withFragment text scheme authority rest) :=
  (Keeps.after (keeps_readComponent inPath rest)).bind fun _ afterPath =>
    (Keeps.after (keeps_readOptional (by decide) (by decide) inQuery afterPath)).bind
      fun _ afterQuery =>
        (Keeps.after (keeps_readFragment withFragment afterQuery)).bind fun _ _ => ⟨rfl, rfl⟩

/-- A port is of digits, so it is as it was. -/
theorem mended_port {port : Option Text} (read : readPort (mend text) = .ok port) :
    brokenEscape? text = none := by
  obtain ⟨joined, members⟩ := readPort_eq_ok_iff.1 read
  apply mend_eq_self_iff.1
  apply Percent.mend_of_not_mem
  rw [← joined]
  cases port with
  | none => exact List.not_mem_nil
  | some digits =>
      have all := List.all_eq_true.1 (mem_port.1 (members digits rfl))
      intro member
      rcases List.mem_cons.1 member with colon | digit
      · exact absurd colon (by decide)
      · exact absurd (all 'a' digit) (by decide)

theorem hostOfLiteral_of_broken {address : Text} (broken : brokenEscape? address = some place) :
    hostOfLiteral address = .error { fault := .literal, position := 0 } := by
  have other : ¬address.all inUserinfo = true := fun all =>
    not_run_of_broken unescaped_inUserinfo broken (Grammar.run_of_all all)
  rw [hostOfLiteral, if_neg, if_neg]
  · exact fun future =>
      other (Grammar.all_inUserinfo_of_ipvFuture (Grammar.isIpvFuture_iff.1 future))
  · exact fun six => other (Grammar.all_inUserinfo_of_ipv6 (Grammar.isIpv6_iff.1 six))

theorem hostOfName_of_broken {name : Text} {host : Host}
    (found : hostOfName (mend name) = .ok host) (broken : brokenEscape? name = some place) :
    hostOfName name = .error { fault := .brokenEscape, position := place } := by
  have keeps := keeps_readRun inRegisteredName name
  cases read : readRun inRegisteredName name with
  | error inner =>
      have same := brokenEscape?_of_readRun narrow_inRegisteredName read
      rw [broken] at same
      cases same
      rw [hostOfName, read]
  | ok parts =>
      exfalso
      obtain ⟨run, rest⟩ := parts
      rw [read] at keeps
      unfold hostOfName at found
      split at found
      next => cases found
      next => cases found
      next mended =>
        rw [mended] at keeps
        rw [Percent.mend_eq_nil_iff.1 keeps.2, Grammar.readRun_eq_ok_iff rfl,
          List.append_nil] at read
        exact not_run_of_broken unescaped_inRegisteredName broken (read.1 ▸ read.2.1)

theorem isLiteral_of_hostOfLiteral {address : Text} {host : Host}
    (found : hostOfLiteral address = .ok host) : host.isLiteral = true := by
  cases (hostOfLiteral_eq_ok_iff.1 found).2 with
  | inl six =>
      rw [six]
      rfl
  | inr future =>
      rw [future]
      rfl

theorem isLiteral_of_hostOfName {name : Text} {host : Host} (found : hostOfName name = .ok host) :
    host.isLiteral = false := by
  cases (hostOfName_eq_ok_iff.1 found).2 with
  | inl quad =>
      rw [quad]
      rfl
  | inr named =>
      rw [named]
      rfl

theorem splitHost_unbracketed (unbracketed : ¬∃ inside, text = '[' :: inside) : splitHost text =
    (hostOfName (text.takeWhile (· ≠ ':'))).map (·, text.dropWhile (· ≠ ':')) := by
  rw [splitHost]
  intro inside same
  exact unbracketed ⟨inside, same⟩

theorem lt_length_of_broken (ascii : ∀ char ∈ mend text, IsAscii char)
    (broken : brokenEscape? text = some place) : place < (mend text).length := by
  rw [← Text.unitLength_of_isAscii ascii, Percent.unitLength_mend]
  exact Percent.brokenEscape?_lt broken

theorem splitHost_bracketed_of_broken {host : Host} {port : Option Text} {inside later : Text}
    (read : splitHost ('[' :: mend inside) = .ok (host, later))
    (portRead : readPort later = .ok port) (broken : brokenEscape? ('[' :: inside) = some place) :
    splitHost ('[' :: inside) = .error ((host.regionAt place).complaint 0 0 place) := by
  have separates : Percent.Separates ']' := ⟨by decide, by decide⟩
  rw [splitHost, Percent.cut?_mend separates] at read
  cases cut : Text.cut? ']' inside with
  | none =>
      rw [cut] at read
      cases read
  | some parts =>
      obtain ⟨address, rest⟩ := parts
      rw [cut] at read
      cases found : hostOfLiteral (mend address) with
      | error error =>
          simp only [Option.map_some, found] at read
          cases read
      | ok literal =>
          simp only [Option.map_some, found] at read
          cases read
          have closing : brokenEscape? (']' :: rest) = none := by
            rw [Percent.brokenEscape?_plain separates.1, mended_port portRead, Option.map_none]
          rw [Percent.brokenEscape?_plain (by decide), Text.eq_append_of_cut? cut] at broken
          obtain ⟨inner, front, same⟩ := Option.map_eq_some_iff.1 broken
          have broken := Percent.brokenEscape?_front (Percent.closes_cons separates rest) closing
            front
          have shown := text_of_hostOfLiteral found
          have ascii : ∀ char ∈ mend address, IsAscii char := by
            intro char member
            apply (whole_host (hostOfLiteral_eq_ok_iff.1 found).1).ascii
            rw [shown]
            exact List.mem_cons_of_mem _ (List.mem_append_left _ member)
          have before : place < host.text.length := by
            have less := lt_length_of_broken ascii broken
            have width : Text.unitWidth '[' = 1 := rfl
            rw [shown, ← same, width, List.length_append, List.length_cons]
            omega
          rw [splitHost, cut]
          simp only [hostOfLiteral_of_broken broken]
          rw [Host.regionAt, if_pos ⟨isLiteral_of_hostOfLiteral found, before⟩]
          rfl

/-- In front of a port, a host is broken in its own text. -/
theorem splitHost_of_broken {host : Host} {port : Option Text} {later : Text}
    (read : splitHost (mend text) = .ok (host, later)) (portRead : readPort later = .ok port)
    (broken : brokenEscape? text = some place) :
    splitHost text = .error ((host.regionAt place).complaint 0 0 place) := by
  by_cases bracketed : ∃ inside, text = '[' :: inside
  · obtain ⟨inside, same⟩ := bracketed
    subst same
    rw [Percent.mend_plain (by decide)] at read
    exact splitHost_bracketed_of_broken read portRead broken
  · have unbracketed : ¬∃ inside, mend text = '[' :: inside := by
      intro found
      obtain ⟨inside, same⟩ := found
      obtain ⟨after, same, _⟩ := (Percent.mend_eq_cons (by decide) (by decide)).1 same
      exact bracketed ⟨after, same⟩
    have parts := Percent.takeWhile_mend (by decide) ne_colon_of_isHexDigit text
    rw [splitHost_unbracketed unbracketed, parts.1, parts.2] at read
    rw [splitHost_unbracketed bracketed]
    cases found : hostOfName (mend (text.takeWhile (· ≠ ':'))) with
    | error error =>
        rw [found] at read
        cases read
    | ok named =>
        rw [found] at read
        cases read
        have name : brokenEscape? (text.takeWhile (· ≠ ':')) = some place := by
          apply Percent.brokenEscape?_front (Percent.closes_dropWhile ne_colon_of_isHexDigit text)
            (mended_port portRead)
          rw [List.takeWhile_append_dropWhile, broken]
        have unliteral := Bool.eq_false_iff.1 (isLiteral_of_hostOfName found)
        rw [hostOfName_of_broken found name, Host.regionAt, if_neg fun both => unliteral both.1]
        rfl

theorem splitUserinfo_of_broken {userinfo : Option Text} {later : Text}
    (read : splitUserinfo (mend extent) = .ok (userinfo, later))
    (broken : brokenEscape? extent = some place) :
    (∃ rest, splitUserinfo extent = .ok (userinfo, rest) ∧ mend rest = later) ∨
      splitUserinfo extent = .error { fault := .userinfo, position := 0 } ∧
        ∃ part, userinfo = some part ∧ place < part.length := by
  have separates : Percent.Separates '@' := ⟨by decide, by decide⟩
  cases cut : Text.cut? '@' extent with
  | none =>
      rw [splitUserinfo, Percent.cut?_mend separates, cut] at read
      cases read
      rw [splitUserinfo, cut]
      exact Or.inl ⟨extent, rfl, rfl⟩
  | some parts =>
      obtain ⟨part, rest⟩ := parts
      rw [splitUserinfo, Percent.cut?_mend separates, cut] at read
      simp only [Option.map_some, Percent.cut?_mend separates rest] at read
      cases second : Text.cut? '@' rest with
      | some parts =>
          rw [second] at read
          cases read
      | none =>
          simp only [second, Option.map_none] at read
          split at read
          next accepted =>
            cases read
            cases inside : brokenEscape? part with
            | none =>
                rw [mend_eq_self_iff.2 inside] at accepted ⊢
                refine Or.inl ⟨rest, ?_, rfl⟩
                rw [splitUserinfo, cut]
                simp only [second, accepted, if_true]
            | some inner =>
                have run := (Grammar.isRun_iff rfl).1 accepted
                have other : ¬isRun inUserinfo part = true := fun accepted =>
                  not_run_of_broken unescaped_inUserinfo inside ((Grammar.isRun_iff rfl).1 accepted)
                have front :=
                  Percent.brokenEscape?_append (Percent.closes_cons separates rest) inside
                rw [← Text.eq_append_of_cut? cut, broken] at front
                cases front
                refine Or.inr ⟨?_, mend part, rfl,
                  lt_length_of_broken (isAscii_of_run narrow_inUserinfo run) inside⟩
                rw [splitUserinfo, cut]
                simp only [second, if_neg other]
          next => cases read

/-- An authority but for broken escapes, without mending. -/
theorem readAuthority_of_broken {authority : Authority}
    (read : readAuthority (mend extent) = .ok authority)
    (broken : brokenEscape? extent = some place) : readAuthority extent =
      .error ((authority.regionAt place).complaint 0 authority.hostStart place) := by
  simp only [readAuthority, bind, Except.bind, pure, Except.pure] at read
  split at read
  next => cases read
  next userinfoParts userinfoRead =>
    split at read
    next => cases read
    next hostParts hostRead =>
      split at read
      next => cases read
      next port portRead =>
        cases read
        cases splitUserinfo_of_broken userinfoRead broken with
        | inl found =>
            obtain ⟨rest, found, mended⟩ := found
            obtain ⟨joined, members, _⟩ := splitUserinfo_eq_ok_iff.1 found
            subst joined
            rw [(whole_userinfo members).brokenEscape?] at broken
            obtain ⟨inner, broken, same⟩ := Option.map_eq_some_iff.1 broken
            have hosted := eq_of_readAfter hostRead
            rw [← mended] at hosted
            have failed := splitHost_of_broken hosted (eq_of_readAfter portRead) broken
            rw [readAuthority, found]
            change readAfter _ rest splitHost >>= _ = _
            rw [readAfter_append, failed]
            have start : Authority.hostStart ⟨userinfoParts.1, hostParts.1, port⟩ = _ :=
              Authority.hostStart_eq
            rw [← same, ← start, Authority.regionAt_host]
            apply congrArg Except.error
            dsimp only
            rw [Region.shift_complaint, Host.complaint_regionAt _ _ 0, Nat.zero_add]
        | inr failed =>
            obtain ⟨failed, part, given, before⟩ := failed
            rw [readAuthority, failed, Authority.regionAt_userinfo given before]
            rfl

theorem readOptionalAuthority_unslashed (unslashed : ¬∃ rest, text = '/' :: '/' :: rest) :
    readOptionalAuthority text = .ok (none, text) := by
  rw [readOptionalAuthority]
  intro rest same
  exact unslashed ⟨rest, same⟩

theorem readOptionalAuthority_of_broken {authority : Option Authority} {later : Text}
    (read : readOptionalAuthority (mend text) = .ok (authority, later))
    (broken : brokenEscape? text = some place) :
    (∃ rest, readOptionalAuthority text = .ok (authority, rest) ∧ mend rest = later) ∨
      ∃ part inner, authority = some part ∧ place = inner + 2 ∧ readOptionalAuthority text =
        .error ((part.regionAt inner).complaint 2 (part.hostStart + 2) place) := by
  by_cases slashed : ∃ rest, text = '/' :: '/' :: rest
  · obtain ⟨rest, same⟩ := slashed
    subst same
    have parts := Percent.takeWhile_mend (by decide) inAuthority_of_isHexDigit rest
    rw [Percent.mend_plain (by decide), Percent.mend_plain (by decide),
      readOptionalAuthority_slashes, parts.1, parts.2] at read
    rw [readOptionalAuthority_slashes]
    cases found : readAuthority (mend (rest.takeWhile inAuthority)) with
    | error error =>
        rw [found] at read
        cases read
    | ok part =>
        rw [found] at read
        cases read
        cases inside : brokenEscape? (rest.takeWhile inAuthority) with
        | none =>
            rw [mend_eq_self_iff.2 inside] at found
            rw [found]
            exact Or.inl ⟨rest.dropWhile inAuthority, rfl, rfl⟩
        | some inner =>
            have front := Percent.brokenEscape?_append
              (Percent.closes_dropWhile inAuthority_of_isHexDigit rest) inside
            rw [List.takeWhile_append_dropWhile] at front
            rw [Percent.brokenEscape?_plain (by decide), Percent.brokenEscape?_plain (by decide),
              front] at broken
            cases broken
            rw [readAuthority_of_broken found inside]
            refine Or.inr ⟨part, inner, rfl, rfl, ?_⟩
            apply congrArg Except.error
            exact Region.shift_complaint _ 0 part.hostStart inner 2
  · have unslashed : ¬∃ rest, mend text = '/' :: '/' :: rest := by
      intro found
      obtain ⟨rest, same⟩ := found
      obtain ⟨after, first, same⟩ := (Percent.mend_eq_cons (by decide) (by decide)).1 same
      obtain ⟨behind, second, _⟩ := (Percent.mend_eq_cons (by decide) (by decide)).1 same
      exact slashed ⟨behind, by rw [first, second]⟩
    rw [readOptionalAuthority_unslashed unslashed] at read
    cases read
    exact Or.inl ⟨text, readOptionalAuthority_unslashed slashed, rfl⟩

variable {later : Text}

theorem Fault.eq_brokenEscape {fault : Fault} (same : fault.code = "bad-pct-encoding") :
    fault = .brokenEscape := by
  cases fault with
  | brokenEscape => rfl
  | _ => simp [code] at same

theorem exists_of_read {withFragment : Bool} {uri : Uri}
    (found : read withFragment text = .ok (uri, rest)) :
    ∃ afterScheme afterAuthority, readScheme text = .ok (uri.scheme, afterScheme) ∧
      readOptionalAuthority afterScheme = .ok (uri.authority, afterAuthority) ∧
      readBehind withFragment text uri.scheme uri.authority afterAuthority = .ok (uri, rest) := by
  simp only [read, bind, Except.bind, pure, Except.pure] at found
  split at found
  next => cases found
  next schemeParts schemeRead =>
    split at found
    next => cases found
    next authorityParts authorityRead =>
      split at found
      next => cases found
      next pathParts pathRead =>
        split at found
        next => cases found
        next queryParts queryRead =>
          split at found
          next => cases found
          next fragmentParts fragmentRead =>
            cases found
            refine ⟨schemeParts.2, authorityParts.2, schemeRead, eq_of_readAfter authorityRead, ?_⟩
            simp only [readBehind, bind, Except.bind, pure, Except.pure, pathRead, queryRead,
              fragmentRead]

theorem read_of_readScheme (withFragment : Bool) {scheme : Text}
    (found : readScheme text = .ok (scheme, rest)) : read withFragment text =
      (readOptionalAuthority rest).mapError (·.shift (scheme.length + 1 : Nat)) >>= fun parts =>
        readBehind withFragment text scheme parts.1 parts.2 := by
  have distance : text.length - rest.length = scheme.length + 1 := by
    rw [← append_of_readScheme found, List.length_append, List.length_cons]
    omega
  rw [read, found, ← distance]
  rfl

/-- A scheme in front of the first broken escape is read without mending. -/
theorem readScheme_of_broken {scheme found : Text} (free : ':' ∉ scheme)
    (broken : brokenEscape? (scheme ++ ':' :: rest) = some place)
    (behind : Text.unitLength scheme < place)
    (read : readScheme (mend (scheme ++ ':' :: rest)) = .ok (found, later)) :
    found = scheme ∧ mend rest = later ∧
      readScheme (scheme ++ ':' :: rest) = .ok (scheme, rest) := by
  have separates : Percent.Separates ':' := ⟨by decide, by decide⟩
  have closes := Percent.closes_cons separates rest
  have clean : brokenEscape? scheme = none := by
    cases inside : brokenEscape? scheme with
    | none => rfl
    | some inner =>
        have less := Percent.brokenEscape?_lt inside
        rw [Percent.brokenEscape?_append closes inside] at broken
        cases broken
        omega
  rw [Percent.mend_append closes, Percent.mend_plain separates.1, mend_eq_self_iff.2 clean,
    readScheme_eq_ok_iff] at read
  have cut := Text.cut?_append (colon_not_mem_scheme read.2) later
  rw [read.1, Text.cut?_append free] at cut
  cases cut
  exact ⟨rfl, rfl, readScheme_eq_ok_iff.2 ⟨rfl, read.2⟩⟩

/-- Where reading behind the authority does not fail, there was nothing to mend. -/
theorem error_of_broken {withFragment : Bool} {uri : Uri}
    {outcome : Except SyntaxError (Uri × Text)} (found : read withFragment text = outcome)
    (keeps : Keeps Breaks (.ok (uri, [])) outcome) (joined : uri.text = mend text)
    (broken : brokenEscape? text = some place) :
    outcome = .error { fault := .brokenEscape, position := place } := by
  cases outcome with
  | ok parts =>
      exfalso
      have unmended := append_of_read found
      rw [keeps.1, Percent.mend_eq_nil_iff.1 keeps.2, List.append_nil] at unmended
      rw [mend_eq_self_iff.1 (joined.symm.trans unmended)] at broken
      cases broken
  | error error =>
      obtain ⟨told, first, position⟩ := blames_read withFragment text error found keeps
      have fault : error.fault = .brokenEscape := keeps
      rw [broken] at first
      cases first
      rw [← fault, ← position]

/-- An identifier but for broken escapes behind its scheme, without mending. -/
theorem read_of_broken {withFragment : Bool} {uri : Uri} {scheme : Text} (free : ':' ∉ scheme)
    (broken : brokenEscape? (scheme ++ ':' :: rest) = some place)
    (behind : Text.unitLength scheme < place)
    (mendedRead : read withFragment (mend (scheme ++ ':' :: rest)) = .ok (uri, [])) :
    read withFragment (scheme ++ ':' :: rest) =
      .error ((uri.regionAt place).complaint uri.authorityStart uri.hostStart place) := by
  obtain ⟨afterScheme, afterAuthority, schemeRead, authorityRead, behindRead⟩ :=
    exists_of_read mendedRead
  obtain ⟨same, mended, unmended⟩ := readScheme_of_broken free broken behind schemeRead
  subst same mended
  have joined := append_of_read mendedRead
  rw [List.append_nil] at joined
  have started := (whole_scheme (readScheme_eq_ok_iff.1 unmended).2).brokenEscape? rest
  rw [List.append_assoc, List.length_append, List.length_singleton] at started
  obtain ⟨inner, brokenRest, same⟩ := Option.map_eq_some_iff.1 (started.symm.trans broken)
  cases readOptionalAuthority_of_broken authorityRead brokenRest with
  | inl found =>
      obtain ⟨left, found, mended⟩ := found
      have keeps := keeps_readBehind withFragment (uri.scheme ++ ':' :: rest) uri.scheme
        uri.authority left
      have outcome := read_of_readScheme withFragment unmended
      rw [mended, behindRead] at keeps
      rw [found] at outcome
      rw [outcome, ← same, regionAt_behind found brokenRest, same]
      exact error_of_broken outcome keeps joined broken
  | inr failed =>
      obtain ⟨part, within, given, shifted, failed⟩ := failed
      rw [shifted] at same failed
      rw [read_of_readScheme withFragment unmended, failed]
      exact congrArg Except.error (complaint_authority given within same)

/-- Of a text that is an identifier but for broken escapes behind its scheme, the first of them is
told, and where it is; or, where it is in the user information or in an address between brackets,
that these are bad. No other broken escape is ever told. -/
theorem parse_tells_broken_escape_by_region (text : Text) :
    (∀ scheme rest uri (place : Nat), text = scheme ++ ':' :: rest → ':' ∉ scheme →
      brokenEscape? text = some place → Text.unitLength scheme < place →
      parse (mend text) = .ok uri →
      parse text =
        .error ((uri.regionAt place).complaint uri.authorityStart uri.hostStart place)) ∧
    ∀ error, parse text = .error error → error.fault.code = "bad-pct-encoding" →
      ∃ place : Nat, brokenEscape? text = some place ∧ error.position = place := by
  constructor
  · intro scheme rest uri place shape free broken behind accepted
    subst shape
    unfold parse ofText at accepted
    split at accepted
    next => cases accepted
    next read =>
      cases accepted
      rw [parse, ofText, read_of_broken free broken behind read]
    next => cases accepted
  · intro error failed code
    exact blames_ofText true text error failed (Fault.eq_brokenEscape code)

/-- A broken escape in a path, and one in an address between brackets. -/
theorem broken_escape_told_in_path_and_literal :
    parse "http://h/%zz".toList = .error { fault := .brokenEscape, position := 9 } ∧
      parse "http://[v1.%zz]/".toList = .error { fault := .literal, position := 7 } :=
  ⟨(parse_tells_broken_escape_by_region _).1 "http".toList "//h/%zz".toList _ 9 rfl (by decide)
      rfl (by decide) rfl,
    (parse_tells_broken_escape_by_region _).1 "http".toList "//[v1.%zz]/".toList _ 11 rfl
      (by decide) rfl (by decide) rfl⟩

/-- A broken escape in the user information of an identifier but for it: it goes untold. -/
theorem broken_escape_untold_in_userinfo :
    let text := "http://a%zz@h/".toList
    brokenEscape? text = some 8 ∧ (∃ uri, parse (mend text) = .ok uri) ∧
      parse text = .error { fault := .userinfo, position := 7 } ∧
      Fault.userinfo.code ≠ "bad-pct-encoding" :=
  ⟨rfl, ⟨_, rfl⟩, rfl, by decide⟩

end MagnetUri.Uri

import MagnetUri.Proofs.Percent.Mend
import MagnetUri.Proofs.Uri.Mirror

set_option autoImplicit false

/-! Broken escapes as readers tell them. A reader takes no broken escape, so the one that it
complains of, if it complains of one, is the first of its text. -/

namespace MagnetUri.Uri

open Character
open Grammar (Run)
open Percent (Closes Readable brokenEscape? completesEscape)
open Text (Narrow)

variable {α β : Type} {text taken rest extent : Text} {char high low : Char} {place : Nat}
  {inClass : Char → Bool} {outcome : Except SyntaxError α}

theorem readRun_plain (plain : char ≠ '%') (inside : inClass char = true) (rest : Text) :
    readRun inClass (char :: rest) =
      ((readRun inClass rest).map fun parts => (char :: parts.1, parts.2)).mapError (· + 1) := by
  rw [readRun]
  · rw [if_neg plain, if_pos inside]
    cases readRun inClass rest with
    | error place => rfl
    | ok parts => rfl
  · intro _ _ _ percent
    exact absurd percent plain

theorem readRun_outside (plain : char ≠ '%') (outside : inClass char = false) (rest : Text) :
    readRun inClass (char :: rest) = .ok ([], char :: rest) := by
  apply Grammar.readRun_of_halts
  intro first after same
  cases same
  exact ⟨outside, plain⟩

theorem readRun_escape (first : isHexDigit high = true) (second : isHexDigit low = true)
    (rest : Text) :
    readRun inClass ('%' :: high :: low :: rest) =
      ((readRun inClass rest).map fun parts =>
        ('%' :: high :: low :: parts.1, parts.2)).mapError (· + 3) := by
  rw [readRun, first, second, Bool.and_self, if_pos rfl]
  cases readRun inClass rest with
  | error place => rfl
  | ok parts => rfl

theorem readRun_broken (broken : completesEscape rest = false) :
    readRun inClass ('%' :: rest) = .error 0 := by
  match rest, broken with
  | [], _ => rfl
  | [_], _ => rfl
  | high :: low :: after, broken =>
      rw [completesEscape] at broken
      rw [readRun, broken]
      rfl

/-- Where a run cannot be read, its text has its first broken escape. -/
theorem brokenEscape?_of_readRun (narrow : Narrow inClass)
    (failed : readRun inClass text = .error place) : brokenEscape? text = some place := by
  induction text using Percent.escapes_induction generalizing place with
  | nil => cases failed
  | plain char rest plain ih =>
      cases inside : inClass char with
      | false =>
          rw [readRun_outside plain inside] at failed
          cases failed
      | true =>
          have width : Text.unitWidth char = 1 := by
            have small : char.toNat < 0x80 := narrow char inside
            rw [Text.unitWidth, if_pos (by omega)]
          rw [readRun_plain plain inside] at failed
          cases read : readRun inClass rest with
          | ok parts =>
              rw [read] at failed
              cases failed
          | error inner =>
              rw [read] at failed
              cases failed
              rw [Percent.brokenEscape?_plain plain, ih read, Option.map_some, width]
  | escape high low rest first second ih =>
      rw [readRun_escape first second] at failed
      cases read : readRun inClass rest with
      | ok parts =>
          rw [read] at failed
          cases failed
      | error inner =>
          rw [read] at failed
          cases failed
          rw [Percent.brokenEscape?_escape first second, ih read, Option.map_some]
  | broken rest incomplete _ =>
      rw [readRun_broken incomplete] at failed
      cases failed
      exact Percent.brokenEscape?_broken incomplete

theorem readOptional_delimiter (delimiter : Char) (inClass : Char → Bool) (rest : Text) :
    readOptional delimiter inClass (delimiter :: rest) =
      ((readComponent inClass rest).map fun parts => (some parts.1, parts.2)).mapError
        (·.shift 1) := by
  rw [readOptional, if_pos rfl]
  cases readComponent inClass rest with
  | error error => rfl
  | ok parts => rfl

theorem readOptional_unled {delimiter : Char} (unled : ∀ rest, text ≠ delimiter :: rest) :
    readOptional delimiter inClass text = .ok (none, text) := by
  cases text with
  | nil => rfl
  | cons char rest =>
      have other : char ≠ delimiter := fun same => unled rest (congrArg (· :: rest) same)
      rw [readOptional, if_neg other]

theorem readOptionalAuthority_slashes (rest : Text) :
    readOptionalAuthority ('/' :: '/' :: rest) =
      ((readAuthority (rest.takeWhile inAuthority)).map fun authority =>
        (some authority, rest.dropWhile inAuthority)).mapError (·.shift 2) := by
  rw [readOptionalAuthority]
  cases readAuthority (rest.takeWhile inAuthority) with
  | error error => rfl
  | ok authority => rfl

structure Unescaped (inClass : Char → Bool) : Prop where
  narrow : Narrow inClass
  percent : inClass '%' = false

theorem unescaped_inScheme : Unescaped inScheme :=
  ⟨narrow_inScheme, rfl⟩

theorem unescaped_inUserinfo : Unescaped inUserinfo :=
  ⟨narrow_inUserinfo, rfl⟩

theorem unescaped_inRegisteredName : Unescaped inRegisteredName :=
  ⟨narrow_inRegisteredName, rfl⟩

theorem unescaped_inPath : Unescaped inPath :=
  ⟨narrow_inPath, rfl⟩

theorem unescaped_inQuery : Unescaped inQuery :=
  ⟨narrow_inQuery, rfl⟩

structure Whole (text : Text) : Prop where
  readable : Readable text
  ascii : ∀ char ∈ text, IsAscii char

theorem whole_of_run (unescaped : Unescaped inClass) (run : Run inClass text) : Whole text :=
  ⟨Percent.readable_of_run unescaped.percent run, isAscii_of_run unescaped.narrow run⟩

theorem whole_of_all (unescaped : Unescaped inClass) (all : text.all inClass = true) :
    Whole text :=
  whole_of_run unescaped (Grammar.run_of_all all)

/-- Where an escape is broken, there is no run. -/
theorem not_run_of_broken (unescaped : Unescaped inClass)
    (broken : brokenEscape? text = some place) : ¬Run inClass text := by
  intro run
  rw [Percent.brokenEscape?_eq_none_iff.2 (whole_of_run unescaped run).readable] at broken
  cases broken

theorem whole_nil : Whole [] :=
  ⟨⟨[], rfl⟩, List.forall_mem_nil _⟩

/-- A character on its own, but a percent sign. -/
theorem whole_single (alone : char ≠ '%' ∧ IsAscii char) : Whole [char] := by
  have all : [char].all (fun other => other == char) = true := by simp
  have narrow : Narrow fun other => other == char := by
    intro other same
    rw [eq_of_beq same]
    exact alone.2
  exact whole_of_all ⟨narrow, beq_false_of_ne (Ne.symm alone.1)⟩ all

theorem Whole.append (first : Whole taken) (later : Whole rest) : Whole (taken ++ rest) :=
  ⟨first.readable.append later.readable, List.forall_mem_append.2 ⟨first.ascii, later.ascii⟩⟩

theorem Whole.cons (alone : char ≠ '%' ∧ IsAscii char) (later : Whole rest) :
    Whole (char :: rest) :=
  (whole_single alone).append later

theorem Whole.brokenEscape? (whole : Whole taken) (rest : Text) :
    brokenEscape? (taken ++ rest) = (Percent.brokenEscape? rest).map (· + taken.length) := by
  rw [Percent.brokenEscape?_readable_append whole.readable,
    Text.unitLength_of_isAscii whole.ascii]

theorem whole_bracketed {address : Text} (all : address.all inUserinfo = true) :
    Whole ('[' :: address ++ [']']) :=
  ((whole_of_all unescaped_inUserinfo all).cons (by decide)).append (whole_single (by decide))

theorem whole_host {host : Host} (derives : host.Derives) : Whole host.text := by
  cases host with
  | ipv4 address => exact whole_of_run unescaped_inRegisteredName (Grammar.run_of_ipv4 derives)
  | ipv6 address => exact whole_bracketed (Grammar.all_inUserinfo_of_ipv6 derives)
  | ipvFuture address => exact whole_bracketed (Grammar.all_inUserinfo_of_ipvFuture derives)
  | name encoded =>
      exact whole_of_run unescaped_inRegisteredName (Grammar.mem_registeredName.1 derives.1)

theorem whole_userinfo {userinfo : Option Text}
    (members : ∀ part, userinfo = some part → part ∈ Grammar.userinfo) :
    Whole (userinfo.elim [] (· ++ ['@'])) := by
  cases userinfo with
  | none => exact whole_nil
  | some part =>
      have run := Grammar.mem_userinfo.1 (members part rfl)
      exact (whole_of_run unescaped_inUserinfo run).append (whole_single (by decide))

theorem whole_authority {authority : Authority} (derives : authority.Derives) :
    Whole authority.text := by
  have port : Whole (authority.port.elim [] (':' :: ·)) := by
    cases found : authority.port with
    | none => exact whole_nil
    | some digits =>
        have unescaped : Unescaped isDigit := ⟨fun _ => isAscii_of_isDigit, rfl⟩
        have all := mem_port.1 (derives.port digits found)
        exact (whole_of_all unescaped all).cons (by decide)
  exact ((whole_userinfo derives.userinfo).append (whole_host derives.host)).append port

/-- What stands before the rest of a text is as readers take it. -/
def Leaves (text rest : Text) : Prop :=
  ∃ taken, taken ++ rest = text ∧ Whole taken

theorem Leaves.trans {left : Text} (first : Leaves text rest) (later : Leaves rest left) :
    Leaves text left := by
  obtain ⟨taken, joined, whole⟩ := first
  obtain ⟨next, inner, more⟩ := later
  exact ⟨taken ++ next, by rw [List.append_assoc, inner, joined], whole.append more⟩

theorem whole_scheme {scheme : Text} (member : scheme ∈ Grammar.scheme) :
    Whole (scheme ++ [':']) := by
  obtain ⟨first, others, same, letter, all⟩ := mem_scheme.1 member
  have inside : scheme.all inScheme = true := by
    rw [same, List.all_cons, all, inScheme, letter]
    rfl
  exact (whole_of_all unescaped_inScheme inside).append (whole_single (by decide))

theorem leaves_readScheme {scheme : Text} (found : readScheme text = .ok (scheme, rest)) :
    Leaves text rest := by
  obtain ⟨joined, member⟩ := readScheme_eq_ok_iff.1 found
  refine ⟨scheme ++ [':'], ?_, whole_scheme member⟩
  rw [← joined, List.append_assoc]
  rfl

theorem leaves_splitUserinfo {userinfo : Option Text}
    (found : splitUserinfo extent = .ok (userinfo, rest)) : Leaves extent rest := by
  obtain ⟨joined, members, _⟩ := splitUserinfo_eq_ok_iff.1 found
  exact ⟨_, joined, whole_userinfo members⟩

theorem leaves_splitHost {host : Host} (found : splitHost extent = .ok (host, rest)) :
    Leaves extent rest :=
  ⟨host.text, append_of_splitHost found, whole_host (derives_of_splitHost found)⟩

theorem whole_slashed {authority : Authority} (derives : authority.Derives) :
    Whole ('/' :: '/' :: authority.text) :=
  ((whole_authority derives).cons (by decide)).cons (by decide)

theorem leaves_readOptionalAuthority {authority : Option Authority}
    (found : readOptionalAuthority text = .ok (authority, rest)) : Leaves text rest := by
  obtain ⟨joined, condition⟩ := readOptionalAuthority_eq_ok_iff.1 found
  refine ⟨_, joined, ?_⟩
  cases authority with
  | none => exact whole_nil
  | some part => exact whole_slashed condition.1

theorem leaves_readComponent {component : Text} (unescaped : Unescaped inClass)
    (found : readComponent inClass text = .ok (component, rest)) : Leaves text rest := by
  obtain ⟨joined, run, _⟩ := (readComponent_eq_ok_iff unescaped.percent).1 found
  exact ⟨component, joined, whole_of_run unescaped run⟩

theorem leaves_readOptional {delimiter : Char} {component : Option Text}
    (whole : Whole [delimiter]) (unescaped : Unescaped inClass)
    (found : readOptional delimiter inClass text = .ok (component, rest)) : Leaves text rest := by
  obtain ⟨joined, condition⟩ := (readOptional_eq_ok_iff unescaped.percent).1 found
  refine ⟨_, joined, ?_⟩
  cases component with
  | none => exact whole_nil
  | some run => exact whole.append (whole_of_run unescaped condition.1)

theorem ne_colon_of_isHexDigit (char : Char) (digit : isHexDigit char = true) :
    decide (char ≠ ':') = true := by
  apply decide_eq_true
  intro colon
  rw [colon] at digit
  cases digit

theorem inAuthority_of_isHexDigit (char : Char) (digit : isHexDigit char = true) :
    inAuthority char = true :=
  inAuthority_of_inUserinfo
    (Grammar.inUserinfo_of_isUnreserved (Grammar.isUnreserved_of_isHexDigit digit))

/-- An outcome of reading a text that complains of no broken escape but the first. -/
def Blames (text : Text) (outcome : Except SyntaxError α) : Prop :=
  ∀ error, outcome = .error error → error.fault = .brokenEscape →
    ∃ place : Nat, brokenEscape? text = some place ∧ error.position = place

theorem blames_ok (text : Text) (value : α) :
    Blames text (.ok value : Except SyntaxError α) :=
  fun _ impossible => by cases impossible

theorem blames_other {error : SyntaxError} (other : error.fault ≠ .brokenEscape) :
    Blames text (.error error : Except SyntaxError α) := by
  intro told same fault
  cases same
  exact absurd fault other

theorem Blames.error {error : SyntaxError}
    (blames : Blames text (.error error : Except SyntaxError α)) :
    Blames text (.error error : Except SyntaxError β) := by
  intro told same fault
  cases same
  exact blames error rfl fault

theorem Blames.bind {next : α → Except SyntaxError β} (first : Blames text outcome)
    (later : ∀ value, outcome = .ok value → Blames text (next value)) :
    Blames text (outcome >>= next) := by
  cases outcome with
  | error error =>
      intro told same
      cases same
      exact first error rfl
  | ok value => exact later value rfl

theorem Blames.map (blames : Blames text outcome) (change : α → β) :
    Blames text (outcome.map change) := by
  cases outcome with
  | error error =>
      intro told same
      cases same
      exact blames error rfl
  | ok value => exact blames_ok text (change value)

/-- Behind a part that was taken a reader tells of the rest what holds of the text. -/
theorem Blames.shift (blames : Blames rest outcome) (whole : Whole taken) :
    Blames (taken ++ rest) (outcome.mapError (·.shift taken.length)) := by
  intro told same fault
  cases outcome with
  | ok value => cases same
  | error error =>
      cases same
      obtain ⟨place, broken, position⟩ := blames error rfl fault
      refine ⟨place + taken.length, ?_, ?_⟩
      · rw [whole.brokenEscape?, broken, Option.map_some]
      · change error.position + taken.length = _
        rw [position, Int.natCast_add]

theorem Blames.after {reader : Text → Except SyntaxError α} (blames : Blames rest (reader rest))
    (leaves : Leaves text rest) : Blames text (readAfter text rest reader) := by
  obtain ⟨taken, joined, whole⟩ := leaves
  rw [← joined, readAfter_append]
  exact blames.shift whole

/-- A text that is closed off blames the same escape as when more follows. -/
theorem Blames.closed (blames : Blames taken outcome) (closes : Closes rest) :
    Blames (taken ++ rest) outcome := by
  intro told same fault
  obtain ⟨place, broken, position⟩ := blames told same fault
  exact ⟨place, Percent.brokenEscape?_append closes broken, position⟩

theorem blames_readComponent (narrow : Narrow inClass) (text : Text) :
    Blames text (readComponent inClass text) := by
  intro error same _
  unfold readComponent at same
  cases read : readRun inClass text with
  | ok parts =>
      rw [read] at same
      cases same
  | error place =>
      rw [read] at same
      cases same
      exact ⟨place, brokenEscape?_of_readRun narrow read, rfl⟩

theorem blames_readOptional {delimiter : Char} (whole : Whole [delimiter])
    (narrow : Narrow inClass) (text : Text) :
    Blames text (readOptional delimiter inClass text) := by
  by_cases led : ∃ rest, text = delimiter :: rest
  · obtain ⟨rest, same⟩ := led
    rw [same, readOptional_delimiter]
    exact ((blames_readComponent narrow rest).map _).shift whole
  · rw [readOptional_unled fun rest same => led ⟨rest, same⟩]
    exact blames_ok _ _

theorem blames_readFragment (withFragment : Bool) (text : Text) :
    Blames text (readFragment withFragment text) := by
  unfold readFragment
  split
  next =>
    exact blames_readOptional (whole_single (by decide)) narrow_inQuery text
  next => exact blames_ok text _

theorem blames_readScheme (text : Text) : Blames text (readScheme text) := by
  unfold readScheme
  split
  next => exact blames_other nofun
  next =>
    split
    next =>
      dsimp only
      split
      next => exact blames_ok _ _
      next => exact blames_other nofun
    next => exact blames_other nofun

theorem blames_splitUserinfo (extent : Text) : Blames extent (splitUserinfo extent) := by
  unfold splitUserinfo
  split
  next => exact blames_ok _ _
  next =>
    split
    next => exact blames_other nofun
    next =>
      split
      next => exact blames_ok _ _
      next => exact blames_other nofun

theorem blames_hostOfName (name : Text) : Blames name (hostOfName name) := by
  unfold hostOfName
  split
  next place failed =>
    intro error same _
    cases same
    exact ⟨place, brokenEscape?_of_readRun narrow_inRegisteredName failed, rfl⟩
  next => exact blames_other nofun
  next => exact blames_ok _ _

theorem blames_splitHost (extent : Text) : Blames extent (splitHost extent) := by
  unfold splitHost
  split
  next =>
    split
    next => exact blames_other nofun
    next =>
      apply Blames.map
      unfold hostOfLiteral
      split
      next => exact blames_ok _ _
      next =>
        split
        next => exact blames_ok _ _
        next => exact blames_other nofun
  next =>
    have name := blames_hostOfName (extent.takeWhile (· ≠ ':'))
    have closed := name.closed (Percent.closes_dropWhile ne_colon_of_isHexDigit extent)
    rw [List.takeWhile_append_dropWhile] at closed
    exact closed.map _

theorem blames_readPort (text : Text) : Blames text (readPort text) := by
  unfold readPort
  split
  next => exact blames_ok _ _
  next =>
    split
    next => exact blames_ok _ _
    next => exact blames_other nofun

theorem blames_readAuthority (extent : Text) : Blames extent (readAuthority extent) := by
  apply (blames_splitUserinfo extent).bind
  intro (userinfo, afterUserinfo) readUserinfo
  have userinfoLeaves := leaves_splitUserinfo readUserinfo
  apply ((blames_splitHost afterUserinfo).after userinfoLeaves).bind
  intro (host, afterHost) readHost
  have hostLeaves := userinfoLeaves.trans (leaves_splitHost (eq_of_readAfter readHost))
  exact ((blames_readPort afterHost).after hostLeaves).bind fun _ _ => blames_ok _ _

theorem blames_readOptionalAuthority (text : Text) : Blames text (readOptionalAuthority text) := by
  by_cases slashes : ∃ rest, text = '/' :: '/' :: rest
  · obtain ⟨rest, same⟩ := slashes
    have whole : Whole ['/', '/'] := (whole_single (by decide)).cons (by decide)
    have authority := (blames_readAuthority (rest.takeWhile inAuthority)).closed
      (Percent.closes_dropWhile inAuthority_of_isHexDigit rest)
    rw [List.takeWhile_append_dropWhile] at authority
    rw [same, readOptionalAuthority_slashes]
    exact (authority.map _).shift whole
  · rw [readOptionalAuthority]
    · exact blames_ok _ _
    · intro rest same
      exact slashes ⟨rest, same⟩

theorem blames_read (withFragment : Bool) (text : Text) : Blames text (read withFragment text) := by
  have question : Whole ['?'] := whole_single (by decide)
  apply (blames_readScheme text).bind
  intro (scheme, afterScheme) readScheme
  have schemeLeaves := leaves_readScheme readScheme
  apply ((blames_readOptionalAuthority afterScheme).after schemeLeaves).bind
  intro (authority, afterAuthority) readAuthority
  have authorityLeaves :=
    schemeLeaves.trans (leaves_readOptionalAuthority (eq_of_readAfter readAuthority))
  apply ((blames_readComponent narrow_inPath afterAuthority).after authorityLeaves).bind
  intro (path, afterPath) readPath
  have pathLeaves := authorityLeaves.trans
    (leaves_readComponent unescaped_inPath (eq_of_readAfter readPath))
  apply ((blames_readOptional question narrow_inQuery afterPath).after pathLeaves).bind
  intro (query, afterQuery) readQuery
  have queryLeaves := pathLeaves.trans
    (leaves_readOptional question unescaped_inQuery (eq_of_readAfter readQuery))
  exact ((blames_readFragment withFragment afterQuery).after queryLeaves).bind
    fun _ _ => blames_ok _ _

/-- The broken escape that parsing complains of is the first of the text. -/
theorem blames_ofText (withFragment : Bool) (text : Text) :
    Blames text (ofText withFragment text) := by
  have blames := blames_read withFragment text
  unfold ofText
  split
  next error failed =>
    rw [failed] at blames
    exact blames.error
  next => exact blames_ok _ _
  next => exact blames_other nofun

end MagnetUri.Uri

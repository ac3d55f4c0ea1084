import MagnetUri.Proofs.Link.Local
import MagnetUri.Proofs.Uri.Beginning

set_option autoImplicit false

/-! What reading logs. Its checks go through the exact topics with a cursor and find what the
list of the topics gives. Reading a whole text is telling the logger one line and giving what plain
reading gives; the line tells how the longest beginning that is an identifier came out, and so an
acceptance where the text goes on behind a link. -/

namespace MagnetUri.Link

section Checks

open MagnetUri.Field (isTopic isUri)
open Text (Cursor)

variable {params rest : List Param} {param topic : Param} {index place : Nat}
  {cursor : Selection.Cursor Percent.DecodeError Unit Param Param}

structure TopicsAhead (cursor : Selection.Cursor Percent.DecodeError Unit Param Param) (index : Nat)
    (rest : List Param) : Prop where
  accepts : ∀ param, cursor.selection.accepts param () = (.ok (isTopic param), ())
  unfinished : cursor.finished = false
  taken : cursor.taken = index
  ahead : cursor.ahead = rest.map .ok

inductive Moved (index : Nat) (rest : List Param) :
    Except Percent.DecodeError (Option Param) ×
      Selection.Cursor Percent.DecodeError Unit Param Param × Unit → Prop
  | ended {moved : Selection.Cursor Percent.DecodeError Unit Param Param}
      (empty : topicsFrom index rest = []) : Moved index rest (.ok none, moved, ())
  | landed {moved : Selection.Cursor Percent.DecodeError Unit Param Param} {place : Nat}
      {topic : Param} {later : List Param}
      (first : topicsFrom index rest = (place, topic) :: topicsFrom (place + 1) later)
      (position : moved.position? = some place) (ahead : TopicsAhead moved (place + 1) later) :
      Moved index rest (.ok (some topic), moved, ())

theorem seek_moved
    (accepts : ∀ param, cursor.selection.accepts param () = (.ok (isTopic param), ()))
    (unfinished : cursor.finished = false) (index : Nat) (rest : List Param) :
    Moved index rest (cursor.seek (rest.map .ok) index ()) := by
  induction rest generalizing index with
  | nil => exact .ended rfl
  | cons param others ih =>
      rw [List.map_cons, Selection.Cursor.seek, accepts]
      cases tested : isTopic param with
      | true =>
          have first : topicsFrom index (param :: others) =
              (index, param) :: topicsFrom (index + 1) others := by
            rw [topicsFrom, if_pos tested]
          refine .landed first ?_ ⟨accepts, unfinished, rfl, rfl⟩
          rw [Selection.Cursor.position?, unfinished]
          rfl
      | false =>
          have passed : topicsFrom index (param :: others) = topicsFrom (index + 1) others := by
            rw [topicsFrom, tested]
            rfl
          have later := ih (index + 1)
          change Moved index _ (cursor.seek (others.map .ok) (index + 1) ())
          generalize cursor.seek (others.map .ok) (index + 1) () = outcome at later ⊢
          cases later with
          | ended empty => exact .ended (passed.trans empty)
          | landed first position ahead => exact .landed (passed.trans first) position ahead

theorem TopicsAhead.advance (topics : TopicsAhead cursor index rest) :
    Moved index rest (cursor.advance ()) := by
  rw [Selection.Cursor.advance, topics.unfinished, topics.ahead, topics.taken]
  exact seek_moved topics.accepts topics.unfinished index rest

theorem topicsAhead_cursor {query : Query} (listed : query.Lists params) :
    TopicsAhead (topicParams query).cursor 0 params where
  accepts := fun _ => rfl
  unfinished := rfl
  taken := rfl
  ahead := listed

/-- The loop finds the place of the first bad topic among the one it stands on and those ahead. -/
theorem badTopic?_eq (topics : TopicsAhead cursor (place + 1) rest)
    (position : cursor.position? = some place) : badTopic? topic cursor =
      .ok ((((place, topic) :: topicsFrom (place + 1) rest).find? isBad).map Prod.fst) := by
  fun_induction badTopic? topic cursor generalizing place rest with
  | case1 topic cursor good cause moved advanced =>
      have moves := topics.advance
      rw [advanced] at moves
      cases moves
  | case2 topic cursor good moved advanced =>
      have passes : isBad (place, topic) = false := by rw [isBad, good]; rfl
      have moves := topics.advance
      rw [advanced] at moves
      cases moves with
      | ended empty =>
          rw [List.find?_cons, passes, empty]
          rfl
  | case3 topic cursor good next moved _ advanced ih =>
      have passes : isBad (place, topic) = false := by rw [isBad, good]; rfl
      have moves := topics.advance
      rw [advanced] at moves
      cases moves with
      | landed first there ahead =>
          rw [List.find?_cons, passes, first]
          exact ih ahead there
  | case4 topic cursor bad =>
      have fails : isBad (place, topic) = true := by
        rw [isBad, Bool.eq_false_iff.2 bad]
        rfl
      rw [List.find?_cons, fails, position]
      rfl

variable {φ ω : Type} {settings : Settings} {log : Log.Logger φ ω String} {uri : Uri}

def lineOf (length : Int) : Except Error Link → String
  | .ok _ => acceptedLine length
  | .error error => rejectedLine error.stage error

/-- Every way out of the checks tells one line, the one that its outcome calls for. -/
theorem checkLogged_eq (derives : uri.Derives) (length : Int) :
    checkLogged settings log uri length =
      tell log (lineOf length (check settings uri)) (check settings uri) := by
  obtain ⟨params, listed⟩ := uri.exists_params derives settings.plusAsSpace
  have moves := (topicsAhead_cursor listed).advance
  unfold checkLogged check
  rw [listed.mapM]
  split
  next => rfl
  next =>
    generalize (topicParams (uri.params settings.plusAsSpace)).cursor.advance () = outcome at moves
    simp only [checkTopics_eq]
    cases moves with
    | ended empty =>
        rw [if_pos empty]
        rfl
    | landed first position ahead =>
        simp only [badTopic?_eq ahead position, ← first]
        rw [if_neg (by rw [first]; exact List.cons_ne_nil _ _)]
        cases (topicsFrom 0 params).find? isBad with
        | none => rfl
        | some bad => rfl

/-- Between two places among units, the rule that logs is the rule that does not, with the line
that the outcome calls for. -/
theorem scanLogged_eq {units : List UInt16} {start stop : Nat} (ordered : start ≤ stop)
    (inside : stop ≤ units.length) (settings : Settings) (base : Log.Logger φ ω String)
    (store : ω) :
    let cursor : Cursor := { units, position := start, stop }
    let scanned := scan settings cursor
    let line := lineOf (scanned.2.position - cursor.position) scanned.1
    let told := tell (logger settings base) line scanned.1 store
    scanLogged settings base (cursor, store) = (told.1, scanned.2, told.2) := by
  intro cursor
  obtain ⟨outcome, count, _, within, found⟩ := Uri.isLocalAt_scan false ordered inside
  have read : Uri.scan false cursor =
      (outcome.mapError (Uri.SyntaxError.shift start), cursor.moveBy count) := within
  rw [scan_eq, scanLogged, read]
  cases outcome with
  | error cause => rfl
  | ok uri =>
      have derives := (Uri.ofText_eq_ok_iff.1 (found uri rfl).2.2.2.2).2.1
      simp only [Except.mapError, checkLogged_eq derives, Except.bind]

end Checks

section Lines

open Text (Cursor)

variable {φ ω : Type} {settings : Settings} {uri : Uri} {text rest : Text} {error : Error}

theorem tell_logger (settings : Settings) (base : Log.Logger φ ω String) (line : String)
    (outcome : Except Error Link) (store : ω) :
    tell (logger settings base) line outcome store =
      if settings.logLevel = .debug then
        let (told, after) :=
          base { level := .debug, scopes := ["MagnetLinkRule"], arguments := [line] } store
        (told.map fun _ => outcome, after)
      else (.ok outcome, store) := by
  unfold tell logger Log.Logger.inScope
  cases settings.logLevel <;> rfl

def lineOfReading (settings : Settings) (text : Text) : String :=
  let (outcome, behind) := scan settings (Cursor.whole text)
  lineOf behind.position outcome

def report (settings : Settings) (text : Text) : Log.Entry String where
  level := .debug
  scopes := ["MagnetLinkRule"]
  arguments := [lineOfReading settings text]

theorem exists_scan_whole {cause : Uri.SyntaxError} (failed : Uri.read false text = .error cause)
    (settings : Settings) :
    ∃ behind, scan settings (Cursor.whole text) = (.error (.malformed cause), behind) := by
  obtain ⟨reach, moves⟩ := Uri.exists_scan_of_failed failed
  have unshifted : cause.shift (List.length ([] : List UInt16)) = cause := by
    simp [Uri.SyntaxError.shift]
  refine ⟨(Cursor.whole text).moveBy reach, ?_⟩
  rw [scan_eq, Cursor.whole, Cursor.onUnits_eq, moves [] _ [] (Text.shows_units text), unshifted]
  rfl

theorem scan_whole (found : Uri.read false text = .ok (uri, rest)) (settings : Settings) :
    scan settings (Cursor.whole text) =
      (check settings uri, (Cursor.whole text).moveBy uri.text.length) := by
  rw [scan_eq, Cursor.whole, Cursor.onUnits_eq,
    Uri.scan_of_read (Text.shows_units text) found [] []]
  rfl

theorem position_whole (derives : uri.Derives) :
    ((Cursor.whole text).moveBy uri.text.length).position = Text.unitLength uri.text := by
  rw [derives.unitLength]
  exact Int.zero_add _

/-- Reading a whole text is reading at its start and a look at whether the text goes on. -/
theorem parse_eq_scan (settings : Settings) (text : Text) :
    let scanned := scan settings (Cursor.whole text)
    parse settings text = scanned.1.bind fun link =>
      if scanned.2.atEnd then .ok link
      else .error (goesOn (text.drop scanned.2.position.toNat) scanned.2.position) := by
  intro scanned
  cases found : Uri.read false text with
  | error cause =>
      obtain ⟨behind, failed⟩ := exists_scan_whole found settings
      rw [show scanned = _ from failed]
      exact parse_of_failed found
  | ok parts =>
      obtain ⟨uri, rest⟩ := parts
      obtain ⟨joined, derives, _⟩ := Uri.read_eq_ok_iff.1 found
      rw [show scanned = _ from scan_whole found settings]
      cases checked : check settings uri with
      | error error => exact parse_of_rejected found checked
      | ok link =>
          have left : text.drop uri.text.length = rest := by
            rw [← joined, List.drop_left]
          simp only [parse_of_checked found checked, Except.bind, Uri.atEnd_iff_of_read found,
            position_whole derives, Int.toNat_natCast, derives.unitLength, left, leftover_eq found,
            goesOn]

theorem scanLogged_whole (settings : Settings) (base : Log.Logger φ ω String) (text : Text)
    (store : ω) :
    let scanned := scan settings (Cursor.whole text)
    let told := tell (logger settings base) (lineOfReading settings text) scanned.1 store
    scanLogged settings base (Cursor.whole text, store) = (told.1, scanned.2, told.2) := by
  intro scanned told
  have unshifted : scanned.2.position - (Cursor.whole text).position = scanned.2.position :=
    Int.sub_zero _
  have logged : scanLogged settings base (Cursor.whole text, store) = _ :=
    scanLogged_eq (Nat.zero_le _) (Nat.le_refl (Text.units text).length) settings base store
  rw [logged]
  exact congrArg
    (fun length =>
      let told := tell (logger settings base) (lineOf length scanned.1) scanned.1 store
      (told.1, scanned.2, told.2))
    unshifted

/-- Reading with a logger is telling it one line, and giving what reading without one gives. -/
theorem parseLogged_eq (settings : Settings) (base : Log.Logger φ ω String) (text : Text)
    (store : ω) : parseLogged settings base text store =
      tell (logger settings base) (lineOfReading settings text) (parse settings text) store := by
  have logged := scanLogged_whole settings base text store
  have parsed := parse_eq_scan settings text
  generalize scan settings (Cursor.whole text) = scanned at logged parsed
  obtain ⟨outcome, behind⟩ := scanned
  rw [parseLogged, logged, parsed]
  unfold tell Effect.map
  rcases logger settings base { level := .debug, scopes := [], arguments := [_] } store with
    ⟨_ | _, after⟩
  · rfl
  · cases outcome with
    | error error => rfl
    | ok link =>
        simp only [Except.map, Except.bind]
        split <;> rfl

/-- Every run comes to one result, but for a run whose logger fails at the one entry it is given
where debugging is logged. What the logger leaves in its store stays there. -/
def ComesTo (settings : Settings) (text : Text) (result : Except Error Link) : Prop :=
  ∀ (φ ω : Type) (base : Log.Logger φ ω String) (store : ω),
    parseLogged settings base text store =
      if settings.logLevel = .debug then
        let (told, after) := base (report settings text) store
        (told.map fun _ => result, after)
      else (.ok result, store)

theorem comesTo_parse (settings : Settings) (text : Text) :
    ComesTo settings text (parse settings text) := by
  intro φ ω base store
  rw [parseLogged_eq, tell_logger]
  rfl

/-- A run ends with the failure of its logger at the entry, or with the result. -/
theorem ComesTo.run_cases {result : Except Error Link} (comes : ComesTo settings text result)
    (base : Log.Logger φ ω String) (store : ω) :
    (∃ failure, settings.logLevel = .debug ∧
        (base (report settings text) store).1 = .error failure ∧
        (parseLogged settings base text store).1 = .error failure) ∨
      (∀ failure, settings.logLevel = .debug →
        (base (report settings text) store).1 ≠ .error failure) ∧
        (parseLogged settings base text store).1 = .ok result := by
  rw [comes]
  split
  next debug =>
    cases told : (base (report settings text) store).1 with
    | error failure =>
        exact Or.inl ⟨failure, debug, rfl, congrArg (Except.map fun _ => result) told⟩
    | ok => exact Or.inr ⟨nofun, congrArg (Except.map fun _ => result) told⟩
  next other => exact Or.inr ⟨fun _ debug => absurd debug other, rfl⟩

theorem ComesTo.eq_of_run {result other : Except Error Link} (comes : ComesTo settings text result)
    {base : Log.Logger φ ω String} {store : ω}
    (ended : (parseLogged settings base text store).1 = .ok other) : other = result := by
  rcases comes.run_cases base store with ⟨_, _, _, failed⟩ | ⟨_, came⟩
  · cases failed.symm.trans ended
  · exact Except.ok.inj (ended.symm.trans came)

theorem ComesTo.fails_iff {result : Except Error Link} (comes : ComesTo settings text result)
    {base : Log.Logger φ ω String} {store : ω} {failure : φ} :
    (parseLogged settings base text store).1 = .error failure ↔
      settings.logLevel = .debug ∧ (base (report settings text) store).1 = .error failure := by
  rcases comes.run_cases base store with ⟨other, debug, told, failed⟩ | ⟨taken, came⟩
  · rw [failed, told, Except.error.injEq, Except.error.injEq]
    exact (and_iff_right debug).symm
  · exact iff_of_false (fun failed => nomatch came.symm.trans failed)
      fun both => taken failure both.1 both.2

theorem acceptedLine_ne_rejectedLine (length : Int) (stage : Stage) (error : Error) :
    acceptedLine length ≠ rejectedLine stage error := by
  intro same
  have chars := congrArg String.toList same
  unfold acceptedLine rejectedLine at chars
  have accepted : "accepted magnet link (".toList = 'a' :: "ccepted magnet link (".toList := by
    decide
  have rejected : "rejected at ".toList = 'r' :: "ejected at ".toList := by decide
  rw [String.append_assoc, String.append_assoc, String.append_assoc, String.toList_append,
    String.toList_append, String.toList_append, accepted, rejected, List.cons_append,
    List.cons_append] at chars
  exact absurd (List.cons.inj chars).1 (by decide)

theorem lineOfReading_of_failed {cause : Uri.SyntaxError}
    (failed : Uri.read false text = .error cause) :
    lineOfReading settings text = lineOf (Text.unitLength text) (parse settings text) := by
  obtain ⟨behind, scanned⟩ := exists_scan_whole failed settings
  rw [lineOfReading, scanned, parse_of_failed failed]
  rfl

theorem lineOfReading_of_rejected (found : Uri.read false text = .ok (uri, rest))
    (rejected : check settings uri = .error error) :
    lineOfReading settings text = lineOf (Text.unitLength text) (parse settings text) := by
  rw [lineOfReading, scan_whole found, parse_of_rejected found rejected, rejected]
  rfl

/-- Of a text that goes on behind a link the line tells that the link is accepted. -/
theorem lineOfReading_of_leftover {place : Int}
    (leftover : parse settings text = .error (goesOn rest place)) :
    lineOfReading settings text = acceptedLine place := by
  cases parse_eq_error_iff.1 leftover with
  | malformed failed =>
      have faults := Uri.noLeftover_read false text
      rw [failed] at faults
      exact absurd rfl (faults rest)
  | @topics uri left params error found allowed listed bad => cases bad
  | @leftover uri left params found qualifies more =>
      have derives := (Uri.read_eq_ok_iff.1 found).2.1
      rw [lineOfReading, scan_whole found, (check_eq_ok_iff derives).2 ⟨rfl, params, qualifies⟩]
      exact congrArg acceptedLine (position_whole derives)

/-- The line tells the outcome of the whole text exactly where the text does not go on. -/
theorem lineOfReading_eq_iff :
    lineOfReading settings text = lineOf (Text.unitLength text) (parse settings text) ↔
      ∀ rest place, parse settings text ≠ .error (goesOn rest place) := by
  constructor
  · intro tells rest place leftover
    rw [lineOfReading_of_leftover leftover, leftover] at tells
    exact acceptedLine_ne_rejectedLine _ _ _ tells
  · intro whole
    cases found : Uri.read false text with
    | error cause => exact lineOfReading_of_failed found
    | ok parts =>
        obtain ⟨uri, rest⟩ := parts
        cases checked : check settings uri with
        | error error => exact lineOfReading_of_rejected found checked
        | ok link =>
            have parsed := parse_of_checked found checked
            by_cases empty : rest = []
            · have joined := (Uri.read_eq_ok_iff.1 found).1
              rw [empty, List.append_nil] at joined
              have derives := (Uri.read_eq_ok_iff.1 found).2.1
              rw [lineOfReading, scan_whole found, parsed, if_pos empty, checked, ← joined]
              exact congrArg acceptedLine (position_whole derives)
            · rw [if_neg empty] at parsed
              exact absurd parsed (whole _ _)

/-- Where the logger keeps what it is given, one entry is written if debugging is logged, and none
otherwise. It tells the outcome, with the very error that is returned, of every text that does not
go on behind a link. -/
theorem journal_tells_outcome_unless_leftover (request : Settings.Key → Setting) (text : Text) :
    let settings := Settings.ofRequest request
    ∃ entries, (parseLogged settings (.into .record) text [] :
        Except φ (Except Error Link) × Log.Journal String) = (.ok (parse settings text), entries) ∧
      if settings.logLevel = .debug then
        ∃ entry line, entries = [(.record, entry)] ∧ entry.level = .debug ∧
          entry.tags = ["[MagnetLinkRule]"] ∧ entry.arguments = [line] ∧
          (line = lineOf (Text.unitLength text) (parse settings text) ↔
            ∀ rest place, parse settings text ≠ .error (goesOn rest place)) ∧
          ∀ rest place, parse settings text = .error (goesOn rest place) → line = acceptedLine place
      else entries = [] := by
  intro settings
  have written := comesTo_parse settings text φ _ (.into .record) []
  split at written
  next debug =>
    refine ⟨_, written, ?_⟩
    rw [if_pos debug]
    exact ⟨_, _, rfl, rfl, rfl, rfl, lineOfReading_eq_iff, fun _ _ => lineOfReading_of_leftover⟩
  next other =>
    refine ⟨_, written, ?_⟩
    rw [if_neg other]

/-- A fragment behind a link: the text is rejected, and no entry says so. -/
theorem journal_accepts_before_fragment :
    let settings := Settings.ofRequest fun
      | .logLevel => .word "debug"
      | _ => .other
    let text := "magnet:?xt=urn:x#f".toList
    (parseLogged settings (.into .record) text [] :
        Except Empty (Except Error Link) × Log.Journal String) =
      (.ok (.error (goesOn ['#', 'f'] 16)),
        [(.record, { level := .debug, scopes := ["MagnetLinkRule"]
                     arguments := ["accepted magnet link (16 chars)"] })]) ∧
    ∀ stage, "accepted magnet link (16 chars)" ≠ rejectedLine stage (goesOn ['#', 'f'] 16) := by
  intro settings text
  have rejected : parse settings text = .error (goesOn ['#', 'f'] 16) := rfl
  have line : lineOfReading settings text = "accepted magnet link (16 chars)" :=
    lineOfReading_of_leftover rejected
  have debug : settings.logLevel = .debug := rfl
  refine ⟨?_, fun stage => acceptedLine_ne_rejectedLine 16 stage _⟩
  rw [comesTo_parse, if_pos debug, report, line, rejected]
  rfl

end Lines

end MagnetUri.Link

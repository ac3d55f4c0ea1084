import MagnetUri.Proofs.Text.Window
import MagnetUri.Uri.Window

set_option autoImplicit false

/-! Scanning against reading. A scanner that starts in front of a window does what the reader
does with the text that the window shows, whatever units stand around the window. The marks of an
authority are searched for in all units, and one that is found behind its end counts for none. -/

namespace MagnetUri.Uri

open Character
open Grammar (Run)
open Text (Cursor Narrow Shows)

variable {text taken rest : Text} {before window behind : List UInt16} {inClass : Char → Bool}

theorem narrow_of_inUri (within : ∀ char, inClass char = true → inUri char = true) :
    Narrow inClass :=
  fun char member => isAscii_of_inUri (within char member)

theorem narrow_inQuery : Narrow inQuery :=
  narrow_of_inUri fun _ => inUri_of_inQuery

theorem narrow_inPath : Narrow inPath :=
  fun char member => narrow_inQuery char (by rw [inQuery, member, Bool.true_or])

theorem narrow_inUserinfo : Narrow inUserinfo :=
  narrow_of_inUri fun _ => inUri_of_inUserinfo

theorem narrow_inRegisteredName : Narrow inRegisteredName :=
  fun char member => narrow_inUserinfo char (by rw [inUserinfo, member, Bool.true_or])

theorem narrow_inAuthority : Narrow inAuthority :=
  narrow_of_inUri fun _ => inUri_of_inAuthority

theorem narrow_isHexDigit : Narrow isHexDigit :=
  narrow_of_inUri fun _ digit =>
    inUri_of_isUnreserved (Grammar.isUnreserved_of_isHexDigit digit)

theorem isAscii_of_run (narrow : Narrow inClass) (run : Run inClass text) :
    ∀ char ∈ text, IsAscii char := by
  intro char member
  rcases run.mem member with inside | percent | digit
  · exact narrow char inside
  · rw [percent]
    decide
  · exact narrow_isHexDigit char digit

theorem isAscii_of_takeWhile (narrow : Narrow inClass) :
    ∀ char ∈ text.takeWhile inClass, IsAscii char :=
  fun char member => narrow char (List.all_eq_true.1 List.all_takeWhile char member)

theorem slice_between (ascii : ∀ char ∈ taken, IsAscii char) (before behind : List UInt16) :
    slice (before ++ (Text.units taken ++ behind)) before.length
      (before.length + taken.length) = taken := by
  have length := Text.length_units_of_isAscii ascii
  have cut : (before ++ (Text.units taken ++ behind)).extract before.length
      (before.length + taken.length) = Text.units taken := by
    rw [List.extract_eq_take_drop, List.drop_left, Nat.add_sub_cancel_left, ← length, List.take_left]
  rw [slice, cut, Text.ofUnits_units ascii]

/-- What a scanner has moved over is cut out by its places before and after. -/
theorem slice_moved (shows_ : Shows window (taken ++ rest))
    (ascii : ∀ char ∈ taken, IsAscii char) :
    slice (Cursor.between before window behind).units
      (Cursor.between before window behind).position.toNat
      ((Cursor.between before window behind).moveBy taken.length).position.toNat = taken := by
  obtain ⟨left, same, _⟩ := shows_.split ascii
  have start : (Cursor.between before window behind).position.toNat = before.length := by
    have place := Cursor.place_between before window behind 0
    rwa [Cursor.moveBy_zero] at place
  rw [start, Cursor.place_between, Cursor.between, same]
  simp only [List.append_assoc]
  exact slice_between ascii before (left ++ behind)

theorem isIn_peek_first (narrow : Narrow inClass) (shows_ : Shows window text) :
    ((Cursor.between before window behind).peek 0).isIn inClass = text.head?.any inClass :=
  Cursor.isIn_peek [] narrow shows_ (List.forall_mem_nil _)

theorem skipWhile_between (narrow : Narrow inClass) (shows_ : Shows window text) :
    skipWhile inClass (Cursor.between before window behind) =
      (Cursor.between before window behind).moveBy (text.takeWhile inClass).length := by
  induction text generalizing before window with
  | nil =>
      rw [skipWhile, dif_neg, List.takeWhile_nil, List.length_nil, Cursor.moveBy_zero]
      rw [isIn_peek_first narrow shows_]
      exact Bool.false_ne_true
  | cons char rest ih =>
      have seen : ((Cursor.between before window behind).peek 0).isIn inClass = inClass char :=
        isIn_peek_first narrow shows_
      by_cases member : inClass char = true
      · have ascii : ∀ other ∈ [char], IsAscii other := List.forall_mem_singleton.2 (narrow char member)
        obtain ⟨left, shown, moved⟩ :=
          Cursor.exists_moved [char] shows_ ascii before behind
        rw [skipWhile, dif_pos (seen.trans member)]
        change skipWhile inClass ((Cursor.between before window behind).moveBy [char].length) = _
        rw [moved, ih shown, ← moved, Cursor.moveBy_moveBy, List.takeWhile_cons, if_pos member,
          Nat.add_comm]
        rfl
      · rw [skipWhile, dif_neg (by rw [seen]; exact member), List.takeWhile_cons, if_neg member,
          List.length_nil, Cursor.moveBy_zero]

theorem start_between (before window behind : List UInt16) :
    (Cursor.between before window behind).position = (before.length : Int) :=
  rfl

/-- One round of moving over a run, where there is a character to look at. -/
theorem skipRun_cons {char : Char} (narrow : Narrow inClass) (shows_ : Shows window (char :: rest))
    (before behind : List UInt16) : skipRun inClass (Cursor.between before window behind) =
      let cursor := Cursor.between before window behind
      if char = '%' then
        if (cursor.peek 1).isIn isHexDigit && (cursor.peek 2).isIn isHexDigit then
          skipRun inClass (cursor.moveBy 3)
        else (.error { fault := .brokenEscape, position := before.length }, cursor)
      else if inClass char then skipRun inClass (cursor.moveBy 1)
      else (.ok (), cursor) := by
  have percent : ((Cursor.between before window behind).peek 0).isIn (· == '%') = (char == '%') :=
    isIn_peek_first (Text.narrow_mark (by decide)) shows_
  have member : ((Cursor.between before window behind).peek 0).isIn inClass = inClass char :=
    isIn_peek_first narrow shows_
  have unfinished : (Cursor.between before window behind).atEnd = false := by
    rw [Cursor.atEnd_between]
    cases shows_ <;> rfl
  rw [skipRun, unfinished, if_neg Bool.false_ne_true]
  simp only [percent, member, beq_iff_eq, dite_eq_ite, start_between]

theorem isAscii_escape {high low : Char} (digits : (isHexDigit high && isHexDigit low) = true) :
    ∀ char ∈ ['%', high, low], IsAscii char := by
  rw [Bool.and_eq_true] at digits
  intro char member
  simp only [List.mem_cons, List.not_mem_nil, or_false] at member
  rcases member with percent | same | same
  · rw [percent]
    decide
  · exact narrow_isHexDigit char (same ▸ digits.1)
  · exact narrow_isHexDigit char (same ▸ digits.2)

theorem digits_seen {high low : Char} (shows_ : Shows window ('%' :: high :: low :: rest))
    (before behind : List UInt16) :
    (((Cursor.between before window behind).peek 1).isIn isHexDigit &&
      ((Cursor.between before window behind).peek 2).isIn isHexDigit) =
        (isHexDigit high && isHexDigit low) := by
  have first : ((Cursor.between before window behind).peek 1).isIn isHexDigit = isHexDigit high :=
    Cursor.isIn_peek ['%'] narrow_isHexDigit shows_
      (List.forall_mem_singleton.2 (by decide))
  rw [first]
  by_cases digit : isHexDigit high = true
  · have second : ((Cursor.between before window behind).peek 2).isIn isHexDigit = isHexDigit low :=
      Cursor.isIn_peek ['%', high] narrow_isHexDigit shows_
        (List.forall_mem_cons.2
          ⟨by decide, List.forall_mem_singleton.2 (narrow_isHexDigit high digit)⟩)
    rw [second]
  · rw [Bool.not_eq_true] at digit
    rw [digit, Bool.false_and, Bool.false_and]

theorem digits_missed (short : ∀ high low others, rest ≠ high :: low :: others)
    (shows_ : Shows window ('%' :: rest)) (before behind : List UInt16) :
    (((Cursor.between before window behind).peek 1).isIn isHexDigit &&
      ((Cursor.between before window behind).peek 2).isIn isHexDigit) = false := by
  have first : ((Cursor.between before window behind).peek 1).isIn isHexDigit =
      rest.head?.any isHexDigit :=
    Cursor.isIn_peek ['%'] narrow_isHexDigit shows_
      (List.forall_mem_singleton.2 (by decide))
  rw [Bool.eq_false_iff, ne_eq, Bool.and_eq_true, first]
  rintro ⟨digit, another⟩
  cases rest with
  | nil => cases digit
  | cons high others =>
      have second : ((Cursor.between before window behind).peek 2).isIn isHexDigit =
          others.head?.any isHexDigit :=
        Cursor.isIn_peek ['%', high] narrow_isHexDigit shows_
          (List.forall_mem_cons.2
            ⟨by decide, List.forall_mem_singleton.2 (narrow_isHexDigit high digit)⟩)
      rw [second] at another
      cases others with
      | nil => cases another
      | cons low others => exact short high low others rfl

/-- What a reader of runs comes to, as a scanner comes to it at a cursor. -/
def runAt (cursor : Cursor) : Except Nat (Text × Text) → Except SyntaxError Unit × Cursor
  | .ok (run, _) => (.ok (), cursor.moveBy run.length)
  | .error place =>
      (.error { fault := .brokenEscape, position := cursor.position + place },
        cursor.moveBy place)

theorem runAt_moveBy_ok (cursor : Cursor) {run left : Text} (count : Nat) :
    runAt (cursor.moveBy count) (.ok (run, left)) = (.ok (), cursor.moveBy (run.length + count)) := by
  rw [runAt, Cursor.moveBy_moveBy, Nat.add_comm]

theorem runAt_moveBy_error (cursor : Cursor) (place count : Nat) :
    runAt (cursor.moveBy count) (.error place) = runAt cursor (.error (place + count)) := by
  have place_eq : (cursor.moveBy count).position + place = cursor.position + (place + count : Nat) := by
    simp only [Cursor.moveBy]
    omega
  rw [runAt, runAt, place_eq, Cursor.moveBy_moveBy, Nat.add_comm count place]

/-- What a run that is read, or one that breaks off, comes to in place. -/
theorem skipRun_between (narrow : Narrow inClass) (shows_ : Shows window text)
    (before behind : List UInt16) : skipRun inClass (Cursor.between before window behind) =
      runAt (Cursor.between before window behind) (readRun inClass text) := by
  -- By the reader's recursion: each round of the scanner is one step of the reader.
  fun_induction readRun inClass text generalizing before window with
  | case1 =>
      cases shows_
      rw [skipRun, Cursor.atEnd_between]
      simp [runAt, Cursor.moveBy_zero]
  | case2 high low rest digits run left read ih =>
      obtain ⟨_, shown, moved⟩ := Cursor.exists_moved ['%', high, low] shows_
        (isAscii_escape digits) before behind
      have later := ih shown (before ++ Text.units ['%', high, low])
      rw [← moved, read, runAt_moveBy_ok] at later
      rw [skipRun_cons narrow shows_, if_pos rfl, digits_seen shows_, if_pos digits]
      exact later
  | case3 high low rest digits place failed ih =>
      obtain ⟨_, shown, moved⟩ := Cursor.exists_moved ['%', high, low] shows_
        (isAscii_escape digits) before behind
      have later := ih shown (before ++ Text.units ['%', high, low])
      rw [← moved, failed, runAt_moveBy_error] at later
      rw [skipRun_cons narrow shows_, if_pos rfl, digits_seen shows_, if_pos digits]
      exact later
  | case4 high low rest broken =>
      rw [skipRun_cons narrow shows_, if_pos rfl, digits_seen shows_, if_neg broken]
      simp [runAt, start_between, Cursor.moveBy_zero]
  | case5 rest short =>
      rw [skipRun_cons narrow shows_, if_pos rfl, digits_missed _ shows_]
      · simp [runAt, start_between, Cursor.moveBy_zero]
      · exact fun high low others same => short high low others rfl same
  | case6 char rest _ plain member run left read ih =>
      obtain ⟨_, shown, moved⟩ := Cursor.exists_moved [char] shows_
        (List.forall_mem_singleton.2 (narrow char member)) before behind
      have later := ih shown (before ++ Text.units [char])
      rw [← moved, read, runAt_moveBy_ok] at later
      rw [skipRun_cons narrow shows_, if_neg plain, if_pos member]
      exact later
  | case7 char rest _ plain member place failed ih =>
      obtain ⟨_, shown, moved⟩ := Cursor.exists_moved [char] shows_
        (List.forall_mem_singleton.2 (narrow char member)) before behind
      have later := ih shown (before ++ Text.units [char])
      rw [← moved, failed, runAt_moveBy_error] at later
      rw [skipRun_cons narrow shows_, if_neg plain, if_pos member]
      exact later
  | case8 char rest _ plain outside =>
      rw [skipRun_cons narrow shows_, if_neg plain, if_neg outside]
      simp [runAt, Cursor.moveBy_zero]

open Text (unitIn)

variable {units : List UInt16} {start : Nat} {front back : Text} {char mark : Char}

theorem SyntaxError.shift_shift (error : SyntaxError) (first second : Int) :
    (error.shift first).shift second = error.shift (second + first) := by
  simp only [SyntaxError.shift, SyntaxError.mk.injEq, true_and]
  omega

structure Lies (units : List UInt16) (start : Nat) (text : Text) : Prop where
  ascii : ∀ char ∈ text, IsAscii char
  around : ∃ before behind, units = before ++ (Text.units text ++ behind) ∧ before.length = start

namespace Lies

theorem left (lies : Lies units start (front ++ back)) : Lies units start front := by
  obtain ⟨ascii, before, behind, same, length⟩ := lies
  refine ⟨fun char member => ascii char (List.mem_append_left back member),
    before, Text.units back ++ behind, ?_, length⟩
  rw [same, Text.units_append, List.append_assoc]

theorem right (lies : Lies units start (front ++ back)) :
    Lies units (start + front.length) back := by
  obtain ⟨ascii, before, behind, same, length⟩ := lies
  have frontAscii : ∀ char ∈ front, IsAscii char :=
    fun char member => ascii char (List.mem_append_left back member)
  refine ⟨fun char member => ascii char (List.mem_append_right front member),
    before ++ Text.units front, behind, ?_, ?_⟩
  · simp only [same, Text.units_append, List.append_assoc]
  · rw [List.length_append, length, Text.length_units_of_isAscii frontAscii]

theorem tail (lies : Lies units start (char :: back)) : Lies units (start + 1) back := by
  have parted : Lies units start ([char] ++ back) := lies
  exact parted.right

theorem extract (lies : Lies units start text) :
    units.extract start (start + text.length) = Text.units text := by
  obtain ⟨ascii, before, behind, same, length⟩ := lies
  have width := Text.length_units_of_isAscii ascii
  rw [same, ← length, List.extract_eq_take_drop, List.drop_left, Nat.add_sub_cancel_left, ← width,
    List.take_left]

theorem slice (lies : Lies units start text) :
    Uri.slice units start (start + text.length) = text := by
  rw [Uri.slice, lies.extract, Text.ofUnits_units lies.ascii]

/-- A cursor on the text sees it, and nothing else. -/
theorem skipRun (lies : Lies units start text) (narrow : Narrow inClass) :
    Uri.skipRun inClass { units, position := start, stop := (start + text.length : Nat) } =
      runAt { units, position := start, stop := (start + text.length : Nat) }
        (readRun inClass text) := by
  obtain ⟨ascii, before, behind, same, length⟩ := lies
  have cursor : Cursor.between before (Text.units text) behind =
      { units, position := start, stop := (start + text.length : Nat) } := by
    rw [Cursor.between, same, length, Text.length_units_of_isAscii ascii]
    rfl
  rw [← cursor]
  exact skipRun_between narrow (Text.shows_units text) before behind

theorem isRunBetween (lies : Lies units start text) (narrow : Narrow inClass) :
    Uri.isRunBetween inClass units start (start + text.length) = isRun inClass text := by
  rw [Uri.isRunBetween, lies.skipRun narrow, isRun]
  cases read : readRun inClass text with
  | error place => rfl
  | ok parts =>
      obtain ⟨run, rest⟩ := parts
      have joined := congrArg List.length (append_of_readRun read)
      rw [List.length_append] at joined
      change Cursor.atEnd _ = rest.isEmpty
      rw [Bool.eq_iff_iff, Cursor.atEnd_iff, List.isEmpty_iff_length_eq_zero]
      simp only [Cursor.moveBy]
      omega

theorem standsAt (lies : Lies units start (char :: back)) :
    Uri.standsAt mark units start = (char == mark) := by
  obtain ⟨ascii, before, behind, same, length⟩ := lies
  have first := (List.forall_mem_cons.1 ascii).1
  have found : units[start]? = some (UInt16.ofNat char.toNat) := by
    rw [same, ← length, List.getElem?_append_right (Nat.le_refl _), Nat.sub_self,
      Text.units_cons first]
    rfl
  rw [Uri.standsAt, found, Option.any_some, Text.unitIn_of_isAscii first]

theorem findIdx?_units (mark : Char) (ascii : ∀ char ∈ text, IsAscii char) (behind : List UInt16) :
    ((Text.units text ++ behind).findIdx? (unitIn (· == mark))).filter (· < text.length) =
      (Text.cut? mark text).map fun parts => parts.1.length := by
  induction text with
  | nil =>
      rw [Option.filter_eq_none_iff.2]
      · rfl
      · exact fun place _ => by simp
  | cons char rest ih =>
      rw [List.forall_mem_cons] at ascii
      rw [Text.units_cons ascii.1, List.cons_append, List.findIdx?_cons,
        Text.unitIn_of_isAscii ascii.1, Text.cut?]
      by_cases same : char = mark
      · rw [if_pos same, if_pos (beq_iff_eq.2 same)]
        rfl
      · rw [if_neg same, if_neg (by rw [beq_iff_eq]; exact same), Option.map_map]
        have later := congrArg (Option.map (· + 1)) (ih ascii.2)
        rw [Option.map_map] at later
        rw [List.length_cons, Option.filter_map]
        simpa [Function.comp_def] using later

/-- A mark is found before the end of the text exactly where the text is cut. -/
theorem find (lies : Lies units start text) :
    (Uri.find? mark units start).filter (· < start + text.length) =
      (Text.cut? mark text).map fun parts => start + parts.1.length := by
  obtain ⟨ascii, before, behind, same, length⟩ := lies
  have found := congrArg (Option.map (start + ·)) (findIdx?_units mark ascii behind)
  rw [Option.map_map] at found
  rw [Uri.find?, same, ← length, List.drop_left, Option.filter_map, length]
  simpa [Function.comp_def] using found

theorem takeWhile_units (ascii : ∀ char ∈ text, IsAscii char) :
    ((Text.units text).takeWhile fun unit => !unitIn (· == mark) unit).length =
      (text.takeWhile (· ≠ mark)).length := by
  induction text with
  | nil => rfl
  | cons char rest ih =>
      rw [List.forall_mem_cons] at ascii
      rw [Text.units_cons ascii.1, List.takeWhile_cons, List.takeWhile_cons,
        Text.unitIn_of_isAscii ascii.1]
      by_cases same : char = mark
      · simp [same]
      · simp [same, ih ascii.2]

theorem all_units (ascii : ∀ char ∈ text, IsAscii char) :
    (Text.units text).all (unitIn inClass) = text.all inClass := by
  induction text with
  | nil => rfl
  | cons char rest ih =>
      rw [List.forall_mem_cons] at ascii
      rw [Text.units_cons ascii.1, List.all_cons, List.all_cons, Text.unitIn_of_isAscii ascii.1,
        ih ascii.2]

theorem findUserinfo (lies : Lies units start text) :
    Uri.findUserinfo units start (start + text.length) =
      ((splitUserinfo text).mapError (·.shift start)).map fun parts =>
        parts.1.map fun userinfo => start + userinfo.length := by
  rw [Uri.findUserinfo, lies.find, splitUserinfo]
  cases cut : Text.cut? '@' text with
  | none => rfl
  | some parts =>
      obtain ⟨userinfo, rest⟩ := parts
      have shape := Text.eq_append_of_cut? cut
      rw [shape] at lies
      have behind := lies.right.tail
      have length : start + text.length = start + userinfo.length + 1 + rest.length := by
        rw [shape, List.length_append, List.length_cons]
        omega
      simp only [Option.map_some, length, behind.find]
      cases Text.cut? '@' rest with
      | some others =>
          simp [Except.map, Except.mapError, SyntaxError.shift]
          omega
      | none =>
          simp only [Option.map_none, lies.left.isRunBetween narrow_inUserinfo]
          split <;> simp [Except.map, Except.mapError, SyntaxError.shift]

theorem standsAt_and_lt (lies : Lies units start text) :
    (Uri.standsAt mark units start && decide (start < start + text.length)) =
      text.head?.any (· == mark) := by
  cases text with
  | nil => simp
  | cons char rest => simp [lies.standsAt]

/-- A host between brackets. -/
theorem scanHost_literal {inside : Text} (lies : Lies units start ('[' :: inside)) :
    Uri.scanHost units start (start + ('[' :: inside).length) =
      ((splitHost ('[' :: inside)).mapError (·.shift start)).map fun parts =>
        (parts.1, start + (('[' :: inside).length - parts.2.length)) := by
  have open_ : ('[' :: inside).head?.any (· == '[') = true := rfl
  rw [Uri.scanHost, lies.standsAt_and_lt, if_pos open_, lies.find, splitHost, Text.cut?,
    if_neg (by decide)]
  cases cut : Text.cut? ']' inside with
  | none => simp [Except.mapError, Except.map, SyntaxError.shift]
  | some parts =>
      obtain ⟨address, rest⟩ := parts
      have shape := Text.eq_append_of_cut? cut
      rw [shape] at lies
      have close : start + ('[' :: address).length = start + 1 + address.length := by
        rw [List.length_cons]
        omega
      have behind : start + 1 + address.length + 1 =
          start + (('[' :: inside).length - rest.length) := by
        rw [shape, List.length_cons, List.length_append, List.length_cons]
        omega
      simp only [Option.map_some, close, lies.tail.left.slice, behind]
      cases hostOfLiteral address <;> rfl

/-- A host up to the colon of a port, or to the end. -/
theorem scanHost_name (lies : Lies units start text) (open_ : text.head?.any (· == '[') = false) :
    Uri.scanHost units start (start + text.length) =
      ((hostOfName (text.takeWhile (· ≠ ':'))).mapError (·.shift start)).map fun host =>
        (host, start + (text.takeWhile (· ≠ ':')).length) := by
  have parted : Lies units start (text.takeWhile (· ≠ ':') ++ text.dropWhile (· ≠ ':')) := by
    rwa [List.takeWhile_append_dropWhile]
  have named := parted.left
  rw [Uri.scanHost, lies.standsAt_and_lt, open_, if_neg Bool.false_ne_true, lies.extract]
  simp only [takeWhile_units lies.ascii]
  rw [named.isRunBetween narrow_inRegisteredName, named.slice, isRun,
    named.skipRun narrow_inRegisteredName, hostOfName]
  cases read : readRun inRegisteredName (text.takeWhile (· ≠ ':')) with
  | error place =>
      simp [runAt, Except.mapError, Except.map, SyntaxError.shift]
      omega
  | ok parts =>
      obtain ⟨run, rest⟩ := parts
      cases rest with
      | nil => simp [Except.mapError, Except.map]
      | cons char others => simp [runAt, Except.mapError, Except.map, SyntaxError.shift]

theorem scanHost (lies : Lies units start text) :
    Uri.scanHost units start (start + text.length) =
      ((splitHost text).mapError (·.shift start)).map fun parts =>
        (parts.1, start + (text.length - parts.2.length)) := by
  by_cases open_ : text.head?.any (· == '[') = true
  · cases text with
    | nil => cases open_
    | cons char inside =>
        have bracket : char = '[' := eq_of_beq open_
        subst bracket
        exact lies.scanHost_literal
  · rw [Bool.not_eq_true] at open_
    have length : (text.takeWhile (· ≠ ':')).length =
        text.length - (text.dropWhile (· ≠ ':')).length := by
      have joined := congrArg List.length
        (List.takeWhile_append_dropWhile (p := (· ≠ ':')) (l := text))
      rw [List.length_append] at joined
      omega
    rw [lies.scanHost_name open_, splitHost.eq_def]
    split
    next inside => cases open_
    next =>
      rw [length]
      cases hostOfName (text.takeWhile (· ≠ ':')) <;> rfl

/-- Where the host begins, and the user information that is cut out before it. -/
theorem exists_lead {userinfo : Option Text} {rest : Text} (lies : Lies units start text)
    (found : splitUserinfo text = .ok (userinfo, rest)) : ∃ lead : Text, lead ++ rest = text ∧
      (userinfo.map fun part => start + part.length).elim start (· + 1) = start + lead.length ∧
      (userinfo.map fun part => start + part.length).map (Uri.slice units start) = userinfo := by
  have shape := append_of_splitUserinfo found
  refine ⟨_, shape, ?_⟩
  cases userinfo with
  | none => exact ⟨rfl, rfl⟩
  | some part =>
      rw [← shape] at lies
      refine ⟨?_, congrArg some lies.left.left.slice⟩
      simp [Nat.add_assoc]

theorem scanPort (lies : Lies units start text) :
    Uri.scanPort units start (start + text.length) =
      (readPort text).mapError (·.shift start) := by
  rw [Uri.scanPort]
  cases text with
  | nil => rw [if_neg (by simp)]; rfl
  | cons first digits =>
      have behind := lies.tail
      have length : start + (first :: digits).length = start + 1 + digits.length := by
        rw [List.length_cons]
        omega
      rw [if_pos (by simp), lies.standsAt, length, behind.extract, all_units behind.ascii,
        behind.slice, readPort]
      simp only [Bool.and_eq_true, beq_iff_eq]
      split <;> simp [Except.mapError, SyntaxError.shift]

end Lies

theorem readAfter_append {α : Type} (front back : Text)
    (reader : Text → Except SyntaxError α) :
    readAfter (front ++ back) back reader = (reader back).mapError (·.shift front.length) := by
  rw [readAfter, List.length_append, Nat.add_sub_cancel]

/-- An authority in place is what the reader makes of its extent. -/
theorem authorityBetween_eq (lies : Lies units start text) :
    authorityBetween units start (start + text.length) =
      (readAuthority text).mapError (·.shift start) := by
  simp only [authorityBetween, readAuthority, lies.findUserinfo]
  cases readUserinfo : splitUserinfo text with
  | error error => rfl
  | ok parts =>
      obtain ⟨userinfo, rest⟩ := parts
      obtain ⟨lead, shape, hostStart, cutOut⟩ := lies.exists_lead readUserinfo
      subst shape
      have stop : start + (lead ++ rest).length = start + lead.length + rest.length := by
        rw [List.length_append, Nat.add_assoc]
      simp only [Except.mapError, Except.map, bind, Except.bind, hostStart, stop,
        lies.right.scanHost, cutOut, readAfter_append]
      cases readHost : splitHost rest with
      | error error =>
          simp only [SyntaxError.shift_shift]
          rfl
      | ok parts =>
          obtain ⟨host, left⟩ := parts
          have shape := append_of_splitHost readHost
          subst shape
          have stop : start + lead.length + (host.text ++ left).length =
              start + lead.length + host.text.length + left.length := by
            rw [List.length_append, Nat.add_assoc (start + lead.length)]
          have portStart : start + lead.length + ((host.text ++ left).length - left.length) =
              start + lead.length + host.text.length := by
            rw [List.length_append, Nat.add_sub_cancel]
          simp only [portStart, stop, lies.right.right.scanPort, ← List.append_assoc,
            readAfter_append]
          cases readPort left with
          | error error =>
              simp only [Except.mapError, SyntaxError.shift_shift, List.length_append]
              rw [Nat.add_assoc]
              rfl
          | ok port => rfl

end MagnetUri.Uri

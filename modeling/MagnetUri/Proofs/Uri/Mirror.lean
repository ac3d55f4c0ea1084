import MagnetUri.Proofs.Uri.Scan

set_option autoImplicit false

/-! Scanning does what reading does. A scanner at a cursor comes to what its reader makes of the
text in the window: the same value or the same fault, and a move over what the reader takes. -/

namespace MagnetUri.Uri

open Character
open Text (Cursor Narrow Shows)

variable {α β : Type} {text taken rest : Text} {before window behind : List UInt16}
  {inClass : Char → Bool}

/-- What a scanner does behind a run in its window, told by what a reader makes of the text that
the window shows. -/
inductive Follows (scanner : Effect SyntaxError Cursor α) (run text : Text) :
    Except SyntaxError (α × Text) → Prop
  | taken {value : α} (taken rest : Text) (joined : taken ++ rest = text)
      (ascii : ∀ char ∈ taken, IsAscii char)
      (moves : ∀ before window behind, Shows window text →
        scanner ((Cursor.between before window behind).moveBy run.length) =
          (.ok value, (Cursor.between before window behind).moveBy taken.length)) :
      Follows scanner run text (.ok (value, rest))
  | stopped {error : SyntaxError} (reach : Nat)
      (moves : ∀ before window behind, Shows window text →
        scanner ((Cursor.between before window behind).moveBy run.length) =
          (.error (error.shift before.length),
            (Cursor.between before window behind).moveBy reach)) :
      Follows scanner run text (.error error)

/-- A scanner that does what a reader does, whatever stands in the window and around it. -/
def Mirrors (scanner : Effect SyntaxError Cursor α)
    (reader : Text → Except SyntaxError (α × Text)) : Prop :=
  ∀ text, Follows scanner [] text (reader text)

theorem Mirrors.after {scanner : Effect SyntaxError Cursor α}
    {reader : Text → Except SyntaxError (α × Text)} (mirrors : Mirrors scanner reader)
    {run rest : Text} (joined : run ++ rest = text) (ascii : ∀ char ∈ run, IsAscii char) :
    Follows scanner run text (readAfter text rest reader) := by
  subst joined
  rw [readAfter_append]
  have follows := mirrors rest
  generalize reader rest = outcome at follows
  cases follows with
  | taken taken left joined asciiTaken moves =>
      apply Follows.taken (run ++ taken) left
      · rw [List.append_assoc, joined]
      · exact List.forall_mem_append.2 ⟨ascii, asciiTaken⟩
      · intro before window behind shows_
        obtain ⟨left, shown, moved⟩ := Cursor.exists_moved _ shows_ ascii before behind
        have step := moves (before ++ Text.units run) left behind shown
        rw [List.length_nil, Cursor.moveBy_zero, ← moved, Cursor.moveBy_moveBy] at step
        rw [step, List.length_append]
  | @stopped error reach moves =>
      apply Follows.stopped (run.length + reach)
      intro before window behind shows_
      obtain ⟨left, shown, moved⟩ := Cursor.exists_moved _ shows_ ascii before behind
      have step := moves (before ++ Text.units run) left behind shown
      rw [List.length_nil, Cursor.moveBy_zero, ← moved, Cursor.moveBy_moveBy] at step
      rw [step, SyntaxError.shift_shift, List.length_append, Text.length_units_of_isAscii ascii]
      rfl

/-- One scanner and then the next one do what one reader and then the next one do. -/
theorem Follows.bind {first : Effect SyntaxError Cursor α} {next : α → Effect SyntaxError Cursor β}
    {run : Text} {outcome : Except SyntaxError (α × Text)}
    {continuation : α × Text → Except SyntaxError (β × Text)}
    (follows : Follows first run text outcome)
    (later : ∀ value taken rest, taken ++ rest = text → (∀ char ∈ taken, IsAscii char) →
      Follows (next value) taken text (continuation (value, rest))) :
    Follows (first.bind next) run text (outcome.bind continuation) := by
  cases follows with
  | @stopped error reach moves =>
      apply Follows.stopped reach
      intro before window behind shows_
      rw [Effect.bind, moves before window behind shows_]
  | @taken value taken rest joined ascii moves =>
      have follows := later value taken rest joined ascii
      change Follows (first.bind next) run text (continuation (value, rest))
      generalize continuation (value, rest) = outcome at follows
      cases follows with
      | stopped reach onward =>
          apply Follows.stopped reach
          intro before window behind shows_
          rw [Effect.bind, moves before window behind shows_]
          exact onward before window behind shows_
      | taken both left joinedBoth asciiBoth onward =>
          apply Follows.taken both left joinedBoth asciiBoth
          intro before window behind shows_
          rw [Effect.bind, moves before window behind shows_]
          exact onward before window behind shows_

theorem Follows.map {scanner : Effect SyntaxError Cursor α} {run : Text}
    {outcome : Except SyntaxError (α × Text)} (follows : Follows scanner run text outcome)
    (change : α → β) :
    Follows (scanner.map change) run text (outcome.map fun parts => (change parts.1, parts.2)) := by
  cases follows with
  | taken taken rest joined ascii moves =>
      apply Follows.taken taken rest joined ascii
      intro before window behind shows_
      rw [Effect.map, moves before window behind shows_]
      rfl
  | stopped reach moves =>
      apply Follows.stopped reach
      intro before window behind shows_
      rw [Effect.map, moves before window behind shows_]
      rfl

/-- With no run before it a scanner starts where the window begins. -/
theorem Follows.takes {scanner : Effect SyntaxError Cursor α} {value : α} (taken rest : Text)
    (joined : taken ++ rest = text) (ascii : ∀ char ∈ taken, IsAscii char)
    (moves : ∀ before window behind, Shows window text →
      scanner (Cursor.between before window behind) =
        (.ok value, (Cursor.between before window behind).moveBy taken.length)) :
    Follows scanner [] text (.ok (value, rest)) := by
  refine .taken taken rest joined ascii fun before window behind shows_ => ?_
  rw [List.length_nil, Cursor.moveBy_zero]
  exact moves before window behind shows_

theorem Follows.stops {scanner : Effect SyntaxError Cursor α} {error : SyntaxError} (reach : Nat)
    (moves : ∀ before window behind, Shows window text →
      scanner (Cursor.between before window behind) =
        (.error (error.shift before.length),
          (Cursor.between before window behind).moveBy reach)) :
    Follows scanner [] text (.error error) := by
  refine .stopped reach fun before window behind shows_ => ?_
  rw [List.length_nil, Cursor.moveBy_zero]
  exact moves before window behind shows_

/-- A scanner that first moves over a run and then does what another one does. -/
theorem Follows.of_moved {scanner later : Effect SyntaxError Cursor α} {run : Text}
    {outcome : Except SyntaxError (α × Text)} (follows : Follows later run text outcome)
    (moved : ∀ before window behind, Shows window text →
      scanner (Cursor.between before window behind) =
        later ((Cursor.between before window behind).moveBy run.length)) :
    Follows scanner [] text outcome := by
  cases follows with
  | taken taken rest joined ascii moves =>
      apply Follows.takes taken rest joined ascii
      intro before window behind shows_
      rw [moved before window behind shows_]
      exact moves before window behind shows_
  | stopped reach moves =>
      apply Follows.stops reach
      intro before window behind shows_
      rw [moved before window behind shows_]
      exact moves before window behind shows_

/-- A scanner that stays where it is. -/
theorem Follows.still {scanner : Effect SyntaxError Cursor α} {value : α}
    (stays : ∀ before window behind, Shows window text →
      scanner (Cursor.between before window behind) =
        (.ok value, Cursor.between before window behind)) :
    Follows scanner [] text (.ok (value, text)) := by
  apply Follows.takes [] text (List.nil_append text) (List.forall_mem_nil _)
  intro before window behind shows_
  rw [stays before window behind shows_, List.length_nil, Cursor.moveBy_zero]

/-- What is seen at a cursor that has moved over a part of its text. -/
theorem isIn_peek_moved (narrow : Narrow inClass) (shows_ : Shows window (taken ++ rest))
    (ascii : ∀ char ∈ taken, IsAscii char) :
    (((Cursor.between before window behind).moveBy taken.length).peek 0).isIn inClass =
      rest.head?.any inClass := by
  obtain ⟨left, shown, moved⟩ := Cursor.exists_moved _ shows_ ascii before behind
  rw [moved]
  exact isIn_peek_first narrow shown

theorem narrow_isLetter : Narrow isLetter :=
  fun _ => isAscii_of_isLetter

theorem narrow_inScheme : Narrow inScheme :=
  narrow_of_inUri fun _ => inUri_of_inScheme

theorem narrow_colon : Narrow (· == ':') :=
  Text.narrow_mark (by decide)

/-- Behind its first letter the scanner moves over the rest of a scheme. -/
theorem skipWhile_scheme {first : Char} (letter : isLetter first = true)
    (shows_ : Shows window (first :: rest)) :
    skipWhile inScheme ((Cursor.between before window behind).moveBy 1) =
      (Cursor.between before window behind).moveBy (first :: rest.takeWhile inScheme).length := by
  obtain ⟨left, shown, moved⟩ := Cursor.exists_moved [first] shows_
    (List.forall_mem_singleton.2 (narrow_isLetter first letter)) before behind
  change skipWhile inScheme ((Cursor.between before window behind).moveBy [first].length) = _
  rw [moved, skipWhile_between narrow_inScheme shown, ← moved, Cursor.moveBy_moveBy,
    List.length_cons, Nat.add_comm]
  rfl

theorem scanScheme_between {first : Char} (letter : isLetter first = true)
    (shows_ : Shows window (first :: rest)) :
    scanScheme (Cursor.between before window behind) =
      let scheme := first :: rest.takeWhile inScheme
      let cursor := (Cursor.between before window behind).moveBy scheme.length
      if (rest.dropWhile inScheme).head?.any (· == ':') then (.ok scheme, cursor.moveBy 1)
      else (.error { fault := .schemeEnd, position := cursor.position }, cursor) := by
  have ascii : ∀ char ∈ first :: rest.takeWhile inScheme, IsAscii char :=
    List.forall_mem_cons.2 ⟨narrow_isLetter first letter, isAscii_of_takeWhile narrow_inScheme⟩
  have joined : first :: rest = first :: rest.takeWhile inScheme ++ rest.dropWhile inScheme := by
    rw [List.cons_append, List.takeWhile_append_dropWhile]
  have split := joined ▸ shows_
  rw [scanScheme, isIn_peek_first narrow_isLetter shows_, List.head?_cons, Option.any_some,
    if_pos letter]
  simp only [skipWhile_scheme letter shows_, isIn_peek_moved narrow_colon split ascii,
    slice_moved split ascii]

theorem mirrors_scanScheme : Mirrors scanScheme readScheme := by
  intro text
  cases text with
  | nil =>
      apply Follows.stops 0
      intro before window behind shows_
      rw [scanScheme, isIn_peek_first narrow_isLetter shows_]
      simp [SyntaxError.shift, start_between, Cursor.moveBy_zero]
  | cons first others =>
      rw [readScheme]
      split
      next letter =>
        have ascii : ∀ char ∈ first :: others.takeWhile inScheme, IsAscii char :=
          List.forall_mem_cons.2
            ⟨narrow_isLetter first letter, isAscii_of_takeWhile narrow_inScheme⟩
        have joined := List.takeWhile_append_dropWhile (p := inScheme) (l := others)
        split
        next rest colon =>
          apply Follows.takes (first :: others.takeWhile inScheme ++ [':']) rest
          · rw [List.append_assoc, List.cons_append, List.singleton_append, ← colon, joined]
          · exact List.forall_mem_append.2 ⟨ascii, List.forall_mem_singleton.2 (by decide)⟩
          · intro before window behind shows_
            rw [scanScheme_between letter shows_, colon,
              List.length_append, ← Cursor.moveBy_moveBy]
            rfl
        next other =>
          apply Follows.stops (first :: others.takeWhile inScheme).length
          intro before window behind shows_
          have noColon : ¬ (others.dropWhile inScheme).head?.any (· == ':') = true := by
            intro colon
            cases shape : others.dropWhile inScheme with
            | nil => rw [shape] at colon; cases colon
            | cons char rest =>
                rw [shape] at colon
                exact other rest (by rw [shape, eq_of_beq colon])
          rw [scanScheme_between letter shows_]
          simp only [if_neg noColon, SyntaxError.shift, Cursor.moveBy, start_between,
            Int.add_comm]
      next other =>
        apply Follows.stops 0
        intro before window behind shows_
        rw [scanScheme, isIn_peek_first narrow_isLetter shows_]
        simp [SyntaxError.shift, start_between, Cursor.moveBy_zero, other]

theorem mirrors_scanComponent (narrow : Narrow inClass) :
    Mirrors (scanComponent inClass) (readComponent inClass) := by
  intro text
  rw [readComponent]
  cases read : readRun inClass text with
  | error place =>
      apply Follows.stops place
      intro before window behind shows_
      rw [scanComponent,
        skipRun_between narrow shows_, read]
      simp [runAt, SyntaxError.shift, start_between, Int.add_comm]
  | ok parts =>
      obtain ⟨run, rest⟩ := parts
      have joined := append_of_readRun read
      have ascii := isAscii_of_run narrow (Grammar.run_of_readRun read).1
      apply Follows.takes run rest joined ascii
      intro before window behind shows_
      rw [scanComponent,
        skipRun_between narrow shows_, read]
      rw [← joined] at shows_
      simp only [runAt, slice_moved shows_ ascii]

theorem scanOptional_of_other {delimiter : Char} (ascii : IsAscii delimiter)
    (other : text.head?.any (· == delimiter) = false) :
    Follows (scanOptional delimiter inClass) [] text (.ok (none, text)) := by
  apply Follows.still
  intro before window behind shows_
  rw [scanOptional, isIn_peek_first (Text.narrow_mark ascii) shows_, other,
    if_neg Bool.false_ne_true]

theorem mirrors_scanOptional {delimiter : Char} (narrow : Narrow inClass)
    (ascii : IsAscii delimiter) :
    Mirrors (scanOptional delimiter inClass) (readOptional delimiter inClass) := by
  intro text
  cases text with
  | nil => exact scanOptional_of_other ascii rfl
  | cons char rest =>
      by_cases same : char = delimiter
      · subst same
        have joined : [char] ++ rest = char :: rest := rfl
        have follows := ((mirrors_scanComponent narrow).after joined
          (List.forall_mem_singleton.2 ascii)).map some
        have outcome : readOptional char inClass (char :: rest) =
            (readAfter ([char] ++ rest) rest (readComponent inClass)).map
              fun parts => (some parts.1, parts.2) := by
          rw [readAfter_append, readOptional, if_pos rfl]
          cases readComponent inClass rest <;> rfl
        rw [outcome]
        apply follows.of_moved
        intro before window behind shows_
        rw [scanOptional, isIn_peek_first (Text.narrow_mark ascii) shows_]
        exact if_pos (beq_self_eq_true char)
      · rw [readOptional, if_neg same]
        exact scanOptional_of_other ascii (beq_eq_false_iff_ne.2 same)

theorem mirrors_scanFragment (withFragment : Bool) :
    Mirrors (scanFragment withFragment) (readFragment withFragment) := by
  intro text
  cases withFragment with
  | true => exact mirrors_scanOptional narrow_inQuery (by decide) text
  | false => exact Follows.still fun _ _ _ _ => rfl

/-- The authority that the longest extent at the beginning of a text writes, and the rest. -/
def readExtent (text : Text) : Except SyntaxError (Authority × Text) :=
  (readAuthority (text.takeWhile inAuthority)).map (·, text.dropWhile inAuthority)

theorem scanAuthority_between (shows_ : Shows window text) :
    scanAuthority (Cursor.between before window behind) =
      ((readAuthority (text.takeWhile inAuthority)).mapError (·.shift before.length),
        (Cursor.between before window behind).moveBy (text.takeWhile inAuthority).length) := by
  have ascii : ∀ char ∈ text.takeWhile inAuthority, IsAscii char :=
    isAscii_of_takeWhile narrow_inAuthority
  have lies : Lies (Cursor.between before window behind).units before.length
      (text.takeWhile inAuthority) := by
    have joined := List.takeWhile_append_dropWhile (p := inAuthority) (l := text)
    obtain ⟨left, same, _⟩ := (joined.symm ▸ shows_).split ascii
    refine ⟨ascii, before, left ++ behind, ?_, rfl⟩
    rw [Cursor.between, same, List.append_assoc]
  rw [scanAuthority, skipWhile_between narrow_inAuthority shows_,
    Cursor.place_between before window behind, start_between, Int.toNat_natCast,
    authorityBetween_eq lies]

theorem mirrors_scanAuthority : Mirrors scanAuthority readExtent := by
  intro text
  rw [readExtent]
  cases read : readAuthority (text.takeWhile inAuthority) with
  | error error =>
      apply Follows.stops (text.takeWhile inAuthority).length
      intro before window behind shows_
      rw [scanAuthority_between shows_, read]
      rfl
  | ok authority =>
      apply Follows.takes (text.takeWhile inAuthority) _ List.takeWhile_append_dropWhile
        (isAscii_of_takeWhile narrow_inAuthority)
      intro before window behind shows_
      rw [scanAuthority_between shows_, read]
      rfl

/-- Whether two slashes come next. -/
theorem slashes_seen (shows_ : Shows window text) :
    ((((Cursor.between before window behind).peek 0).isIn (· == '/') &&
      ((Cursor.between before window behind).peek 1).isIn (· == '/')) = true) ↔
        ∃ rest, text = '/' :: '/' :: rest := by
  have narrow : Narrow (· == '/') := Text.narrow_mark (by decide)
  rw [isIn_peek_first narrow shows_]
  cases text with
  | nil => simp
  | cons char others =>
      by_cases slash : char = '/'
      · subst slash
        have second : ((Cursor.between before window behind).peek 1).isIn (· == '/') =
            others.head?.any (· == '/') :=
          Cursor.isIn_peek ['/'] narrow shows_ (List.forall_mem_singleton.2 (by decide))
        rw [second]
        cases others <;> simp
      · simp [slash]

theorem mirrors_scanOptionalAuthority : Mirrors scanOptionalAuthority readOptionalAuthority := by
  intro text
  unfold readOptionalAuthority
  split
  next rest =>
    have joined : ['/', '/'] ++ rest = '/' :: '/' :: rest := rfl
    have ascii : ∀ char ∈ ['/', '/'], Character.IsAscii char :=
      List.forall_mem_cons.2 ⟨by decide, List.forall_mem_singleton.2 (by decide)⟩
    have follows := (mirrors_scanAuthority.after joined ascii).map some
    have outcome : readOptionalAuthority ('/' :: '/' :: rest) =
        (readAfter ('/' :: '/' :: rest) rest readExtent).map
          fun parts => (some parts.1, parts.2) := by
      rw [← joined, readAfter_append, readExtent]
      change readOptionalAuthority ('/' :: '/' :: rest) = _
      rw [readOptionalAuthority]
      cases readAuthority (rest.takeWhile inAuthority) <;> rfl
    rw [← readOptionalAuthority, outcome]
    apply follows.of_moved
    intro before window behind shows_
    rw [scanOptionalAuthority, if_pos ((slashes_seen shows_).2 ⟨rest, rfl⟩)]
    rfl
  next other =>
    apply Follows.still
    intro before window behind shows_
    rw [scanOptionalAuthority, if_neg]
    intro slashes
    obtain ⟨rest, same⟩ := (slashes_seen shows_).1 slashes
    exact other rest same

/-- Scanning at a cursor is reading the text in its window. -/
theorem mirrors_scan (withFragment : Bool) : Mirrors (scan withFragment) (read withFragment) := by
  intro text
  refine (mirrors_scanScheme text).bind fun scheme taken rest joined ascii => ?_
  refine (mirrors_scanOptionalAuthority.after joined ascii).bind
    fun authority taken rest joined ascii => ?_
  refine ((mirrors_scanComponent narrow_inPath).after joined ascii).bind
    fun path taken rest joined ascii => ?_
  refine ((mirrors_scanOptional narrow_inQuery (by decide)).after joined ascii).bind
    fun query taken rest joined ascii => ?_
  refine ((mirrors_scanFragment withFragment).after joined ascii).bind
    fun fragment taken rest joined ascii => ?_
  exact .taken taken rest joined ascii fun _ _ _ _ => rfl

theorem scan_of_read {withFragment : Bool} {uri : Uri} (shows_ : Shows window text)
    (found : read withFragment text = .ok (uri, rest)) (before behind : List UInt16) :
    scan withFragment (Cursor.between before window behind) =
      (.ok uri, (Cursor.between before window behind).moveBy uri.text.length) := by
  have follows := mirrors_scan withFragment text
  rw [found] at follows
  cases follows with
  | taken taken rest joined ascii moves =>
      have same : taken = uri.text :=
        List.append_cancel_right (joined.trans (append_of_read found).symm)
      have scanned := moves before window behind shows_
      rwa [List.length_nil, Cursor.moveBy_zero, same] at scanned

theorem exists_scan_of_failed {withFragment : Bool} {error : SyntaxError}
    (failed : read withFragment text = .error error) :
    ∃ reach, ∀ before window behind, Shows window text →
      scan withFragment (Cursor.between before window behind) =
        (.error (error.shift before.length),
          (Cursor.between before window behind).moveBy reach) := by
  have follows := mirrors_scan withFragment text
  rw [failed] at follows
  cases follows with
  | stopped reach moves =>
      refine ⟨reach, fun before window behind shows_ => ?_⟩
      have scanned := moves before window behind shows_
      rwa [List.length_nil, Cursor.moveBy_zero] at scanned

/-- A cursor behind what was read of a whole text is at the end where nothing is left. -/
theorem atEnd_iff_of_read {withFragment : Bool} {uri : Uri}
    (found : read withFragment text = .ok (uri, rest)) :
    ((Cursor.whole text).moveBy uri.text.length).atEnd = true ↔ rest = [] := by
  obtain ⟨joined, derives, _⟩ := read_eq_ok_iff.1 found
  have length : (Text.units text).length = uri.text.length + Text.unitLength rest := by
    rw [← joined, Text.units_append, List.length_append, Text.length_units, Text.length_units,
      derives.unitLength]
  rw [Cursor.atEnd_iff, ← Text.unitLength_eq_zero_iff]
  simp only [Cursor.whole, Cursor.onUnits, Cursor.moveBy, length]
  omega

end MagnetUri.Uri

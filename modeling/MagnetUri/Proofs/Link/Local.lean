import MagnetUri.Proofs.Link.Comparison
import MagnetUri.Proofs.Uri.Mirror

set_option autoImplicit false

/-! Locality. Reading between two places among units does what reading these units alone does:
the outcome is the same, and all places are further on by the place where reading began. What was
read is read again from its own text. -/

namespace MagnetUri

open Text (Cursor Shows)

variable {units : List UInt16} {start stop : Nat}

theorem Text.Cursor.eq_between (ordered : start ≤ stop) (inside : stop ≤ units.length) :
    ({ units, position := start, stop } : Cursor) =
      Cursor.between (units.take start) (units.extract start stop) (units.drop stop) := by
  have before : (units.take start).length = start := List.length_take_of_le (by omega)
  have window : (units.extract start stop).length = stop - start := by
    rw [List.extract_eq_take_drop, List.length_take, List.length_drop]
    omega
  have whole : units = units.take start ++ (units.extract start stop ++ units.drop stop) := by
    rw [List.extract_eq_take_drop, ← List.append_assoc, ← List.take_add, Nat.add_sub_cancel' ordered,
      List.take_append_drop]
  rw [Cursor.between, ← whole, before, window]
  congr 1
  omega

/-- A scanner that does between two places among units what it does on these units alone, and
that finds what it found again in its own text, which the parser takes as a whole. -/
def IsLocalAt {ε α : Type} (shift : Int → ε → ε) (text : α → Text)
    (scanner : Effect ε Cursor α) (parser : Text → Except ε α) (units : List UInt16)
    (start stop : Nat) : Prop :=
  let within : Cursor := { units, position := start, stop }
  let alone := Cursor.onUnits (units.extract start stop)
  ∃ outcome count,
    scanner alone = (outcome, alone.moveBy count) ∧
    scanner within = (outcome.mapError (shift start), within.moveBy count) ∧
    ∀ value, outcome = .ok value →
      start + count ≤ stop ∧
      units.extract start (start + count) = Text.units (text value) ∧
      scanner (Cursor.whole (text value)) = (.ok value, (Cursor.whole (text value)).moveBy count) ∧
      ((Cursor.whole (text value)).moveBy count).atEnd = true ∧
      parser (text value) = .ok value

namespace Uri

variable {withFragment : Bool} {uri : Uri} {rest : Text}

/-- An identifier is scanned from its own text, up to the end. -/
theorem scan_whole_text (derives : uri.Derives)
    (absolute : withFragment = false → uri.fragment = none) :
    scan withFragment (Cursor.whole uri.text) =
        (.ok uri, (Cursor.whole uri.text).moveBy uri.text.length) ∧
      ((Cursor.whole uri.text).moveBy uri.text.length).atEnd = true := by
  have found : read withFragment uri.text = .ok (uri, []) :=
    read_eq_ok_iff.2 ⟨List.append_nil uri.text, derives, absolute, ends_nil⟩
  rw [Cursor.whole, Cursor.onUnits_eq]
  refine ⟨scan_of_read (Text.shows_units uri.text) found [] [], ?_⟩
  rw [Cursor.atEnd_iff, Cursor.moveBy, Cursor.between,
    Text.length_units_of_isAscii fun _ => derives.isAscii]

/-- What is read from a window takes up the first units of the window. -/
theorem extract_of_read (ordered : start ≤ stop) (inside : stop ≤ units.length)
    (found : read withFragment (Text.ofUnits (units.extract start stop)) = .ok (uri, rest)) :
    start + uri.text.length ≤ stop ∧
      units.extract start (start + uri.text.length) = Text.units uri.text := by
  obtain ⟨joined, derives, _⟩ := read_eq_ok_iff.1 found
  have ascii : ∀ char ∈ uri.text, Character.IsAscii char := fun _ => derives.isAscii
  have width := Text.length_units_of_isAscii ascii
  have shows_ := Text.shows_ofUnits (units.extract start stop)
  rw [← joined] at shows_
  obtain ⟨left, split, _⟩ := shows_.split ascii
  have length := congrArg List.length split
  rw [List.extract_eq_take_drop, List.length_take, List.length_drop, List.length_append] at length
  refine ⟨by omega, ?_⟩
  have taken := congrArg (List.take uri.text.length) split
  rw [← width, List.take_left, width, List.extract_eq_take_drop, List.take_take,
    Nat.min_eq_left (by omega)] at taken
  rw [List.extract_eq_take_drop, Nat.add_sub_cancel_left, taken]

theorem isLocalAt_scan (withFragment : Bool) (ordered : start ≤ stop)
    (inside : stop ≤ units.length) :
    IsLocalAt SyntaxError.shift Uri.text (scan withFragment) (ofText withFragment)
      units start stop := by
  have shows_ := Text.shows_ofUnits (units.extract start stop)
  have before : (units.take start).length = start := List.length_take_of_le (by omega)
  simp only [IsLocalAt, Cursor.eq_between ordered inside, Cursor.onUnits_eq]
  cases found : read withFragment (Text.ofUnits (units.extract start stop)) with
  | error error =>
      obtain ⟨reach, moves⟩ := exists_scan_of_failed found
      refine ⟨.error error, reach, ?_, ?_, nofun⟩
      · rw [moves [] _ [] shows_]
        simp [SyntaxError.shift]
      · rw [moves _ _ _ shows_, before]
        rfl
  | ok parts =>
      obtain ⟨uri, rest⟩ := parts
      obtain ⟨_, derives, absolute, _⟩ := read_eq_ok_iff.1 found
      refine ⟨.ok uri, uri.text.length, scan_of_read shows_ found _ _,
        scan_of_read shows_ found _ _, ?_⟩
      intro value same
      cases same
      obtain ⟨below, cut⟩ := extract_of_read ordered inside found
      obtain ⟨scanned, finished⟩ := scan_whole_text derives absolute
      exact ⟨below, cut, scanned, finished, ofText_eq_ok_iff.2 ⟨rfl, derives, absolute⟩⟩

end Uri

namespace Link

theorem scan_eq (settings : Settings) (cursor : Cursor) : scan settings cursor =
    (((Uri.scan false cursor).1.mapError Error.malformed).bind (check settings),
      (Uri.scan false cursor).2) := by
  rw [scan, Effect.bind, Effect.mapError]
  rcases Uri.scan false cursor with ⟨_ | _, _⟩ <;> rfl

/-- The checks tell no places among units. -/
theorem check_mapError_shift (settings : Settings) (uri : Uri) (distance : Int) :
    (check settings uri).mapError (Error.shift distance) = check settings uri := by
  unfold check
  split
  next => rfl
  next =>
    split
    next => rfl
    next params _ =>
      cases checked : checkTopics params with
      | ok => rfl
      | error error =>
          cases checkTopics_eq_error_iff.1 checked <;> rfl

theorem isLocalAt_scan (settings : Settings) (ordered : start ≤ stop)
    (inside : stop ≤ units.length) :
    IsLocalAt Error.shift (fun link : Link => link.uri.text) (scan settings) (parse settings)
      units start stop := by
  obtain ⟨outcome, count, alone, within, found⟩ := Uri.isLocalAt_scan false ordered inside
  refine ⟨(outcome.mapError .malformed).bind (check settings), count, ?_, ?_, ?_⟩
  · rw [scan_eq, alone]
  · rw [scan_eq, within]
    cases outcome with
    | error error => rfl
    | ok uri => exact congrArg (·, _) (check_mapError_shift settings uri start).symm
  · intro link accepted
    cases outcome with
    | error error => cases accepted
    | ok uri =>
        obtain ⟨below, cut, whole, finished, parsed⟩ := found uri rfl
        have derives := (Uri.ofText_eq_ok_iff.1 parsed).2.1
        have same : link.uri = uri := congrArg Link.uri ((check_eq_ok_iff derives).1 accepted).1
        subst same
        refine ⟨below, cut, ?_, finished, ?_⟩
        · rw [scan_eq, whole]
          exact congrArg (·, _) accepted
        · rw [parse_of_absolute parsed]
          exact accepted

/-- Both rules of identifiers and every rule of links read between two places what they read in
these units alone, only further on, and read it again in its own text. -/
theorem scan_local (ordered : start ≤ stop) (inside : stop ≤ units.length) :
    (∀ withFragment, IsLocalAt Uri.SyntaxError.shift Uri.text (Uri.scan withFragment)
      (Uri.ofText withFragment) units start stop) ∧
    ∀ request : Settings.Key → Setting,
      IsLocalAt Error.shift (fun link : Link => link.uri.text)
        (scan (Settings.ofRequest request)) (parse (Settings.ofRequest request)) units start stop :=
  ⟨fun withFragment => Uri.isLocalAt_scan withFragment ordered inside,
    fun request => isLocalAt_scan (Settings.ofRequest request) ordered inside⟩

def sentence : List UInt16 :=
  Text.units "see magnet:?xt=a:b@c now".toList

/-- A link in the middle of a sentence is found there, up to the space behind it. -/
theorem scan_local_in_sentence : 4 ≤ 20 ∧ 20 ≤ sentence.length ∧
    (∀ withFragment, IsLocalAt Uri.SyntaxError.shift Uri.text (Uri.scan withFragment)
      (Uri.ofText withFragment) sentence 4 20) ∧
    (∀ request : Settings.Key → Setting,
      IsLocalAt Error.shift (fun link : Link => link.uri.text)
        (scan (Settings.ofRequest request)) (parse (Settings.ofRequest request)) sentence 4 20) ∧
    ∃ link behind, scan Settings.standard { units := sentence, position := 4, stop := 20 } =
        (.ok link, behind) ∧
      link.uri.text = "magnet:?xt=a:b@c".toList ∧ behind.position = 20 := by
  have inside : 20 ≤ sentence.length := by decide
  obtain ⟨rules, links⟩ := scan_local (by decide : 4 ≤ 20) inside
  refine ⟨by decide, inside, rules, links, ?_⟩
  let text := "magnet:?xt=a:b@c".toList
  let uri : Uri :=
    { scheme := "magnet".toList, authority := none, path := [], query := some "xt=a:b@c".toList
      fragment := none }
  -- What is read between the places is what is read of the whole text that stands there.
  have there : Cursor.onUnits (sentence.extract 4 20) = Cursor.whole text := by decide
  have parsed : Uri.parseAbsolute text = .ok uri := rfl
  have derives : uri.Derives := (Uri.parseAbsolute_eq_ok_iff.1 parsed).2.1
  have absolute : false = false → uri.fragment = none := fun _ => rfl
  have scanned : Uri.scan false (Cursor.whole text) = (.ok uri, (Cursor.whole text).moveBy 16) :=
    (Uri.scan_whole_text derives absolute).1
  obtain ⟨outcome, count, alone, within, _⟩ := links fun _ => .other
  rw [there, scan_eq, scanned] at alone
  obtain ⟨found, moved⟩ := Prod.mk.inj alone
  have far : (0 : Int) + 16 = 0 + count := congrArg Cursor.position moved
  have behind : (4 : Int) + count = 20 := by omega
  rw [← found] at within
  exact ⟨{ uri, plusAsSpace := true }, _, within, rfl, behind⟩

end Link
end MagnetUri

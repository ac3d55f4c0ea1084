import MagnetUri.Proofs.Link.Local
import MagnetUri.Proofs.Uri.Beginning

set_option autoImplicit false

/-! The longest identifier. No beginning of an input that is longer than what a scanner took from
it is an identifier of the grammar, also where the beginning ends between the halves of a pair. -/

namespace MagnetUri

open scoped Computability
open Text (Cursor Shows)

variable {withFragment : Bool} {text : Text} {units : List UInt16}

/-- The identifiers that a reader takes whole, with or without a fragment. -/
def Grammar.identifier (withFragment : Bool) : Language Char :=
  if withFragment then Grammar.uri else Grammar.absoluteUri

theorem Grammar.mem_identifier : text ∈ identifier withFragment ↔
    ∃ uri : Uri, uri.Derives ∧ (withFragment = false → uri.fragment = none) ∧ uri.text = text := by
  cases withFragment with
  | false =>
      rw [identifier, if_neg Bool.false_ne_true, mem_absoluteUri]
      simp
  | true =>
      rw [identifier, if_pos rfl, mem_uri]
      simp

namespace Uri

def Writes (withFragment : Bool) (units : List UInt16) : Prop :=
  ∃ text ∈ Grammar.identifier withFragment, Text.units text = units

def TakesAll (withFragment : Bool) (units : List UInt16) : Prop :=
  ∃ uri behind, scan withFragment (Cursor.onUnits units) = (.ok uri, behind) ∧ behind.atEnd = true

variable {uri other : Uri} {rest tail : Text} {behind : Cursor}

/-- What is read of a text is as long as any identifier that the text begins with: a longer one
would go on with the very character that the reader stopped at. -/
theorem length_le_of_read (found : read withFragment text = .ok (uri, rest))
    (derives : other.Derives) (absolute : withFragment = false → other.fragment = none)
    (joined : other.text ++ tail = text) : other.text.length ≤ uri.text.length := by
  obtain ⟨shape, uriDerives, uriAbsolute, ends⟩ := read_eq_ok_iff.1 found
  rw [← joined] at shape
  rcases List.append_eq_append_iff.1 shape with ⟨more, longer, left⟩ | ⟨more, shorter, _⟩
  · cases more with
    | nil => rw [longer, List.append_nil]
    | cons char others =>
        exfalso
        have stopped : uri.Ends withFragment (char :: others) := by
          intro first after same
          cases same
          exact ends char (others ++ tail) left
        have short := read_eq_ok_iff.2 ⟨longer.symm, uriDerives, uriAbsolute, stopped⟩
        have whole : read withFragment other.text = .ok (other, []) :=
          read_eq_ok_iff.2 ⟨List.append_nil other.text, derives, absolute, ends_nil⟩
        rw [whole] at short
        cases short
  · rw [shorter, List.length_append]
    omega

/-- A scanner that succeeds on all units does what the reader does with a text that they show. -/
theorem read_of_scan (shows_ : Shows units text)
    (scanned : scan withFragment (Cursor.onUnits units) = (.ok uri, behind)) :
    ∃ rest, read withFragment text = .ok (uri, rest) ∧
      behind = (Cursor.onUnits units).moveBy uri.text.length := by
  rw [Cursor.onUnits_eq] at scanned ⊢
  cases found : read withFragment text with
  | error error =>
      obtain ⟨reach, moves⟩ := exists_scan_of_failed found
      rw [moves [] units [] shows_] at scanned
      cases scanned
  | ok parts =>
      obtain ⟨same, rest⟩ := parts
      rw [scan_of_read shows_ found [] []] at scanned
      cases scanned
      exact ⟨rest, rfl, rfl⟩

theorem take_of_read (found : read withFragment (Text.ofUnits units) = .ok (uri, rest)) :
    uri.text.length ≤ units.length ∧ units.take uri.text.length = Text.units uri.text := by
  have extent : units.extract 0 units.length = units := by
    rw [List.extract_eq_take_drop, List.drop_zero, Nat.sub_zero, List.take_length]
  rw [← extent] at found
  have taken := extract_of_read (Nat.zero_le _) (Nat.le_refl _) found
  rw [List.extract_eq_take_drop, List.drop_zero, Nat.sub_zero, Nat.zero_add] at taken
  exact taken

theorem Derives.length_units (derives : uri.Derives) :
    (Text.units uri.text).length = uri.text.length :=
  Text.length_units_of_isAscii fun _ => derives.isAscii

theorem writes_of_read (found : read withFragment (Text.ofUnits units) = .ok (uri, rest)) :
    Writes withFragment (units.take uri.text.length) := by
  obtain ⟨_, derives, absolute, _⟩ := read_eq_ok_iff.1 found
  exact ⟨uri.text, Grammar.mem_identifier.2 ⟨uri, derives, absolute, rfl⟩,
    (take_of_read found).2.symm⟩

theorem not_writes_of_read (found : read withFragment (Text.ofUnits units) = .ok (uri, rest))
    {longer : Nat} (beyond : uri.text.length < longer) (within : longer ≤ units.length) :
    ¬Writes withFragment (units.take longer) := by
  intro writes
  obtain ⟨text, member, same⟩ := writes
  obtain ⟨other, derives, absolute, equal⟩ := Grammar.mem_identifier.1 member
  subst equal
  have joined : other.text ++ Text.ofUnits (units.drop longer) = Text.ofUnits units := by
    rw [← Text.ofUnits_units fun _ => derives.isAscii, same, Text.ofUnits, Text.ofUnits,
      ← List.map_append, List.take_append_drop]
    rfl
  have bounded := length_le_of_read found derives absolute joined
  rw [← derives.length_units, same, List.length_take_of_le within] at bounded
  omega

/-- Units are taken to the last exactly where they write an identifier. -/
theorem takesAll_iff_writes : TakesAll withFragment units ↔ Writes withFragment units := by
  constructor
  · intro takes
    obtain ⟨uri, behind, scanned, finished⟩ := takes
    obtain ⟨rest, found, moved⟩ := read_of_scan (Text.shows_ofUnits units) scanned
    have whole : uri.text.length = units.length := by
      rw [moved, Cursor.atEnd_iff, Cursor.moveBy, Cursor.onUnits] at finished
      have bounded := (take_of_read found).1
      dsimp only at finished
      omega
    have writes := writes_of_read found
    rwa [whole, List.take_length] at writes
  · intro writes
    obtain ⟨text, member, same⟩ := writes
    obtain ⟨uri, derives, absolute, equal⟩ := Grammar.mem_identifier.1 member
    subst equal same
    obtain ⟨scanned, finished⟩ := scan_whole_text derives absolute
    exact ⟨uri, _, scanned, finished⟩

/-- The units of a text are taken to the last exactly where the text is parsed. -/
theorem takesAll_units_iff :
    TakesAll withFragment (Text.units text) ↔ ∃ uri, ofText withFragment text = .ok uri := by
  constructor
  · intro takes
    obtain ⟨uri, behind, scanned, finished⟩ := takes
    obtain ⟨rest, found, moved⟩ := read_of_scan (Text.shows_units text) scanned
    rw [moved] at finished
    have whole : rest = [] := (atEnd_iff_of_read found).1 finished
    rw [whole] at found
    exact ⟨uri, by rw [ofText, found]⟩
  · intro parsed
    obtain ⟨uri, parsed⟩ := parsed
    obtain ⟨same, derives, absolute⟩ := ofText_eq_ok_iff.1 parsed
    obtain ⟨scanned, finished⟩ := scan_whole_text derives absolute
    rw [same] at scanned finished
    exact ⟨uri, _, scanned, finished⟩

structure Longest (withFragment : Bool) (units : List UInt16) (count : Nat) : Prop where
  within : count ≤ units.length
  writes : Writes withFragment (units.take count)
  taken : TakesAll withFragment (units.take count)
  beyond : ∀ longer, count < longer → longer ≤ units.length →
    ¬Writes withFragment (units.take longer) ∧ ¬TakesAll withFragment (units.take longer)

theorem longest_of_read (found : read withFragment (Text.ofUnits units) = .ok (uri, rest)) :
    Longest withFragment units uri.text.length where
  within := (take_of_read found).1
  writes := writes_of_read found
  taken := takesAll_iff_writes.2 (writes_of_read found)
  beyond := by
    intro longer more inside
    have unwritten := not_writes_of_read found more inside
    exact ⟨unwritten, fun takes => unwritten (takesAll_iff_writes.1 takes)⟩

theorem read_of_leftover {place : Int}
    (failed : ofText withFragment text = .error { fault := .leftover rest, position := place }) :
    ∃ uri, read withFragment text = .ok (uri, rest) ∧ place = Text.unitLength uri.text := by
  have faults := noLeftover_read withFragment text
  unfold ofText at failed
  split at failed
  next error stopped =>
    rw [stopped] at faults
    cases failed
    exact absurd rfl (faults rest)
  next => cases failed
  next uri left _ found =>
    cases failed
    refine ⟨uri, found, ?_⟩
    obtain ⟨joined, derives, _⟩ := read_eq_ok_iff.1 found
    rw [← joined, List.length_append, Nat.add_sub_cancel, derives.unitLength]

/-- What is scanned at the start of any units is the longest beginning that is an identifier. So
where a text goes on behind its identifier, what stands before that place is parsed, and no longer
beginning is. -/
theorem scan_takes_longest_identifier (withFragment : Bool) :
    (∀ units uri behind, scan withFragment (Cursor.onUnits units) = (.ok uri, behind) →
      ∃ count, behind = (Cursor.onUnits units).moveBy count ∧
        Longest withFragment units count) ∧
    ∀ text rest place,
      ofText withFragment text = .error { fault := .leftover rest, position := place } →
      ∃ front, text = front ++ rest ∧ place = Text.unitLength front ∧
        (∃ uri, ofText withFragment front = .ok uri) ∧
        (∀ longer behind, text = longer ++ behind →
          Text.unitLength front < Text.unitLength longer →
          ∃ error, ofText withFragment longer = .error error) ∧
        Longest withFragment (Text.units text) (Text.unitLength front) := by
  constructor
  · intro units uri behind scanned
    obtain ⟨rest, found, moved⟩ := read_of_scan (Text.shows_ofUnits units) scanned
    exact ⟨uri.text.length, moved, longest_of_read found⟩
  · intro text rest place failed
    obtain ⟨uri, found, position⟩ := read_of_leftover failed
    obtain ⟨joined, derives, absolute, _⟩ := read_eq_ok_iff.1 found
    have scanned := scan_of_read (Text.shows_units text) found [] []
    rw [← Cursor.onUnits_eq] at scanned
    obtain ⟨left, seen, _⟩ := read_of_scan (Text.shows_ofUnits (Text.units text)) scanned
    have longest := longest_of_read seen
    rw [← derives.unitLength] at longest
    have front := ofText_eq_ok_iff.2 ⟨rfl, derives, absolute⟩
    refine ⟨uri.text, joined.symm, position, ⟨uri, front⟩, ?_, longest⟩
    intro longer behind shape beyond
    have units : Text.units text = Text.units longer ++ Text.units behind := by
      rw [shape, Text.units_append]
    rw [← Text.length_units longer] at beyond
    have unparsed := (longest.beyond _ beyond (by rw [units, List.length_append]; omega)).2
    rw [units, List.take_left, takesAll_units_iff] at unparsed
    cases parsed : ofText withFragment longer with
    | error error => exact ⟨error, rfl⟩
    | ok other => exact absurd ⟨other, parsed⟩ unparsed

/-- A space ends an identifier, whatever stands behind it. -/
theorem longest_identifier_before_space :
    ofText true "a:b%41?c d".toList =
        .error { fault := .leftover " d".toList, position := 8 } ∧
      Longest true (Text.units "a:b%41?c d".toList) 8 := by
  have stops : ofText true "a:b%41?c d".toList =
      .error { fault := .leftover " d".toList, position := 8 } := rfl
  obtain ⟨front, _, position, _, _, longest⟩ :=
    (scan_takes_longest_identifier true).2 "a:b%41?c d".toList " d".toList 8 stops
  have length : Text.unitLength front = 8 := by omega
  exact ⟨stops, length ▸ longest⟩

end Uri
end MagnetUri

import MagnetUri.Proofs.Percent.Pieces
import MagnetUri.Proofs.Uri.Ascii

set_option autoImplicit false

/-! Broken escapes, and texts in which they are mended. The first broken escape of a text is
found behind any part of the text whose escapes are whole. A mended text has a letter for each
percent sign that begins no escape, and is otherwise the same. -/

namespace MagnetUri.Percent

open Character (IsAscii isHexDigit)
open Grammar (Run)

variable {text front rest : Text} {char mark high low : Char} {place : Nat}

/-- Whether what stands behind a percent sign makes it an escape. -/
def completesEscape : Text → Bool
  | high :: low :: _ => isHexDigit high && isHexDigit low
  | _ => false

/-- The text with the letter a for every percent sign that begins no escape. -/
def mend : Text → Text
  | [] => []
  | char :: rest => (if char = '%' ∧ completesEscape rest = false then 'a' else char) :: mend rest

theorem ne_percent_of_isHexDigit (digit : isHexDigit char = true) : char ≠ '%' := by
  intro percent
  rw [percent] at digit
  cases digit

theorem exists_digits_of_completesEscape (completes : completesEscape text = true) :
    ∃ high low rest, text = high :: low :: rest ∧ isHexDigit high = true ∧
      isHexDigit low = true := by
  unfold completesEscape at completes
  split at completes
  next high low rest =>
    rw [Bool.and_eq_true] at completes
    exact ⟨high, low, rest, rfl, completes.1, completes.2⟩
  next => cases completes

/-- A property of texts is shown for the characters outside escapes, for whole escapes, and for
percent signs that begin none. -/
@[elab_as_elim] theorem escapes_induction {motive : Text → Prop} (nil : motive [])
    (plain : ∀ char rest, char ≠ '%' → motive rest → motive (char :: rest))
    (escape : ∀ high low rest, isHexDigit high = true → isHexDigit low = true → motive rest →
      motive ('%' :: high :: low :: rest))
    (broken : ∀ rest, completesEscape rest = false → motive rest → motive ('%' :: rest))
    (text : Text) : motive text := by
  match text with
  | [] => exact nil
  | char :: rest =>
      have later := escapes_induction nil plain escape broken rest
      by_cases percent : char = '%'
      · subst percent
        cases completes : completesEscape rest with
        | false => exact broken rest completes later
        | true =>
            obtain ⟨high, low, more, same, first, second⟩ :=
              exists_digits_of_completesEscape completes
            subst same
            exact escape high low more first second
              (escapes_induction nil plain escape broken more)
      · exact plain char rest percent later
termination_by text.length
decreasing_by
  all_goals simp_all
  all_goals omega

theorem brokenEscape?_plain (plain : char ≠ '%') : brokenEscape? (char :: rest) =
    (brokenEscape? rest).map (· + Text.unitWidth char) := by
  have notEscape : ∀ high low after, char = '%' → rest = high :: low :: after → False :=
    fun _ _ _ percent => absurd percent plain
  unfold brokenEscape?
  cases later : readTokens rest with
  | ok tokens => simp only [readTokens, dif_pos plain, later, Option.map_none]
  | error place => simp only [readTokens, dif_pos plain, later, Option.map_some]

theorem brokenEscape?_escape (first : isHexDigit high = true) (second : isHexDigit low = true) :
    brokenEscape? ('%' :: high :: low :: rest) = (brokenEscape? rest).map (· + 3) := by
  unfold brokenEscape?
  rw [readTokens, dif_pos ⟨first, second⟩]
  cases readTokens rest <;> rfl

theorem brokenEscape?_broken (broken : completesEscape rest = false) :
    brokenEscape? ('%' :: rest) = some 0 := by
  have read : readTokens ('%' :: rest) = .error 0 := by
    match rest with
    | [] => rfl
    | [_] => rfl
    | high :: low :: more =>
        rw [completesEscape, Bool.and_eq_false_iff, ← Bool.not_eq_true,
          ← Bool.not_eq_true] at broken
        rw [readTokens, dif_neg]
        exact fun both => broken.elim (fun no => no both.1) fun no => no both.2
  rw [brokenEscape?, read]

theorem brokenEscape?_eq_none_iff : brokenEscape? text = none ↔ Readable text := by
  unfold brokenEscape? Readable
  simp only [← readTokens_eq_ok_iff]
  cases readTokens text with
  | ok tokens => exact ⟨fun _ => ⟨tokens, rfl⟩, fun _ => rfl⟩
  | error place =>
      constructor
      · intro impossible
        cases impossible
      · intro found
        obtain ⟨_, impossible⟩ := found
        cases impossible

theorem Readable.append (first : Readable front) (later : Readable rest) :
    Readable (front ++ rest) := by
  obtain ⟨left, leftWritten⟩ := first
  obtain ⟨right, rightWritten⟩ := later
  exact ⟨left ++ right, by rw [writeTokens_append, leftWritten, rightWritten]⟩

theorem unitWidth_of_isHexDigit (digit : isHexDigit char = true) : Text.unitWidth char = 1 := by
  have small : char.toNat < 0x80 := Character.isAscii_of_isHexDigit digit
  rw [Text.unitWidth, if_pos (by omega)]

theorem unitLength_escape (first : isHexDigit high = true) (second : isHexDigit low = true) :
    Text.unitLength ('%' :: high :: low :: rest) = Text.unitLength rest + 3 := by
  have percent : Text.unitWidth '%' = 1 := rfl
  simp only [Text.unitLength, percent, unitWidth_of_isHexDigit first,
    unitWidth_of_isHexDigit second]
  omega

theorem brokenEscape?_readable_append (readable : Readable front) (rest : Text) :
    brokenEscape? (front ++ rest) = (brokenEscape? rest).map (· + Text.unitLength front) := by
  obtain ⟨tokens, written⟩ := readable
  subst written
  induction tokens with
  | nil => simp [writeTokens, Text.unitLength]
  | cons token others ih =>
      rw [writeTokens_cons, List.append_assoc]
      cases token with
      | literal char plain =>
          change brokenEscape? (char :: (writeTokens others ++ rest)) = Option.map
            (· + Text.unitLength (char :: writeTokens others)) _
          rw [brokenEscape?_plain plain, ih, Option.map_map, Text.unitLength]
          congr 1
          funext place
          rw [Function.comp, Nat.add_assoc, Nat.add_comm (Text.unitWidth char)]
      | escape high low =>
          change brokenEscape? ('%' :: high.char :: low.char :: (writeTokens others ++ rest)) =
            Option.map (· + Text.unitLength ('%' :: high.char :: low.char :: writeTokens others)) _
          rw [brokenEscape?_escape high.valid low.valid, ih, Option.map_map,
            unitLength_escape high.valid low.valid]
          rfl

theorem brokenEscape?_lt (broken : brokenEscape? text = some place) :
    place < Text.unitLength text := by
  induction text using escapes_induction generalizing place with
  | nil => cases broken
  | plain char rest plain ih =>
      rw [brokenEscape?_plain plain] at broken
      obtain ⟨inner, found, same⟩ := Option.map_eq_some_iff.1 broken
      have less := ih found
      rw [Text.unitLength]
      omega
  | escape high low rest first second ih =>
      rw [brokenEscape?_escape first second] at broken
      obtain ⟨inner, found, same⟩ := Option.map_eq_some_iff.1 broken
      have less := ih found
      rw [unitLength_escape first second]
      omega
  | broken rest incomplete ih =>
      rw [brokenEscape?_broken incomplete] at broken
      cases broken
      rw [Text.unitLength, show Text.unitWidth '%' = 1 from rfl]
      omega

def Closes (rest : Text) : Prop :=
  ∀ char after, rest = char :: after → isHexDigit char = false

theorem closes_cons (separates : Separates mark) (after : Text) : Closes (mark :: after) := by
  intro char others same
  rw [← (List.cons.inj same).1]
  exact separates.2

/-- The rest behind the longest beginning in a class with all digits closes that beginning. -/
theorem closes_dropWhile {inClass : Char → Bool}
    (digits : ∀ char, isHexDigit char = true → inClass char = true) (text : Text) :
    Closes (text.dropWhile inClass) := by
  intro char after same
  have stopped := List.head?_dropWhile_not inClass text
  rw [same] at stopped
  have outside : inClass char = false := stopped
  rw [Bool.eq_false_iff]
  intro digit
  rw [digits char digit] at outside
  cases outside

theorem completesEscape_append (closes : Closes rest) (front : Text) :
    completesEscape (front ++ rest) = completesEscape front := by
  match front with
  | [] =>
      match rest, closes with
      | [], _ => rfl
      | [_], _ => rfl
      | first :: _ :: _, closes =>
          rw [List.nil_append, completesEscape, closes first _ rfl]
          rfl
  | [char] =>
      match rest, closes with
      | [], _ => rfl
      | first :: others, closes =>
          rw [List.singleton_append, completesEscape, closes first others rfl, Bool.and_false]
          rfl
  | _ :: _ :: _ => rfl

/-- A broken escape is broken whatever text closes it. -/
theorem brokenEscape?_append (closes : Closes rest) (broken : brokenEscape? front = some place) :
    brokenEscape? (front ++ rest) = some place := by
  induction front using escapes_induction generalizing place with
  | nil => cases broken
  | plain char others plain ih =>
      rw [brokenEscape?_plain plain] at broken
      obtain ⟨inner, found, same⟩ := Option.map_eq_some_iff.1 broken
      rw [List.cons_append, brokenEscape?_plain plain, ih found, Option.map_some, same]
  | escape high low others first second ih =>
      rw [brokenEscape?_escape first second] at broken
      obtain ⟨inner, found, same⟩ := Option.map_eq_some_iff.1 broken
      rw [List.cons_append, List.cons_append, List.cons_append, brokenEscape?_escape first second,
        ih found, Option.map_some, same]
  | broken others incomplete ih =>
      rw [brokenEscape?_broken incomplete] at broken
      rw [List.cons_append, brokenEscape?_broken, broken]
      rw [completesEscape_append closes, incomplete]

/-- What follows without a broken escape leaves it to the front. -/
theorem brokenEscape?_front (closes : Closes rest) (clean : brokenEscape? rest = none)
    (broken : brokenEscape? (front ++ rest) = some place) : brokenEscape? front = some place := by
  cases found : brokenEscape? front with
  | none =>
      have whole := (brokenEscape?_eq_none_iff.1 found).append (brokenEscape?_eq_none_iff.1 clean)
      rw [brokenEscape?_eq_none_iff.2 whole] at broken
      cases broken
  | some inner =>
      rw [brokenEscape?_append closes found] at broken
      rw [broken]

theorem mend_plain (plain : char ≠ '%') : mend (char :: rest) = char :: mend rest := by
  rw [mend, if_neg fun both => plain both.1]

theorem mend_escape (first : isHexDigit high = true) (second : isHexDigit low = true) :
    mend ('%' :: high :: low :: rest) = '%' :: high :: low :: mend rest := by
  have completes : completesEscape (high :: low :: rest) = true := by
    rw [completesEscape, first, second, Bool.and_self]
  rw [mend, if_neg fun both => Bool.false_ne_true (both.2.symm.trans completes),
    mend_plain (ne_percent_of_isHexDigit first), mend_plain (ne_percent_of_isHexDigit second)]

theorem mend_broken (broken : completesEscape rest = false) :
    mend ('%' :: rest) = 'a' :: mend rest := by
  rw [mend, if_pos ⟨rfl, broken⟩]

theorem mend_append (closes : Closes rest) (front : Text) :
    mend (front ++ rest) = mend front ++ mend rest := by
  induction front with
  | nil => rfl
  | cons char others ih =>
      rw [List.cons_append, mend, mend, ih, completesEscape_append closes]
      rfl

theorem mend_eq_self_iff : mend text = text ↔ brokenEscape? text = none := by
  induction text using escapes_induction with
  | nil => exact iff_of_true rfl rfl
  | plain char rest plain ih =>
      rw [mend_plain plain, brokenEscape?_plain plain, Option.map_eq_none_iff, ← ih,
        List.cons_inj_right]
  | escape high low rest first second ih =>
      rw [mend_escape first second, brokenEscape?_escape first second, Option.map_eq_none_iff,
        ← ih, List.cons_inj_right, List.cons_inj_right, List.cons_inj_right]
  | broken rest incomplete _ =>
      rw [mend_broken incomplete, brokenEscape?_broken incomplete]
      exact iff_of_false (fun same => absurd (List.cons.inj same).1 (by decide)) nofun

theorem mend_of_not_mem (absent : 'a' ∉ mend text) : mend text = text := by
  induction text with
  | nil => rfl
  | cons char rest ih =>
      rw [mend, List.mem_cons, not_or] at absent
      rw [mend, ih absent.2]
      split
      next broken => exact absurd (if_pos broken).symm absent.1
      next => rfl

theorem unitLength_mend (text : Text) : Text.unitLength (mend text) = Text.unitLength text := by
  induction text with
  | nil => rfl
  | cons char rest ih =>
      rw [mend, Text.unitLength, Text.unitLength, ih]
      split
      next broken =>
        rw [broken.1]
        rfl
      next => rfl

theorem mend_eq_nil_iff : mend text = [] ↔ text = [] := by
  cases text with
  | nil => exact iff_of_true rfl rfl
  | cons char rest => exact iff_of_false (List.cons_ne_nil _ _) (List.cons_ne_nil _ _)

/-- What a mended text begins with the text begins with, unless it is the letter. -/
theorem mend_eq_cons (other : mark ≠ 'a') (plain : mark ≠ '%') :
    mend text = mark :: rest ↔ ∃ after, text = mark :: after ∧ mend after = rest := by
  cases text with
  | nil => exact iff_of_false nofun fun found => by cases found.choose_spec.1
  | cons char others =>
      rw [mend]
      constructor
      · intro same
        obtain ⟨first, later⟩ := List.cons.inj same
        refine ⟨others, ?_, later⟩
        split at first
        next => exact absurd first.symm other
        next => rw [first]
      · intro found
        obtain ⟨after, same, later⟩ := found
        cases same
        rw [if_neg fun both => plain both.1, later]

theorem mem_mend_iff (other : mark ≠ 'a') (plain : mark ≠ '%') :
    mark ∈ mend text ↔ mark ∈ text := by
  induction text with
  | nil => rfl
  | cons char rest ih =>
      rw [mend, List.mem_cons, List.mem_cons, ih]
      split
      next broken =>
        rw [broken.1]
        exact or_congr_left (iff_of_false other plain)
      next => rfl

theorem Separates.ne_letter (separates : Separates mark) : mark ≠ 'a' := by
  intro same
  have digit := separates.2
  rw [same] at digit
  cases digit

/-- Where a mended text is cut at a mark, the text is cut at that mark. -/
theorem cut?_mend (separates : Separates mark) (text : Text) : Text.cut? mark (mend text) =
    (Text.cut? mark text).map fun parts => (mend parts.1, mend parts.2) := by
  have kept : ∀ text, mark ∈ mend text ↔ mark ∈ text :=
    fun _ => mem_mend_iff separates.ne_letter separates.1
  cases cut : Text.cut? mark text with
  | none =>
      rw [Option.map_none, Text.cut?_eq_none_iff, kept]
      exact Text.cut?_eq_none_iff.1 cut
  | some parts =>
      obtain ⟨before, after⟩ := parts
      have absent : mark ∉ mend before :=
        fun member => Text.not_mem_of_cut? cut ((kept before).1 member)
      rw [Text.eq_append_of_cut? cut, mend_append (closes_cons separates after),
        mend_plain separates.1, Text.cut?_append absent]
      rfl

/-- A class with percent signs and all digits of escapes begins a mended text where it begins
the text. -/
theorem takeWhile_mend {inClass : Char → Bool} (percent : inClass '%' = true)
    (digits : ∀ char, isHexDigit char = true → inClass char = true) (text : Text) :
    (mend text).takeWhile inClass = mend (text.takeWhile inClass) ∧
      (mend text).dropWhile inClass = mend (text.dropWhile inClass) := by
  induction text with
  | nil => exact ⟨rfl, rfl⟩
  | cons char rest ih =>
      have complete : completesEscape (rest.takeWhile inClass) = completesEscape rest := by
        have same := completesEscape_append (closes_dropWhile digits rest) (rest.takeWhile inClass)
        rw [List.takeWhile_append_dropWhile] at same
        exact same.symm
      by_cases inside : inClass char = true
      · have kept : inClass (if char = '%' ∧ completesEscape rest = false then 'a' else char) =
            true := by
          split
          next => exact digits 'a' rfl
          next => exact inside
        rw [mend, List.takeWhile_cons_of_pos kept, List.dropWhile_cons_of_pos kept, ih.1, ih.2,
          List.takeWhile_cons_of_pos inside, List.dropWhile_cons_of_pos inside, mend, complete]
        exact ⟨rfl, rfl⟩
      · have plain : char ≠ '%' := by
          intro same
          exact inside (same ▸ percent)
        rw [mend_plain plain, List.takeWhile_cons_of_neg inside, List.dropWhile_cons_of_neg inside,
          List.takeWhile_cons_of_neg inside, List.dropWhile_cons_of_neg inside, mend_plain plain]
        exact ⟨rfl, rfl⟩

end MagnetUri.Percent

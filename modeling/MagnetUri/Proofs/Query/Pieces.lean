import MagnetUri.Proofs.Percent.Mend
import MagnetUri.Proofs.Query
import MagnetUri.Proofs.Text.Window

set_option autoImplicit false

/-! Queries in pieces. A query has one division into keys and values that its ampersands and
first equals signs allow, and reading finds it. The marks neither break an escape nor mend one,
so the parameters in front of the first broken escape are read, and the piece with it is not. -/

namespace MagnetUri

open Percent (DecodeError Encoded Readable Separates brokenEscape?)

variable {mark : Char} {text key piece : Text} {value : Option Text} {plusAsSpace : Bool}
  {place : Nat}

namespace Percent

theorem Encoded.read_of_broken (broken : brokenEscape? text = some place) (plusAsSpace : Bool) :
    Encoded.read text plusAsSpace = .error { defect := .brokenEscape, encoded := text } := by
  unfold brokenEscape? at broken
  unfold Encoded.read
  cases found : readTokens text with
  | ok tokens =>
      rw [found] at broken
      cases broken
  | error place => rfl

/-- The first broken escape of joined parts stands in one of them, behind whole parts. -/
theorem exists_broken_part {parts : List Text} (separates : Separates mark)
    (broken : brokenEscape? (Text.join mark parts) = some place) :
    ∃ before part after inner, parts = before ++ part :: after ∧
      (∀ other ∈ before, Readable other) ∧ brokenEscape? part = some inner ∧
      place = Text.unitLength (before.flatMap fun other => other ++ [mark]) + inner := by
  induction parts generalizing place with
  | nil => cases broken
  | cons first others ih =>
      cases others with
      | nil => exact ⟨[], first, [], place, rfl, nofun, broken, (Nat.zero_add place).symm⟩
      | cons next others =>
          rw [Text.join] at broken
          cases found : brokenEscape? first with
          | some inner =>
              rw [brokenEscape?_append (closes_cons separates _) found] at broken
              refine ⟨[], first, next :: others, inner, rfl, nofun, found, ?_⟩
              rw [List.flatMap_nil, Text.unitLength, Nat.zero_add]
              exact (Option.some.inj broken).symm
          | none =>
              have whole := brokenEscape?_eq_none_iff.1 found
              rw [brokenEscape?_readable_append whole, brokenEscape?_plain separates.1,
                Option.map_map] at broken
              obtain ⟨behind, later, same⟩ := Option.map_eq_some_iff.1 broken
              obtain ⟨before, part, after, inner, split, clean, told, length⟩ := ih later
              refine ⟨first :: before, part, after, inner, by rw [split]; rfl, ?_, told, ?_⟩
              · exact List.forall_mem_cons.2 ⟨whole, clean⟩
              · rw [List.flatMap_cons, Text.unitLength_append, Text.unitLength_append, ← same,
                  Function.comp, length, Text.unitLength, Text.unitLength]
                omega

end Percent

namespace Param

/-- A piece as a key and, behind the first equals sign, a value. -/
def divide (piece : Text) : Text × Option Text :=
  match Text.cut? '=' piece with
  | none => (piece, none)
  | some (key, value) => (key, some value)

def unite (parts : Text × Option Text) : Text :=
  parts.1 ++ parts.2.elim [] ('=' :: ·)

def written (param : Param) : Text × Option Text :=
  (param.key.text, param.value?.map Encoded.text)

def sides (parts : Text × Option Text) : List Text :=
  parts.1 :: parts.2.toList

theorem unite_divide (piece : Text) : unite (divide piece) = piece := by
  unfold divide
  cases cut : Text.cut? '=' piece with
  | none => exact List.append_nil piece
  | some parts => exact (Text.eq_append_of_cut? cut).symm

theorem equals_not_mem_divide (piece : Text) : '=' ∉ (divide piece).1 := by
  unfold divide
  cases cut : Text.cut? '=' piece with
  | none => exact Text.cut?_eq_none_iff.1 cut
  | some parts => exact Text.not_mem_of_cut? cut

theorem divide_unite {parts : Text × Option Text} (absent : '=' ∉ parts.1) :
    divide (unite parts) = parts := by
  obtain ⟨key, value⟩ := parts
  cases value with
  | none =>
      have whole : unite (key, none) = key := List.append_nil key
      rw [whole, divide, Text.cut?_eq_none_iff.2 absent]
  | some value =>
      have cut := Text.cut?_append absent value
      rw [divide, unite, Option.elim_some, cut]

theorem mem_unite_iff {parts : Text × Option Text} (other : mark ≠ '=') :
    mark ∈ unite parts ↔ mark ∈ parts.1 ∨ ∃ value, parts.2 = some value ∧ mark ∈ value := by
  obtain ⟨key, value⟩ := parts
  cases value with
  | none => simp [unite]
  | some value => simp [unite, other]

theorem written_of_read {param : Param} (found : read plusAsSpace piece = .ok param) :
    param.written = divide piece := by
  unfold read at found
  unfold divide
  cases cut : Text.cut? '=' piece with
  | none =>
      simp only [cut] at found
      split at found
      next => cases found
      next key keyRead =>
        cases found
        exact Prod.ext (Encoded.text_of_read keyRead) rfl
  | some parts =>
      simp only [cut] at found
      split at found
      next => cases found
      next key keyRead =>
        split at found
        next => cases found
        next value valueRead =>
          cases found
          exact Prod.ext (Encoded.text_of_read keyRead)
            (congrArg some (Encoded.text_of_read valueRead))

/-- A piece with a broken escape is not read, and the first of its sides that has one is told. -/
theorem read_of_broken (broken : ¬ Readable piece) (plusAsSpace : Bool) :
    ∃ side, (sides (divide piece)).find? (fun side => (brokenEscape? side).isSome) = some side ∧
      read plusAsSpace piece = .error { defect := .brokenEscape, encoded := side } := by
  unfold read divide
  cases cut : Text.cut? '=' piece with
  | none =>
      rw [← Percent.brokenEscape?_eq_none_iff, ← ne_eq, Option.ne_none_iff_exists'] at broken
      obtain ⟨place, found⟩ := broken
      refine ⟨piece, ?_, ?_⟩
      · simp [sides, found]
      · simp only [Encoded.read_of_broken found]
  | some parts =>
      obtain ⟨key, value⟩ := parts
      cases keyFound : brokenEscape? key with
      | some place =>
          refine ⟨key, ?_, ?_⟩
          · simp [sides, keyFound]
          · simp only [Encoded.read_of_broken keyFound]
      | none =>
          have keyWhole := Percent.brokenEscape?_eq_none_iff.1 keyFound
          cases valueFound : brokenEscape? value with
          | some place =>
              obtain ⟨encoded, keyRead⟩ := Encoded.exists_read keyWhole plusAsSpace
              refine ⟨value, ?_, ?_⟩
              · simp [sides, keyFound, valueFound]
              · simp only [keyRead, Encoded.read_of_broken valueFound]
          | none =>
              -- With both sides whole, the piece would be whole.
              have valueWhole := Percent.brokenEscape?_eq_none_iff.1 valueFound
              have equals : Readable ['='] := ⟨[.literal '=' (by decide)], rfl⟩
              rw [Text.eq_append_of_cut? cut] at broken
              exact absurd (keyWhole.append (equals.append valueWhole)) broken

end Param

namespace Query

theorem untilFailure_map_ok {ε α : Type} (elements : List α) :
    untilFailure (elements.map (Except.ok (ε := ε))) = (elements, none) := by
  induction elements with
  | nil => rfl
  | cons element others ih => rw [List.map_cons, untilFailure, ih]

theorem untilFailure_append {ε α : Type} (elements : List α) (failure : ε)
    (rest : List (Except ε α)) :
    untilFailure (elements.map .ok ++ .error failure :: rest) = (elements, some failure) := by
  induction elements with
  | nil => rfl
  | cons element others ih => rw [List.map_cons, List.cons_append, untilFailure, ih]

/-- Keys and values that write a text with ampersands between the pairs and an equals sign in
front of each value, where no such mark can be taken for another. -/
structure Divides (text : Text) (divided : List (Text × Option Text)) : Prop where
  nonempty : divided ≠ []
  joined : Text.join '&' (divided.map Param.unite) = text
  key : ∀ parts ∈ divided, '&' ∉ parts.1 ∧ '=' ∉ parts.1
  value : ∀ parts ∈ divided, ∀ value, parts.2 = some value → '&' ∉ value

theorem divides_iff {divided : List (Text × Option Text)} :
    Divides text divided ↔ divided = (Text.separate '&' text).map Param.divide := by
  constructor
  · intro divides
    have absent : ∀ piece ∈ divided.map Param.unite, '&' ∉ piece := by
      intro piece member
      obtain ⟨parts, inside, same⟩ := List.mem_map.1 member
      rw [← same, Param.mem_unite_iff (by decide), not_or, not_exists]
      exact ⟨(divides.key parts inside).1,
        fun value both => divides.value parts inside value both.1 both.2⟩
    have nonempty : divided.map Param.unite ≠ [] :=
      fun empty => divides.nonempty (List.map_eq_nil_iff.1 empty)
    have back : ∀ parts ∈ divided, (Param.divide ∘ Param.unite) parts = id parts :=
      fun parts member => Param.divide_unite (divides.key parts member).2
    rw [Text.separate_eq_iff.2 ⟨nonempty, absent, divides.joined⟩, List.map_map,
      List.map_congr_left back, List.map_id]
  · intro same
    subst same
    have split {parts : Text × Option Text}
        (member : parts ∈ (Text.separate '&' text).map Param.divide) :
        ∃ piece, '&' ∉ piece ∧ Param.divide piece = parts := by
      obtain ⟨piece, inside, same⟩ := List.mem_map.1 member
      exact ⟨piece, Text.not_mem_of_mem_separate inside, same⟩
    refine ⟨?_, ?_, ?_, ?_⟩
    · intro empty
      exact Text.separate_ne_nil '&' text (List.map_eq_nil_iff.1 empty)
    · have whole : Param.unite ∘ Param.divide = id := funext Param.unite_divide
      rw [List.map_map, whole, List.map_id, Text.join_separate]
    · intro parts member
      obtain ⟨piece, absent, same⟩ := split member
      rw [← Param.unite_divide piece, same, Param.mem_unite_iff (by decide), not_or] at absent
      exact ⟨absent.1, same ▸ Param.equals_not_mem_divide piece⟩
    · intro parts member value found inside
      obtain ⟨piece, absent, same⟩ := split member
      rw [← Param.unite_divide piece, same, Param.mem_unite_iff (by decide), not_or] at absent
      exact absent.2 ⟨value, found, inside⟩

structure StandsIn (text : Text) (place : Nat) (before : List Text) (piece : Text) : Prop where
  split : ∃ after, Text.separate '&' text = before ++ piece :: after
  inside : ∃ inner, inner < Text.unitLength piece ∧
    place = Text.unitLength (before.flatMap fun other => other ++ ['&']) + inner

/-- Where all escapes are whole, reading finds the division. -/
theorem exists_params_of_whole (whole : brokenEscape? text = none) (plusAsSpace : Bool) :
    let query : Query := { text := some text, plusAsSpace }
    ∃ params, untilFailure query.params = (params, none) ∧
      params.map Param.written = (Text.separate '&' text).map Param.divide := by
  intro query
  obtain ⟨params, listed⟩ : ∃ params, query.Lists params := by
    apply exists_lists
    intro other same
    cases same
    exact Percent.brokenEscape?_eq_none_iff.1 whole
  refine ⟨params, ?_, ?_⟩
  · rw [listed, untilFailure_map_ok]
  · exact map_eq_of_map_ok (fun _ _ => Param.written_of_read) listed

/-- A broken escape ends reading at the piece it stands in. -/
theorem exists_params_of_broken (broken : brokenEscape? text = some place) (plusAsSpace : Bool) :
    let query : Query := { text := some text, plusAsSpace }
    ∃ before piece params side, StandsIn text place before piece ∧
      before.map (Param.read plusAsSpace) = params.map .ok ∧
      untilFailure query.params =
        (params, some { defect := .brokenEscape, encoded := side }) ∧
      (Param.sides (Param.divide piece)).find? (fun side => (brokenEscape? side).isSome) =
        some side := by
  intro query
  rw [← Text.join_separate '&' text] at broken
  obtain ⟨before, piece, after, inner, split, clean, found, same⟩ :=
    Percent.exists_broken_part ampersand_separates broken
  obtain ⟨params, read⟩ : ∃ params : List Param,
      before.map (Param.read plusAsSpace) = params.map .ok := by
    apply exists_map_ok
    intro other member
    exact Param.exists_read (clean other member) plusAsSpace
  have unreadable : ¬ Readable piece := by
    rw [← Percent.brokenEscape?_eq_none_iff, found]
    exact nofun
  obtain ⟨side, first, failed⟩ := Param.read_of_broken unreadable plusAsSpace
  refine ⟨before, piece, params, side, ⟨⟨after, split⟩, inner, ?_, same⟩, read, ?_, first⟩
  · exact Percent.brokenEscape?_lt found
  · have steps : query.params = (Text.separate '&' text).map (Param.read plusAsSpace) := rfl
    rw [steps, split, List.map_append, read, List.map_cons, failed, untilFailure_append]

/-- Reading a query goes on to its end where all escapes are whole, and up to the piece with the
first broken one otherwise. What is read to the end is the one division of the query. -/
theorem params_divide_query_up_to_broken_escape (text : Text) (plusAsSpace : Bool) :
    let query : Query := { text := some text, plusAsSpace }
    (brokenEscape? text = none → ∃ params, untilFailure query.params = (params, none) ∧
      params.length = query.size ∧ Divides text (params.map Param.written) ∧
      ∀ divided, Divides text divided → divided = params.map Param.written) ∧
    (∀ place, brokenEscape? text = some place → ∃ before piece params side,
      StandsIn text place before piece ∧
      before.map (Param.read plusAsSpace) = params.map .ok ∧
      untilFailure query.params =
        (params, some { defect := .brokenEscape, encoded := side }) ∧
      (Param.sides (Param.divide piece)).find? (fun side => (brokenEscape? side).isSome) =
        some side) ∧
    ((untilFailure query.params).2 = none ↔ brokenEscape? text = none) := by
  intro query
  refine ⟨?_, ?_, ?_⟩
  · intro whole
    obtain ⟨params, read, written⟩ := exists_params_of_whole whole plusAsSpace
    refine ⟨params, read, ?_, divides_iff.2 written, ?_⟩
    · rw [← List.length_map Param.written, written, List.length_map, Text.length_separate]
      rfl
    · intro divided divides
      rw [written, divides_iff.1 divides]
  · intro place broken
    exact exists_params_of_broken broken plusAsSpace
  · cases found : brokenEscape? text with
    | none =>
        obtain ⟨params, read, _⟩ := exists_params_of_whole found plusAsSpace
        exact iff_of_true (congrArg Prod.snd read) rfl
    | some place =>
        obtain ⟨_, _, _, _, _, _, read, _⟩ := exists_params_of_broken found plusAsSpace
        refine iff_of_false ?_ nofun
        rw [read]
        exact nofun

end Query
end MagnetUri

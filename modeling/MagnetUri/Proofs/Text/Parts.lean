import MagnetUri.Text

set_option autoImplicit false

/-! Cutting and joining undo each other. A cut is found where its mark stands first,
and the parts between marks are the only parts free of the mark whose join is the text. -/

namespace MagnetUri.Text

theorem cut?_eq_none_iff {mark : Char} {text : Text} : cut? mark text = none ↔ mark ∉ text := by
  induction text with
  | nil => simp [cut?]
  | cons char rest ih =>
      by_cases same : char = mark
      · simp [cut?, same]
      · rw [cut?, if_neg same, Option.map_eq_none_iff, ih, List.mem_cons, not_or]
        constructor
        · intro absent
          exact ⟨fun equal => same equal.symm, absent⟩
        · intro both
          exact both.2

theorem cut?_append {mark : Char} {before : Text} (absent : mark ∉ before) (after : Text) :
    cut? mark (before ++ mark :: after) = some (before, after) := by
  induction before with
  | nil => simp [cut?]
  | cons char rest ih =>
      rw [List.mem_cons, not_or] at absent
      have different : char ≠ mark := fun equal => absent.1 equal.symm
      rw [List.cons_append, cut?, if_neg different, ih absent.2, Option.map_some]

theorem not_mem_of_cut? {mark : Char} {text before after : Text}
    (found : cut? mark text = some (before, after)) : mark ∉ before := by
  induction text generalizing before with
  | nil => cases found
  | cons char rest ih =>
      by_cases same : char = mark
      · rw [cut?, if_pos same] at found
        cases found
        exact List.not_mem_nil
      · rw [cut?, if_neg same] at found
        obtain ⟨⟨first, second⟩, inner, equal⟩ := Option.map_eq_some_iff.1 found
        cases equal
        rw [List.mem_cons, not_or]
        exact ⟨fun equal => same equal.symm, ih inner⟩

theorem cutLast?_eq_none_iff {mark : Char} {text : Text} :
    cutLast? mark text = none ↔ mark ∉ text := by
  induction text with
  | nil => simp [cutLast?]
  | cons char rest ih =>
      rw [cutLast?, List.mem_cons, not_or]
      cases later : cutLast? mark rest with
      | none =>
          have absent := ih.1 later
          by_cases same : char = mark
          · simp [same]
          · simp only [same, if_false, true_iff]
            exact ⟨fun equal => same equal.symm, absent⟩
      | some parts =>
          constructor
          · intro impossible
            cases impossible
          · intro absent
            rw [ih.2 absent.2] at later
            cases later

theorem cutLast?_append {mark : Char} {after : Text} (absent : mark ∉ after) (before : Text) :
    cutLast? mark (before ++ mark :: after) = some (before, after) := by
  induction before with
  | nil => rw [List.nil_append, cutLast?, cutLast?_eq_none_iff.2 absent, if_pos rfl]
  | cons char rest ih => rw [List.cons_append, cutLast?, ih]

theorem eq_append_of_cutLast? {mark : Char} {text before after : Text}
    (found : cutLast? mark text = some (before, after)) : text = before ++ mark :: after := by
  induction text generalizing before with
  | nil => cases found
  | cons char rest ih =>
      rw [cutLast?] at found
      split at found
      next first last later =>
        cases found
        rw [ih later]
        rfl
      next =>
        split at found
        next same =>
          cases found
          rw [same]
          rfl
        next => cases found

theorem not_mem_of_cutLast? {mark : Char} {text before after : Text}
    (found : cutLast? mark text = some (before, after)) : mark ∉ after := by
  induction text generalizing before with
  | nil => cases found
  | cons char rest ih =>
      rw [cutLast?] at found
      split at found
      next first last later =>
        cases found
        exact ih later
      next absent =>
        split at found
        next =>
          cases found
          exact cutLast?_eq_none_iff.1 absent
        next => cases found

theorem separate_of_not_mem {mark : Char} {text : Text} (absent : mark ∉ text) :
    separate mark text = [text] := by
  induction text with
  | nil => rfl
  | cons char rest ih =>
      rw [List.mem_cons, not_or] at absent
      have different : char ≠ mark := fun equal => absent.1 equal.symm
      rw [separate, if_neg different, ih absent.2]

theorem separate_append {mark : Char} {part : Text} (absent : mark ∉ part) (rest : Text) :
    separate mark (part ++ mark :: rest) = part :: separate mark rest := by
  induction part with
  | nil => rw [List.nil_append, separate, if_pos rfl]
  | cons char after ih =>
      rw [List.mem_cons, not_or] at absent
      have different : char ≠ mark := fun equal => absent.1 equal.symm
      rw [List.cons_append, separate, if_neg different, ih absent.2]

theorem separate_join {mark : Char} {parts : List Text} (nonempty : parts ≠ [])
    (absent : ∀ part ∈ parts, mark ∉ part) : separate mark (join mark parts) = parts := by
  induction parts with
  | nil => exact absurd rfl nonempty
  | cons part others ih =>
      have first : mark ∉ part := absent part List.mem_cons_self
      cases others with
      | nil => exact separate_of_not_mem first
      | cons next others =>
          have later := ih (List.cons_ne_nil next others) fun other member =>
            absent other (List.mem_cons_of_mem part member)
          rw [join, separate_append first, later]

theorem not_mem_of_mem_separate {mark : Char} {text part : Text}
    (member : part ∈ separate mark text) : mark ∉ part := by
  induction text generalizing part with
  | nil =>
      rw [separate, List.mem_singleton] at member
      rw [member]
      exact List.not_mem_nil
  | cons char rest ih =>
      by_cases same : char = mark
      · rw [separate, if_pos same] at member
        rcases List.mem_cons.1 member with first | later
        · rw [first]
          exact List.not_mem_nil
        · exact ih later
      · rw [separate, if_neg same] at member
        have different : mark ≠ char := fun equal => same equal.symm
        cases found : separate mark rest with
        | nil => exact absurd found (separate_ne_nil mark rest)
        | cons next others =>
            rw [found] at member ih
            rcases List.mem_cons.1 member with first | later
            · rw [first, List.mem_cons, not_or]
              exact ⟨different, ih List.mem_cons_self⟩
            · exact ih (List.mem_cons_of_mem next later)

theorem length_separate (mark : Char) (text : Text) :
    (separate mark text).length = text.count mark + 1 := by
  induction text with
  | nil => rfl
  | cons char rest ih =>
      rw [separate]
      split
      next same => rw [List.length_cons, ih, same, List.count_cons_self]
      next other =>
        rw [List.count_cons_of_ne other]
        cases parts : separate mark rest with
        | nil => exact absurd parts (separate_ne_nil mark rest)
        | cons part others =>
            rw [parts] at ih
            exact ih

/-- The parts of a text are determined by having no mark and joining to the text. -/
theorem separate_eq_iff {mark : Char} {text : Text} {parts : List Text} :
    separate mark text = parts ↔
      parts ≠ [] ∧ (∀ part ∈ parts, mark ∉ part) ∧ join mark parts = text := by
  constructor
  · intro equal
    subst equal
    refine ⟨separate_ne_nil mark text, ?_, join_separate mark text⟩
    intro part member
    exact not_mem_of_mem_separate member
  · intro ⟨nonempty, absent, joined⟩
    rw [← joined, separate_join nonempty absent]

/-- Words are what is left between blanks when the empty parts are dropped. -/
def nonBlankParts (text : Text) : List Text :=
  (text.splitOnP isBlank).filter fun part => !part.isEmpty

theorem nonBlankParts_of_blank {char : Char} (blank : isBlank char = true) (rest : Text) :
    nonBlankParts (char :: rest) = nonBlankParts rest := by
  rw [nonBlankParts, List.splitOnP_cons_eq_if_modifyHead, if_pos blank]
  rfl

/-- A character that is no blank stands in front of the first part of the rest. -/
theorem splitOnP_of_solid {char : Char} {rest part : Text} {parts : List Text}
    (solid : ¬ isBlank char = true) (split : rest.splitOnP isBlank = part :: parts) :
    (char :: rest).splitOnP isBlank = (char :: part) :: parts := by
  rw [List.splitOnP_cons_eq_if_modifyHead, if_neg solid, split]
  rfl

theorem nonBlankParts_of_solid {char : Char} {rest part : Text} {parts : List Text}
    (solid : ¬ isBlank char = true) (split : rest.splitOnP isBlank = part :: parts) :
    nonBlankParts (char :: rest) = (char :: part) :: parts.filter fun part => !part.isEmpty := by
  rw [nonBlankParts, splitOnP_of_solid solid split]
  rfl

theorem words_eq_nonBlankParts (text : Text) : words text = nonBlankParts text := by
  fun_induction words text with
  | case1 => rfl
  | case2 char rest blank ih => rw [nonBlankParts_of_blank blank, ih]
  | case3 char solid => rw [nonBlankParts_of_solid solid List.splitOnP_nil]; rfl
  | case4 char solid next tail blank ih =>
      have split : (next :: tail).splitOnP isBlank = [] :: tail.splitOnP isBlank := by
        rw [List.splitOnP_cons_eq_if_modifyHead, if_pos blank]
      rw [ih, nonBlankParts_of_blank blank, nonBlankParts_of_solid solid split]
      rfl
  | case5 char solid next tail nextSolid none ih =>
      obtain ⟨part, parts, split⟩ :=
        List.exists_cons_of_ne_nil (List.splitOnP_ne_nil isBlank tail)
      rw [none, nonBlankParts_of_solid nextSolid split] at ih
      cases ih
  | case6 char solid next tail nextSolid word others found ih =>
      obtain ⟨part, parts, split⟩ :=
        List.exists_cons_of_ne_nil (List.splitOnP_ne_nil isBlank tail)
      rw [nonBlankParts_of_solid solid (splitOnP_of_solid nextSolid split)]
      rw [found, nonBlankParts_of_solid nextSolid split] at ih
      obtain ⟨first, later⟩ := List.cons.inj ih
      rw [found, first, later]

end MagnetUri.Text

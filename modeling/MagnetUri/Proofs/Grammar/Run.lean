import MagnetUri.Proofs.Grammar
import MagnetUri.Proofs.Uri.Beginning

set_option autoImplicit false

/-! Runs of escapes and characters of a class, and paths. A reader stops in front of the first
character that cannot go on the run, so it takes a run exactly where that character is at hand or
the text ends. By its first characters a run is one of the forms of path that the grammar keeps
apart. -/

namespace MagnetUri.Grammar

section Runs

open scoped Computability
open Uri (readRun isRun)

inductive Run (inClass : Char → Bool) : Text → Prop
  | nil : Run inClass []
  | plain {char : Char} {rest : Text} (member : inClass char = true)
      (later : Run inClass rest) : Run inClass (char :: rest)
  | escape {high low : Char} {rest : Text} (first : Character.isHexDigit high = true)
      (second : Character.isHexDigit low = true) (later : Run inClass rest) :
      Run inClass ('%' :: high :: low :: rest)

variable {inClass : Char → Bool} {text run rest : Text}

theorem mem_escape : text ∈ escape ↔
    ∃ high low, (Character.isHexDigit high = true ∧ Character.isHexDigit low = true) ∧
      text = ['%', high, low] := by
  rw [escape, hexDigit_eq]
  constructor
  · rintro ⟨_, ⟨_, rfl, _, ⟨high, first, rfl⟩, rfl⟩, _, ⟨low, second, rfl⟩, rfl⟩
    exact ⟨high, low, ⟨first, second⟩, rfl⟩
  · rintro ⟨high, low, ⟨first, second⟩, equal⟩
    exact ⟨['%', high], ⟨['%'], rfl, [high], ⟨high, first, rfl⟩, rfl⟩, [low], ⟨low, second, rfl⟩,
      equal.symm⟩

theorem mem_star_iff_run : text ∈ (single inClass + escape)∗ ↔ Run inClass text := by
  constructor
  · intro member
    refine star_induction .nil ?_ member
    rintro word (⟨char, passed, equal⟩ | escaped) rest _ later
    · rw [equal]
      exact .plain passed later
    · obtain ⟨high, low, both, equal⟩ := mem_escape.1 escaped
      rw [equal]
      exact .escape both.1 both.2 later
  · intro run
    induction run with
    | nil => exact Language.nil_mem_kstar _
    | plain member _ ih => exact cons_mem_star (Or.inl (single_mem_single.2 member)) ih
    | @escape high low rest first second _ ih =>
        exact cons_mem_star (Or.inr (mem_escape.2 ⟨high, low, ⟨first, second⟩, rfl⟩)) ih

theorem mem_userinfo : text ∈ userinfo ↔ Run Character.inUserinfo text := by
  have chars : unreserved + escape + subDelimiter + literal [':'] =
      single Character.inUserinfo + escape := by
    rw [← userinfoChar_eq, add_right_comm unreserved, add_right_comm (unreserved + subDelimiter)]
  rw [userinfo, chars, mem_star_iff_run]

theorem mem_registeredName : text ∈ registeredName ↔ Run Character.inRegisteredName text := by
  have chars : unreserved + escape + subDelimiter =
      single Character.inRegisteredName + escape := by
    rw [← registeredNameChar_eq, add_right_comm unreserved]
  rw [registeredName, chars, mem_star_iff_run]

def inSegment (char : Char) : Bool :=
  Character.inUserinfo char || char == '@'

theorem pathChar_eq : pathChar = single inSegment + escape := by
  have plain : unreserved + subDelimiter + anyOf [':', '@'] = single inSegment := by
    rw [anyOf_pair, ← add_assoc, userinfoChar_eq, literal_eq_single, single_add]
    rfl
  rw [pathChar, add_right_comm unreserved, add_right_comm (unreserved + subDelimiter), plain]

theorem mem_segment : text ∈ segment ↔ Run inSegment text := by
  rw [segment, pathChar_eq, mem_star_iff_run]

theorem mem_query : text ∈ query ↔ Run Character.inQuery text := by
  have chars : pathChar + anyOf ['/', '?'] = single Character.inQuery + escape := by
    rw [pathChar_eq, anyOf_pair, literal_eq_single, literal_eq_single, add_right_comm, ← add_assoc,
      single_add, single_add]
    rfl
  rw [query, chars, mem_star_iff_run]

theorem mem_fragment : text ∈ fragment ↔ Run Character.inFragment text :=
  mem_query

theorem Run.append (first : Run inClass run) (second : Run inClass rest) :
    Run inClass (run ++ rest) := by
  induction first with
  | nil => exact second
  | plain member _ ih => exact .plain member ih
  | escape high low _ ih => exact .escape high low ih

theorem Run.mono {wider : Char → Bool} (run : Run inClass text)
    (within : ∀ char, inClass char = true → wider char = true) : Run wider text := by
  induction run with
  | nil => exact .nil
  | plain member _ ih => exact .plain (within _ member) ih
  | escape high low _ ih => exact .escape high low ih

theorem run_of_all (all : text.all inClass = true) : Run inClass text := by
  induction text with
  | nil => exact .nil
  | cons char rest ih =>
      rw [List.all_cons, Bool.and_eq_true] at all
      exact .plain all.1 (ih all.2)

theorem Run.mem {char : Char} (run : Run inClass text) (member : char ∈ text) :
    inClass char = true ∨ char = '%' ∨ Character.isHexDigit char = true := by
  induction run with
  | nil => cases member
  | plain passed _ ih =>
      rcases List.mem_cons.1 member with same | later
      · exact Or.inl (same ▸ passed)
      · exact ih later
  | escape first second _ ih =>
      rcases List.mem_cons.1 member with percent | member
      · exact Or.inr (Or.inl percent)
      · rcases List.mem_cons.1 member with same | member
        · exact Or.inr (Or.inr (same ▸ first))
        · rcases List.mem_cons.1 member with same | later
          · exact Or.inr (Or.inr (same ▸ second))
          · exact ih later

theorem Run.not_mem {char : Char} (run : Run inClass text) (outside : inClass char = false)
    (plain : char ≠ '%') (noDigit : Character.isHexDigit char = false) : char ∉ text := by
  intro member
  rcases run.mem member with passed | percent | digit
  · exact Bool.false_ne_true (outside.symm.trans passed)
  · exact plain percent
  · exact Bool.false_ne_true (noDigit.symm.trans digit)

/-- A text that cannot go on a run. -/
def Halts (inClass : Char → Bool) (rest : Text) : Prop :=
  ∀ char after, rest = char :: after → inClass char = false ∧ char ≠ '%'

theorem halts_nil : Halts inClass [] := by
  intro char after impossible
  cases impossible

theorem run_of_readRun (found : readRun inClass text = .ok (run, rest)) :
    Run inClass run ∧ Halts inClass rest := by
  fun_induction readRun inClass text generalizing run rest with
  | case1 =>
      cases found
      exact ⟨.nil, halts_nil⟩
  | case2 high low after digits inner left read ih =>
      cases found
      rw [Bool.and_eq_true] at digits
      obtain ⟨later, halts⟩ := ih read
      exact ⟨.escape digits.1 digits.2 later, halts⟩
  | case3 => cases found
  | case4 => cases found
  | case5 => cases found
  | case6 char after _ plain member inner left read ih =>
      cases found
      obtain ⟨later, halts⟩ := ih read
      exact ⟨.plain member later, halts⟩
  | case7 => cases found
  | case8 char after _ plain outside =>
      cases found
      refine ⟨.nil, ?_⟩
      intro first others equal
      cases equal
      exact ⟨Bool.eq_false_iff.2 outside, plain⟩

theorem readRun_of_halts (halts : Halts inClass rest) : readRun inClass rest = .ok ([], rest) := by
  cases rest with
  | nil => rfl
  | cons char after =>
      obtain ⟨outside, plain⟩ := halts char after rfl
      rw [readRun]
      · rw [if_neg plain, if_neg (Bool.eq_false_iff.1 outside)]
      · intro high low others percent
        exact absurd percent plain

theorem readRun_append (plain : inClass '%' = false) (taken : Run inClass run)
    (halts : Halts inClass rest) : readRun inClass (run ++ rest) = .ok (run, rest) := by
  induction taken with
  | nil => exact readRun_of_halts halts
  | @plain char after member _ ih =>
      have other : char ≠ '%' := by
        intro percent
        rw [percent, plain] at member
        cases member
      rw [List.cons_append, readRun]
      · rw [if_neg other, if_pos member, ih]
      · intro high low others percent
        exact absurd percent other
  | escape first second _ ih =>
      rw [List.cons_append, List.cons_append, List.cons_append, readRun, first, second,
        Bool.and_self, if_pos rfl, ih]

theorem readRun_eq_ok_iff (plain : inClass '%' = false) :
    readRun inClass text = .ok (run, rest) ↔
      run ++ rest = text ∧ Run inClass run ∧ Halts inClass rest := by
  constructor
  · intro found
    exact ⟨Uri.append_of_readRun found, run_of_readRun found⟩
  · rintro ⟨joined, taken, halts⟩
    rw [← joined, readRun_append plain taken halts]

theorem isRun_iff (plain : inClass '%' = false) : isRun inClass text = true ↔ Run inClass text := by
  constructor
  · intro accepted
    unfold isRun at accepted
    split at accepted
    next run rest found =>
      rw [List.isEmpty_iff] at accepted
      have joined := Uri.append_of_readRun found
      rw [accepted, List.append_nil] at joined
      exact joined ▸ (run_of_readRun found).1
    next => cases accepted
  · intro taken
    have found := readRun_append plain taken halts_nil
    rw [List.append_nil] at found
    rw [isRun, found]
    rfl

end Runs

section Paths

open scoped Computability
open Character (inPath)

variable {text path : Text}

theorem inPath_of_inSegment {char : Char} (member : inSegment char = true) : inPath char = true :=
  Bool.or_eq_true_iff.2 (Or.inl member)

theorem inSegment_of_inPath {char : Char} (member : inPath char = true) (other : char ≠ '/') :
    inSegment char = true := by
  rcases Bool.or_eq_true_iff.1 member with inside | slash
  · exact inside
  · exact absurd (eq_of_beq slash) other

theorem run_of_segment (member : text ∈ segment) : Run inPath text :=
  (mem_segment.1 member).mono fun _ => inPath_of_inSegment

theorem slash_not_mem_of_segment (member : text ∈ segment) : '/' ∉ text :=
  (mem_segment.1 member).not_mem (by decide) (by decide) (by decide)

theorem mem_slash_segment : text ∈ literal ['/'] * segment ↔
    ∃ rest ∈ segment, text = '/' :: rest := by
  rw [mem_literal_mul]
  constructor
  · rintro ⟨rest, member, joined⟩
    exact ⟨rest, member, joined.symm⟩
  · rintro ⟨rest, member, equal⟩
    exact ⟨rest, member, equal.symm⟩

theorem run_of_pathAbempty (member : text ∈ pathAbempty) : Run inPath text := by
  refine star_induction .nil ?_ member
  intro word slashed rest _ later
  obtain ⟨inner, innerMember, equal⟩ := mem_slash_segment.1 slashed
  rw [equal]
  exact .plain (by decide) ((run_of_segment innerMember).append later)

theorem head_of_pathAbempty (member : text ∈ pathAbempty) :
    text = [] ∨ ∃ rest, text = '/' :: rest := by
  refine star_induction (Or.inl rfl) ?_ member
  intro word slashed rest _ _
  obtain ⟨inner, _, equal⟩ := mem_slash_segment.1 slashed
  exact Or.inr ⟨inner ++ rest, by rw [equal]; rfl⟩

/-- A run of path characters is a segment followed by segments behind slashes. -/
theorem exists_segment_append (run : Run inPath text) :
    ∃ first ∈ segment, ∃ later ∈ pathAbempty, text = first ++ later := by
  induction run with
  | nil => exact ⟨[], Language.nil_mem_kstar _, [], Language.nil_mem_kstar _, rfl⟩
  | @plain char rest member _ ih =>
      obtain ⟨first, firstMember, later, laterMember, joined⟩ := ih
      by_cases slash : char = '/'
      · have slashed : '/' :: first ∈ literal ['/'] * segment :=
          mem_slash_segment.2 ⟨first, firstMember, rfl⟩
        refine ⟨[], Language.nil_mem_kstar _, '/' :: first ++ later,
          cons_mem_star slashed laterMember, ?_⟩
        rw [slash, joined]
        rfl
      · have inside := Run.plain (inSegment_of_inPath member slash) (mem_segment.1 firstMember)
        exact ⟨char :: first, mem_segment.2 inside, later, laterMember, by rw [joined]; rfl⟩
  | @escape high low rest highDigit lowDigit _ ih =>
      obtain ⟨first, firstMember, later, laterMember, joined⟩ := ih
      have inside := Run.escape highDigit lowDigit (mem_segment.1 firstMember)
      exact ⟨_, mem_segment.2 inside, later, laterMember, by rw [joined]; rfl⟩

theorem mem_oneOrMore_of_segment (member : text ∈ segment) (nonempty : text ≠ []) :
    text ∈ oneOrMore pathChar := by
  obtain ⟨words, joined, members⟩ := member
  cases words with
  | nil => exact absurd joined nonempty
  | cons word words =>
      refine ⟨word, members word List.mem_cons_self, words.flatten, ⟨words, rfl, ?_⟩, joined.symm⟩
      intro item inner
      exact members item (List.mem_cons_of_mem word inner)

theorem segment_of_oneOrMore (member : text ∈ oneOrMore pathChar) : text ∈ segment := by
  obtain ⟨word, first, rest, later, joined⟩ := member
  rw [← joined]
  exact cons_mem_star first later

theorem ne_nil_of_oneOrMore (member : text ∈ oneOrMore pathChar) : text ≠ [] := by
  obtain ⟨word, first, rest, _, joined⟩ := member
  have nonempty : word ≠ [] := by
    rw [pathChar_eq] at first
    rcases first with ⟨char, _, equal⟩ | escaped
    · simp [equal]
    · obtain ⟨high, low, _, equal⟩ := mem_escape.1 escaped
      simp [equal]
  rw [← joined]
  intro impossible
  exact nonempty (List.append_eq_nil_iff.1 impossible).1

theorem mem_pathAbempty : path ∈ pathAbempty ↔
    Run inPath path ∧ (path = [] ∨ ∃ rest, path = '/' :: rest) := by
  constructor
  · intro member
    exact ⟨run_of_pathAbempty member, head_of_pathAbempty member⟩
  · rintro ⟨run, empty | ⟨rest, slashed⟩⟩
    · rw [empty]
      exact Language.nil_mem_kstar _
    · obtain ⟨first, firstMember, later, laterMember, joined⟩ := exists_segment_append run
      cases first with
      | nil => rwa [joined]
      | cons char others =>
          have slash : char = '/' := (List.cons.inj (joined.symm.trans slashed)).1
          exact absurd (slash ▸ List.mem_cons_self) (slash_not_mem_of_segment firstMember)

theorem mem_pathRootless : path ∈ pathRootless ↔
    Run inPath path ∧ path ≠ [] ∧ ∀ rest, path ≠ '/' :: rest := by
  constructor
  · rintro ⟨first, firstMember, later, laterMember, joined⟩
    have inSegment := segment_of_oneOrMore firstMember
    obtain ⟨char, others, equal⟩ := List.exists_cons_of_ne_nil (ne_nil_of_oneOrMore firstMember)
    subst equal joined
    refine ⟨(run_of_segment inSegment).append (run_of_pathAbempty laterMember),
      List.cons_ne_nil _ _, ?_⟩
    intro rest slashed
    have slash : char = '/' := (List.cons.inj slashed).1
    exact slash_not_mem_of_segment inSegment (slash ▸ List.mem_cons_self)
  · rintro ⟨run, nonempty, unslashed⟩
    obtain ⟨first, firstMember, later, laterMember, joined⟩ := exists_segment_append run
    have started : first ≠ [] := by
      intro empty
      rw [empty, List.nil_append] at joined
      rcases head_of_pathAbempty laterMember with none | ⟨rest, slashed⟩
      · exact nonempty (joined.trans none)
      · exact unslashed rest (joined.trans slashed)
    exact ⟨first, mem_oneOrMore_of_segment firstMember started, later, laterMember, joined.symm⟩

theorem mem_pathAbsolute : path ∈ pathAbsolute ↔
    ∃ rest, path = '/' :: rest ∧ Run inPath rest ∧ ∀ after, rest ≠ '/' :: after := by
  rw [pathAbsolute, mem_literal_mul]
  constructor
  · rintro ⟨rest, empty | rootless, joined⟩
    · have none : rest = [] := empty
      subst none
      exact ⟨[], joined.symm, .nil, fun _ impossible => by cases impossible⟩
    · obtain ⟨run, _, unslashed⟩ := mem_pathRootless.1 rootless
      exact ⟨rest, joined.symm, run, unslashed⟩
  · rintro ⟨rest, equal, run, unslashed⟩
    refine ⟨rest, ?_, equal.symm⟩
    by_cases empty : rest = []
    · exact Or.inl empty
    · exact Or.inr (mem_pathRootless.2 ⟨run, empty, unslashed⟩)

/-- Without an authority in front a path is any run that does not begin like one. -/
theorem mem_pathAlone : path ∈ pathAlone ↔
    Run inPath path ∧ ∀ rest, path ≠ '/' :: '/' :: rest := by
  rw [pathAlone, Language.mem_add, Language.mem_add, mem_pathAbsolute, mem_pathRootless]
  constructor
  · rintro ((⟨rest, equal, run, unslashed⟩ | ⟨run, _, unslashed⟩) | empty)
    · subst equal
      exact ⟨.plain (by decide) run, fun after slashed => unslashed after (List.cons.inj slashed).2⟩
    · exact ⟨run, fun rest => unslashed ('/' :: rest)⟩
    · have none : path = [] := empty
      rw [none]
      exact ⟨.nil, fun _ impossible => by cases impossible⟩
  · rintro ⟨run, unslashed⟩
    cases path with
    | nil => exact Or.inr rfl
    | cons char rest =>
        by_cases slash : char = '/'
        · subst slash
          refine Or.inl (Or.inl ⟨rest, rfl, ?_, fun after equal => unslashed after (by rw [equal])⟩)
          cases run with
          | plain _ later => exact later
        · refine Or.inl (Or.inr ⟨run, List.cons_ne_nil char rest, ?_⟩)
          intro after equal
          exact slash (List.cons.inj equal).1

end Paths

end MagnetUri.Grammar

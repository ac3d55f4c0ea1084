import MagnetUri.Proofs.InfoHash.Base32

set_option autoImplicit false

/-! Info hashes in letters of any kind. Hexadecimal is read from exactly forty digits: no other
text has a small form that is made of forty. Base32 is read from the capital form of a text, and
there are ten characters beyond ASCII whose capital form is made of the letters A to Z. A text
with one of these is read as if it had those letters instead. -/

namespace MagnetUri

namespace Character

variable {char : Char}

theorem isAscii_of_inBase32 (member : inBase32 char = true) : IsAscii char := by
  have bounds := inBase32_iff.1 member
  rw [IsAscii]
  omega

theorem isHexDigit_of_small (digit : isSmallHexDigit (small char) = true) :
    isHexDigit char = true := by
  obtain ⟨value, found, _⟩ := hexDigit_hexValue? digit
  rw [isHexDigit, ← hexValue?_small, found]
  rfl

theorem isSmallHexDigit_small (digit : isHexDigit char = true) :
    isSmallHexDigit (small char) = true := by
  have table : ∀ code < 128, isHexDigit (Char.ofNat code) = true →
      isSmallHexDigit (small (Char.ofNat code)) = true := by
    decide +kernel
  have entry := table char.toNat (isAscii_of_isHexDigit digit)
  rw [Char.ofNat_toNat] at entry
  exact entry digit

theorem small_small (char : Char) : small (small char) = small char :=
  read_small (by decide) char

end Character

open Character (IsAscii small isHexDigit isSmallHexDigit inBase32 isAscii_of_inBase32
  isHexDigit_of_small isSmallHexDigit_small)

theorem Text.sameUpToCase_small (text : Text) : SameUpToCase text (text.map small) := by
  rw [SameUpToCase, List.map_map]
  exact congrArg text.map (funext fun char => (Character.small_small char).symm)

namespace Text

variable {text : Text} {char : Char} {form : Text}

/-- The characters beyond ASCII whose capital form is made of the letters A to Z, each with that
form: the sharp s, the dotless i, the long s and the Latin ligatures. -/
def letterForms : List (Char × Text) :=
  [('ß', ['S', 'S']), ('ı', ['I']), ('ſ', ['S']), ('\uFB00', ['F', 'F']), ('\uFB01', ['F', 'I']),
    ('\uFB02', ['F', 'L']), ('\uFB03', ['F', 'F', 'I']), ('\uFB04', ['F', 'F', 'L']),
    ('\uFB05', ['S', 'T']), ('\uFB06', ['S', 'T'])]

def letterForm? (char : Char) : Option Text :=
  letterForms.lookup char

/-- A text with capital letters in place of the characters beyond ASCII that stand for them. -/
def spelledOut (text : Text) : Text :=
  text.flatMap fun char => (letterForm? char).getD [char]

theorem letterForms_table : ∀ entry ∈ letterForms, ¬ IsAscii entry.1 ∧
    capital entry.1 = entry.2 ∧ capitals entry.2 = entry.2 ∧
      entry.2.all (fun letter => decide (IsAscii letter)) = true := by
  decide

theorem mem_letterForms (found : letterForm? char = some form) : (char, form) ∈ letterForms := by
  obtain ⟨before, after, split, _⟩ := List.lookup_eq_some_iff.1 found
  rw [split]
  exact List.mem_append_cons_self

theorem isAscii_of_letterForm? (found : letterForm? char = some form) :
    ∀ letter ∈ form, IsAscii letter := by
  intro letter member
  obtain ⟨_, _, _, ascii⟩ := letterForms_table _ (mem_letterForms found)
  exact decide_eq_true_iff.1 (List.all_eq_true.1 ascii letter member)

theorem letterForm?_of_isAscii (ascii : IsAscii char) : letterForm? char = none := by
  apply Option.eq_none_iff_forall_ne_some.2
  intro form found
  exact (letterForms_table _ (mem_letterForms found)).1 ascii

theorem capital_of_plain (plain : letterForm? char = none) :
    IsAscii char ∨ capital char = [char] := by
  have other (code : Nat) (listed : letterForm? (Char.ofNat code) ≠ none) :
      char.toNat ≠ code := by
    intro same
    rw [← same, Char.ofNat_toNat] at listed
    exact listed plain
  unfold capital
  split
  next letter =>
    rw [Bool.and_eq_true, decide_eq_true_iff, decide_eq_true_iff] at letter
    exact Or.inl (Character.isAscii_of_le letter.2 (by decide))
  next =>
    right
    -- Every code with a capital form of its own is in the table.
    split
    all_goals first | rfl | exact absurd ‹char.toNat = _› (other _ (by decide))

theorem capitals_spelledOut (text : Text) : capitals (spelledOut text) = capitals text := by
  have same (char : Char) : capitals ((letterForm? char).getD [char]) = capital char := by
    cases found : letterForm? char with
    | none => exact List.flatMap_singleton _ _
    | some form =>
        obtain ⟨_, upper, fixed, _⟩ := letterForms_table _ (mem_letterForms found)
        exact fixed.trans upper.symm
  rw [capitals, spelledOut, List.flatMap_assoc]
  exact congrArg text.flatMap (funext same)

theorem spelledOut_of_plain (plain : ∀ char ∈ text, letterForm? char = none) :
    spelledOut text = text := by
  have same : ∀ char ∈ text, (letterForm? char).getD [char] = [char] := by
    intro char member
    rw [plain char member]
    rfl
  rw [spelledOut, List.flatMap_congr same, List.flatMap_singleton']

/-- The small form of a character as far as it has ASCII in it. Besides the letters A to Z, the
capital I with a dot and the sign of the kelvin have such a form; any other character stands for
itself. -/
def smallForm (char : Char) : Text :=
  if 'A' ≤ char && char ≤ 'Z' then [small char]
  else
    match char.toNat with
    | 0x0130 => ['i', '\u0307']
    | 0x212A => ['k']
    | _ => [char]

def smallForms (text : Text) : Text :=
  text.flatMap smallForm

theorem smallForm_of_isHexDigit (digit : isHexDigit char = true) : smallForm char = [small char] := by
  have ascii : char.toNat < 0x80 := Character.isAscii_of_isHexDigit digit
  unfold smallForm small
  split
  next => rfl
  next =>
    split
    all_goals first | rfl | omega

/-- A character has the small form that is its own among the letters A to Z, or one with a
character that is no hexadecimal digit. -/
theorem smallForm_cases (char : Char) : smallForm char = [small char] ∨
    ∃ lower ∈ smallForm char, isSmallHexDigit lower = false := by
  unfold smallForm small
  split
  next => exact Or.inl rfl
  next =>
    split
    next => exact Or.inr ⟨'i', List.mem_cons_self, by decide⟩
    next => exact Or.inr ⟨'k', List.mem_cons_self, by decide⟩
    next => exact Or.inl rfl

theorem isHexDigit_of_smallForm
    (digits : ∀ lower ∈ smallForm char, isSmallHexDigit lower = true) : isHexDigit char = true := by
  rcases smallForm_cases char with single | ⟨lower, inside, other⟩
  · apply isHexDigit_of_small
    apply digits
    rw [single]
    exact List.mem_singleton_self _
  · rw [digits lower inside] at other
    cases other

theorem smallForms_of_digits (digits : ∀ char ∈ text, isHexDigit char = true) :
    smallForms text = text.map small := by
  have same : ∀ char ∈ text, smallForm char = [small char] := by
    intro char member
    exact smallForm_of_isHexDigit (digits char member)
  rw [smallForms, List.flatMap_congr same, List.map_eq_flatMap]

end Text

namespace Base32

variable {text : Text}

theorem isSome_of_mapM {values : List Nat} (read : text.mapM value? = some values) :
    ∀ char ∈ text, (value? char).isSome = true := by
  induction text generalizing values with
  | nil => exact nofun
  | cons char rest ih =>
      rw [List.mapM_cons] at read
      obtain ⟨value, first, read⟩ := Option.bind_eq_some_iff.1 read
      obtain ⟨others, later, _⟩ := Option.bind_eq_some_iff.1 read
      rw [List.forall_mem_cons, first]
      exact ⟨rfl, ih later⟩

/-- A text whose capital form has only characters of base32 is within ASCII when it is spelled
out. -/
theorem isAscii_of_mapM_capitals {values : List Nat}
    (read : (Text.capitals text).mapM value? = some values) :
    ∀ char ∈ Text.spelledOut text, IsAscii char := by
  intro char member
  obtain ⟨source, inside, given⟩ := List.mem_flatMap.1 member
  cases found : Text.letterForm? source with
  | some form =>
      rw [found] at given
      exact Text.isAscii_of_letterForm? found char given
  | none =>
      rw [found] at given
      have same : char = source := List.mem_singleton.1 given
      subst same
      rcases Text.capital_of_plain found with ascii | fixed
      · exact ascii
      · have upper : char ∈ Text.capitals text := by
          apply List.mem_flatMap.2
          exact ⟨char, inside, fixed ▸ List.mem_singleton_self char⟩
        have bounds := value?_isSome_iff.1 (isSome_of_mapM read char upper)
        rw [IsAscii]
        omega

end Base32

namespace InfoHash

variable {text : Text} {hash : InfoHash}

def IsBase32 (text : Text) : Prop :=
  text.length = 32 ∧ ∀ char ∈ text, inBase32 char = true

theorem ofBase32_eq_ok_iff : ofBase32 text = .ok hash ↔
    ∃ values, (Text.capitals text).mapM Base32.value? = some values ∧ values.length = 32 ∧
      hash.bytes = Base32.unpack values := by
  unfold ofBase32
  constructor
  · intro read
    split at read
    next values found =>
      split at read
      next full =>
        unfold ofBytes at read
        split at read
        next =>
          cases read
          exact ⟨values, found, full, rfl⟩
        next => cases read
      next => cases read
    next => cases read
  · intro shape
    obtain ⟨values, found, full, same⟩ := shape
    rw [found]
    dsimp only
    rw [if_pos full, ← same]
    exact dif_pos hash.complete

theorem ofBase32_spelledOut :
    ofBase32 (Text.spelledOut text) = .ok hash ↔ ofBase32 text = .ok hash := by
  rw [ofBase32_eq_ok_iff, ofBase32_eq_ok_iff, Text.capitals_spelledOut]

theorem exists_ofBase32_iff_spelledOut :
    (∃ hash, ofBase32 text = .ok hash) ↔ IsBase32 (Text.spelledOut text) := by
  constructor
  · intro found
    obtain ⟨hash, read⟩ := found
    obtain ⟨values, valued, _⟩ := ofBase32_eq_ok_iff.1 read
    have ascii := Base32.isAscii_of_mapM_capitals valued
    exact (exists_ofBase32_iff ascii).1 ⟨hash, ofBase32_spelledOut.2 read⟩
  · intro shape
    have ascii : ∀ char ∈ Text.spelledOut text, IsAscii char := fun char member =>
      isAscii_of_inBase32 (shape.2 char member)
    obtain ⟨hash, read⟩ := (exists_ofBase32_iff ascii).2 shape
    exact ⟨hash, ofBase32_spelledOut.1 read⟩

/-- A text is spelled out to base32 if it is base32, or if it has a character beyond ASCII and
becomes base32 with the letters in its place. -/
theorem isBase32_spelledOut_iff : IsBase32 (Text.spelledOut text) ↔
    IsBase32 text ∨ (∃ char ∈ text, (Text.letterForm? char).isSome = true) ∧
      IsBase32 (Text.spelledOut text) := by
  constructor
  · intro shape
    by_cases present : ∃ char ∈ text, (Text.letterForm? char).isSome = true
    · exact Or.inr ⟨present, shape⟩
    · have plain : ∀ char ∈ text, Text.letterForm? char = none := by
        intro char member
        rw [← Option.not_isSome_iff_eq_none]
        exact fun listed => present ⟨char, member, listed⟩
      rw [Text.spelledOut_of_plain plain] at shape
      exact Or.inl shape
  · intro either
    rcases either with shape | ⟨_, shape⟩
    · have plain : ∀ char ∈ text, Text.letterForm? char = none := fun char member =>
        Text.letterForm?_of_isAscii (isAscii_of_inBase32 (shape.2 char member))
      rw [Text.spelledOut_of_plain plain]
      exact shape
    · exact shape

/-- What is not read as base32 is refused as it stands. -/
theorem ofBase32_cases (text : Text) :
    (∃ hash, ofBase32 text = .ok hash) ∨ ofBase32 text = .error (.base32 text) := by
  unfold ofBase32
  split
  next values found =>
    split
    next full =>
      have complete : (Base32.unpack values).length = 20 := by rw [Base32.length_unpack, full]
      exact Or.inl ⟨⟨_, complete⟩, dif_pos complete⟩
    next => exact Or.inr rfl
  next => exact Or.inr rfl

/-- The hash that is read from hexadecimal is written with the small form of the text, and only
a text with such a form is read. -/
theorem ofHex_eq_ok_iff : ofHex text = .ok hash ↔ hash.toHex = Text.smallForms text := by
  constructor
  · intro read
    obtain ⟨length, digits⟩ := exists_ofHex_iff.1 ⟨hash, read⟩
    have even : (text.map small).length = 2 * 20 := by rw [List.length_map, length]
    have lowered : ∀ char ∈ text.map small, isSmallHexDigit char = true := by
      intro char member
      obtain ⟨source, inside, same⟩ := List.mem_map.1 member
      exact same ▸ isSmallHexDigit_small (digits source inside)
    obtain ⟨bytes, _, complete, written⟩ := pairBytes?_of_digits even lowered
    have twin : toHex { bytes, complete } = text.map small := written
    have again : ofHex text = .ok { bytes, complete } :=
      ofHex_of_sameUpToCase (twin ▸ Text.sameUpToCase_small text)
    rw [read] at again
    cases again
    rw [twin, Text.smallForms_of_digits digits]
  · intro written
    have digits : ∀ char ∈ text, isHexDigit char = true := by
      intro char member
      apply Text.isHexDigit_of_smallForm
      intro lower inside
      apply (isHex_toHex hash).digits
      rw [written]
      exact List.mem_flatMap.2 ⟨char, member, inside⟩
    apply ofHex_of_sameUpToCase
    rw [written, Text.smallForms_of_digits digits]
    exact Text.sameUpToCase_small text

theorem ofHex_cases (text : Text) :
    (∃ hash, ofHex text = .ok hash) ∨ ofHex text = .error (.hex text) := by
  unfold ofHex
  split
  next =>
    split
    next complete => exact Or.inl ⟨_, rfl⟩
    next => exact Or.inr rfl
  next => exact Or.inr rfl

/-- A text is read as hexadecimal exactly where it is forty hexadecimal digits, and as its small
form. It is read as base32 where it is thirty-two characters of base32, and besides where it has
characters beyond ASCII that stand for letters and is such a text with the letters in their place;
then it is read as that text. Every other text is refused. -/
theorem forms_told_unless_spelled_out (text : Text) :
    ((∃ hash, ofHex text = .ok hash) ↔
      text.length = 40 ∧ ∀ char ∈ text, isHexDigit char = true) ∧
    (∀ hash, ofHex text = .ok hash ↔ hash.toHex = Text.smallForms text) ∧
    ((∃ hash, ofHex text = .ok hash) ∨ ofHex text = .error (.hex text)) ∧
    ((∃ hash, ofBase32 text = .ok hash) ↔
      IsBase32 text ∨ (∃ char ∈ text, (Text.letterForm? char).isSome = true) ∧
        IsBase32 (Text.spelledOut text)) ∧
    (∀ hash, ofBase32 (Text.spelledOut text) = .ok hash ↔ ofBase32 text = .ok hash) ∧
    ((∃ hash, ofBase32 text = .ok hash) ∨ ofBase32 text = .error (.base32 text)) :=
  ⟨exists_ofHex_iff, fun _ => ofHex_eq_ok_iff, ofHex_cases text,
    exists_ofBase32_iff_spelledOut.trans isBase32_spelledOut_iff, fun _ => ofBase32_spelledOut,
    ofBase32_cases text⟩

/-- Sixteen times the sharp s is read as thirty-two times the letter S. -/
theorem sharp_s_read_as_base32 :
    let text : Text := List.replicate 16 'ß'
    (∃ hash, ofBase32 text = .ok hash ∧
      hash.toHex = "94a5294a5294a5294a5294a5294a5294a5294a52".toList) ∧
    ¬ IsBase32 text := by
  intro text
  have read : (ofBase32 text).toOption.map toHex =
      some "94a5294a5294a5294a5294a5294a5294a5294a52".toList := by
    decide +kernel
  obtain ⟨hash, found, written⟩ := Option.map_eq_some_iff.1 read
  refine ⟨⟨hash, ?_, written⟩, fun shape => absurd shape.1 (by decide)⟩
  cases outcome : ofBase32 text with
  | ok other =>
      rw [outcome] at found
      exact congrArg Except.ok (Option.some.inj found)
  | error =>
      rw [outcome] at found
      cases found

end InfoHash
end MagnetUri

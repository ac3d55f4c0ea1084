import MagnetUri.Text
import Mathlib.Computability.Language

set_option autoImplicit false

/-! The productions of the generic URI grammar (RFC 3986), each as the language of the
texts that derive from it: a sum is a choice, a product a sequence, and a star any number
of repetitions. No reader stands behind a production; readers are compared with them. -/

namespace MagnetUri.Grammar

section Productions

open scoped Computability

def literal (word : Text) : Language Char :=
  {text | text = word}

def anyOf (chars : List Char) : Language Char :=
  {text | ∃ char ∈ chars, text = [char]}

def between (least greatest : Char) : Language Char :=
  {text | ∃ char, (least ≤ char ∧ char ≤ greatest) ∧ text = [char]}

def optional (language : Language Char) : Language Char :=
  1 + language

def oneOrMore (language : Language Char) : Language Char :=
  language * language∗

def upTo (count : Nat) (language : Language Char) : Language Char :=
  optional language ^ count

def letter : Language Char := between 'a' 'z' + between 'A' 'Z'

def digit : Language Char := between '0' '9'

def hexDigit : Language Char := digit + between 'a' 'f' + between 'A' 'F'

def unreserved : Language Char := letter + digit + anyOf ['-', '.', '_', '~']

def subDelimiter : Language Char :=
  anyOf ['!', '$', '&', '\x27', '(', ')', '*', '+', ',', ';', '=']

def escape : Language Char := literal ['%'] * hexDigit * hexDigit

def pathChar : Language Char := unreserved + escape + subDelimiter + anyOf [':', '@']

def octet : Language Char :=
  digit +
    between '1' '9' * digit +
    literal ['1'] * digit ^ 2 +
    literal ['2'] * between '0' '4' * digit +
    literal ['2', '5'] * between '0' '5'

def ipv4Address : Language Char :=
  octet * literal ['.'] * octet * literal ['.'] * octet * literal ['.'] * octet

def group : Language Char := hexDigit * upTo 3 hexDigit

def ledGroup : Language Char := group * literal [':']

/-- The last 32 bits of an address of version six. -/
def lastWord : Language Char := group * literal [':'] * group + ipv4Address

def gap : Language Char := literal [':', ':']

def ipv6Address : Language Char :=
  ledGroup ^ 6 * lastWord +
    gap * ledGroup ^ 5 * lastWord +
    optional group * gap * ledGroup ^ 4 * lastWord +
    optional (upTo 1 ledGroup * group) * gap * ledGroup ^ 3 * lastWord +
    optional (upTo 2 ledGroup * group) * gap * ledGroup ^ 2 * lastWord +
    optional (upTo 3 ledGroup * group) * gap * ledGroup * lastWord +
    optional (upTo 4 ledGroup * group) * gap * lastWord +
    optional (upTo 5 ledGroup * group) * gap * group +
    optional (upTo 6 ledGroup * group) * gap

def ipvFuture : Language Char :=
  anyOf ['v', 'V'] * oneOrMore hexDigit * literal ['.'] *
    oneOrMore (unreserved + subDelimiter + literal [':'])

def scheme : Language Char := letter * (letter + digit + anyOf ['+', '-', '.'])∗

def userinfo : Language Char := (unreserved + escape + subDelimiter + literal [':'])∗

def ipLiteral : Language Char := literal ['['] * (ipv6Address + ipvFuture) * literal [']']

def registeredName : Language Char := (unreserved + escape + subDelimiter)∗

def host : Language Char := ipLiteral + ipv4Address + registeredName

def port : Language Char := digit∗

def authority : Language Char :=
  optional (userinfo * literal ['@']) * host * optional (literal [':'] * port)

def segment : Language Char := pathChar∗

def pathAbempty : Language Char := (literal ['/'] * segment)∗

def pathAbsolute : Language Char :=
  literal ['/'] * optional (oneOrMore pathChar * pathAbempty)

def pathRootless : Language Char := oneOrMore pathChar * pathAbempty

def pathEmpty : Language Char := 1

def pathAlone : Language Char := pathAbsolute + pathRootless + pathEmpty

def query : Language Char := (pathChar + anyOf ['/', '?'])∗

def fragment : Language Char := (pathChar + anyOf ['/', '?'])∗

def hierPart : Language Char :=
  literal ['/', '/'] * authority * pathAbempty + pathAlone

def absoluteUri : Language Char :=
  scheme * literal [':'] * hierPart * optional (literal ['?'] * query)

def uri : Language Char := absoluteUri * optional (literal ['#'] * fragment)

variable {text word : Text} {language left right : Language Char}

@[simp] theorem mem_literal : text ∈ literal word ↔ text = word := Iff.rfl

@[simp] theorem mem_anyOf {chars : List Char} :
    text ∈ anyOf chars ↔ ∃ char ∈ chars, text = [char] := Iff.rfl

@[simp] theorem mem_between {least greatest : Char} :
    text ∈ between least greatest ↔ ∃ char, (least ≤ char ∧ char ≤ greatest) ∧ text = [char] :=
  Iff.rfl

theorem mem_optional : text ∈ optional language ↔ text = [] ∨ text ∈ language := Iff.rfl

theorem mem_literal_mul : text ∈ literal word * right ↔ ∃ rest ∈ right, word ++ rest = text := by
  constructor
  · rintro ⟨first, equal, rest, member, joined⟩
    cases equal
    exact ⟨rest, member, joined⟩
  · rintro ⟨rest, member, joined⟩
    exact ⟨word, rfl, rest, member, joined⟩

theorem mem_mul_literal : text ∈ left * literal word ↔ ∃ first ∈ left, first ++ word = text := by
  constructor
  · rintro ⟨first, member, rest, equal, joined⟩
    cases equal
    exact ⟨first, member, joined⟩
  · rintro ⟨first, member, joined⟩
    exact ⟨first, member, word, rfl, joined⟩

theorem cons_mem_star {rest : Text} (first : word ∈ language) (later : rest ∈ language∗) :
    word ++ rest ∈ language∗ := by
  obtain ⟨words, joined, members⟩ := later
  refine ⟨word :: words, by rw [List.flatten_cons, ← joined], ?_⟩
  intro item member
  rcases List.mem_cons.1 member with equal | inner
  · exact equal ▸ first
  · exact members item inner

/-- A property of all repetitions is shown for none of them and for one more in front. -/
@[elab_as_elim] theorem star_induction {motive : Text → Prop} (none : motive [])
    (more : ∀ word ∈ language, ∀ rest ∈ language∗, motive rest → motive (word ++ rest))
    (member : text ∈ language∗) : motive text := by
  obtain ⟨words, joined, members⟩ := member
  subst joined
  induction words with
  | nil => exact none
  | cons word words ih =>
      have later : ∀ item ∈ words, item ∈ language := fun item inner =>
        members item (List.mem_cons_of_mem word inner)
      exact more word (members word List.mem_cons_self) words.flatten ⟨words, rfl, later⟩ (ih later)

theorem mem_upTo {count : Nat} :
    text ∈ upTo count language ↔ ∃ times, times ≤ count ∧ text ∈ language ^ times := by
  induction count generalizing text with
  | zero =>
      constructor
      · intro member
        exact ⟨0, Nat.le_refl 0, member⟩
      · rintro ⟨times, bound, member⟩
        rw [Nat.le_zero.1 bound] at member
        exact member
  | succ count ih =>
      rw [upTo, pow_succ']
      constructor
      · rintro ⟨first, firstMember, rest, restMember, joined⟩
        obtain ⟨times, bound, restMember⟩ := ih.1 restMember
        rcases mem_optional.1 firstMember with empty | firstMember
        · subst empty joined
          exact ⟨times, Nat.le_succ_of_le bound, restMember⟩
        · refine ⟨times + 1, Nat.succ_le_succ bound, ?_⟩
          rw [pow_succ']
          exact ⟨first, firstMember, rest, restMember, joined⟩
      · rintro ⟨times, bound, member⟩
        cases times with
        | zero => exact ⟨[], Or.inl rfl, text, ih.2 ⟨0, Nat.zero_le count, member⟩, rfl⟩
        | succ times =>
            rw [pow_succ'] at member
            obtain ⟨first, firstMember, rest, restMember, joined⟩ := member
            exact ⟨first, Or.inr firstMember, rest,
              ih.2 ⟨times, Nat.le_of_succ_le_succ bound, restMember⟩, joined⟩

end Productions

section Classes

open scoped Computability

def single (test : Char → Bool) : Language Char :=
  {text | ∃ char, test char = true ∧ text = [char]}

variable {test : Char → Bool} {text : Text}

theorem single_mem_single {char : Char} : [char] ∈ single test ↔ test char = true := by
  constructor
  · rintro ⟨other, passed, equal⟩
    cases equal
    exact passed
  · intro passed
    exact ⟨char, passed, rfl⟩

theorem single_add (first second : Char → Bool) :
    single first + single second = single fun char => first char || second char := by
  ext text
  constructor
  · rintro (⟨char, passed, equal⟩ | ⟨char, passed, equal⟩)
    · exact ⟨char, Bool.or_eq_true_iff.2 (Or.inl passed), equal⟩
    · exact ⟨char, Bool.or_eq_true_iff.2 (Or.inr passed), equal⟩
  · rintro ⟨char, passed, equal⟩
    rcases Bool.or_eq_true_iff.1 passed with passed | passed
    · exact Or.inl ⟨char, passed, equal⟩
    · exact Or.inr ⟨char, passed, equal⟩

theorem anyOf_eq_single (chars : List Char) : anyOf chars = single chars.contains := by
  ext text
  simp only [mem_anyOf, single]
  constructor
  · rintro ⟨char, member, equal⟩
    exact ⟨char, List.contains_iff_mem.2 member, equal⟩
  · rintro ⟨char, member, equal⟩
    exact ⟨char, List.contains_iff_mem.1 member, equal⟩

theorem literal_eq_single (char : Char) : literal [char] = single (· == char) := by
  ext text
  constructor
  · intro equal
    exact ⟨char, beq_self_eq_true char, equal⟩
  · rintro ⟨other, same, equal⟩
    rw [eq_of_beq same] at equal
    exact equal

theorem anyOf_pair (first second : Char) :
    anyOf [first, second] = literal [first] + literal [second] := by
  rw [anyOf_eq_single, literal_eq_single, literal_eq_single, single_add]
  congr 1
  funext char
  rw [List.contains_cons, List.contains_cons, List.contains_nil, Bool.or_false]

theorem between_eq_single (least greatest : Char) :
    between least greatest = single fun char => least ≤ char && char ≤ greatest := by
  ext text
  constructor
  · rintro ⟨char, bounds, equal⟩
    refine ⟨char, ?_, equal⟩
    exact Bool.and_eq_true_iff.2 ⟨decide_eq_true bounds.1, decide_eq_true bounds.2⟩
  · rintro ⟨char, bounds, equal⟩
    rw [Bool.and_eq_true, decide_eq_true_iff, decide_eq_true_iff] at bounds
    exact ⟨char, bounds, equal⟩

theorem mem_single_pow {times : Nat} :
    text ∈ single test ^ times ↔ text.length = times ∧ text.all test = true := by
  induction times generalizing text with
  | zero =>
      rw [pow_zero, Language.mem_one, List.length_eq_zero_iff]
      constructor
      · intro empty
        exact ⟨empty, by rw [empty]; rfl⟩
      · exact And.left
  | succ times ih =>
      rw [pow_succ']
      constructor
      · rintro ⟨first, ⟨char, passed, equal⟩, rest, member, joined⟩
        obtain ⟨length, all⟩ := ih.1 member
        subst equal joined
        simp only [List.singleton_append, List.length_cons, List.all_cons]
        exact ⟨by omega, by rw [passed, all]; rfl⟩
      · rintro ⟨length, all⟩
        cases text with
        | nil => cases length
        | cons char rest =>
            rw [List.all_cons, Bool.and_eq_true] at all
            exact ⟨[char], single_mem_single.2 all.1, rest,
              ih.2 ⟨Nat.succ.inj length, all.2⟩, rfl⟩

theorem mem_single_star : text ∈ (single test)∗ ↔ text.all test = true := by
  constructor
  · intro member
    refine star_induction rfl ?_ member
    rintro word ⟨char, passed, equal⟩ rest _ all
    rw [equal, List.singleton_append, List.all_cons, passed, all]
    rfl
  · intro all
    induction text with
    | nil => exact Language.nil_mem_kstar _
    | cons char rest ih =>
        rw [List.all_cons, Bool.and_eq_true] at all
        exact cons_mem_star (single_mem_single.2 all.1) (ih all.2)

theorem mem_single_oneOrMore :
    text ∈ oneOrMore (single test) ↔ text ≠ [] ∧ text.all test = true := by
  constructor
  · rintro ⟨first, ⟨char, passed, equal⟩, rest, member, joined⟩
    subst equal joined
    refine ⟨List.cons_ne_nil char rest, ?_⟩
    change (test char && rest.all test) = true
    rw [passed, mem_single_star.1 member]
    rfl
  · rintro ⟨nonempty, all⟩
    cases text with
    | nil => exact absurd rfl nonempty
    | cons char rest =>
        rw [List.all_cons, Bool.and_eq_true] at all
        exact ⟨[char], single_mem_single.2 all.1, rest, mem_single_star.2 all.2, rfl⟩

theorem letter_eq : letter = single Character.isLetter := by
  rw [letter, between_eq_single, between_eq_single, single_add]
  rfl

theorem digit_eq : digit = single Character.isDigit :=
  between_eq_single '0' '9'

theorem isHexDigit_eq (char : Char) : Character.isHexDigit char =
    (Character.isDigit char || ('a' ≤ char && char ≤ 'f') || ('A' ≤ char && char ≤ 'F')) := by
  unfold Character.isHexDigit Character.hexValue?
  split
  next digit => rw [digit]; rfl
  next other =>
    rw [Bool.eq_false_iff.2 other]
    split
    next small => rw [small]; rfl
    next other =>
      rw [Bool.eq_false_iff.2 other]
      split
      next capital => rw [capital]; rfl
      next other => rw [Bool.eq_false_iff.2 other]; rfl

theorem hexDigit_eq : hexDigit = single Character.isHexDigit := by
  rw [hexDigit, digit_eq, between_eq_single, between_eq_single, single_add, single_add]
  exact congrArg single (funext fun char => (isHexDigit_eq char).symm)

theorem unreserved_eq : unreserved = single Character.isUnreserved := by
  rw [unreserved, letter_eq, digit_eq, anyOf_eq_single, single_add, single_add]
  rfl

theorem subDelimiter_eq : subDelimiter = single Character.isSubDelimiter :=
  anyOf_eq_single _

theorem schemeChar_eq :
    letter + digit + anyOf ['+', '-', '.'] = single Character.inScheme := by
  rw [letter_eq, digit_eq, anyOf_eq_single, single_add, single_add]
  rfl

theorem userinfoChar_eq :
    unreserved + subDelimiter + literal [':'] = single Character.inUserinfo := by
  rw [unreserved_eq, subDelimiter_eq, literal_eq_single, single_add, single_add]
  rfl

theorem registeredNameChar_eq :
    unreserved + subDelimiter = single Character.inRegisteredName := by
  rw [unreserved_eq, subDelimiter_eq, single_add]
  rfl

end Classes

end MagnetUri.Grammar

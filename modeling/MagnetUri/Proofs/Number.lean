import MagnetUri.Number
import MagnetUri.Proofs.Grammar.Quad
import Mathlib.Data.Nat.Dist

set_option autoImplicit false

/-! Numbers written in decimal and read back, and their rounding to binary64. A rounded
number is the nearest of those that 53 binary digits with zeros behind them can write; 2^53 is one
of them, so that no number is rounded to another one below it. -/

namespace MagnetUri.Decimal

open Character (isDigit)

def write (number : Nat) : Text :=
  Nat.toDigits 10 number

theorem value_write (number : Nat) : value (write number) = number :=
  Nat.ofDigitChars_ten_toDigits

theorem write_digit {digit : Char} (accepted : isDigit digit = true) :
    write (digit.toNat - 48) = [digit] := by
  have bounds := Grammar.isDigit_iff.1 accepted
  have small : digit.toNat - 48 < 10 := by omega
  rw [write, Nat.toDigits_of_lt_base small]
  congr 1
  apply Char.toNat_inj.1
  rw [Nat.toNat_digitChar_of_lt_ten small]
  omega

theorem write_append_digit {digit : Char} (accepted : isDigit digit = true) {number : Nat}
    (positive : 0 < number) :
    write number ++ [digit] = write (10 * number + (digit.toNat - 48)) := by
  have bounds := Grammar.isDigit_iff.1 accepted
  have small : digit.toNat - 48 < 10 := by omega
  rw [← write_digit accepted]
  exact Nat.toDigits_append_toDigits (by decide) positive small

/-- Digits behind a number that is not zero are digits of a greater number. -/
theorem write_append {digits : Text} (all : digits.all isDigit = true) {number : Nat}
    (positive : 0 < number) : write number ++ digits = write (Nat.ofDigitChars 10 digits number) := by
  induction digits generalizing number with
  | nil => exact List.append_nil _
  | cons digit rest ih =>
      rw [List.all_cons, Bool.and_eq_true] at all
      have greater : 0 < 10 * number + (digit.toNat - 48) := by omega
      calc
        write number ++ digit :: rest = (write number ++ [digit]) ++ rest := by
          rw [List.append_assoc, List.singleton_append]
        _ = write (10 * number + (digit.toNat - 48)) ++ rest := by
          rw [write_append_digit all.1 positive]
        _ = write (Nat.ofDigitChars 10 (digit :: rest) number) := ih all.2 greater

theorem write_value {text : Text} (numeral : isNumeral text = true)
    (leading : text.length = 1 ∨ text.head? ≠ some '0') : write (value text) = text := by
  cases text with
  | nil => cases numeral
  | cons first rest =>
      rw [isNumeral, List.isEmpty_cons, Bool.not_false, Bool.true_and, List.all_cons,
        Bool.and_eq_true] at numeral
      have started : value (first :: rest) = Nat.ofDigitChars 10 rest (first.toNat - 48) := by
        rw [value, List.foldl_cons, Nat.mul_zero, Nat.zero_add]
        rfl
      rw [started]
      rcases leading with single | nonzero
      · have alone : rest = [] := List.length_eq_zero_iff.1 (Nat.succ.inj single)
        subst alone
        exact write_digit numeral.1
      · have bounds := Grammar.isDigit_iff.1 numeral.1
        have other : first.toNat ≠ 48 := by
          intro zero
          exact nonzero (congrArg some (Char.toNat_inj.1 zero))
        have positive : 0 < first.toNat - 48 := by omega
        rw [← write_append numeral.2 positive, write_digit numeral.1, List.singleton_append]

theorem isNumeral_write (number : Nat) : isNumeral (write number) = true := by
  rw [isNumeral, Bool.and_eq_true, Bool.not_eq_true', List.isEmpty_eq_false_iff, List.all_eq_true]
  constructor
  · exact Nat.toDigits_ne_nil
  · intro digit member
    have decimal := Nat.isDigit_of_mem_toDigits (by decide) (by decide) member
    rw [Char.isDigit, Bool.and_eq_true, decide_eq_true_iff, decide_eq_true_iff] at decimal
    exact Grammar.isDigit_iff.2 decimal

theorem head?_write {number : Nat} (positive : 0 < number) : (write number).head? ≠ some '0' := by
  induction number using Nat.strongRecOn with
  | ind number ih =>
      rw [write, Nat.toDigits_eq_if (by decide)]
      split
      next small =>
        intro zero
        have code := congrArg Char.toNat (Option.some.inj zero)
        rw [Nat.toNat_digitChar_of_lt_ten small] at code
        change 48 + number = 48 at code
        omega
      next large =>
        have first := ih (number / 10) (by omega) (by omega)
        rw [List.head?_append_of_ne_nil _ Nat.toDigits_ne_nil]
        exact first

theorem leading_write (number : Nat) :
    (write number).length = 1 ∨ (write number).head? ≠ some '0' := by
  cases number with
  | zero => exact Or.inl rfl
  | succ number => exact Or.inr (head?_write (Nat.succ_pos number))

variable {text : Text}

theorem isNumeral_iff_mem :
    isNumeral text = true ↔ text ∈ Grammar.oneOrMore Grammar.digit := by
  rw [Grammar.digit_eq, Grammar.mem_single_oneOrMore, isNumeral, Bool.and_eq_true,
    Bool.not_eq_true', List.isEmpty_eq_false_iff]

theorem value_zero_cons (digits : Text) : value ('0' :: digits) = value digits :=
  rfl

theorem isNumeral_zero_cons (digits : Text) :
    isNumeral ('0' :: digits) = true ↔ digits.all isDigit = true :=
  Iff.rfl

theorem numeral_padded (zeros number : Nat) :
    isNumeral (List.replicate zeros '0' ++ write number) = true ∧
      value (List.replicate zeros '0' ++ write number) = number := by
  induction zeros with
  | zero => exact ⟨isNumeral_write number, value_write number⟩
  | succ zeros ih =>
      have digits := ih.1
      rw [isNumeral, Bool.and_eq_true] at digits
      rw [List.replicate_succ, List.cons_append, isNumeral_zero_cons, value_zero_cons]
      exact ⟨digits.2, ih.2⟩

end MagnetUri.Decimal

namespace MagnetUri.Binary64

variable {number divisor multiple value : Nat}

theorem weight_pos (place : Nat) : 0 < weight place :=
  Nat.two_pow_pos place

theorem lastPlace_pos (number : Nat) : 0 < lastPlace number :=
  weight_pos _

theorem weight_add (high low : Nat) : weight (high + low) = weight high * weight low :=
  Nat.pow_add 2 high low

/-- A number of at most 53 binary digits with any number of zeros behind them. -/
def IsKept (number : Nat) : Prop :=
  ∃ digits place, digits < weight 53 ∧ number = digits * weight place

/-- Rounding to the nearest number that is kept. Of two that are equally near, it is the one that
has a zero in the last of the 53 places of `number`. -/
structure RoundsTo (number rounded : Nat) : Prop where
  kept : IsKept rounded
  nearest : ∀ other, IsKept other → Nat.dist number rounded ≤ Nat.dist number other
  even : ∀ other, IsKept other → other ≠ rounded →
    Nat.dist number other = Nat.dist number rounded → ∃ half, rounded = 2 * half * lastPlace number

theorem roundedQuotient_cases (number divisor : Nat) :
    (roundedQuotient number divisor = number / divisor ∧
      (2 * (number % divisor) < divisor ∨
        2 * (number % divisor) = divisor ∧ number / divisor % 2 = 0)) ∨
    (roundedQuotient number divisor = number / divisor + 1 ∧
      (divisor < 2 * (number % divisor) ∨
        2 * (number % divisor) = divisor ∧ number / divisor % 2 = 1)) := by
  unfold roundedQuotient
  dsimp only
  split
  next more => exact Or.inr ⟨rfl, more⟩
  next less => exact Or.inl ⟨rfl, by omega⟩

theorem multiple_trichotomy (multiple pivot divisor : Nat) :
    multiple * divisor + divisor ≤ pivot * divisor ∨ multiple = pivot ∨
      pivot * divisor + divisor ≤ multiple * divisor := by
  have step {low high : Nat} (less : low < high) :
      low * divisor + divisor ≤ high * divisor := by
    rw [← Nat.succ_mul]
    exact Nat.mul_le_mul_right divisor less
  rcases Nat.lt_trichotomy multiple pivot with below | same | above
  · exact Or.inl (step below)
  · exact Or.inr (Or.inl same)
  · exact Or.inr (Or.inr (step above))

/-- Any other multiple of the divisor is farther than that of the rounded quotient, or as far
while the rounded quotient is even. -/
theorem dist_roundedQuotient_cases (positive : 0 < divisor)
    (other : multiple ≠ roundedQuotient number divisor) :
    Nat.dist number (roundedQuotient number divisor * divisor) <
        Nat.dist number (multiple * divisor) ∨
      Nat.dist number (multiple * divisor) =
          Nat.dist number (roundedQuotient number divisor * divisor) ∧
        roundedQuotient number divisor % 2 = 0 := by
  have parts := Nat.div_add_mod' number divisor
  have short := Nat.mod_lt number positive
  have sides := multiple_trichotomy multiple (roundedQuotient number divisor) divisor
  unfold Nat.dist
  rcases roundedQuotient_cases number divisor with ⟨same, _⟩ | ⟨same, _⟩
  · rw [same] at other sides ⊢
    omega
  · rw [same] at other sides ⊢
    rw [Nat.succ_mul] at sides ⊢
    omega

theorem dist_roundedQuotient_le (positive : 0 < divisor) (number multiple : Nat) :
    Nat.dist number (roundedQuotient number divisor * divisor) ≤
      Nat.dist number (multiple * divisor) := by
  by_cases same : multiple = roundedQuotient number divisor
  · rw [same]
  · rcases dist_roundedQuotient_cases positive same with farther | ⟨tie, _⟩
    · exact Nat.le_of_lt farther
    · exact Nat.le_of_eq tie.symm

theorem even_roundedQuotient (positive : 0 < divisor)
    (other : multiple ≠ roundedQuotient number divisor)
    (tie : Nat.dist number (multiple * divisor) =
      Nat.dist number (roundedQuotient number divisor * divisor)) :
    roundedQuotient number divisor % 2 = 0 := by
  rcases dist_roundedQuotient_cases positive other with farther | ⟨_, even⟩
  · exact absurd tie (Nat.ne_of_gt farther)
  · exact even

theorem isKept_weight (place : Nat) : IsKept (weight place) :=
  ⟨1, place, by decide, (Nat.one_mul _).symm⟩

theorem isKept_of_small (small : number < weight 53) : IsKept number :=
  ⟨number, 0, small, (Nat.mul_one number).symm⟩

/-- What is kept is a multiple of any weight, or has no digit 52 places above it. -/
theorem IsKept.multiple_or_below (kept : IsKept number) (place : Nat) :
    (∃ multiple, number = multiple * weight place) ∨ number < weight (52 + place) := by
  obtain ⟨digits, own, few, same⟩ := kept
  by_cases under : place ≤ own
  · refine Or.inl ⟨digits * weight (own - place), ?_⟩
    rw [same, Nat.mul_assoc, ← weight_add, Nat.sub_add_cancel under]
  · right
    calc
      number = digits * weight own := same
      _ < weight 53 * weight own := Nat.mul_lt_mul_of_pos_right few (weight_pos own)
      _ = weight (53 + own) := (weight_add 53 own).symm
      _ ≤ weight (52 + place) := weight_le (by omega)

/-- What is kept without being a multiple of the last place of `number` lies below `number` and
below a multiple that does not pass it. -/
theorem IsKept.multiple_or_passed {other : Nat} (kept : IsKept other) (number : Nat) :
    (∃ multiple, other = multiple * lastPlace number) ∨
      (other < weight 52 * lastPlace number ∧ weight 52 * lastPlace number ≤ number) := by
  rw [lastPlace, ← weight_add]
  by_cases long : 52 ≤ number.log2
  · have leading : weight (52 + (number.log2 - 52)) ≤ number := by
      rw [Nat.add_sub_cancel' long]
      apply Nat.log2_self_le
      intro zero
      rw [zero] at long
      exact absurd long (by decide)
    exact (kept.multiple_or_below _).imp_right fun below => ⟨below, leading⟩
  · rw [Nat.sub_eq_zero_of_le (by omega)]
    exact Or.inl ⟨other, (Nat.mul_one other).symm⟩

/-- The number that a number is rounded to, which may be too large. -/
def rounded (number : Nat) : Nat :=
  roundedQuotient number (lastPlace number) * lastPlace number

theorem roundedQuotient_le (number : Nat) :
    roundedQuotient number (lastPlace number) ≤ weight 53 := by
  have digits : number / lastPlace number < weight 53 := by
    apply (Nat.div_lt_iff_lt_mul (lastPlace_pos number)).2
    rw [lastPlace, ← weight_add]
    exact Nat.lt_of_lt_of_le Nat.lt_log2_self (weight_le (by omega))
  rcases roundedQuotient_cases number (lastPlace number) with ⟨same, _⟩ | ⟨same, _⟩ <;> omega

theorem isKept_rounded (number : Nat) : IsKept (rounded number) := by
  rcases Nat.eq_or_lt_of_le (roundedQuotient_le number) with carried | few
  · rw [rounded, carried, lastPlace, ← weight_add]
    exact isKept_weight _
  · exact ⟨_, _, few, rfl⟩

theorem dist_rounded_lt_of_passed {other : Nat} (below : other < weight 52 * lastPlace number)
    (passed : weight 52 * lastPlace number ≤ number) :
    Nat.dist number (rounded number) < Nat.dist number other := by
  have nearer : Nat.dist number (rounded number) ≤ _ :=
    dist_roundedQuotient_le (lastPlace_pos number) number (weight 52)
  unfold Nat.dist at nearer ⊢
  omega

theorem roundsTo_rounded (number : Nat) : RoundsTo number (rounded number) where
  kept := isKept_rounded number
  nearest := by
    intro other kept
    rcases kept.multiple_or_passed number with ⟨multiple, same⟩ | ⟨below, passed⟩
    · rw [same]
      exact dist_roundedQuotient_le (lastPlace_pos number) number multiple
    · exact Nat.le_of_lt (dist_rounded_lt_of_passed below passed)
  even := by
    intro other kept different tie
    rcases kept.multiple_or_passed number with ⟨multiple, same⟩ | ⟨below, passed⟩
    · subst same
      have apart : multiple ≠ roundedQuotient number (lastPlace number) := by
        intro equal
        rw [equal] at different
        exact different rfl
      have even := even_roundedQuotient (lastPlace_pos number) apart tie
      refine ⟨roundedQuotient number (lastPlace number) / 2, ?_⟩
      rw [Nat.mul_div_cancel' (Nat.dvd_of_mod_eq_zero even)]
      rfl
    · exact absurd tie (Nat.ne_of_gt (dist_rounded_lt_of_passed below passed))

theorem roundsTo_of_nearest (found : nearest number = .finite value) : RoundsTo number value := by
  unfold nearest at found
  dsimp only at found
  split at found
  next =>
    cases found
    exact roundsTo_rounded number
  next => cases found

/-- A number below 2^53 is the rounding of no other number: 2^53 would be nearer to it. -/
theorem RoundsTo.eq_of_small (rounds : RoundsTo number value) (small : value < weight 53) :
    number = value := by
  by_cases few : number < weight 53
  · have nothing := rounds.nearest number (isKept_of_small few)
    rw [Nat.dist_self] at nothing
    exact Nat.eq_of_dist_eq_zero (Nat.le_zero.1 nothing)
  · have nearer := rounds.nearest (weight 53) (isKept_weight 53)
    unfold Nat.dist at nearer
    omega

theorem nearest_eq_finite_iff (small : value < weight 53) :
    nearest number = .finite value ↔ number = value := by
  constructor
  · intro found
    exact (roundsTo_of_nearest found).eq_of_small small
  · intro same
    rw [same, nearest_of_small small]

theorem safe?_eq_some_iff {result : Binary64} :
    result.safe? = some value ↔ result = .finite value ∧ value ≤ largestSafe := by
  cases result with
  | finite other =>
      rw [safe?, Option.ite_none_right_eq_some, Option.some.injEq, finite.injEq]
      constructor
      · intro both
        exact ⟨both.2, both.2 ▸ both.1⟩
      · intro both
        exact ⟨both.1 ▸ both.2, both.1⟩
  | infinite => exact iff_of_false nofun nofun

/-- A safe number is given for itself alone. -/
theorem safe?_nearest_eq_some_iff :
    (nearest number).safe? = some value ↔ number = value ∧ value ≤ largestSafe := by
  rw [safe?_eq_some_iff]
  apply and_congr_left
  intro safe
  exact nearest_eq_finite_iff (Nat.lt_of_le_of_lt safe (by decide))

end MagnetUri.Binary64

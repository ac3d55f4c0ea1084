import MagnetUri.Text

set_option autoImplicit false

/-! Decimal numerals of any length, and the binary64 numbers that natural numbers round to. A
number below 2^53 is kept; a larger one is rounded to 53 leading binary digits, to the even one
of two equally near neighbours, and what rounds to 2^1024 or more is infinite. -/

namespace MagnetUri.Decimal

def isNumeral (text : Text) : Bool :=
  !text.isEmpty && text.all Character.isDigit

def value (digits : Text) : Nat :=
  digits.foldl (fun number digit => 10 * number + (digit.toNat - 48)) 0

end MagnetUri.Decimal

namespace MagnetUri

/-- A binary64 number that is a natural number, or positive infinity. -/
inductive Binary64 where
  | finite (value : Nat)
  | infinite
deriving DecidableEq

namespace Binary64

def weight (place : Nat) : Nat := Nat.pow 2 place

/-- The quotient nearest to `number / divisor`, the even one of two. -/
def roundedQuotient (number divisor : Nat) : Nat :=
  let quotient := number / divisor
  let remainder := number % divisor
  if divisor < 2 * remainder ∨ (2 * remainder = divisor ∧ quotient % 2 = 1) then quotient + 1
  else quotient

/-- The weight of the last of 53 leading binary digits. -/
def lastPlace (number : Nat) : Nat :=
  weight (number.log2 - 52)

def nearest (number : Nat) : Binary64 :=
  let rounded := roundedQuotient number (lastPlace number) * lastPlace number
  if rounded < weight 1024 then .finite rounded else .infinite

/-- The largest number up to which every natural number is kept. -/
def largestSafe : Nat := weight 53 - 1

/-- The number itself, where no other natural number rounds to it. -/
def safe? : Binary64 → Option Nat
  | .finite value => if value ≤ largestSafe then some value else none
  | .infinite => none

/-- The 64 bits of the format: eleven of the exponent after the sign, then 52 of
the fraction. -/
def bits : Binary64 → UInt64
  | .finite value =>
      if value = 0 then 0
      else
        let exponent := value.log2
        let leading :=
          if exponent ≤ 52 then value * weight (52 - exponent) else value / weight (exponent - 52)
        UInt64.ofNat ((exponent + 1023) * weight 52 + (leading - weight 52))
  | .infinite => UInt64.ofNat (2047 * weight 52)

theorem weight_le {small large : Nat} (ordered : small ≤ large) : weight small ≤ weight large :=
  Nat.pow_le_pow_right (by decide) ordered

theorem lastPlace_of_small {number : Nat} (small : number < weight 53) : lastPlace number = 1 := by
  have short : number.log2 ≤ 52 := by
    by_cases zero : number = 0
    · subst zero
      decide
    · have := (Nat.log2_lt zero (k := 53)).2 small
      omega
  rw [lastPlace, Nat.sub_eq_zero_of_le short]
  rfl

/-- Every number of at most 53 binary digits is kept. -/
theorem nearest_of_small {number : Nat} (small : number < weight 53) :
    nearest number = .finite number := by
  have within : number < weight 1024 := Nat.lt_of_lt_of_le small (weight_le (by decide))
  have kept : roundedQuotient number 1 * 1 = number := by
    simp [roundedQuotient, Nat.mod_one]
  rw [nearest, lastPlace_of_small small, kept, if_pos within]

end Binary64
end MagnetUri

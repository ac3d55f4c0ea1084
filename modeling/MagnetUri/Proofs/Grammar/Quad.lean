import MagnetUri.Proofs.Grammar
import MagnetUri.Proofs.Text.Parts
import MagnetUri.Uri.Basic

set_option autoImplicit false

/-! Dotted quads. The test by value and length accepts the octets of the grammar, and
four of them between dots are an address. -/

namespace MagnetUri.Grammar

open Uri (isOctet isIpv4)

theorem isDigit_iff {char : Char} :
    Character.isDigit char = true ↔ 48 ≤ char.toNat ∧ char.toNat ≤ 57 := by
  rw [Character.isDigit, Bool.and_eq_true, decide_eq_true_iff, decide_eq_true_iff]
  exact Iff.rfl

/-- A number is at least its first digits followed by zeros. -/
theorem le_foldl_digits (digits : Text) (number : Nat) :
    number * 10 ^ digits.length ≤
      digits.foldl (fun number digit => 10 * number + (digit.toNat - 48)) number := by
  induction digits generalizing number with
  | nil => exact Nat.le_of_eq (Nat.mul_one number)
  | cons digit rest ih =>
      have shifted : number * 10 ^ (rest.length + 1) = 10 * number * 10 ^ rest.length := by
        rw [Nat.pow_succ, Nat.mul_comm _ 10, ← Nat.mul_assoc, Nat.mul_comm number 10]
      have grown : 10 * number * 10 ^ rest.length ≤
          (10 * number + (digit.toNat - 48)) * 10 ^ rest.length :=
        Nat.mul_le_mul_right _ (Nat.le_add_right _ _)
      rw [List.length_cons, shifted, List.foldl_cons]
      exact Nat.le_trans grown (ih _)

theorem pow_le_value {first : Char} (rest : Text) (nonzero : 48 < first.toNat) :
    10 ^ rest.length ≤ Decimal.value (first :: rest) := by
  have bound := le_foldl_digits rest (first.toNat - 48)
  have kept : 1 * 10 ^ rest.length ≤ (first.toNat - 48) * 10 ^ rest.length :=
    Nat.mul_le_mul_right _ (by omega)
  rw [Nat.one_mul] at kept
  have started : Decimal.value (first :: rest) =
      rest.foldl (fun number digit => 10 * number + (digit.toNat - 48)) (first.toNat - 48) := by
    simp [Decimal.value]
  rw [started]
  exact Nat.le_trans kept bound

theorem isOctet_iff {text : Text} : isOctet text = true ↔
    (text ≠ [] ∧ text.all Character.isDigit = true) ∧
      (text.length = 1 ∨ text.head? ≠ some '0') ∧ Decimal.value text ≤ 255 := by
  simp only [isOctet, Decimal.isNumeral, Bool.and_eq_true, Bool.or_eq_true, decide_eq_true_iff,
    beq_iff_eq, bne_iff_ne, Bool.not_eq_true', List.isEmpty_eq_false_iff, and_assoc]

theorem octet_of_three {hundreds tens units : Char}
    (digits : Character.isDigit hundreds = true ∧ Character.isDigit tens = true ∧
      Character.isDigit units = true)
    (positive : 48 < hundreds.toNat) (bound : Decimal.value [hundreds, tens, units] ≤ 255) :
    [hundreds, tens, units] ∈ octet := by
  have hundredsBounds := isDigit_iff.1 digits.1
  have tensBounds := isDigit_iff.1 digits.2.1
  have unitsBounds := isDigit_iff.1 digits.2.2
  have unitsMember : [units] ∈ digit := by rw [digit_eq]; exact single_mem_single.2 digits.2.2
  simp only [Decimal.value, List.foldl_cons, List.foldl_nil, Nat.mul_zero, Nat.zero_add] at bound
  by_cases one : hundreds.toNat = 49
  · have same : hundreds = '1' := Char.toNat_inj.1 one
    subst same
    have rest : [tens, units] ∈ digit ^ 2 := by
      rw [digit_eq, mem_single_pow]
      exact ⟨rfl, by simp [digits.2]⟩
    exact Or.inl (Or.inl (Or.inr ⟨['1'], rfl, [tens, units], rest, rfl⟩))
  · have two : hundreds.toNat = 50 := by omega
    have same : hundreds = '2' := Char.toNat_inj.1 two
    subst same
    by_cases five : tens.toNat = 53
    · have same : tens = '5' := Char.toNat_inj.1 five
      subst same
      have below : units.toNat ≤ 53 := by omega
      exact Or.inr ⟨['2', '5'], rfl, [units], ⟨units, ⟨unitsBounds.1, below⟩, rfl⟩, rfl⟩
    · have below : tens.toNat ≤ 52 := by omega
      have tensMember : [tens] ∈ between '0' '4' := ⟨tens, ⟨tensBounds.1, below⟩, rfl⟩
      exact Or.inl (Or.inr ⟨['2', tens], ⟨['2'], rfl, [tens], tensMember, rfl⟩,
        [units], unitsMember, rfl⟩)

theorem octet_of_isOctet {text : Text} (accepted : isOctet text = true) : text ∈ octet := by
  obtain ⟨⟨nonempty, digits⟩, leading, bound⟩ := isOctet_iff.1 accepted
  have first_pos {first : Char} {rest : Text} (equal : text = first :: rest)
      (many : text.length ≠ 1) (isDigit : Character.isDigit first = true) : 48 < first.toNat := by
    have other : first ≠ '0' := by
      intro zero
      rcases leading with one | head
      · exact many one
      · exact head (by rw [equal, zero]; rfl)
    have bounds := isDigit_iff.1 isDigit
    have unequal : first.toNat ≠ 48 := fun same => other (Char.toNat_inj.1 same)
    omega
  match text, nonempty with
  | [units], _ =>
      simp only [List.all_cons, List.all_nil, Bool.and_true] at digits
      have member : [units] ∈ digit := by rw [digit_eq]; exact single_mem_single.2 digits
      exact Or.inl (Or.inl (Or.inl (Or.inl member)))
  | [tens, units], _ =>
      simp only [List.all_cons, List.all_nil, Bool.and_true, Bool.and_eq_true] at digits
      have positive := first_pos rfl (by simp) digits.1
      have tensBounds := isDigit_iff.1 digits.1
      have unitsMember : [units] ∈ digit := by rw [digit_eq]; exact single_mem_single.2 digits.2
      have tensMember : [tens] ∈ between '1' '9' := ⟨tens, ⟨positive, tensBounds.2⟩, rfl⟩
      exact Or.inl (Or.inl (Or.inl (Or.inr ⟨[tens], tensMember, [units], unitsMember, rfl⟩)))
  | [hundreds, tens, units], _ =>
      simp only [List.all_cons, List.all_nil, Bool.and_true, Bool.and_eq_true] at digits
      have positive := first_pos rfl (by simp) digits.1
      exact octet_of_three digits positive bound
  | first :: second :: third :: fourth :: rest, _ =>
      simp only [List.all_cons, Bool.and_eq_true] at digits
      have positive := first_pos rfl (by simp) digits.1
      have large := pow_le_value (second :: third :: fourth :: rest) positive
      have thousand : 10 ^ 3 ≤ 10 ^ (second :: third :: fourth :: rest).length :=
        Nat.pow_le_pow_right (by omega) (by simp)
      omega

theorem isOctet_of_octet {text : Text} (member : text ∈ octet) : isOctet text = true := by
  rw [isOctet_iff]
  rcases member with (((one | two) | hundred) | ⟨_, ⟨_, rfl, _, tens, rfl⟩, _, units, rfl⟩) |
    ⟨_, rfl, _, ⟨units, bounds, rfl⟩, rfl⟩
  · rw [digit_eq] at one
    obtain ⟨units, isDigit, rfl⟩ := one
    have bounds := isDigit_iff.1 isDigit
    refine ⟨⟨List.cons_ne_nil _ _, by simp [isDigit]⟩, Or.inl rfl, ?_⟩
    simp only [Decimal.value, List.foldl_cons, List.foldl_nil]
    omega
  · rw [digit_eq] at two
    obtain ⟨_, ⟨tens, tensBounds, rfl⟩, _, ⟨units, isDigit, rfl⟩, rfl⟩ := two
    have bounds := isDigit_iff.1 isDigit
    have positive : 49 ≤ tens.toNat := tensBounds.1
    have tensDigit : Character.isDigit tens = true :=
      isDigit_iff.2 ⟨Nat.le_of_succ_le positive, tensBounds.2⟩
    have tensBound := (isDigit_iff.1 tensDigit).2
    refine ⟨⟨List.cons_ne_nil _ _, by simp [isDigit, tensDigit]⟩, Or.inr ?_, ?_⟩
    · intro zero
      cases zero
      exact absurd positive (by decide)
    · simp only [List.singleton_append, Decimal.value, List.foldl_cons, List.foldl_nil]
      omega
  · rw [digit_eq] at hundred
    obtain ⟨_, rfl, rest, restMember, rfl⟩ := hundred
    obtain ⟨length, digits⟩ := mem_single_pow.1 restMember
    obtain ⟨tens, units, rfl⟩ := List.length_eq_two.1 length
    simp only [List.all_cons, List.all_nil, Bool.and_true, Bool.and_eq_true] at digits
    have tensBounds := isDigit_iff.1 digits.1
    have unitsBounds := isDigit_iff.1 digits.2
    have one : Character.isDigit '1' = true := by decide
    refine ⟨⟨List.cons_ne_nil _ _, by simp [digits, one]⟩, Or.inr (by simp), ?_⟩
    simp only [List.singleton_append, Decimal.value, List.foldl_cons, List.foldl_nil,
      Char.reduceToNat]
    omega
  · rw [digit_eq] at units
    obtain ⟨tens, tensBounds, rfl⟩ := tens
    obtain ⟨units, isDigit, rfl⟩ := units
    have unitsBounds := isDigit_iff.1 isDigit
    have least : 48 ≤ tens.toNat := tensBounds.1
    have greatest : tens.toNat ≤ 52 := tensBounds.2
    have tensDigit : Character.isDigit tens = true := isDigit_iff.2 ⟨least, by omega⟩
    have two : Character.isDigit '2' = true := by decide
    refine ⟨⟨List.cons_ne_nil _ _, by simp [isDigit, tensDigit, two]⟩, Or.inr (by simp), ?_⟩
    simp only [List.cons_append, List.nil_append, Decimal.value, List.foldl_cons, List.foldl_nil,
      Char.reduceToNat]
    omega
  · have least : 48 ≤ units.toNat := bounds.1
    have greatest : units.toNat ≤ 53 := bounds.2
    have isDigit : Character.isDigit units = true := isDigit_iff.2 ⟨least, by omega⟩
    have two : Character.isDigit '2' = true := by decide
    have five : Character.isDigit '5' = true := by decide
    refine ⟨⟨List.cons_ne_nil _ _, by simp [isDigit, two, five]⟩, Or.inr (by simp), ?_⟩
    simp only [List.cons_append, List.nil_append, Decimal.value, List.foldl_cons, List.foldl_nil,
      Char.reduceToNat]
    omega

theorem isOctet_iff_mem {text : Text} : isOctet text = true ↔ text ∈ octet :=
  ⟨octet_of_isOctet, isOctet_of_octet⟩

theorem dot_not_mem_of_isOctet {text : Text} (accepted : isOctet text = true) : '.' ∉ text := by
  intro dot
  have digits := (isOctet_iff.1 accepted).1.2
  exact absurd (List.all_eq_true.1 digits '.' dot) (by decide)

theorem isIpv4_iff_exists {text : Text} : isIpv4 text = true ↔
    ∃ first second third fourth, (isOctet first = true ∧ isOctet second = true ∧
      isOctet third = true ∧ isOctet fourth = true) ∧
        text = first ++ '.' :: second ++ '.' :: third ++ '.' :: fourth := by
  simp only [isIpv4, Bool.and_eq_true, beq_iff_eq]
  constructor
  · rintro ⟨four, all⟩
    obtain ⟨first, second, third, fourth, parts⟩ := List.length_eq_four.1 four
    have joined := (Text.separate_eq_iff.1 parts).2.2
    rw [parts] at all
    simp only [List.all_cons, List.all_nil, Bool.and_true, Bool.and_eq_true] at all
    exact ⟨first, second, third, fourth, all, by simp [← joined, Text.join]⟩
  · rintro ⟨first, second, third, fourth, octets, joined⟩
    have parts : Text.separate '.' text = [first, second, third, fourth] := by
      refine Text.separate_eq_iff.2 ⟨by simp, ?_, by simp [joined, Text.join]⟩
      simp only [List.forall_mem_cons]
      exact ⟨dot_not_mem_of_isOctet octets.1, dot_not_mem_of_isOctet octets.2.1,
        dot_not_mem_of_isOctet octets.2.2.1, dot_not_mem_of_isOctet octets.2.2.2,
        fun _ impossible => absurd impossible List.not_mem_nil⟩
    rw [parts]
    simp [octets]

theorem isIpv4_iff {text : Text} : isIpv4 text = true ↔ text ∈ ipv4Address := by
  rw [isIpv4_iff_exists]
  simp only [isOctet_iff_mem]
  constructor
  · rintro ⟨first, second, third, fourth, ⟨one, two, three, four⟩, joined⟩
    refine ⟨_, ⟨_, ⟨_, ⟨_, ⟨_, ⟨first, one, ['.'], rfl, rfl⟩, second, two, rfl⟩, ['.'], rfl, rfl⟩,
      third, three, rfl⟩, ['.'], rfl, rfl⟩, fourth, four, ?_⟩
    simp [joined]
  · rintro ⟨_, ⟨_, ⟨_, ⟨_, ⟨_, ⟨first, one, _, rfl, rfl⟩, second, two, rfl⟩, _, rfl, rfl⟩,
      third, three, rfl⟩, _, rfl, rfl⟩, fourth, four, rfl⟩
    exact ⟨first, second, third, fourth, ⟨one, two, three, four⟩, by simp⟩

end MagnetUri.Grammar

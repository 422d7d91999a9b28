import Mathlib.Data.Nat.Bitwise
import Mathlib.RingTheory.AdjoinRoot
import Mathlib.Algebra.CharP.Two
import Mathlib.Algebra.Field.ZMod

/-! The words of `w` bits as the elements of a quotient of the polynomials over
the field of two elements. Bit `i` of a word is the coefficient of `X ^ i`, the
modulus is `X ^ w` plus the polynomial of a word, and a shift that folds the
lost bit back in is the multiplication by `X`. -/
namespace BinaryField
open Polynomial

def coefficient (n i : Nat) : ZMod 2 := if n.testBit i then 1 else 0

noncomputable def polynomial (w n : Nat) : (ZMod 2)[X] :=
  ∑ i ∈ Finset.range w, monomial i (coefficient n i)

noncomputable def modulus (w r : Nat) : (ZMod 2)[X] := X ^ w + polynomial w r

abbrev Ring (w r : Nat) := AdjoinRoot (modulus w r)

noncomputable def element (w r n : Nat) : Ring w r := AdjoinRoot.mk _ (polynomial w n)

noncomputable def generator (w r : Nat) : Ring w r := AdjoinRoot.root _

/-- The shift of a word by one bit, reduced when a one is lost. -/
def double (w r n : Nat) : Nat := 2 * n % 2 ^ w ^^^ if n.testBit (w - 1) then r else 0

theorem coefficient_xor (m n i : Nat) :
    coefficient (m ^^^ n) i = coefficient m i + coefficient n i := by
  unfold coefficient
  rw [Nat.testBit_xor]
  cases m.testBit i <;> cases n.testBit i <;> decide

theorem coefficient_inj (same : coefficient m i = coefficient n i) : m.testBit i = n.testBit i := by
  unfold coefficient at same
  cases hm : m.testBit i <;> cases hn : n.testBit i <;> simp [hm, hn] at same ⊢

theorem coeff_polynomial (w n i : Nat) :
    (polynomial w n).coeff i = if i < w then coefficient n i else 0 := by
  simp only [polynomial, finsetSum_coeff, coeff_monomial, Finset.sum_ite_eq', Finset.mem_range]

theorem polynomial_congr (same : ∀ i < w, m.testBit i = n.testBit i) :
    polynomial w m = polynomial w n := by
  apply Finset.sum_congr rfl
  intro i inside
  rw [coefficient, coefficient, same i (Finset.mem_range.mp inside)]

theorem polynomial_xor (w m n : Nat) :
    polynomial w (m ^^^ n) = polynomial w m + polynomial w n := by
  simp only [polynomial, coefficient_xor, map_add, Finset.sum_add_distrib]

@[simp] theorem polynomial_zero (w : Nat) : polynomial w 0 = 0 := by
  simp [polynomial, coefficient]

theorem polynomial_of_lt (small : n < 2 ^ k) (wide : k ≤ w) : polynomial w n = polynomial k n := by
  ext i
  rw [coeff_polynomial, coeff_polynomial]
  by_cases inside : i < k
  · rw [if_pos inside, if_pos (inside.trans_le wide)]
  · have grow := Nat.pow_le_pow_right (show 0 < 2 by decide) (Nat.le_of_not_lt inside)
    have clear : coefficient n i = 0 := by
      rw [coefficient, Nat.testBit_lt_two_pow (small.trans_le grow)]
      rfl
    rw [if_neg inside, clear, ite_self]

theorem degree_polynomial_lt (w n : Nat) : (polynomial w n).degree < w := by
  rw [degree_lt_iff_coeff_zero]
  intro i outside
  rw [coeff_polynomial, if_neg (by omega)]

theorem polynomial_succ (w n : Nat) :
    polynomial (w + 1) n = polynomial w n + monomial w (coefficient n w) :=
  Finset.sum_range_succ _ w

theorem polynomial_shift (w n : Nat) : polynomial (w + 1) (2 * n) = X * polynomial w n := by
  have low : coefficient (2 * n) 0 = 0 := by simp [coefficient]
  have high (i : Nat) : coefficient (2 * n) (i + 1) = coefficient n i := by
    simp [coefficient, Nat.testBit_succ]
  simp only [polynomial, Finset.sum_range_succ', low, high, map_zero, add_zero, Finset.mul_sum,
    X_mul_monomial]

theorem degree_modulus (w r : Nat) : (modulus w r).degree = w := by
  rw [modulus, degree_add_eq_left_of_degree_lt, degree_X_pow]
  rw [degree_X_pow]
  exact degree_polynomial_lt w r

theorem element_xor (w r m n : Nat) : element w r (m ^^^ n) = element w r m + element w r n := by
  rw [element, polynomial_xor, map_add]
  rfl

@[simp] theorem element_zero (w r : Nat) : element w r 0 = 0 := by
  rw [element, polynomial_zero, map_zero]

/-- In the quotient the power that a shift pushes out is the polynomial of `r`. -/
theorem mk_X_pow (w r : Nat) : AdjoinRoot.mk (modulus w r) (X ^ w) = element w r r := by
  have vanish : AdjoinRoot.mk (modulus w r) (X ^ w) + element w r r = 0 := by
    rw [element, ← map_add]
    exact AdjoinRoot.mk_self
  calc AdjoinRoot.mk (modulus w r) (X ^ w)
      = -element w r r := eq_neg_of_add_eq_zero_left vanish
    _ = element w r r := by
        rw [element, ← map_neg]
        congr 1
        ext i
        rw [coeff_neg, ZMod.neg_eq_self_mod_two]

theorem element_double (w r : Nat) (nonempty : 0 < w) :
    element w r (double w r n) = generator w r * element w r n := by
  obtain ⟨k, rfl⟩ := Nat.exists_eq_add_one.mpr nonempty
  have reduced : polynomial (k + 1) (2 * n % 2 ^ (k + 1)) = polynomial (k + 1) (2 * n) := by
    apply polynomial_congr
    intro i inside
    rw [Nat.testBit_mod_two_pow, decide_eq_true inside, Bool.true_and]
  have lost : coefficient (2 * n) (k + 1) = coefficient n k := by
    simp [coefficient, Nat.testBit_succ]
  have product : AdjoinRoot.mk (modulus (k + 1) r) (X * polynomial (k + 1) n) =
      element (k + 1) r (2 * n) + AdjoinRoot.mk _ (monomial (k + 1) (coefficient n k)) := by
    rw [← polynomial_shift, polynomial_succ, map_add, lost]
    rfl
  have folded : AdjoinRoot.mk (modulus (k + 1) r) (monomial (k + 1) (coefficient n k)) =
      element (k + 1) r (if n.testBit k then r else 0) := by
    cases top : n.testBit k with
    | false => simp [coefficient, top]
    | true =>
      simp only [coefficient, top, if_true, monomial_one_right_eq_X_pow]
      exact mk_X_pow (k + 1) r
  rw [double, element_xor, Nat.add_sub_cancel, element, reduced, ← folded]
  rw [map_mul, AdjoinRoot.mk_X] at product
  exact product.symm

theorem element_injective (hm : m < 2 ^ w) (hn : n < 2 ^ w)
    (same : element w r m = element w r n) : m = n := by
  have divides : modulus w r ∣ polynomial w m - polynomial w n := AdjoinRoot.mk_eq_mk.mp same
  have small : (polynomial w m - polynomial w n).degree < (modulus w r).degree := by
    rw [degree_modulus]
    exact (degree_sub_le _ _).trans_lt (max_lt (degree_polynomial_lt w m) (degree_polynomial_lt w n))
  have equal := sub_eq_zero.mp (eq_zero_of_dvd_of_degree_lt divides small)
  apply Nat.eq_of_testBit_eq
  intro i
  by_cases inside : i < w
  · have coefficients := congrArg (fun p => p.coeff i) equal
    simp only [coeff_polynomial, if_pos inside] at coefficients
    exact coefficient_inj coefficients
  · have grow := Nat.pow_le_pow_right (show 0 < 2 by decide) (Nat.le_of_not_lt inside)
    rw [Nat.testBit_lt_two_pow (hm.trans_le grow), Nat.testBit_lt_two_pow (hn.trans_le grow)]

/-- When the folded word is odd, the lowest bit shows what the shift has lost. -/
theorem double_injective (odd : r.testBit 0 = true) (hm : m < 2 ^ (w + 1)) (hn : n < 2 ^ (w + 1))
    (same : double (w + 1) r m = double (w + 1) r n) : m = n := by
  have shifted (n i : Nat) (inside : i < w) :
      (2 * n % 2 ^ (w + 1)).testBit (i + 1) = n.testBit i := by
    have room : i + 1 < w + 1 := Nat.succ_lt_succ inside
    rw [Nat.testBit_mod_two_pow, decide_eq_true room, Bool.true_and, Nat.testBit_succ,
      Nat.mul_div_cancel_left n Nat.two_pos]
  have lowest (n : Nat) : (double (w + 1) r n).testBit 0 = n.testBit w := by
    have even : (2 * n % 2 ^ (w + 1)).testBit 0 = false := by
      simp
    rw [double, Nat.testBit_xor, even, Nat.add_sub_cancel, Bool.false_xor]
    cases n.testBit w with
    | false => exact Nat.zero_testBit 0
    | true => exact odd
  have top : m.testBit w = n.testBit w := by rw [← lowest, same, lowest]
  have rest : 2 * m % 2 ^ (w + 1) = 2 * n % 2 ^ (w + 1) := by
    rw [double, double, Nat.add_sub_cancel, top] at same
    exact Nat.xor_left_inj.mp same
  apply Nat.eq_of_testBit_eq
  intro i
  rcases Nat.lt_trichotomy i w with below | rfl | above
  · rw [← shifted m i below, ← shifted n i below, rest]
  · exact top
  · have grow := Nat.pow_le_pow_right (show 0 < 2 by decide) (Nat.succ_le_of_lt above)
    rw [Nat.testBit_lt_two_pow (hm.trans_le grow), Nat.testBit_lt_two_pow (hn.trans_le grow)]

end BinaryField

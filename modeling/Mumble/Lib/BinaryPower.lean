import Mumble.Lib.BinaryField
import Mathlib.Dynamics.PeriodicPts.Defs

/-! Products and powers in the quotient, computed on words, and the number of times
that a word is doubled before it comes back. That it does come back after some
number of doublings, and not after certain parts of that number, are equations
between computed words. -/
namespace BinaryField
open Polynomial Function

/-- `double` for a word whose highest bit is that of `top`. -/
def doubled (top r n : Nat) : Nat := Nat.xor (Nat.mul 2 (Nat.mod n top)) (Nat.mul r (Nat.div n top))

/-- A word times the low bits of another one, by Horner's rule. -/
def productLow (top r b k : Nat) : Nat → Nat :=
  -- spelled out, as the kernel evaluates it several times faster than a recursive function
  k.rec (fun _ => 0) fun _ shorter a =>
    Nat.xor (doubled top r (shorter (Nat.div a 2))) (Nat.mul b (Nat.mod a 2))

def product (w r a b : Nat) : Nat := productLow (2 ^ (w - 1)) r b w a

/-- An exponent of at most as many bits as the second argument says, by squaring. -/
def power (w r base : Nat) : Nat → Nat → Nat
  | 0, _ => 1
  | k + 1, j =>
    let half := power w r base k (j / 2)
    let square := product w r half half
    if j.testBit 0 then product w r base square else square

theorem polynomial_half (k a : Nat) :
    polynomial (k + 1) a = X * polynomial k (a / 2) + C (coefficient a 0) := by
  have next (i : Nat) : coefficient a (i + 1) = coefficient (a / 2) i := by
    rw [coefficient, coefficient, Nat.testBit_succ]
  simp only [polynomial, Finset.sum_range_succ', next, Finset.mul_sum, X_mul_monomial,
    monomial_zero_left]

section Double
variable {w r n : Nat}

theorem double_lt (reduced : r < 2 ^ w) (n : Nat) : double w r n < 2 ^ w := by
  rw [double]
  apply Nat.xor_lt_two_pow (Nat.mod_lt _ (Nat.two_pow_pos w))
  split
  · exact reduced
  · exact Nat.two_pow_pos w

theorem doubled_eq (nonempty : 0 < w) (small : n < 2 ^ w) : doubled (2 ^ (w - 1)) r n = double w r n := by
  obtain ⟨k, rfl⟩ := Nat.exists_eq_add_one.mpr nonempty
  have shifted : 2 * (n % 2 ^ k) = 2 * n % 2 ^ (k + 1) := by
    rw [Nat.pow_succ', Nat.mul_mod_mul_left]
  have quotient : n / 2 ^ k < 2 := Nat.div_lt_of_lt_mul (by rwa [← Nat.pow_succ])
  have top : r * (n / 2 ^ k) = if n.testBit k then r else 0 := by
    rw [Nat.testBit_eq_decide_div_mod_eq, Nat.mod_eq_of_lt quotient]
    rcases Nat.lt_or_ge (n / 2 ^ k) 1 with none | one
    · rw [Nat.lt_one_iff.mp none]
      rfl
    · rw [Nat.le_antisymm (Nat.le_of_lt_succ quotient) one, Nat.mul_one]
      rfl
  rw [double, Nat.add_sub_cancel, ← shifted, ← top]
  rfl

end Double

section Product
variable {w r b : Nat} (nonempty : 0 < w) (reduced : r < 2 ^ w) (small : b < 2 ^ w)
include nonempty reduced small

theorem productLow_lt (k a : Nat) : productLow (2 ^ (w - 1)) r b k a < 2 ^ w := by
  induction k generalizing a with
  | zero => exact Nat.two_pow_pos w
  | succ k ih =>
    apply Nat.xor_lt_two_pow
    · exact doubled_eq nonempty (ih (a / 2)) ▸ double_lt reduced _
    · have bit : a % 2 ≤ 1 := Nat.le_of_lt_succ (Nat.mod_lt a Nat.two_pos)
      exact ((Nat.mul_le_mul_left b bit).trans_eq (Nat.mul_one b)).trans_lt small

theorem element_productLow (k a : Nat) : element w r (productLow (2 ^ (w - 1)) r b k a) =
    AdjoinRoot.mk _ (polynomial k a) * element w r b := by
  induction k generalizing a with
  | zero =>
    rw [polynomial, Finset.sum_range_zero, map_zero, zero_mul]
    exact element_zero w r
  | succ k ih =>
    have step : productLow (2 ^ (w - 1)) r b (k + 1) a =
        double w r (productLow (2 ^ (w - 1)) r b k (a / 2)) ^^^ b * (a % 2) := by
      rw [← doubled_eq nonempty (productLow_lt nonempty reduced small k (a / 2))]
      rfl
    have lowest : element w r (b * (a % 2)) =
        AdjoinRoot.mk _ (C (coefficient a 0)) * element w r b := by
      rw [coefficient, Nat.testBit_zero]
      rcases Nat.mod_two_eq_zero_or_one a with even | odd
      · simp [even]
      · simp [odd]
    rw [step, element_xor, element_double w r nonempty, ih, lowest, polynomial_half, map_add, map_mul,
      AdjoinRoot.mk_X, add_mul, mul_assoc]
    rfl

theorem product_lt (a : Nat) : product w r a b < 2 ^ w := productLow_lt nonempty reduced small w a

theorem element_product (a : Nat) : element w r (product w r a b) = element w r a * element w r b :=
  element_productLow nonempty reduced small w a

end Product

theorem element_one (r : Nat) (nonempty : 0 < w) : element w r 1 = 1 := by
  have one : polynomial 1 1 = 1 := by simp [polynomial, coefficient]
  rw [element, polynomial_of_lt (k := 1) (by decide) nonempty, one, map_one]

section Power
variable {w r : Nat} (nonempty : 0 < w) (reduced : r < 2 ^ w)
include nonempty reduced

theorem power_lt (base k j : Nat) : power w r base k j < 2 ^ w := by
  induction k generalizing j with
  | zero => exact Nat.one_lt_two_pow nonempty.ne'
  | succ k ih =>
    have square := product_lt nonempty reduced (ih (j / 2)) (power w r base k (j / 2))
    rw [power]
    split
    · exact product_lt nonempty reduced square base
    · exact square

theorem element_power (base : Nat) {k j : Nat} (small : j < 2 ^ k) :
    element w r (power w r base k j) = element w r base ^ j := by
  induction k generalizing j with
  | zero =>
    obtain rfl : j = 0 := Nat.lt_one_iff.mp small
    rw [power, element_one r nonempty, pow_zero]
  | succ k ih =>
    have half := @ih (j / 2) (by omega)
    have bound := power_lt nonempty reduced base k (j / 2)
    have square := product_lt nonempty reduced bound (power w r base k (j / 2))
    have split := Nat.div_add_mod j 2
    rw [power, Nat.testBit_zero]
    by_cases odd : j % 2 = 1
    · rw [decide_eq_true odd, if_pos rfl, element_product nonempty reduced square,
        element_product nonempty reduced bound, half, ← pow_add, ← pow_succ']
      congr 1
      omega
    · rw [decide_eq_false odd, if_neg Bool.false_ne_true, element_product nonempty reduced bound, half,
        ← pow_add]
      congr 1
      omega

end Power

theorem element_iterate (r : Nat) (nonempty : 0 < w) (j n : Nat) :
    element w r ((double w r)^[j] n) = generator w r ^ j * element w r n := by
  induction j with
  | zero => rw [iterate_zero_apply, pow_zero, one_mul]
  | succ j ih =>
    rw [iterate_succ_apply', element_double w r nonempty, ih, ← mul_assoc, ← pow_succ']

theorem element_two (w r : Nat) : element (w + 2) r 2 = generator (w + 2) r := by
  have one : polynomial (w + 1) 1 = 1 := by
    rw [polynomial_of_lt (k := 1) (by decide) (Nat.succ_pos w)]
    simp [polynomial, coefficient]
  have two : polynomial (w + 2) 2 = X := (polynomial_shift (w + 1) 1).trans (by rw [one, mul_one])
  rw [element, two, AdjoinRoot.mk_X]
  rfl

section Period
variable {w r n j : Nat}

theorem iterate_double_lt (reduced : r < 2 ^ w) (small : n < 2 ^ w) (j : Nat) :
    (double w r)^[j] n < 2 ^ w := by
  cases j with
  | zero => exact small
  | succ j =>
    rw [iterate_succ_apply']
    exact double_lt reduced _

variable (nonempty : 0 < w)
include nonempty

/-- When a power of the generator is one, every word comes back after so many doublings. -/
theorem isPeriodicPt_of_pow (reduced : r < 2 ^ w) (small : n < 2 ^ w) (one : generator w r ^ j = 1) :
    IsPeriodicPt (double w r) j n := by
  apply element_injective (iterate_double_lt reduced small j) small
  rw [element_iterate r nonempty, one, one_mul]

/-- When a power of the generator is `a`, and `a` without one has an inverse, no word
but zero comes back. -/
theorem eq_zero_of_isPeriodicPt {a inverse : Nat} (reduced : r < 2 ^ w) (small : n < 2 ^ w)
    (bound : inverse < 2 ^ w) (pow : generator w r ^ j = element w r a)
    (unit : product w r (a ^^^ 1) inverse = 1) (periodic : IsPeriodicPt (double w r) j n) : n = 0 := by
  have again : element w r a * element w r n = element w r n := by
    rw [← pow, ← element_iterate r nonempty, periodic.eq]
  have vanish : element w r (a ^^^ 1) * element w r n = 0 := by
    rw [element_xor, element_one r nonempty, add_mul, one_mul, again, ← element_xor, Nat.xor_self,
      element_zero]
  have inverted : element w r inverse * element w r (a ^^^ 1) = 1 := by
    rw [mul_comm, ← element_product nonempty reduced bound, unit, element_one r nonempty]
  apply element_injective small (Nat.two_pow_pos w)
  calc element w r n
      = element w r inverse * element w r (a ^^^ 1) * element w r n := by rw [inverted, one_mul]
    _ = element w r 0 := by rw [mul_assoc, vanish, mul_zero, element_zero]

end Period

/-- A period that divides `n` but not `n` without one of its primes has this prime. -/
theorem prime_dvd_minimalPeriod {α : Type*} {f : α → α} {a : α} {n q : Nat} (prime : q.Prime)
    (dvd : q ∣ n) (whole : IsPeriodicPt f n a) (part : ¬ IsPeriodicPt f (n / q) a) :
    q ∣ minimalPeriod f a := by
  rw [isPeriodicPt_iff_minimalPeriod_dvd] at whole part
  obtain ⟨m, rfl⟩ := dvd
  rw [Nat.mul_div_cancel_left m prime.pos] at part
  obtain ⟨c, whole⟩ := whole
  have either : q ∣ minimalPeriod f a * c := ⟨m, whole.symm⟩
  refine (prime.dvd_mul.mp either).resolve_right fun ⟨d, cofactor⟩ => part ⟨d, ?_⟩
  rw [cofactor, Nat.mul_left_comm] at whole
  exact Nat.eq_of_mul_eq_mul_left prime.pos whole

end BinaryField

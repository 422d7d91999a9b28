import Mathlib.Data.Nat.Bitwise

/-! Machine words read as numbers. A bitwise combination whose operands keep to
separate bit ranges is a sum, so that shifts, masks and tags become linear
arithmetic. -/
namespace Bits

/-- A statement about every byte follows from its 256 instances. -/
theorem forall_byte {p : UInt8 → Prop} (h : ∀ n : Fin 256, p (UInt8.ofFin n)) (b : UInt8) : p b := by
  simpa using h b.toFin

/-- The low bits of a number cancel against themselves. -/
theorem xor_low (n k : Nat) : n ^^^ n % 2 ^ k = 2 ^ k * (n / 2 ^ k) := by
  apply Nat.eq_of_testBit_eq
  intro i
  rw [Nat.testBit_xor, Nat.testBit_mod_two_pow, Nat.testBit_two_pow_mul]
  by_cases below : i < k
  · rw [decide_eq_true below, decide_eq_false (Nat.not_le_of_lt below), Bool.true_and, Bool.false_and,
      Bool.xor_self]
  · rw [decide_eq_false below, decide_eq_true (Nat.le_of_not_lt below), Bool.true_and, Bool.false_and,
      Bool.xor_false, Nat.testBit_div_two_pow, Nat.sub_add_cancel (Nat.le_of_not_lt below)]

/-- A mask over the upper half of a word takes its low half off. -/
theorem and_upper {n k : Nat} (small : n < 2 ^ (k + k)) :
    n &&& 2 ^ k * (2 ^ k - 1) = 2 ^ k * (n / 2 ^ k) := by
  apply Nat.eq_of_testBit_eq
  intro i
  rw [Nat.testBit_and, Nat.testBit_two_pow_mul, Nat.testBit_two_pow_sub_one, Nat.testBit_two_pow_mul,
    Nat.testBit_div_two_pow]
  by_cases below : i < k
  · rw [decide_eq_false (Nat.not_le_of_lt below), Bool.false_and, Bool.false_and, Bool.and_false]
  · have above := Nat.le_of_not_lt below
    rw [decide_eq_true above, Bool.true_and, Bool.true_and, Nat.sub_add_cancel above]
    by_cases inside : i - k < k
    · rw [decide_eq_true inside, Bool.and_true]
    · have outside : n.testBit i = false :=
        Nat.testBit_lt_two_pow (small.trans_le (Nat.pow_le_pow_right (by decide) (by omega)))
      rw [outside, Bool.false_and]

theorem or_eq_add {x y k : Nat} (hx : 2 ^ k ∣ x) (hy : y < 2 ^ k) : x ||| y = x + y := by
  obtain ⟨a, rfl⟩ := hx
  exact (Nat.two_pow_add_eq_or_of_lt hy a).symm

theorem toNat_or {w k : Nat} {x y : BitVec w} (hx : 2 ^ k ∣ x.toNat) (hy : y.toNat < 2 ^ k) :
    (x ||| y).toNat = x.toNat + y.toNat := by
  rw [BitVec.toNat_or, or_eq_add hx hy]

theorem uint64_or {k : Nat} {x y : UInt64} (hx : 2 ^ k ∣ x.toNat) (hy : y.toNat < 2 ^ k) :
    (x ||| y).toNat = x.toNat + y.toNat := by
  rw [UInt64.toNat_or, or_eq_add hx hy]

/-- Ones in every position from `k` on absorb a word that has no bit below. -/
theorem or_absorb {h l k : Nat} (hh : h < 2 ^ k) (hl : l < 2 ^ k) :
    2 ^ k * h ||| (2 ^ k * (2 ^ k - 1) + l) = 2 ^ k * (2 ^ k - 1) + l := by
  apply Nat.eq_of_testBit_eq
  intro i
  have high := Nat.testBit_two_pow_mul_add h (Nat.two_pow_pos k) i
  rw [Nat.add_zero] at high
  rw [Nat.testBit_or, high, Nat.testBit_two_pow_mul_add _ hl, Nat.testBit_two_pow_sub_one]
  by_cases below : i < k
  · simp [below]
  · by_cases inside : i - k < k
    · simp [below, inside]
    · have outside : h.testBit (i - k) = false :=
        Nat.testBit_lt_two_pow (Nat.lt_of_lt_of_le hh (Nat.pow_le_pow_right (by decide) (by omega)))
      simp [below, outside]

theorem toNat_shiftLeft {w n : Nat} (x : BitVec w) (h : x.toNat * 2 ^ n < 2 ^ w) :
    (x <<< n).toNat = x.toNat * 2 ^ n := by
  rw [BitVec.toNat_shiftLeft, Nat.shiftLeft_eq, Nat.mod_eq_of_lt h]

theorem uint64_shiftLeft (x n : UInt64) (hn : n.toNat < 64) (h : x.toNat * 2 ^ n.toNat < 2 ^ 64) :
    (x <<< n).toNat = x.toNat * 2 ^ n.toNat := by
  rw [UInt64.toNat_shiftLeft, Nat.mod_eq_of_lt hn, Nat.shiftLeft_eq, Nat.mod_eq_of_lt h]

theorem uint64_shiftRight (x n : UInt64) (hn : n.toNat < 64) :
    (x >>> n).toNat = x.toNat / 2 ^ n.toNat := by
  rw [UInt64.toNat_shiftRight, Nat.mod_eq_of_lt hn, Nat.shiftRight_eq_div_pow]

/-- The low byte of a shifted word. -/
theorem uint64_byte (x n : UInt64) (hn : n.toNat < 64) :
    ((x >>> n) &&& 0xFF).toUInt8.toNat = x.toNat / 2 ^ n.toNat % 256 := by
  have mask : (0xFF : UInt64).toNat = 2 ^ 8 - 1 := rfl
  rw [UInt64.toNat_toUInt8, UInt64.toNat_and, mask, Nat.and_two_pow_sub_one_eq_mod,
    uint64_shiftRight x n hn]
  omega

theorem uint64_low_byte (x : UInt64) : (x &&& 0xFF).toUInt8.toNat = x.toNat % 256 := by
  have mask : (0xFF : UInt64).toNat = 2 ^ 8 - 1 := rfl
  rw [UInt64.toNat_toUInt8, UInt64.toNat_and, mask, Nat.and_two_pow_sub_one_eq_mod]
  omega

end Bits

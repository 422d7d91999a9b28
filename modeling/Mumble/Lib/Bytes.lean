import Mathlib.Data.Nat.Bitwise
import Mathlib.Data.Nat.Digits.Lemmas

/-! Strings of bytes read as numbers in base 256, from either end. -/
namespace Bytes

def littleEndian (bytes : List UInt8) : Nat := Nat.ofDigits 256 (bytes.map UInt8.toNat)

def bigEndian (bytes : List UInt8) : Nat := littleEndian bytes.reverse

/-- The last `width` base-256 digits of a number, the most significant first. -/
def ofBigEndian : Nat → Nat → List UInt8
  | 0, _ => []
  | width + 1, n => ofBigEndian width (n / 256) ++ [UInt8.ofNat n]

@[simp] theorem littleEndian_nil : littleEndian [] = 0 := rfl

@[simp] theorem littleEndian_cons (b : UInt8) (bytes : List UInt8) :
    littleEndian (b :: bytes) = b.toNat + 256 * littleEndian bytes := rfl

theorem littleEndian_lt (bytes : List UInt8) : littleEndian bytes < 256 ^ bytes.length := by
  have digits : ∀ d ∈ bytes.map UInt8.toNat, d < 256 := by
    intro d member
    obtain ⟨b, -, rfl⟩ := List.mem_map.mp member
    exact b.toNat_lt
  simpa only [littleEndian, List.length_map] using Nat.ofDigits_lt_base_pow_length (by decide) digits

theorem littleEndian_inj {p q : List UInt8} (size : p.length = q.length)
    (value : littleEndian p = littleEndian q) : p = q := by
  induction p generalizing q with
  | nil => exact (List.length_eq_zero_iff.mp size.symm).symm
  | cons a p ih =>
    cases q with
    | nil => cases size
    | cons b q =>
      simp only [littleEndian_cons] at value
      have ha := a.toNat_lt
      have hb := b.toNat_lt
      have head : a = b := UInt8.toNat_inj.mp (by omega)
      have tail := ih (Nat.succ.inj size) (by omega)
      rw [head, tail]

theorem littleEndian_eq_zero {bytes : List UInt8} : littleEndian bytes = 0 ↔ ∀ b ∈ bytes, b = 0 := by
  induction bytes with
  | nil => simp
  | cons b bytes ih =>
    have zero : b = 0 ↔ b.toNat = 0 := UInt8.toNat_inj.symm
    rw [littleEndian_cons, List.forall_mem_cons, ← ih, zero]
    omega

/-- Byte `k / 8` of the string carries bit `k` of its number. -/
theorem littleEndian_testBit (bytes : List UInt8) (k : Nat) :
    (littleEndian bytes).testBit k = ((bytes[k / 8]?.getD 0).toNat).testBit (k % 8) := by
  induction bytes generalizing k with
  | nil => simp
  | cons b bytes ih =>
    have split := Nat.testBit_two_pow_mul_add (i := 8) (littleEndian bytes) b.toNat_lt k
    rw [littleEndian_cons, Nat.add_comm, show 256 = 2 ^ 8 from rfl, split]
    by_cases low : k < 8
    · rw [if_pos low, Nat.div_eq_of_lt low, Nat.mod_eq_of_lt low]
      rfl
    · have next : k / 8 = (k - 8) / 8 + 1 := by omega
      have same : k % 8 = (k - 8) % 8 := by omega
      rw [if_neg low, ih, next, same, List.getElem?_cons_succ]

theorem bigEndian_lt (bytes : List UInt8) : bigEndian bytes < 256 ^ bytes.length := by
  simpa only [bigEndian, List.length_reverse] using littleEndian_lt bytes.reverse

theorem bigEndian_inj {p q : List UInt8} (size : p.length = q.length)
    (value : bigEndian p = bigEndian q) : p = q := by
  have reversed := littleEndian_inj (by simpa only [List.length_reverse] using size) value
  exact List.reverse_inj.mp reversed

theorem bigEndian_testBit (bytes : List UInt8) (k : Nat) (inside : k / 8 < bytes.length) :
    (bigEndian bytes).testBit k =
      ((bytes[bytes.length - 1 - k / 8]?.getD 0).toNat).testBit (k % 8) := by
  rw [bigEndian, littleEndian_testBit, List.getElem?_reverse inside]

theorem bigEndian_concat (bytes : List UInt8) (b : UInt8) :
    bigEndian (bytes ++ [b]) = b.toNat + 256 * bigEndian bytes := by
  rw [bigEndian, List.reverse_concat, littleEndian_cons, bigEndian]

@[simp] theorem ofBigEndian_length (width n : Nat) : (ofBigEndian width n).length = width := by
  induction width generalizing n with
  | zero => rfl
  | succ width ih => rw [ofBigEndian, List.length_append, ih, List.length_singleton]

theorem bigEndian_ofBigEndian (width : Nat) (small : n < 256 ^ width) :
    bigEndian (ofBigEndian width n) = n := by
  induction width generalizing n with
  | zero => exact (Nat.lt_one_iff.mp small).symm
  | succ width ih =>
    rw [Nat.pow_succ] at small
    have high := ih (Nat.div_lt_of_lt_mul (Nat.mul_comm _ _ ▸ small))
    rw [ofBigEndian, bigEndian_concat, high, UInt8.toNat_ofNat']
    exact Nat.mod_add_div n 256

end Bytes

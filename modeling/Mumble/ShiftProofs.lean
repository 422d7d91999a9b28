import Mumble.BlockAlgebra
import Mumble.Ocb3Aes

/-! The two bit tricks of `ocb_aes.c`. `left_shift` moves the bytes of a string as
its big-endian number is multiplied, and `ntz` finds the highest bit of an `int`
by halving the width in which it lies. -/
namespace Mumble
open Bytes CExec

/-- The last index is the largest. -/
theorem leftShift_overflow (in_ : Vector UInt8 n) (nonempty : 0 < n) (large : 2 ^ 31 < n + bits / 8) :
    leftShift in_ bits = .error .overflow := by
  refine ofFnM_require_error ⟨⟨n - 1, Nat.sub_one_lt nonempty.ne'⟩, ?_⟩
  change ¬ n - 1 + bits / 8 < 2 ^ 31
  omega

/-- The count may go beyond the array, whose bytes are zeros then. -/
theorem leftShift_bytes (in_ : Vector UInt8 n) (fits : n + bits / 8 ≤ 2 ^ 31) :
    ∃ out, leftShift in_ bits = .ok out ∧
      out.toList = ofBigEndian n (bigEndian in_.toList * 2 ^ bits % 2 ^ (8 * n)) := by
  have room : bigEndian in_.toList * 2 ^ bits % 2 ^ (8 * n) < 256 ^ n := by
    have bound := Nat.mod_lt (bigEndian in_.toList * 2 ^ bits) (Nat.two_pow_pos (8 * n))
    rwa [Nat.pow_mul] at bound ⊢
  refine ⟨shifted in_ bits, leftShift_ok in_ fits, ?_⟩
  apply bigEndian_inj
  · rw [Vector.length_toList, ofBigEndian_length]
  · rw [shifted_value, bigEndian_ofBigEndian n room]

theorem leftShift_bytes_sample : ∃ out, leftShift #v[0x01, 0x80, 0xFF, 0x01] 15 = .ok out ∧
    out.toList = ofBigEndian 4 (bigEndian [0x01, 0x80, 0xFF, 0x01] * 2 ^ 15 % 2 ^ (8 * 4)) :=
  leftShift_bytes #v[0x01, 0x80, 0xFF, 0x01] (by decide)

-- the array of `test_left_shift`
example : leftShift #v[0x01, 0x80, 0xFF, 0x01] 15 = .ok #v[0x7F, 0x80, 0x80, 0x00] := by
  rw [leftShift_ok _ (by decide)]
  decide

/-- The longest array and the largest count that an `int` holds. -/
theorem leftShift_beyond :
    ¬ ∃ out, leftShift (Vector.replicate (2 ^ 31 - 1) 0x00) (2 ^ 31 - 1) = .ok out ∧
      out.toList = ofBigEndian (2 ^ 31 - 1)
        (bigEndian (Vector.replicate (2 ^ 31 - 1) 0x00).toList * 2 ^ (2 ^ 31 - 1) %
          2 ^ (8 * (2 ^ 31 - 1))) := by
  rintro ⟨out, returned, -⟩
  rw [leftShift_overflow _ (by decide) (by decide)] at returned
  cases returned

/-- Between two rounds `i` is what is left of `n` after a shift by `out`. It has
its highest bit below `width`, to whose multiples `out` has grown. -/
structure Narrowed (n width : Nat) (s : Nat × Nat) : Prop where
  shifted : n / 2 ^ s.2 = s.1
  positive : 0 < s.1
  small : s.1 < 2 ^ width
  aligned : width ∣ s.2

/-- A round asks the upper half of the width for a bit and keeps one half. -/
theorem ntzStep_narrowed (h : Narrowed n (2 ^ (k + 1)) s) :
    Narrowed n (2 ^ k) (ntzStep s (2 ^ 2 ^ k * (2 ^ 2 ^ k - 1)) (2 ^ k)) := by
  have twice : 2 ^ (k + 1) = 2 ^ k + 2 ^ k := by rw [Nat.pow_succ, Nat.mul_two]
  have square : s.1 < 2 ^ 2 ^ k * 2 ^ 2 ^ k := by
    rw [← Nat.pow_add, ← twice]
    exact h.small
  have half : 2 ^ k ∣ s.2 := (Nat.pow_dvd_pow 2 (Nat.le_succ k)).trans h.aligned
  have masked := Bits.and_upper (Nat.pow_add 2 (2 ^ k) (2 ^ k) ▸ square)
  rw [ntzStep, masked]
  by_cases lower : s.1 < 2 ^ 2 ^ k
  · rw [Nat.div_eq_of_lt lower, Nat.mul_zero, if_neg (not_not_intro rfl)]
    exact ⟨h.shifted, h.positive, lower, half⟩
  · have upper : 0 < s.1 / 2 ^ 2 ^ k := Nat.div_pos (Nat.le_of_not_lt lower) (Nat.two_pow_pos _)
    have found : 2 ^ 2 ^ k * (s.1 / 2 ^ 2 ^ k) ≠ 0 := (Nat.mul_pos (Nat.two_pow_pos _) upper).ne'
    -- `out` has no bit below the double width yet, so that the `or` adds
    have grown : s.2 ||| 2 ^ k = s.2 + 2 ^ k :=
      Bits.or_eq_add h.aligned (Nat.pow_lt_pow_succ Nat.one_lt_two)
    rw [if_pos found, Nat.shiftRight_eq_div_pow, grown]
    refine ⟨?_, upper, Nat.div_lt_of_lt_mul square, half.add (Nat.dvd_refl _)⟩
    rw [Nat.pow_add, ← Nat.div_div_eq_div_mul, h.shifted]

/-- Five rounds go from the width of an `int` to a single bit. -/
theorem ntz_narrowed (positive : 0 < i) (word : i < 2 ^ 32) : ∃ last, Narrowed i 1 (last, ntz i) := by
  have start : Narrowed i (2 ^ 5) (i, 0) := ⟨Nat.div_one i, positive, word, Nat.dvd_zero _⟩
  have rounds := ntzStep_narrowed (ntzStep_narrowed (ntzStep_narrowed (ntzStep_narrowed
    (ntzStep_narrowed start))))
  exact ⟨_, rounds⟩

theorem Narrowed.highest (h : Narrowed n 1 s) : 2 ^ s.2 ≤ n ∧ n < 2 ^ (s.2 + 1) := by
  have one : n / 2 ^ s.2 = 1 := h.shifted.trans (Nat.le_antisymm (Nat.le_of_lt_succ h.small) h.positive)
  have rest := Nat.mod_lt n (Nat.two_pow_pos s.2)
  have divided := Nat.mod_add_div n (2 ^ s.2)
  rw [one, Nat.mul_one] at divided
  omega

/-- `ntz` is the logarithm that its comment and its test promise, and monotone then. -/
theorem ntz_highest_bit (positive : 0 < i) (le : i ≤ j) (int : j < 2 ^ 31) :
    (2 ^ ntz i ≤ i ∧ i < 2 ^ (ntz i + 1)) ∧ ntz i ≤ ntz j := by
  have word : j < 2 ^ 32 := int.trans (by decide)
  obtain ⟨_, hi⟩ := ntz_narrowed positive (le.trans_lt word)
  obtain ⟨_, hj⟩ := ntz_narrowed (positive.trans_le le) word
  refine ⟨hi.highest, ?_⟩
  have between : 2 ^ ntz i < 2 ^ (ntz j + 1) :=
    hi.highest.1.trans_lt (le.trans_lt hj.highest.2)
  exact Nat.le_of_lt_succ ((Nat.pow_lt_pow_iff_right Nat.one_lt_two).mp between)

theorem ntz_highest_bit_at_5 : (2 ^ ntz 5 ≤ 5 ∧ 5 < 2 ^ (ntz 5 + 1)) ∧ ntz 5 ≤ ntz 8 :=
  ntz_highest_bit (by decide) (by decide) (by decide)

-- the values of `test_ntz`
example : [1, 2, 4, 5, 8].map ntz = [0, 1, 2, 2, 3] := by decide

end Mumble

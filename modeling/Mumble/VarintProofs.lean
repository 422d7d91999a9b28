import Mumble.Util
import Mumble.Lib.Bits

/-! What `varint_encode` writes and what `varint_decode` makes of it. -/
namespace Mumble
open CExec

/-- The forms of an encoding, by the range of its first byte. -/
theorem tag_ranges (b : UInt8) :
    (b &&& 0x80 = 0x00 ↔ b.toNat < 0x80) ∧
    (b &&& 0xC0 = 0x80 ↔ 0x80 ≤ b.toNat ∧ b.toNat < 0xC0) ∧
    (b &&& 0xE0 = 0xC0 ↔ 0xC0 ≤ b.toNat ∧ b.toNat < 0xE0) ∧
    (b &&& 0xF0 = 0xE0 ↔ 0xE0 ≤ b.toNat ∧ b.toNat < 0xF0) ∧
    (b &&& 0xF0 = 0xF0 ↔ 0xF0 ≤ b.toNat) ∧
    (b &&& 0xFC = 0xF0 ↔ 0xF0 ≤ b.toNat ∧ b.toNat < 0xF4) ∧
    (b &&& 0xFC = 0xF4 ↔ 0xF4 ≤ b.toNat ∧ b.toNat < 0xF8) ∧
    (b &&& 0xFC = 0xF8 ↔ 0xF8 ≤ b.toNat ∧ b.toNat < 0xFC) ∧
    (b &&& 0xFC = 0xFC ↔ 0xFC ≤ b.toNat) := by
  revert b
  exact Bits.forall_byte (by decide +kernel)

theorem int_toNat (b : UInt8) : (int b).toNat = b.toNat := by
  have := b.toNat_lt
  simp only [int, BitVec.toNat_setWidth, UInt8.toNat_toBitVec]
  omega

theorem int_mask (b : UInt8) (k : Nat) (hk : k ≤ 8) :
    (int b &&& BitVec.ofNat 32 (2 ^ k - 1)).toNat = b.toNat % 2 ^ k := by
  have small : 2 ^ k - 1 < 2 ^ 32 := by
    have := Nat.pow_le_pow_right (show 0 < 2 by decide) hk
    omega
  rw [BitVec.toNat_and, BitVec.toNat_ofNat, Nat.mod_eq_of_lt small, int_toNat,
    Nat.and_two_pow_sub_one_eq_mod]

theorem int_shift (b : UInt8) (n : Nat) (hn : n ≤ 24) : (int b <<< n).toNat = b.toNat * 2 ^ n := by
  have bound := b.toNat_lt
  have grow := Nat.pow_le_pow_right (show 0 < 2 by decide) hn
  rw [Bits.toNat_shiftLeft, int_toNat]
  rw [int_toNat]
  calc b.toNat * 2 ^ n ≤ b.toNat * 2 ^ 24 := Nat.mul_le_mul_left _ grow
    _ < 2 ^ 32 := by omega

/-- An `int` with the top bit set becomes a `uint64_t` near `2 ^ 64`. -/
theorem u64_toNat (x : BitVec 32) :
    (u64 x).toNat = if x.toNat < 2 ^ 31 then x.toNat else x.toNat + (2 ^ 64 - 2 ^ 32) := by
  have bound := x.isLt
  have top : x.msb = decide (2 ^ 31 ≤ x.toNat) := BitVec.msb_eq_decide x
  simp only [u64, UInt64.toNat_ofBitVec, BitVec.toNat_signExtend, BitVec.toNat_setWidth, top,
    decide_eq_true_eq]
  split <;> split <;> omega

theorem int_pair (x : BitVec 32) (b1 : UInt8) (hx : x.toNat < 2 ^ 8) :
    ((x <<< 8) ||| int b1).toNat = x.toNat * 2 ^ 8 + b1.toNat := by
  have h1 := b1.toNat_lt
  have hs := Bits.toNat_shiftLeft x (n := 8) (by omega)
  rw [Bits.toNat_or (k := 8) (by omega) (by rw [int_toNat]; omega), hs, int_toNat]

theorem int_triple (x : BitVec 32) (b1 b2 : UInt8) (hx : x.toNat < 2 ^ 8) :
    ((x <<< 16) ||| (int b1 <<< 8) ||| int b2).toNat =
      x.toNat * 2 ^ 16 + b1.toNat * 2 ^ 8 + b2.toNat := by
  have h1 := b1.toNat_lt
  have h2 := b2.toNat_lt
  have hs := Bits.toNat_shiftLeft x (n := 16) (by omega)
  have hb := int_shift b1 8 (by decide)
  have high : ((x <<< 16) ||| (int b1 <<< 8)).toNat = x.toNat * 2 ^ 16 + b1.toNat * 2 ^ 8 := by
    rw [Bits.toNat_or (k := 16) (by omega) (by omega), hs, hb]
  rw [Bits.toNat_or (k := 8) (by omega) (by rw [int_toNat]; omega), high, int_toNat]

theorem int_quadruple (x : BitVec 32) (b1 b2 b3 : UInt8) (hx : x.toNat < 2 ^ 8) :
    ((x <<< 24) ||| (int b1 <<< 16) ||| (int b2 <<< 8) ||| int b3).toNat =
      x.toNat * 2 ^ 24 + b1.toNat * 2 ^ 16 + b2.toNat * 2 ^ 8 + b3.toNat := by
  have h1 := b1.toNat_lt
  have h2 := b2.toNat_lt
  have h3 := b3.toNat_lt
  have hs := Bits.toNat_shiftLeft x (n := 24) (by omega)
  have hb := int_shift b1 16 (by decide)
  have hc := int_shift b2 8 (by decide)
  have high : ((x <<< 24) ||| (int b1 <<< 16)).toNat = x.toNat * 2 ^ 24 + b1.toNat * 2 ^ 16 := by
    rw [Bits.toNat_or (k := 24) (by omega) (by omega), hs, hb]
  have middle : ((x <<< 24) ||| (int b1 <<< 16) ||| (int b2 <<< 8)).toNat =
      x.toNat * 2 ^ 24 + b1.toNat * 2 ^ 16 + b2.toNat * 2 ^ 8 := by
    rw [Bits.toNat_or (k := 16) (by omega) (by omega), high, hc]
  rw [Bits.toNat_or (k := 8) (by omega) (by rw [int_toNat]; omega), middle, int_toNat]

theorem u64_eq {x : BitVec 32} (hx : x.toNat = n) :
    u64 x = .ofNat (if n < 2 ^ 31 then n else n + (2 ^ 64 - 2 ^ 32)) := by
  have bound := x.isLt
  apply UInt64.toNat_inj.mp
  rw [u64_toNat, UInt64.toNat_ofNat', hx]
  split <;> omega

/-- What a value becomes when its low 32 bits pass through a signed `int`. -/
def signExtended (n : Nat) : Nat :=
  if n % 2 ^ 32 < 2 ^ 31 then n else n % 2 ^ 32 + (2 ^ 64 - 2 ^ 32)

section Decode
variable {b0 b1 b2 b3 b4 b5 b6 b7 b8 : UInt8} {rest : List UInt8} {size : Int} {result : UInt64}

theorem varintDecode_one (tag : b0.toNat < 0x80) (some : size ≠ 0) :
    varintDecode (b0 :: rest) size result = .ok (1, .ofNat b0.toNat) := by
  have value : (b0 &&& 0x7F).toUInt64 = .ofNat b0.toNat := by
    apply UInt64.toNat_inj.mp
    have mask : (0x7F : UInt8).toNat = 2 ^ 7 - 1 := rfl
    rw [UInt8.toNat_toUInt64, UInt8.toNat_and, mask, Nat.and_two_pow_sub_one_eq_mod, UInt64.toNat_ofNat']
    omega
  have one := (tag_ranges b0).1.mpr tag
  simp only [varintDecode, varintDecodeRec, if_neg some, load_zero, ok_bind, if_pos one, value]

theorem varintDecode_two (low : 0x80 ≤ b0.toNat) (high : b0.toNat < 0xC0) (long : 2 ≤ size) :
    varintDecode (b0 :: b1 :: rest) size result =
      .ok (2, .ofNat ((b0.toNat - 0x80) * 2 ^ 8 + b1.toNat)) := by
  have mask : (int b0 &&& 0x3F).toNat = b0.toNat - 0x80 := by
    rw [show (0x3F : BitVec 32) = BitVec.ofNat 32 (2 ^ 6 - 1) from rfl, int_mask b0 6 (by decide)]
    omega
  have hb := b1.toNat_lt
  have value := u64_eq ((int_pair (int b0 &&& 0x3F) b1 (by omega)).trans (by rw [mask]))
  rw [if_pos (by omega)] at value
  obtain ⟨one, two, -⟩ := tag_ranges b0
  have none : ¬ b0 &&& 0x80 = 0x00 := by rw [one]; omega
  simp only [varintDecode, varintDecodeRec, if_neg (show ¬ size = 0 by omega), load_zero, load_succ,
    ok_bind, if_neg none, if_pos (two.mpr ⟨low, high⟩), if_neg (show ¬ size < 2 by omega), value]

theorem varintDecode_three (low : 0xC0 ≤ b0.toNat) (high : b0.toNat < 0xE0) (some : size ≠ 0) :
    varintDecode (b0 :: b1 :: b2 :: rest) size result =
      .ok (3, .ofNat ((b0.toNat - 0xC0) * 2 ^ 16 + b1.toNat * 2 ^ 8 + b2.toNat)) := by
  have mask : (int b0 &&& 0x1F).toNat = b0.toNat - 0xC0 := by
    rw [show (0x1F : BitVec 32) = BitVec.ofNat 32 (2 ^ 5 - 1) from rfl, int_mask b0 5 (by decide)]
    omega
  have h1 := b1.toNat_lt
  have h2 := b2.toNat_lt
  have value := u64_eq ((int_triple (int b0 &&& 0x1F) b1 b2 (by omega)).trans (by rw [mask]))
  rw [if_pos (by omega)] at value
  obtain ⟨one, two, three, four, long, -⟩ := tag_ranges b0
  have notOne : ¬ b0 &&& 0x80 = 0x00 := by rw [one]; omega
  have notTwo : ¬ b0 &&& 0xC0 = 0x80 := by rw [two]; omega
  have notLong : ¬ b0 &&& 0xF0 = 0xF0 := by rw [long]; omega
  have notFour : ¬ b0 &&& 0xF0 = 0xE0 := by rw [four]; omega
  simp only [varintDecode, varintDecodeRec, if_neg some, load_zero, load_succ, ok_bind,
    if_neg notOne, if_neg notTwo, if_neg notLong, if_neg notFour, if_pos (three.mpr ⟨low, high⟩), value]

theorem varintDecode_four (low : 0xE0 ≤ b0.toNat) (high : b0.toNat < 0xF0) (some : size ≠ 0) :
    varintDecode (b0 :: b1 :: b2 :: b3 :: rest) size result =
      .ok (4, .ofNat ((b0.toNat - 0xE0) * 2 ^ 24 + b1.toNat * 2 ^ 16 + b2.toNat * 2 ^ 8 + b3.toNat)) := by
  have mask : (int b0 &&& 0x0F).toNat = b0.toNat - 0xE0 := by
    rw [show (0x0F : BitVec 32) = BitVec.ofNat 32 (2 ^ 4 - 1) from rfl, int_mask b0 4 (by decide)]
    omega
  have h1 := b1.toNat_lt
  have h2 := b2.toNat_lt
  have h3 := b3.toNat_lt
  have value := u64_eq ((int_quadruple (int b0 &&& 0x0F) b1 b2 b3 (by omega)).trans (by rw [mask]))
  rw [if_pos (by omega)] at value
  obtain ⟨one, two, -, four, long, -⟩ := tag_ranges b0
  have notOne : ¬ b0 &&& 0x80 = 0x00 := by rw [one]; omega
  have notTwo : ¬ b0 &&& 0xC0 = 0x80 := by rw [two]; omega
  have notLong : ¬ b0 &&& 0xF0 = 0xF0 := by rw [long]; omega
  simp only [varintDecode, varintDecodeRec, if_neg some, load_zero, load_succ, ok_bind,
    if_neg notOne, if_neg notTwo, if_neg notLong, if_pos (four.mpr ⟨low, high⟩), value]

/-- The first operand of the 32-bit form reaches the sign bit of an `int`. -/
theorem varintDecode_five (low : 0xF0 ≤ b0.toNat) (high : b0.toNat < 0xF4) (some : size ≠ 0) :
    varintDecode (b0 :: b1 :: b2 :: b3 :: b4 :: rest) size result =
      .ok (5, .ofNat (signExtended
        (b1.toNat * 2 ^ 24 + b2.toNat * 2 ^ 16 + b3.toNat * 2 ^ 8 + b4.toNat))) := by
  have h1 := b1.toNat_lt
  have h2 := b2.toNat_lt
  have h3 := b3.toNat_lt
  have h4 := b4.toNat_lt
  have value := u64_eq ((int_quadruple (int b1) b2 b3 b4 (by rw [int_toNat]; omega)).trans
    (by rw [int_toNat]))
  obtain ⟨one, two, -, -, long, five, -⟩ := tag_ranges b0
  have notOne : ¬ b0 &&& 0x80 = 0x00 := by rw [one]; omega
  have notTwo : ¬ b0 &&& 0xC0 = 0x80 := by rw [two]; omega
  simp only [varintDecode, varintDecodeRec, if_neg some, load_zero, load_succ, ok_bind,
    if_neg notOne, if_neg notTwo, if_pos (long.mpr low), if_pos (five.mpr ⟨low, high⟩), value,
    signExtended]
  rw [Nat.mod_eq_of_lt (by omega)]

/-- The cast operands of the 64-bit form. -/
theorem cast_quadruple (b1 b2 b3 b4 : UInt8) :
    ((b1.toUInt64 <<< 56) ||| (b2.toUInt64 <<< 48) ||| (b3.toUInt64 <<< 40) |||
      (b4.toUInt64 <<< 32)).toNat =
      2 ^ 32 * (b1.toNat * 2 ^ 24 + b2.toNat * 2 ^ 16 + b3.toNat * 2 ^ 8 + b4.toNat) := by
  have h1 := b1.toNat_lt
  have h2 := b2.toNat_lt
  have h3 := b3.toNat_lt
  have h4 := b4.toNat_lt
  have s1 : (b1.toUInt64 <<< 56).toNat = b1.toNat * 2 ^ 56 :=
    Bits.uint64_shiftLeft _ _ (by decide) (by simp; omega)
  have s2 : (b2.toUInt64 <<< 48).toNat = b2.toNat * 2 ^ 48 :=
    Bits.uint64_shiftLeft _ _ (by decide) (by simp; omega)
  have s3 : (b3.toUInt64 <<< 40).toNat = b3.toNat * 2 ^ 40 :=
    Bits.uint64_shiftLeft _ _ (by decide) (by simp; omega)
  have s4 : (b4.toUInt64 <<< 32).toNat = b4.toNat * 2 ^ 32 :=
    Bits.uint64_shiftLeft _ _ (by decide) (by simp; omega)
  have t2 : ((b1.toUInt64 <<< 56) ||| (b2.toUInt64 <<< 48)).toNat =
      b1.toNat * 2 ^ 56 + b2.toNat * 2 ^ 48 := by
    rw [Bits.uint64_or (k := 56) (by omega) (by omega), s1, s2]
  have t3 : ((b1.toUInt64 <<< 56) ||| (b2.toUInt64 <<< 48) ||| (b3.toUInt64 <<< 40)).toNat =
      b1.toNat * 2 ^ 56 + b2.toNat * 2 ^ 48 + b3.toNat * 2 ^ 40 := by
    rw [Bits.uint64_or (k := 48) (by omega) (by omega), t2, s3]
  rw [Bits.uint64_or (k := 40) (by omega) (by omega), t3, s4]
  omega

theorem u64_small {x : BitVec 32} (hx : x.toNat < 2 ^ 31) : (u64 x).toNat = x.toNat := by
  rw [u64_toNat, if_pos hx]

/-- The operands of the 64-bit form that stay `int`: the first of them carries
its sign bit into the upper half. -/
theorem mixed_or {h : UInt64} {n : Nat} (b5 b6 b7 b8 : UInt8) (hh : h.toNat = 2 ^ 32 * n)
    (hn : n < 2 ^ 32) :
    h ||| u64 (int b5 <<< 24) ||| u64 (int b6 <<< 16) ||| u64 (int b7 <<< 8) ||| u64 (int b8) =
      .ofNat (signExtended (2 ^ 32 * n +
        (b5.toNat * 2 ^ 24 + b6.toNat * 2 ^ 16 + b7.toNat * 2 ^ 8 + b8.toNat))) := by
  have h5 := b5.toNat_lt
  have h6 := b6.toNat_lt
  have h7 := b7.toNat_lt
  have h8 := b8.toNat_lt
  have i5 := int_shift b5 24 (by decide)
  have i6 := int_shift b6 16 (by decide)
  have i7 := int_shift b7 8 (by decide)
  have i8 := int_toNat b8
  have s6 := u64_small (x := int b6 <<< 16) (by omega)
  have s7 := u64_small (x := int b7 <<< 8) (by omega)
  have s8 := u64_small (x := int b8) (by omega)
  have upper : (h ||| u64 (int b5 <<< 24)).toNat =
      if b5.toNat < 128 then 2 ^ 32 * n + b5.toNat * 2 ^ 24
      else 2 ^ 32 * (2 ^ 32 - 1) + b5.toNat * 2 ^ 24 := by
    have s5 := u64_toNat (int b5 <<< 24)
    rw [i5] at s5
    by_cases positive : b5.toNat < 128
    · rw [if_pos (by omega)] at s5
      rw [if_pos positive, Bits.uint64_or (k := 32) (by omega) (by omega), hh, s5]
    · rw [if_neg (by omega)] at s5
      have absorbed := Bits.or_absorb (k := 32) hn (show b5.toNat * 2 ^ 24 < 2 ^ 32 by omega)
      have ones : b5.toNat * 2 ^ 24 + (2 ^ 64 - 2 ^ 32) =
          2 ^ 32 * (2 ^ 32 - 1) + b5.toNat * 2 ^ 24 := by omega
      rw [if_neg positive, UInt64.toNat_or, hh, s5, ones, absorbed]
  have t6 : (h ||| u64 (int b5 <<< 24) ||| u64 (int b6 <<< 16)).toNat =
      (h ||| u64 (int b5 <<< 24)).toNat + b6.toNat * 2 ^ 16 := by
    rw [Bits.uint64_or (k := 24) (by split at upper <;> omega) (by omega), s6, i6]
  have t7 : (h ||| u64 (int b5 <<< 24) ||| u64 (int b6 <<< 16) ||| u64 (int b7 <<< 8)).toNat =
      (h ||| u64 (int b5 <<< 24)).toNat + b6.toNat * 2 ^ 16 + b7.toNat * 2 ^ 8 := by
    rw [Bits.uint64_or (k := 16) (by split at upper <;> omega) (by omega), t6, s7, i7]
  apply UInt64.toNat_inj.mp
  rw [Bits.uint64_or (k := 8) (by split at upper <;> omega) (by omega), t7, s8, i8, upper,
    UInt64.toNat_ofNat', signExtended]
  split <;> split <;> omega

theorem varintDecode_nine (low : 0xF4 ≤ b0.toNat) (high : b0.toNat < 0xF8) (some : size ≠ 0) :
    varintDecode (b0 :: b1 :: b2 :: b3 :: b4 :: b5 :: b6 :: b7 :: b8 :: rest) size result =
      .ok (9, .ofNat (signExtended
        (2 ^ 32 * (b1.toNat * 2 ^ 24 + b2.toNat * 2 ^ 16 + b3.toNat * 2 ^ 8 + b4.toNat) +
          (b5.toNat * 2 ^ 24 + b6.toNat * 2 ^ 16 + b7.toNat * 2 ^ 8 + b8.toNat)))) := by
  have h1 := b1.toNat_lt
  have h2 := b2.toNat_lt
  have h3 := b3.toNat_lt
  have h4 := b4.toNat_lt
  have value := mixed_or b5 b6 b7 b8 (cast_quadruple b1 b2 b3 b4) (by omega)
  obtain ⟨one, two, -, -, long, five, nine, -⟩ := tag_ranges b0
  have notOne : ¬ b0 &&& 0x80 = 0x00 := by rw [one]; omega
  have notTwo : ¬ b0 &&& 0xC0 = 0x80 := by rw [two]; omega
  have notFive : ¬ b0 &&& 0xFC = 0xF0 := by rw [five]; omega
  simp only [varintDecode, varintDecodeRec, if_neg some, load_zero, load_succ, ok_bind,
    if_neg notOne, if_neg notTwo, if_pos (long.mpr (by omega)), if_neg notFive,
    if_pos (nine.mpr ⟨low, high⟩), value]

/-- The form of the complements of the four smallest values. -/
theorem varintDecode_small (low : 0xFC ≤ b0.toNat) (some : size ≠ 0) :
    varintDecode (b0 :: rest) size result = .ok (1, ~~~(b0 &&& 0x03).toUInt64) := by
  obtain ⟨one, two, -, -, long, five, nine, again, small⟩ := tag_ranges b0
  have notOne : ¬ b0 &&& 0x80 = 0x00 := by rw [one]; omega
  have notTwo : ¬ b0 &&& 0xC0 = 0x80 := by rw [two]; omega
  have notFive : ¬ b0 &&& 0xFC = 0xF0 := by rw [five]; omega
  have notNine : ¬ b0 &&& 0xFC = 0xF4 := by rw [nine]; omega
  have notAgain : ¬ b0 &&& 0xFC = 0xF8 := by rw [again]; omega
  simp only [varintDecode, varintDecodeRec, if_neg some, load_zero, ok_bind, if_neg notOne,
    if_neg notTwo, if_pos (long.mpr (by omega)), if_neg notFive, if_neg notNine, if_neg notAgain,
    if_pos (small.mpr low)]

/-- The recursive form calls itself with the same arguments. -/
theorem varintDecodeRec_endless (form : b0 &&& 0xFC = 0xF8) (some : size ≠ 0) (depth : Nat)
    (rest : List UInt8) (result : UInt64) :
    varintDecodeRec depth (b0 :: rest) size result = .error .endless := by
  obtain ⟨one, two, three, four, long, five, nine, again, -⟩ := tag_ranges b0
  have range := again.mp form
  have notOne : ¬ b0 &&& 0x80 = 0x00 := by rw [one]; omega
  have notTwo : ¬ b0 &&& 0xC0 = 0x80 := by rw [two]; omega
  have isLong : b0 &&& 0xF0 = 0xF0 := by rw [long]; omega
  have notFive : ¬ b0 &&& 0xFC = 0xF0 := by rw [five]; omega
  have notNine : ¬ b0 &&& 0xFC = 0xF4 := by rw [nine]; omega
  induction depth generalizing result with
  | zero => rfl
  | succ depth ih =>
    simp only [varintDecodeRec, if_neg some, load_zero, ok_bind, if_neg notOne, if_neg notTwo,
      if_pos isLong, if_neg notFive, if_neg notNine, if_pos form, List.drop_zero]
    have same : size - (0 : Nat) = size := Int.sub_zero size
    rw [same, ih]
    rfl

end Decode

/-- The bytes of the shortest positive form that holds `source`. -/
def varintBytes (source : UInt64) : List UInt8 :=
  let n := source.toNat
  if n < 0x80 then [.ofNat n]
  else if n < 0x4000 then [.ofNat (0x80 + n / 2 ^ 8), .ofNat n]
  else if n < 0x200000 then [.ofNat (0xC0 + n / 2 ^ 16), .ofNat (n / 2 ^ 8), .ofNat n]
  else if n < 0x10000000 then
    [.ofNat (0xE0 + n / 2 ^ 24), .ofNat (n / 2 ^ 16), .ofNat (n / 2 ^ 8), .ofNat n]
  else if n < 0x100000000 then
    [0xF0, .ofNat (n / 2 ^ 24), .ofNat (n / 2 ^ 16), .ofNat (n / 2 ^ 8), .ofNat n]
  else
    [0xF4, .ofNat (n / 2 ^ 56), .ofNat (n / 2 ^ 48), .ofNat (n / 2 ^ 40), .ofNat (n / 2 ^ 32),
      .ofNat (n / 2 ^ 24), .ofNat (n / 2 ^ 16), .ofNat (n / 2 ^ 8), .ofNat n]

/-- The ladder in natural numbers. -/
theorem varintEncodeSize_ranges (value : UInt64) :
    varintEncodeSize value = if value.toNat < 2 ^ 7 then 1 else if value.toNat < 2 ^ 14 then 2
      else if value.toNat < 2 ^ 21 then 3 else if value.toNat < 2 ^ 28 then 4
      else if value.toNat < 2 ^ 32 then 5 else 9 := by
  simp only [varintEncodeSize, varintRangeSize, UInt64.lt_iff_toNat_lt]
  rfl

theorem varintEncodeSize_le_nine (value : UInt64) : varintEncodeSize value ≤ 9 := by
  rw [varintEncodeSize_ranges]
  repeat' split
  all_goals decide

theorem varintBytes_length (source : UInt64) :
    ((varintBytes source).length : Int) = varintEncodeSize source := by
  simp only [varintBytes, varintEncodeSize, varintRangeSize, UInt64.lt_iff_toNat_lt]
  simp only [UInt64.reduceToNat, Nat.not_lt_zero, if_false]
  split
  · rfl
  · split
    · rfl
    · split
      · rfl
      · split
        · rfl
        · split <;> rfl

theorem byte_eq {x : UInt8} (h : x.toNat = n % 256) : x = .ofNat n := by
  apply UInt8.toNat_inj.mp
  rw [h, UInt8.toNat_ofNat']

theorem byte_of_shift (x n : UInt64) (hn : n.toNat < 64) :
    ((x >>> n) &&& 0xFF).toUInt8 = .ofNat (x.toNat / 2 ^ n.toNat) :=
  byte_eq (Bits.uint64_byte x n hn)

theorem byte_of_low (x : UInt64) : (x &&& 0xFF).toUInt8 = .ofNat x.toNat :=
  byte_eq (Bits.uint64_low_byte x)

/-- A tag whose bits lie above those of the value. -/
theorem byte_of_tag (x n tag : UInt64) (k : Nat) (hn : n.toNat < 64) (ht : 2 ^ k ∣ tag.toNat)
    (hx : x.toNat / 2 ^ n.toNat < 2 ^ k) :
    ((x >>> n) ||| tag).toUInt8 = .ofNat (tag.toNat + x.toNat / 2 ^ n.toNat) := by
  apply byte_eq
  have hs := Bits.uint64_shiftRight x n hn
  rw [UInt64.toNat_toUInt8, UInt64.or_comm, Bits.uint64_or ht (by omega), hs]

/-- One store by `write_buf`, the bytes before it being written already. -/
theorem writeBuf_next (before after : List UInt8) (old value : UInt8) (written : Int) :
    writeBuf ⟨before ++ old :: after, before.length, written⟩ value =
      .ok ⟨(before ++ [value]) ++ after, (before ++ [value]).length, written + 1⟩ := by
  simp [writeBuf]

/-- A row of stores into a buffer that has room for them. -/
theorem writeBuf_all (values before buf : List UInt8) (written : Int)
    (space : values.length ≤ buf.length) :
    values.foldlM writeBuf ⟨before ++ buf, before.length, written⟩ =
      .ok ⟨before ++ values ++ buf.drop values.length, before.length + values.length,
        written + values.length⟩ := by
  induction values generalizing before buf written with
  | nil => simp
  | cons value values ih =>
    cases buf with
    | nil => simp at space
    | cons old buf =>
      rw [List.foldlM_cons, writeBuf_next, ok_bind, ih _ _ _ (by simpa using space)]
      simp [Nat.add_comm, Nat.add_left_comm, Int.add_comm, Int.add_left_comm]

theorem varintWrite_eq (source : UInt64) (s : WriteBuf) :
    varintWrite source s = (varintBytes source).foldlM writeBuf s := by
  have lt (n : UInt64) : source < n ↔ source.toNat < n.toNat := UInt64.lt_iff_toNat_lt
  have bound := source.toNat_lt
  have one : source.toUInt8 = .ofNat source.toNat := byte_eq (UInt64.toNat_toUInt8 source)
  have b8 := byte_of_shift source 8 (by decide)
  have b16 := byte_of_shift source 16 (by decide)
  have b24 := byte_of_shift source 24 (by decide)
  have b32 := byte_of_shift source 32 (by decide)
  have b40 := byte_of_shift source 40 (by decide)
  have b48 := byte_of_shift source 48 (by decide)
  have b56 := byte_of_shift source 56 (by decide)
  have tag2 (h : source.toNat < 0x4000) := byte_of_tag source 8 0x80 6 (by decide) (by decide)
    (by simp only [UInt64.reduceToNat]; omega)
  have tag3 (h : source.toNat < 0x200000) := byte_of_tag source 16 0xC0 5 (by decide) (by decide)
    (by simp only [UInt64.reduceToNat]; omega)
  have tag4 (h : source.toNat < 0x10000000) := byte_of_tag source 24 0xE0 4 (by decide) (by decide)
    (by simp only [UInt64.reduceToNat]; omega)
  simp only [varintWrite, varintBytes, lt]
  simp only [UInt64.reduceToNat] at b8 b16 b24 b32 b40 b48 b56 tag2 tag3 tag4 ⊢
  split
  · simp only [List.foldlM_cons, List.foldlM_nil, bind_pure, one]
  · split
    · rename_i h
      simp only [List.foldlM_cons, List.foldlM_nil, bind_pure, tag2 h, byte_of_low]
    · split
      · rename_i h
        simp only [List.foldlM_cons, List.foldlM_nil, bind_pure, tag3 h, b8, byte_of_low]
      · split
        · rename_i h
          simp only [List.foldlM_cons, List.foldlM_nil, bind_pure, tag4 h, b8, b16, byte_of_low]
        · split
          · simp only [List.foldlM_cons, List.foldlM_nil, bind_pure, b8, b16, b24, byte_of_low]
          · simp only [List.foldlM_cons, List.foldlM_nil, bind_pure, b8, b16, b24, b32, b40, b48,
              b56, byte_of_low]

/-- With room for it, `varint_encode` writes exactly these bytes. -/
theorem varintEncode_eq (source : UInt64) (buf : List UInt8) (size written : Int)
    (room : varintEncodeSize source ≤ size) (space : (varintBytes source).length ≤ buf.length) :
    varintEncode source buf size written =
      .ok (0, varintBytes source ++ buf.drop (varintBytes source).length, (varintBytes source).length) := by
  have stored := writeBuf_all (varintBytes source) [] buf 0 space
  simp only [List.nil_append, List.length_nil] at stored
  simp only [varintEncode, if_neg (show ¬ size < varintEncodeSize source by omega),
    if_neg (show ¬ source < 0 by simp), varintWrite_eq, stored, ok_bind, Int.zero_add]

theorem writeBuf_length {values : List UInt8} {s t : WriteBuf} (run : values.foldlM writeBuf s = .ok t) :
    t.buf.length = s.buf.length := by
  induction values generalizing s with
  | nil =>
    cases run
    rfl
  | cons value values ih =>
    obtain ⟨m, first, rest⟩ := bind_eq_ok.mp run
    rw [ih rest]
    unfold writeBuf at first
    split at first
    · cases first
      exact List.length_set
    · cases first

/-- No call changes the length of the buffer, and one that writes has room for the encoding. -/
theorem varintEncode_eq_ok {source : UInt64} {buf after : List UInt8} {size written ret count : Int}
    (run : varintEncode source buf size written = .ok (ret, after, count)) :
    after.length = buf.length ∧ (ret = 0 → varintEncodeSize source ≤ size) := by
  unfold varintEncode at run
  split at run
  case isTrue =>
    cases run
    exact ⟨rfl, fun zero => absurd zero (by decide)⟩
  case isFalse room =>
    rw [if_neg (show ¬ source < 0 by simp), varintWrite_eq] at run
    obtain ⟨s, wrote, ended⟩ := bind_eq_ok.mp run
    cases ended
    exact ⟨writeBuf_length wrote, fun _ => Int.le_of_not_gt room⟩

/-- The six ranges of a value, each with its form. -/
theorem varintBytes_forms {P : List UInt8 → Prop} (source : UInt64)
    (one : source.toNat < 0x80 → P [.ofNat source.toNat])
    (two : 0x80 ≤ source.toNat → source.toNat < 0x4000 →
      P [.ofNat (0x80 + source.toNat / 2 ^ 8), .ofNat source.toNat])
    (three : 0x4000 ≤ source.toNat → source.toNat < 0x200000 →
      P [.ofNat (0xC0 + source.toNat / 2 ^ 16), .ofNat (source.toNat / 2 ^ 8), .ofNat source.toNat])
    (four : 0x200000 ≤ source.toNat → source.toNat < 0x10000000 →
      P [.ofNat (0xE0 + source.toNat / 2 ^ 24), .ofNat (source.toNat / 2 ^ 16),
        .ofNat (source.toNat / 2 ^ 8), .ofNat source.toNat])
    (five : 0x10000000 ≤ source.toNat → source.toNat < 0x100000000 →
      P [0xF0, .ofNat (source.toNat / 2 ^ 24), .ofNat (source.toNat / 2 ^ 16),
        .ofNat (source.toNat / 2 ^ 8), .ofNat source.toNat])
    (nine : 0x100000000 ≤ source.toNat →
      P [0xF4, .ofNat (source.toNat / 2 ^ 56), .ofNat (source.toNat / 2 ^ 48),
        .ofNat (source.toNat / 2 ^ 40), .ofNat (source.toNat / 2 ^ 32),
        .ofNat (source.toNat / 2 ^ 24), .ofNat (source.toNat / 2 ^ 16),
        .ofNat (source.toNat / 2 ^ 8), .ofNat source.toNat]) :
    P (varintBytes source) := by
  unfold varintBytes
  dsimp only
  split
  · exact one ‹_›
  · split
    · exact two (by omega) ‹_›
    · split
      · exact three (by omega) ‹_›
      · split
        · exact four (by omega) ‹_›
        · split
          · exact five (by omega) ‹_›
          · exact nine (by omega)

/-- What `varint_decode` stores for an encoded value. -/
theorem varintDecode_bytes (source : UInt64) (suffix : List UInt8) (size : Int) (result : UInt64)
    (long : (varintBytes source).length ≤ size) :
    varintDecode (varintBytes source ++ suffix) size result =
      .ok ((varintBytes source).length, .ofNat (signExtended source.toNat)) := by
  have bound := source.toNat_lt
  have byte (n : Nat) : (UInt8.ofNat n).toNat = n % 256 := UInt8.toNat_ofNat'
  have same {m n : Nat} {k : Int} (h : m = n) :
      (.ok (k, .ofNat m) : Run (Int × UInt64)) = .ok (k, .ofNat n) := by rw [h]
  revert long
  refine varintBytes_forms (P := fun e => e.length ≤ size → varintDecode (e ++ suffix) size result =
    .ok (e.length, .ofNat (signExtended source.toNat))) source ?one ?two ?three ?four ?five ?nine
  case one =>
    intro high long
    simp only [List.length_cons, List.length_nil] at long
    rw [List.cons_append, varintDecode_one (by rw [byte]; omega) (by omega), byte]
    exact same (by rw [signExtended, if_pos] <;> omega)
  case two =>
    intro low high long
    simp only [List.length_cons, List.length_nil] at long
    simp only [List.cons_append]
    rw [varintDecode_two (by rw [byte]; omega) (by rw [byte]; omega) (by omega), byte, byte]
    exact same (by rw [signExtended, if_pos] <;> omega)
  case three =>
    intro low high long
    simp only [List.length_cons, List.length_nil] at long
    simp only [List.cons_append]
    rw [varintDecode_three (by rw [byte]; omega) (by rw [byte]; omega) (by omega)]
    simp only [byte]
    exact same (by rw [signExtended, if_pos] <;> omega)
  case four =>
    intro low high long
    simp only [List.length_cons, List.length_nil] at long
    simp only [List.cons_append]
    rw [varintDecode_four (by rw [byte]; omega) (by rw [byte]; omega) (by omega)]
    simp only [byte]
    exact same (by rw [signExtended, if_pos] <;> omega)
  case five =>
    intro low high long
    simp only [List.length_cons, List.length_nil] at long
    simp only [List.cons_append]
    rw [varintDecode_five (by decide) (by decide) (by omega)]
    simp only [byte]
    exact same (congrArg signExtended (by omega))
  case nine =>
    intro low long
    simp only [List.length_cons, List.length_nil] at long
    simp only [List.cons_append]
    rw [varintDecode_nine (by decide) (by decide) (by omega)]
    simp only [byte]
    exact same (congrArg signExtended (by omega))

/-- The values that survive: bit 31 is clear, or all bits above it are set. -/
theorem signExtended_eq_iff (source : UInt64) :
    UInt64.ofNat (signExtended source.toNat) = source ↔
      source &&& 0x80000000 = 0 ∨ source >>> 32 = 0xFFFFFFFF := by
  have bound := source.toNat_lt
  have bit : source &&& 0x80000000 = 0 ↔ source.toNat / 2 ^ 31 % 2 = 0 := by
    have mask : (0x80000000 : UInt64).toNat = 2 ^ 31 := rfl
    rw [← UInt64.toNat_inj, UInt64.toNat_and, mask, Nat.and_two_pow, Nat.testBit_eq_decide_div_mod_eq]
    simp
  have top : source >>> 32 = 0xFFFFFFFF ↔ source.toNat / 2 ^ 32 = 2 ^ 32 - 1 := by
    rw [← UInt64.toNat_inj, Bits.uint64_shiftRight _ _ (by decide)]
    rfl
  rw [bit, top, ← UInt64.toNat_inj, UInt64.toNat_ofNat', signExtended]
  split <;> omega

/-- Decoding what was encoded gives the value back exactly when the low half of
the value has the sign that an `int` would give to the upper half. -/
theorem varint_round_trip_iff (source : UInt64) (buf : List UInt8) (size written : Int)
    (room : varintEncodeSize source ≤ size) (space : size ≤ buf.length) :
    ∃ after n, varintEncode source buf size written = .ok (0, after, n) ∧
      ∀ (suffix : List UInt8) (limit : Int) (result : UInt64), n ≤ limit →
        (varintDecode (after.take n.toNat ++ suffix) limit result = .ok (n, source) ↔
          source &&& 0x80000000 = 0 ∨ source >>> 32 = 0xFFFFFFFF) := by
  have wide := varintBytes_length source
  refine ⟨_, _, varintEncode_eq source buf size written room (by omega), ?_⟩
  intro suffix limit result long
  rw [Int.toNat_natCast, List.take_left, varintDecode_bytes source suffix limit result long]
  simpa using signExtended_eq_iff source

theorem varint_round_trip_small :
    ∃ after n, varintEncode 300 (List.replicate 10 0) 10 0 = .ok (0, after, n) ∧
      ∀ (suffix : List UInt8) (limit : Int) (result : UInt64), n ≤ limit →
        (varintDecode (after.take n.toNat ++ suffix) limit result = .ok (n, 300) ↔
          (300 : UInt64) &&& 0x80000000 = 0 ∨ (300 : UInt64) >>> 32 = 0xFFFFFFFF) :=
  varint_round_trip_iff 300 (List.replicate 10 0) 10 0 (by decide) (by decide)

/-- `2 ^ 31` comes back as `2 ^ 64 - 2 ^ 31`. -/
theorem varint_round_trip_sign :
    varintEncode 0x80000000 (List.replicate 5 0) 5 0 = .ok (0, [0xF0, 0x80, 0, 0, 0], 5) ∧
      varintDecode [0xF0, 0x80, 0, 0, 0] 5 0 = .ok (5, 0xFFFFFFFF80000000) ∧
      ¬ varintDecode [0xF0, 0x80, 0, 0, 0] 5 0 = .ok (5, 0x80000000) := by
  decide +kernel

end Mumble

import Mumble.PacketParts

/-! Whether the encoder finds a form as short as the one that the decoder has read.
A negative value is a large one to the encoder, and no form of it starts with the
bits of a negative form. -/
namespace Mumble
open CExec

/-- What is accepted is written in no more bytes. -/
def ReencodesWithin (buf : List UInt8) (result : UInt64) : Prop :=
  ∀ n value, varintDecode buf buf.length result = .ok (n, value) → 0 < n → varintEncodeSize value ≤ n

/-- What is accepted and negative as a 64-bit integer is written in a negative form. -/
def ReencodesNegative (buf : List UInt8) (result : UInt64) : Prop :=
  ∀ n value, varintDecode buf buf.length result = .ok (n, value) → 0 < n → 2 ^ 63 ≤ value.toNat →
    ∀ (out : List UInt8) (size written : Int), varintEncodeSize value ≤ size → size ≤ out.length →
      ∃ b0 after count, varintEncode value out size written = .ok (0, b0 :: after, count) ∧
        0xF8 ≤ b0.toNat

/-- The bytes `111111xx`, and those of the form of five with its sign bit set. -/
inductive ShortNegative : List UInt8 → Prop where
  | small {b0 : UInt8} {back : List UInt8} : 0xFC ≤ b0.toNat → ShortNegative (b0 :: back)
  | five {b0 b1 b2 b3 b4 : UInt8} {back : List UInt8} : 0xF0 ≤ b0.toNat → b0.toNat < 0xF4 →
      0x80 ≤ b1.toNat → ShortNegative (b0 :: b1 :: b2 :: b3 :: b4 :: back)

/-- The form of nine with the sign bit of either half set. -/
def LongNegative (buf : List UInt8) : Prop :=
  ∃ b0 b1 b2 b3 b4 b5 b6 b7 b8 back, buf = b0 :: b1 :: b2 :: b3 :: b4 :: b5 :: b6 :: b7 :: b8 :: back ∧
    (0xF4 ≤ b0.toNat ∧ b0.toNat < 0xF8) ∧ (0x80 ≤ b1.toNat ∨ 0x80 ≤ b5.toNat)

/-- Up to four bytes carry seven bits each. -/
theorem varintEncodeSize_le {value : UInt64} (n : Nat) (some : 0 < n) (four : n ≤ 4)
    (small : value.toNat < 2 ^ (7 * n)) : varintEncodeSize value ≤ n := by
  rw [varintEncodeSize_ranges]
  obtain rfl | rfl | rfl | rfl : n = 1 ∨ n = 2 ∨ n = 3 ∨ n = 4 := by omega
  all_goals
    repeat' split
    all_goals omega

theorem varintEncodeSize_le_five {value : UInt64} (small : value.toNat < 2 ^ 32) :
    varintEncodeSize value ≤ 5 := by
  rw [varintEncodeSize_ranges]
  repeat' split
  all_goals omega

/-- A negative value is written in the form of nine. -/
theorem varintBytes_negative {value : UInt64} (negative : 2 ^ 63 ≤ value.toNat) :
    ∃ rest, varintBytes value = 0xF4 :: rest := by
  refine varintBytes_forms (P := fun bytes => ∃ rest, bytes = 0xF4 :: rest) value ?_ ?_ ?_ ?_ ?_ ?_
  case refine_6 => exact fun _ => ⟨_, rfl⟩
  all_goals
    intros
    omega

theorem varintEncodeSize_negative {value : UInt64} (negative : 2 ^ 63 ≤ value.toNat) :
    varintEncodeSize value = 9 := by
  rw [varintEncodeSize_ranges]
  repeat rw [if_neg (by omega)]

/-- The first byte that the encoder writes for a negative value is not one of a negative form. -/
theorem reencodesNegative_iff {buf : List UInt8} {result : UInt64} :
    ReencodesNegative buf result ↔ ∀ n value, varintDecode buf buf.length result = .ok (n, value) →
      0 < n → value.toNat < 2 ^ 63 := by
  constructor
  · intro reencodes n value run positive
    by_contra negative
    replace negative := Nat.le_of_not_lt negative
    have width := varintEncodeSize_negative negative
    obtain ⟨rest, bytes⟩ := varintBytes_negative negative
    have count : ((varintBytes value).length : Int) = 9 := (varintBytes_length value).trans width
    have written := varintEncode_eq value (List.replicate 9 0) 9 0 (Int.le_of_eq width)
      (by rw [List.length_replicate]; omega)
    obtain ⟨b0, after, count, again, high⟩ := reencodes n value run positive negative
      (List.replicate 9 0) 9 0 (Int.le_of_eq width) (by rw [List.length_replicate]; exact Int.le_refl 9)
    rw [written, bytes] at again
    cases again
    exact absurd high (by decide)
  · intro small n value run positive negative
    exact absurd (small n value run positive) (Nat.not_lt.mpr negative)

section Forms
variable {buf back front : List UInt8} {value result : UInt64}

theorem toNat_ofNat_small {n : Nat} (small : n < 2 ^ 64) : (UInt64.ofNat n).toNat = n := by
  rw [UInt64.toNat_ofNat', Nat.mod_eq_of_lt small]

/-- The form of five without its sign bit has the value of its bytes. -/
theorem five_value {b1 b2 b3 b4 : UInt8} (unsigned : b1.toNat < 0x80) :
    (UInt64.ofNat (signExtended
      (b1.toNat * 2 ^ 24 + b2.toNat * 2 ^ 16 + b3.toNat * 2 ^ 8 + b4.toNat))).toNat < 2 ^ 31 := by
  have h2 := b2.toNat_lt
  have h3 := b3.toNat_lt
  have h4 := b4.toNat_lt
  rw [signExtended, if_pos (by omega), toNat_ofNat_small (by omega)]
  omega

theorem within_of_form (form : VarintForm front value) (plain : ¬ ShortNegative (front ++ back)) :
    varintEncodeSize value ≤ front.length := by
  cases form with
  | one tag =>
    refine varintEncodeSize_le 1 (by decide) (by decide) ?_
    rw [toNat_ofNat_small (by omega)]
    exact tag
  | @two b0 b1 range =>
    have h1 := b1.toNat_lt
    refine varintEncodeSize_le 2 (by decide) (by decide) ?_
    rw [toNat_ofNat_small (by omega)]
    omega
  | @three b0 b1 b2 range =>
    have h1 := b1.toNat_lt
    have h2 := b2.toNat_lt
    refine varintEncodeSize_le 3 (by decide) (by decide) ?_
    rw [toNat_ofNat_small (by omega)]
    omega
  | @four b0 b1 b2 b3 range =>
    have h1 := b1.toNat_lt
    have h2 := b2.toNat_lt
    have h3 := b3.toNat_lt
    refine varintEncodeSize_le 4 (by decide) (by decide) ?_
    rw [toNat_ofNat_small (by omega)]
    omega
  | @five b0 b1 b2 b3 b4 range =>
    have unsigned : b1.toNat < 0x80 := by
      by_contra sign
      exact plain (.five range.1 range.2 (Nat.le_of_not_lt sign))
    exact varintEncodeSize_le_five (Nat.lt_trans (five_value unsigned) (by decide))
  | nine range => exact varintEncodeSize_le_nine _
  | small low => exact absurd (.small low) plain

/-- A value is negative only by the bytes that say so. -/
theorem unsigned_of_form (form : VarintForm front value) (short : ¬ ShortNegative (front ++ back))
    (long : ¬ LongNegative (front ++ back)) : value.toNat < 2 ^ 63 := by
  cases form with
  | one tag =>
    rw [toNat_ofNat_small (by omega)]
    omega
  | @two b0 b1 range =>
    have h1 := b1.toNat_lt
    rw [toNat_ofNat_small (by omega)]
    omega
  | @three b0 b1 b2 range =>
    have h1 := b1.toNat_lt
    have h2 := b2.toNat_lt
    rw [toNat_ofNat_small (by omega)]
    omega
  | @four b0 b1 b2 b3 range =>
    have h1 := b1.toNat_lt
    have h2 := b2.toNat_lt
    have h3 := b3.toNat_lt
    rw [toNat_ofNat_small (by omega)]
    omega
  | @five b0 b1 b2 b3 b4 range =>
    have unsigned : b1.toNat < 0x80 := by
      by_contra sign
      exact short (.five range.1 range.2 (Nat.le_of_not_lt sign))
    exact Nat.lt_trans (five_value unsigned) (by decide)
  | @nine b0 b1 b2 b3 b4 b5 b6 b7 b8 range =>
    have unsigned : b1.toNat < 0x80 ∧ b5.toNat < 0x80 := by
      by_contra sign
      exact long ⟨b0, b1, b2, b3, b4, b5, b6, b7, b8, back, rfl, range, by omega⟩
    have h2 := b2.toNat_lt
    have h3 := b3.toNat_lt
    have h4 := b4.toNat_lt
    have h6 := b6.toNat_lt
    have h7 := b7.toNat_lt
    have h8 := b8.toNat_lt
    rw [signExtended, if_pos (by omega), toNat_ofNat_small (by omega)]
    omega
  | small low => exact absurd (.small low) short

theorem short_read (short : ShortNegative buf) (result : UInt64) :
    ∃ n value, varintDecode buf buf.length result = .ok (n, value) ∧ 0 < n ∧ n ≤ 5 ∧
      2 ^ 63 ≤ value.toNat := by
  cases short with
  | @small b0 back low =>
    refine ⟨1, _, varintDecode_small low (by rw [List.length_cons]; omega), by decide, by decide, ?_⟩
    have mask : (b0 &&& 0x03).toNat ≤ 3 := by
      rw [UInt8.toNat_and]
      exact Nat.and_le_right
    rw [UInt64.toNat_not, UInt8.toNat_toUInt64, UInt64.size]
    omega
  | @five b0 b1 b2 b3 b4 back low high sign =>
    have h1 := b1.toNat_lt
    have h2 := b2.toNat_lt
    have h3 := b3.toNat_lt
    have h4 := b4.toNat_lt
    refine ⟨5, _, varintDecode_five low high (by rw [List.length_cons]; omega), by decide,
      Int.le_refl 5, ?_⟩
    rw [signExtended, if_neg (by omega), toNat_ofNat_small (by omega)]
    omega

theorem long_read (long : LongNegative buf) (result : UInt64) :
    ∃ n value, varintDecode buf buf.length result = .ok (n, value) ∧ 0 < n ∧ 2 ^ 63 ≤ value.toNat := by
  obtain ⟨b0, b1, b2, b3, b4, b5, b6, b7, b8, back, rfl, range, sign⟩ := long
  have h1 := b1.toNat_lt
  have h2 := b2.toNat_lt
  have h3 := b3.toNat_lt
  have h4 := b4.toNat_lt
  have h5 := b5.toNat_lt
  have h6 := b6.toNat_lt
  have h7 := b7.toNat_lt
  have h8 := b8.toNat_lt
  refine ⟨9, _, varintDecode_nine range.1 range.2 (by rw [List.length_cons]; omega), by decide, ?_⟩
  rw [signExtended]
  split
  · rw [toNat_ofNat_small (by omega)]
    omega
  · rw [toNat_ofNat_small (by omega)]
    omega

end Forms

/-- The encoder finds a form that is no longer unless the bytes are those of a short
negative form, and it never finds a negative form. -/
theorem varint_shortest_iff (buf : List UInt8) (result : UInt64) :
    (ReencodesWithin buf result ↔ ¬ ShortNegative buf) ∧
      (ReencodesNegative buf result ↔ ¬ ShortNegative buf ∧ ¬ LongNegative buf) := by
  constructor
  · constructor
    · intro within short
      obtain ⟨n, value, run, positive, five, negative⟩ := short_read short result
      have size := within n value run positive
      rw [varintEncodeSize_negative negative] at size
      omega
    · intro plain n value run positive
      obtain ⟨front, back, split, rfl, form, -⟩ := exists_varint_form run positive
      rw [split] at plain
      exact within_of_form form plain
  · rw [reencodesNegative_iff]
    constructor
    · intro unsigned
      refine ⟨fun short => ?_, fun long => ?_⟩
      · obtain ⟨n, value, run, positive, -, negative⟩ := short_read short result
        exact absurd (unsigned n value run positive) (Nat.not_lt.mpr negative)
      · obtain ⟨n, value, run, positive, negative⟩ := long_read long result
        exact absurd (unsigned n value run positive) (Nat.not_lt.mpr negative)
    · rintro ⟨short, long⟩ n value run positive
      obtain ⟨front, back, split, -, form, -⟩ := exists_varint_form run positive
      rw [split] at short long
      exact unsigned_of_form form short long

/-- One byte for minus two, and nine bytes for it again. -/
theorem varint_longer :
    varintDecode [0xFD] 1 0 = .ok (1, 0xFFFFFFFFFFFFFFFE) ∧
      varintEncodeSize 0xFFFFFFFFFFFFFFFE = 9 ∧ ¬ ReencodesWithin [0xFD] 0 := by
  have read : varintDecode [0xFD] 1 0 = .ok (1, 0xFFFFFFFFFFFFFFFE) := rfl
  have nine : varintEncodeSize 0xFFFFFFFFFFFFFFFE = 9 := rfl
  refine ⟨read, nine, fun within => ?_⟩
  have size := within 1 0xFFFFFFFFFFFFFFFE read (by decide)
  rw [nine] at size
  exact absurd size (by decide)

end Mumble

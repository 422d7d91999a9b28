import Mumble.ProtobufC.Unpack
import Mumble.Lib.Base128
import Mumble.Lib.Bits

/-! The numbers of the wire format: what is packed is the shortest form in base 128,
of the size that was computed, and parsing takes any form back to its value. -/
namespace ProtobufC
open Base128

section Bytes

theorem toNat_and_low (b : UInt8) : (b &&& 0x7f).toNat = b.toNat % 128 := by
  rw [UInt8.toNat_and]
  exact Nat.and_two_pow_sub_one_eq_mod b.toNat 7

/-- The test of the top bit. -/
theorem top_clear {b : UInt8} : b &&& 0x80 = 0 ↔ b.toNat < 128 := by
  have range := b.toNat_lt
  have bit := Nat.and_two_pow b.toNat 7
  rw [Nat.testBit_eq_decide_div_mod_eq] at bit
  rw [← UInt8.toNat_inj, UInt8.toNat_and]
  change b.toNat &&& 2 ^ 7 = 0 ↔ _
  rw [bit]
  by_cases top : b.toNat / 2 ^ 7 % 2 = 1
  · simp only [top, decide_true, Bool.toNat_true]
    omega
  · simp only [top, decide_false, Bool.toNat_false]
    omega

theorem toNat_or_top (b : UInt8) : (b ||| 0x80).toNat = b.toNat % 128 + 128 := by
  have range := b.toNat_lt
  have low : 128 ||| b.toNat % 128 = 128 + b.toNat % 128 :=
    Bits.or_eq_add (k := 7) (Nat.dvd_refl _) (Nat.mod_lt _ (by decide))
  have whole : b.toNat ||| 128 = 128 ||| b.toNat % 128 := by
    by_cases top : b.toNat < 128
    · rw [Nat.mod_eq_of_lt top, Nat.lor_comm]
    · have split : b.toNat = 128 ||| b.toNat % 128 := by omega
      rw [split, Nat.lor_assoc, Nat.lor_comm _ 128, ← Nat.lor_assoc, Nat.or_self]
      congr 1
      omega
  rw [UInt8.toNat_or]
  change b.toNat ||| 128 = _
  omega

theorem toUInt8_eq (n : UInt32) : n.toUInt8 = UInt8.ofNat n.toNat := by
  apply UInt8.toNat_inj.mp
  simp

theorem or_toUInt8 (n : UInt32) : (n ||| 0x80).toUInt8 = UInt8.ofNat (n.toNat % 128 + 128) := by
  apply UInt8.toNat_inj.mp
  have top := toNat_or_top n.toUInt8
  simp only [UInt32.toUInt8_or, UInt32.toNat_toUInt8] at top ⊢
  rw [show (UInt32.toUInt8 0x80) = 0x80 from rfl, top, toNat_digit (by omega)]
  omega

end Bytes

section Pack

theorem packBytes_eq {more : Nat} {value : UInt32} (small : value.toNat < 128 ^ (more + 1)) :
    packBytes more value = encode value.toNat := by
  induction more generalizing value with
  | zero =>
    simp only [packBytes, toUInt8_eq]
    rw [encode_small (by simpa using small)]
  | succ more ih =>
    have shift : (value >>> 7).toNat = value.toNat / 128 := by
      simp [Nat.shiftRight_eq_div_pow]
    by_cases large : value ≥ 0x80
    · have large' : 128 ≤ value.toNat := UInt32.le_iff_toNat_le.mp large
      have tail : (value >>> 7).toNat < 128 ^ (more + 1) := by
        rw [shift]
        rw [Nat.pow_succ] at small
        omega
      rw [packBytes, if_pos large, encode_large large', or_toUInt8, ih tail, shift]
    · have small' : value.toNat < 128 := by
        simpa using mt UInt32.le_iff_toNat_le.mpr large
      rw [packBytes, if_neg large, encode_small small', toUInt8_eq]

theorem uint32Pack_eq (value : UInt32) : uint32Pack value = encode value.toNat := by
  have range := value.toNat_lt
  exact packBytes_eq (by omega)

theorem negative32 {value : UInt32} : value.toInt32 < 0 ↔ 2 ^ 31 ≤ value.toNat := by
  have range := value.toNat_lt
  have signed : value.toInt32.toInt = (value.toNat : Int).bmod (2 ^ 32) :=
    BitVec.toInt_eq_toNat_bmod value.toBitVec
  rw [Int32.lt_iff_toInt_lt, signed, Int.bmod_def]
  simp only [Int32.toInt_zero]
  split <;> omega

theorem negative64 {value : UInt64} : value.toInt64 < 0 ↔ 2 ^ 63 ≤ value.toNat := by
  have range := value.toNat_lt
  have signed : value.toInt64.toInt = (value.toNat : Int).bmod (2 ^ 64) :=
    BitVec.toInt_eq_toNat_bmod value.toBitVec
  rw [Int64.lt_iff_toInt_lt, signed, Int.bmod_def]
  simp only [Int64.toInt_zero]
  split <;> omega

/-- A number of 32 bits as one of 64. -/
def signExtend (value : UInt32) : Nat :=
  if value.toInt32 < 0 then value.toNat + (2 ^ 64 - 2 ^ 32) else value.toNat

/-- An arithmetic shift takes its digits from the number that is extended to 64 bits. -/
theorem shifted_digit {value : UInt32} (negative : value.toInt32 < 0) {shift : Int32} {s : Nat}
    (shifts : s = 0 ∨ s = 7 ∨ s = 14 ∨ s = 21 ∨ s = 28)
    (same : shift.toBitVec.smod 32 = BitVec.ofNat 32 s) :
    ((value.toInt32 >>> shift).toUInt32 ||| 0x80).toUInt8 =
      UInt8.ofNat (signExtend value / 2 ^ s % 128 + 128) := by
  have range := value.toNat_lt
  have low := negative32.mp negative
  have msb : value.toBitVec.msb = true := by
    rw [BitVec.msb_eq_decide]
    simpa using low
  have small : (BitVec.ofNat 32 s).toNat = s := by
    rw [BitVec.toNat_ofNat]
    omega
  have shifted : (value.toInt32 >>> shift).toUInt32.toNat =
      2 ^ 32 - 1 - (2 ^ 32 - 1 - value.toNat) / 2 ^ s := by
    change (value.toBitVec.sshiftRight' (shift.toBitVec.smod 32)).toNat = _
    rw [same, BitVec.toNat_sshiftRight'_of_msb_true msb, small, Nat.shiftRight_eq_div_pow]
    rfl
  rw [or_toUInt8, shifted, signExtend, if_pos negative]
  congr 2
  rcases shifts with rfl | rfl | rfl | rfl | rfl <;> omega

theorem int32Pack_eq (value : UInt32) : int32Pack value = encode (signExtend value) := by
  by_cases negative : value.toInt32 < 0
  · have range := value.toNat_lt
    have low := negative32.mp negative
    have extended : signExtend value = value.toNat + (2 ^ 64 - 2 ^ 32) := if_pos negative
    have digit {shift : Int32} {s : Nat} := @shifted_digit value negative shift s
    rw [int32Pack, if_pos negative, encode_split 9 (by omega), encode_small (by omega)]
    simp only [List.range_succ, List.range_zero, List.nil_append, List.map_cons, List.map_nil,
      List.cons_append]
    rw [digit (.inl rfl) rfl, digit (.inr (.inl rfl)) rfl, digit (.inr (.inr (.inl rfl))) rfl,
      digit (.inr (.inr (.inr (.inl rfl)))) rfl, digit (.inr (.inr (.inr (.inr rfl)))) rfl]
    have ones (k : Nat) (power : k = 5 ∨ k = 6 ∨ k = 7 ∨ k = 8) :
        UInt8.ofNat (signExtend value / 128 ^ k % 128 + 128) = 0xff := by
      rw [show signExtend value / 128 ^ k % 128 = 127 by rcases power with rfl | rfl | rfl | rfl <;> omega]
      rfl
    have one : UInt8.ofNat (signExtend value / 128 ^ 9) = 0x01 := by
      rw [show signExtend value / 128 ^ 9 = 1 by omega]
      rfl
    rw [ones 5 (by decide), ones 6 (by decide), ones 7 (by decide), ones 8 (by decide), one]
    rfl
  · rw [int32Pack, if_neg negative, signExtend, if_neg negative, uint32Pack_eq]

/-- The digit across the two halves of a number. -/
theorem toNat_middle {hi lo : UInt32} (small : hi.toNat < 8) :
    (hi <<< 4 ||| lo >>> 28).toNat = hi.toNat * 2 ^ 4 + lo.toNat / 2 ^ 28 := by
  have range := lo.toNat_lt
  have high : (hi <<< 4).toNat = hi.toNat * 2 ^ 4 := by
    simp [Nat.shiftLeft_eq]
    omega
  have low : (lo >>> 28).toNat = lo.toNat / 2 ^ 28 := by
    simp [Nat.shiftRight_eq_div_pow]
  rw [UInt32.toNat_or, high, low]
  exact Bits.or_eq_add (k := 4) (Nat.dvd_mul_left _ _) (by omega)

theorem uint64Pack_eq (value : UInt64) : uint64Pack value = encode value.toNat := by
  have range := value.toNat_lt
  have hi_eq : (value >>> 32).toUInt32.toNat = value.toNat / 2 ^ 32 := by
    simp [Nat.shiftRight_eq_div_pow]
    omega
  have lo_eq : value.toUInt32.toNat = value.toNat % 2 ^ 32 := by simp
  unfold uint64Pack
  generalize (value >>> 32).toUInt32 = hi at hi_eq ⊢
  generalize value.toUInt32 = lo at lo_eq ⊢
  by_cases none : hi = 0
  · subst none
    rw [if_pos rfl, uint32Pack_eq]
    simp only [UInt32.toNat_zero] at hi_eq
    congr 1
    omega
  · have some : hi.toNat ≠ 0 := fun zero => none (UInt32.toNat_inj.mp zero)
    have shift (n : UInt32) (k : Nat) (same : n.toNat = k) (small : k < 32) :
        (lo >>> n).toNat = lo.toNat / 2 ^ k := by
      rw [UInt32.toNat_shiftRight, same, Nat.mod_eq_of_lt small, Nat.shiftRight_eq_div_pow]
    have digits : [(lo ||| 0x80).toUInt8, (lo >>> 7 ||| 0x80).toUInt8, (lo >>> 14 ||| 0x80).toUInt8,
        (lo >>> 21 ||| 0x80).toUInt8] =
          (List.range 4).map fun i => UInt8.ofNat (value.toNat / 128 ^ i % 128 + 128) := by
      simp only [or_toUInt8, shift 7 7 rfl (by decide), shift 14 14 rfl (by decide),
        shift 21 21 rfl (by decide), List.range_succ, List.range_zero, List.nil_append,
        List.map_cons, List.map_nil, List.cons_append]
      congr 2
      · omega
      congr 2
      · omega
      congr 2
      · omega
      congr 2
      omega
    rw [if_neg none, digits, encode_split 4 (show 128 ^ 4 ≤ value.toNat by omega)]
    by_cases small : hi < 8
    · have small' : hi.toNat < 8 := small
      rw [if_pos small, toUInt8_eq, toNat_middle small', encode_small (by omega)]
      congr 3
      omega
    · have large : 8 ≤ hi.toNat := Nat.le_of_not_lt small
      have low : (hi &&& 7).toNat = hi.toNat % 8 := by
        rw [UInt32.toNat_and]
        exact Nat.and_two_pow_sub_one_eq_mod hi.toNat 3
      have high : (hi >>> 3).toNat = hi.toNat / 8 := by
        simp [Nat.shiftRight_eq_div_pow]
      have fifth : (hi.toNat % 8 * 2 ^ 4 + lo.toNat / 2 ^ 28) % 128 = value.toNat / 128 ^ 4 % 128 := by
        omega
      have rest : hi.toNat / 8 = value.toNat / 128 ^ 4 / 128 := by omega
      rw [if_neg small, or_toUInt8, toNat_middle (by rw [low]; omega), low, fifth,
        packBytes_eq (by rw [high]; omega), high, rest, encode_large (show 128 ≤ value.toNat / 128 ^ 4 by omega)]

/-- A tag is one number, of which the wire type is the lowest digit in base 8. -/
theorem wireTagPack_eq (id : UInt32) {wireType : UInt8} (small : wireType.toNat < 8) :
    wireTagPack id wireType = encode (id.toNat * 8 + wireType.toNat) := by
  have range := id.toNat_lt
  have tag : tagPack id = encode (id.toNat * 8) := by
    by_cases short : id.toNat < 2 ^ (32 - 3)
    · have shift : (id <<< 3).toNat = id.toNat * 8 := by
        simp [Nat.shiftLeft_eq]
        omega
      rw [tagPack, if_pos short, uint32Pack_eq, shift]
    · have shift : (id.toUInt64 <<< 3).toNat = id.toNat * 8 := by
        simp [Nat.shiftLeft_eq]
        omega
      rw [tagPack, if_neg short, uint64Pack_eq, shift]
  have head (k : Nat) (fits : 8 * k + wireType.toNat < 256) :
      UInt8.ofNat (8 * k) ||| wireType = UInt8.ofNat (8 * k + wireType.toNat) := by
    apply UInt8.toNat_inj.mp
    rw [UInt8.toNat_or, toNat_digit (by omega), toNat_digit fits]
    exact Bits.or_eq_add (k := 3) (Nat.dvd_mul_right _ _) (by omega)
  rw [wireTagPack, tag]
  by_cases one : id.toNat * 8 < 128
  · rw [encode_small one, encode_small (by omega), List.modifyHead_cons, Nat.mul_comm, head _ (by omega)]
  · have low : id.toNat * 8 % 128 + 128 = 8 * (id.toNat % 16 + 16) := by omega
    have low' : (id.toNat * 8 + wireType.toNat) % 128 + 128 = 8 * (id.toNat % 16 + 16) + wireType.toNat := by
      omega
    have rest : (id.toNat * 8 + wireType.toNat) / 128 = id.toNat * 8 / 128 := by omega
    rw [encode_large (show 128 ≤ id.toNat * 8 by omega),
      encode_large (show 128 ≤ id.toNat * 8 + wireType.toNat by omega), List.modifyHead_cons, low, low', rest,
      head _ (by omega)]

end Pack

section Size

theorem uint32Size_eq (v : UInt32) : uint32Size v = (encode v.toNat).length := by
  have range := v.toNat_lt
  unfold uint32Size
  split_ifs
  · exact (encode_length_eq (k := 0) (.inl rfl) (by omega)).symm
  · exact (encode_length_eq (k := 1) (.inr (by omega)) (by omega)).symm
  · exact (encode_length_eq (k := 2) (.inr (by omega)) (by omega)).symm
  · exact (encode_length_eq (k := 3) (.inr (by omega)) (by omega)).symm
  · exact (encode_length_eq (k := 4) (.inr (by omega)) (by omega)).symm

theorem int32Size_eq (v : UInt32) : int32Size v = (encode (signExtend v)).length := by
  have range := v.toNat_lt
  by_cases negative : v.toInt32 < 0
  · have low := negative32.mp negative
    rw [int32Size, if_pos negative, signExtend, if_pos negative]
    exact (encode_length_eq (k := 9) (.inr (by omega)) (by omega)).symm
  · rw [int32Size, if_neg negative, signExtend, if_neg negative, ← uint32Size_eq]
    rfl

theorem uint64Size_eq (v : UInt64) : uint64Size v = (encode v.toNat).length := by
  have range := v.toNat_lt
  have upper : (v >>> 32).toUInt32.toNat = v.toNat / 2 ^ 32 := by
    simp [Nat.shiftRight_eq_div_pow]
    omega
  unfold uint64Size
  generalize (v >>> 32).toUInt32 = hi at upper ⊢
  by_cases none : hi = 0
  · subst none
    rw [if_pos rfl, uint32Size_eq, UInt64.toNat_toUInt32]
    simp only [UInt32.toNat_zero] at upper
    congr 2
    omega
  · have some : hi.toNat ≠ 0 := fun zero => none (UInt32.toNat_inj.mp zero)
    rw [if_neg none]
    split_ifs
    · exact (encode_length_eq (k := 4) (.inr (by omega)) (by omega)).symm
    · exact (encode_length_eq (k := 5) (.inr (by omega)) (by omega)).symm
    · exact (encode_length_eq (k := 6) (.inr (by omega)) (by omega)).symm
    · exact (encode_length_eq (k := 7) (.inr (by omega)) (by omega)).symm
    · exact (encode_length_eq (k := 8) (.inr (by omega)) (by omega)).symm
    · exact (encode_length_eq (k := 9) (.inr (by omega)) (by omega)).symm

theorem getTagSize_eq (id : UInt32) {wireType : Nat} (small : wireType < 8) :
    getTagSize id = (encode (id.toNat * 8 + wireType)).length := by
  have range := id.toNat_lt
  unfold getTagSize
  split_ifs
  · exact (encode_length_eq (k := 0) (.inl rfl) (by omega)).symm
  · exact (encode_length_eq (k := 1) (.inr (by omega)) (by omega)).symm
  · exact (encode_length_eq (k := 2) (.inr (by omega)) (by omega)).symm
  · exact (encode_length_eq (k := 3) (.inr (by omega)) (by omega)).symm
  · exact (encode_length_eq (k := 4) (.inr (by omega)) (by omega)).symm

end Size

section Zigzag

theorem unzigzag32_zigzag32 (v : UInt32) : unzigzag32 (zigzag32 v) = v := by
  have range := v.toNat_lt
  have size : UInt32.size = 2 ^ 32 := rfl
  have odd (n : UInt32) : n &&& 1 ≠ 0 ↔ n.toNat % 2 = 1 := by
    rw [ne_eq, ← UInt32.toNat_inj, UInt32.toNat_and]
    change ¬ n.toNat &&& 1 = 0 ↔ _
    rw [Nat.and_one_is_mod]
    omega
  apply UInt32.toNat_inj.mp
  unfold unzigzag32 zigzag32
  by_cases negative : v.toInt32 < 0
  · have low := negative32.mp negative
    have coded : ((-v) * 2 - 1).toNat = 2 * (2 ^ 32 - v.toNat) - 1 := by
      simp only [UInt32.toNat_sub, UInt32.toNat_mul, UInt32.toNat_neg, size, UInt32.reduceToNat]
      omega
    rw [if_pos negative, if_pos ((odd _).mpr (by omega))]
    simp only [UInt32.toNat_sub, UInt32.toNat_neg, UInt32.toNat_shiftRight, coded, size,
      UInt32.reduceToNat, Nat.shiftRight_eq_div_pow, Nat.reduceMod, Nat.pow_one]
    omega
  · have low := mt negative32.mpr negative
    have coded : (v * 2).toNat = v.toNat * 2 := by
      simp only [UInt32.toNat_mul, UInt32.reduceToNat]
      omega
    rw [if_neg negative, if_neg (mt (odd _).mp (by omega))]
    simp only [UInt32.toNat_shiftRight, coded, UInt32.reduceToNat, Nat.shiftRight_eq_div_pow,
      Nat.reduceMod, Nat.pow_one]
    omega

theorem unzigzag64_zigzag64 (v : UInt64) : unzigzag64 (zigzag64 v) = v := by
  have range := v.toNat_lt
  have size : UInt64.size = 2 ^ 64 := rfl
  have odd (n : UInt64) : n &&& 1 ≠ 0 ↔ n.toNat % 2 = 1 := by
    rw [ne_eq, ← UInt64.toNat_inj, UInt64.toNat_and]
    change ¬ n.toNat &&& 1 = 0 ↔ _
    rw [Nat.and_one_is_mod]
    omega
  apply UInt64.toNat_inj.mp
  unfold unzigzag64 zigzag64
  by_cases negative : v.toInt64 < 0
  · have low := negative64.mp negative
    have coded : ((-v) * 2 - 1).toNat = 2 * (2 ^ 64 - v.toNat) - 1 := by
      simp only [UInt64.toNat_sub, UInt64.toNat_mul, UInt64.toNat_neg, size, UInt64.reduceToNat]
      omega
    rw [if_pos negative, if_pos ((odd _).mpr (by omega))]
    simp only [UInt64.toNat_sub, UInt64.toNat_neg, UInt64.toNat_shiftRight, coded, size,
      UInt64.reduceToNat, Nat.shiftRight_eq_div_pow, Nat.reduceMod, Nat.pow_one]
    omega
  · have low := mt negative64.mpr negative
    have coded : (v * 2).toNat = v.toNat * 2 := by
      simp only [UInt64.toNat_mul, UInt64.reduceToNat]
      omega
    rw [if_neg negative, if_neg (mt (odd _).mp (by omega))]
    simp only [UInt64.toNat_shiftRight, coded, UInt64.reduceToNat, Nat.shiftRight_eq_div_pow,
      Nat.reduceMod, Nat.pow_one]
    omega

end Zigzag

section Parse

theorem parse32_eq {left shift : Nat} (bytes : List UInt8) (inside : shift + 7 * left < 39) {s : UInt32}
    (same : s.toNat = shift) :
    (parse32 left s bytes).toNat = 2 ^ shift * value (bytes.take left) % 2 ^ 32 := by
  induction left generalizing shift s bytes with
  | zero => simp [parse32]
  | succ left ih =>
    cases bytes with
    | nil => simp [parse32]
    | cons b bytes =>
      have next : (s + 7).toNat = shift + 7 := by
        rw [UInt32.toNat_add, same]
        change (shift + 7) % 2 ^ 32 = shift + 7
        omega
      have tail := ih bytes (by omega) next
      have digit : ((b &&& 0x7f).toUInt32 <<< s).toNat = 2 ^ shift * (b.toNat % 128) % 2 ^ 32 := by
        rw [UInt32.toNat_shiftLeft, UInt8.toNat_toUInt32, toNat_and_low, same,
          Nat.mod_eq_of_lt (show shift < 32 by omega), Nat.shiftLeft_eq, Nat.mul_comm]
      have low : 2 ^ shift * (b.toNat % 128) < 2 ^ (shift + 7) := by
        rw [Nat.pow_add]
        exact Nat.mul_lt_mul_of_pos_left (by omega) (Nat.two_pow_pos shift)
      have sum := Nat.two_pow_add_eq_or_of_lt low (value (bytes.take left))
      rw [parse32, UInt32.toNat_or, digit, tail, ← Nat.or_mod_two_pow, Nat.lor_comm, ← sum,
        List.take_succ_cons, value_cons]
      congr 1
      ring

theorem parseUint32_eq (bytes : List UInt8) : (parseUint32 bytes).toNat = value bytes % 2 ^ 32 := by
  have first : (parse32 5 0 bytes).toNat = 2 ^ 0 * value (bytes.take 5) % 2 ^ 32 :=
    parse32_eq bytes (by decide) rfl
  have whole := value_append (bytes.take 5) (bytes.drop 5)
  rw [List.take_append_drop] at whole
  rw [parseUint32, first, whole]
  by_cases short : bytes.length ≤ 5
  · rw [List.drop_of_length_le short]
    simp
  · have five : (bytes.take 5).length = 5 := by
      rw [List.length_take]
      omega
    rw [five]
    omega

theorem parse64_eq {shift : Nat} (bytes : List UInt8) (inside : shift + 7 * bytes.length < 71) {s : UInt64}
    (same : s.toNat = shift) : (parse64 s bytes).toNat = 2 ^ shift * value bytes % 2 ^ 64 := by
  induction bytes generalizing shift s with
  | nil => simp [parse64]
  | cons b bytes ih =>
    rw [List.length_cons] at inside
    have next : (s + 7).toNat = (shift + 7) % 2 ^ 64 := by
      rw [UInt64.toNat_add, same]
      rfl
    have tail := ih (by omega) (next.trans (Nat.mod_eq_of_lt (by omega)))
    have digit : ((b &&& 0x7f).toUInt64 <<< s).toNat = 2 ^ shift * (b.toNat % 128) % 2 ^ 64 := by
      rw [UInt64.toNat_shiftLeft, UInt8.toNat_toUInt64, toNat_and_low, same,
        Nat.mod_eq_of_lt (show shift < 64 by omega), Nat.shiftLeft_eq, Nat.mul_comm]
    have low : 2 ^ shift * (b.toNat % 128) < 2 ^ (shift + 7) := by
      rw [Nat.pow_add]
      exact Nat.mul_lt_mul_of_pos_left (by omega) (Nat.two_pow_pos shift)
    have sum := Nat.two_pow_add_eq_or_of_lt low (value bytes)
    rw [parse64, UInt64.toNat_or, digit, tail, ← Nat.or_mod_two_pow, Nat.lor_comm, ← sum, value_cons]
    congr 1
    ring

theorem parseUint64_eq {bytes : List UInt8} (short : bytes.length ≤ 10) :
    (parseUint64 bytes).toNat = value bytes % 2 ^ 64 := by
  unfold parseUint64
  split_ifs with less
  · have range := value_lt bytes
    have power : 128 ^ bytes.length ≤ 128 ^ 4 := Nat.pow_le_pow_right (by decide) (by omega)
    rw [UInt32.toNat_toUInt64, parseUint32_eq]
    omega
  · have all : (parse64 0 bytes).toNat = 2 ^ 0 * value bytes % 2 ^ 64 := parse64_eq bytes (by omega) rfl
    rw [all, Nat.pow_zero, Nat.one_mul]

theorem parseFixedUint32_fixed32Pack (v : UInt32) (rest : List UInt8) :
    parseFixedUint32 (fixed32Pack v ++ rest) = v := by
  have range := v.toNat_lt
  have byte (n s : UInt32) (k : Nat) (same : n.toNat = k) (same' : s.toNat = k) (small : k ≤ 24) :
      ((v >>> n).toUInt8.toUInt32 <<< s).toNat = v.toNat / 2 ^ k % 256 * 2 ^ k % 2 ^ 32 := by
    rw [UInt32.toNat_shiftLeft, UInt8.toNat_toUInt32, UInt32.toNat_toUInt8, UInt32.toNat_shiftRight, same,
      same', Nat.mod_eq_of_lt (show k < 32 by omega), Nat.shiftRight_eq_div_pow, Nat.shiftLeft_eq]
  have b1 := byte 8 8 8 rfl rfl (by decide)
  have b2 := byte 16 16 16 rfl rfl (by decide)
  have b3 := byte 24 24 24 rfl rfl (by decide)
  have b0 : v.toUInt8.toUInt32.toNat = v.toNat % 2 ^ 8 := by simp
  have two : v.toNat % 2 ^ 8 ||| v.toNat / 2 ^ 8 % 256 * 2 ^ 8 % 2 ^ 32 = v.toNat % 2 ^ 16 := by
    rw [Nat.lor_comm, Bits.or_eq_add (k := 8) (by omega) (by omega)]
    omega
  have three : v.toNat % 2 ^ 16 ||| v.toNat / 2 ^ 16 % 256 * 2 ^ 16 % 2 ^ 32 = v.toNat % 2 ^ 24 := by
    rw [Nat.lor_comm, Bits.or_eq_add (k := 16) (by omega) (by omega)]
    omega
  have four : v.toNat % 2 ^ 24 ||| v.toNat / 2 ^ 24 % 256 * 2 ^ 24 % 2 ^ 32 = v.toNat := by
    rw [Nat.lor_comm, Bits.or_eq_add (k := 24) (by omega) (by omega)]
    omega
  apply UInt32.toNat_inj.mp
  simp only [fixed32Pack, List.cons_append, List.nil_append, parseFixedUint32, UInt32.toNat_or, b0, b1, b2, b3]
  rw [two, three, four]

theorem parseFixedUint64_fixed64Pack (v : UInt64) (rest : List UInt8) :
    parseFixedUint64 (fixed64Pack v ++ rest) = v := by
  have range := v.toNat_lt
  have back : (fixed64Pack v ++ rest).drop 4 = fixed32Pack (v >>> 32).toUInt32 ++ rest := rfl
  have front : fixed64Pack v ++ rest =
      fixed32Pack v.toUInt32 ++ (fixed32Pack (v >>> 32).toUInt32 ++ rest) := List.append_assoc ..
  have low : v.toUInt32.toUInt64.toNat = v.toNat % 2 ^ 32 := by simp
  have high : ((v >>> 32).toUInt32.toUInt64 <<< 32).toNat = v.toNat / 2 ^ 32 * 2 ^ 32 := by
    simp [Nat.shiftRight_eq_div_pow, Nat.shiftLeft_eq]
    omega
  rw [parseFixedUint64, back, front, parseFixedUint32_fixed32Pack, parseFixedUint32_fixed32Pack]
  apply UInt64.toNat_inj.mp
  rw [UInt64.toNat_or, low, high, Nat.lor_comm, Bits.or_eq_add (k := 32) (by omega) (by omega)]
  omega

theorem parseUint32_encode (v : UInt32) : parseUint32 (encode v.toNat) = v := by
  apply UInt32.toNat_inj.mp
  rw [parseUint32_eq, value_encode, Nat.mod_eq_of_lt v.toNat_lt]

theorem parseUint32_signExtend (v : UInt32) : parseUint32 (encode (signExtend v)) = v := by
  have range := v.toNat_lt
  apply UInt32.toNat_inj.mp
  rw [parseUint32_eq, value_encode, signExtend]
  split_ifs <;> omega

theorem encode_short {n : Nat} (small : n < 2 ^ 64) : (encode n).length ≤ 10 :=
  encode_length_le.mpr (by omega)

theorem parseUint64_encode (v : UInt64) : parseUint64 (encode v.toNat) = v := by
  apply UInt64.toNat_inj.mp
  rw [parseUint64_eq (encode_short v.toNat_lt), value_encode, Nat.mod_eq_of_lt v.toNat_lt]

end Parse

section Scalars

theorem signExtend_lt (v : UInt32) : signExtend v < 2 ^ 64 := by
  have range := v.toNat_lt
  unfold signExtend
  split_ifs <;> omega

/-- The numbers that are packed as varints, and how they are extended. -/
def ScalarType.extended : (t : ScalarType) → t.Value → Nat
  | .int32, (v : UInt32) => signExtend v
  | .sint32, v => (zigzag32 v).toNat
  | .uint32, (v : UInt32) | .enum, (v : UInt32) => v.toNat
  | .int64, (v : UInt64) | .uint64, (v : UInt64) => v.toNat
  | .sint64, v => (zigzag64 v).toNat
  | .bool, (v : Bool) => v.toNat
  | .sfixed32, _ | .fixed32, _ | .float, _ | .sfixed64, _ | .fixed64, _ | .double, _ => 0

theorem ScalarType.extended_lt (t : ScalarType) (v : t.Value) : t.extended v < 2 ^ 64 := by
  have range32 (v : UInt32) : v.toNat < 2 ^ 64 := Nat.lt_trans v.toNat_lt (by decide)
  have rangeBool (v : Bool) : v.toNat < 2 ^ 64 := Nat.lt_of_le_of_lt (Bool.toNat_le v) (by decide)
  cases t
  case int32 => exact signExtend_lt v
  case uint32 | enum | sint32 => exact range32 _
  case int64 | uint64 | sint64 => exact UInt64.toNat_lt _
  case bool => exact rangeBool v
  all_goals exact Nat.two_pow_pos 64

theorem scalarPack_varint {t : ScalarType} (varint : t.wireType = wireTypeVarint) (v : t.Value) :
    scalarPack t v = encode (t.extended v) := by
  cases t
  case int32 => exact int32Pack_eq v
  case uint32 | enum | sint32 => exact uint32Pack_eq _
  case int64 | uint64 | sint64 => exact uint64Pack_eq _
  case bool => cases v <;> exact (encode_small (by decide)).symm
  all_goals cases varint

theorem scalarPack_length (t : ScalarType) (v : t.Value) : (scalarPack t v).length = scalarSize t v := by
  cases t
  case int32 => exact (congrArg _ (int32Pack_eq v)).trans (int32Size_eq v).symm
  case uint32 | enum | sint32 => exact (congrArg _ (uint32Pack_eq _)).trans (uint32Size_eq _).symm
  case int64 | uint64 | sint64 => exact (congrArg _ (uint64Pack_eq _)).trans (uint64Size_eq _).symm
  all_goals rfl

theorem parseScalar_scalarPack (t : ScalarType) (v : t.Value) : parseScalar t (scalarPack t v) = v := by
  have fixed32 (v : UInt32) : parseFixedUint32 (fixed32Pack v) = v := by
    simpa using parseFixedUint32_fixed32Pack v []
  have fixed64 (v : UInt64) : parseFixedUint64 (fixed64Pack v) = v := by
    simpa using parseFixedUint64_fixed64Pack v []
  have sint32 (v : UInt32) : unzigzag32 (parseUint32 (sint32Pack v)) = v := by
    rw [sint32Pack, uint32Pack_eq, parseUint32_encode, unzigzag32_zigzag32]
  have sint64 (v : UInt64) : unzigzag64 (parseUint64 (sint64Pack v)) = v := by
    rw [sint64Pack, uint64Pack_eq, parseUint64_encode, unzigzag64_zigzag64]
  cases t
  case int32 => exact (congrArg _ (int32Pack_eq v)).trans (parseUint32_signExtend v)
  case uint32 | enum => exact (congrArg _ (uint32Pack_eq v)).trans (parseUint32_encode v)
  case sint32 => exact sint32 v
  case int64 | uint64 => exact (congrArg _ (uint64Pack_eq v)).trans (parseUint64_encode v)
  case sint64 => exact sint64 v
  case sfixed32 | fixed32 | float => exact fixed32 v
  case sfixed64 | fixed64 | double => exact fixed64 v
  case bool => cases v <;> rfl

end Scalars

end ProtobufC

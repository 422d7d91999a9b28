import Mumble.OcbAes
import Mumble.Lib.Bytes
import Mumble.Lib.BinaryField
import Mumble.Lib.Bits

/-! Blocks as big-endian numbers, and those as the elements of a quotient ring in
which `xor_block` adds, `double_block` multiplies by the generator and
`triple_block` by one more. -/
namespace Mumble
open CExec Bytes

section LeftShift
variable {n : Nat}

theorem vector_testBit (v : Vector UInt8 n) (k : Nat) (inside : k / 8 < n) :
    (bigEndian v.toList).testBit k = (v[n - 1 - k / 8]).toNat.testBit (k % 8) := by
  have size : v.toList.length = n := Vector.length_toList
  rw [bigEndian_testBit v.toList k (by omega), size, Vector.getElem?_toList,
    Vector.getElem?_eq_getElem (by omega), Option.getD_some]

theorem bigEndian_vector_lt (v : Vector UInt8 n) : bigEndian v.toList < 2 ^ (8 * n) := by
  have bound := bigEndian_lt v.toList
  rw [Vector.length_toList] at bound
  rwa [Nat.pow_mul]

theorem bigEndian_vector_eq {v : Vector UInt8 n} (small : m < 2 ^ (8 * n))
    (bits : ∀ k < 8 * n, (bigEndian v.toList).testBit k = m.testBit k) : bigEndian v.toList = m := by
  apply Nat.eq_of_testBit_eq
  intro k
  by_cases inside : k < 8 * n
  · exact bits k inside
  · have grow := Nat.pow_le_pow_right (show 0 < 2 by decide) (Nat.le_of_not_lt inside)
    rw [Nat.testBit_lt_two_pow ((bigEndian_vector_lt v).trans_le grow),
      Nat.testBit_lt_two_pow (small.trans_le grow)]

theorem byte_shiftLeft_testBit (b : UInt8) (hr : r < 8) (hj : j < 8) :
    (b <<< UInt8.ofNat r).toNat.testBit j = (decide (r ≤ j) && b.toNat.testBit (j - r)) := by
  have amount : (UInt8.ofNat r).toNat % 8 = r := by
    rw [UInt8.toNat_ofNat']
    omega
  rw [UInt8.toNat_shiftLeft, amount, Nat.testBit_mod_two_pow, Nat.testBit_shiftLeft]
  simp [hj]

theorem byte_backfill_testBit (b : UInt8) (shift : Nat) (hj : j < 8) :
    (UInt8.ofNat (b.toNat >>> shift)).toNat.testBit j = b.toNat.testBit (shift + j) := by
  rw [UInt8.toNat_ofNat', Nat.testBit_mod_two_pow, Nat.testBit_shiftRight]
  simp [hj]

theorem byte_testBit_high (b : UInt8) (high : 8 ≤ j) : b.toNat.testBit j = false :=
  Nat.testBit_lt_two_pow (b.toNat_lt.trans_le (Nat.pow_le_pow_right (by decide) high))

/-- `left_shift` multiplies the big-endian number of its input. -/
theorem shifted_value (v : Vector UInt8 n) (bits : Nat) :
    bigEndian (shifted v bits).toList = bigEndian v.toList * 2 ^ bits % 2 ^ (8 * n) := by
  apply bigEndian_vector_eq (Nat.mod_lt _ (Nat.two_pow_pos _))
  intro k inside
  rw [vector_testBit _ k (by omega), Nat.testBit_mod_two_pow, ← Nat.shiftLeft_eq,
    Nat.testBit_shiftLeft, decide_eq_true inside, Bool.true_and]
  have hj : k % 8 < 8 := Nat.mod_lt _ (by decide)
  have hr : bits % 8 < 8 := Nat.mod_lt _ (by decide)
  simp only [shifted, shiftedByte, Vector.getElem_ofFn]
  by_cases index : n - 1 - k / 8 + bits / 8 < n
  · rw [dif_pos index]
    by_cases own : bits % 8 ≤ k % 8
    · have place : k - bits = 8 * (k / 8 - bits / 8) + (k % 8 - bits % 8) := by omega
      have byte : n - 1 - (k - bits) / 8 = n - 1 - k / 8 + bits / 8 := by omega
      have bit : (k - bits) % 8 = k % 8 - bits % 8 := by omega
      have reach : bits ≤ k := by omega
      have source := vector_testBit v (k - bits) (by omega)
      simp only [byte, bit] at source
      have beyond : 8 ≤ 8 - bits % 8 + k % 8 := by omega
      rw [source, decide_eq_true reach, Bool.true_and]
      split
      · rw [UInt8.toNat_or, Nat.testBit_or, byte_shiftLeft_testBit _ hr hj,
          byte_backfill_testBit _ _ hj, byte_testBit_high _ beyond, decide_eq_true own]
        simp
      · rw [byte_shiftLeft_testBit _ hr hj, decide_eq_true own, Bool.true_and]
    · split
      · have byte : n - 1 - (k - bits) / 8 = n - 1 - k / 8 + bits / 8 + 1 := by omega
        have bit : (k - bits) % 8 = 8 - bits % 8 + k % 8 := by omega
        have reach : bits ≤ k := by omega
        have source := vector_testBit v (k - bits) (by omega)
        simp only [byte, bit] at source
        rw [source, decide_eq_true reach, UInt8.toNat_or, Nat.testBit_or,
          byte_shiftLeft_testBit _ hr hj, byte_backfill_testBit _ _ hj, decide_eq_false own]
        simp
      · have short : ¬ bits ≤ k := by omega
        rw [byte_shiftLeft_testBit _ hr hj, decide_eq_false own, decide_eq_false short]
        rfl
  · have short : ¬ bits ≤ k := by omega
    rw [dif_neg index, decide_eq_false short]
    simp

end LeftShift

namespace Block

theorem ext_byte {a b : Block} (same : ∀ i, a.byte i = b.byte i) : a = b := by
  obtain ⟨a⟩ := a
  obtain ⟨b⟩ := b
  exact congrArg Block.mk (Vector.ext fun i inside => same ⟨i, inside⟩)

@[simp] theorem toList_length (b : Block) : b.toList.length = 16 := Vector.length_toList

@[simp] theorem toList_ofList (bytes : List UInt8) (size : bytes.length = 16) :
    (ofList bytes size).toList = bytes := rfl

theorem toList_injective {a b : Block} (same : a.toList = b.toList) : a = b := by
  obtain ⟨a⟩ := a
  obtain ⟨b⟩ := b
  exact congrArg Block.mk (Vector.toList_inj.mp same)

theorem toList_getElem? (b : Block) (i : Fin 16) : b.toList[i.val]? = some (b.byte i) := by
  rw [toList, Vector.getElem?_toList, Vector.getElem?_eq_getElem i.isLt]
  rfl

instance : Zero Block := ⟨zeroBlock⟩
instance : Add Block := ⟨xorBlock⟩
instance : Neg Block := ⟨id⟩

@[simp] theorem byte_zero (i : Fin 16) : (0 : Block).byte i = 0 :=
  Vector.getElem_ofFn i.isLt

@[simp] theorem byte_add (a b : Block) (i : Fin 16) : (a + b).byte i = a.byte i ^^^ b.byte i :=
  Vector.getElem_ofFn i.isLt

theorem add_self (a : Block) : a + a = 0 := by
  apply ext_byte
  intro i
  rw [byte_add, byte_zero, UInt8.xor_self]

/-- Blocks under `xor_block`. -/
instance : AddCommGroup Block where
  add_assoc a b c := ext_byte fun i => by simp only [byte_add, UInt8.xor_assoc]
  zero_add a := ext_byte fun i => by simp only [byte_add, byte_zero, UInt8.zero_xor]
  add_zero a := ext_byte fun i => by simp only [byte_add, byte_zero, UInt8.xor_zero]
  add_comm a b := ext_byte fun i => by simp only [byte_add, UInt8.xor_comm]
  neg_add_cancel := add_self
  nsmul := nsmulRec
  zsmul := zsmulRec

instance : Module (ZMod 2) Block :=
  AddCommGroup.zmodModule fun a => by rw [two_nsmul, add_self]

theorem xorBlock_eq_add (a b : Block) : xorBlock a b = a + b := rfl

/-- The big-endian number of a block. -/
def toNat (b : Block) : Nat := bigEndian b.toList

theorem toNat_lt (b : Block) : b.toNat < 2 ^ 128 := bigEndian_vector_lt b.bytes

theorem toNat_injective {a b : Block} (same : a.toNat = b.toNat) : a = b :=
  toList_injective (bigEndian_inj (by rw [toList_length, toList_length]) same)

/-- Bit `k` of the number is a bit of the byte `k / 8` places before the last one. -/
theorem toNat_testBit (b : Block) {k : Nat} (inside : k < 128) :
    b.toNat.testBit k = (b.byte ⟨15 - k / 8, by omega⟩).toNat.testBit (k % 8) :=
  vector_testBit b.bytes k (by omega)

theorem toNat_eq {b : Block} (small : m < 2 ^ 128)
    (bits : ∀ k < 128, b.toNat.testBit k = m.testBit k) : b.toNat = m :=
  bigEndian_vector_eq small bits

theorem toNat_add (a b : Block) : (a + b).toNat = a.toNat ^^^ b.toNat := by
  apply toNat_eq (Nat.xor_lt_two_pow a.toNat_lt b.toNat_lt)
  intro k inside
  rw [toNat_testBit _ inside, byte_add, UInt8.toNat_xor, Nat.testBit_xor, Nat.testBit_xor,
    toNat_testBit a inside, toNat_testBit b inside]

theorem byte_overlay (b : Block) (bytes : List UInt8) (i : Fin 16) :
    (b.overlay bytes).byte i = bytes[i.val]?.getD (b.byte i) :=
  Vector.getElem_ofFn i.isLt

theorem byte_setLast (b : Block) (value : UInt8) (i : Fin 16) :
    (b.setLast value).byte i = if 15 = i.val then value else b.byte i :=
  Vector.getElem_set (by decide) i.isLt

/-- Flipping bits of the last byte flips bits of the number below 256. -/
theorem toNat_setLast (b : Block) (mask : UInt8) :
    (b.setLast (b.byte 15 ^^^ mask)).toNat = b.toNat ^^^ mask.toNat := by
  have small : mask.toNat < 2 ^ 128 := mask.toNat_lt.trans (by decide)
  apply toNat_eq (Nat.xor_lt_two_pow b.toNat_lt small)
  intro k inside
  rw [toNat_testBit _ inside, byte_setLast, Nat.testBit_xor, toNat_testBit b inside]
  by_cases last : k < 8
  · have zero : k / 8 = 0 := Nat.div_eq_of_lt last
    have bit : k % 8 = k := Nat.mod_eq_of_lt last
    simp only [zero, bit, if_true, UInt8.toNat_xor, Nat.testBit_xor]
    rfl
  · have earlier : ¬ 15 = 15 - k / 8 := by omega
    rw [if_neg earlier, byte_testBit_high mask (Nat.le_of_not_lt last), Bool.xor_false]

end Block

theorem high_bit (b : UInt8) : b &&& 0x80 ≠ 0 ↔ b.toNat.testBit 7 = true := by
  revert b
  exact Bits.forall_byte (by decide +kernel)

/-- `double_block` on numbers. -/
theorem doubleBlock_toNat (b : Block) : (doubleBlock b).toNat = BinaryField.double 128 0x87 b.toNat := by
  have moved : Block.toNat ⟨shifted b.bytes 1⟩ = 2 * b.toNat % 2 ^ 128 := by
    rw [Block.toNat, Block.toList, shifted_value, Nat.pow_one, Nat.mul_comm]
    rfl
  have top : b.toNat.testBit 127 = (b.byte 0).toNat.testBit 7 := b.toNat_testBit (by decide)
  unfold doubleBlock BinaryField.double
  simp only [top]
  by_cases lost : (b.byte 0).toNat.testBit 7 = true
  · rw [if_pos ((high_bit _).mpr lost), if_pos lost, Block.toNat_setLast, moved]
    rfl
  · rw [if_neg (fun h => lost ((high_bit _).mp h)), if_neg lost, moved, Nat.xor_zero]

theorem doubleBlock_injective : Function.Injective doubleBlock := by
  intro a b same
  have numbers := congrArg Block.toNat same
  rw [doubleBlock_toNat, doubleBlock_toNat] at numbers
  exact Block.toNat_injective (BinaryField.double_injective rfl a.toNat_lt b.toNat_lt numbers)

/-- The polynomials over the field of two elements modulo `x^128 + x^7 + x^2 + x + 1`. -/
abbrev GF128 := BinaryField.Ring 128 0x87

open Polynomial in
theorem gf128_modulus :
    BinaryField.modulus 128 0x87 = (X ^ 128 + (X ^ 7 + X ^ 2 + X + 1) : (ZMod 2)[X]) := by
  rw [BinaryField.modulus, BinaryField.polynomial_of_lt (k := 8) (by decide) (by decide)]
  have one (i : Nat) (set : Nat.testBit 0x87 i = true) : BinaryField.coefficient 0x87 i = 1 :=
    if_pos set
  have none (i : Nat) (clear : Nat.testBit 0x87 i = false) : BinaryField.coefficient 0x87 i = 0 :=
    if_neg (by simp [clear])
  simp only [BinaryField.polynomial, Finset.sum_range_succ, Finset.sum_range_zero, one 0 rfl,
    one 1 rfl, one 2 rfl, none 3 rfl, none 4 rfl, none 5 rfl, none 6 rfl, one 7 rfl, map_zero,
    monomial_one_right_eq_X_pow]
  ring

namespace GF128

noncomputable def x : GF128 := BinaryField.generator 128 0x87

/-- The polynomial whose coefficients are the bits of a block. -/
noncomputable def ofBlock (b : Block) : GF128 := BinaryField.element 128 0x87 b.toNat

/-- The block of a polynomial. -/
noncomputable def toBlock : GF128 → Block := Function.invFun ofBlock

theorem ofBlock_injective : Function.Injective ofBlock := fun a b same =>
  Block.toNat_injective (BinaryField.element_injective a.toNat_lt b.toNat_lt same)

theorem toBlock_ofBlock (b : Block) : toBlock (ofBlock b) = b :=
  Function.leftInverse_invFun ofBlock_injective b

theorem ofBlock_add (a b : Block) : ofBlock (a + b) = ofBlock a + ofBlock b := by
  rw [ofBlock, Block.toNat_add, BinaryField.element_xor]
  rfl

theorem ofBlock_doubleBlock (b : Block) : ofBlock (doubleBlock b) = x * ofBlock b := by
  rw [ofBlock, doubleBlock_toNat, BinaryField.element_double 128 0x87 (by decide)]
  rfl

theorem ofBlock_tripleBlock (b : Block) : ofBlock (tripleBlock b) = (x + 1) * ofBlock b := by
  rw [tripleBlock, Block.xorBlock_eq_add, ofBlock_add, ofBlock_doubleBlock, add_mul, one_mul, add_comm]

end GF128

end Mumble

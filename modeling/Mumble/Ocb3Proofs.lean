import Mumble.Ocb3
import Mumble.OcbAesProofs

/-! `ocb3_aes_encrypt` in the terms of the mode: the same seal and the same hash, but
of other schedules, another start and another rest of the data. -/
namespace Mumble
open CExec Bytes OffsetSchedule

section Numbers

theorem bigEndian_append (p q : List UInt8) :
    bigEndian (p ++ q) = bigEndian p * 256 ^ q.length + bigEndian q := by
  rw [bigEndian, bigEndian, bigEndian, littleEndian, List.reverse_append, List.map_append,
    Nat.ofDigits_append, List.length_map, List.length_reverse, Nat.add_comm, Nat.mul_comm]
  rfl

/-- The first bytes of a string are its highest digits. -/
theorem bigEndian_take (bytes : List UInt8) (k : Nat) :
    bigEndian (bytes.take k) = bigEndian bytes / 256 ^ (bytes.length - k) := by
  have split := bigEndian_append (bytes.take k) (bytes.drop k)
  have low := bigEndian_lt (bytes.drop k)
  rw [List.take_append_drop] at split
  rw [List.length_drop] at split low
  rw [split, Nat.mul_comm, Nat.mul_add_div (Nat.pos_of_ne_zero (by simp)), Nat.div_eq_of_lt low,
    Nat.add_zero]

theorem ofNat_toNat (n : Nat) : (Block.ofNat n).toNat = n % 2 ^ 128 := by
  have digits (width : Nat) : bigEndian (ofBigEndian width n) = n % 256 ^ width := by
    induction width generalizing n with
    | zero => exact (Nat.mod_one n).symm
    | succ width ih =>
      have high : n % 256 ^ (width + 1) = n % 256 + 256 * (n / 256 % 256 ^ width) := by
        rw [Nat.pow_succ, Nat.mul_comm (256 ^ width), Nat.mod_mul]
      rw [ofBigEndian, bigEndian_concat, ih, UInt8.toNat_ofNat', high]
  exact digits 16

theorem eq_ofNat {b : Block} (number : b.toNat = n % 2 ^ 128) : b = Block.ofNat n :=
  Block.toNat_injective (number.trans (ofNat_toNat n).symm)

theorem toNat_overlay {bytes : List UInt8} (full : 16 ≤ bytes.length) :
    (zeroBlock.overlay bytes).toNat = bigEndian bytes / 256 ^ (bytes.length - 16) := by
  rw [Block.toNat, Block.toList_overlay_full _ full, bigEndian_take]

theorem lastByte (b : Block) : (b.byte ⟨15, last_lt⟩).toNat = b.toNat % 256 := by
  apply Nat.eq_of_testBit_eq
  intro i
  have modulus : (256 : Nat) = 2 ^ 8 := rfl
  rw [modulus, Nat.testBit_mod_two_pow]
  by_cases inside : i < 8
  · have bit := b.toNat_testBit (show i < 128 by omega)
    have byte : i / 8 = 0 := by omega
    have place : i % 8 = i := by omega
    simp only [byte, place] at bit
    rw [bit, decide_eq_true inside]
    rfl
  · rw [byte_testBit_high _ (Nat.le_of_not_lt inside), decide_eq_false inside]
    rfl

end Numbers

section Start
variable (aes : Aes) (ctx : OcbAes)

/-- The number of the nonce's block. -/
def nonceNumber : Nat := 2 ^ 96 + bigEndian (ctx.encIv.toList.take 12)

theorem nonce_length : (ctx.encIv.toList.take 12).length = 12 := by
  rw [List.length_take, Block.toList_length]
  rfl

theorem nonceNumber_bounds : 2 ^ 96 ≤ nonceNumber ctx ∧ nonceNumber ctx < 2 ^ 97 := by
  have below := bigEndian_lt (ctx.encIv.toList.take 12)
  rw [nonce_length] at below
  rw [nonceNumber]
  omega

theorem nonceInit_toNat : (nonceInit ctx).toNat = nonceNumber ctx := by
  have size := nonce_length ctx
  have front : bigEndian [0, 0, 0, 1] = 1 := by decide
  have length : ([0, 0, 0, 0x01] ++ ctx.encIv.toList.take 12).length = 16 := by
    rw [List.length_append, size]
    rfl
  rw [nonceInit, toNat_overlay (Nat.le_of_eq length.symm), length, bigEndian_append, size, front,
    nonceNumber, Nat.sub_self, Nat.pow_zero, Nat.div_one, Nat.one_mul]
  rfl

/-- The low six bits are cleared. -/
theorem clear_low (b : Block) :
    b.setLast (b.byte ⟨15, last_lt⟩ &&& 0xC0) = Block.ofNat (b.toNat - b.toNat % 64) := by
  have byte : b.byte ⟨15, last_lt⟩ &&& 0xC0 = b.byte 15 ^^^ (b.byte ⟨15, last_lt⟩ &&& 0x3F) := by
    change b.byte ⟨15, last_lt⟩ &&& 0xC0 = b.byte ⟨15, last_lt⟩ ^^^ (b.byte ⟨15, last_lt⟩ &&& 0x3F)
    generalize b.byte ⟨15, last_lt⟩ = last
    revert last
    exact Bits.forall_byte (by decide +kernel)
  have low : (b.byte ⟨15, last_lt⟩ &&& 0x3F).toNat = b.toNat % 2 ^ 6 := by
    have mask : (0x3F : UInt8).toNat = 2 ^ 6 - 1 := rfl
    rw [UInt8.toNat_and, mask, Nat.and_two_pow_sub_one_eq_mod, lastByte]
    omega
  have bound := b.toNat_lt
  have high : b.toNat - b.toNat % 64 = 2 ^ 6 * (b.toNat / 2 ^ 6) := by omega
  apply eq_ofNat
  rw [byte, Block.toNat_setLast, low, Bits.xor_low, high, Nat.mod_eq_of_lt (by omega)]

theorem stretchInit_toNat (ktop : Block) :
    bigEndian (stretchInit ktop).toList = stretchNumber ktop.toNat := by
  let xorOut : Vector UInt8 8 := .ofFn fun i =>
    ktop.byte ⟨i.val, i.isLt.trans half_lt⟩ ^^^ ktop.byte ⟨i.val + 1, Nat.lt_of_le_of_lt i.isLt half_lt⟩
  have list : (stretchInit ktop).toList = ktop.toList ++ xorOut.toList := Vector.toList_append
  have small : (ktop.toNat / 2 ^ 64 ^^^ ktop.toNat / 2 ^ 56 % 2 ^ 64) < 2 ^ (8 * 8) := by
    have bound := ktop.toNat_lt
    exact Nat.xor_lt_two_pow (by omega) (Nat.mod_lt _ (by decide))
  have tail : bigEndian xorOut.toList = (ktop.toNat / 2 ^ 64 ^^^ ktop.toNat / 2 ^ 56 % 2 ^ 64) := by
    apply bigEndian_vector_eq small
    intro k inside
    have first := ktop.toNat_testBit (show 64 + k < 128 by omega)
    have second := ktop.toNat_testBit (show 56 + k < 128 by omega)
    rw [vector_testBit _ k (by omega), Nat.testBit_xor, Nat.testBit_mod_two_pow, Nat.testBit_div_two_pow,
      Nat.testBit_div_two_pow, decide_eq_true inside, Bool.true_and, Nat.add_comm k, Nat.add_comm k, first,
      second]
    have place : (64 + k) % 8 = k % 8 := by omega
    have place' : (56 + k) % 8 = k % 8 := by omega
    have byte : 15 - (64 + k) / 8 = 8 - 1 - k / 8 := by omega
    have byte' : 15 - (56 + k) / 8 = 8 - 1 - k / 8 + 1 := by omega
    simp only [xorOut, Vector.getElem_ofFn, UInt8.toNat_xor, Nat.testBit_xor, place, place', byte, byte']
  rw [list, bigEndian_append, tail, Vector.length_toList]
  rfl

theorem offsetInit_eq : offsetInit aes ctx =
    ocb3Start (aes ctx.key) (nonceNumber ctx) (nonceNumber ctx % 32) := by
  have number := nonceInit_toNat ctx
  have bottom : ((nonceInit ctx).byte ⟨15, last_lt⟩ &&& 0x1F).toNat = nonceNumber ctx % 32 := by
    have mask : (0x1F : UInt8).toNat = 2 ^ 5 - 1 := rfl
    rw [UInt8.toNat_and, mask, Nat.and_two_pow_sub_one_eq_mod, lastByte, number]
    omega
  have ktop : ktopInit aes ctx (nonceInit ctx) =
      (aes ctx.key) (Block.ofNat (nonceNumber ctx - nonceNumber ctx % 64)) := by
    rw [ktopInit, clear_low, number]
    rfl
  rw [offsetInit, bottom, ktop, ocb3Start]
  apply eq_ofNat
  generalize (aes ctx.key) _ = top
  have few : nonceNumber ctx % 32 ≤ 64 := by omega
  generalize nonceNumber ctx % 32 = bits at few
  have size : (shifted (stretchInit top) bits).toList.length = 24 := Vector.length_toList
  have whole : 2 ^ 64 = 2 ^ (64 - bits) * 2 ^ bits := by
    rw [← Nat.pow_add, Nat.sub_add_cancel few]
  rw [toNat_overlay (by omega), size, shifted_value, stretchInit_toNat]
  change stretchNumber top.toNat * 2 ^ bits % (2 ^ 64 * 2 ^ 128) / 2 ^ 64 = _
  rw [Nat.mod_mul_right_div_self, whole, Nat.mul_div_mul_right _ _ (Nat.two_pow_pos bits)]

end Start

/-- The `log2` and the `keyvar` at the `t`-th block from the index `i` on. -/
def bumps (stride : Nat) : Nat → Nat × Block → Nat → Nat × Block
  | i, s, 0 => bumpKeyvar i s
  | i, s, t + 1 => bumps stride (i + stride) (bumpKeyvar i s) t

/-- What the offset of the code grows by before each block, with the blocks counted
in steps of `stride`. -/
def codeSchedule (E : Equiv.Perm Block) (stride t : Nat) : Block :=
  (bumps stride 0 (ntz 0, doubleBlock (doubleBlock (E 0))) t).2

section Loops
variable {aes : Aes} {ctx : OcbAes}

theorem ocb3EncryptBlock_eq (b keyvar : Block) (s : Ocb3) :
    ocb3EncryptBlock aes ctx b keyvar s =
      ((aes ctx.key) (b + (s.offset + keyvar)) + (s.offset + keyvar),
        ⟨s.offset + keyvar, s.checksum + b⟩) := by
  simp only [ocb3EncryptBlock, Block.xorBlock_eq_add, aesEncrypt]
  rw [add_comm (s.offset + keyvar) ((aes ctx.key) _)]

theorem ocb3HashBlock_eq (b keyvar : Block) (s : Ocb3) :
    ocb3HashBlock aes ctx b keyvar s =
      ⟨s.offset + keyvar, s.checksum + (aes ctx.key) (b + (s.offset + keyvar))⟩ := by
  simp only [ocb3HashBlock, Block.xorBlock_eq_add, aesEncrypt]
  rw [add_comm s.checksum]

theorem ocb3Blocks_eq (bs : List Block) (rest : List UInt8) (i : Nat) (bumped : Nat × Block) (s : Ocb3) :
    ocb3Blocks aes ctx bs.length i (flat bs ++ rest) bumped s =
      .ok (flat (encipher (aes ctx.key) (fun t => (bumps 1 i bumped t).2) s.offset bs),
        ⟨offset (fun t => (bumps 1 i bumped t).2) s.offset bs.length, s.checksum + bs.sum⟩) := by
  induction bs generalizing i bumped s with
  | nil =>
    rw [List.sum_nil, add_zero]
    rfl
  | cons b bs ih =>
    have later := offset_shift (fun t => (bumps 1 i bumped t).2) s.offset bs.length
    simp only [bumps] at later
    simp only [List.length_cons, flat_cons, List.append_assoc, ocb3Blocks, loadBlock_toList, ok_bind,
      List.drop_left' b.toList_length, ocb3EncryptBlock_eq, ih, encipher_cons, bumps, later, List.sum_cons,
      add_assoc]

theorem ocb3HashBlocks_eq (bs : List Block) (rest : List UInt8) (i : Nat) (bumped : Nat × Block)
    (s : Ocb3) :
    ocb3HashBlocks aes ctx bs.length i (flat bs ++ rest) bumped s =
      .ok ⟨offset (fun t => (bumps 16 i bumped t).2) s.offset bs.length,
        s.checksum + ((points (fun t => (bumps 16 i bumped t).2) s.offset bs).map (aes ctx.key)).sum⟩ := by
  induction bs generalizing i bumped s with
  | nil =>
    rw [points, List.mapIdx_nil, List.map_nil, List.sum_nil, add_zero]
    rfl
  | cons b bs ih =>
    have later := offset_shift (fun t => (bumps 16 i bumped t).2) s.offset bs.length
    simp only [bumps] at later
    simp only [List.length_cons, flat_cons, List.append_assoc, ocb3HashBlocks, loadBlock_toList, ok_bind,
      List.drop_left' b.toList_length, ocb3HashBlock_eq, ih, points_cons, bumps, later, List.map_cons,
      List.sum_cons, add_assoc]

/-- The rest of the data is as long as it should be, but taken from the start. -/
theorem ocb3HashPlaintext_eq (bs : List Block) {p : List UInt8} (short : p.length < 16)
    (rest : List UInt8) :
    ocb3HashPlaintext aes ctx (flat bs ++ p ++ rest) ((flat bs ++ p).length : Nat) =
      .ok (ocb3Hash (aes ctx.key) (codeSchedule (aes ctx.key) 16) bs ((flat bs ++ p).take p.length)) := by
  have length := flat_append_length bs p
  have count : (((((flat bs ++ p).length : Nat) : Int) -
      (((flat bs ++ p).length : Nat) : Int).tmod 16).tdiv 16).toNat = bs.length := by
    rw [Int.tmod_eq_emod_of_nonneg (Int.natCast_nonneg _), Int.tdiv_eq_ediv_of_nonneg (by omega)]
    omega
  have left : (((flat bs ++ p).length : Nat) : Int) - (bs.length : Nat) * 16 = p.length := by omega
  have zero : zeroBlock = 0 := rfl
  have loop := @ocb3HashBlocks_eq aes ctx bs (p ++ rest) 0
    (ntz 0, keyvarInit aes ctx.key) ⟨zeroBlock, zeroBlock⟩
  rw [← List.append_assoc, zero] at loop
  rw [ocb3HashPlaintext, count, zero, loop, ok_bind, left, zero_add]
  have size : ((flat bs ++ p).take p.length).length = p.length := by
    rw [List.length_take]
    omega
  by_cases none : p = []
  · subst none
    rw [if_neg (by rw [length, List.length_nil]; omega), List.length_nil, List.take_zero, ocb3Hash,
      if_pos rfl]
    rfl
  · have some : 0 < p.length := List.length_pos_iff.mpr none
    have inside : p.length ≤ (flat bs ++ p ++ rest).length := by
      rw [List.length_append]
      omega
    have start : (flat bs ++ p ++ rest).take p.length = (flat bs ++ p).take p.length :=
      List.take_append_of_le_length (by omega)
    have kept : (flat bs ++ p).take p.length ≠ [] := by
      rw [← List.length_pos_iff, size]
      exact some
    rw [if_pos (by omega), ocb3HashBlockFinal, Int.toNat_natCast, slice_of_le inside, ok_bind,
      require_true (by omega), ok_bind, ok_bind, ocb3HashBlock_eq, start, ocb3Hash, if_neg kept]
    rfl

theorem ocb3ComputeTag_eq (checksum offset : Block) (bs : List Block) {p : List UInt8}
    (short : p.length < 16) (rest : List UInt8) :
    ocb3ComputeTag aes ctx checksum offset (flat bs ++ p ++ rest) ((flat bs ++ p).length : Nat) =
      .ok ((aes ctx.key) (checksum + offset + GF128.double ((aes ctx.key) 0)) +
        ocb3Hash (aes ctx.key) (codeSchedule (aes ctx.key) 16) bs ((flat bs ++ p).take p.length)) := by
  rw [ocb3ComputeTag, ocb3HashPlaintext_eq bs short, ok_bind, GF128.double_eq]
  simp only [Block.xorBlock_eq_add, aesEncrypt]
  rw [add_comm (ocb3Hash _ _ _ _)]
  rfl

theorem xorBlockEx_flip {p : List UInt8} (pad : Block) (rest : List UInt8) (short : p.length ≤ 16) :
    xorBlockEx pad.toList (p ++ rest) p.length = .ok (mask pad p) := by
  have masked := xorBlockEx_mask pad rest short
  have reach : slice pad.toList p.length = .ok (pad.toList.take p.length) :=
    slice_of_le (by rwa [Block.toList_length])
  simp only [xorBlockEx, slice_length_append, reach, ok_bind] at masked ⊢
  rw [← masked, List.zipWith_comm_of_comm UInt8.xor_comm]

theorem ocb3EncryptBlockFinal_some (s : Ocb3) {p : List UInt8} (some : p ≠ []) (short : p.length < 16)
    (rest : List UInt8) (as : List Block) {q : List UInt8} (short' : q.length < 16) (rest' : List UInt8) :
    ocb3EncryptBlockFinal aes ctx (p ++ rest) (p.length : Nat) s (flat as ++ q ++ rest')
        ((flat as ++ q).length : Nat) =
      .ok (mask ((aes ctx.key) (s.offset + (aes ctx.key) 0)) p,
        (aes ctx.key) (s.checksum + padded p + (s.offset + (aes ctx.key) 0) +
          GF128.double ((aes ctx.key) 0)) +
        ocb3Hash (aes ctx.key) (codeSchedule (aes ctx.key) 16) as ((flat as ++ q).take q.length)) := by
  have positive : 0 < p.length := List.length_pos_iff.mpr some
  have zero : zeroBlock = 0 := rfl
  have offset : xorBlock (aesEncrypt aes ctx.key 0) s.offset = s.offset + (aes ctx.key) 0 := by
    rw [Block.xorBlock_eq_add, aesEncrypt, add_comm]
  rw [ocb3EncryptBlockFinal, if_pos (by omega), zero, offset]
  dsimp only
  rw [Int.toNat_natCast, xorBlockEx_flip _ _ short.le, ok_bind, slice_length_append, ok_bind,
    require_true (by omega), ok_bind, ocb3ComputeTag_eq _ _ as short', ok_bind]
  rfl

/-- What `ocb3_aes_encrypt` computes, from the full blocks and the rests of its inputs. -/
theorem ocb3AesEncrypt_eq (bs as : List Block) {p q : List UInt8} (short : p.length < 16)
    (short' : q.length < 16) (rest rest' : List UInt8) :
    ocb3AesEncrypt aes ctx (flat bs ++ p ++ rest) ((flat bs ++ p).length : Nat)
        (flat as ++ q ++ rest') ((flat as ++ q).length : Nat) =
      .ok (0,
        (ocb3Seal (aes ctx.key) (codeSchedule (aes ctx.key) 1)
          (ocb3Start (aes ctx.key) (nonceNumber ctx) (nonceNumber ctx % 32)) bs p).1,
        (ocb3Seal (aes ctx.key) (codeSchedule (aes ctx.key) 1)
          (ocb3Start (aes ctx.key) (nonceNumber ctx) (nonceNumber ctx % 32)) bs p).2 +
          ocb3Hash (aes ctx.key) (codeSchedule (aes ctx.key) 16) as ((flat as ++ q).take q.length)) := by
  have zero : zeroBlock = 0 := rfl
  have length := flat_append_length bs p
  have left : (((flat bs ++ p).length : Nat) : Int) - (bs.length : Nat) * 16 = p.length := by omega
  have loop := @ocb3Blocks_eq aes ctx bs (p ++ rest) 0
    (ntz 0, keyvarInit aes ctx.key) ⟨offsetInit aes ctx, zeroBlock⟩
  have behind : (flat bs ++ p ++ rest).drop (16 * bs.length) = p ++ rest := by
    rw [List.append_assoc, List.drop_left' (flat_length bs)]
  rw [← List.append_assoc, offsetInit_eq, zero, zero_add] at loop
  rw [ocb3AesEncrypt, full_count bs short, offsetInit_eq, zero, loop, ok_bind]
  dsimp only
  rw [left, behind]
  by_cases none : p = []
  · subst none
    rw [ocb3EncryptBlockFinal, if_neg (by rw [List.length_nil]; omega), ocb3ComputeTag_eq _ _ as short',
      ok_bind, ok_bind, ocb3Seal, if_pos rfl, List.append_nil]
    rfl
  · rw [ocb3EncryptBlockFinal_some _ none short _ as short', ok_bind, ocb3Seal, if_neg none]
    rfl

end Loops

end Mumble

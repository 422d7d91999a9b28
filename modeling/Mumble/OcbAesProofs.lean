import Mumble.Ocb2

/-! `ocb2_aes_encrypt` and `ocb2_aes_decrypt` against each other and against the
mode. Both reduce to whole runs over the full blocks and one masked rest, so
every statement about them is one about the rest and the offset it is reached
with. -/
namespace Mumble
open CExec OffsetCodebook

/-- The offset after `count` doublings, which the full blocks before leave behind. -/
def delta (E : Equiv.Perm Block) (iv : Block) (count : Nat) : Block := doubleBlock^[count] (E iv)

/-- The pad of a last block of `size` bytes. -/
def lastPad (E : Equiv.Perm Block) (offset : Block) (size : Nat) : Block :=
  E (bitLength size + doubleBlock offset)

/-- The tag over a checksum that covers the pad and the bytes laid over it. -/
def lastTag (E : Equiv.Perm Block) (s : State Block) (covered : List UInt8) : Block :=
  E (tripleBlock (doubleBlock s.delta) +
    ((lastPad E s.delta covered.length).overlay covered + s.checksum))

/-- What `ocb2_aes_encrypt` computes from the block permutation and the IV. -/
def sealed (E : Equiv.Perm Block) (iv : Block) (message : List UInt8) : List UInt8 × Block :=
  let count := message.length / 16
  let last := message.drop (16 * count)
  let (ciphertext, s) := run (sealBlock E doubleBlock) (blocks count message) ⟨E iv, 0⟩
  (flat ciphertext ++ mask (lastPad E s.delta last.length) last, lastTag E s last)

/-- What `ocb2_aes_decrypt` computes. Its tag covers the last bytes as they came in. -/
def opened (E : Equiv.Perm Block) (iv : Block) (message : List UInt8) : List UInt8 × Block :=
  let count := message.length / 16
  let last := message.drop (16 * count)
  let (plain, s) := run (openBlock E doubleBlock) (blocks count message) ⟨E iv, 0⟩
  (flat plain ++ mask (lastPad E s.delta last.length) last, lastTag E s last)

section Final
variable {aes : Aes} {ctx : OcbAes}

theorem loadBlock_overlay {p : List UInt8} (full : 16 ≤ p.length) :
    loadBlock p = .ok (zeroBlock.overlay p) := by
  have size : (p.take 16).length = 16 := by rw [List.length_take]; omega
  have same : Block.ofList (p.take 16) size = zeroBlock.overlay p :=
    Block.toList_injective (by rw [Block.toList_overlay_full _ full, Block.toList_ofList])
  rw [loadBlock, dif_pos size, same]

theorem loadBlock_toList (b : Block) (rest : List UInt8) : loadBlock (b.toList ++ rest) = .ok b := by
  rw [loadBlock_overlay, Block.overlay_toList]
  rw [List.length_append, Block.toList_length]
  omega

theorem xorBlockEx_mask {p : List UInt8} (pad : Block) (rest : List UInt8) (short : p.length ≤ 16) :
    xorBlockEx (p ++ rest) pad.toList p.length = .ok (mask pad p) := by
  have reach : slice pad.toList p.length = .ok (pad.toList.take p.length) :=
    slice_of_le (by rw [Block.toList_length]; exact short)
  have cut : List.zipWith (· ^^^ ·) p (pad.toList.take p.length) = mask pad p := by
    have size := Nat.min_eq_left (short.trans pad.toList_length.ge)
    have both := @List.zipWith_eq_zipWith_take_min _ _ _ (· ^^^ ·) p pad.toList
    rw [mask, both, size, List.take_length]
  simp only [xorBlockEx, slice_length_append, reach, ok_bind, cut]

theorem ocb2EncryptBlockFinal_eq {p : List UInt8} (rest : List UInt8) (s : Ocb2)
    (short : p.length ≤ 16) :
    ocb2EncryptBlockFinal aes ctx (p ++ rest) (.ofNat p.length) s =
      .ok (mask (lastPad (aes ctx.key) s.delta p.length) p, lastTag (aes ctx.key) s p,
        (lastPad (aes ctx.key) s.delta p.length).overlay p + s.checksum) := by
  have size : (UInt8.ofNat p.length).toNat = p.length := by
    rw [UInt8.toNat_ofNat']
    omega
  have bits : UInt8.ofNat p.length * 8 = .ofNat (p.length * 8) := by
    rw [UInt8.ofNat_mul]
    rfl
  have padded : aesEncrypt aes ctx.key
      (xorBlock (zeroBlock.setLast (UInt8.ofNat p.length * 8)) (doubleBlock s.delta)) =
      lastPad (aes ctx.key) s.delta p.length := by
    rw [bits]
    rfl
  simp only [ocb2EncryptBlockFinal, padded, size, xorBlockEx_mask _ _ short, slice_length_append, ok_bind]
  rfl

theorem ocb2Blocks_eq (step : Block → Ocb2 → Block × Ocb2) (bs : List Block) (rest : List UInt8)
    (s : Ocb2) :
    ocb2Blocks step bs.length (flat bs ++ rest) s =
      .ok (flat (run step bs s).1, rest, (run step bs s).2) := by
  induction bs generalizing s with
  | nil => rfl
  | cons b bs ih =>
    simp only [List.length_cons, flat_cons, List.append_assoc, ocb2Blocks, loadBlock_toList, ok_bind,
      List.drop_left' b.toList_length, ih, run_cons]

theorem full_count (bs : List Block) {p : List UInt8} (short : p.length < 16) :
    (((flat bs ++ p).length : Int).tdiv 16).toNat = bs.length := by
  rw [flat_append_length, Int.tdiv_eq_ediv_of_nonneg (Int.natCast_nonneg _)]
  omega

theorem rest_size (bs : List Block) (p : List UInt8) :
    uchar (((flat bs ++ p).length : Int) - (bs.length : Nat) * 16) = .ofNat p.length := by
  have difference : ((flat bs ++ p).length : Int) - (bs.length : Nat) * 16 = p.length := by
    rw [flat_append_length]
    omega
  rw [difference, uchar, BitVec.ofInt_natCast]
  rfl

end Final

/-- Whole blocks and fewer than sixteen bytes are read back from their concatenation. -/
theorem split_unique (bs : List Block) {p : List UInt8} (short : p.length < 16) :
    blocks ((flat bs ++ p).length / 16) (flat bs ++ p) = bs ∧
      (flat bs ++ p).drop (16 * ((flat bs ++ p).length / 16)) = p := by
  have count : (flat bs ++ p).length / 16 = bs.length := by
    rw [flat_append_length]
    omega
  rw [count]
  exact ⟨blocks_flat bs p, List.drop_left' (flat_length bs)⟩

theorem exists_split (message : List UInt8) :
    ∃ bs p, message = flat bs ++ p ∧ p.length < 16 := by
  refine ⟨_, _, (flat_blocks (Nat.mul_div_le message.length 16)).symm, ?_⟩
  rw [List.length_drop]
  omega

section Direction
variable {E : Equiv.Perm Block} {iv : Block} {bs cs : List Block} {s : State Block} {p : List UInt8}

theorem sealed_split (short : p.length < 16)
    (full : run (sealBlock E doubleBlock) bs ⟨E iv, 0⟩ = (cs, s)) :
    sealed E iv (flat bs ++ p) = (flat cs ++ mask (lastPad E s.delta p.length) p, lastTag E s p) := by
  obtain ⟨whole, last⟩ := split_unique bs short
  simp only [sealed, whole, last, full]

theorem opened_split (short : p.length < 16)
    (full : run (openBlock E doubleBlock) cs ⟨E iv, 0⟩ = (bs, s)) :
    opened E iv (flat cs ++ p) = (flat bs ++ mask (lastPad E s.delta p.length) p, lastTag E s p) := by
  obtain ⟨whole, last⟩ := split_unique cs short
  simp only [opened, whole, last, full]

end Direction

theorem ocb2AesEncrypt_eq (aes : Aes) (ctx : OcbAes) (message rest : List UInt8) :
    ocb2AesEncrypt aes ctx (message ++ rest) message.length =
      .ok (0, sealed (aes ctx.key) ctx.encIv message) := by
  obtain ⟨bs, p, rfl, short⟩ := exists_split message
  have closed := @sealed_split (aes ctx.key) ctx.encIv bs _ _ p short rfl
  have loop := ocb2Blocks_eq (ocb2EncryptBlock aes ctx) bs (p ++ rest)
    ⟨aesEncrypt aes ctx.key ctx.encIv, zeroBlock⟩
  simp only [ocb2AesEncrypt, full_count bs short, rest_size, List.append_assoc, loop, ok_bind,
    ocb2EncryptBlockFinal_eq rest _ short.le, closed]
  rfl

theorem ocb2AesDecrypt_eq (aes : Aes) (ctx : OcbAes) (message rest : List UInt8) :
    ocb2AesDecrypt aes ctx (message ++ rest) message.length =
      .ok (opened (aes ctx.key) ctx.decIv message) := by
  obtain ⟨bs, p, rfl, short⟩ := exists_split message
  have closed := @opened_split (aes ctx.key) ctx.decIv _ bs _ p short rfl
  have loop := ocb2Blocks_eq (ocb2DecryptBlock aes ctx) bs (p ++ rest)
    ⟨aesEncrypt aes ctx.key ctx.decIv, zeroBlock⟩
  simp only [ocb2AesDecrypt, full_count bs short, rest_size, List.append_assoc, loop, ok_bind,
    ocb2EncryptBlockFinal_eq rest _ short.le, closed]
  rfl

section Inverse
variable (E : Equiv.Perm Block) (iv : Block) (message : List UInt8)

@[simp] theorem sealed_length : (sealed E iv message).1.length = message.length := by
  obtain ⟨bs, p, rfl, short⟩ := exists_split message
  rw [sealed_split short rfl, List.length_append, flat_length, run_length, mask_length _ short.le,
    List.length_append, flat_length]

@[simp] theorem opened_length : (opened E iv message).1.length = message.length := by
  obtain ⟨bs, p, rfl, short⟩ := exists_split message
  rw [opened_split short rfl, List.length_append, flat_length, run_length, mask_length _ short.le,
    List.length_append, flat_length]

/-- Opening a sealed message, with the tag that comes out. -/
theorem opened_sealed_split (bs : List Block) {p : List UInt8} (short : p.length < 16) :
    opened E iv (sealed E iv (flat bs ++ p)).1 = (flat bs ++ p,
      lastTag E (run (sealBlock E doubleBlock) bs ⟨E iv, 0⟩).2
        (mask (lastPad E (delta E iv bs.length) p.length) p)) := by
  have offset := @run_sealBlock_delta _ _ E doubleBlock bs ⟨E iv, 0⟩
  have size := mask_length (lastPad E (delta E iv bs.length) p.length) short.le
  rw [sealed_split short rfl, offset]
  change opened E iv (flat _ ++ mask (lastPad E (delta E iv bs.length) p.length) p) = _
  rw [opened_split (size.trans_lt short) (open_seal bs ⟨E iv, 0⟩), size, offset]
  change (flat bs ++ mask (lastPad E (delta E iv bs.length) p.length) _, _) = _
  rw [mask_mask _ short.le]

theorem opened_sealed : (opened E iv (sealed E iv message).1).1 = message := by
  obtain ⟨bs, p, rfl, short⟩ := exists_split message
  rw [opened_sealed_split E iv bs short]

theorem sealed_opened : (sealed E iv (opened E iv message).1).1 = message := by
  obtain ⟨cs, p, rfl, short⟩ := exists_split message
  have size (pad : Block) := mask_length pad short.le
  rw [opened_split short rfl, sealed_split ((size _).trans_lt short) (seal_open cs ⟨E iv, 0⟩), size,
    mask_mask _ short.le]

end Inverse

/-- Each direction undoes the other on data of every length. -/
theorem ocb2_inverse (aes : Aes) (a b : OcbAes) (key : a.key = b.key) (iv : a.encIv = b.decIv)
    (bytes rest rest' : List UInt8) :
    (∃ c t t', ocb2AesEncrypt aes a (bytes ++ rest) bytes.length = .ok (0, c, t) ∧
      c.length = bytes.length ∧ ocb2AesDecrypt aes b (c ++ rest') c.length = .ok (bytes, t')) ∧
    (∃ p t t', ocb2AesDecrypt aes b (bytes ++ rest) bytes.length = .ok (p, t) ∧
      p.length = bytes.length ∧ ocb2AesEncrypt aes a (p ++ rest') p.length = .ok (0, bytes, t')) := by
  constructor
  · refine ⟨(sealed (aes a.key) a.encIv bytes).1, (sealed (aes a.key) a.encIv bytes).2,
      (opened (aes a.key) a.encIv (sealed (aes a.key) a.encIv bytes).1).2,
      ocb2AesEncrypt_eq aes a bytes rest, sealed_length _ _ _, ?_⟩
    rw [ocb2AesDecrypt_eq, ← key, ← iv]
    exact congrArg Except.ok (Prod.ext (opened_sealed _ _ bytes) rfl)
  · refine ⟨(opened (aes b.key) b.decIv bytes).1, (opened (aes b.key) b.decIv bytes).2,
      (sealed (aes b.key) b.decIv (opened (aes b.key) b.decIv bytes).1).2,
      ocb2AesDecrypt_eq aes b bytes rest, opened_length _ _ _, ?_⟩
    rw [ocb2AesEncrypt_eq, key, iv]
    exact congrArg (fun c => Except.ok (0, c)) (Prod.ext (sealed_opened _ _ bytes) rfl)

/-- A fixed cipher and context to run the mode with. -/
def identityAes : Aes := fun _ => Equiv.refl Block

def sampleContext (iv : List UInt8) : OcbAes where
  key := zeroBlock.bytes
  encIv := zeroBlock.overlay iv
  decIv := zeroBlock.overlay iv
  ivlen := 16
  fits := by decide

/-- A full block and two bytes. -/
def blockAndRest : List UInt8 := [1, 2, 3, 4, 5, 6, 7, 8, 9, 10, 11, 12, 13, 14, 15, 16, 17, 18]

theorem ocb2_inverse_sample :
    (∃ c t t', ocb2AesEncrypt identityAes (sampleContext [1]) (blockAndRest ++ [0]) 18 = .ok (0, c, t) ∧
      c.length = 18 ∧ ocb2AesDecrypt identityAes (sampleContext [1]) (c ++ []) c.length =
        .ok (blockAndRest, t')) ∧
    (∃ p t t', ocb2AesDecrypt identityAes (sampleContext [1]) (blockAndRest ++ [0]) 18 = .ok (p, t) ∧
      p.length = 18 ∧ ocb2AesEncrypt identityAes (sampleContext [1]) (p ++ []) p.length =
        .ok (0, blockAndRest, t')) :=
  ocb2_inverse identityAes (sampleContext [1]) (sampleContext [1]) rfl rfl blockAndRest [0] []

/-- Two tags over the same state agree exactly when the same bytes are covered. -/
theorem lastTag_inj {E : Equiv.Perm Block} {s : State Block} {p q : List UInt8}
    (size : p.length = q.length) (short : p.length ≤ 16) : lastTag E s p = lastTag E s q ↔ p = q := by
  constructor
  · intro same
    have inner := add_right_cancel (add_left_cancel (E.injective same))
    rw [size] at inner
    exact Block.overlay_inj size short inner
  · rintro rfl
    rfl

/-- The tags agree exactly when the last bytes are enciphered to themselves: the
final block of a decryption adds the bytes it was given to the checksum. -/
theorem ocb2_tag_agreement_iff (aes : Aes) (a b : OcbAes) (key : a.key = b.key)
    (iv : a.encIv = b.decIv) (message : List UInt8) :
    (∃ c t p, ocb2AesEncrypt aes a message message.length = .ok (0, c, t) ∧
      ocb2AesDecrypt aes b c c.length = .ok (p, t)) ↔
    16 ∣ message.length ∨
      ∀ i : Fin 16, i.val < message.length % 16 →
        (lastPad (aes a.key) (delta (aes a.key) a.encIv (message.length / 16))
          (message.length % 16)).byte i = 0 := by
  obtain ⟨bs, p, rfl, short⟩ := exists_split message
  have length := flat_append_length bs p
  have count : (flat bs ++ p).length / 16 = bs.length := by omega
  have size : (flat bs ++ p).length % 16 = p.length := by omega
  have masked := mask_length (lastPad (aes a.key) (delta (aes a.key) a.encIv bs.length) p.length) short.le
  have encrypted := ocb2AesEncrypt_eq aes a (flat bs ++ p) []
  have decrypted := ocb2AesDecrypt_eq aes b (sealed (aes a.key) a.encIv (flat bs ++ p)).1 []
  rw [List.append_nil] at encrypted decrypted
  rw [← key, ← iv, opened_sealed_split _ _ bs short] at decrypted
  have tag : (sealed (aes a.key) a.encIv (flat bs ++ p)).2 = lastTag (aes a.key) _ p :=
    congrArg Prod.snd (sealed_split short rfl)
  have agree : (∃ c t q, ocb2AesEncrypt aes a (flat bs ++ p) (flat bs ++ p).length = .ok (0, c, t) ∧
      ocb2AesDecrypt aes b c c.length = .ok (q, t)) ↔
      mask (lastPad (aes a.key) (delta (aes a.key) a.encIv bs.length) p.length) p = p := by
    constructor
    · rintro ⟨c, t, q, sealing, opening⟩
      simp only [encrypted, Except.ok.injEq, Prod.mk.injEq, true_and] at sealing
      rw [sealing] at decrypted tag
      simp only [decrypted, Except.ok.injEq, Prod.mk.injEq] at opening
      exact (lastTag_inj masked (masked.trans_le short.le)).mp (opening.2.trans tag)
    · intro same
      rw [same, ← tag] at decrypted
      exact ⟨_, _, _, encrypted, decrypted⟩
  rw [agree, count, size, mask_eq_self_iff _ short.le]
  constructor
  · exact Or.inr
  · rintro (whole | zeros)
    · intro i inside
      omega
    · exact zeros

theorem ocb2_tag_agreement_sample :
    (∃ c t p, ocb2AesEncrypt identityAes (sampleContext [0]) [7] 1 = .ok (0, c, t) ∧
      ocb2AesDecrypt identityAes (sampleContext [0]) c c.length = .ok (p, t)) ↔
    16 ∣ 1 ∨ ∀ i : Fin 16, i.val < 1 →
      (lastPad (identityAes zeroBlock.bytes)
        (delta (identityAes zeroBlock.bytes) (sampleContext [0]).encIv 0) 1).byte i = 0 :=
  ocb2_tag_agreement_iff identityAes (sampleContext [0]) (sampleContext [0]) rfl rfl [7]

/-- One byte is enough for the two sides to compute different tags. -/
theorem ocb2_tag_disagreement :
    ¬ ∃ c t p, ocb2AesEncrypt identityAes (sampleContext [1]) [0] 1 = .ok (0, c, t) ∧
      ocb2AesDecrypt identityAes (sampleContext [1]) c c.length = .ok (p, t) := by
  have sealing : ocb2AesEncrypt identityAes (sampleContext [1]) [0] 1 =
      .ok (0, [2], zeroBlock.overlay [6, 0, 0, 0, 0, 0, 0, 0, 0, 0, 0, 0, 0, 0, 0, 8]) := by
    decide
  have opening : ocb2AesDecrypt identityAes (sampleContext [1]) [2] 1 =
      .ok ([0], zeroBlock.overlay [4, 0, 0, 0, 0, 0, 0, 0, 0, 0, 0, 0, 0, 0, 0, 8]) := by
    decide
  rintro ⟨c, t, p, encrypted, decrypted⟩
  rw [sealing] at encrypted
  obtain ⟨rfl, rfl⟩ : [2] = c ∧ _ = t := by
    simpa only [Except.ok.injEq, Prod.mk.injEq, true_and] using encrypted
  rw [show (([2] : List UInt8).length : Int) = 1 from rfl, opening] at decrypted
  simp only [Except.ok.injEq, Prod.mk.injEq] at decrypted
  exact absurd decrypted.2 (by decide)

/-- The mode of a message of `m` blocks, with the doublings the code computes. -/
theorem ocb2Encrypt_eq (E : Equiv.Perm Block) (iv : Block) {message : List UInt8} {m : Nat}
    (size : max 1 ((message.length + 15) / 16) = m + 1) {cs : List Block} {s : State Block}
    (full : run (sealBlock E doubleBlock) (blocks m message) ⟨E iv, 0⟩ = (cs, s)) :
    ocb2Encrypt E iv message =
      (flat cs ++ mask (lastPad E s.delta (message.drop (16 * m)).length) (message.drop (16 * m)),
        lastTag E s (message.drop (16 * m))) := by
  simp only [ocb2Encrypt, size, Nat.add_sub_cancel, GF128.double_eq, GF128.triple_eq, full, lastPad,
    lastTag, add_comm s.checksum]

/-- The last full block of a message, enciphered as a full block and followed by
an empty one, comes out as if it had been masked as the last block. -/
def FullBlockAgrees (E : Equiv.Perm Block) (offset last : Block) : Prop :=
  E (offset + last) + offset = last + E (bitLength 16 + offset) ∧
    E (doubleBlock offset) = offset + doubleBlock (doubleBlock offset)

/-- The tag after an empty last block against the tag after a masked full one. -/
theorem lastTag_whole_iff (E : Equiv.Perm Block) (s : State Block) (last : Block) :
    lastTag E ⟨doubleBlock s.delta, s.checksum + last⟩ [] = lastTag E s last.toList ↔
      E (doubleBlock (doubleBlock s.delta)) =
        doubleBlock s.delta + doubleBlock (doubleBlock (doubleBlock s.delta)) := by
  have empty : bitLength 0 = 0 := by decide
  have covered (pad : Block) : pad.overlay last.toList = last := by
    simpa only [List.append_nil] using Block.overlay_toList pad last []
  rw [lastTag, lastTag, E.apply_eq_iff_eq, covered, Block.overlay_nil, lastPad, List.length_nil,
    empty, zero_add, add_comm last, ← add_assoc, add_left_inj, tripleBlock, tripleBlock,
    Block.xorBlock_eq_add, Block.xorBlock_eq_add]
  generalize doubleBlock s.delta = d
  have cancel : doubleBlock d + doubleBlock (doubleBlock d) + (d + doubleBlock d) =
      d + doubleBlock (doubleBlock d) := by
    rw [add_comm (doubleBlock d), add_comm d, ← add_assoc, add_twice, add_comm]
  rw [add_eq_iff_eq_add, cancel]

/-- The two ways to end a message that consists of whole blocks. -/
theorem sealed_whole_iff (E : Equiv.Perm Block) (iv : Block) (bs : List Block) (last : Block) :
    sealed E iv (flat (bs ++ [last])) = ocb2Encrypt E iv (flat (bs ++ [last])) ↔
      FullBlockAgrees E (delta E iv (bs.length + 1)) last := by
  obtain ⟨cs, s, full⟩ : ∃ cs s, run (sealBlock E doubleBlock) bs ⟨E iv, 0⟩ = (cs, s) := ⟨_, _, rfl⟩
  have offset : delta E iv (bs.length + 1) = doubleBlock s.delta := by
    have before := @run_sealBlock_delta _ _ E doubleBlock bs ⟨E iv, 0⟩
    rw [full] at before
    rw [delta, Function.iterate_succ_apply', ← before]
  have ended : run (sealBlock E doubleBlock) (bs ++ [last]) ⟨E iv, 0⟩ =
      (cs ++ [E (doubleBlock s.delta + last) + doubleBlock s.delta],
        ⟨doubleBlock s.delta, s.checksum + last⟩) := by
    rw [run_append, full]
    rfl
  have whole := sealed_split (p := []) (by decide) ended
  have length : (flat (bs ++ [last])).length = 16 * (bs.length + 1) := by
    rw [flat_length, List.length_append]
    rfl
  have size : max 1 (((flat (bs ++ [last])).length + 15) / 16) = bs.length + 1 := by omega
  have shape : flat (bs ++ [last]) = flat bs ++ last.toList := by
    rw [flat_append, flat_cons, flat_nil, List.append_nil]
  have rest : (flat (bs ++ [last])).drop (16 * bs.length) = last.toList := by
    rw [shape, List.drop_left' (flat_length bs)]
  have first : blocks bs.length (flat (bs ++ [last])) = bs := by
    rw [shape, blocks_flat]
  have mode := ocb2Encrypt_eq E iv size (first.symm ▸ full)
  rw [rest, Block.toList_length, mask_full] at mode
  rw [List.append_nil] at whole
  have ciphertext (c : Block) : flat (cs ++ [c]) ++ mask (lastPad E (doubleBlock s.delta) 0) [] =
      flat cs ++ c.toList := by
    rw [flat_append, flat_cons, flat_nil, List.append_nil]
    exact List.append_nil _
  rw [whole, mode, FullBlockAgrees, offset, Prod.mk.injEq, lastTag_whole_iff, List.length_nil,
    ciphertext, List.append_cancel_left_eq]
  exact and_congr_left fun _ => ⟨Block.toList_injective, congrArg Block.toList⟩

/-- A message that is empty or ends in a partial block ends as the mode has it. -/
theorem sealed_ordinary (E : Equiv.Perm Block) (iv : Block) {bs : List Block} {p : List UInt8}
    (short : p.length < 16) (ordinary : bs = [] ∨ 0 < p.length) :
    sealed E iv (flat bs ++ p) = ocb2Encrypt E iv (flat bs ++ p) := by
  obtain ⟨cs, s, full⟩ : ∃ cs s, run (sealBlock E doubleBlock) bs ⟨E iv, 0⟩ = (cs, s) := ⟨_, _, rfl⟩
  have first := blocks_flat bs p
  have rest := @List.drop_left' _ (flat bs) p _ (flat_length bs)
  have size : max 1 (((flat bs ++ p).length + 15) / 16) = bs.length + 1 := by
    rw [flat_append_length]
    rcases ordinary with rfl | some
    · rw [List.length_nil]
      omega
    · omega
  have mode := ocb2Encrypt_eq E iv size (first.symm ▸ full)
  rw [mode, rest, sealed_split short full]

/-- The code follows the mode unless the message is made of whole blocks only,
where it masks an empty block after the last one. -/
theorem ocb2_conformance_iff (aes : Aes) (ctx : OcbAes) (message rest : List UInt8) :
    ocb2AesEncrypt aes ctx (message ++ rest) message.length =
      .ok (0, ocb2Encrypt (aes ctx.key) ctx.encIv message) ↔
    message.length = 0 ∨ ¬ 16 ∣ message.length ∨
      FullBlockAgrees (aes ctx.key) (delta (aes ctx.key) ctx.encIv (message.length / 16))
        (zeroBlock.overlay (message.drop (message.length - 16))) := by
  obtain ⟨bs, p, rfl, short⟩ := exists_split message
  rw [ocb2AesEncrypt_eq]
  simp only [Except.ok.injEq, Prod.mk.injEq, true_and]
  have length := flat_append_length bs p
  rcases Nat.eq_zero_or_pos p.length with none | some
  · obtain rfl := List.length_eq_zero_iff.mp none
    rcases List.eq_nil_or_concat' bs with rfl | ⟨init, last, rfl⟩
    · exact iff_of_true (sealed_ordinary _ _ short (.inl rfl)) (.inl length)
    · have count : (flat (init ++ [last]) ++ []).length / 16 = init.length + 1 := by
        rw [length, List.length_append]
        exact Nat.mul_div_cancel_left _ (by decide)
      have tail : (flat (init ++ [last]) ++ []).drop ((flat (init ++ [last]) ++ []).length - 16) =
          last.toList ++ [] := by
        have before : (flat (init ++ [last]) ++ []).length - 16 = (flat init).length := by
          rw [length, List.length_append, flat_length, List.length_singleton, List.length_nil]
          omega
        rw [before, flat_append, List.append_assoc, List.drop_left, flat_cons, flat_nil,
          List.append_nil]
      rw [count, tail, Block.overlay_toList, List.append_nil, sealed_whole_iff]
      constructor
      · exact fun agrees => .inr (.inr agrees)
      · rintro (empty | odd | agrees)
        · rw [flat_length, List.length_append] at empty
          exact absurd empty (by simp)
        · exact absurd (flat_length _ ▸ Nat.dvd_mul_right 16 _) odd
        · exact agrees
  · exact iff_of_true (sealed_ordinary _ _ short (.inr some)) (.inr (.inl (by omega)))

/-- One full block, which the mode masks, is enciphered and comes out unmasked. -/
theorem ocb2_full_block_diverges :
    ocb2AesEncrypt identityAes (sampleContext []) (List.replicate 16 0) 16 ≠
      .ok (0, ocb2Encrypt (identityAes zeroBlock.bytes) (sampleContext []).encIv
        (List.replicate 16 0)) := by
  have code : ocb2AesEncrypt identityAes (sampleContext []) (List.replicate 16 0) 16 =
      .ok (0, List.replicate 16 0, zeroBlock) := by
    decide
  have mode : (ocb2Encrypt (identityAes zeroBlock.bytes) (sampleContext []).encIv
      (List.replicate 16 0)).1 = List.replicate 15 0 ++ [0x80] := by
    rw [ocb2Encrypt_eq (m := 0) _ _ rfl rfl]
    decide
  intro same
  rw [code] at same
  simp only [Except.ok.injEq, Prod.mk.injEq, true_and] at same
  rw [← same] at mode
  exact absurd mode (by decide)

end Mumble

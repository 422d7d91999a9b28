import Mumble.BlockAlgebra

/-! The OCB2 mode itself: doubling and tripling are products in `GF128`, every
block but the last is enciphered between two offsets, and the last one, of up to
sixteen bytes, is masked. -/
namespace Mumble
open CExec OffsetCodebook

/-- The bytes of whole blocks. -/
def flat (blocks : List Block) : List UInt8 := blocks.flatMap Block.toList

/-- The first `count` blocks of a message. -/
def blocks : Nat → List UInt8 → List Block
  | 0, _ => []
  | count + 1, message => zeroBlock.overlay message :: blocks count (message.drop 16)

/-- At most sixteen bytes combined with the first bytes of a pad. -/
def mask (pad : Block) (bytes : List UInt8) : List UInt8 := List.zipWith (· ^^^ ·) bytes pad.toList

/-- The number of bits in up to sixteen bytes, as a block. -/
def bitLength (size : Nat) : Block := zeroBlock.setLast (.ofNat (size * 8))

namespace GF128

noncomputable def double (b : Block) : Block := toBlock (x * ofBlock b)

noncomputable def triple (b : Block) : Block := toBlock ((x + 1) * ofBlock b)

theorem double_eq : double = doubleBlock := by
  funext b
  rw [double, ← ofBlock_doubleBlock, toBlock_ofBlock]

theorem triple_eq : triple = tripleBlock := by
  funext b
  rw [triple, ← ofBlock_tripleBlock, toBlock_ofBlock]

end GF128

/-- The ciphertext and the tag of a message of `m` blocks. -/
noncomputable def ocb2Encrypt (E : Equiv.Perm Block) (iv : Block) (message : List UInt8) :
    List UInt8 × Block :=
  let m := max 1 ((message.length + 15) / 16)
  let last := message.drop (16 * (m - 1))
  let (ciphertext, s) := run (sealBlock E GF128.double) (blocks (m - 1) message) ⟨E iv, 0⟩
  let delta := GF128.double s.delta
  let pad := E (bitLength last.length + delta)
  let checksum := s.checksum + pad.overlay last
  (flat ciphertext ++ mask pad last, E (GF128.triple delta + checksum))

namespace Block

/-- The bytes laid over a block, then what is left of the block. -/
theorem toList_overlay (b : Block) (bytes : List UInt8) :
    (b.overlay bytes).toList = bytes.take 16 ++ b.toList.drop bytes.length := by
  apply List.ext_getElem?
  intro i
  by_cases inside : i < 16
  · rw [toList_getElem? (b.overlay bytes) ⟨i, inside⟩, byte_overlay]
    have old := toList_getElem? b ⟨i, inside⟩
    dsimp only at old ⊢
    by_cases covered : i < bytes.length
    · have written : i < (bytes.take 16).length := by
        rw [List.length_take]
        omega
      rw [List.getElem?_append_left written, List.getElem?_take_of_lt inside,
        List.getElem?_eq_getElem covered, Option.getD_some]
    · have size : (bytes.take 16).length = bytes.length := by
        rw [List.length_take]
        omega
      have place : bytes.length + (i - bytes.length) = i := by omega
      rw [List.getElem?_append_right (by omega), size, List.getElem?_drop, place, old,
        List.getElem?_eq_none (Nat.le_of_not_lt covered), Option.getD_none]
  · have left : (b.overlay bytes).toList.length ≤ i := by
      rw [toList_length]
      omega
    have right : (bytes.take 16 ++ b.toList.drop bytes.length).length ≤ i := by
      rw [List.length_append, List.length_take, List.length_drop, toList_length]
      omega
    rw [List.getElem?_eq_none left, List.getElem?_eq_none right]

theorem toList_overlay_full (b : Block) {bytes : List UInt8} (full : 16 ≤ bytes.length) :
    (b.overlay bytes).toList = bytes.take 16 := by
  have rest : b.toList.drop bytes.length = [] := List.drop_of_length_le (by rwa [toList_length])
  rw [toList_overlay, rest, List.append_nil]

theorem overlay_nil (b : Block) : b.overlay [] = b :=
  toList_injective (by rw [toList_overlay]; rfl)

theorem overlay_toList (b c : Block) (rest : List UInt8) : b.overlay (c.toList ++ rest) = c := by
  apply toList_injective
  have size := c.toList_length
  rw [toList_overlay_full b (by rw [List.length_append]; omega), List.take_left' size]

theorem overlay_inj {b : Block} {p q : List UInt8} (size : p.length = q.length)
    (short : p.length ≤ 16) (same : b.overlay p = b.overlay q) : p = q := by
  have bytes := congrArg toList same
  rw [toList_overlay, toList_overlay, size, List.take_of_length_le short,
    List.take_of_length_le (size ▸ short)] at bytes
  exact List.append_cancel_right bytes

end Block

@[simp] theorem flat_nil : flat [] = [] := rfl

@[simp] theorem flat_cons (b : Block) (bs : List Block) : flat (b :: bs) = b.toList ++ flat bs := rfl

theorem flat_append (bs cs : List Block) : flat (bs ++ cs) = flat bs ++ flat cs := List.flatMap_append

@[simp] theorem flat_length (bs : List Block) : (flat bs).length = 16 * bs.length := by
  induction bs with
  | nil => rfl
  | cons b bs ih =>
    rw [flat_cons, List.length_append, ih, Block.toList_length, List.length_cons]
    omega

theorem flat_append_length (bs : List Block) (p : List UInt8) :
    (flat bs ++ p).length = 16 * bs.length + p.length := by
  rw [List.length_append, flat_length]

@[simp] theorem blocks_length (count : Nat) (message : List UInt8) :
    (blocks count message).length = count := by
  induction count generalizing message with
  | zero => rfl
  | succ count ih => rw [blocks, List.length_cons, ih]

/-- Whole blocks and the bytes after them make up the message again. -/
theorem flat_blocks {count : Nat} {message : List UInt8} (full : 16 * count ≤ message.length) :
    flat (blocks count message) ++ message.drop (16 * count) = message := by
  induction count generalizing message with
  | zero => rfl
  | succ count ih =>
    have rest := @ih (message.drop 16) (by rw [List.length_drop]; omega)
    rw [List.drop_drop] at rest
    rw [blocks, flat_cons, List.append_assoc, Nat.mul_succ, Nat.add_comm, rest,
      Block.toList_overlay_full _ (by omega), List.take_append_drop]

theorem blocks_flat (bs : List Block) (rest : List UInt8) :
    blocks bs.length (flat bs ++ rest) = bs := by
  induction bs with
  | nil => rfl
  | cons b bs ih =>
    rw [List.length_cons, flat_cons, List.append_assoc, blocks, Block.overlay_toList,
      List.drop_left' b.toList_length, ih]

@[simp] theorem mask_length {bytes : List UInt8} (pad : Block) (short : bytes.length ≤ 16) :
    (mask pad bytes).length = bytes.length := by
  rw [mask, List.length_zipWith, Block.toList_length]
  omega

theorem mask_getElem? (pad : Block) (bytes : List UInt8) (i : Fin 16) :
    (mask pad bytes)[i.val]? = bytes[i.val]?.map (· ^^^ pad.byte i) := by
  rw [mask, List.getElem?_zipWith, Block.toList_getElem?]
  cases bytes[i.val]? with
  | none => rfl
  | some b => rfl

theorem mask_mask {bytes : List UInt8} (pad : Block) (short : bytes.length ≤ 16) :
    mask pad (mask pad bytes) = bytes := by
  have size := mask_length pad short
  apply List.ext_getElem?
  intro i
  by_cases inside : i < 16
  · rw [mask_getElem? pad _ ⟨i, inside⟩, mask_getElem? pad _ ⟨i, inside⟩]
    cases bytes[i]? with
    | none => rfl
    | some b =>
      rw [Option.map_some, Option.map_some, UInt8.xor_assoc, UInt8.xor_self, UInt8.xor_zero]
  · have again := mask_length pad (size ▸ short : (mask pad bytes).length ≤ 16)
    rw [List.getElem?_eq_none (by omega), List.getElem?_eq_none (by omega)]

theorem mask_full (pad : Block) (b : Block) : mask pad b.toList = (b + pad).toList := by
  apply List.ext_getElem?
  intro i
  by_cases inside : i < 16
  · rw [mask_getElem? pad _ ⟨i, inside⟩, Block.toList_getElem? b ⟨i, inside⟩,
      Block.toList_getElem? (b + pad) ⟨i, inside⟩, Block.byte_add]
    rfl
  · have size := mask_length pad (Nat.le_of_eq b.toList_length)
    rw [Block.toList_length] at size
    have other := (b + pad).toList_length
    rw [List.getElem?_eq_none (by omega), List.getElem?_eq_none (by omega)]

/-- Masking keeps exactly the bytes under zeros of the pad. -/
theorem mask_eq_self_iff {bytes : List UInt8} (pad : Block) (short : bytes.length ≤ 16) :
    mask pad bytes = bytes ↔ ∀ i : Fin 16, i.val < bytes.length → pad.byte i = 0 := by
  constructor
  · intro same i inside
    have byte := mask_getElem? pad bytes i
    rw [same, List.getElem?_eq_getElem inside] at byte
    have kept : bytes[i.val] ^^^ pad.byte i = bytes[i.val] := (Option.some.inj byte).symm
    exact (UInt8.xor_right_inj bytes[i.val]).mp (kept.trans UInt8.xor_zero.symm)
  · intro zeros
    apply List.ext_getElem?
    intro i
    by_cases inside : i < bytes.length
    · rw [mask_getElem? pad bytes ⟨i, by omega⟩, zeros ⟨i, by omega⟩ inside,
        List.getElem?_eq_getElem inside, Option.map_some, UInt8.xor_zero]
    · have size := mask_length pad short
      rw [List.getElem?_eq_none (by omega), List.getElem?_eq_none (by omega)]

end Mumble

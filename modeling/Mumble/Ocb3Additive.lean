import Mumble.Ocb3Schedules

/-! Additive permutations, under which the inputs of `ocb3_aes_encrypt` show that take
another start, another rest of the data or another second block than the mode. -/
namespace Mumble
open CExec Bytes OffsetSchedule

/-- The bytes behind the full blocks, as the block that is added for them. -/
def restBlock (p : List UInt8) : Block := if p = [] then 0 else padded p

theorem padded_injective {p q : List UInt8} (size : p.length = q.length) (short : p.length < 16)
    (same : padded p = padded q) : p = q := by
  have bytes := Block.overlay_inj (by rw [List.length_append, List.length_append, size])
    (by rw [List.length_append]; exact short) same
  exact List.append_cancel_right bytes

theorem restBlock_injective {p q : List UInt8} (size : p.length = q.length) (short : p.length < 16)
    (same : restBlock p = restBlock q) : p = q := by
  by_cases none : p = []
  · rw [none, List.length_nil] at size
    rw [none, List.length_eq_zero_iff.mp size.symm]
  · have some : q ≠ [] := by
      rintro rfl
      exact none (List.length_eq_zero_iff.mp size)
    rw [restBlock, restBlock, if_neg none, if_neg some] at same
    exact padded_injective size short same

section Linear
variable {E : Equiv.Perm Block} (additive : ∀ a b, E (a + b) = E a + E b)
include additive

theorem additive_zero : E 0 = 0 := by
  have double := additive 0 0
  rwa [add_zero, left_eq_add] at double

theorem additive_sum (bs : List Block) : (bs.map E).sum = E bs.sum := by
  induction bs with
  | nil => exact (additive_zero additive).symm
  | cons b bs ih => rw [List.map_cons, List.sum_cons, ih, List.sum_cons, additive]

theorem iterate_zero (n : Nat) : doubleBlock^[n] (E 0) = 0 := by
  rw [additive_zero additive]
  exact Function.iterate_fixed (show doubleBlock 0 = 0 by decide) n

/-- Under an additive permutation no offset grows, and a tag is one encipherment of a sum. -/
theorem additive_tag (schedule : Nat → Block) (zero : ∀ t, schedule t = 0) (start : Block)
    (bs as : List Block) (p q : List UInt8) :
    (ocb3Seal E schedule start bs p).2 + ocb3Hash E schedule as q =
      E (start + restBlock q + (bs.sum + restBlock p + as.sum)) := by
  have none := additive_zero additive
  have doubled : GF128.double 0 = 0 := by
    rw [GF128.double_eq]
    decide
  have tag : (ocb3Seal E schedule start bs p).2 = E (bs.sum + restBlock p + start) := by
    rw [ocb3Seal, offset_zero fun t _ => zero t, restBlock, none, doubled]
    split
    · rw [add_zero, add_zero]
    · change E _ = E _
      rw [add_zero, add_zero]
  have hash : ocb3Hash E schedule as q = E (as.sum + restBlock q) := by
    rw [ocb3Hash, offset_zero fun t _ => zero t, points_zero fun t _ => zero t, restBlock, none,
      additive_sum additive]
    split
    · rw [add_zero]
    · rw [add_zero, add_zero, additive]
  rw [tag, hash, ← additive, add_add_add_comm, add_comm (start + restBlock q)]

end Linear

/-- What the code computes is what the mode has, for the parts that inputs split into. -/
def Ocb3Agrees (E : Equiv.Perm Block) (nonce : Nat) (bs as : List Block) (p q q' : List UInt8) : Prop :=
  (ocb3Seal E (codeSchedule E 1) (ocb3Start E nonce (nonce % 32)) bs p).1 =
      (ocb3Seal E (ocb3Schedule E) (ocb3Start E nonce (nonce % 64)) bs p).1 ∧
    (ocb3Seal E (codeSchedule E 1) (ocb3Start E nonce (nonce % 32)) bs p).2 +
        ocb3Hash E (codeSchedule E 16) as q' =
      (ocb3Seal E (ocb3Schedule E) (ocb3Start E nonce (nonce % 64)) bs p).2 +
        ocb3Hash E (ocb3Schedule E) as q

/-- An additive permutation shows another start, and another rest of the data. -/
theorem additive_agrees {E : Equiv.Perm Block} (additive : ∀ a b, E (a + b) = E a + E b) {nonce : Nat}
    {bs as : List Block} {p q q' : List UInt8} (agrees : Ocb3Agrees E nonce bs as p q q') :
    ocb3Start E nonce (nonce % 32) + restBlock q' = ocb3Start E nonce (nonce % 64) + restBlock q := by
  have zero := iterate_zero additive
  have code (stride t : Nat) : codeSchedule E stride t = 0 := by rw [codeSchedule_eq, zero]
  have mode (t : Nat) : ocb3Schedule E t = 0 := by rw [ocb3Schedule_eq, zero]
  have tags := agrees.2
  have hash (schedule : Nat → Block) (none : ∀ t, schedule t = 0) (p : List UInt8) :
      ocb3Hash E schedule as p = ocb3Hash E (fun _ => 0) as p :=
    ocb3Hash_congr (fun t _ => none t) p
  rw [hash _ (code 16), hash _ mode, ocb3Seal_congr fun t _ => code 1 t, ocb3Seal_congr fun t _ => mode t,
    additive_tag additive _ fun _ => rfl, additive_tag additive _ fun _ => rfl] at tags
  exact add_right_cancel (E.injective tags)

section Shear

/-- A bit of a block's number, as a scalar. -/
noncomputable def bitOf (k : Nat) : Block →+ ZMod 2 :=
  AddMonoidHom.mk' (fun b => BinaryField.coefficient b.toNat k) fun a b => by
    rw [Block.toNat_add, BinaryField.coefficient_xor]

theorem bitOf_apply (k : Nat) (b : Block) : bitOf k b = if b.toNat.testBit k then 1 else 0 := rfl

noncomputable def bitForm (k : Nat) : Module.Dual (ZMod 2) Block := (bitOf k).toZModLinearMap 2

/-- `u` is added to the blocks whose bit 96 is set, as it is in the block of every nonce. -/
noncomputable def shear {u : Block} (clear : bitForm 96 u = 0) : Equiv.Perm Block :=
  (LinearEquiv.transvection clear).toEquiv

variable {u : Block} (clear : bitForm 96 u = 0)

theorem shear_apply (b : Block) : shear clear b = b + bitOf 96 b • u := rfl

theorem shear_add (a b : Block) : shear clear (a + b) = shear clear a + shear clear b :=
  map_add (LinearEquiv.transvection clear) a b

theorem shear_of_set {b : Block} (set : bitOf 96 b = 1) : shear clear b = b + u := by
  rw [shear_apply, set, one_smul]

theorem bitOf_ofNat {n : Nat} (low : 2 ^ 96 ≤ n) (high : n < 2 ^ 97) : bitOf 96 (Block.ofNat n) = 1 := by
  have quotient : n / 2 ^ 96 = 1 := by omega
  have bit : n.testBit 96 = true := by
    rw [Nat.testBit_eq_decide_div_mod_eq, quotient]
    rfl
  rw [bitOf_apply, ofNat_toNat, Nat.mod_eq_of_lt (by omega), if_pos bit]

end Shear

/-- The offset that a stretched block gives at a bottom. -/
def startOf (top bottom : Nat) : Block := Block.ofNat (stretchNumber top / 2 ^ (64 - bottom))

/-- Two starts that are 32 bits apart differ, and not in the same way for all blocks. -/
theorem startOf_varies {bottom : Nat} (small : bottom < 32) (target : Block) :
    ∃ top, 2 ^ 96 ≤ top ∧ top < 2 ^ 97 ∧ startOf top bottom + startOf top (bottom + 32) ≠ target := by
  have numbers : ∀ b < 32,
      (stretchNumber (2 ^ 96) / 2 ^ (64 - b) % 2 ^ 128 ^^^
        stretchNumber (2 ^ 96) / 2 ^ (64 - (b + 32)) % 2 ^ 128) ≠
      (stretchNumber (2 ^ 96 + 1) / 2 ^ (64 - b) % 2 ^ 128 ^^^
        stretchNumber (2 ^ 96 + 1) / 2 ^ (64 - (b + 32)) % 2 ^ 128) := by
    decide
  by_contra same
  push Not at same
  have first := same (2 ^ 96) (Nat.le_refl _) (by decide)
  have second := same (2 ^ 96 + 1) (Nat.le_succ _) (by decide)
  have equal := congrArg Block.toNat (first.trans second.symm)
  simp only [Block.toNat_add, startOf, ofNat_toNat] at equal
  exact numbers bottom small equal

theorem add_eq_add_iff {a b c d : Block} (same : a + b = c + d) : a + c = b + d := by
  have moved : b = a + (c + d) := (@OffsetCodebook.add_eq_iff_eq_add Block _ _ a b (c + d)).mp same
  rw [moved, ← add_assoc, OffsetCodebook.add_twice]

/-- The sixth bit of the bottom shows for some permutation. -/
theorem bottom_shows {nonce : Nat} (low : 2 ^ 96 ≤ nonce) (high : nonce < 2 ^ 97)
    (set : 32 ≤ nonce % 64) (bs as : List Block) (p q q' : List UInt8) :
    ∃ E, ¬ Ocb3Agrees E nonce bs as p q q' := by
  have bottom : nonce % 64 = nonce % 32 + 32 := by omega
  obtain ⟨top, above, below, differs⟩ := startOf_varies (Nat.mod_lt nonce (by decide : 0 < 32))
    (restBlock q' + restBlock q)
  have bit : bitOf 96 (Block.ofNat (nonce - nonce % 64)) = 1 := bitOf_ofNat (by omega) (by omega)
  have clear : bitForm 96 (Block.ofNat (nonce - nonce % 64) + Block.ofNat top) = 0 := by
    change bitOf 96 _ = 0
    rw [map_add, bit, bitOf_ofNat above below]
    rfl
  have moved : shear clear (Block.ofNat (nonce - nonce % 64)) = Block.ofNat top := by
    rw [shear_of_set clear bit, ← add_assoc, ZModModule.add_self, zero_add]
  have start (bottom : Nat) : ocb3Start (shear clear) nonce bottom = startOf top bottom := by
    rw [ocb3Start, moved, ofNat_toNat, Nat.mod_eq_of_lt (by omega), startOf]
  refine ⟨shear clear, fun agrees => ?_⟩
  have starts := additive_agrees (E := shear clear) (shear_add clear) agrees
  rw [start, start, bottom] at starts
  exact differs (add_eq_add_iff starts)

/-- The last bytes of the data show for the identity. -/
theorem rest_shows {nonce : Nat} (clear : nonce % 64 = nonce % 32) (bs as : List Block)
    (p : List UInt8) {q q' : List UInt8} (size : q'.length = q.length) (short : q'.length < 16)
    (other : q' ≠ q) : ∃ E, ¬ Ocb3Agrees E nonce bs as p q q' := by
  refine ⟨Equiv.refl Block, fun agrees => other ?_⟩
  have identity (a b : Block) : Equiv.refl Block (a + b) = Equiv.refl Block a + Equiv.refl Block b := rfl
  have rests := additive_agrees identity agrees
  rw [clear] at rests
  exact restBlock_injective size short (add_left_cancel rests)

theorem ocb3Seal_front (E : Equiv.Perm Block) (schedule : Nat → Block) (start : Block) (bs : List Block)
    (p : List UInt8) :
    ∃ tail, (ocb3Seal E schedule start bs p).1 = flat (encipher E schedule start bs) ++ tail := by
  rw [ocb3Seal]
  split
  · exact ⟨[], (List.append_nil _).symm⟩
  · exact ⟨_, rfl⟩

/-- Equal ciphertexts have equal blocks. -/
theorem encipher_of_seal {E : Equiv.Perm Block} {schedule schedule' : Nat → Block}
    {start start' : Block} {bs : List Block} {p : List UInt8}
    (same : (ocb3Seal E schedule start bs p).1 = (ocb3Seal E schedule' start' bs p).1) :
    encipher E schedule start bs = encipher E schedule' start' bs := by
  obtain ⟨tail, front⟩ := ocb3Seal_front E schedule start bs p
  obtain ⟨tail', front'⟩ := ocb3Seal_front E schedule' start' bs p
  have first := blocks_flat (encipher E schedule start bs) tail
  have second := blocks_flat (encipher E schedule' start' bs) tail'
  rw [encipher_length] at first second
  rw [← first, ← second, ← front, ← front', same]

/-- Between two additions of an offset, only a bit of it is left of the offset. -/
theorem shear_between {u : Block} (clear : bitForm 96 u = 0) (b o k : Block) :
    shear clear (b + o) + k + o = b + k + bitOf 96 (b + o) • u := by
  rw [shear_apply]
  exact add_between b o _ k

/-- Two blocks of the message take the offset of the code back to its start. -/
theorem code_offset_two (E : Equiv.Perm Block) (start : Block) : offset (codeSchedule E 1) start 2 = start := by
  have second : codeExponent 1 1 = 2 := by decide
  rw [offset, offset, offset, codeSchedule_eq, codeSchedule_eq, codeExponent_first, second,
    OffsetCodebook.add_twice]

theorem mode_offset_two (E : Equiv.Perm Block) (start : Block) :
    offset (ocb3Schedule E) start 2 = start + (doubleBlock^[2] (E 0) + doubleBlock^[3] (E 0)) := by
  rw [offset, offset, offset, ocb3Schedule_eq, ocb3Schedule_eq, modeExponent_zero, modeExponent_one, add_assoc]

/-- A second block of the message shows for some permutation. -/
theorem second_shows {nonce : Nat} (clear : nonce % 64 = nonce % 32) {bs : List Block}
    (two : 2 ≤ bs.length) (as : List Block) (p q q' : List UInt8) :
    ∃ E, ¬ Ocb3Agrees E nonce bs as p q q' := by
  have one : bitOf 96 (Block.ofNat 1) = 0 := by
    rw [bitOf_apply, ofNat_toNat]
    rfl
  have low : bitForm 96 (Block.ofNat 1) = 0 := one
  let k := Block.ofNat (2 ^ 94)
  let E : Equiv.Perm Block := (shear low).trans (Equiv.addRight k)
  have zero : E 0 = k := by
    change shear low 0 + k = k
    rw [shear_apply, map_zero, zero_smul, add_zero, zero_add]
  have between (b o : Block) : E (b + o) + o = b + k + bitOf 96 (b + o) • Block.ofNat 1 :=
    shear_between low b o k
  -- the offsets differ in the bit that the permutation looks at
  have first : doubleBlock^[2] k = Block.ofNat (2 ^ 96) := by decide
  have next : doubleBlock^[3] k = Block.ofNat (2 ^ 97) := by decide
  have bit : bitOf 96 (Block.ofNat (2 ^ 96) + Block.ofNat (2 ^ 97)) = 1 := by
    rw [map_add, bitOf_apply, bitOf_apply, ofNat_toNat, ofNat_toNat]
    decide
  refine ⟨E, fun agrees => ?_⟩
  have second := congrArg (·[1]?) (encipher_of_seal agrees.1)
  simp only [encipher_getElem?, List.getElem?_eq_getElem (show 1 < bs.length from two), Option.map_some,
    Option.some.injEq, Nat.reduceAdd, code_offset_two, mode_offset_two, zero, first, next, clear] at second
  rw [between, between, ← add_assoc, add_right_inj,
    map_add (bitOf 96) _ (Block.ofNat (2 ^ 96) + Block.ofNat (2 ^ 97)), bit, add_smul, one_smul,
    left_eq_add] at second
  exact absurd second (by decide)

end Mumble

import Mumble.OcbAesProofs
import Mumble.Lib.BinaryPower
import Mathlib.Tactic.NormNum.Prime

/-! The offsets of an OCB2 message, which are doublings of one block. The doubling has
a period that two primes of `2 ^ 128 - 1` divide, and no message has as many blocks. -/
namespace Mumble
open CExec BinaryField Function

section Powers

/-- The power of the generator for `2 ^ 128 - 1` without either prime. -/
def bothLeft : Nat := 0xa0b5b36ea6be6851f0e083917ffa3ad

/-- The powers for `2 ^ 128 - 1` without one of the primes. -/
def without274177 : Nat := 0xa9e62d81b253d94ebe1545acd054439d

def without6700417 : Nat := 0xb34f959af912795f3236a7c5c9b5b422

/-- All that is computed about the field: these powers, the power for the whole
number, and what inverts either power without one. -/
theorem gf128_computed : power 128 0x87 2 88 185227981048078713564474495 = bothLeft ∧
    power 128 0x87 bothLeft 23 6700417 = without274177 ∧
    power 128 0x87 bothLeft 19 274177 = without6700417 ∧
    power 128 0x87 without274177 19 274177 = 1 ∧
    product 128 0x87 (without274177 ^^^ 1) 0x25690e2a74a8d35d41b4ccbdec90e864 = 1 ∧
    product 128 0x87 (without6700417 ^^^ 1) 0xfb9043b5b964d0d44ce89147bf2b6a67 = 1 := by
  decide +kernel

theorem gf128_pow {base k j value : Nat} (small : j < 2 ^ k) (computed : power 128 0x87 base k j = value) :
    (element 128 0x87 base : GF128) ^ j = element 128 0x87 value := by
  rw [← computed, element_power (by decide) (by decide) base small]

theorem x_pow_bothLeft : GF128.x ^ 185227981048078713564474495 = element 128 0x87 bothLeft := by
  rw [GF128.x, ← element_two 126 0x87]
  exact gf128_pow (by decide) gf128_computed.1

theorem x_pow_without274177 : GF128.x ^ ((2 ^ 128 - 1) / 274177) = element 128 0x87 without274177 := by
  have exponent : (2 ^ 128 - 1) / 274177 = 185227981048078713564474495 * 6700417 := by decide
  rw [exponent, pow_mul, x_pow_bothLeft]
  exact gf128_pow (by decide) gf128_computed.2.1

theorem x_pow_without6700417 : GF128.x ^ ((2 ^ 128 - 1) / 6700417) = element 128 0x87 without6700417 := by
  have exponent : (2 ^ 128 - 1) / 6700417 = 185227981048078713564474495 * 274177 := by decide
  rw [exponent, pow_mul, x_pow_bothLeft]
  exact gf128_pow (by decide) gf128_computed.2.2.1

theorem x_pow_order : GF128.x ^ (2 ^ 128 - 1) = 1 := by
  have exponent : 2 ^ 128 - 1 = (2 ^ 128 - 1) / 274177 * 274177 := by decide
  rw [exponent, pow_mul, x_pow_without274177, ← element_one 0x87 (by decide : 0 < 128)]
  exact gf128_pow (by decide) gf128_computed.2.2.2.1

end Powers

section Period
variable {b : Block}

theorem isPeriodicPt_doubleBlock (j : Nat) :
    IsPeriodicPt doubleBlock j b ↔ IsPeriodicPt (double 128 0x87) j b.toNat := by
  have semiconj : Semiconj Block.toNat doubleBlock (double 128 0x87) := doubleBlock_toNat
  refine ⟨fun periodic => periodic.map semiconj, fun periodic => Block.toNat_injective ?_⟩
  rw [(semiconj.iterate_right j).eq, periodic.eq]

theorem zeroBlock_toNat : zeroBlock.toNat = 0 := by decide

/-- A doubling that comes back to a block after a part of the order makes the block zero. -/
theorem not_isPeriodicPt {a inverse : Nat} (nonzero : b ≠ zeroBlock) (bound : inverse < 2 ^ 128)
    (pow : GF128.x ^ j = element 128 0x87 a) (unit : product 128 0x87 (a ^^^ 1) inverse = 1) :
    ¬ IsPeriodicPt doubleBlock j b := by
  intro periodic
  have zero := eq_zero_of_isPeriodicPt (by decide) (by decide) b.toNat_lt bound pow unit
    ((isPeriodicPt_doubleBlock j).mp periodic)
  exact nonzero (Block.toNat_injective (zero.trans zeroBlock_toNat.symm))

theorem doubleBlock_whole (b : Block) : IsPeriodicPt doubleBlock (2 ^ 128 - 1) b :=
  (isPeriodicPt_doubleBlock _).mpr (isPeriodicPt_of_pow (by decide) (by decide) b.toNat_lt x_pow_order)

theorem doubleBlock_period (nonzero : b ≠ zeroBlock) :
    274177 * 6700417 ≤ minimalPeriod doubleBlock b := by
  have first : 274177 ∣ minimalPeriod doubleBlock b :=
    prime_dvd_minimalPeriod (by norm_num) (by decide) (doubleBlock_whole b)
      (not_isPeriodicPt nonzero (by decide) x_pow_without274177 gf128_computed.2.2.2.2.1)
  have second : 6700417 ∣ minimalPeriod doubleBlock b :=
    prime_dvd_minimalPeriod (by norm_num) (by decide) (doubleBlock_whole b)
      (not_isPeriodicPt nonzero (by decide) x_pow_without6700417 gf128_computed.2.2.2.2.2)
  have coprime : Nat.Coprime 274177 6700417 := by decide
  have positive := (doubleBlock_whole b).minimalPeriod_pos (by decide : 0 < 2 ^ 128 - 1)
  exact Nat.le_of_dvd positive (coprime.mul_dvd_of_dvd_of_dvd first second)

theorem iterate_doubleBlock_ne_zero (nonzero : b ≠ zeroBlock) (j : Nat) :
    doubleBlock^[j] b ≠ zeroBlock := by
  have fixed : doubleBlock^[j] zeroBlock = zeroBlock := iterate_fixed (by decide) j
  rw [← fixed]
  exact (doubleBlock_injective.iterate j).ne nonzero

end Period

section Offsets
variable (aes : Aes) (ctx : OcbAes)

/-- The loop of `ocb2_aes_encrypt` over full blocks, with the `delta_new` of each of
them in place of its output. -/
def ocb2Deltas : Nat → List UInt8 → Ocb2 → Run (List Block × List UInt8 × Ocb2)
  | 0, in_, s => .ok ([], in_, s)
  | count + 1, in_, s => do
    let block ← loadBlock in_
    let (_, next) := ocb2EncryptBlock aes ctx block s
    let (deltas, rest, last) ← ocb2Deltas count (in_.drop 16) next
    .ok (next.delta :: deltas, rest, last)

/-- All offsets of a call that starts from `delta`. The last one is the `delta_new` of
`ocb2_encrypt_block_final`. -/
def ocb2Offsets (in_ : List UInt8) (inl : Int) (delta : Block) : Run (List Block) := do
  let i := (inl.tdiv 16).toNat
  let (deltas, _, s) ← ocb2Deltas aes ctx i in_ ⟨delta, zeroBlock⟩
  .ok (deltas ++ [doubleBlock s.delta])

variable {aes ctx}

/-- The loop itself enciphers every block between its entry and that entry again. -/
theorem ocb2Blocks_deltas (count : Nat) (in_ : List UInt8) (s : Ocb2) :
    ocb2Blocks (ocb2EncryptBlock aes ctx) count in_ s =
      (ocb2Deltas aes ctx count in_ s).map fun taken =>
        (flat (List.zipWith (fun block delta => aesEncrypt aes ctx.key (delta + block) + delta)
          (blocks count in_) taken.1), taken.2) := by
  induction count generalizing in_ s with
  | zero => rfl
  | succ count ih =>
    rw [ocb2Blocks, ocb2Deltas]
    by_cases full : 16 ≤ in_.length
    · rw [loadBlock_overlay full, ok_bind, ok_bind]
      dsimp only
      rw [ih, blocks]
      cases ocb2Deltas aes ctx count (in_.drop 16)
        (ocb2EncryptBlock aes ctx (zeroBlock.overlay in_) s).2 with
      | error fault => rfl
      | ok taken => rfl
    · have short : ¬ (in_.take 16).length = 16 := by
        rw [List.length_take]
        omega
      rw [loadBlock, dif_neg short]
      rfl

/-- Every block doubles the offset once more. -/
theorem ocb2Deltas_eq {count : Nat} {in_ : List UInt8} (full : 16 * count ≤ in_.length) (s : Ocb2) :
    ∃ last, ocb2Deltas aes ctx count in_ s =
        .ok ((List.range count).map fun k => doubleBlock^[k + 1] s.delta, in_.drop (16 * count), last) ∧
      last.delta = doubleBlock^[count] s.delta := by
  induction count generalizing in_ s with
  | zero => exact ⟨s, rfl, rfl⟩
  | succ count ih =>
    obtain ⟨last, taken, delta⟩ := @ih (in_.drop 16) (by rw [List.length_drop]; omega)
      (ocb2EncryptBlock aes ctx (zeroBlock.overlay in_) s).2
    refine ⟨last, ?_, delta⟩
    rw [ocb2Deltas, loadBlock_overlay (by omega), ok_bind]
    dsimp only
    rw [taken, ok_bind, List.drop_drop, List.range_succ_eq_map, List.map_cons, List.map_map,
      Nat.mul_succ, Nat.add_comm 16]
    rfl

theorem ocb2Offsets_eq (message rest : List UInt8) (delta : Block) :
    ocb2Offsets aes ctx (message ++ rest) message.length delta =
      .ok ((List.range (message.length / 16 + 1)).map fun k => doubleBlock^[k + 1] delta) := by
  have count : ((message.length : Int).tdiv 16).toNat = message.length / 16 := by
    rw [Int.natCast_tdiv_eq_ediv]
    omega
  have full : 16 * (message.length / 16) ≤ (message ++ rest).length := by
    rw [List.length_append]
    omega
  obtain ⟨last, taken, same⟩ := @ocb2Deltas_eq aes ctx _ _ full ⟨delta, zeroBlock⟩
  rw [ocb2Offsets, count]
  dsimp only
  rw [taken, ok_bind, List.range_succ, List.map_append, same, ← iterate_succ_apply' doubleBlock]
  rfl

/-- The offsets are what `ocb2_aes_encrypt` enciphers its blocks and makes its tag with. -/
theorem ocb2AesEncrypt_offsets (bs : List Block) {p : List UInt8} (short : p.length < 16)
    (rest : List UInt8) :
    ∃ deltas last pad checksum,
      ocb2Offsets aes ctx ((flat bs ++ p) ++ rest) (flat bs ++ p).length
          (aesEncrypt aes ctx.key ctx.encIv) = .ok (deltas ++ [last]) ∧
        pad = aesEncrypt aes ctx.key (bitLength p.length + last) ∧
        ocb2AesEncrypt aes ctx ((flat bs ++ p) ++ rest) (flat bs ++ p).length =
          .ok (0, flat (List.zipWith (fun block delta =>
              aesEncrypt aes ctx.key (delta + block) + delta) bs deltas) ++ mask pad p,
            aesEncrypt aes ctx.key (tripleBlock last + (pad.overlay p + checksum))) := by
  have full : 16 * bs.length ≤ (flat bs ++ (p ++ rest)).length := by
    rw [flat_append_length]
    omega
  obtain ⟨deltas, s, taken⟩ : ∃ deltas s, ocb2Deltas aes ctx bs.length (flat bs ++ (p ++ rest))
      ⟨aesEncrypt aes ctx.key ctx.encIv, zeroBlock⟩ = .ok (deltas, p ++ rest, s) := by
    obtain ⟨s, taken, -⟩ :=
      @ocb2Deltas_eq aes ctx _ _ full ⟨aesEncrypt aes ctx.key ctx.encIv, zeroBlock⟩
    rw [List.drop_left' (flat_length bs)] at taken
    exact ⟨_, s, taken⟩
  have loop := @ocb2Blocks_deltas aes ctx bs.length (flat bs ++ (p ++ rest))
    ⟨aesEncrypt aes ctx.key ctx.encIv, zeroBlock⟩
  rw [taken, blocks_flat] at loop
  refine ⟨deltas, doubleBlock s.delta, _, s.checksum, ?_, rfl, ?_⟩
  · simp only [ocb2Offsets, full_count bs short, List.append_assoc, taken, ok_bind]
  · simp only [ocb2AesEncrypt, full_count bs short, rest_size, List.append_assoc, loop, Except.map,
      ok_bind, ocb2EncryptBlockFinal_eq rest _ short.le]
    rfl

end Offsets

/-- From a block that is not zero, no message of an `int` length has an offset twice. -/
theorem ocb2_offsets_distinct (aes : Aes) (ctx : OcbAes) {delta : Block} (nonzero : delta ≠ zeroBlock)
    {message : List UInt8} (int : message.length < 2 ^ 31) (rest : List UInt8) :
    ∃ offsets, ocb2Offsets aes ctx (message ++ rest) message.length delta = .ok offsets ∧
      offsets.length = message.length / 16 + 1 ∧ offsets.Nodup ∧ zeroBlock ∉ offsets := by
  refine ⟨_, ocb2Offsets_eq message rest delta, ?_, ?_, ?_⟩
  · rw [List.length_map, List.length_range]
  · have period := doubleBlock_period nonzero
    refine List.nodup_range.map_on ?_
    intro i hi j hj same
    rw [List.mem_range] at hi hj
    have steps := iterate_injOn_Iio_minimalPeriod (show i + 1 < minimalPeriod doubleBlock delta by omega)
      (show j + 1 < minimalPeriod doubleBlock delta by omega) same
    exact Nat.succ.inj steps
  · intro member
    obtain ⟨k, -, zero⟩ := List.mem_map.mp member
    exact iterate_doubleBlock_ne_zero nonzero (k + 1) zero

theorem ocb2_offsets_sample :
    ∃ offsets, ocb2Offsets identityAes (sampleContext []) (List.replicate 40 7 ++ [4])
          (List.replicate 40 7).length (zeroBlock.setLast 1) = .ok offsets ∧
      offsets.length = (List.replicate 40 7).length / 16 + 1 ∧ offsets.Nodup ∧ zeroBlock ∉ offsets :=
  ocb2_offsets_distinct identityAes (sampleContext []) (by decide) (by decide) [4]

end Mumble

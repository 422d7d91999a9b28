import Mumble.Ocb3Additive
import Mumble.Lib.Distinguish

/-! The points at which the hash of the associated data enciphers. From three blocks
on the mode has one that the code has not, unless the encipherment of zero is one of a
few blocks, and a permutation that is free at that point shows it. -/
namespace Mumble
open CExec Bytes OffsetSchedule

section Doubling

theorem doubleBlock_add (a b : Block) : doubleBlock (a + b) = doubleBlock a + doubleBlock b := by
  apply GF128.ofBlock_injective
  rw [GF128.ofBlock_doubleBlock, GF128.ofBlock_add, GF128.ofBlock_add, GF128.ofBlock_doubleBlock,
    GF128.ofBlock_doubleBlock, mul_add]

theorem iterate_add (n : Nat) (a b : Block) :
    doubleBlock^[n] (a + b) = doubleBlock^[n] a + doubleBlock^[n] b := by
  induction n with
  | zero => rfl
  | succ n ih => rw [Function.iterate_succ_apply', ih, doubleBlock_add, Function.iterate_succ_apply',
      Function.iterate_succ_apply']

/-- A block of a small number is doubled without a reduction. -/
theorem iterate_small {k : Block} (small : k.toNat < 2 ^ 64) {n : Nat} (few : n ≤ 64) :
    (doubleBlock^[n] k).toNat = k.toNat * 2 ^ n := by
  induction n with
  | zero => exact (Nat.mul_one _).symm
  | succ n ih =>
    have value := ih (by omega)
    have bound : k.toNat * 2 ^ n < 2 ^ 127 := by
      calc k.toNat * 2 ^ n < 2 ^ 64 * 2 ^ n := Nat.mul_lt_mul_of_pos_right small (Nat.two_pow_pos n)
        _ = 2 ^ (64 + n) := (Nat.pow_add 2 64 n).symm
        _ ≤ 2 ^ 127 := Nat.pow_le_pow_right (by decide) (by omega)
    have top : (k.toNat * 2 ^ n).testBit (128 - 1) = false := Nat.testBit_lt_two_pow bound
    rw [Function.iterate_succ_apply', doubleBlock_toNat, value, BinaryField.double, top,
      if_neg Bool.false_ne_true, Nat.xor_zero, Nat.mod_eq_of_lt (by omega), Nat.mul_left_comm, Nat.pow_succ,
      Nat.mul_comm 2]

/-- The bits of a small block after some doublings. -/
theorem bitOf_iterate {k : Block} (small : k.toNat < 2 ^ 64) {n : Nat} (few : n ≤ 64) (i : Nat) :
    bitOf i (doubleBlock^[n] k) = if n ≤ i ∧ k.toNat.testBit (i - n) = true then 1 else 0 := by
  rw [bitOf_apply, iterate_small small few, ← Nat.shiftLeft_eq, Nat.testBit_shiftLeft]
  simp only [Bool.and_eq_true, decide_eq_true_eq]

end Doubling

/-- What the offsets have grown by after `j` blocks, from the numbers of doublings. -/
def grown (e : Nat → Nat) (j : Nat) (k : Block) : Block := ∑ t ∈ Finset.range j, doubleBlock^[e t] k

theorem grown_add (e : Nat → Nat) (j : Nat) (a b : Block) : grown e j (a + b) = grown e j a + grown e j b := by
  simp only [grown, iterate_add, Finset.sum_add_distrib]

theorem grown_offset (e : Nat → Nat) (j : Nat) (k : Block) :
    offset (fun t => doubleBlock^[e t] k) 0 j = grown e j k := by
  rw [offset_eq_sum, zero_add, grown]

section Distinct
variable {e : Nat → Nat} {j s : Nat} {k : Block}

/-- A bit that a single term of a sum has. -/
theorem grown_ne_of_bit (i : Nat) (inside : s < j) (has : bitOf i (doubleBlock^[e s] k) = 1)
    (others : ∀ t < j, t ≠ s → bitOf i (doubleBlock^[e t] k) = 0)
    (clear : bitOf i (doubleBlock^[3] k) = 0) : grown e j k + doubleBlock^[3] k ≠ 0 := by
  intro vanish
  have bits := congrArg (bitOf i) vanish
  rw [map_add, clear, add_zero, map_zero, grown, map_sum, Finset.sum_eq_single s, has] at bits
  · exact one_ne_zero bits
  · exact fun t before different => others t (Finset.mem_range.mp before) different
  · exact fun outside => absurd (Finset.mem_range.mpr inside) outside

variable (small : k.toNat < 2 ^ 64) (some : k.toNat ≠ 0) (few : ∀ t < j, e t ≤ 64)
include small some few

/-- The lowest bit of the term that is doubled least. -/
theorem grown_ne_of_least (inside : s < j) (least : ∀ t < j, t ≠ s → e s < e t) (below : e s < 3) :
    grown e j k + doubleBlock^[3] k ≠ 0 := by
  have set : ∃ i, k.toNat.testBit i = true := by
    by_contra none
    push Not at none
    exact some (Nat.eq_of_testBit_eq fun i => by rw [Bool.eq_false_iff.mpr (none i), Nat.zero_testBit])
  have clear (n : Nat) (more : e s < n) (n_le : n ≤ 64) :
      bitOf (Nat.find set + e s) (doubleBlock^[n] k) = 0 := by
    rw [bitOf_iterate small n_le, if_neg]
    rintro ⟨reach, bit⟩
    exact Nat.find_min set (by omega) bit
  refine grown_ne_of_bit (Nat.find set + e s) inside ?_ ?_ ?_
  · rw [bitOf_iterate small (few s inside), if_pos]
    exact ⟨Nat.le_add_left _ _, by rw [Nat.add_sub_cancel]; exact Nat.find_spec set⟩
  · exact fun t before different => clear (e t) (least t before different) (few t before)
  · exact clear 3 below (by decide)

/-- The highest bit of the term that is doubled most. -/
theorem grown_ne_of_most (inside : s < j) (most : ∀ t < j, t ≠ s → e t < e s) (above : 3 < e s) :
    grown e j k + doubleBlock^[3] k ≠ 0 := by
  obtain ⟨top, set, highest⟩ := Nat.exists_most_significant_bit some
  have clear (n : Nat) (less : n < e s) (n_le : n ≤ 64) :
      bitOf (top + e s) (doubleBlock^[n] k) = 0 := by
    rw [bitOf_iterate small n_le, if_neg]
    rintro ⟨reach, bit⟩
    rw [highest _ (by omega)] at bit
    cases bit
  refine grown_ne_of_bit (top + e s) inside ?_ ?_ ?_
  · rw [bitOf_iterate small (few s inside), if_pos]
    exact ⟨Nat.le_add_left _ _, by rwa [Nat.add_sub_cancel]⟩
  · exact fun t before different => clear (e t) (most t before different) (few t before)
  · exact clear 3 above (by decide)

end Distinct

/-- With the encipherment of zero itself after `m` blocks, before a block of the rest. -/
def closed (m : Nat) (e : Nat → Nat) (t : Nat) : Nat := if t = m then 0 else e t

theorem closed_before {m t : Nat} (e : Nat → Nat) (before : t < m) : closed m e t = e t :=
  if_neg (Nat.ne_of_lt before)

theorem closed_self (m : Nat) (e : Nat → Nat) : closed m e m = 0 := if_pos rfl

/-- Full blocks, and the rest as one more. -/
def dataBlocks (as : List Block) (q : List UInt8) : List Block :=
  if q = [] then as else as ++ [padded q]

theorem dataBlocks_length (as : List Block) (q : List UInt8) :
    as.length ≤ (dataBlocks as q).length ∧ (dataBlocks as q).length ≤ as.length + 1 := by
  rw [dataBlocks]
  split
  · exact ⟨Nat.le_refl _, Nat.le_succ _⟩
  · rw [List.length_append]
    exact ⟨Nat.le_succ _, Nat.le_refl _⟩

/-- The points of the hash. -/
def dataPoints (e : Nat → Nat) (as : List Block) (q : List UInt8) (k : Block) : List Block :=
  points (fun t => doubleBlock^[closed as.length e t] k) 0 (dataBlocks as q)

theorem ocb3Hash_points (E : Equiv.Perm Block) (e : Nat → Nat) (as : List Block) (q : List UInt8) :
    ocb3Hash E (fun t => doubleBlock^[e t] (E 0)) as q = ((dataPoints e as q (E 0)).map E).sum := by
  have same : ∀ t < as.length, doubleBlock^[e t] (E 0) = doubleBlock^[closed as.length e t] (E 0) := by
    intro t before
    rw [closed_before e before]
  rw [ocb3Hash, dataPoints, dataBlocks, points_congr same]
  split
  · rfl
  · rw [points_concat, List.map_append, List.sum_append, offset, offset_congr same, closed_self]
    simp only [List.map_cons, List.map_nil, List.sum_cons, List.sum_nil, add_zero]
    rfl

theorem dataPoints_getElem? (e : Nat → Nat) (as : List Block) (q : List UInt8) (k : Block) (j : Nat) :
    (dataPoints e as q k)[j]? =
      (dataBlocks as q)[j]?.map (· + grown (closed as.length e) (j + 1) k) := by
  rw [dataPoints, points_getElem?, grown_offset]

section Exponents

theorem modeExponent_le {t : Nat} (few : t < 2 ^ 27) : modeExponent t ≤ 64 := by
  have bound := padicValNat_le_nat_log (p := 2) (t + 1)
  have log : Nat.log 2 (t + 1) ≤ 27 := by
    rw [← Nat.log_pow (show 1 < 2 by decide) 27]
    exact Nat.log_mono_right few
  rw [modeExponent]
  omega

theorem modeExponent_two : modeExponent 2 = 2 := by
  rw [modeExponent, padicValNat.eq_zero_of_not_dvd (by decide)]

/-- Below a power of two no number has as many trailing zeros, nor up to the next power. -/
theorem trailing_lt_log {n j : Nat} (positive : 0 < n) (le : n ≤ j) (other : n ≠ 2 ^ Nat.log 2 j) :
    padicValNat 2 n < Nat.log 2 j := by
  have most := (padicValNat_le_nat_log (p := 2) n).trans (Nat.log_mono_right le)
  refine Nat.lt_of_le_of_ne most fun same => other ?_
  obtain ⟨c, factor⟩ := pow_padicValNat_dvd (p := 2) (n := n)
  rw [same] at factor
  have below := Nat.lt_pow_succ_log_self (show 1 < 2 by decide) j
  have one : c = 1 := by
    rw [Nat.pow_succ] at below
    have upper : c < 2 := by
      by_contra large
      have grow := Nat.mul_le_mul_left (2 ^ Nat.log 2 j) (Nat.le_of_not_lt large)
      omega
    have lower : c ≠ 0 := by
      rintro rfl
      omega
    omega
  rw [factor, one, Nat.mul_one]

end Exponents

section Separate
variable {m j : Nat} {k : Block}

theorem closed_le {e : Nat → Nat} (few : ∀ t < m, e t ≤ 64) {t : Nat} (inside : t ≤ m) :
    closed m e t ≤ 64 := by
  rw [closed]
  split
  · exact Nat.zero_le _
  · exact few t (by omega)

variable (small : k.toNat < 2 ^ 64) (some : k.toNat ≠ 0)
include small some

/-- The encipherment of zero itself is in the sum behind the rest. -/
theorem closed_separate {e : Nat → Nat} (few : ∀ t < m, e t ≤ 64) (positive : ∀ t < m, 0 < e t) :
    grown (closed m e) (m + 1) k + doubleBlock^[3] k ≠ 0 := by
  refine grown_ne_of_least small some (fun t inside => closed_le few (Nat.le_of_lt_succ inside))
    (Nat.lt_succ_self m) (fun t inside other => ?_) ?_
  · rw [closed_self, closed_before e (by omega)]
    exact positive t (by omega)
  · rw [closed_self]
    decide

/-- No offset of the code grows by three doublings, -/
theorem code_separate (inside : j ≤ m) :
    grown (closed m (codeExponent 16)) (j + 1) k + doubleBlock^[3] k ≠ 0 := by
  have few (t : Nat) : codeExponent 16 t ≤ 64 := (codeExponent_le 16 t).trans (by decide)
  obtain rfl | before := Nat.eq_or_lt_of_le inside
  · exact closed_separate small some (fun t _ => few t) fun t _ => Nat.succ_pos _
  have first : closed m (codeExponent 16) 0 = 2 := by
    rw [closed_before _ (by omega), codeExponent_first]
  refine grown_ne_of_least (s := 0) small some (fun t inside => closed_le (fun t _ => few t) (by omega))
    (Nat.succ_pos j) (fun t inside other => ?_) ?_
  · obtain ⟨t, rfl⟩ := Nat.exists_eq_succ_of_ne_zero other
    rw [first, closed_before _ (by omega)]
    exact codeExponent_data t
  · rw [first]
    decide

/-- and of the mode only the third. -/
theorem mode_separate (inside : j ≤ m) (bound : m < 2 ^ 27) (other : j ≠ 2) :
    grown (closed m modeExponent) (j + 1) k + doubleBlock^[3] k ≠ 0 := by
  have few (t : Nat) (before : t < m) : modeExponent t ≤ 64 := modeExponent_le (by omega)
  have le (t : Nat) (before : t < j + 1) : closed m modeExponent t ≤ 64 := closed_le few (by omega)
  obtain rfl | before := Nat.eq_or_lt_of_le inside
  · exact closed_separate small some few fun t _ => Nat.succ_pos _
  obtain low | high : j < 2 ∨ 3 ≤ j := by omega
  · have first : closed m modeExponent 0 = 2 := by rw [closed_before _ (by omega), modeExponent_zero]
    refine grown_ne_of_least (s := 0) small some le (Nat.succ_pos j) (fun t inside other => ?_) ?_
    · obtain rfl : t = 1 := by omega
      rw [first, closed_before _ (by omega), modeExponent_one]
      decide
    · rw [first]
      decide
  · -- the largest power of two among the numbers of the blocks
    have two : 2 ≤ Nat.log 2 (j + 1) := by
      rw [← Nat.log_pow (show 1 < 2 by decide) 2]
      exact Nat.log_mono_right (by omega)
    have power : 2 ^ Nat.log 2 (j + 1) ≤ j + 1 := Nat.pow_log_le_self 2 (Nat.succ_ne_zero j)
    have positive : 0 < 2 ^ Nat.log 2 (j + 1) := Nat.two_pow_pos _
    have most : closed m modeExponent (2 ^ Nat.log 2 (j + 1) - 1) = Nat.log 2 (j + 1) + 2 := by
      rw [closed_before _ (by omega), modeExponent, Nat.sub_add_cancel positive, padicValNat.prime_pow]
    refine grown_ne_of_most (s := 2 ^ Nat.log 2 (j + 1) - 1) small some le (by omega)
      (fun t inside other => ?_) ?_
    · have fewer := trailing_lt_log (n := t + 1) (Nat.succ_pos t) inside (by omega)
      rw [most, closed_before _ (by omega), modeExponent]
      omega
    · omega

end Separate

/-- Two small blocks do not both carry a point to the third one of the mode. -/
theorem hit_once {e : Nat → Nat} {j : Nat} {b d : Block}
    (separate : ∀ k : Block, k.toNat < 2 ^ 64 → k.toNat ≠ 0 → grown e j k + doubleBlock^[3] k ≠ 0)
    {k k' : Block} (small : k.toNat < 2 ^ 64) (small' : k'.toNat < 2 ^ 64)
    (hit : b + grown e j k = d + doubleBlock^[3] k) (hit' : b + grown e j k' = d + doubleBlock^[3] k') :
    k = k' := by
  have sum : grown e j (k + k') + doubleBlock^[3] (k + k') = 0 := by
    have same := (add_eq_add_iff hit).symm.trans (add_eq_add_iff hit')
    rw [grown_add, iterate_add, add_add_add_comm, same, ZModModule.add_self]
  by_contra different
  refine separate (k + k') ?_ (fun zero => different ?_) sum
  · rw [Block.toNat_add]
    exact Nat.xor_lt_two_pow small small'
  · rw [Block.toNat_add] at zero
    exact Block.toNat_injective (Nat.xor_eq_zero_iff.mp zero)

section Third
variable (as : List Block) (q : List UInt8)

/-- The first and the third exponent of the mode cancel. -/
theorem mode_third {m : Nat} (three : 3 ≤ m) (k : Block) :
    grown (closed m modeExponent) 3 k = doubleBlock^[3] k := by
  rw [grown, Finset.sum_range_succ, Finset.sum_range_succ, Finset.sum_range_one,
    closed_before _ (by omega), closed_before _ (by omega), closed_before _ (by omega), modeExponent_zero,
    modeExponent_one, modeExponent_two, add_right_comm, ZModModule.add_self, zero_add]

/-- What can take the third point of the mode, whose block is `d`, at a value `k` of
the encipherment of zero: zero itself, a point of the code, another point of the mode. -/
def Taken (d k : Block) : Option (Fin (dataBlocks as q).length ⊕ Fin (dataBlocks as q).length) → Prop
  | none => d + doubleBlock^[3] k = 0
  | some (.inl j) =>
    (dataBlocks as q)[j] + grown (closed as.length (codeExponent 16)) (j + 1) k = d + doubleBlock^[3] k
  | some (.inr j) => j.val ≠ 2 ∧
    (dataBlocks as q)[j] + grown (closed as.length modeExponent) (j + 1) k = d + doubleBlock^[3] k

variable {as q}

theorem taken_once (bound : as.length < 2 ^ 27) {d k k' : Block} (small : k.toNat < 2 ^ 64)
    (small' : k'.toNat < 2 ^ 64) {i} (hit : Taken as q d k i) (hit' : Taken as q d k' i) : k = k' := by
  have length := (dataBlocks_length as q).2
  match i with
  | none =>
    have none (k : Block) : grown modeExponent 0 k = 0 := Finset.sum_range_zero _
    refine hit_once (e := modeExponent) (j := 0) (b := 0) (d := d) (fun k small some => ?_) small small'
      ?_ ?_
    · rw [none, zero_add]
      intro vanish
      have value := iterate_small small (n := 3) (by decide)
      rw [vanish] at value
      exact some (by change 0 = _ at value; omega)
    · rw [none, zero_add]
      exact hit.symm
    · rw [none, zero_add]
      exact hit'.symm
  | some (.inl j) =>
    exact hit_once (fun k small some => code_separate small some (by omega)) small small' hit hit'
  | some (.inr j) =>
    exact hit_once (fun k small some => mode_separate small some (by omega) bound hit.1) small small' hit.2
      hit'.2

/-- The blocks of small numbers, among which there is always another one. -/
theorem exists_small_blocks : ∃ candidates : Finset Block,
    candidates.card = 2 ^ 64 ∧ ∀ k ∈ candidates, k.toNat < 2 ^ 64 := by
  refine ⟨(Finset.range (2 ^ 64)).image Block.ofNat, ?_, ?_⟩
  · rw [Finset.card_image_of_injOn, Finset.card_range]
    intro a small b small' same
    have numbers := congrArg Block.toNat same
    simp only [Finset.coe_range, Set.mem_Iio] at small small'
    rwa [ofNat_toNat, ofNat_toNat, Nat.mod_eq_of_lt (by omega), Nat.mod_eq_of_lt (by omega)] at numbers
  · intro k member
    obtain ⟨n, inside, rfl⟩ := Finset.mem_image.mp member
    rw [ofNat_toNat]
    exact (Nat.mod_le _ _).trans_lt (Finset.mem_range.mp inside)

theorem exists_free (bound : as.length < 2 ^ 27) (d : Block) : ∃ k, ∀ i, ¬ Taken as q d k i := by
  obtain ⟨candidates, many, small⟩ := exists_small_blocks
  have length := (dataBlocks_length as q).2
  obtain ⟨k, -, free⟩ := Distinguish.exists_avoiding candidates (fun i k => Taken as q d k i)
    (fun i a member b member' hit hit' => taken_once bound (small a member) (small b member') hit hit')
    (by rw [Fintype.card_option, Fintype.card_sum, Fintype.card_fin, many]; omega)
  exact ⟨k, free⟩

theorem dataPoints_length (e : Nat → Nat) (k : Block) :
    (dataPoints e as q k).length = (dataBlocks as q).length := points_length _

theorem dataPoints_some {e : Nat → Nat} {k z : Block} {j : Nat} (found : (dataPoints e as q k)[j]? = some z) :
    ∃ inside : j < (dataBlocks as q).length,
      (dataBlocks as q)[j] + grown (closed as.length e) (j + 1) k = z := by
  obtain ⟨inside, -⟩ := List.getElem?_eq_some_iff.mp found
  rw [dataPoints_length] at inside
  refine ⟨inside, ?_⟩
  rwa [dataPoints_getElem?, List.getElem?_eq_getElem inside, Option.map_some, Option.some.injEq] at found

/-- For some encipherment of zero the third point of the mode is nowhere else. -/
theorem exists_third (q : List UInt8) (three : 3 ≤ as.length) (bound : as.length < 2 ^ 27) :
    ∃ k z, z ≠ 0 ∧ z ∉ dataPoints (codeExponent 16) as q k ∧
      ∃ front back, dataPoints modeExponent as q k = front ++ z :: back ∧ z ∉ front ∧ z ∉ back := by
  have third : 2 < (dataBlocks as q).length := three.trans (dataBlocks_length as q).1
  obtain ⟨k, free⟩ := exists_free (q := q) bound (dataBlocks as q)[2]
  let z := (dataBlocks as q)[2] + doubleBlock^[3] k
  let mode := dataPoints modeExponent as q k
  have here : mode[2]? = some z := by
    rw [dataPoints_getElem?, List.getElem?_eq_getElem third, Option.map_some, mode_third three]
  have elsewhere (j : Nat) (other : j ≠ 2) (found : mode[j]? = some z) : False := by
    obtain ⟨inside, point⟩ := dataPoints_some found
    exact free (some (.inr ⟨j, inside⟩)) ⟨other, point⟩
  refine ⟨k, z, free none, ?_, mode.take 2, mode.drop 3, ?_, ?_, ?_⟩
  · intro member
    obtain ⟨j, found⟩ := List.mem_iff_getElem?.mp member
    obtain ⟨inside, point⟩ := dataPoints_some found
    exact free (some (.inl ⟨j, inside⟩)) point
  · obtain ⟨inside, found⟩ := List.getElem?_eq_some_iff.mp here
    rw [← found, ← List.drop_eq_getElem_cons, List.take_append_drop]
  · intro member
    obtain ⟨j, inside, found⟩ := List.mem_take_iff_getElem.mp member
    exact elsewhere j (by omega) ((List.getElem_eq_iff _).mp found)
  · intro member
    obtain ⟨j, inside, found⟩ := List.mem_drop_iff_getElem.mp member
    exact elsewhere (3 + j) (by omega) ((List.getElem_eq_iff _).mp found)

/-- Three blocks of data show for some permutation. -/
theorem data_shows {nonce : Nat} (clear : nonce % 64 = nonce % 32) {bs : List Block}
    (one : bs.length ≤ 1) (p q : List UInt8) (three : 3 ≤ as.length) (bound : as.length < 2 ^ 27) :
    ∃ E, ¬ Ocb3Agrees E nonce bs as p q q := by
  obtain ⟨k, z, some, code, front, back, mode, before, behind⟩ := exists_third q three bound
  obtain ⟨candidates, many, -⟩ := exists_small_blocks
  have length := congrArg List.length mode
  have few := (dataBlocks_length as q).2
  rw [dataPoints_length, List.length_append, List.length_cons] at length
  obtain ⟨E, zero, differs⟩ := Distinguish.exists_perm_sum_ne candidates k some code before behind
    (by rw [dataPoints_length, many]; omega)
  refine ⟨E, fun agrees => differs ?_⟩
  have tags := agrees.2
  have hash (schedule e : Nat → _) (same : ∀ t, schedule t = doubleBlock^[e t] (E 0)) :
      ocb3Hash E schedule as q = ((dataPoints e as q k).map E).sum := by
    rw [ocb3Hash_congr fun t _ => same t, ocb3Hash_points, zero]
  rwa [clear, ocb3Seal_congr fun t inside => messageSchedule_eq E (by omega), add_right_inj,
    hash _ _ (codeSchedule_eq E 16), hash _ _ (ocb3Schedule_eq E), mode] at tags

end Third

end Mumble

import Mumble.ProtobufC.Varints

/-! What the first pass reads of the data: the tag at the front, the field with its
number, and the extent of what comes behind. -/
namespace ProtobufC
open CExec Base128

section Loads
variable {data rest : List UInt8} {b : UInt8} {i : Nat}

theorem load_drop (here : data.drop i = b :: rest) : load data i = .ok b := by
  have found : data[i]? = some b := by
    rw [← List.head?_drop, here]
    rfl
  rw [load, found]

theorem drop_next (here : data.drop i = b :: rest) : data.drop (i + 1) = rest := by
  rw [← List.drop_drop, here]
  rfl

theorem exists_drop {left : Nat} (inside : left + 1 ≤ (data.drop i).length) :
    ∃ b rest, data.drop i = b :: rest ∧ left ≤ rest.length := by
  cases split : data.drop i with
  | nil => simp [split] at inside
  | cons b rest =>
    rw [split, List.length_cons] at inside
    exact ⟨b, rest, rfl, by omega⟩

end Loads

section Tags
variable {data : List UInt8}

/-- The place of the last byte of the number at `i`, or of the end. -/
theorem scanTerminator_eq {left i : Nat} (inside : left ≤ (data.drop i).length) :
    scanTerminator data left i =
      .ok ((wholeLength left (data.drop i)).elim (i + left) fun k => i + k - 1) := by
  induction left generalizing i with
  | zero => rfl
  | succ left ih =>
    obtain ⟨b, rest, here, more⟩ := exists_drop inside
    have next := drop_next here
    rw [scanTerminator, load_drop here, ok_bind, here, wholeLength]
    by_cases ends : b.toNat < 128
    · rw [if_pos (top_clear.mpr ends), if_pos ends]
      rfl
    · rw [if_neg (mt top_clear.mp ends), if_neg ends, ih (by rwa [next]), next]
      cases found : wholeLength left rest with
      | none =>
        simp only [Option.map_none, Option.elim_none]
        congr 1
        omega
      | some k =>
        have some := (wholeLength_some found).2.2.length_pos
        rw [List.length_take] at some
        simp only [Option.map_some, Option.elim_some]
        congr 1
        omega

theorem parseTagBytes_some {left rv s k : Nat} {shift tag : UInt32} (inside : left ≤ (data.drop rv).length)
    (same : shift.toNat = s) (room : s + 7 * left ≤ 32) (small : tag.toNat < 2 ^ s)
    (found : wholeLength left (data.drop rv) = some k) :
    parseTagBytes data left rv shift tag =
      .ok (rv + k, .ofNat (tag.toNat + 2 ^ s * value ((data.drop rv).take k))) := by
  induction left generalizing rv s k shift tag with
  | zero => cases found
  | succ left ih =>
    obtain ⟨b, rest, here, more⟩ := exists_drop inside
    have next := drop_next here
    have digit : ((b &&& 0x7f).toUInt32 <<< shift).toNat = 2 ^ s * (b.toNat % 128) := by
      have bound : 2 ^ s * (b.toNat % 128) < 2 ^ 32 := by
        have power : 2 ^ (s + 7) ≤ 2 ^ 32 := Nat.pow_le_pow_right (by decide) (by omega)
        have low : 2 ^ s * (b.toNat % 128) < 2 ^ (s + 7) := by
          rw [Nat.pow_add]
          exact Nat.mul_lt_mul_of_pos_left (by omega) (Nat.two_pow_pos s)
        omega
      rw [UInt32.toNat_shiftLeft, UInt8.toNat_toUInt32, toNat_and_low, same,
        Nat.mod_eq_of_lt (show s < 32 by omega), Nat.shiftLeft_eq, Nat.mul_comm, Nat.mod_eq_of_lt bound]
    have joined : (tag ||| (b &&& 0x7f).toUInt32 <<< shift).toNat = tag.toNat + 2 ^ s * (b.toNat % 128) := by
      rw [UInt32.toNat_or, digit, Nat.lor_comm, Bits.or_eq_add (Nat.dvd_mul_right _ _) small, Nat.add_comm]
    rw [here, wholeLength] at found
    rw [parseTagBytes, load_drop here, ok_bind]
    by_cases ends : b.toNat < 128
    · rw [if_pos ends] at found
      cases found
      have same' : b &&& 0x7f = b := by
        apply UInt8.toNat_inj.mp
        rw [toNat_and_low, Nat.mod_eq_of_lt ends]
      rw [if_neg (by simpa using top_clear.mpr ends), here, List.take_succ_cons, List.take_zero]
      rw [same'] at joined
      simp only [value_cons, value_nil, Nat.mul_zero, Nat.add_zero, ← joined, UInt32.ofNat_toNat]
    · rw [if_neg ends] at found
      obtain ⟨m, inner, rfl⟩ := Option.map_eq_some_iff.mp found
      have sum : (shift + 7).toNat = s + 7 := by
        rw [UInt32.toNat_add, same]
        change (s + 7) % 2 ^ 32 = s + 7
        omega
      have bound : tag.toNat + 2 ^ s * (b.toNat % 128) < 2 ^ (s + 7) := by
        have less : b.toNat % 128 + 1 ≤ 128 := Nat.mod_lt _ (by decide)
        have scaled := Nat.mul_le_mul_left (2 ^ s) less
        rw [Nat.mul_add] at scaled
        rw [Nat.pow_add]
        omega
      have tail := ih (show left ≤ (data.drop (rv + 1)).length by rwa [next]) sum (by omega)
        (show (tag ||| (b &&& 0x7f).toUInt32 <<< shift).toNat < 2 ^ (s + 7) by rw [joined]; exact bound)
        (by rw [next]; exact inner)
      rw [if_pos (by simpa using mt top_clear.mp ends), tail, joined, next, here, List.take_succ_cons,
        value_cons]
      congr 2
      · omega
      · congr 1
        rw [Nat.pow_add]
        ring

theorem parseTagBytes_none {left rv : Nat} {shift tag : UInt32} (inside : left ≤ (data.drop rv).length)
    (missing : wholeLength left (data.drop rv) = none) :
    ∃ tag', parseTagBytes data left rv shift tag = .ok (0, tag') := by
  induction left generalizing rv shift tag with
  | zero => exact ⟨tag, rfl⟩
  | succ left ih =>
    obtain ⟨b, rest, here, more⟩ := exists_drop inside
    have next := drop_next here
    rw [here, wholeLength] at missing
    by_cases ends : b.toNat < 128
    · rw [if_pos ends] at missing
      cases missing
    · rw [if_neg ends, Option.map_eq_none_iff] at missing
      rw [parseTagBytes, load_drop here, ok_bind, if_pos (by simpa using mt top_clear.mp ends)]
      exact ih (by rwa [next]) (by rwa [next])

theorem parseTagAndWiretype_some {rem k : Nat} (inside : rem ≤ data.length)
    (found : wholeLength (min 5 rem) data = some k) :
    parseTagAndWiretype rem data =
      .ok (k, .ofNat (value (data.take k) / 8), .ofNat (value (data.take k) % 8)) := by
  cases data with
  | nil =>
    obtain rfl : rem = 0 := by simpa using inside
    cases found
  | cons b rest =>
    have range := b.toNat_lt
    rw [List.length_cons] at inside
    have most : (if rem > 5 then 5 else rem) = min 5 rem := by
      split_ifs <;> omega
    obtain ⟨left, left_eq⟩ : ∃ left, min 5 rem = left + 1 := by
      cases count : min 5 rem with
      | zero =>
        rw [count] at found
        cases found
      | succ left => exact ⟨left, rfl⟩
    have wire : b &&& 7 = UInt8.ofNat (b.toNat % 8) := by
      apply UInt8.toNat_inj.mp
      rw [UInt8.toNat_and, toNat_digit (by omega)]
      exact Nat.and_two_pow_sub_one_eq_mod b.toNat 3
    have first : ((b &&& 0x7f).toUInt32 >>> 3).toNat = b.toNat % 128 / 8 := by
      rw [UInt32.toNat_shiftRight, UInt8.toNat_toUInt32, toNat_and_low]
      exact Nat.shiftRight_eq_div_pow _ 3
    rw [left_eq, wholeLength] at found
    rw [parseTagAndWiretype, most, left_eq, load_zero, ok_bind, wire]
    by_cases ends : b.toNat < 128
    · rw [if_pos ends] at found
      cases found
      have tag : (b &&& 0x7f).toUInt32 >>> 3 = UInt32.ofNat (b.toNat % 128 / 8) := by
        rw [← first, UInt32.ofNat_toNat]
      have low : b.toNat % 128 % 8 = b.toNat % 8 := by omega
      dsimp only
      rw [if_pos (top_clear.mpr ends), tag, List.take_succ_cons, List.take_zero, value_cons, value_nil,
        Nat.mul_zero, Nat.add_zero, low]
    · rw [if_neg ends] at found
      obtain ⟨m, inner, rfl⟩ := Option.map_eq_some_iff.mp found
      have tail : parseTagBytes (b :: rest) left 1 4 ((b &&& 0x7f).toUInt32 >>> 3) = _ :=
        parseTagBytes_some (s := 4) (by rw [List.drop_one, List.tail_cons]; omega) rfl (by omega)
          (by rw [first]; omega) inner
      have high : b.toNat % 128 / 8 + 2 ^ 4 * value (rest.take m) =
          (b.toNat % 128 + 128 * value (rest.take m)) / 8 := by omega
      have low : (b.toNat % 128 + 128 * value (rest.take m)) % 8 = b.toNat % 8 := by omega
      dsimp only
      rw [if_neg (mt top_clear.mp ends), Nat.add_sub_cancel, tail, ok_bind, first, List.drop_one, List.tail_cons,
        List.take_succ_cons, value_cons, high, low, Nat.add_comm]

theorem parseTagAndWiretype_none {rem : Nat} (some : 0 < rem) (inside : rem ≤ data.length)
    (missing : wholeLength (min 5 rem) data = none) :
    ∃ tag wireType, parseTagAndWiretype rem data = .ok (0, tag, wireType) := by
  cases data with
  | nil => simp at inside; omega
  | cons b rest =>
    rw [List.length_cons] at inside
    have most : (if rem > 5 then 5 else rem) = min 5 rem := by
      split_ifs <;> omega
    obtain ⟨left, left_eq⟩ : ∃ left, min 5 rem = left + 1 := ⟨min 5 rem - 1, by omega⟩
    rw [left_eq, wholeLength] at missing
    rw [parseTagAndWiretype, most, left_eq, load_zero, ok_bind]
    by_cases ends : b.toNat < 128
    · rw [if_pos ends] at missing
      cases missing
    · rw [if_neg ends, Option.map_eq_none_iff] at missing
      obtain ⟨tag, tail⟩ : ∃ tag, parseTagBytes (b :: rest) left 1 4 ((b &&& 0x7f).toUInt32 >>> 3) = .ok (0, tag) :=
        parseTagBytes_none (by rw [List.drop_one, List.tail_cons]; omega) missing
      refine ⟨tag, b &&& 7, ?_⟩
      dsimp only
      rw [if_neg (mt top_clear.mp ends), Nat.add_sub_cancel, tail]
      rfl

end Tags

section Lengths
variable {data : List UInt8}

theorem scanPrefix_some {left i s k : Nat} {shift val : UInt32} (inside : left ≤ (data.drop i).length)
    (same : shift.toNat = s) (room : s + 7 * left ≤ 35) (small : val.toNat < 2 ^ s)
    (found : wholeLength left (data.drop i) = some k) :
    scanPrefix data left i shift val =
      .ok (i + k - 1, .ofNat (val.toNat + 2 ^ s * value ((data.drop i).take k))) := by
  induction left generalizing i s k shift val with
  | zero => cases found
  | succ left ih =>
    obtain ⟨b, rest, here, more⟩ := exists_drop inside
    have next := drop_next here
    have digit : ((b &&& 0x7f).toUInt32 <<< shift).toNat = 2 ^ s * (b.toNat % 128) % 2 ^ 32 := by
      rw [UInt32.toNat_shiftLeft, UInt8.toNat_toUInt32, toNat_and_low, same,
        Nat.mod_eq_of_lt (show s < 32 by omega), Nat.shiftLeft_eq, Nat.mul_comm]
    have joined : val ||| (b &&& 0x7f).toUInt32 <<< shift = .ofNat (val.toNat + 2 ^ s * (b.toNat % 128)) := by
      apply UInt32.toNat_inj.mp
      rw [UInt32.toNat_or, digit, UInt32.toNat_ofNat', ← Nat.mod_eq_of_lt val.toNat_lt, ← Nat.or_mod_two_pow,
        Nat.mod_eq_of_lt val.toNat_lt, Nat.lor_comm, Bits.or_eq_add (Nat.dvd_mul_right _ _) small, Nat.add_comm]
    rw [here, wholeLength] at found
    rw [scanPrefix, load_drop here, ok_bind]
    dsimp only
    by_cases ends : b.toNat < 128
    · rw [if_pos ends] at found
      cases found
      rw [if_pos (top_clear.mpr ends), joined, here, List.take_succ_cons, List.take_zero]
      simp
    · rw [if_neg ends] at found
      obtain ⟨m, inner, rfl⟩ := Option.map_eq_some_iff.mp found
      obtain ⟨left, rfl⟩ : ∃ fewer, left = fewer + 1 := by
        cases left with
        | zero => cases inner
        | succ fewer => exact ⟨fewer, rfl⟩
      have sum : (shift + 7).toNat = s + 7 := by
        rw [UInt32.toNat_add, same]
        change (s + 7) % 2 ^ 32 = s + 7
        omega
      have bound : val.toNat + 2 ^ s * (b.toNat % 128) < 2 ^ (s + 7) := by
        have less : b.toNat % 128 + 1 ≤ 128 := Nat.mod_lt _ (by decide)
        have scaled := Nat.mul_le_mul_left (2 ^ s) less
        rw [Nat.mul_add] at scaled
        rw [Nat.pow_add]
        omega
      have power : 2 ^ (s + 7) ≤ 2 ^ 28 := Nat.pow_le_pow_right (by decide) (by omega)
      have exact_value : (UInt32.ofNat (val.toNat + 2 ^ s * (b.toNat % 128))).toNat =
          val.toNat + 2 ^ s * (b.toNat % 128) := by
        rw [UInt32.toNat_ofNat', Nat.mod_eq_of_lt (by omega)]
      have tail := ih (i := i + 1) (by rwa [next]) sum (by omega)
        (show (UInt32.ofNat (val.toNat + 2 ^ s * (b.toNat % 128))).toNat < 2 ^ (s + 7) by rwa [exact_value])
        (by rw [next]; exact inner)
      rw [if_neg (mt top_clear.mp ends), joined, tail, exact_value, next, here, List.take_succ_cons, value_cons]
      congr 2
      · omega
      · congr 1
        rw [Nat.pow_add]
        ring

theorem scanPrefix_none {left i : Nat} {shift val : UInt32} (inside : left ≤ (data.drop i).length)
    (missing : wholeLength left (data.drop i) = none) :
    ∃ val', scanPrefix data left i shift val = .ok (i + left, val') := by
  induction left generalizing i shift val with
  | zero => exact ⟨val, rfl⟩
  | succ left ih =>
    obtain ⟨b, rest, here, more⟩ := exists_drop inside
    have next := drop_next here
    rw [here, wholeLength] at missing
    by_cases ends : b.toNat < 128
    · rw [if_pos ends] at missing
      cases missing
    · rw [if_neg ends, Option.map_eq_none_iff] at missing
      obtain ⟨val', tail⟩ : ∃ val', scanPrefix data left (i + 1) (shift + 7)
          (val ||| (b &&& 0x7f).toUInt32 <<< shift) = .ok (i + 1 + left, val') :=
        ih (by rwa [next]) (by rwa [next])
      refine ⟨val', ?_⟩
      rw [scanPrefix, load_drop here, ok_bind]
      dsimp only
      rw [if_neg (mt top_clear.mp ends), tail, show i + 1 + left = i + (left + 1) by omega]

/-- The two lengths are added as numbers of 32 bits. -/
theorem scanLengthPrefixedData_some {len k : Nat} (inside : len ≤ data.length)
    (found : wholeLength (min 5 len) data = some k) :
    scanLengthPrefixedData len data =
      .ok (if (k + value (data.take k)) % 2 ^ 32 > len then 0 else (k + value (data.take k)) % 2 ^ 32, k) := by
  obtain ⟨short, -, whole⟩ := wholeLength_some found
  have some := whole.length_pos
  rw [List.length_take] at some
  have most : (if len < 5 then len else 5) = min 5 len := by
    split_ifs <;> omega
  have scanned : scanPrefix data (min 5 len) 0 0 0 = _ :=
    scanPrefix_some (s := 0) (by rw [List.drop_zero]; omega) rfl (by omega) (by decide) found
  have total : (UInt32.ofNat (k - 1 + 1) + UInt32.ofNat (value (data.take k))).toNat =
      (k + value (data.take k)) % 2 ^ 32 := by
    rw [UInt32.toNat_add, UInt32.toNat_ofNat', UInt32.toNat_ofNat', ← Nat.add_mod, Nat.sub_add_cancel (by omega)]
  simp only [Nat.zero_add, List.drop_zero, UInt32.toNat_zero, Nat.pow_zero, Nat.one_mul] at scanned
  rw [scanLengthPrefixedData, most, scanned, ok_bind]
  dsimp only
  rw [if_neg (by omega), total]
  split_ifs with long
  · rw [Nat.sub_add_cancel (by omega)]
  · rw [Nat.sub_add_cancel (by omega)]

theorem scanLengthPrefixedData_none {len : Nat} (inside : len ≤ data.length)
    (missing : wholeLength (min 5 len) data = none) : scanLengthPrefixedData len data = .ok (0, 0) := by
  have most : (if len < 5 then len else 5) = min 5 len := by
    split_ifs <;> omega
  obtain ⟨val, scanned⟩ : ∃ val, scanPrefix data (min 5 len) 0 0 0 = .ok (0 + min 5 len, val) :=
    scanPrefix_none (by rw [List.drop_zero]; omega) missing
  rw [scanLengthPrefixedData, most, scanned, ok_bind]
  dsimp only
  rw [if_pos (Nat.zero_add _)]

end Lengths

end ProtobufC

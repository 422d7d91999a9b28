import Mumble.ProtobufC.Message
import Mumble.Lib.Run

/-! The ranges of field numbers that `protoc-c` writes for a message, and the search
for a number in them. -/
namespace ProtobufC
open CExec

/-- `ProtobufCIntRange`. -/
structure IntRange where
  startValue : Int
  origIndex : Nat
  deriving DecidableEq, Repr

/-- The loop of `WriteIntRanges` from value `i` on, and the last two entries. -/
def writeRanges (lastRangeStart i : Nat) (previous : Int) : List Int → List IntRange
  | [] => [⟨previous + 1 - (i - lastRangeStart : Nat), lastRangeStart⟩, ⟨0, i⟩]
  | value :: values =>
    if previous + 1 ≠ value then
      ⟨previous + 1 - (i - lastRangeStart : Nat), lastRangeStart⟩ :: writeRanges i (i + 1) value values
    else writeRanges lastRangeStart (i + 1) value values

def writeIntRanges : List Int → List IntRange
  | [] => []
  | value :: values => writeRanges 0 1 value values

/-- The search with `n` ranges left from `start` on. -/
def lookupLoop (ranges : List IntRange) (value : Int) : Nat → Nat → Nat → Run Int
  | 0, _, _ => .error .endless
  | fuel + 1, start, n =>
    if n > 1 then do
      let mid := start + n / 2
      let range ← load ranges mid
      if value < range.startValue then lookupLoop ranges value fuel start (mid - start)
      else do
        let next ← load ranges (mid + 1)
        if value ≥ range.startValue + (next.origIndex - range.origIndex : Int) then
          lookupLoop ranges value fuel (mid + 1) (start + n - (mid + 1))
        else .ok (value - range.startValue + range.origIndex)
    else if n > 0 then do
      let range ← load ranges start
      let next ← load ranges (start + 1)
      let rangeSize : Int := next.origIndex - range.origIndex
      if range.startValue ≤ value ∧ value < range.startValue + rangeSize then
        .ok (value - range.startValue + range.origIndex)
      else .ok (-1)
    else .ok (-1)

def intRangeLookup (nRanges : Nat) (ranges : List IntRange) (value : Int) : Run Int :=
  if nRanges = 0 then .ok (-1) else lookupLoop ranges value (nRanges + 1) 0 nRanges

/-- The entries from `first` on: each one is the run of numbers up to the next, and the
last one ends the numbers. -/
inductive Covers (ids : List Int) : Nat → List IntRange → Prop where
  | last (value : Int) : Covers ids ids.length [⟨value, ids.length⟩]
  | run {value : Int} {first : Nat} {next : IntRange} {ranges : List IntRange}
      (longer : first < next.origIndex)
      (consecutive : ∀ j, first ≤ j → j < next.origIndex → ids[j]? = some (value + (j - first : Int)))
      (rest : Covers ids next.origIndex (next :: ranges)) : Covers ids first (⟨value, first⟩ :: next :: ranges)

section Covers
variable {ids : List Int} {first : Nat} {ranges : List IntRange}

theorem Covers.head (covers : Covers ids first ranges) :
    ∃ range, ranges[0]? = some range ∧ range.origIndex = first := by
  cases covers with
  | last value => exact ⟨_, rfl, rfl⟩
  | run => exact ⟨_, rfl, rfl⟩

theorem Covers.ends (covers : Covers ids first ranges) :
    ∃ range, ranges[ranges.length - 1]? = some range ∧ range.origIndex = ids.length := by
  induction covers with
  | last value => exact ⟨_, rfl, rfl⟩
  | run _ _ _ ih =>
    obtain ⟨range, found, at_end⟩ := ih
    exact ⟨range, by simpa using found, at_end⟩

/-- What one entry and the next say of the numbers. -/
theorem Covers.entry (covers : Covers ids first ranges) {k : Nat} {range next : IntRange}
    (here : ranges[k]? = some range) (there : ranges[k + 1]? = some next) :
    range.origIndex < next.origIndex ∧ ∀ j, range.origIndex ≤ j → j < next.origIndex →
      ids[j]? = some (range.startValue + (j - range.origIndex : Int)) := by
  induction covers generalizing k with
  | last value => simp at there
  | run longer consecutive _ ih =>
    cases k with
    | zero =>
      simp only [List.getElem?_cons_zero, List.getElem?_cons_succ, Option.some.injEq] at here there
      subst here
      subst there
      exact ⟨longer, consecutive⟩
    | succ k => exact ih (by simpa using here) (by simpa using there)

end Covers

/-- The loop has gone through `i` numbers, and a run goes from `start` to the last of
them. -/
theorem writeRanges_covers {ids values : List Int} {start i : Nat} {previous : Int} (before : start < i)
    (values_eq : values = ids.drop i) (inside : i ≤ ids.length)
    (run : ∀ j, start ≤ j → j < i → ids[j]? = some (previous + 1 - (i - j : Int))) :
    Covers ids start (writeRanges start i previous values) := by
  induction values generalizing start i previous with
  | nil =>
    have all : i = ids.length := by
      have empty := List.drop_eq_nil_iff.mp values_eq.symm
      omega
    subst all
    apply Covers.run before _ (.last 0)
    intro j low high
    rw [run j low high]
    congr 1
    omega
  | cons value values ih =>
    have here : ids[i]? = some value := by
      rw [← List.head?_drop, ← values_eq]
      rfl
    have more : i < ids.length := (List.getElem?_eq_some_iff.mp here).1
    have rest : values = ids.drop (i + 1) := by
      rw [← List.drop_drop, ← values_eq]
      rfl
    unfold writeRanges
    split_ifs with apart
    · have next : Covers ids i (writeRanges i (i + 1) value values) := by
        apply ih (by omega) rest (by omega)
        intro j low high
        obtain rfl : j = i := by omega
        rw [here]
        congr 1
        omega
      obtain ⟨head, tail, shape⟩ : ∃ head tail, writeRanges i (i + 1) value values = head :: tail := by
        cases written : writeRanges i (i + 1) value values with
        | nil =>
          rw [written] at next
          cases next
        | cons head tail => exact ⟨head, tail, rfl⟩
      rw [shape] at next ⊢
      obtain ⟨range, first, same⟩ := next.head
      obtain rfl : head = range := by simpa using first
      subst same
      apply Covers.run before _ next
      intro j low high
      rw [run j low high]
      congr 1
      omega
    · apply ih (by omega) rest (by omega)
      intro j low high
      by_cases old : j < i
      · rw [run j low old]
        congr 1
        omega
      · obtain rfl : j = i := by omega
        rw [here]
        congr 1
        omega

theorem writeIntRanges_covers {ids : List Int} (some : ids ≠ []) : Covers ids 0 (writeIntRanges ids) := by
  cases ids with
  | nil => contradiction
  | cons value values =>
    apply writeRanges_covers (by decide) rfl (by simp)
    intro j _ high
    obtain rfl : j = 0 := by omega
    simp

/-- Where a number stands among all of them, or `-1`. -/
def Located (ids : List Int) (value : Int) (result : Int) : Prop :=
  (result = -1 ∧ value ∉ ids) ∨ ∃ i : Nat, result = i ∧ ids[i]? = some value

section Lookup
variable {ids : List Int} {ranges : List IntRange}

theorem ascending_lt {i j : Nat} {a b : Int} (ascending : ids.Pairwise (· < ·)) (before : i < j)
    (here : ids[i]? = some a) (there : ids[j]? = some b) : a < b := by
  obtain ⟨hi, rfl⟩ := List.getElem?_eq_some_iff.mp here
  obtain ⟨hj, rfl⟩ := List.getElem?_eq_some_iff.mp there
  exact List.pairwise_iff_getElem.mp ascending i j hi hj before

section Entry
variable {k : Nat} {range next : IntRange} {value : Int} (covers : Covers ids 0 ranges)
  (here : ranges[k]? = some range) (there : ranges[k + 1]? = some next)
include covers here there

theorem Covers.located (above : range.startValue ≤ value)
    (below : value < range.startValue + (next.origIndex - range.origIndex : Int)) :
    Located ids value (value - range.startValue + range.origIndex) := by
  obtain ⟨longer, consecutive⟩ := covers.entry here there
  refine .inr ⟨(value - range.startValue).toNat + range.origIndex, by omega, ?_⟩
  rw [consecutive _ (by omega) (by omega)]
  congr 1
  omega

/-- A number below an entry stands in front of it. -/
theorem Covers.in_front (ascending : ids.Pairwise (· < ·)) (below : value < range.startValue) {i : Nat}
    (at_i : ids[i]? = some value) : i < range.origIndex := by
  obtain ⟨longer, consecutive⟩ := covers.entry here there
  by_contra behind
  have begins := consecutive range.origIndex (Nat.le_refl _) longer
  rcases Nat.lt_or_eq_of_le (Nat.not_lt.mp behind) with after | same
  · have order := ascending_lt ascending after begins at_i
    omega
  · subst same
    rw [begins] at at_i
    injection at_i
    omega

/-- A number beyond an entry stands behind it. -/
theorem Covers.beyond (ascending : ids.Pairwise (· < ·))
    (above : value ≥ range.startValue + (next.origIndex - range.origIndex : Int)) {i : Nat}
    (at_i : ids[i]? = some value) : next.origIndex ≤ i := by
  obtain ⟨longer, consecutive⟩ := covers.entry here there
  by_contra before
  have ends := consecutive (next.origIndex - 1) (by omega) (by omega)
  rcases Nat.lt_or_ge i (next.origIndex - 1) with earlier | late
  · have order := ascending_lt ascending earlier at_i ends
    omega
  · obtain rfl : i = next.origIndex - 1 := by omega
    rw [ends] at at_i
    injection at_i
    omega

end Entry

/-- The loop finds a number that is in none but the `n` ranges from `start` on. -/
theorem lookupLoop_located (covers : Covers ids 0 ranges) (ascending : ids.Pairwise (· < ·)) {value : Int}
    {fuel start n : Nat} {low high : IntRange} (enough : n < fuel) (first : ranges[start]? = some low)
    (last : ranges[start + n]? = some high)
    (inside : ∀ i, ids[i]? = some value → low.origIndex ≤ i ∧ i < high.origIndex) :
    ∃ result, lookupLoop ranges value fuel start n = .ok result ∧ Located ids value result := by
  induction fuel generalizing start n low high with
  | zero => omega
  | succ fuel ih =>
    have length : start + n < ranges.length := (List.getElem?_eq_some_iff.mp last).1
    have at_index (k : Nat) (short : k < ranges.length) : ∃ range, ranges[k]? = some range :=
      ⟨_, List.getElem?_eq_getElem short⟩
    have loads {k : Nat} {range : IntRange} (found : ranges[k]? = some range) : load ranges k = .ok range := by
      rw [load, found]
    unfold lookupLoop
    split_ifs with several one
    · obtain ⟨range, here⟩ := at_index (start + n / 2) (by omega)
      obtain ⟨next, there⟩ := at_index (start + n / 2 + 1) (by omega)
      simp only [loads here, loads there, ok_bind]
      split_ifs with below above
      · -- the number comes before the middle range
        apply ih (by omega) first (by rwa [show start + (start + n / 2 - start) = start + n / 2 by omega])
        intro i at_i
        exact ⟨(inside i at_i).1, covers.in_front here there ascending below at_i⟩
      · -- the number comes behind the middle range
        apply ih (by omega) there
          (by rwa [show start + n / 2 + 1 + (start + n - (start + n / 2 + 1)) = start + n by omega])
        intro i at_i
        exact ⟨covers.beyond here there ascending above at_i, (inside i at_i).2⟩
      · exact ⟨_, rfl, covers.located here there (by omega) (by omega)⟩
    · obtain rfl : n = 1 := by omega
      simp only [loads first, loads last, ok_bind]
      split_ifs with within
      · exact ⟨_, rfl, covers.located first last within.1 within.2⟩
      · refine ⟨_, rfl, .inl ⟨rfl, fun member => within ?_⟩⟩
        obtain ⟨i, at_i⟩ := List.getElem?_of_mem member
        obtain ⟨low_i, high_i⟩ := inside i at_i
        obtain ⟨longer, consecutive⟩ := covers.entry first last
        rw [consecutive i low_i high_i] at at_i
        injection at_i
        omega
    · obtain rfl : n = 0 := by omega
      refine ⟨_, rfl, .inl ⟨rfl, fun member => ?_⟩⟩
      obtain ⟨i, at_i⟩ := List.getElem?_of_mem member
      have both := inside i at_i
      rw [Nat.add_zero, first] at last
      cases last
      omega

end Lookup

/-- The search that `protobuf-c` makes in the ranges that `protoc-c` has written finds
each number where it stands, and no other. -/
theorem intRangeLookup_located {ids : List Int} (ascending : ids.Pairwise (· < ·)) (value : Int) :
    ∃ result, intRangeLookup ((writeIntRanges ids).length - 1) (writeIntRanges ids) value = .ok result ∧
      Located ids value result := by
  by_cases none : ids = []
  · subst none
    exact ⟨-1, rfl, .inl ⟨rfl, List.not_mem_nil⟩⟩
  · have covers := writeIntRanges_covers none
    obtain ⟨low, first, low_eq⟩ := covers.head
    obtain ⟨high, last, high_eq⟩ := covers.ends
    have length : 0 < (writeIntRanges ids).length := (List.getElem?_eq_some_iff.mp first).1
    have several : (writeIntRanges ids).length - 1 ≠ 0 := by
      intro single
      rw [single, first] at last
      cases last
      rw [low_eq] at high_eq
      exact none (List.length_eq_zero_iff.mp high_eq.symm)
    rw [intRangeLookup, if_neg several]
    apply lookupLoop_located covers ascending (Nat.lt_succ_self _) first (by rwa [Nat.zero_add])
    intro i at_i
    have inside := (List.getElem?_eq_some_iff.mp at_i).1
    omega

end ProtobufC

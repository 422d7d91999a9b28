import Mathlib

/-! Blocks that each get an offset of their own, which grows from block to block by
the entries of a schedule. -/
namespace OffsetSchedule
variable {B : Type*} [AddCommGroup B]

/-- The offset after `j` blocks. -/
def offset (schedule : ℕ → B) (start : B) : ℕ → B
  | 0 => start
  | j + 1 => offset schedule start j + schedule j

/-- Every block with its offset. -/
def points (schedule : ℕ → B) (start : B) (bs : List B) : List B :=
  bs.mapIdx fun j b => b + offset schedule start (j + 1)

/-- Every block enciphered between two additions of its offset. -/
def encipher (E : B → B) (schedule : ℕ → B) (start : B) (bs : List B) : List B :=
  bs.mapIdx fun j b => E (b + offset schedule start (j + 1)) + offset schedule start (j + 1)

section
variable {schedule schedule' : ℕ → B} {start : B} {E : B → B}

theorem offset_eq_sum (schedule : ℕ → B) (start : B) (j : ℕ) :
    offset schedule start j = start + ∑ t ∈ Finset.range j, schedule t := by
  induction j with
  | zero => rw [Finset.range_zero, Finset.sum_empty, add_zero, offset]
  | succ j ih => rw [offset, ih, Finset.sum_range_succ, add_assoc]

theorem offset_congr {j : ℕ} (same : ∀ t < j, schedule t = schedule' t) :
    offset schedule start j = offset schedule' start j := by
  rw [offset_eq_sum, offset_eq_sum]
  congr 1
  exact Finset.sum_congr rfl fun t inside => same t (Finset.mem_range.mp inside)

theorem offset_zero {j : ℕ} (zero : ∀ t < j, schedule t = 0) : offset schedule start j = start := by
  rw [offset_eq_sum, Finset.sum_eq_zero fun t inside => zero t (Finset.mem_range.mp inside), add_zero]

/-- The offsets from the second block on. -/
theorem offset_shift (schedule : ℕ → B) (start : B) (j : ℕ) :
    offset (fun t => schedule (t + 1)) (start + schedule 0) j = offset schedule start (j + 1) := by
  induction j with
  | zero => rfl
  | succ j ih =>
    rw [offset, ih]
    rfl

theorem encipher_cons (b : B) (bs : List B) :
    encipher E schedule start (b :: bs) =
      (E (b + (start + schedule 0)) + (start + schedule 0)) ::
        encipher E (fun t => schedule (t + 1)) (start + schedule 0) bs := by
  rw [encipher, List.mapIdx_cons, encipher]
  simp only [offset_shift]
  rfl

theorem points_cons (b : B) (bs : List B) :
    points schedule start (b :: bs) =
      (b + (start + schedule 0)) :: points (fun t => schedule (t + 1)) (start + schedule 0) bs := by
  rw [points, List.mapIdx_cons, points]
  simp only [offset_shift]
  rfl

theorem points_concat (bs : List B) (b : B) :
    points schedule start (bs ++ [b]) =
      points schedule start bs ++ [b + offset schedule start (bs.length + 1)] := by
  rw [points, List.mapIdx_concat, points]

@[simp] theorem points_length (bs : List B) : (points schedule start bs).length = bs.length :=
  List.length_mapIdx

@[simp] theorem encipher_length (bs : List B) : (encipher E schedule start bs).length = bs.length :=
  List.length_mapIdx

theorem encipher_getElem? (bs : List B) (j : ℕ) :
    (encipher E schedule start bs)[j]? =
      bs[j]?.map fun b => E (b + offset schedule start (j + 1)) + offset schedule start (j + 1) :=
  List.getElem?_mapIdx

theorem points_getElem? (bs : List B) (j : ℕ) :
    (points schedule start bs)[j]? = bs[j]?.map (· + offset schedule start (j + 1)) :=
  List.getElem?_mapIdx

theorem points_congr {bs : List B} (same : ∀ t < bs.length, schedule t = schedule' t) :
    points schedule start bs = points schedule' start bs := by
  apply List.ext_getElem?
  intro j
  rw [points_getElem?, points_getElem?]
  by_cases inside : j < bs.length
  · rw [offset_congr fun t before => same t (by omega)]
  · rw [List.getElem?_eq_none (Nat.le_of_not_lt inside)]
    rfl

theorem encipher_congr {bs : List B} (same : ∀ t < bs.length, schedule t = schedule' t) :
    encipher E schedule start bs = encipher E schedule' start bs := by
  apply List.ext_getElem?
  intro j
  rw [encipher_getElem?, encipher_getElem?]
  by_cases inside : j < bs.length
  · rw [offset_congr fun t before => same t (by omega)]
  · rw [List.getElem?_eq_none (Nat.le_of_not_lt inside)]
    rfl

/-- Without offsets the points are the blocks. -/
theorem points_zero {bs : List B} (zero : ∀ t < bs.length, schedule t = 0) :
    points schedule 0 bs = bs := by
  apply List.ext_getElem?
  intro j
  rw [points_getElem?]
  by_cases inside : j < bs.length
  · rw [offset_zero fun t before => zero t (by omega), List.getElem?_eq_getElem inside, Option.map_some,
      add_zero]
  · rw [List.getElem?_eq_none (Nat.le_of_not_lt inside)]
    rfl

end

theorem add_between [Module (ZMod 2) B] (b o s k : B) : b + o + s + k + o = b + k + s := by
  have twice : o + o = 0 := ZModModule.add_self o
  calc b + o + s + k + o = b + k + s + (o + o) := by abel
    _ = b + k + s := by rw [twice, add_zero]

end OffsetSchedule

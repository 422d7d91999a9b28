import Mathlib.Data.List.Forall2
import Mathlib.Data.List.Infix

/-! A stream cut into blocks of one width. What is not a whole block yet is left
over, and however the stream arrives, the blocks and the leftover are the same. -/
namespace Chunking
variable {α β : Type} {width : Nat}

def chunks (width : Nat) (xs : List α) : List (List α) :=
  (List.range (xs.length / width)).map fun k => (xs.drop (k * width)).take width

def leftover (width : Nat) (xs : List α) : List α := xs.drop (xs.length / width * width)

/-- Every element with a mark, which only the last one may carry. -/
def lastMarked (mark : Bool) : List β → List (β × Bool)
  | [] => []
  | [x] => [(x, mark)]
  | x :: y :: xs => (x, false) :: lastMarked mark (y :: xs)

theorem lastMarked_cons (mark : Bool) (x : β) {xs : List β} (some : xs ≠ []) :
    lastMarked mark (x :: xs) = (x, false) :: lastMarked mark xs := by
  cases xs with
  | nil => exact absurd rfl some
  | cons y xs => rfl

theorem lastMarked_false (xs : List β) : lastMarked false xs = xs.map fun x => (x, false) := by
  induction xs with
  | nil => rfl
  | cons x xs ih =>
    cases xs with
    | nil => rfl
    | cons y xs => exact congrArg _ ih

theorem chunks_length (xs : List α) : (chunks width xs).length = xs.length / width := by
  simp only [chunks, List.length_map, List.length_range]

theorem chunks_getElem? (xs : List α) (k : Nat) :
    (chunks width xs)[k]? =
      if k < xs.length / width then some ((xs.drop (k * width)).take width) else none := by
  simp only [chunks, List.getElem?_map]
  split
  case isTrue inside => rw [List.getElem?_range inside, Option.map_some]
  case isFalse outside =>
    rw [List.getElem?_eq_none (by simpa only [List.length_range, Nat.not_lt] using outside),
      Option.map_none]

theorem length_of_mem_chunks {xs block : List α} (member : block ∈ chunks width xs) :
    block.length = width := by
  obtain ⟨k, inside, rfl⟩ := List.mem_map.mp member
  have whole : (k + 1) * width ≤ xs.length / width * width :=
    Nat.mul_le_mul_right width (List.mem_range.mp inside)
  have bound := Nat.div_mul_le_self xs.length width
  rw [Nat.add_mul, Nat.one_mul] at whole
  rw [List.length_take, List.length_drop, Nat.min_eq_left]
  omega

theorem chunks_map (f : α → β) (xs : List α) :
    chunks width (xs.map f) = (chunks width xs).map (List.map f) := by
  simp only [chunks, List.length_map, List.map_map]
  apply List.map_congr_left
  intro k _
  rw [Function.comp_apply, List.map_take, List.map_drop]

theorem leftover_map (f : α → β) (xs : List α) :
    leftover width (xs.map f) = (leftover width xs).map f := by
  rw [leftover, List.length_map, leftover, List.map_drop]

theorem chunks_forall₂ {R : α → β → Prop} {xs : List α} {ys : List β} (related : List.Forall₂ R xs ys) :
    List.Forall₂ (List.Forall₂ R) (chunks width xs) (chunks width ys) := by
  rw [chunks, chunks, related.length_eq, List.forall₂_map_left_iff, List.forall₂_map_right_iff,
    List.forall₂_same]
  intro k _
  exact List.forall₂_take _ (List.forall₂_drop _ related)

theorem leftover_length (xs : List α) : (leftover width xs).length = xs.length % width := by
  have split := Nat.div_add_mod xs.length width
  rw [leftover, List.length_drop, Nat.mul_comm]
  omega

theorem chunks_short {xs : List α} (short : xs.length < width) : chunks width xs = [] := by
  rw [chunks, Nat.div_eq_of_lt short]
  rfl

theorem leftover_short {xs : List α} (short : xs.length < width) : leftover width xs = xs := by
  rw [leftover, Nat.div_eq_of_lt short, Nat.zero_mul, List.drop_zero]

section
variable (positive : 0 < width)
include positive

theorem chunks_block {block : List α} (whole : block.length = width) (xs : List α) :
    chunks width (block ++ xs) = block :: chunks width xs := by
  have count : (block ++ xs).length / width = xs.length / width + 1 := by
    rw [List.length_append, whole, Nat.add_comm, Nat.add_div_right _ positive]
  rw [chunks, count, List.range_succ_eq_map, List.map_cons, List.map_map, Nat.zero_mul, List.drop_zero,
    ← whole, List.take_left, whole, chunks]
  congr 1
  apply List.map_congr_left
  intro k _
  have further : (k + 1) * width = block.length + k * width := by
    rw [whole, Nat.add_mul, Nat.one_mul, Nat.add_comm]
  rw [Function.comp_apply, Nat.succ_eq_add_one, further, List.drop_length_add_append]

theorem leftover_chunk {block : List α} (whole : block.length = width) (xs : List α) :
    leftover width (block ++ xs) = leftover width xs := by
  have count : (block ++ xs).length / width = xs.length / width + 1 := by
    rw [List.length_append, whole, Nat.add_comm, Nat.add_div_right _ positive]
  have further : (xs.length / width + 1) * width = block.length + xs.length / width * width := by
    rw [whole, Nat.add_mul, Nat.one_mul, Nat.add_comm]
  rw [leftover, count, further, List.drop_length_add_append, leftover]

/-- A stream is too short for a block, or starts with one. -/
theorem chunks_induction {P : List α → Prop} (short : ∀ xs, xs.length < width → P xs)
    (block : ∀ b xs, b.length = width → P xs → P (b ++ xs)) (xs : List α) : P xs := by
  induction size : xs.length using Nat.strongRecOn generalizing xs with
  | ind n ih =>
    by_cases long : xs.length < width
    · exact short xs long
    · rw [← List.take_append_drop width xs]
      have first : (xs.take width).length = width := by
        rw [List.length_take]
        omega
      refine block _ _ first (ih (xs.length - width) ?_ _ List.length_drop)
      omega

theorem chunks_eq_nil_iff (xs : List α) : chunks width xs = [] ↔ xs.length < width := by
  rw [← List.length_eq_zero_iff, chunks_length, Nat.div_eq_zero_iff]
  omega

/-- Behind a block that is marked when nothing comes after it, the last of the rest
is marked when nothing is left over. -/
theorem lastMarked_block (mark : Bool) (block xs : List α) :
    lastMarked (mark && (leftover width xs).isEmpty) (block :: chunks width xs) =
      (block, mark && decide (xs.length = 0)) ::
        lastMarked (mark && (leftover width xs).isEmpty) (chunks width xs) := by
  by_cases short : xs.length < width
  · have none : (leftover width xs).isEmpty = decide (xs.length = 0) := by
      rw [leftover_short short, Bool.eq_iff_iff, List.isEmpty_iff, ← List.length_eq_zero_iff,
        decide_eq_true_iff]
    rw [chunks_short short, none]
    rfl
  · have some : chunks width xs ≠ [] := fun none => short ((chunks_eq_nil_iff positive xs).mp none)
    have more : ¬ xs.length = 0 := by omega
    rw [lastMarked_cons _ _ some, decide_eq_false more, Bool.and_false]

theorem chunks_getLast? {xs block : List α} {k : Nat} (found : (chunks width xs)[k]? = some block) :
    block.getLast? = xs[(k + 1) * width - 1]? := by
  have whole : block.length = width := length_of_mem_chunks (List.mem_of_getElem? found)
  rw [chunks_getElem?] at found
  split at found
  case isFalse => cases found
  case isTrue inside =>
    have last : k * width + (width - 1) = (k + 1) * width - 1 := by
      rw [Nat.add_mul, Nat.one_mul]
      omega
    rw [List.getLast?_eq_getElem?, whole, ← Option.some.inj found,
      List.getElem?_take_of_lt (by omega), List.getElem?_drop, last]

/-- The blocks and what is left over are the stream. -/
theorem chunks_flatten (xs : List α) : (chunks width xs).flatten ++ leftover width xs = xs := by
  induction xs using chunks_induction positive with
  | short xs short =>
    rw [chunks_short short, leftover_short short, List.flatten_nil, List.nil_append]
  | block b xs whole ih =>
    rw [chunks_block positive whole, leftover_chunk positive whole, List.flatten_cons, List.append_assoc,
      ih]

/-- What comes later is cut behind the leftover of what came before. -/
theorem chunks_append (xs ys : List α) :
    chunks width (xs ++ ys) = chunks width xs ++ chunks width (leftover width xs ++ ys) := by
  induction xs using chunks_induction positive with
  | short xs short =>
    rw [chunks_short short, leftover_short short, List.nil_append]
  | block b xs whole ih =>
    rw [List.append_assoc, chunks_block positive whole, ih, chunks_block positive whole,
      leftover_chunk positive whole, List.cons_append]

theorem leftover_append (xs ys : List α) :
    leftover width (xs ++ ys) = leftover width (leftover width xs ++ ys) := by
  induction xs using chunks_induction positive with
  | short xs short =>
    rw [leftover_short short]
  | block b xs whole ih =>
    rw [List.append_assoc, leftover_chunk positive whole, leftover_chunk positive whole, ih]

end

end Chunking

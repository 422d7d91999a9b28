import Mathlib.Data.List.Basic
import Mathlib.Data.List.Induction
import Mathlib.Order.Lattice

/-! A filter with one mark: an element below the mark is dropped, and any other
passes and becomes the mark. -/
namespace HighWater
variable {α : Type} (key : α → Nat)

def passed : Nat → List α → List α
  | _, [] => []
  | mark, x :: xs => if key x < mark then passed mark xs else x :: passed (key x) xs

/-- The mark that a list leaves behind. -/
def level : Nat → List α → Nat
  | mark, [] => mark
  | mark, x :: xs => level (max mark (key x)) xs

variable {key}

theorem level_le_iff {xs : List α} : level key mark xs ≤ k ↔ mark ≤ k ∧ ∀ x ∈ xs, key x ≤ k := by
  induction xs generalizing mark with
  | nil => simp [level]
  | cons x xs ih =>
    rw [level, ih, Nat.max_le, List.forall_mem_cons, and_assoc]

theorem forall_split {P : List α → α → Prop} {x : α} {xs : List α} :
    (∀ front y back, x :: xs = front ++ y :: back → P front y) ↔
      P [] x ∧ ∀ front y back, xs = front ++ y :: back → P (x :: front) y := by
  constructor
  · intro all
    exact ⟨all [] x xs rfl, fun front y back same => all (x :: front) y back (by rw [same]; rfl)⟩
  · rintro ⟨first, rest⟩ front y back same
    cases front with
    | nil =>
      cases same
      exact first
    | cons z front =>
      cases same
      exact rest front y back rfl

/-- The elements that pass are in order. -/
theorem passed_pairwise (mark : Nat) (xs : List α) :
    (passed key mark xs).Pairwise (fun x y => key x ≤ key y) ∧ ∀ x ∈ passed key mark xs, mark ≤ key x := by
  induction xs generalizing mark with
  | nil => exact ⟨.nil, by simp [passed]⟩
  | cons x xs ih =>
    rw [passed]
    split
    case isTrue low => exact ih mark
    case isFalse high =>
      obtain ⟨ordered, above⟩ := ih (key x)
      refine ⟨.cons above ordered, fun y member => ?_⟩
      rcases List.mem_cons.mp member with rfl | later
      · exact Nat.le_of_not_lt high
      · exact (Nat.le_of_not_lt high).trans (above y later)

/-- The highest that has passed is the highest there was. -/
theorem level_lt_iff {xs : List α} (start : mark ≤ k) :
    k < level key mark xs ↔ ∃ x ∈ passed key mark xs, k < key x := by
  induction xs generalizing mark with
  | nil => simpa [level, passed] using start
  | cons x xs ih =>
    rw [passed, level]
    by_cases low : key x < mark
    · rw [if_pos low, Nat.max_eq_left (Nat.le_of_lt low), ih start]
    · rw [if_neg low, Nat.max_eq_right (Nat.le_of_not_lt low)]
      simp only [List.mem_cons, exists_eq_or_imp]
      by_cases under : k < key x
      · have reached : key x ≤ level key (key x) xs := (level_le_iff.mp (Nat.le_refl _)).1
        exact iff_of_true (Nat.lt_of_lt_of_le under reached) (.inl under)
      · rw [ih (Nat.le_of_not_lt under), or_iff_right under]

theorem level_concat (mark : Nat) (xs : List α) (x : α) :
    level key mark (xs ++ [x]) = max (level key mark xs) (key x) := by
  induction xs generalizing mark with
  | nil => rfl
  | cons y xs ih => exact ih _

theorem passed_concat (mark : Nat) (xs : List α) (x : α) :
    passed key mark (xs ++ [x]) =
      passed key mark xs ++ if key x < level key mark xs then [] else [x] := by
  induction xs generalizing mark with
  | nil => rfl
  | cons y xs ih =>
    rw [List.cons_append, passed, passed, level]
    split
    case isTrue low => rw [ih, Nat.max_eq_left (Nat.le_of_lt low)]
    case isFalse high => rw [ih, Nat.max_eq_right (Nat.le_of_not_lt high), List.cons_append]

section Splits
variable {S : α → Prop} {F : List α → Prop} {P Q : List α → α → Prop}

/-- Two conditions on every element, that come to the same while an invariant holds
which one of them keeps, come to the same. -/
theorem forall_split_iff (same : ∀ front x, S x → F front → (P front x ↔ Q front x))
    (keeps : ∀ front x, S x → F front → Q front x → F (front ++ [x])) (before xs : List α)
    (each : ∀ x ∈ xs, S x) (start : F before) :
    (∀ front x back, xs = front ++ x :: back → P (before ++ front) x) ↔
      ∀ front x back, xs = front ++ x :: back → Q (before ++ front) x := by
  induction xs generalizing before with
  | nil => simp
  | cons x xs ih =>
    obtain ⟨first, rest⟩ := List.forall_mem_cons.mp each
    rw [@forall_split _ (fun front y => P (before ++ front) y), @forall_split _ (fun front y =>
      Q (before ++ front) y), List.append_nil, same before x first start]
    refine and_congr_right fun holds => ?_
    have next := ih (before ++ [x]) rest (keeps before x first start holds)
    simpa only [List.append_assoc, List.singleton_append] using next

/-- An invariant that each element keeps holds behind the whole list. -/
theorem invariant_of_forall (keeps : ∀ front x, S x → F front → Q front x → F (front ++ [x])) {xs : List α}
    (each : ∀ x ∈ xs, S x) (start : F []) (all : ∀ front x back, xs = front ++ x :: back → Q front x) : F xs := by
  induction xs using List.reverseRecOn with
  | nil => exact start
  | append_singleton xs x ih =>
    obtain ⟨earlier, last⟩ := List.forall_mem_append.mp each
    have before := ih earlier fun front y back split => all front y (back ++ [x]) (by
      rw [split, List.append_assoc, List.cons_append])
    exact keeps xs x (last x (List.mem_singleton_self x)) before (all xs x [] rfl)

end Splits

end HighWater

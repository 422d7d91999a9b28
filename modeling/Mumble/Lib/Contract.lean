import Mumble.Lib.Run

/-! Postconditions of an execution that may stop for some reasons but not for a
given one. -/
namespace CExec

/-- The execution does not stop with `fault`, and its result is `good` if it returns. -/
def Avoids (fault : Fault) (run : Run α) (good : α → Prop) : Prop :=
  match run with
  | .ok a => good a
  | .error stopped => stopped ≠ fault

section
variable {fault stopped : Fault} {run : Run α} {f : α → Run β} {good mid : α → Prop}
  {final : β → Prop}

theorem Avoids.ok {a : α} (holds : good a) : Avoids fault (.ok a) good := holds

theorem Avoids.error (other : stopped ≠ fault) : Avoids fault (.error stopped) good := other

theorem Avoids.bind (first : Avoids fault run mid) (rest : ∀ a, mid a → Avoids fault (f a) final) :
    Avoids fault (run >>= f) final := by
  cases run with
  | ok a => exact rest a first
  | error stopped => exact first

theorem Avoids.require {c : Prop} [Decidable c] {next : Unit → Run β} (other : stopped ≠ fault)
    (rest : c → Avoids fault (next ()) final) : Avoids fault (require c stopped >>= next) final := by
  by_cases holds : c
  · rw [require_true holds]
    exact rest holds
  · rw [require_false holds]
    exact other

theorem Avoids.slice {p : List α} {n : Nat} {next : List α → Run β} (other : .outOfBounds ≠ fault)
    (rest : n ≤ p.length → Avoids fault (next (p.take n)) final) :
    Avoids fault (slice p n >>= next) final := by
  by_cases inside : n ≤ p.length
  · rw [slice_of_le inside]
    exact rest inside
  · rw [CExec.slice, if_neg inside]
    exact other

theorem Avoids.load {p : List α} {i : Nat} {next : α → Run β} (other : .outOfBounds ≠ fault)
    (rest : ∀ a, p[i]? = some a → Avoids fault (next a) final) :
    Avoids fault (load p i >>= next) final := by
  unfold CExec.load
  split
  · exact rest _ ‹_›
  · exact other

theorem Avoids.store {p data : List α} {i : Nat} {next : List α → Run β} (other : .outOfBounds ≠ fault)
    (rest : ∀ q : List α, q.length = p.length → i + data.length ≤ p.length → Avoids fault (next q) final) :
    Avoids fault (store p i data >>= next) final := by
  cases stored : CExec.store p i data with
  | ok q =>
    obtain ⟨inside, same⟩ := store_eq_ok stored
    exact rest q same inside
  | error stopped =>
    unfold CExec.store at stored
    split at stored
    · cases stored
    · cases stored
      exact other

theorem Avoids.mono (kept : Avoids fault run mid) (weaker : ∀ a, mid a → good a) :
    Avoids fault run good := by
  cases run with
  | ok a => exact weaker a kept
  | error stopped => exact kept

/-- An invariant of the body of a loop over a list. -/
theorem Avoids.foldlM {body : β → α → Run β} {holds : β → Prop} {items : List α}
    (keeps : ∀ b, ∀ a ∈ items, holds b → Avoids fault (body b a) holds) {b : β}
    (initially : holds b) : Avoids fault (items.foldlM body b) holds := by
  induction items generalizing b with
  | nil => exact initially
  | cons a items ih =>
    rw [List.foldlM_cons]
    refine (keeps b a List.mem_cons_self initially).bind fun next kept => ?_
    exact ih (fun b a member => keeps b a (List.mem_cons_of_mem _ member)) kept

theorem Avoids.and (kept : Avoids fault run good) (also : Avoids fault run mid) :
    Avoids fault run fun a => good a ∧ mid a := by
  cases run with
  | ok a => exact ⟨kept, also⟩
  | error stopped => exact kept

/-- A result is what the execution returns. -/
theorem Avoids.returned (kept : Avoids fault run good) : Avoids fault run fun a => run = .ok a := by
  cases run with
  | ok a => exact rfl
  | error stopped => exact kept

theorem Avoids.ne (kept : Avoids fault run good) : run ≠ .error fault := by
  rintro rfl
  exact kept rfl

theorem Avoids.result {a : α} (kept : Avoids fault run good) (returned : run = .ok a) : good a := by
  rw [returned] at kept
  exact kept

end

end CExec

import Mathlib.Data.List.Induction

/-! Runs of a labelled transition system, from their first state on. -/
namespace Transition
variable {σ ε : Type*} {step : σ → ε → σ → Prop}

inductive Reaches (step : σ → ε → σ → Prop) (start : σ) : List ε → σ → Prop where
  | refl : Reaches step start [] start
  | next {events : List ε} {s t : σ} {event : ε} : Reaches step start events s → step s event t →
      Reaches step start (events ++ [event]) t

theorem Reaches.single {s t : σ} {event : ε} (head : step s event t) : Reaches step s [event] t :=
  .next .refl head

theorem Reaches.nil {s t : σ} (run : Reaches step s [] t) : t = s := by
  generalize empty : ([] : List ε) = all at run
  cases run with
  | refl => rfl
  | next => cases List.append_ne_nil_of_right_ne_nil _ (List.cons_ne_nil _ _) empty.symm

theorem Reaches.unsnoc {s t : σ} {events : List ε} {event : ε}
    (run : Reaches step s (events ++ [event]) t) : ∃ m, Reaches step s events m ∧ step m event t := by
  generalize whole : events ++ [event] = all at run
  cases run with
  | refl => cases List.append_ne_nil_of_right_ne_nil _ (List.cons_ne_nil _ _) whole
  | next front last =>
    obtain ⟨rfl, same⟩ := List.append_inj' whole rfl
    cases same
    exact ⟨_, front, last⟩

theorem Reaches.trans {s m t : σ} {first rest : List ε} (front : Reaches step s first m)
    (back : Reaches step m rest t) : Reaches step s (first ++ rest) t := by
  induction back with
  | refl => rwa [List.append_nil]
  | next _ last ih =>
    rw [← List.append_assoc]
    exact .next ih last

theorem Reaches.split {s t : σ} {first rest : List ε} (run : Reaches step s (first ++ rest) t) :
    ∃ m, Reaches step s first m ∧ Reaches step m rest t := by
  induction rest using List.reverseRecOn generalizing t with
  | nil => exact ⟨t, List.append_nil first ▸ run, .refl⟩
  | append_singleton rest event ih =>
    rw [← List.append_assoc] at run
    obtain ⟨u, front, last⟩ := run.unsnoc
    obtain ⟨m, front, back⟩ := ih front
    exact ⟨m, front, back.next last⟩

theorem Reaches.uncons {s t : σ} {event : ε} {rest : List ε} (run : Reaches step s (event :: rest) t) :
    ∃ m, step s event m ∧ Reaches step m rest t := by
  have parts : Reaches step s ([event] ++ rest) t := run
  obtain ⟨m, front, back⟩ := parts.split
  have single : Reaches step s ([] ++ [event]) m := front
  obtain ⟨u, start, head⟩ := single.unsnoc
  cases start.nil
  exact ⟨m, head, back⟩

/-- What holds at the start and is kept by every step holds after every run. The
steps may use that their first state is reached. -/
theorem Reaches.invariant {start t : σ} {events : List ε} (run : Reaches step start events t)
    (holds : List ε → σ → Prop) (initially : holds [] start)
    (keeps : ∀ {events s event t}, Reaches step start events s → step s event t → holds events s →
      holds (events ++ [event]) t) : holds events t := by
  induction run with
  | refl => exact initially
  | next front last ih => exact keeps front last ih

end Transition

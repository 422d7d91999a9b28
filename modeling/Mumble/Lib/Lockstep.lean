import Mathlib

/-! The two ends of a channel that agree on a counter and never send it. The
sender advances its counter and wraps a message under it, the receiver advances
its own and unwraps. Without loss the receiver is behind by what is in flight,
and a lost message leaves it behind for good. -/
namespace Lockstep

section Channel
variable {σ μ δ : Type*}

/-- Messages wrapped one after another from the counter `s`. -/
def wrapFrom (next : σ → σ) (wrap : σ → μ → δ) : σ → List μ → List δ
  | _, [] => []
  | s, m :: ms => wrap (next s) m :: wrapFrom next wrap (next s) ms

/-- Sealed messages unwrapped one after another from the counter `s`. -/
def unwrapFrom (next : σ → σ) (unwrap : σ → δ → μ) : σ → List δ → List μ
  | _, [] => []
  | s, d :: ds => unwrap (next s) d :: unwrapFrom next unwrap (next s) ds

/-- Some written messages are received and the others in flight, wrapped under the
counters that the receiver is about to reach. -/
def InStep (next : σ → σ) (wrap : σ → μ → δ) (send recv : σ) (wire : List δ)
    (written received : List μ) : Prop :=
  ∃ pending, written = received ++ pending ∧ wire = wrapFrom next wrap recv pending ∧
    send = next^[pending.length] recv

variable {next : σ → σ} {wrap : σ → μ → δ} {unwrap : σ → δ → μ}

@[simp] theorem wrapFrom_length (s : σ) (ms : List μ) :
    (wrapFrom next wrap s ms).length = ms.length := by
  induction ms generalizing s with
  | nil => rfl
  | cons m ms ih => rw [wrapFrom, List.length_cons, ih, List.length_cons]

theorem wrapFrom_append (s : σ) (ms more : List μ) :
    wrapFrom next wrap s (ms ++ more) =
      wrapFrom next wrap s ms ++ wrapFrom next wrap (next^[ms.length] s) more := by
  induction ms generalizing s with
  | nil => rfl
  | cons m ms ih =>
    rw [List.cons_append, wrapFrom, ih, wrapFrom, List.length_cons, Function.iterate_succ_apply]
    rfl

theorem wrapFrom_concat (s : σ) (ms : List μ) (m : μ) :
    wrapFrom next wrap s (ms ++ [m]) =
      wrapFrom next wrap s ms ++ [wrap (next (next^[ms.length] s)) m] :=
  wrapFrom_append s ms [m]

/-- A message is wrapped under the counter of its place. -/
theorem wrapFrom_getElem? (s : σ) (ms : List μ) (k : Nat) :
    (wrapFrom next wrap s ms)[k]? = ms[k]?.map (wrap (next^[k + 1] s)) := by
  induction ms generalizing s k with
  | nil => rfl
  | cons m ms ih =>
    cases k with
    | zero => rfl
    | succ k =>
      rw [wrapFrom, List.getElem?_cons_succ, ih, List.getElem?_cons_succ,
        Function.iterate_succ_apply _ (k + 1)]

theorem InStep.start (s : σ) : InStep next wrap s s [] [] [] :=
  ⟨[], rfl, rfl, rfl⟩

section Steps
variable {send recv : σ} {wire : List δ} {written received : List μ}

/-- A message enters the channel at the far end. -/
theorem InStep.write (inStep : InStep next wrap send recv wire written received) (m : μ) :
    InStep next wrap (next send) recv (wire ++ [wrap (next send) m]) (written ++ [m]) received := by
  obtain ⟨pending, rfl, rfl, rfl⟩ := inStep
  refine ⟨pending ++ [m], List.append_assoc _ _ _, (wrapFrom_concat recv pending m).symm, ?_⟩
  rw [List.length_append, List.length_singleton, Function.iterate_succ_apply']

/-- A message leaves the channel and comes out as it was written. -/
theorem InStep.read {d : δ} (inverse : ∀ s m, unwrap s (wrap s m) = m)
    (inStep : InStep next wrap send recv (d :: wire) written received) :
    ∃ m, d = wrap (next recv) m ∧ unwrap (next recv) d = m ∧
      InStep next wrap send (next recv) wire written (received ++ [m]) := by
  obtain ⟨pending, rfl, wrapping, rfl⟩ := inStep
  cases pending with
  | nil => cases wrapping
  | cons m pending =>
    obtain ⟨rfl, rfl⟩ := List.cons.inj wrapping
    exact ⟨m, rfl, inverse _ _, pending, by simp, rfl, Function.iterate_succ_apply _ _ _⟩

theorem InStep.wire_length (inStep : InStep next wrap send recv wire written received) :
    send = next^[wire.length] recv ∧ written.length = received.length + wire.length := by
  obtain ⟨pending, rfl, rfl, rfl⟩ := inStep
  rw [wrapFrom_length, List.length_append]
  exact ⟨rfl, rfl⟩

end Steps

/-- The elements that are marked. -/
def survivors (marks : List Bool) (l : List α) : List α :=
  ((l.zip marks).filter (·.2)).map (·.1)

@[simp] theorem survivors_nil (l : List α) : survivors [] l = [] := by
  simp [survivors]

@[simp] theorem survivors_true (marks : List Bool) (a : α) (l : List α) :
    survivors (true :: marks) (a :: l) = a :: survivors marks l := rfl

@[simp] theorem survivors_false (marks : List Bool) (a : α) (l : List α) :
    survivors (false :: marks) (a :: l) = survivors marks l := rfl

/-- After losses a message comes out right exactly when the counter of its place
among the survivors unwraps what the counter of its place among all wrapped. -/
theorem unwrapFrom_survivors_iff (sent : List (μ × Bool)) (s r : σ) :
    unwrapFrom next unwrap r
        (survivors (sent.map (·.2)) (wrapFrom next wrap s (sent.map (·.1)))) =
      survivors (sent.map (·.2)) (sent.map (·.1)) ↔
    ∀ before m after, sent = before ++ (m, true) :: after →
      unwrap (next^[before.countP (·.2) + 1] r) (wrap (next^[before.length + 1] s) m) = m := by
  induction sent generalizing s r with
  | nil => simp [unwrapFrom]
  | cons first sent ih =>
    obtain ⟨p, delivered⟩ := first
    cases delivered with
    | false =>
      simp only [List.map_cons, wrapFrom, survivors_false, ih]
      constructor
      · rintro right (_ | ⟨q, before⟩) m after split
        · simp at split
        · obtain ⟨rfl, rfl⟩ := List.cons.inj split
          exact right before m after rfl
      · rintro right before m after rfl
        exact right ((p, false) :: before) m after rfl
    | true =>
      simp only [List.map_cons, wrapFrom, survivors_true, unwrapFrom, List.cons.injEq, ih]
      constructor
      · rintro ⟨head, right⟩ (_ | ⟨q, before⟩) m after split
        · obtain ⟨same, -⟩ := List.cons.inj split
          obtain rfl := congrArg Prod.fst same
          exact head
        · obtain ⟨rfl, rfl⟩ := List.cons.inj split
          have later := right before m after rfl
          rwa [List.countP_cons_of_pos (by rfl), List.length_cons, Function.iterate_succ_apply,
            Function.iterate_succ_apply]
      · intro right
        refine ⟨right [] p sent rfl, ?_⟩
        rintro before m after rfl
        have later := right ((p, true) :: before) m after rfl
        rwa [List.countP_cons_of_pos (by rfl), List.length_cons, Function.iterate_succ_apply,
          Function.iterate_succ_apply] at later

end Channel

end Lockstep

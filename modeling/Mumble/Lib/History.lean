import Mathlib.Data.List.Infix

/-! Logs that only grow. What is said of an entry is said of the entries before it too. -/
namespace History
variable {ε : Type*} {p : List ε → ε → Prop} {log : List ε}

/-- Each entry, with those before it. -/
def Each (p : List ε → ε → Prop) (log : List ε) : Prop :=
  ∀ before entry after, log = before ++ entry :: after → p before entry

theorem Each.nil : Each p [] := by
  intro before entry after split
  cases List.append_ne_nil_of_right_ne_nil _ (List.cons_ne_nil _ _) split.symm

theorem Each.concat (each : Each p log) (next : p log entry) : Each p (log ++ [entry]) := by
  intro before other after split
  rcases List.eq_nil_or_concat after with rfl | ⟨rest, last, rfl⟩
  · obtain ⟨rfl, same⟩ := List.append_inj' split rfl
    cases same
    exact next
  · rw [List.concat_eq_append, ← List.cons_append, ← List.append_assoc] at split
    exact each before other rest (List.append_inj' split rfl).1

theorem Each.front {more : List ε} (each : Each p (log ++ more)) : Each p log := by
  intro before entry after split
  refine each before entry (after ++ more) ?_
  rw [split, List.append_assoc, List.cons_append]

theorem Each.last {entry : ε} (each : Each p (log ++ [entry])) : p log entry :=
  each log entry [] rfl

end History

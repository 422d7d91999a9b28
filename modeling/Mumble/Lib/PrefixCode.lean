import Mathlib.Data.List.Infix

/-! Codes of which no word starts with another, so that a text says where each of
its words ends. -/
namespace PrefixCode
variable {α β : Type*}

def PrefixFree (code : α → List β) : Prop := ∀ a b, code a <+: code b → a = b

/-- A reader of the word at the front of a text makes a code prefix-free. -/
theorem prefixFree_of_read {code : α → List β} (read : List β → α)
    (front : ∀ a rest, read (code a ++ rest) = a) : PrefixFree code := by
  rintro a b ⟨rest, same⟩
  have whole := front b []
  rw [List.append_nil, ← same, front] at whole
  exact whole

/-- Words that start one text are the same word. -/
theorem PrefixFree.front {code : α → List β} (free : PrefixFree code) {a b : α} {p q : List β}
    (same : code a ++ p = code b ++ q) : a = b := by
  have first : code a <+: code b ++ q := same ▸ List.prefix_append (code a) p
  have second : code b <+: code b ++ q := List.prefix_append (code b) q
  rcases Nat.le_total (code a).length (code b).length with short | short
  · exact free a b (List.prefix_of_prefix_length_le first second short)
  · exact (free b a (List.prefix_of_prefix_length_le second first short)).symm

/-- A text of words is made of them in one way only. -/
theorem PrefixFree.flatMap_injective {code : α → List β} (free : PrefixFree code)
    (nonempty : ∀ a, code a ≠ []) : Function.Injective fun words : List α => words.flatMap code := by
  intro words
  induction words with
  | nil =>
    intro words' same
    cases words' with
    | nil => rfl
    | cons b words' =>
      dsimp only at same
      rw [List.flatMap_nil, List.flatMap_cons] at same
      exact absurd (List.append_eq_nil_iff.mp same.symm).1 (nonempty b)
  | cons a words ih =>
    intro words' same
    cases words' with
    | nil =>
      dsimp only at same
      rw [List.flatMap_nil, List.flatMap_cons] at same
      exact absurd (List.append_eq_nil_iff.mp same).1 (nonempty a)
    | cons b words' =>
      dsimp only at same
      rw [List.flatMap_cons, List.flatMap_cons] at same
      obtain rfl := free.front same
      rw [ih (List.append_cancel_left same)]

end PrefixCode

import Mathlib

/-! Permutations that tell two sums over a group apart. A permutation can be chosen
freely at a point that only one of the sums has. -/
namespace Distinguish

/-- Obstacles that each hit one candidate at most do not hit them all when there are
more candidates. -/
theorem exists_avoiding {ι α : Type*} [Fintype ι] (candidates : Finset α) (hits : ι → α → Prop)
    (once : ∀ i, ∀ a ∈ candidates, ∀ b ∈ candidates, hits i a → hits i b → a = b)
    (few : Fintype.card ι < candidates.card) : ∃ a ∈ candidates, ∀ i, ¬ hits i a := by
  by_contra all
  push Not at all
  obtain ⟨first, member⟩ := Finset.card_pos.mp (Nat.zero_lt_of_lt few)
  have : Nonempty ι := (all first member).nonempty
  choose! obstacle hit using all
  obtain ⟨a, inside, b, inside', different, same⟩ :=
    Finset.exists_ne_map_eq_of_card_lt_of_maps_to (t := Finset.univ)
      (by rwa [Finset.card_univ]) fun a _ => Finset.mem_univ (obstacle a)
  have hit' := hit b inside'
  rw [← same] at hit'
  exact different (once (obstacle a) a inside b inside' (hit a inside) hit')

theorem exists_notMem {α : Type*} (candidates : Finset α) (avoid : List α)
    (few : avoid.length < candidates.card) : ∃ a ∈ candidates, a ∉ avoid := by
  obtain ⟨a, inside, free⟩ := exists_avoiding candidates (fun (i : Fin avoid.length) a => avoid.get i = a)
    (fun i a _ b _ hit hit' => hit.symm.trans hit') (by rwa [Fintype.card_fin])
  refine ⟨a, inside, fun member => ?_⟩
  obtain ⟨i, found⟩ := List.get_of_mem member
  exact free i found

/-- The value at zero can be prescribed, and a point that one list has once and the
other one has not makes the sums of the values differ. -/
theorem exists_perm_sum_ne {G : Type*} [AddCommGroup G] [DecidableEq G] (candidates : Finset G)
    {points front back : List G} {z : G} (k : G) (some : z ≠ 0) (fresh : z ∉ points)
    (before : z ∉ front) (behind : z ∉ back)
    (few : points.length + (front.length + back.length) + 2 < candidates.card) :
    ∃ E : Equiv.Perm G, E 0 = k ∧ (points.map E).sum ≠ ((front ++ z :: back).map E).sum := by
  let total := (points.map (· + k)).sum - ((front ++ back).map (· + k)).sum - k
  obtain ⟨b, -, free⟩ := exists_notMem candidates (0 :: total :: (points ++ (front ++ back)))
    (by simp only [List.length_cons, List.length_append]; omega)
  simp only [List.mem_cons, List.mem_append, not_or] at free
  obtain ⟨nonzero, other, inPoints, inFront, inBack⟩ := free
  let E : Equiv.Perm G := (Equiv.swap z b).trans (Equiv.addRight k)
  have plain (xs : List G) (z_notMem : z ∉ xs) (b_notMem : b ∉ xs) : xs.map E = xs.map (· + k) := by
    apply List.map_congr_left
    intro x member
    have fixed : Equiv.swap z b x = x := Equiv.swap_apply_of_ne_of_ne
      (fun same => z_notMem (same ▸ member)) (fun same => b_notMem (same ▸ member))
    exact congrArg (· + k) fixed
  have zero : E 0 = k := by
    have fixed : Equiv.swap z b 0 = 0 := Equiv.swap_apply_of_ne_of_ne some.symm (Ne.symm nonzero)
    exact (congrArg (· + k) fixed).trans (zero_add k)
  have moved : E z = b + k := congrArg (· + k) (Equiv.swap_apply_left z b)
  refine ⟨E, zero, fun same => other ?_⟩
  rw [List.map_append, List.map_cons, List.sum_append, List.sum_cons, moved, plain points fresh inPoints,
    plain front before inFront, plain back behind inBack] at same
  rw [eq_comm]
  change (points.map (· + k)).sum - ((front ++ back).map (· + k)).sum - k = b
  rw [same, List.map_append, List.sum_append]
  abel

end Distinguish

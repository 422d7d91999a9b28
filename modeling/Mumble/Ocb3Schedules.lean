import Mumble.Ocb3Proofs

/-! What the offsets grow by in the code and in the mode, as numbers of doublings, and
how far the two agree. -/
namespace Mumble
open CExec Bytes OffsetSchedule

theorem ocb3Encrypt_split (E : Equiv.Perm Block) (nonce : List UInt8) (bs as : List Block)
    {p q : List UInt8} (short : p.length < 16) (short' : q.length < 16) :
    ocb3Encrypt E nonce (flat as ++ q) (flat bs ++ p) =
      ((ocb3Seal E (ocb3Schedule E) (ocb3Start E (2 ^ 96 + bigEndian nonce)
          ((2 ^ 96 + bigEndian nonce) % 64)) bs p).1,
        (ocb3Seal E (ocb3Schedule E) (ocb3Start E (2 ^ 96 + bigEndian nonce)
          ((2 ^ 96 + bigEndian nonce) % 64)) bs p).2 + ocb3Hash E (ocb3Schedule E) as q) := by
  obtain ⟨whole, last⟩ := split_unique bs short
  obtain ⟨whole', last'⟩ := split_unique as short'
  simp only [ocb3Encrypt, whole, last, whole', last']

section Schedules
variable (E : Equiv.Perm Block)

/-- The `log2` and the number of doublings, bumped at the index `i`. -/
def bumpCount (i : Nat) (s : Nat × Nat) : Nat × Nat := if s.1 < ntz i then (ntz i, s.2 + 1) else s

/-- The `log2` of a loop and the number of doublings before its `t`-th block. -/
def doublings (stride : Nat) : Nat → Nat × Nat → Nat → Nat × Nat
  | i, s, 0 => bumpCount i s
  | i, s, t + 1 => doublings stride (i + stride) (bumpCount i s) t

theorem bumpKeyvar_iterate (k : Block) (i log2 n : Nat) :
    bumpKeyvar i (log2, doubleBlock^[n] k) =
      ((bumpCount i (log2, n)).1, doubleBlock^[(bumpCount i (log2, n)).2] k) := by
  rw [bumpKeyvar, bumpCount]
  by_cases bump : log2 < ntz i
  · rw [if_pos bump, if_pos bump, Function.iterate_succ_apply']
  · rw [if_neg bump, if_neg bump]

theorem bumps_eq (k : Block) (stride i log2 n t : Nat) :
    (bumps stride i (log2, doubleBlock^[n] k) t).2 = doubleBlock^[(doublings stride i (log2, n) t).2] k := by
  induction t generalizing i log2 n with
  | zero => rw [bumps, bumpKeyvar_iterate, doublings]
  | succ t ih => rw [bumps, bumpKeyvar_iterate, ih, doublings]

/-- The doublings behind what the offset of the code grows by, and of the mode. -/
def codeExponent (stride t : Nat) : Nat := (doublings stride 0 (ntz 0, 0) t).2 + 2

def modeExponent (t : Nat) : Nat := padicValNat 2 (t + 1) + 2

theorem codeSchedule_eq (stride t : Nat) :
    codeSchedule E stride t = doubleBlock^[codeExponent stride t] (E 0) := by
  rw [codeSchedule, codeExponent, Function.iterate_add_apply]
  exact bumps_eq (doubleBlock (doubleBlock (E 0))) stride 0 (ntz 0) 0 t

theorem ocb3Schedule_eq (t : Nat) : ocb3Schedule E t = doubleBlock^[modeExponent t] (E 0) := by
  rw [ocb3Schedule, ocb3L, GF128.double_eq, modeExponent]

theorem ntz_le (i : Nat) : ntz i ≤ 31 := by
  have step (s : Nat × Nat) (b shift : Nat) (small : shift < 2 ^ 5) (before : s.2 < 2 ^ 5) :
      (ntzStep s b shift).2 < 2 ^ 5 := by
    rw [ntzStep]
    split
    · exact Nat.or_lt_two_pow before small
    · exact before
  apply Nat.le_of_lt_succ
  unfold ntz
  exact step _ _ _ (by decide) (step _ _ _ (by decide) (step _ _ _ (by decide)
    (step _ _ _ (by decide) (step _ _ _ (by decide) (Nat.two_pow_pos 5)))))

/-- There are no more doublings than `log2` can grow. -/
theorem bumpCount_range {s : Nat × Nat} (count : s.2 ≤ s.1) (small : s.1 ≤ 31) (i : Nat) :
    s.2 ≤ (bumpCount i s).2 ∧ (bumpCount i s).2 ≤ (bumpCount i s).1 ∧ (bumpCount i s).1 ≤ 31 := by
  have most := ntz_le i
  rw [bumpCount]
  split
  · exact ⟨Nat.le_succ _, by omega, most⟩
  · exact ⟨Nat.le_refl _, count, small⟩

theorem doublings_range {s : Nat × Nat} (count : s.2 ≤ s.1) (small : s.1 ≤ 31) (stride i t : Nat) :
    s.2 ≤ (doublings stride i s t).2 ∧ (doublings stride i s t).2 ≤ 31 := by
  induction t generalizing i s with
  | zero =>
    obtain ⟨grows, count', small'⟩ := bumpCount_range count small i
    exact ⟨grows, count'.trans small'⟩
  | succ t ih =>
    obtain ⟨grows, count', small'⟩ := bumpCount_range count small i
    obtain ⟨later, least⟩ := ih count' small' (i + stride)
    exact ⟨grows.trans later, least⟩

theorem codeExponent_le (stride t : Nat) : codeExponent stride t ≤ 33 := by
  have range := @doublings_range (ntz 0, 0) (by decide) (by decide) stride 0 t
  rw [codeExponent]
  omega

/-- The second block of the data is already at the index sixteen. -/
theorem codeExponent_data (t : Nat) : 3 ≤ codeExponent 16 (t + 1) := by
  rw [codeExponent]
  cases t with
  | zero => decide
  | succ t =>
    have range := (@doublings_range (4, 1) (by decide) (by decide) 16 32 t).1
    have same : doublings 16 0 (ntz 0, 0) (t + 1 + 1) = doublings 16 32 (4, 1) t := rfl
    rw [same]
    omega

theorem codeExponent_first (stride : Nat) : codeExponent stride 0 = 2 := rfl

theorem modeExponent_zero : modeExponent 0 = 2 := by
  rw [modeExponent, Nat.zero_add, padicValNat_one_right]

theorem modeExponent_one : modeExponent 1 = 3 := by
  rw [modeExponent, padicValNat_self]

end Schedules

section Agreement
variable {E : Equiv.Perm Block} {schedule schedule' : Nat → Block} {bs : List Block}

theorem ocb3Seal_congr (same : ∀ t < bs.length, schedule t = schedule' t) (start : Block)
    (p : List UInt8) : ocb3Seal E schedule start bs p = ocb3Seal E schedule' start bs p := by
  rw [ocb3Seal, ocb3Seal, encipher_congr same, offset_congr same]

theorem ocb3Hash_congr (same : ∀ t < bs.length, schedule t = schedule' t) (p : List UInt8) :
    ocb3Hash E schedule bs p = ocb3Hash E schedule' bs p := by
  rw [ocb3Hash, ocb3Hash, points_congr same, offset_congr same]

/-- One block of a message. -/
theorem messageSchedule_eq (E : Equiv.Perm Block) {t : Nat} (first : t < 1) :
    codeSchedule E 1 t = ocb3Schedule E t := by
  obtain rfl : t = 0 := Nat.lt_one_iff.mp first
  rw [codeSchedule_eq, ocb3Schedule_eq, codeExponent_first, modeExponent_zero]

/-- Two blocks of the data. -/
theorem dataSchedule_eq (E : Equiv.Perm Block) {t : Nat} (first : t < 2) :
    codeSchedule E 16 t = ocb3Schedule E t := by
  rw [codeSchedule_eq, ocb3Schedule_eq]
  obtain rfl | rfl : t = 0 ∨ t = 1 := by omega
  · rw [codeExponent_first, modeExponent_zero]
  · rw [modeExponent_one]
    rfl

end Agreement

end Mumble

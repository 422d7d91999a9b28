import Mumble.BufferPool
import Mumble.Lib.Reaches

/-! The pool against the buffers its callers hold, after any calls. Who holds a
buffer is written nowhere in the pool: the array is kept in such an order that its
first `in_use` entries are the buffers handed out. -/
namespace Mumble
open CExec

inductive PoolEvent where
  | acquire
  | release (buf : Nat)

/-- The pool and the buffers that were handed out and have not come back. -/
structure PoolUse where
  pool : BufferPool
  held : List Nat

def PoolUse.step (s : PoolUse) : PoolEvent → Run PoolUse
  | .acquire =>
    let (buf, pool) := bufferPoolAcquire s.pool
    .ok ⟨pool, buf.toList ++ s.held⟩
  | .release buf => do
    let pool ← bufferPoolRelease s.pool buf
    .ok ⟨pool, s.held.erase buf⟩

/-- A buffer is released by who holds it. -/
def PoolUse.Possible (s : PoolUse) : PoolEvent → Prop
  | .acquire => True
  | .release buf => buf ∈ s.held

def PoolUse.Reaches : PoolUse → List PoolEvent → PoolUse → Prop :=
  Transition.Reaches fun s event next => s.Possible event ∧ s.step event = .ok next

/-- No buffer is lost, and the position of an entry tells whether it is held. -/
structure Represents (buffers : List Nat) (s : PoolUse) : Prop where
  array : s.pool.buffers.Perm buffers
  front : (s.pool.buffers.take s.pool.inUse).Perm s.held

/-- Entries that both lie in a prefix change places inside it. -/
theorem exchange_take {buffers : List Nat} (hi : i < count) (hj : j < count)
    (inside : count ≤ buffers.length) :
    ((exchange buffers i j (hi.trans_le inside) (hj.trans_le inside)).take count).Perm
      (buffers.take count) := by
  have size : (buffers.take count).length = count := List.length_take_of_le inside
  have prefixed := exchange_perm (buffers.take count) (size.symm ▸ hi) (size.symm ▸ hj)
  rwa [exchange, List.getElem_take, List.getElem_take, ← List.take_set, ← List.take_set] at prefixed

theorem exchange_getElem {buffers : List Nat} (hi : i < buffers.length) (hj : j < buffers.length)
    (inside : j < (exchange buffers i j hi hj).length) :
    (exchange buffers i j hi hj)[j] = buffers[i] :=
  List.getElem_set_self inside

theorem idxOf_lt_of_mem_take {buffers : List Nat} (front : buf ∈ buffers.take count) :
    buffers.idxOf buf < count := by
  have whole : buffers.idxOf buf = (buffers.take count).idxOf buf := by
    rw [← List.idxOf_append_of_mem front, List.take_append_drop]
  rw [whole]
  exact (List.idxOf_lt_length_of_mem front).trans_le (List.length_take_le _ _)

section
variable {buffers : List Nat} {s t : PoolUse}

theorem Represents.held_nodup (h : Represents buffers s) : s.held.Nodup :=
  h.front.nodup_iff.mp (s.pool.distinct.sublist (List.take_sublist _ _))

theorem Represents.member (h : Represents buffers s) (held : buf ∈ s.held) : buf ∈ buffers :=
  h.array.mem_iff.mp (List.mem_of_mem_take (h.front.mem_iff.mpr held))

/-- A buffer that is free is handed out, and was held by no one. -/
theorem Represents.acquires (h : Represents buffers s) (free : s.pool.inUse < s.pool.buffers.length) :
    ∃ buf pool, bufferPoolAcquire s.pool = (some buf, pool) ∧ buf ∈ buffers ∧ buf ∉ s.held ∧
      Represents buffers ⟨pool, buf :: s.held⟩ := by
  have grown : (s.pool.buffers.take (s.pool.inUse + 1)).Perm
      (s.pool.buffers[s.pool.inUse] :: s.held) := by
    rw [← List.take_append_getElem free]
    exact (List.perm_append_singleton _ _).trans (h.front.cons _)
  have fresh := grown.nodup_iff.mp (s.pool.distinct.sublist (List.take_sublist _ _))
  exact ⟨_, _, dif_pos free, h.array.mem_iff.mp (List.getElem_mem free), (List.nodup_cons.mp fresh).1,
    h.array, grown⟩

theorem Represents.exhausted (h : Represents buffers s)
    (used : ¬ s.pool.inUse < s.pool.buffers.length) :
    bufferPoolAcquire s.pool = (none, s.pool) ∧ ∀ buf ∈ buffers, buf ∈ s.held := by
  refine ⟨dif_neg used, fun buf member => ?_⟩
  have all := List.take_of_length_le (Nat.le_of_not_lt used)
  rw [← h.front.mem_iff, all, h.array.mem_iff]
  exact member

/-- A held buffer changes places with the last one that is held. -/
theorem Represents.releases (h : Represents buffers s) (held : buf ∈ s.held) :
    ∃ pool, bufferPoolRelease s.pool buf = .ok pool ∧ Represents buffers ⟨pool, s.held.erase buf⟩ := by
  have front := h.front.mem_iff.mpr held
  have found := List.idxOf_lt_length_of_mem (List.mem_of_mem_take front)
  have place := idxOf_lt_of_mem_take front
  have used : 0 < s.pool.inUse := Nat.zero_lt_of_lt place
  have last : s.pool.inUse - 1 < s.pool.inUse := Nat.sub_lt used Nat.one_pos
  have fits := last.trans_le s.pool.fits
  refine ⟨_, (dif_pos found).trans (dif_pos used), (exchange_perm _ found fits).trans h.array, ?_⟩
  have moved := (exchange_take place last s.pool.fits).trans h.front
  have behind : (exchange s.pool.buffers _ _ found fits).take s.pool.inUse =
      (exchange s.pool.buffers _ _ found fits).take (s.pool.inUse - 1) ++ [buf] := by
    have bound : s.pool.inUse - 1 < (exchange s.pool.buffers _ _ found fits).length := by
      rw [(exchange_perm _ found fits).length_eq]
      exact fits
    have split := List.take_append_getElem bound
    rw [exchange_getElem, List.getElem_idxOf, Nat.sub_add_cancel used] at split
    exact split.symm
  rw [behind] at moved
  exact (List.cons_perm_iff_perm_erase.mp ((List.perm_append_singleton _ _).symm.trans moved)).2

/-- A pointer that is foreign to the pool is not found in its array. -/
theorem Represents.ignores (h : Represents buffers s) (foreign : buf ∉ buffers) :
    bufferPoolRelease s.pool buf = .ok s.pool := by
  have absent : ¬ s.pool.buffers.idxOf buf < s.pool.buffers.length := by
    rw [List.idxOf_lt_length_iff, h.array.mem_iff]
    exact foreign
  exact dif_neg absent

theorem Represents.step (h : Represents buffers s) {event : PoolEvent} (possible : s.Possible event) :
    ∃ next, s.step event = .ok next ∧ Represents buffers next := by
  cases event with
  | acquire =>
    by_cases free : s.pool.inUse < s.pool.buffers.length
    · obtain ⟨buf, pool, acquired, -, -, kept⟩ := h.acquires free
      exact ⟨⟨pool, buf :: s.held⟩, by rw [PoolUse.step, acquired]; rfl, kept⟩
    · exact ⟨s, by rw [PoolUse.step, (h.exhausted free).1]; rfl, h⟩
  | release buf =>
    obtain ⟨pool, released, kept⟩ := h.releases possible
    exact ⟨⟨pool, s.held.erase buf⟩, by rw [PoolUse.step, released]; rfl, kept⟩

theorem represents_init (distinct : buffers.Nodup) :
    Represents buffers ⟨bufferPoolInit buffers size distinct, []⟩ := ⟨.refl _, .nil⟩

theorem PoolUse.Reaches.represents (run : s.Reaches events t) (start : Represents buffers s) :
    Represents buffers t := by
  refine run.invariant (fun _ => Represents buffers) start ?_
  intro _ _ event _ _ taken h
  obtain ⟨next, stepped, kept⟩ := h.step taken.1
  cases stepped.symm.trans taken.2
  exact kept

end

/-- After any calls the array still has every buffer, with the held ones in front,
and the next call of either function does what its caller relies on. -/
theorem bufferPool_holds {buffers : List Nat} {s : PoolUse} (distinct : buffers.Nodup)
    (run : PoolUse.Reaches ⟨bufferPoolInit buffers size distinct, []⟩ events s) :
    s.pool.buffers.Perm buffers ∧ (s.pool.buffers.take s.pool.inUse).Perm s.held ∧ s.held.Nodup ∧
      (∀ buf, (bufferPoolAcquire s.pool).1 = some buf → buf ∈ buffers ∧ buf ∉ s.held) ∧
      ((bufferPoolAcquire s.pool).1 = none ↔ ∀ buf ∈ buffers, buf ∈ s.held) ∧
      (∀ event, s.Possible event → ∃ next, s.step event = .ok next) ∧
      ∀ buf ∉ buffers, bufferPoolRelease s.pool buf = .ok s.pool := by
  have h := run.represents (represents_init distinct)
  have enabled (event : PoolEvent) (possible : s.Possible event) : ∃ next, s.step event = .ok next := by
    obtain ⟨next, stepped, -⟩ := h.step possible
    exact ⟨next, stepped⟩
  refine ⟨h.array, h.front, h.held_nodup, ?_, ?_, enabled, fun _ => h.ignores⟩
  · intro buf acquired
    by_cases free : s.pool.inUse < s.pool.buffers.length
    · obtain ⟨next, _, handed, member, fresh, -⟩ := h.acquires free
      rw [handed] at acquired
      cases acquired
      exact ⟨member, fresh⟩
    · rw [(h.exhausted free).1] at acquired
      cases acquired
  · by_cases free : s.pool.inUse < s.pool.buffers.length
    · obtain ⟨next, _, handed, member, fresh, -⟩ := h.acquires free
      rw [handed]
      exact ⟨nofun, fun all => absurd (all next member) fresh⟩
    · rw [(h.exhausted free).1]
      exact ⟨fun _ => (h.exhausted free).2, fun _ => rfl⟩

theorem sampleBuffers_distinct : [100, 200].Nodup := by decide

/-- Two buffers were acquired, and the first one of them has come back. -/
def sampleUse : PoolUse where
  pool := { buffers := [200, 100], inUse := 1, size := 16
            distinct := (List.Perm.swap 200 100 []).nodup_iff.mp sampleBuffers_distinct
            fits := Nat.le_of_ble_eq_true rfl }
  held := [200]

theorem sampleUse_reached : PoolUse.Reaches ⟨bufferPoolInit [100, 200] 16 sampleBuffers_distinct, []⟩
    [.acquire, .acquire, .release 100] sampleUse :=
  .next (.next (.next .refl ⟨trivial, rfl⟩) ⟨trivial, rfl⟩) ⟨List.mem_of_elem_eq_true rfl, rfl⟩

theorem bufferPool_holds_after_return :
    sampleUse.pool.buffers.Perm [100, 200] ∧
      (sampleUse.pool.buffers.take sampleUse.pool.inUse).Perm sampleUse.held ∧ sampleUse.held.Nodup ∧
      (∀ buf, (bufferPoolAcquire sampleUse.pool).1 = some buf → buf ∈ [100, 200] ∧ buf ∉ sampleUse.held) ∧
      ((bufferPoolAcquire sampleUse.pool).1 = none ↔ ∀ buf ∈ [100, 200], buf ∈ sampleUse.held) ∧
      (∀ event, sampleUse.Possible event → ∃ next, sampleUse.step event = .ok next) ∧
      ∀ buf ∉ [100, 200], bufferPoolRelease sampleUse.pool buf = .ok sampleUse.pool :=
  bufferPool_holds sampleBuffers_distinct sampleUse_reached

end Mumble

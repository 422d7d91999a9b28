import Mumble.Lib.Run
import Mathlib

/-! The pool of `buffer_pool.c`. A buffer is known by its address; the contents
of buffers belong to whoever holds them. -/
namespace Mumble
open CExec

/-- The addresses are those of separate allocations. The first `inUse` entries
are the buffers handed out, and `buffer_count` is the length of the array. -/
structure BufferPool where
  buffers : List Nat
  inUse : Nat
  size : Nat
  distinct : buffers.Nodup
  fits : inUse ≤ buffers.length
  deriving DecidableEq

def bufferPoolInit (buffers : List Nat) (bufferSize : Nat) (distinct : buffers.Nodup) : BufferPool :=
  { buffers, inUse := 0, size := bufferSize, distinct, fits := Nat.zero_le _ }

/-- The buffer, or `none` for the null pointer. -/
def bufferPoolAcquire (pool : BufferPool) : Option Nat × BufferPool :=
  if free : pool.inUse < pool.buffers.length then
    (some (pool.buffers[pool.inUse]), { pool with inUse := pool.inUse + 1, fits := free })
  else (none, pool)

/-- Two entries change places. -/
def exchange (buffers : List Nat) (i j : Nat) (hi : i < buffers.length) (hj : j < buffers.length) :
    List Nat :=
  (buffers.set i buffers[j]).set j buffers[i]

theorem exchange_perm (buffers : List Nat) (hi : i < buffers.length) (hj : j < buffers.length) :
    (exchange buffers i j hi hj).Perm buffers := by
  have swapped := @Array.swap_perm _ buffers.toArray i j hi hj
  simpa [exchange, Array.perm_iff_toList_perm, Array.swap] using swapped

/-- The loop stops at the first entry that is `buf`. A buffer that is not in the
pool changes nothing. -/
def bufferPoolRelease (pool : BufferPool) (buf : Nat) : Run BufferPool :=
  if found : pool.buffers.idxOf buf < pool.buffers.length then
    if held : 0 < pool.inUse then
      have last : pool.inUse - 1 < pool.buffers.length := by have := pool.fits; omega
      have perm := exchange_perm pool.buffers found last
      .ok { buffers := exchange pool.buffers (pool.buffers.idxOf buf) (pool.inUse - 1) found last
            inUse := pool.inUse - 1
            size := pool.size
            distinct := perm.nodup_iff.mpr pool.distinct
            fits := by rw [perm.length_eq]; exact last.le }
    else .error .assertion
  else .ok pool

theorem exchange_self (buffers : List Nat) (hi : i < buffers.length) :
    exchange buffers i i hi hi = buffers := by
  simp [exchange]

/-- A buffer that goes back at once leaves the pool as it was. -/
theorem bufferPoolRelease_acquire {pool after : BufferPool} {buf : Nat}
    (acquired : bufferPoolAcquire pool = (some buf, after)) : bufferPoolRelease after buf = .ok pool := by
  unfold bufferPoolAcquire at acquired
  split at acquired
  next free =>
    simp only [Prod.mk.injEq, Option.some.injEq] at acquired
    obtain ⟨rfl, rfl⟩ := acquired
    have place := pool.distinct.idxOf_getElem pool.inUse free
    simp [bufferPoolRelease, place, exchange_self, free]
  next none => simp at acquired

/-- A pool may be exhausted, and has buffers of one size. -/
theorem bufferPoolAcquire_cases (pool : BufferPool) : bufferPoolAcquire pool = (none, pool) ∨
    ∃ base held, bufferPoolAcquire pool = (some base, held) ∧ held.size = pool.size := by
  unfold bufferPoolAcquire
  split
  · exact .inr ⟨_, _, rfl, rfl⟩
  · exact .inl rfl

/-- A free buffer is taken, and can be given back to the pool it leaves. -/
theorem bufferPoolAcquire_free {pool : BufferPool} (free : pool.inUse < pool.buffers.length) :
    ∃ base held, bufferPoolAcquire pool = (some base, held) ∧ held.size = pool.size ∧
      held.inUse = pool.inUse + 1 ∧ held.buffers.length = pool.buffers.length ∧
      bufferPoolRelease held base = .ok pool := by
  have acquired : bufferPoolAcquire pool = _ := dif_pos free
  exact ⟨_, _, acquired, rfl, rfl, rfl, bufferPoolRelease_acquire acquired⟩

end Mumble

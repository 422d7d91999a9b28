import Mumble.Buffer

/-! The end of a stream: a write with the end bit, and a flush. Bytes that do not
fill a block are padded to one, which is never handed to the callback. -/
namespace Mumble
open CExec Chunking

/-- What the callback is called with. -/
structure EmittedBlock where
  buf : List UInt8
  size : Nat
  final : Bool
  deriving DecidableEq

/-- A callback that keeps a log. -/
def emit (log : List EmittedBlock) (buf : List UInt8) (size : Nat) (final : Bool) : Run (List EmittedBlock) :=
  .ok (log ++ [⟨buf, size, final⟩])

/-- Up to the next whole block, or nothing behind the last one. -/
def zeroPadded (width : Nat) (bytes : List UInt8) : List UInt8 :=
  bytes ++ List.replicate ((width - bytes.length % width) % width) 0

/-- The stream in blocks, of which the last one is padded and final. -/
def finalBlocks (width : Nat) (bytes : List UInt8) : List EmittedBlock :=
  (lastMarked true (chunks width (zeroPadded width bytes))).map fun block => ⟨block.1, width, block.2⟩

/-- At some depth of the nested calls the call returns. It has emitted the stream
with its end, and leaves an empty buffer. -/
def EndsStream (width : Nat) (bytes : List UInt8)
    (call : Nat → Run (MumbleBuffer × List EmittedBlock)) : Prop :=
  ∃ depth buffer, call depth = .ok (buffer, finalBlocks width bytes) ∧ buffer.buf = []

section
variable {σ : Type} {cb : σ → List UInt8 → Nat → Bool → Run σ} {buffer : MumbleBuffer}

theorem zeroPadded_whole {width : Nat} {bytes : List UInt8} (whole : width ∣ bytes.length) :
    zeroPadded width bytes = bytes := by
  rw [zeroPadded, Nat.mod_eq_zero_of_dvd whole, Nat.sub_zero, Nat.mod_self, List.replicate_zero,
    List.append_nil]

theorem leftover_eq_nil_iff {width : Nat} {bytes : List UInt8} :
    leftover width bytes = [] ↔ width ∣ bytes.length := by
  rw [← List.length_eq_zero_iff, leftover_length, Nat.dvd_iff_mod_eq_zero]

theorem emit_blocks (width : Nat) (log : List EmittedBlock) (blocks : List (List UInt8 × Bool)) :
    blocks.foldlM (blockCall emit width) log =
      .ok (log ++ blocks.map fun block => ⟨block.1, width, block.2⟩) := by
  induction blocks generalizing log with
  | nil => exact congrArg _ (List.append_nil log).symm
  | cons block blocks ih =>
    rw [List.foldlM_cons, blockCall, emit, ok_bind, ih, List.append_assoc]
    rfl

/-- A write with the end bit of some bytes, into a buffer with any bytes in use. What
is left over is flushed without end. -/
theorem writeRec_final (positive : 0 < buffer.bufAllocated) {data : List UInt8} (some : data ≠ [])
    (depth : Nat) :
    ∃ buffer', buffer'.buf = leftover buffer.bufAllocated (buffer.buf ++ data) ∧
      ∀ state, mumbleBufferWriteRec cb (depth + 1) buffer state data data.length true =
        (lastMarked (leftover buffer.bufAllocated (buffer.buf ++ data)).isEmpty
          (chunks buffer.bufAllocated (buffer.buf ++ data))).foldlM
          (blockCall cb buffer.bufAllocated) state >>= fun state =>
            if leftover buffer.bufAllocated (buffer.buf ++ data) = [] then .ok (buffer', state)
            else .error .endless := by
  have loop : ∃ buffer', buffer'.buf = leftover buffer.bufAllocated (buffer.buf ++ data) ∧
      buffer'.bufAllocated = buffer.bufAllocated ∧
      ∀ state, writeLoop cb true (data.length + 2) buffer state (data ++ []) data.length =
        (lastMarked (true && (leftover buffer.bufAllocated (buffer.buf ++ data)).isEmpty)
          (chunks buffer.bufAllocated (buffer.buf ++ data))).foldlM
          (blockCall cb buffer.bufAllocated) state >>= fun state => .ok (buffer', state) := by
    rcases Nat.lt_or_eq_of_le buffer.fits with room | full
    · exact writeLoop_blocks true room data [] _ (Nat.lt_add_of_pos_right Nat.two_pos)
    · exact writeLoop_blocks_full true positive full some [] _ (Nat.lt_succ_self _)
  obtain ⟨buffer', bytes, size, written⟩ := loop
  refine ⟨buffer', bytes, fun state => ?_⟩
  have written := written state
  rw [List.append_nil, Bool.true_and] at written
  rw [mumbleBufferWriteRec, written, bind_assoc]
  refine congrArg _ (funext fun state => ?_)
  rw [ok_bind]
  dsimp only
  rw [bytes]
  by_cases none : leftover buffer.bufAllocated (buffer.buf ++ data) = []
  · rw [if_pos none, none]
    rfl
  · have left : (true && decide (0 < (leftover buffer.bufAllocated (buffer.buf ++ data)).length)) = true := by
      rw [Bool.true_and, decide_eq_true_iff]
      exact List.length_pos_iff.mpr none
    rw [if_neg none, if_pos left]
    exact flush_endless (by rw [size]; exact positive) depth state

theorem mumbleBufferFlush_endless (positive : 0 < buffer.bufAllocated) (state : σ) :
    mumbleBufferFlush cb buffer state = .error .endless :=
  flush_endless positive 2 state

/-- With nothing to write, a buffer with bytes in use is flushed. -/
theorem writeRec_final_nil (positive : 0 < buffer.bufAllocated) (pending : buffer.buf ≠ []) (depth : Nat)
    (state : σ) : mumbleBufferWriteRec cb depth buffer state [] 0 true = .error .endless := by
  cases depth with
  | zero => rfl
  | succ depth =>
    have left : (true && decide (0 < buffer.buf.length)) = true := by
      rw [Bool.true_and, decide_eq_true_iff]
      exact List.length_pos_iff.mpr pending
    rw [mumbleBufferWriteRec, writeLoop_done, ok_bind]
    dsimp only
    rw [if_pos left]
    exact flush_endless positive depth state

end

/-- A write with the end bit ends the stream if and only if it writes something and
fills the last block with it. A flush never ends it. -/
theorem final_write_iff (buffer : MumbleBuffer) (allocated : 0 < buffer.bufAllocated) (data : List UInt8)
    (positive : 0 < buffer.buf.length + data.length) :
    (EndsStream buffer.bufAllocated (buffer.buf ++ data)
        (fun depth => mumbleBufferWriteRec emit depth buffer [] data data.length true) ↔
      data ≠ [] ∧ buffer.bufAllocated ∣ buffer.buf.length + data.length) ∧
      ¬ EndsStream buffer.bufAllocated buffer.buf
        (fun depth => mumbleBufferWriteRec emit depth buffer.zeroed [] [] 0 true) := by
  refine ⟨?_, ?_⟩
  · rw [← List.length_append, ← leftover_eq_nil_iff]
    by_cases some : data = []
    · subst some
      have pending : buffer.buf ≠ [] := List.length_pos_iff.mp positive
      refine ⟨?_, fun both => absurd rfl both.1⟩
      rintro ⟨depth, buffer', run, -⟩
      cases (writeRec_final_nil allocated pending depth []).symm.trans run
    constructor
    · rintro ⟨depth, buffer', run, -⟩
      refine ⟨some, ?_⟩
      by_contra left
      cases depth with
      | zero => cases run
      | succ depth =>
        obtain ⟨buffer'', -, written⟩ := @writeRec_final _ emit buffer allocated data some depth
        dsimp only at run
        rw [written, emit_blocks, ok_bind, if_neg left] at run
        cases run
    · rintro ⟨-, none⟩
      obtain ⟨buffer', bytes, written⟩ := @writeRec_final _ emit buffer allocated data some 0
      refine ⟨1, buffer', ?_, bytes.trans none⟩
      dsimp only
      rw [written, emit_blocks, ok_bind, if_pos none, none, List.nil_append, finalBlocks,
        zeroPadded_whole (leftover_eq_nil_iff.mp none)]
      rfl
  · rintro ⟨depth, buffer', run, -⟩
    cases (flush_endless allocated depth []).symm.trans run

/-- Two bytes of four in use. -/
def halfFull : MumbleBuffer := ⟨[1, 2], 4, Nat.le_of_ble_eq_true rfl⟩

theorem final_write_sample :
    (EndsStream 4 ([1, 2] ++ [3, 4])
        (fun depth => mumbleBufferWriteRec emit depth halfFull [] [3, 4] 2 true) ↔
      [(3 : UInt8), 4] ≠ [] ∧ 4 ∣ halfFull.buf.length + [(3 : UInt8), 4].length) ∧
      ¬ EndsStream 4 [1, 2] (fun depth => mumbleBufferWriteRec emit depth halfFull.zeroed [] [] 0 true) :=
  final_write_iff halfFull (Nat.succ_pos 3) [3, 4] (Nat.le_of_ble_eq_true rfl)

/-- A byte short of a block, written as the last one: the call does not return. -/
theorem final_write_endless :
    (∀ depth, mumbleBufferWriteRec emit depth halfFull [] [3] 1 true = .error .endless) ∧
      ¬ EndsStream 4 ([1, 2] ++ [3])
        (fun depth => mumbleBufferWriteRec emit depth halfFull [] [3] 1 true) := by
  have endless (depth : Nat) : mumbleBufferWriteRec emit depth halfFull [] [3] 1 true = .error .endless := by
    cases depth with
    | zero => rfl
    | succ depth =>
      obtain ⟨buffer', -, written⟩ :=
        @writeRec_final _ emit halfFull (Nat.succ_pos 3) [3] (List.cons_ne_nil _ _) depth
      exact (written []).trans rfl
  refine ⟨endless, ?_⟩
  rintro ⟨depth, buffer', run, -⟩
  cases (endless depth).symm.trans run

end Mumble

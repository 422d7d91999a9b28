import Mumble.Lib.Chunking
import Mumble.Lib.Run

/-! The buffer of `buffer.c`, which hands its callback whole blocks of the bytes
written to it. -/
namespace Mumble
open CExec Chunking

/-- `buf` is the first `buf_used` bytes of the allocation. -/
structure MumbleBuffer where
  buf : List UInt8
  bufAllocated : Nat
  fits : buf.length ≤ bufAllocated

def mumbleBufferCreate (size : Nat) : MumbleBuffer := ⟨[], size, Nat.zero_le _⟩

/-- `memcpy` behind the bytes in use. -/
def MumbleBuffer.copy (buffer : MumbleBuffer) (data : List UInt8) : Run MumbleBuffer :=
  if fits : (buffer.buf ++ data).length ≤ buffer.bufAllocated then
    .ok { buffer with buf := buffer.buf ++ data, fits }
  else .error .outOfBounds

def MumbleBuffer.empty (buffer : MumbleBuffer) : MumbleBuffer :=
  { buffer with buf := [], fits := Nat.zero_le _ }

/-- `memset` of all that is not in use, which is in use then. -/
def MumbleBuffer.zeroed (buffer : MumbleBuffer) : MumbleBuffer :=
  { buffer with
    buf := buffer.buf ++ List.replicate (buffer.bufAllocated - buffer.buf.length) 0
    fits := by
      rw [List.length_append, List.length_replicate, Nat.add_sub_cancel' buffer.fits] }

section
variable {σ : Type} (cb : σ → List UInt8 → Nat → Bool → Run σ)

/-- `left` is `end_ptr - incoming_ptr`, and `final` the argument `end`. A round copies
at least a byte, unless the buffer is full at the start or the allocation is empty. -/
def writeLoop (final : Bool) : Nat → MumbleBuffer → σ → List UInt8 → Nat → Run (MumbleBuffer × σ)
  | 0, _, _, _, _ => .error .endless
  | rounds + 1, buffer, state, incoming, left =>
    if 0 < left then do
      let amountToCopy := min left (buffer.bufAllocated - buffer.buf.length)
      let data ← slice incoming amountToCopy
      let buffer ← buffer.copy data
      let incoming := incoming.drop amountToCopy
      let left := left - amountToCopy
      if buffer.buf.length = buffer.bufAllocated then do
        let finalWrite := final && left = 0
        let state ← cb state buffer.buf buffer.buf.length finalWrite
        writeLoop final rounds buffer.empty state incoming left
      else writeLoop final rounds buffer state incoming left
    else .ok (buffer, state)

/-- `depth` bounds the nested calls by way of `mumble_buffer_flush`. -/
def mumbleBufferWriteRec : Nat → MumbleBuffer → σ → List UInt8 → Nat → Bool → Run (MumbleBuffer × σ)
  | 0, _, _, _, _, _ => .error .endless
  | depth + 1, buffer, state, buf, size, final => do
    let (buffer, state) ← writeLoop cb final (size + 2) buffer state buf size
    if final && 0 < buffer.buf.length then
      mumbleBufferWriteRec depth buffer.zeroed state [] 0 true
    else .ok (buffer, state)

/-- A flush within a flush finds the buffer as the first one has left it. -/
def mumbleBufferWrite (buffer : MumbleBuffer) (state : σ) (buf : List UInt8) (size : Nat)
    (final : Bool) : Run (MumbleBuffer × σ) :=
  mumbleBufferWriteRec cb 2 buffer state buf size final

def mumbleBufferFlush (buffer : MumbleBuffer) (state : σ) : Run (MumbleBuffer × σ) :=
  mumbleBufferWrite cb buffer.zeroed state [] 0 true

end

section Spec
variable {σ : Type} {cb : σ → List UInt8 → Nat → Bool → Run σ} {buffer : MumbleBuffer}

theorem copy_bytes {data : List UInt8} (fits : (buffer.buf ++ data).length ≤ buffer.bufAllocated) :
    ∃ buffer', buffer.copy data = .ok buffer' ∧ buffer'.buf = buffer.buf ++ data ∧
      buffer'.bufAllocated = buffer.bufAllocated :=
  ⟨{ buffer with buf := buffer.buf ++ data, fits }, dif_pos fits, rfl, rfl⟩

theorem writeLoop_done (final : Bool) (rounds : Nat) (state : σ) (incoming : List UInt8) :
    writeLoop cb final (rounds + 1) buffer state incoming 0 = .ok (buffer, state) := rfl

/-- The last bytes do not fill the buffer. -/
theorem writeLoop_short (final : Bool) (rounds : Nat) {data : List UInt8} (tail : List UInt8)
    (some : 0 < data.length) (short : (buffer.buf ++ data).length < buffer.bufAllocated) :
    ∃ buffer', buffer'.buf = buffer.buf ++ data ∧ buffer'.bufAllocated = buffer.bufAllocated ∧
      ∀ state, writeLoop cb final (rounds + 2) buffer state (data ++ tail) data.length =
        .ok (buffer', state) := by
  obtain ⟨buffer', copied, bytes, size⟩ := copy_bytes (Nat.le_of_lt short)
  refine ⟨buffer', bytes, size, fun state => ?_⟩
  have all : min data.length (buffer.bufAllocated - buffer.buf.length) = data.length := by
    rw [List.length_append] at short
    omega
  have space : ¬ buffer'.buf.length = buffer'.bufAllocated := by
    rw [bytes, size]
    exact Nat.ne_of_lt short
  rw [writeLoop, if_pos some]
  dsimp only
  rw [all, slice_length_append, ok_bind, copied, ok_bind, if_neg space, Nat.sub_self, writeLoop_done]

/-- The bytes at the front fill the buffer, which is emptied by the callback. -/
theorem writeLoop_full (final : Bool) (rounds : Nat) (state : σ) {data : List UInt8} (tail : List UInt8)
    (left : Nat) (some : 0 < data.length + left)
    (full : (buffer.buf ++ data).length = buffer.bufAllocated) :
    writeLoop cb final (rounds + 1) buffer state (data ++ tail) (data.length + left) =
      cb state (buffer.buf ++ data) buffer.bufAllocated (final && left = 0) >>= fun state =>
        writeLoop cb final rounds buffer.empty state tail left := by
  obtain ⟨buffer', copied, bytes, size⟩ := copy_bytes (Nat.le_of_eq full)
  have front : min (data.length + left) (buffer.bufAllocated - buffer.buf.length) = data.length := by
    rw [List.length_append] at full
    omega
  have no_space : buffer'.buf.length = buffer'.bufAllocated := by rw [bytes, size, full]
  have emptied : buffer'.empty = buffer.empty := by
    simp only [MumbleBuffer.empty, size]
  rw [writeLoop, if_pos some]
  dsimp only
  rw [front, slice_length_append, ok_bind, copied, ok_bind, if_pos no_space, emptied, bytes, full,
    Nat.add_sub_cancel_left, List.drop_left]

/-- The callback with a block and its mark. -/
def blockCall (cb : σ → List UInt8 → Nat → Bool → Run σ) (width : Nat) (state : σ)
    (block : List UInt8 × Bool) : Run σ :=
  cb state block.1 width block.2

/-- The bytes behind those in use are cut into blocks, and the callback gets one
after the other. The last one is final if nothing is left over. -/
theorem writeLoop_blocks (final : Bool) (room : buffer.buf.length < buffer.bufAllocated)
    (data tail : List UInt8) (rounds : Nat) (enough : data.length < rounds) :
    ∃ buffer', buffer'.buf = leftover buffer.bufAllocated (buffer.buf ++ data) ∧
      buffer'.bufAllocated = buffer.bufAllocated ∧
      ∀ state, writeLoop cb final rounds buffer state (data ++ tail) data.length =
        (lastMarked (final && (leftover buffer.bufAllocated (buffer.buf ++ data)).isEmpty)
          (chunks buffer.bufAllocated (buffer.buf ++ data))).foldlM
          (blockCall cb buffer.bufAllocated) state >>= fun state => .ok (buffer', state) := by
  induction rounds generalizing buffer data with
  | zero => exact absurd enough (Nat.not_lt_zero _)
  | succ rounds ih =>
    cases data with
    | nil =>
      refine ⟨buffer, ?_, rfl, fun state => ?_⟩
      · rw [List.append_nil, leftover_short room]
      · rw [List.append_nil, chunks_short room, List.length_nil, writeLoop_done]
        rfl
    | cons b data =>
      by_cases short : (buffer.buf ++ b :: data).length < buffer.bufAllocated
      · obtain ⟨more, rfl⟩ : ∃ more, rounds = more + 1 :=
          ⟨rounds - 1, by rw [List.length_cons] at enough; omega⟩
        have some : 0 < (b :: data).length := Nat.zero_lt_succ data.length
        obtain ⟨buffer', bytes, size, written⟩ := writeLoop_short final more tail some short
        refine ⟨buffer', ?_, size, fun state => ?_⟩
        · rw [bytes, leftover_short short]
        · rw [written, chunks_short short]
          rfl
      · have space := Nat.le_of_not_lt short
        obtain ⟨front, rest, cut, fills⟩ :
            ∃ front rest, b :: data = front ++ rest ∧
              (buffer.buf ++ front).length = buffer.bufAllocated := by
          refine ⟨_, _, (List.take_append_drop (buffer.bufAllocated - buffer.buf.length) _).symm, ?_⟩
          rw [List.length_append] at space
          rw [List.length_append, List.length_take]
          omega
        have some : 0 < front.length := by
          rw [List.length_append] at fills
          omega
        have positive : 0 < buffer.bufAllocated := Nat.lt_of_le_of_lt (Nat.zero_le _) room
        rw [cut] at enough ⊢
        rw [List.length_append] at enough
        obtain ⟨buffer', bytes, size, written⟩ := @ih buffer.empty positive rest (by omega)
        refine ⟨buffer', ?_, size, fun state => ?_⟩
        · rw [← List.append_assoc, leftover_chunk positive fills]
          exact bytes
        · rw [← List.append_assoc, chunks_block positive fills, leftover_chunk positive fills,
            lastMarked_block positive, List.foldlM_cons, List.append_assoc, List.length_append,
            writeLoop_full final rounds state _ _ (Nat.add_pos_left some _) fills, bind_assoc]
          exact congrArg _ (funext fun state => written state)

/-- A buffer that is full at the start is emptied by the first round. -/
theorem writeLoop_blocks_full (final : Bool) (positive : 0 < buffer.bufAllocated)
    (full : buffer.buf.length = buffer.bufAllocated) {data : List UInt8} (some : data ≠ [])
    (tail : List UInt8) (rounds : Nat) (enough : data.length < rounds) :
    ∃ buffer', buffer'.buf = leftover buffer.bufAllocated (buffer.buf ++ data) ∧
      buffer'.bufAllocated = buffer.bufAllocated ∧
      ∀ state, writeLoop cb final (rounds + 1) buffer state (data ++ tail) data.length =
        (lastMarked (final && (leftover buffer.bufAllocated (buffer.buf ++ data)).isEmpty)
          (chunks buffer.bufAllocated (buffer.buf ++ data))).foldlM
          (blockCall cb buffer.bufAllocated) state >>= fun state => .ok (buffer', state) := by
  obtain ⟨buffer', bytes, size, written⟩ :=
    @writeLoop_blocks σ cb buffer.empty final positive data tail rounds enough
  refine ⟨buffer', ?_, size, fun state => ?_⟩
  · rw [leftover_chunk positive full]
    exact bytes
  · have nothing : (buffer.buf ++ []).length = buffer.bufAllocated := by rw [List.append_nil, full]
    have first := @writeLoop_full σ cb buffer final rounds state [] (data ++ tail) data.length
      (by rw [List.length_nil, Nat.zero_add]; exact List.length_pos_iff.mpr some) nothing
    rw [List.nil_append, List.length_nil, Nat.zero_add, List.append_nil] at first
    rw [chunks_block positive full, leftover_chunk positive full, lastMarked_block positive,
      List.foldlM_cons, first, bind_assoc]
    exact congrArg _ (funext fun state => written state)

/-- A write without the end bit. -/
theorem mumbleBufferWrite_chunks (room : buffer.buf.length < buffer.bufAllocated)
    (data tail : List UInt8) :
    ∃ buffer', buffer'.buf = leftover buffer.bufAllocated (buffer.buf ++ data) ∧
      buffer'.bufAllocated = buffer.bufAllocated ∧
      ∀ state, mumbleBufferWrite cb buffer state (data ++ tail) data.length false =
        (chunks buffer.bufAllocated (buffer.buf ++ data)).foldlM
          (fun state block => cb state block buffer.bufAllocated false) state >>=
          fun state => .ok (buffer', state) := by
  obtain ⟨buffer', bytes, size, written⟩ :=
    writeLoop_blocks false room data tail (data.length + 2) (Nat.lt_add_of_pos_right Nat.two_pos)
  refine ⟨buffer', bytes, size, fun state => ?_⟩
  rw [mumbleBufferWrite, mumbleBufferWriteRec, written state, Bool.false_and, lastMarked_false,
    List.foldlM_map, bind_assoc]
  rfl

/-- A flush calls itself again and again, however deep the calls may nest. -/
theorem flush_endless (some : 0 < buffer.bufAllocated) (depth : Nat) (state : σ) :
    mumbleBufferWriteRec cb depth buffer.zeroed state [] 0 true = .error .endless := by
  have size : buffer.zeroed.buf.length = buffer.bufAllocated := by
    simp only [MumbleBuffer.zeroed, List.length_append, List.length_replicate]
    exact Nat.add_sub_cancel' buffer.fits
  have again : buffer.zeroed.zeroed = buffer.zeroed := by
    simp only [MumbleBuffer.zeroed] at size ⊢
    simp only [size, Nat.sub_self, List.replicate_zero, List.append_nil]
  induction depth with
  | zero => rfl
  | succ depth ih =>
    rw [mumbleBufferWriteRec, writeLoop_done, ok_bind]
    dsimp only
    rw [if_pos (by rw [size]; simpa using some), again, ih]

/-- A write that returns has emitted all blocks, and has not flushed. -/
theorem mumbleBufferWrite_eq_ok {data : List UInt8} {final : Bool} {state state' : σ} {after : MumbleBuffer}
    (room : buffer.buf.length < buffer.bufAllocated)
    (run : mumbleBufferWrite cb buffer state data data.length final = .ok (after, state')) :
    after.buf = leftover buffer.bufAllocated (buffer.buf ++ data) ∧
      after.bufAllocated = buffer.bufAllocated ∧
      ∃ mark, (lastMarked mark (chunks buffer.bufAllocated (buffer.buf ++ data))).foldlM
        (blockCall cb buffer.bufAllocated) state = .ok state' := by
  obtain ⟨buffer', bytes, size, written⟩ := @writeLoop_blocks _ cb buffer final room data []
    (data.length + 2) (Nat.lt_add_of_pos_right Nat.two_pos)
  rw [List.append_nil] at written
  rw [mumbleBufferWrite, mumbleBufferWriteRec, written, bind_assoc] at run
  obtain ⟨state'', emitted, run⟩ := bind_eq_ok.mp run
  rw [ok_bind] at run
  dsimp only at run
  split at run
  · rw [flush_endless (by rw [size]; exact Nat.lt_of_le_of_lt (Nat.zero_le _) room)] at run
    cases run
  · cases run
    exact ⟨bytes, size, _, emitted⟩

end Spec

end Mumble

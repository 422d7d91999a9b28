import Mumble.BufferEnd

/-! The stream law of `buffer.c`. Over any writes without the end bit the callback
gets the blocks of all that was written, and what is left over waits in the buffer:
how the stream was cut into writes does not show. -/
namespace Mumble
open CExec Chunking

section
variable {σ : Type} (cb : σ → List UInt8 → Nat → Bool → Run σ)

/-- Writes of whole arrays without the end bit, one after the other. -/
def writeAll (buffer : MumbleBuffer) (state : σ) (writes : List (List UInt8)) : Run (MumbleBuffer × σ) :=
  writes.foldlM (fun s data => mumbleBufferWrite cb s.1 s.2 data data.length false) (buffer, state)

variable {cb} {buffer : MumbleBuffer}

/-- Each write goes on behind the leftover of the ones before, for any callback. -/
theorem writeAll_chunks (room : buffer.buf.length < buffer.bufAllocated) (writes : List (List UInt8)) :
    ∃ buffer', buffer'.buf = leftover buffer.bufAllocated (buffer.buf ++ writes.flatten) ∧
      buffer'.bufAllocated = buffer.bufAllocated ∧
      ∀ state, writeAll cb buffer state writes =
        (chunks buffer.bufAllocated (buffer.buf ++ writes.flatten)).foldlM
          (fun state block => cb state block buffer.bufAllocated false) state >>=
          fun state => .ok (buffer', state) := by
  induction writes generalizing buffer with
  | nil =>
    refine ⟨buffer, ?_, rfl, fun state => ?_⟩
    · rw [List.flatten_nil, List.append_nil, leftover_short room]
    · rw [List.flatten_nil, List.append_nil, chunks_short room]
      rfl
  | cons data writes ih =>
    have positive : 0 < buffer.bufAllocated := Nat.zero_lt_of_lt room
    obtain ⟨first, bytes, size, written⟩ := @mumbleBufferWrite_chunks σ cb buffer room data []
    have room' : first.buf.length < first.bufAllocated := by
      rw [bytes, size, leftover_length]
      exact Nat.mod_lt _ positive
    obtain ⟨last, bytes', size', rest⟩ := ih room'
    rw [bytes, size] at bytes' rest
    refine ⟨last, ?_, size'.trans size, fun state => ?_⟩
    · rw [bytes', List.flatten_cons, ← List.append_assoc, leftover_append positive (buffer.buf ++ data)]
    · rw [List.append_nil] at written
      rw [writeAll, List.foldlM_cons, written, bind_assoc, List.flatten_cons, ← List.append_assoc,
        chunks_append positive (buffer.buf ++ data), List.foldlM_append, bind_assoc]
      refine congrArg _ (funext fun state => ?_)
      rw [ok_bind]
      exact rest state

end

theorem emit_chunks (width : Nat) (blocks : List (List UInt8)) (log : List EmittedBlock) :
    blocks.foldlM (fun log block => emit log block width false) log =
      .ok (log ++ blocks.map fun block => ⟨block, width, false⟩) := by
  have marked := emit_blocks width log (blocks.map fun block => (block, false))
  rwa [List.foldlM_map, List.map_map] at marked

/-- What a new buffer holds and what its callback got is a function of the stream. -/
theorem writeAll_emit (positive : 0 < size) (writes : List (List UInt8)) :
    ∃ fits, writeAll emit (mumbleBufferCreate size) [] writes =
      .ok (⟨leftover size writes.flatten, size, fits⟩,
        (chunks size writes.flatten).map fun block => ⟨block, size, false⟩) := by
  obtain ⟨⟨_, allocated, fits⟩, bytes, same, written⟩ :=
    @writeAll_chunks _ emit (mumbleBufferCreate size) positive writes
  cases bytes
  have whole : allocated = size := same
  subst whole
  refine ⟨fits, ?_⟩
  rw [written, emit_chunks, ok_bind]
  rfl

/-- The calls return whatever their sizes, and so do the calls up to any of them. -/
theorem mumbleBuffer_stream (positive : 0 < size) (writes : List (List UInt8)) :
    ∃ buffer frames, writeAll emit (mumbleBufferCreate size) [] writes = .ok (buffer, frames) ∧
      (frames.map EmittedBlock.buf).flatten ++ buffer.buf = writes.flatten ∧
      (∀ frame ∈ frames, frame.buf.length = size ∧ frame.size = size ∧ frame.final = false) ∧
      buffer.buf.length < size ∧
      ∀ others : List (List UInt8), others.flatten = writes.flatten →
        writeAll emit (mumbleBufferCreate size) [] others = .ok (buffer, frames) := by
  obtain ⟨fits, written⟩ := writeAll_emit positive writes
  refine ⟨_, _, written, ?_, ?_, ?_, ?_⟩
  · rw [List.map_map]
    exact (congrArg (·.flatten ++ _) (List.map_id _)).trans (chunks_flatten positive writes.flatten)
  · intro frame member
    obtain ⟨block, inside, rfl⟩ := List.mem_map.mp member
    exact ⟨length_of_mem_chunks inside, rfl, rfl⟩
  · exact (leftover_length _).trans_lt (Nat.mod_lt _ positive)
  · intro others same
    obtain ⟨_, written'⟩ := writeAll_emit positive others
    rw [written']
    simp only [same]

theorem mumbleBuffer_stream_of_4 :
    ∃ buffer frames, writeAll emit (mumbleBufferCreate 4) [] [[1], [2, 3, 4, 5, 6, 7, 8, 9], []] =
        .ok (buffer, frames) ∧
      (frames.map EmittedBlock.buf).flatten ++ buffer.buf = [[1], [2, 3, 4, 5, 6, 7, 8, 9], []].flatten ∧
      (∀ frame ∈ frames, frame.buf.length = 4 ∧ frame.size = 4 ∧ frame.final = false) ∧
      buffer.buf.length < 4 ∧
      ∀ others : List (List UInt8), others.flatten = [[1], [2, 3, 4, 5, 6, 7, 8, 9], []].flatten →
        writeAll emit (mumbleBufferCreate 4) [] others = .ok (buffer, frames) :=
  mumbleBuffer_stream (Nat.succ_pos 3) _

end Mumble

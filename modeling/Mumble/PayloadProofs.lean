import Mumble.FrameProgress
import Mumble.Descriptors

/-! What becomes of a frame whose type has no descriptor, and of one whose payload
does not parse. -/
namespace Mumble
open CExec Bytes Relation

section Types
variable {σ μ : Type} (p : Protobuf μ)

theorem descriptor_outside_iff (descriptors : List MessageType) (type : Nat) :
    descriptor p descriptors type = .error .outOfBounds ↔
      descriptors.length ≤ type ∧ type < descriptors.length * p.descriptorSize := by
  rw [descriptor]
  by_cases below : type < descriptors.length * p.descriptorSize
  · rw [require_true below, ok_bind, load_outside, List.length_map]
    exact (and_iff_left below).symm
  · rw [require_false below, error_bind]
    constructor
    · exact fun refused => absurd refused (error_ne_error (by decide))
    · exact fun inside => absurd inside.2 below

/-- The type field of a ready window. -/
theorem mumbleFrameType_ready {ctx : FrameDecoder} (ready : mumbleFrameReady ctx = true) :
    mumbleFrameType ctx = bigEndian (ctx.buffer.take 2) ∧ bigEndian (ctx.buffer.take 2) < 2 ^ 16 := by
  have long := ready_length ready
  have bound := bigEndian_lt (ctx.buffer.take 2)
  rw [List.length_take_of_le (by omega)] at bound
  exact ⟨if_neg (by omega), bound⟩

/-- No access is past the end of the table exactly when the type is below 26, or is
not below the size of the table in bytes and refused. -/
theorem unknown_type_iff (ctx : FrameDecoder) (ready : mumbleFrameReady ctx = true) (state : σ)
    (message : Option μ) :
    mumbleFrameDecode ctx (unpackMessage p) state message ≠ .error .outOfBounds ↔
      bigEndian (ctx.buffer.take 2) < 26 ∨ 26 * p.descriptorSize ≤ bigEndian (ctx.buffer.take 2) := by
  obtain ⟨type, small⟩ := mumbleFrameType_ready ready
  have length : decoderDescriptors.length = 26 := rfl
  rw [mumbleFrameDecode, if_neg (by simp [ready])]
  cases audio : mumbleFrameIsAudio ctx with
  | true =>
    have one := of_decide_eq_true audio
    rw [type, typeUdptunnel] at one
    rw [if_pos rfl]
    exact ⟨fun _ => .inl (by omega), fun _ => ok_ne_error⟩
  | false =>
    rw [if_neg Bool.false_ne_true]
    have unsigned : toUnsigned (mumbleFrameType ctx) = bigEndian (ctx.buffer.take 2) := by
      rw [type, toUnsigned_natCast]
      omega
    have outside := descriptor_outside_iff p decoderDescriptors (bigEndian (ctx.buffer.take 2))
    rw [length] at outside
    dsimp only [unpackMessage]
    rw [unsigned]
    cases found : descriptor p decoderDescriptors (bigEndian (ctx.buffer.take 2)) with
    | ok d =>
      rw [found] at outside
      have inside := mt outside.mpr ok_ne_error
      exact ⟨fun _ => by omega, fun _ => ok_ne_error⟩
    | error fault =>
      rw [found] at outside
      have same : (Except.error fault : Run (Int × FrameDecoder × σ × Option μ)) = .error .outOfBounds ↔
          (Except.error fault : Run MessageDescriptor) = .error .outOfBounds := by
        simp only [Except.error.injEq]
      rw [ne_eq]
      refine (not_congr (same.trans outside)).trans ?_
      omega

end Types

theorem type_fits : [(0 : UInt8), 25, 0, 0, 0, 0].length ≤ frameMaxSize := by decide

theorem unknown_type_sample :
    mumbleFrameDecode (holding [0, 25, 0, 0, 0, 0] type_fits).decoder (unpackMessage emptyMessages) () none ≠
      .error .outOfBounds :=
  (unknown_type_iff emptyMessages _ (by decide) () none).mpr (.inl (by decide))

/-- The type just past the table. -/
theorem unknown_type_read :
    mumbleFrameReady (holding [0, 26, 0, 0, 0, 0] type_fits).decoder = true ∧
      mumbleFrameDecode (holding [0, 26, 0, 0, 0, 0] type_fits).decoder (unpackMessage emptyMessages) () none =
        .error .outOfBounds := by
  refine ⟨by decide, ?_⟩
  rfl

section Payloads
variable {σ μ : Type} (h : Handlers σ μ)

/-- The handlers with listeners in place of those that messages are passed to. -/
def Handlers.listen : Handlers (σ × List (Option μ)) μ where
  audioDecode state buf len := do
    let next ← h.audioDecode state.1 buf len
    .ok (next, state.2)
  unpack state type len data := do
    let (next, message) ← h.unpack state.1 type len data
    .ok ((next, state.2), message)
  messageInternal state _ message := .ok (state.1, state.2 ++ [message])
  onMessage := h.onMessage.map fun _ state _ message => .ok (state.1, state.2 ++ [message])

variable {h} {client : Client σ}

end Payloads

end Mumble

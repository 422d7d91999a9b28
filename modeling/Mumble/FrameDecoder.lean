import Mumble.Lib.Run
import Mumble.Lib.Bytes

/-! The frame decoder of `frame_decoder.c`: a growing window on the control
stream, from the front of which whole frames are taken. -/
namespace Mumble
open CExec Bytes

def frameMaxSize : Nat := 2 ^ 20

def frameHeaderSize : Int := 6

def typeUdptunnel : Int := 1

/-- `buffer` is the first `buffer_size` bytes of the allocation. -/
structure FrameDecoder where
  buffer : List UInt8
  bufferAllocated : Nat
  fits : buffer.length ≤ bufferAllocated
  limit : bufferAllocated ≤ frameMaxSize
  deriving DecidableEq

def mumbleFrameInit : FrameDecoder where
  buffer := []
  bufferAllocated := frameMaxSize
  fits := Nat.zero_le _
  limit := Nat.le_refl _

section
variable (ctx : FrameDecoder)

/-- The length field is read into a `uint32_t` and returned as an `int`. -/
def mumbleFrameSize : Int :=
  if ctx.buffer.length < 2 + 4 then -1 else toInt (bigEndian ((ctx.buffer.drop 2).take 4))

def mumbleFrameType : Int :=
  if ctx.buffer.length < 2 then -1 else bigEndian (ctx.buffer.take 2)

/-- The sum is an `int`, and `buffer_size` is unsigned. -/
def mumbleFrameReady : Bool :=
  toUnsigned (toInt (mumbleFrameSize ctx + frameHeaderSize)) ≤ ctx.buffer.length

def mumbleFrameIsAudio : Bool := mumbleFrameType ctx = typeUdptunnel

/-- `memcpy` to the end of the window. -/
def mumbleFrameAppend (buf : List UInt8) (size : Nat) : Run (Bool × FrameDecoder) := do
  let data ← slice buf size
  if fits : (ctx.buffer ++ data).length ≤ ctx.bufferAllocated then
    let ctx := { ctx with buffer := ctx.buffer ++ data, fits }
    .ok (mumbleFrameReady ctx, ctx)
  else .error .outOfBounds

/-- `memmove` of the bytes behind the first `size` to the front. -/
def FrameDecoder.shift (size newSize : Nat) : FrameDecoder :=
  { ctx with
    buffer := (ctx.buffer.drop size).take newSize
    fits := Nat.le_trans (by simp only [List.length_take, List.length_drop]; omega) ctx.fits }

def mumbleFramePop : Int × FrameDecoder :=
  if !mumbleFrameReady ctx then (-1, ctx)
  else
    let size := toInt (mumbleFrameSize ctx + frameHeaderSize)
    let newSize := toInt (ctx.buffer.length - size)
    let ctx := ctx.shift size.toNat newSize.toNat
    ((mumbleFrameReady ctx).toInt, ctx)

/-- `unpack` is the descriptor of the type and `protobuf_c_message_unpack`, which
gets the length field as a `size_t`. The test `message == NULL` is about the
argument itself, which is never null. -/
def mumbleFrameDecode {σ μ : Type} (unpack : σ → Int → Nat → List UInt8 → Run (σ × Option μ))
    (state : σ) (message : Option μ) : Run (Int × FrameDecoder × σ × Option μ) :=
  if !mumbleFrameReady ctx then .ok (-1, ctx, state, message)
  else if mumbleFrameIsAudio ctx then .ok (-2, ctx, state, message)
  else do
    let type := mumbleFrameType ctx
    let (state, message) ← unpack state type (toSize (mumbleFrameSize ctx)) (ctx.buffer.drop 6)
    let (_, ctx) := mumbleFramePop ctx
    .ok (type, ctx, state, message)

end

theorem shift_buffer (ctx : FrameDecoder) (size newSize : Nat) :
    (ctx.shift size newSize).buffer = (ctx.buffer.drop size).take newSize := rfl

/-- A ready window is popped by as many bytes as it was found to hold. -/
theorem mumbleFramePop_buffer {ctx : FrameDecoder} (ready : mumbleFrameReady ctx = true) :
    (mumbleFramePop ctx).2.buffer =
      ctx.buffer.drop (toInt (mumbleFrameSize ctx + frameHeaderSize)).toNat := by
  have inside : toUnsigned (toInt (mumbleFrameSize ctx + frameHeaderSize)) ≤ ctx.buffer.length :=
    of_decide_eq_true ready
  have bound : ctx.buffer.length ≤ 2 ^ 20 := Nat.le_trans ctx.fits ctx.limit
  have range := @Int.le_bmod (mumbleFrameSize ctx + frameHeaderSize) (2 ^ 32) (by decide)
  have range' := @Int.bmod_lt (mumbleFrameSize ctx + frameHeaderSize) (2 ^ 32) (by decide)
  rw [mumbleFramePop, if_neg (by rw [ready]; decide)]
  dsimp only
  rw [shift_buffer, List.take_of_length_le]
  unfold toUnsigned at inside
  change (_ : Int) ≤ toInt _ at range
  change toInt _ < (_ : Int) at range'
  generalize toInt (mumbleFrameSize ctx + frameHeaderSize) = size at *
  rw [List.length_drop, toInt_of_small (by omega) (by omega)]
  omega

@[simp] theorem mumbleFramePop_allocated (ctx : FrameDecoder) :
    (mumbleFramePop ctx).2.bufferAllocated = ctx.bufferAllocated := by
  unfold mumbleFramePop
  split
  · rfl
  · rfl

theorem mumbleFrameAppend_of_fits {ctx : FrameDecoder} {buf : List UInt8}
    (fits : (ctx.buffer ++ buf).length ≤ ctx.bufferAllocated) :
    ∃ ready ctx', mumbleFrameAppend ctx buf buf.length = .ok (ready, ctx') ∧
      ctx'.buffer = ctx.buffer ++ buf ∧ ctx'.bufferAllocated = ctx.bufferAllocated := by
  let grown := { ctx with buffer := ctx.buffer ++ buf, fits }
  refine ⟨mumbleFrameReady grown, grown, ?_, rfl, rfl⟩
  rw [mumbleFrameAppend, slice_of_le (Nat.le_refl _), ok_bind, List.take_length, dif_pos fits]

end Mumble

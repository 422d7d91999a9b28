import Mumble.Descriptors

/-! The frame encoder of `frame_encoder.c`. -/
namespace Mumble
open CExec Bytes

/-- `buffer` is the whole allocation, of which `bufferSize` bytes are the frame. -/
structure FrameEncoder where
  buffer : List UInt8
  bufferSize : Nat
  allocated : buffer.length = frameMaxSize

/-- A store through `buffer`. -/
def FrameEncoder.write (ctx : FrameEncoder) (i : Nat) (data : List UInt8) : Run FrameEncoder :=
  if inside : i + data.length ≤ ctx.buffer.length then
    .ok { ctx with
      buffer := ctx.buffer.take i ++ (data ++ ctx.buffer.drop (i + data.length))
      allocated := by
        rw [List.length_append, List.length_append, List.length_take, List.length_drop, ← ctx.allocated]
        omega }
  else .error .outOfBounds

section
variable {μ : Type} (p : Protobuf μ)

/-- The loop of `get_message_type` from `i` on, with `count` types left. -/
def findType (name : String) : Nat → Nat → Run Int
  | 0, _ => .ok (-1)
  | count + 1, i => do
    let entry ← descriptor p encoderDescriptors i
    if name = entry.name then .ok i else findType name count (i + 1)

def getMessageType (message : μ) : Run Int := do
  let msgDescriptor := p.descriptor message
  require (msgDescriptor.packageName = "MumbleProto") .assertion
  findType p msgDescriptor.name mumbleTypeCount 0

/-- `htons` and `htonl` take the low two and four bytes. -/
def mumbleFrameEncode (ctx : FrameEncoder) (message : μ) : Run FrameEncoder := do
  let type ← getMessageType p message
  require (type ≠ -1) .assertion
  let size := p.packedSize message
  let totalSize := toSize (2 + 4 + size)
  require (totalSize ≤ ctx.buffer.length) .assertion
  let ctx ← ctx.write 0 (ofBigEndian 2 type.toNat)
  let ctx ← ctx.write 2 (ofBigEndian 4 size)
  let ctx ← ctx.write (2 + 4) (p.pack message)
  .ok { ctx with bufferSize := toUnsigned totalSize }

/-- The bytes that `mumble_client_write` passes on. -/
def FrameEncoder.written (ctx : FrameEncoder) : List UInt8 := ctx.buffer.take ctx.bufferSize

end

end Mumble

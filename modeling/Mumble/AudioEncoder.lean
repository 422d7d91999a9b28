import Mumble.AudioDecoder
import Mumble.Buffer

/-! The sending half of `codec/opus.c`, and the packets that `audio_encoder.c`
makes of its output. libopus and the allocator are parameters, and so is what a
stack frame holds before it is written to. -/
namespace Mumble
open CExec Bytes

/-- What the sender calls, on the state `ω` of an `OpusEncoder`. The encoding
returns a count, the next state and the bytes it has written. -/
structure OpusEncoderApi (ω : Type) where
  encode : ω → List UInt8 → Int → Int → Int × ω × List UInt8
  malloc : Nat → Option (List UInt8)
  unset : Position

/-- The `size` of an output buffer is its length. -/
structure CodecOpusEncoder (ω : Type) where
  encoder : ω
  buffer : MumbleBuffer
  codecOut : List UInt8
  framedOut : List UInt8

structure AudioEncoder (ω : Type) where
  opus : CodecOpusEncoder ω
  sequence : UInt32

/-- `audio_buffer_size`, an `unsigned short` times a thousandth of another. -/
structure FrameSize where
  bytes : Nat
  positive : 0 < bytes
  small : bytes < 2 ^ 23

/-- What `malloc` has returned for `size` bytes. -/
abbrev Memory (size : Nat) := { bytes : List UInt8 // bytes.length = size }

section
variable {ω : Type}

def mumbleCodecOpusCreateEncoder (encoder : ω) (size : FrameSize) (codecOut framedOut : Memory size.bytes) :
    CodecOpusEncoder ω :=
  ⟨encoder, mumbleBufferCreate size.bytes, codecOut, framedOut⟩

def mumbleAudioEncoderInit (encoder : ω) (size : FrameSize) (codecOut framedOut : Memory size.bytes) :
    AudioEncoder ω :=
  ⟨mumbleCodecOpusCreateEncoder encoder size codecOut framedOut, 0⟩

variable {τ : Type} (api : OpusEncoderApi ω)

def onEncoderFrame (cb : τ → List UInt8 → Nat → Bool → Run τ) (codec : CodecOpusEncoder ω × τ)
    (buf : List UInt8) (size : Nat) (final : Bool) : Run (CodecOpusEncoder ω × τ) := do
  let (codec, state) := codec
  let pcm ← slice buf (2 * (size / 2))
  let (ret, encoder, data) := api.encode codec.encoder pcm (toInt (size / 2)) codec.codecOut.length
  let codecOut ← store codec.codecOut 0 data
  require (0 < ret) .assertion
  let (varintRet, framedOut, written) ←
    varintEncode (.ofNat (toSize ret)) codec.framedOut codec.framedOut.length 0
  require (varintRet = 0) .assertion
  require (toInt (ret + written) < codec.framedOut.length) .assertion
  let payload ← slice codecOut ret.toNat
  let framedOut ← store framedOut written.toNat payload
  let state ← cb state framedOut (toUnsigned (toInt (written + ret))) final
  .ok ({ codec with encoder, codecOut, framedOut }, state)

def pcmBytes (pcm : List UInt16) : List UInt8 :=
  pcm.flatMap fun (sample : UInt16) => [sample.toUInt8, (sample >>> 8).toUInt8]

/-- The count of samples is an `int`, and that of bytes is unsigned. -/
def mumbleCodecOpusEncode (codec : CodecOpusEncoder ω) (pcm : List UInt16) (pcmSize : Int)
    (termination : Bool) (cb : τ → List UInt8 → Nat → Bool → Run τ) (state : τ) :
    Run (CodecOpusEncoder ω × τ) := do
  let (buffer, codec, state) ← mumbleBufferWrite (onEncoderFrame api cb) codec.buffer (codec, state)
    (pcmBytes pcm) (toUnsigned (2 * pcmSize)) termination
  .ok ({ codec with buffer }, state)

def Position.bytes (position : Position) : List UInt8 :=
  [position.x, position.y, position.z].flatMap fun float => (ofBigEndian 4 float.toNat).reverse

def encodedHeader (codec : UInt8) (target : UInt64) : UInt8 :=
  ((codec.toUInt64 <<< 5) ||| (target &&& 0x1F)).toUInt8

/-- `cb` is the callback of the encoder, which is called without a test. The state
is the sequence number of the encoder and that of the callback. -/
def encoderCodecCb (cb : Option (τ → List UInt8 → Nat → Run τ)) (target : UInt64) (position : Position)
    (encoder : UInt32 × τ) (buf : List UInt8) (size : Nat) (_final : Bool) : Run (UInt32 × τ) := do
  let (sequence, state) := encoder
  let encodedSize := toInt (toSize (size + 8 * 3 + 4 * 3 + 1))
  match api.malloc (toSize encodedSize) with
  | none => .error .assertion
  | some encodedData => do
    let encodedData ← store encodedData 0 [encodedHeader audioOpus target]
    -- the varint may take the whole size, although the buffer is one byte shorter
    let (ret, behind, written) ← varintEncode sequence.toUInt64 (encodedData.drop 1) encodedSize 0
    require (ret = 0) .assertion
    let encodedData := encodedData.take 1 ++ behind
    let pos := 1 + written
    require (size < toUnsigned (encodedSize - pos)) .assertion
    let payload ← slice buf size
    let encodedData ← store encodedData pos.toNat payload
    let pos := toInt (pos + size)
    require (4 * 3 < toSize (encodedSize - pos)) .assertion
    let encodedData ← store encodedData pos.toNat position.bytes
    match cb with
    | none => .error .outOfBounds
    | some cb => do
      let state ← cb state encodedData (toUnsigned pos)
      .ok (sequence + 1, state)

def mumbleAudioEncoderEncode (cb : Option (τ → List UInt8 → Nat → Run τ)) (encoder : AudioEncoder ω)
    (target : UInt32) (pcm : Pcm) (position : Option Position) (state : τ) :
    Run (AudioEncoder ω × τ) := do
  let (opus, sequence, state) ← mumbleCodecOpusEncode api encoder.opus pcm.data pcm.samples false
    (encoderCodecCb api cb target.toUInt64 (position.getD api.unset)) (encoder.sequence, state)
  .ok (⟨opus, sequence⟩, state)

end

end Mumble

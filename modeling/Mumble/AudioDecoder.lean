import Mumble.Util
import Mumble.Lib.Bytes

/-! The voice packets that `audio_decoder.c` takes apart, and the receiving half
of `codec/opus.c`. libopus and the allocator are parameters. -/
namespace Mumble
open CExec Bytes

/-- What `opus.c` calls, on the state `ω` of an `OpusDecoder`. The decoding
returns a count, the next state and the samples it has written. -/
structure OpusApi (ω : Type) where
  getNbSamples : ω → List UInt8 → Int → Int
  decode : ω → List UInt8 → Int → Int → Int × ω × List UInt16
  malloc : Nat → Bool

structure OpusFrame (ω : Type) where
  ret : Int
  codec : ω
  pcm : List UInt16
  pcmLen : Int
  termination : Bool

def mumbleCodecOpusDecode {ω : Type} (api : OpusApi ω) (codec : ω) (buffer : List UInt8) (len : Int) :
    Run (OpusFrame ω) := do
  let (ret, varlen) ← varintDecode buffer len 0
  let termination : Bool := varlen &&& 0x2000 ≠ 0
  let varlen := (if termination then varlen &&& 0x1FFF else varlen).toNat
  require (0 < ret) .assertion
  require (0 < varlen) .assertion
  require (varlen < toSize len) .assertion
  let buffer := buffer.drop ret.toNat
  let len := len - ret
  require (varlen = toSize len) .assertion
  let data ← slice buffer varlen
  let numSamples := api.getNbSamples codec data (toInt varlen)
  let pcmLen := toInt (toSize (2 * numSamples))
  require (api.malloc (toSize pcmLen)) .assertion
  -- the frame size is the size of the buffer in bytes
  let (ret, codec, pcm) := api.decode codec data (toInt varlen) pcmLen
  require (2 * pcm.length ≤ toSize pcmLen) .outOfBounds
  require (0 < ret) .assertion
  .ok { ret, codec, pcm, pcmLen, termination }

def audioType (x : UInt8) : UInt8 := (x &&& 0xE0) >>> 5

def audioTarget (x : UInt8) : UInt8 := x &&& 0x1F

def audioPing : UInt8 := 1

def audioOpus : UInt8 := 4

/-- The bits of three floats. -/
structure Position where
  x : UInt32
  y : UInt32
  z : UInt32
  deriving DecidableEq

structure Pcm where
  data : List UInt16
  hz : Int
  samples : Int
  deriving DecidableEq

structure AudioPacket where
  codec : UInt8
  pcm : Pcm
  position : Position
  sequence : UInt64
  source : UInt64
  target : UInt64
  deriving DecidableEq

/-- `cb` is whether a callback is installed, and `sequence` the one mark that
packets of every source are compared with. -/
structure AudioDecoder (ω : Type) where
  cb : Bool
  opus : ω
  sequence : UInt32
  packets : UInt32
  droppedSequence : UInt32
  deriving DecidableEq

def mumbleAudioDecoderInit {ω : Type} (opus : ω) : AudioDecoder ω := ⟨false, opus, 0, 0, 0⟩

def mumbleAudioDecoderSetCb {ω : Type} (decoder : AudioDecoder ω) : AudioDecoder ω :=
  { decoder with cb := true }

/-- What a call returns and leaves, and what it has called the callback with. -/
structure Decoded (ω : Type) where
  ret : Int
  decoder : AudioDecoder ω
  audio : AudioPacket
  delivered : Option AudioPacket
  deriving DecidableEq

section
variable {ω : Type} (api : OpusApi ω)

/-- Codec, target, source and sequence, with the bytes behind them. -/
def decodeHeader (buf : List UInt8) (len : Int) : Run (AudioPacket × List UInt8 × Int) := do
  let b ← load buf 0
  require (audioType b ≠ audioPing) .assertion
  let buf := buf.drop 1
  let len := len - 1
  let (ret, sourceid) ← varintDecode buf len 0
  require (0 < ret) .assertion
  let buf := buf.drop ret.toNat
  let len := len - ret
  let (ret, seq) ← varintDecode buf len 0
  require (0 < ret) .assertion
  .ok (⟨audioType b, ⟨[], 0, 0⟩, ⟨0, 0, 0⟩, seq, sourceid, (audioTarget b).toUInt64⟩,
    buf.drop ret.toNat, len - ret)

/-- The pointer and the length are moved by the count of samples. -/
def decodePayload (opus : ω) (audio : AudioPacket) (buf : List UInt8) (len : Int) :
    Run (ω × AudioPacket × List UInt8 × Int) :=
  if audio.codec = audioOpus then do
    let frame ← mumbleCodecOpusDecode api opus buf len
    require (0 < frame.ret) .assertion
    .ok (frame.codec, { audio with pcm := ⟨frame.pcm, 48000, frame.ret⟩ }, buf.drop frame.ret.toNat,
      len - frame.ret)
  else .ok (opus, audio, buf, len)

def float (bytes : List UInt8) : UInt32 := .ofNat (littleEndian (bytes.take 4))

def decodePosition (audio : AudioPacket) (buf : List UInt8) (len : Int) : Run AudioPacket :=
  if 0 < len then do
    require (toSize len = 4 * 3) .assertion
    let pos ← slice buf (4 * 3)
    .ok { audio with position := ⟨float pos, float (pos.drop 4), float (pos.drop 8)⟩ }
  else .ok audio

def mumbleAudioDecoderDecode (decoder : AudioDecoder ω) (buf : List UInt8) (len : Int) :
    Run (Decoded ω) := do
  let decoder := { decoder with packets := decoder.packets + 1 }
  require (8 < len) .assertion
  let (audio, buf, len) ← decodeHeader buf len
  if audio.sequence < decoder.sequence.toUInt64 then
    let decoder := { decoder with droppedSequence := decoder.droppedSequence + 1 }
    .ok { ret := 1, decoder, audio, delivered := none }
  else do
    let decoder := { decoder with sequence := audio.sequence.toUInt32 }
    let (opus, audio, buf, len) ← decodePayload api decoder.opus audio buf len
    let decoder := { decoder with opus }
    let audio ← decodePosition audio buf len
    .ok { ret := 0, decoder, audio, delivered := if decoder.cb then some audio else none }

end

section Spec
variable {ω : Type} {api : OpusApi ω} {decoder : AudioDecoder ω}

theorem decodeHeader_eq_ok :
    decodeHeader buf len = .ok (audio, rest, left) ↔
      ∃ b n source m seq, load buf 0 = .ok b ∧ audioType b ≠ audioPing ∧
        varintDecode (buf.drop 1) (len - 1) 0 = .ok (n, source) ∧ 0 < n ∧
        varintDecode ((buf.drop 1).drop n.toNat) (len - 1 - n) 0 = .ok (m, seq) ∧ 0 < m ∧
        audio = ⟨audioType b, ⟨[], 0, 0⟩, ⟨0, 0, 0⟩, seq, source, (audioTarget b).toUInt64⟩ ∧
        rest = ((buf.drop 1).drop n.toNat).drop m.toNat ∧ left = len - 1 - n - m := by
  constructor
  · intro run
    obtain ⟨b, first, run⟩ := bind_eq_ok.mp run
    obtain ⟨_, voice, run⟩ := bind_eq_ok.mp run
    obtain ⟨⟨n, source⟩, source_ok, run⟩ := bind_eq_ok.mp run
    obtain ⟨_, some_source, run⟩ := bind_eq_ok.mp run
    obtain ⟨⟨m, seq⟩, seq_ok, run⟩ := bind_eq_ok.mp run
    obtain ⟨_, some_seq, run⟩ := bind_eq_ok.mp run
    cases run
    exact ⟨b, n, source, m, seq, first, require_eq_ok.mp voice, source_ok, require_eq_ok.mp some_source,
      seq_ok, require_eq_ok.mp some_seq, rfl, rfl, rfl⟩
  · rintro ⟨b, n, source, m, seq, first, voice, source_ok, some_source, seq_ok, some_seq, rfl, rfl, rfl⟩
    simp only [decodeHeader, first, ok_bind, require_true voice, source_ok, require_true some_source,
      seq_ok, require_true some_seq]

/-- All that a call can do when it returns. -/
theorem mumbleAudioDecoderDecode_cases (run : mumbleAudioDecoderDecode api decoder buf len = .ok d) :
    8 < len ∧ ∃ audio rest left, decodeHeader buf len = .ok (audio, rest, left) ∧
      ((audio.sequence < decoder.sequence.toUInt64 ∧ d.delivered = none ∧
          d.decoder = { decoder with
            packets := decoder.packets + 1, droppedSequence := decoder.droppedSequence + 1 }) ∨
        (¬ audio.sequence < decoder.sequence.toUInt64 ∧
          d.delivered = (if decoder.cb then some d.audio else none) ∧
          ∃ opus audio' rest' left', decodePayload api decoder.opus audio rest left =
              .ok (opus, audio', rest', left') ∧ decodePosition audio' rest' left' = .ok d.audio ∧
            d.decoder = { decoder with
              packets := decoder.packets + 1, sequence := audio.sequence.toUInt32, opus })) := by
  obtain ⟨_, long, run⟩ := bind_eq_ok.mp run
  obtain ⟨⟨audio, rest, left⟩, header, run⟩ := bind_eq_ok.mp run
  refine ⟨require_eq_ok.mp long, audio, rest, left, header, ?_⟩
  dsimp only at run
  split at run
  · cases run
    exact .inl ⟨‹_›, rfl, rfl⟩
  · obtain ⟨⟨opus, audio', rest', left'⟩, payload, run⟩ := bind_eq_ok.mp run
    obtain ⟨audio'', position, run⟩ := bind_eq_ok.mp run
    cases run
    exact .inr ⟨‹_›, rfl, opus, audio', rest', left', payload, position, rfl⟩

theorem mumbleAudioDecoderDecode_dropped (long : 8 < len)
    (header : decodeHeader buf len = .ok (audio, rest, left))
    (late : audio.sequence < decoder.sequence.toUInt64) :
    mumbleAudioDecoderDecode api decoder buf len = .ok
      { ret := 1
        decoder := { decoder with
          packets := decoder.packets + 1, droppedSequence := decoder.droppedSequence + 1 }
        audio
        delivered := none } := by
  simp only [mumbleAudioDecoderDecode, require_true long, ok_bind, header, if_pos late]

end Spec

/-- A libopus for packets of two and a half milliseconds, all of them silent. -/
def silentOpus : OpusApi Unit where
  getNbSamples _ _ _ := 120
  decode _ _ _ _ := (120, (), List.replicate 120 0)
  malloc _ := true

end Mumble

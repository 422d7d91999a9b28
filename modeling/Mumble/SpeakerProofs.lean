import Mumble.ReceiverProofs
import Mumble.VoicePackets
import Mumble.Lib.HighWater

/-! Voice packets of many sources on one decoder. It has one mark, so that a
packet is late if a packet of anyone before it had a higher sequence number. -/
namespace Mumble
open CExec HighWater

/-- One packet after another, and those of them that reach the callback. -/
def decodeAll {ω : Type} (api : OpusApi ω) (decoder : AudioDecoder ω) :
    List VoicePacket → Run (AudioDecoder ω × List VoicePacket)
  | [] => .ok (decoder, [])
  | p :: packets => do
    let decoded ← mumbleAudioDecoderDecode api decoder p.bytes p.bytes.length
    let (decoder, heard) ← decodeAll api decoded.decoder packets
    .ok (decoder, if decoded.delivered.isSome then p :: heard else heard)

def freshDecoder {ω : Type} (opus : ω) : AudioDecoder ω :=
  mumbleAudioDecoderSetCb (mumbleAudioDecoderInit opus)

section
variable {ω : Type} {api : OpusApi ω} {decoder : AudioDecoder ω}

/-- One packet: what the mark decides, what becomes of it, and what is counted. -/
theorem decode_mark {p : VoicePacket} {d : Decoded ω} (installed : decoder.cb = true)
    (run : mumbleAudioDecoderDecode api decoder p.bytes p.bytes.length = .ok d) :
    d.decoder.cb = true ∧ d.decoder.packets = decoder.packets + 1 ∧
      (p.seen < decoder.sequence.toNat ∧ d.delivered = none ∧ d.decoder.sequence = decoder.sequence ∧
          d.decoder.droppedSequence = decoder.droppedSequence + 1 ∧ d.decoder.opus = decoder.opus ∨
        ¬ p.seen < decoder.sequence.toNat ∧ d.delivered = some d.audio ∧
          d.decoder.sequence.toNat = p.seq % 2 ^ 32 ∧
          d.decoder.droppedSequence = decoder.droppedSequence) := by
  obtain ⟨long, audio, rest, left, header, outcome⟩ := mumbleAudioDecoderDecode_cases run
  have headed := VoicePacket.headed_of_decode (Int.ofNat_lt.mp long) header
  cases headed.decode.symm.trans header
  change readAs p.sequenceId < decoder.sequence.toUInt64 ∧ _ ∨
    ¬ readAs p.sequenceId < decoder.sequence.toUInt64 ∧ _ at outcome
  rw [VoicePacket.readAs_lt_iff] at outcome
  rcases outcome with ⟨low, nothing, after⟩ | ⟨high, delivered, opus, -, -, -, -, -, after⟩
  · rw [after]
    exact ⟨installed, rfl, .inl ⟨low, nothing, rfl, rfl, rfl⟩⟩
  · rw [if_pos installed] at delivered
    rw [after]
    refine ⟨installed, rfl, .inr ⟨high, delivered, ?_, rfl⟩⟩
    change (readAs p.sequenceId).toUInt32.toNat = _
    rw [UInt64.toNat_toUInt32, readAs_toNat, signExtended_low]
    rfl

theorem decodeAll_append {front back : List VoicePacket}
    (run : decodeAll api decoder (front ++ back) = .ok (decoder', heard)) :
    ∃ middle heard₁ heard₂, decodeAll api decoder front = .ok (middle, heard₁) ∧
      decodeAll api middle back = .ok (decoder', heard₂) := by
  induction front generalizing decoder heard with
  | nil => exact ⟨decoder, [], heard, rfl, run⟩
  | cons p front ih =>
    obtain ⟨d, first, run⟩ := bind_eq_ok.mp run
    obtain ⟨⟨last, heard'⟩, rest, run⟩ := bind_eq_ok.mp run
    cases run
    obtain ⟨middle, heard₁, heard₂, middle_ok, back_ok⟩ := ih rest
    refine ⟨middle, if d.delivered.isSome then p :: heard₁ else heard₁, heard₂, ?_, back_ok⟩
    rw [decodeAll, first, ok_bind, middle_ok, ok_bind]

end

theorem encodes_byte {b0 : UInt8} {number : UInt64} (tag : b0.toNat < 0x80) (same : .ofNat b0.toNat = number) :
    Encodes [b0] number :=
  same ▸ .one tag

theorem encodes_one : Encodes [1] 1 := encodes_byte (by decide) rfl

theorem encodes_hundred : Encodes [100] 100 := encodes_byte (by decide) rfl

theorem encodes_five : Encodes [5] 5 := encodes_byte (by decide) rfl

def packetFrom {sourceId sequenceId : UInt64} {source sequence : List UInt8} (isSource : Encodes source sourceId)
    (isSequence : Encodes sequence sequenceId) : VoicePacket :=
  .packetWith source sequence isSource isSequence encodes_five [] PacketOf.untrailed

def firstSpeaker : VoicePacket := packetFrom encodes_one encodes_hundred

end Mumble

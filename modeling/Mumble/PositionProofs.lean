import Mumble.ReceiverProofs
import Mumble.SpeakerProofs

/-! The position behind an Opus payload. The payload has to reach to the end of the
packet, so that no position is ever read where one is sent. -/
namespace Mumble
open CExec Bytes

/-- An Opus packet with the numbers that the decoder reads. -/
abbrev OpusPacket := PacketOf IsVarint

/-- The position that is sent, or zeros. -/
def OpusPacket.position (p : OpusPacket) : Position :=
  if p.trailer = [] then ⟨0, 0, 0⟩
  else ⟨float p.trailer, float (p.trailer.drop 4), float (p.trailer.drop 8)⟩

section
variable {ω : Type} {api : OpusApi ω} {decoder : AudioDecoder ω} {p : OpusPacket} {stale : List UInt8}

theorem OpusPacket.parts (p : OpusPacket) :
    HasParts p.bytes p.header p.sourceId p.sequenceId (p.body ++ p.trailer) :=
  ⟨p.source, p.sequence, rfl, p.isSource, p.isSequence⟩

end

end Mumble

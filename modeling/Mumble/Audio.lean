import Mumble.AudioDecoder
import Mumble.Client
import Mumble.UdpSsl

/-! The two ways of a voice packet through `audio.c`, by datagram and by the
control stream, and the reception of a ping reply in `udp_ping.c`. -/
namespace Mumble
open CExec Bytes

structure UdpPingAttempt where
  timestamp : UInt64
  waiting : Bool
  deriving DecidableEq

/-- `replyTimer` is whether the timer is active. -/
structure UdpPing where
  connected : Bool
  lastAttempt : UdpPingAttempt
  replyTimer : Bool
  deriving DecidableEq

def mumbleUdpPingRecv (ping : UdpPing) (timestamp : UInt64) : UdpPing :=
  if ping.lastAttempt.waiting then
    if timestamp = ping.lastAttempt.timestamp then
      { ping with
        connected := true
        lastAttempt := { ping.lastAttempt with waiting := false }
        replyTimer := false }
    else ping
  else ping

/-- `cb` is whether the application has installed a callback, and `heard` what it
has been called with. -/
structure Audio (ω : Type) where
  udp : UdpSsl
  cb : Bool
  decoder : AudioDecoder ω
  pinger : UdpPing
  heard : List AudioPacket
  deriving DecidableEq

/-- Where `encoder_cb` sends a packet. -/
inductive Sent where
  | udp (datagram : List UInt8)
  | tcp (bytes : List UInt8)
  deriving DecidableEq

section
variable {ω : Type}

def decoderCb (audio : Audio ω) (decoded : AudioPacket) : Audio ω :=
  if audio.cb then { audio with heard := audio.heard ++ [decoded] } else audio

/-- A call of `mumble_audio_decoder_decode` on the decoder of `audio`, whose
callback is `decoder_cb`. -/
def Audio.decode (api : OpusApi ω) (audio : Audio ω) (buf : List UInt8) (len : Int) :
    Run (Audio ω) := do
  let decoded ← mumbleAudioDecoderDecode api audio.decoder buf len
  let audio := { audio with decoder := decoded.decoder }
  match decoded.delivered with
  | none => .ok audio
  | some packet => .ok (decoderCb audio packet)

def udpCb (api : OpusApi ω) (audio : Audio ω) (buf : List UInt8) (len : Nat) : Run (Audio ω) := do
  let b ← load buf 0
  if b = 0x20 then do
    let (ret, timestamp) ← varintDecode (buf.drop 1) (toInt (toSize ((len : Int) - 1))) 0
    require (0 < ret) .assertion
    .ok { audio with pinger := mumbleUdpPingRecv audio.pinger timestamp }
  else audio.decode api buf (toInt len)

/-- The buffer that `encoder_cb` hands to the control stream. -/
def tunnelFrame (buf : List UInt8) (size : Nat) : Run (List UInt8) := do
  let length := toInt (toUnsigned (size + 6))
  require (6 + (size : Int) ≤ length) .outOfBounds
  let data ← slice buf size
  .ok (ofBigEndian 2 typeUdptunnel.toNat ++ ofBigEndian 4 size ++ data)

def encoderCb (aes : Aes) (trySend : List UInt8 → Int) (audio : Audio ω) (buf : List UInt8)
    (size : Nat) : Run (Audio ω × Sent) :=
  if audio.pinger.connected then do
    let (udp, datagram) ← udpSslWrite aes trySend audio.udp buf size
    .ok ({ audio with udp }, .udp datagram)
  else do
    let tcpBuf ← tunnelFrame buf size
    .ok (audio, .tcp tcpBuf)

/-- The adapter's handlers with the audio decoder of the client. -/
def Handlers.withAudio {μ : Type} (h : Handlers (Audio ω) μ) (api : OpusApi ω) :
    Handlers (Audio ω) μ :=
  { h with audioDecode := Audio.decode api }

end

end Mumble

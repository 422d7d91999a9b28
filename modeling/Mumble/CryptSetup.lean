import Mumble.UdpPing

/-! The messages that the client handles itself: `CryptSetup` sets the keys of the
UDP connection and starts the pinger. -/
namespace Mumble
open CExec

def typeCryptSetup : Int := 15

/-- The fields of the message, each with its data if its `has_` flag is set. -/
structure CryptSetup where
  key : Option (List UInt8)
  clientNonce : Option (List UInt8)
  serverNonce : Option (List UInt8)
  deriving DecidableEq

section
variable {ω : Type}

/-- The state of the audio and the rest of its pinger. -/
def mumbleAudioEncryption (now : Nat) (audio : Audio ω) (timers : PingTimers)
    (key encIv decIv : List UInt8) (ivlen : Nat) : Run (Audio ω × PingTimers) := do
  let udp ← udpSslSetEncryption audio.udp key encIv decIv ivlen
  .ok ({ audio with udp }, mumbleUdpPingStart now timers)

/-- A message that could not be unpacked is a null pointer. -/
def mumbleMessageInternal (now : Nat) (audio : Audio ω) (timers : PingTimers) (type : Int)
    (message : Option CryptSetup) : Run (Audio ω × PingTimers) :=
  if type = typeUdptunnel then .ok (audio, timers)
  else if type = typeCryptSetup then
    match message with
    | none => .error .outOfBounds
    | some msg => do
      require (msg.key.isSome) .assertion
      require (msg.clientNonce.isSome) .assertion
      require (msg.serverNonce.isSome) .assertion
      let clientNonce := msg.clientNonce.getD []
      mumbleAudioEncryption now audio timers (msg.key.getD []) clientNonce (msg.serverNonce.getD [])
        clientNonce.length
  else .ok (audio, timers)

end

end Mumble

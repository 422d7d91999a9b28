import Mumble.AudioEncoder
import Mumble.CryptSetup
import Mumble.FrameEncoder

/-! The client of `mumble_client.c` as libuv drives it, with its audio and both of its
pings. The TLS connection is left out: what it is given to write is noted down, and
what it has read arrives in chunks. -/
namespace Mumble
open CExec

/-- The libraries under the client. A message is cast to `CryptSetup`, and the last
three build the messages that the client sends of its own. -/
structure Libraries (μ ω ε : Type) where
  aes : Aes
  opusDecoder : OpusApi ω
  opusEncoder : OpusEncoderApi ε
  protobuf : Protobuf μ
  cryptSetup : μ → CryptSetup
  version : UInt32 → μ
  authenticate : Option (List UInt8) → μ
  ping : UInt64 → μ

/-- What `uv_udp_try_send` and `SSL_write` return. -/
structure Carrier where
  trySend : List UInt8 → Int
  sslWrite : List UInt8 → Int

/-- A `pcm_t` with all samples of its buffer, for a target that has become unsigned. -/
structure Speech where
  target : UInt32
  samples : List UInt16
  hz : Int
  small : samples.length < 2 ^ 31

/-- What an application calls. -/
inductive ClientCall (μ : Type) where
  | write (message : μ)
  | writeAudio (speech : Speech)

/-- The callbacks of the application, which can change a state of its own and call
the client. -/
structure Application (μ α : Type) where
  onMessage : Option (α → Int → Option μ → α × List (ClientCall μ))
  onAudio : Option (α → AudioPacket → α × List (ClientCall μ))

/-- What is noted down: all that is sent, each message and each tunnelled packet with
its frame and each payload with its datagram, and what decides about the way of later
packets. -/
inductive Incident (μ : Type) where
  | control (message : μ) (frame : List UInt8)
  | tunnel (packet frame : List UInt8)
  | voice (packet datagram : List UInt8)
  | ping (packet datagram : List UInt8)
  | spoke (speech : Speech)
  | keys (cipher : OcbAes)
  | confirmed
  | lost

/-- The `mumble_client_t` without the frame decoder. `timers` is the rest of the pinger
of `audio`, and `pingDue` the deadline of `ping_timer`. -/
structure ClientParts (μ ω ε α : Type) where
  now : Nat
  nick : List UInt8
  audio : Audio ω
  timers : PingTimers
  voice : AudioEncoder ε
  encoder : FrameEncoder
  pingDue : Option Nat
  app : α
  log : List (Nat × Incident μ)

abbrev MumbleClient (μ ω ε α : Type) := Client (ClientParts μ ω ε α)

/-- The interval before the first ping of the control connection. -/
def pingDelay : Nat := 15000

def pingRepeat : Nat := 30000

/-- `(int)time(NULL)` as a `uint64_t`. -/
def intTime (time : UInt64) : UInt64 := .ofInt (toInt time.toNat)

/-- `malloc` says whether there is memory. -/
def dupstr (malloc : Nat → Bool) (source : List UInt8) : Run (Option (List UInt8)) := do
  let strlen := source.idxOf 0
  require (strlen < source.length) .outOfBounds
  .ok (if malloc (strlen + 1) then some (source.take strlen) else none)

section
variable {μ ω ε α : Type} (lib : Libraries μ ω ε) (application : Application μ α) (carrier : Carrier)

namespace ClientParts

def record (s : ClientParts μ ω ε α) (incident : Incident μ) : ClientParts μ ω ε α :=
  { s with log := s.log ++ [(s.now, incident)] }

def pinger (s : ClientParts μ ω ε α) : Pinger := { s.audio.pinger, s.timers with }

/-- `mumble_uv_ssl_write`, which asserts that something was written. -/
def sslWrite (s : ClientParts μ ω ε α) (bytes : List UInt8) (incident : Incident μ) :
    Run (ClientParts μ ω ε α) := do
  require (1 < carrier.sslWrite bytes) .assertion
  .ok (s.record incident)

/-- `mumble_client_write`. -/
def clientWrite (s : ClientParts μ ω ε α) (message : μ) : Run (ClientParts μ ω ε α) := do
  let encoder ← mumbleFrameEncode lib.protobuf s.encoder message
  ({ s with encoder }).sslWrite carrier encoder.written (.control message encoder.written)

/-- `encoder_cb` in the client. -/
def encoderCb (s : ClientParts μ ω ε α) (buf : List UInt8) (size : Nat) : Run (ClientParts μ ω ε α) := do
  let (audio, sent) ← Mumble.encoderCb lib.aes carrier.trySend s.audio buf size
  let s := { s with audio }
  match sent with
  | .udp datagram => .ok (s.record (.voice (buf.take size) datagram))
  | .tcp frame => s.sslWrite carrier frame (.tunnel (buf.take size) frame)

/-- `mumble_client_write_audio` and `mumble_audio_send`. -/
def clientWriteAudio (s : ClientParts μ ω ε α) (speech : Speech) : Run (ClientParts μ ω ε α) := do
  let s := s.record (.spoke speech)
  let (voice, s) ← mumbleAudioEncoderEncode lib.opusEncoder (some (encoderCb lib carrier)) s.voice
    speech.target ⟨speech.samples, speech.hz, speech.samples.length⟩ none s
  .ok { s with voice }

def call (s : ClientParts μ ω ε α) : ClientCall μ → Run (ClientParts μ ω ε α)
  | .write message => s.clientWrite lib carrier message
  | .writeAudio speech => s.clientWriteAudio lib carrier speech

def calls (s : ClientParts μ ω ε α) (all : List (ClientCall μ)) : Run (ClientParts μ ω ε α) :=
  all.foldlM (call lib carrier) s

/-- `mumble_on_audio` for what has been heard since it was `count` packets. -/
def onAudio (s : ClientParts μ ω ε α) (count : Nat) : Run (ClientParts μ ω ε α) :=
  (s.audio.heard.drop count).foldlM (fun s packet =>
    match application.onAudio with
    | none => .ok s
    | some cb =>
      let (app, all) := cb s.app packet
      ({ s with app }).calls lib carrier all) s

/-- `udp_cb` in the client. -/
def udpCb (s : ClientParts μ ω ε α) (buf : List UInt8) (len : Nat) : Run (ClientParts μ ω ε α) := do
  let audio ← Mumble.udpCb lib.opusDecoder s.audio buf len
  let answered := s.audio.pinger.lastAttempt.waiting && !audio.pinger.lastAttempt.waiting
  let count := s.audio.heard.length
  let s := { s with audio }
  (if answered then s.record .confirmed else s).onAudio lib application carrier count

/-- `alloc_cb` and `recv_cb`, with the callback before the buffer is given back. The
array `out` holds the plaintext and `behind` it what has been left there. -/
def receive (s : ClientParts μ ω ε α) (buf : List UInt8) (nread : Int) (behind : List UInt8) :
    Run (ClientParts μ ω ε α) := do
  let (base, udp) ← allocCb s.audio.udp
  let (udp, delivered) ←
    (if 0 < nread then udpSslDecrypt lib.aes udp buf (toSize nread) else .ok (udp, none))
  let s := { s with audio := { s.audio with udp } }
  let s ← (match delivered with
    | none => .ok s
    | some plaintext =>
      let out := plaintext.buff ++ behind.take (10240 - plaintext.buff.length)
      s.udpCb lib application carrier out plaintext.len)
  let bufferPool ← bufferPoolRelease s.audio.udp.bufferPool base
  .ok { s with audio := { s.audio with udp := { s.audio.udp with bufferPool } } }

/-- `mumble_message_internal` in the client. -/
def messageInternal (s : ClientParts μ ω ε α) (type : Int) (message : Option μ) :
    Run (ClientParts μ ω ε α) := do
  let (audio, timers) ←
    mumbleMessageInternal s.now s.audio s.timers type (message.map lib.cryptSetup)
  let s := { s with audio, timers }
  .ok (if type = typeCryptSetup then s.record (.keys audio.udp.cipher) else s)

/-- `mumble_client_on_ping`. libuv sets the repeating timer first. -/
def onPing (s : ClientParts μ ω ε α) (time : UInt64) : Run (ClientParts μ ω ε α) :=
  ({ s with pingDue := some (s.now + pingRepeat) }).clientWrite lib carrier (lib.ping (intTime time))

/-- `mumble_connect_cb_adapter`. The address that `mumble_audio_start` asks for is not
used here. -/
def connectCbAdapter (s : ClientParts μ ω ε α) (malloc : Nat → Bool) (time : UInt64) :
    Run (ClientParts μ ω ε α) := do
  let s := { s with pingDue := some (s.now + pingDelay) }
  let s ← s.clientWrite lib carrier (lib.version (((1 : UInt32) <<< 16) ||| ((2 : UInt32) <<< 8) ||| 5))
  let username ← dupstr malloc s.nick
  let s ← s.clientWrite lib carrier (lib.authenticate username)
  s.clientWrite lib carrier (lib.ping (intTime time))

/-- `period_timer_cb` in the client. -/
def period (s : ClientParts μ ω ε α) (time timeAgain : UInt64) : Run (ClientParts μ ω ε α) := do
  let pinger := { s.pinger with periodDue := some (s.now + s.timers.pingPeriod) }
  let (pinger, udp, datagram) ←
    periodTimerCb lib.aes carrier.trySend s.now time timeAgain pinger s.audio.udp
  let s := { s with
    audio := { s.audio with udp, pinger := pinger.toUdpPing }
    timers := pinger.toPingTimers }
  .ok (s.record (.ping (pinger.pingBuf.take (datagram.length - 4)) datagram))

/-- `reply_timer_cb` in the client. -/
def timeout (s : ClientParts μ ω ε α) : ClientParts μ ω ε α :=
  let pinger := replyTimerCb { s.audio.pinger with replyTimer := false }
  ({ s with audio := { s.audio with pinger } }).record .lost

end ClientParts

/-- The handlers of the control stream in the client. -/
def clientHandlers : Handlers (ClientParts μ ω ε α) μ where
  audioDecode s buf len := do
    let audio ← s.audio.decode lib.opusDecoder buf len
    ({ s with audio }).onAudio lib application carrier s.audio.heard.length
  unpack := unpackMessage lib.protobuf
  messageInternal := ClientParts.messageInternal lib
  onMessage := application.onMessage.map fun cb s type message =>
    let (app, all) := cb s.app type message
    ({ s with app }).calls lib carrier all

/-- What happens to a client: the handshake ends, its connections receive something,
the application calls it at a time of its own, a timer expires, or none of these. -/
inductive ClientEvent (μ : Type) where
  | connected (malloc : Nat → Bool) (time : UInt64)
  | chunk (buf : List UInt8)
  | datagram (buf : List UInt8) (nread : Int) (behind : List UInt8)
  | call (call : ClientCall μ)
  | wait (ms : Nat)
  | ping (time : UInt64)
  | period (time timeAgain : UInt64)
  | timeout

/-- Timers expire exactly at their deadlines, which time does not pass before. -/
def ClientParts.Possible (s : ClientParts μ ω ε α) : ClientEvent μ → Prop
  | .wait ms => ∀ due ∈ s.pingDue.toList ++ s.pinger.deadlines, s.now + ms ≤ due
  | .ping _ => s.pingDue = some s.now
  | .period _ _ => s.timers.periodDue = some s.now
  | .timeout => s.audio.pinger.replyTimer = true ∧ s.timers.replyDue = s.now
  | _ => True

instance (s : ClientParts μ ω ε α) : (event : ClientEvent μ) → Decidable (s.Possible event)
  | .wait _ => inferInstanceAs (Decidable (∀ _ ∈ _, _))
  | .ping _ => inferInstanceAs (Decidable (_ = _))
  | .period _ _ => inferInstanceAs (Decidable (_ = _))
  | .timeout => inferInstanceAs (Decidable (_ ∧ _))
  | .connected _ _ | .chunk _ | .datagram _ _ _ | .call _ => inferInstanceAs (Decidable True)

def MumbleClient.step (client : MumbleClient μ ω ε α) (event : ClientEvent μ) :
    Run (MumbleClient μ ω ε α) :=
  let within (run : Run (ClientParts μ ω ε α)) : Run (MumbleClient μ ω ε α) := do
    let state ← run
    .ok { client with state }
  match event with
  | .connected malloc time => within (client.state.connectCbAdapter lib carrier malloc time)
  | .chunk buf => mumbleMessageCbAdapter (clientHandlers lib application carrier) client buf buf.length
  | .datagram buf nread behind => within (client.state.receive lib application carrier buf nread behind)
  | .call call => within (client.state.call lib carrier call)
  | .wait ms => within (.ok { client.state with now := client.state.now + ms })
  | .ping time => within (client.state.onPing lib carrier time)
  | .period time timeAgain => within (client.state.period lib carrier time timeAgain)
  | .timeout => within (.ok client.state.timeout)

/-- The runs of a client, each event with what the network answers. -/
def MumbleClient.Reaches : MumbleClient μ ω ε α → List (Carrier × ClientEvent μ) →
    MumbleClient μ ω ε α → Prop :=
  Transition.Reaches fun client event next =>
    client.state.Possible event.2 ∧ client.step lib application event.1 event.2 = .ok next

/-- One event after the other, as long as they are possible. -/
def MumbleClient.play (client : MumbleClient μ ω ε α) : List (Carrier × ClientEvent μ) → Option (MumbleClient μ ω ε α)
  | [] => some client
  | (carrier, event) :: events =>
    if client.state.Possible event then
      match client.step lib application carrier event with
      | .ok next => next.play events
      | .error _ => none
    else none

theorem MumbleClient.play_reaches {client final : MumbleClient μ ω ε α} {events : List (Carrier × ClientEvent μ)}
    (played : client.play lib application events = some final) :
    client.Reaches lib application events final := by
  induction events generalizing client with
  | nil =>
    cases played
    exact .refl
  | cons event events ih =>
    rw [play] at played
    split at played
    next possible =>
      split at played
      next next stepped =>
        have first : client.Reaches lib application [event] next :=
          .single ⟨possible, stepped⟩
        exact Transition.Reaches.trans first (ih played)
      next => cases played
    next => cases played

end

/-- `uv_udp_ssl_init`, which clears the cipher. -/
def uvUdpSslInit (buffers : List Nat) (distinct : buffers.Nodup) : UdpSsl where
  cipher := ⟨.replicate 16 0, zeroBlock, zeroBlock, 0, by decide⟩
  cb := false
  bufferPool := bufferPoolInit buffers 1024 distinct

/-- The `audio_buffer_size` for `48000` and `20`, the product taken as exact. -/
def clientFrameSize : FrameSize := ⟨48000 * 20 / 1000, by decide, by decide⟩

/-- What the parts of a client are made of: the addresses of the two buffers of its UDP
connection, memory, and the states of libopus and of the application. -/
structure ClientMemory (ω ε α : Type) where
  first : Nat
  second : Nat
  distinct : [first, second].Nodup
  nick : List UInt8
  opusDecoder : ω
  opusEncoder : ε
  codecOut : Memory clientFrameSize.bytes
  framedOut : Memory clientFrameSize.bytes
  frame : Memory frameMaxSize
  app : α

/-- `mumble_client_init` at the time `now`, with `mumble_audio_init`. -/
def mumbleClientInit {μ ω ε α : Type} (memory : ClientMemory ω ε α) (now : Nat) : Run (MumbleClient μ ω ε α) := do
  let pinger ← mumbleUdpPingInit
  let audio : Audio ω := {
    udp := udpSslSetCb (uvUdpSslInit [memory.first, memory.second] memory.distinct)
    cb := true
    decoder := mumbleAudioDecoderSetCb (mumbleAudioDecoderInit memory.opusDecoder)
    pinger := pinger.toUdpPing
    heard := [] }
  .ok {
    decoder := mumbleFrameInit
    state := {
      now
      nick := memory.nick
      audio
      timers := pinger.toPingTimers
      voice := mumbleAudioEncoderInit memory.opusEncoder clientFrameSize memory.codecOut memory.framedOut
      encoder := ⟨memory.frame, 0, memory.frame.property⟩
      pingDue := none
      app := memory.app
      log := [] } }

end Mumble

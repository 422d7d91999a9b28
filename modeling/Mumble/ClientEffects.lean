import Mumble.Faults

/-! What can happen to the parts of a client, one effect at a time. A property that
every effect keeps holds in every state of every run, and no run calls `abort`. -/
namespace Mumble
open CExec Bytes

attribute [local irreducible] Avoids

namespace ClientParts
variable {μ ω ε α : Type}

/-- The two things that every write of voice relies on. -/
structure Equipped (s : ClientParts μ ω ε α) : Prop where
  ready : Ready s.audio.udp
  framedOut : s.voice.opus.framedOut.length = clientFrameSize.bytes

/-- The frame of a packet on the control connection. -/
def tunnelOf (packet : List UInt8) : List UInt8 :=
  ofBigEndian 2 typeUdptunnel.toNat ++ ofBigEndian 4 packet.length ++ packet

/-- The datagram that a packet would be sent in. -/
def nextDatagram (aes : Aes) (s : ClientParts μ ω ε α) (packet : List UInt8) : List UInt8 :=
  datagramOf (aes s.audio.udp.cipher.key) s.audio.udp.cipher.nextEnc.encIv packet

def setUdp (s : ClientParts μ ω ε α) (udp : UdpSsl) : ClientParts μ ω ε α :=
  { s with audio := { s.audio with udp } }

def setCipher (s : ClientParts μ ω ε α) (cipher : OcbAes) : ClientParts μ ω ε α :=
  s.setUdp { s.audio.udp with cipher }

def setPool (s : ClientParts μ ω ε α) (bufferPool : BufferPool) : ClientParts μ ω ε α :=
  s.setUdp { s.audio.udp with bufferPool }

def setPing (s : ClientParts μ ω ε α) (pinger : UdpPing) : ClientParts μ ω ε α :=
  { s with audio := { s.audio with pinger } }

/-- A datagram with a packet that the next IV encrypts. -/
def emit (aes : Aes) (s : ClientParts μ ω ε α) (packet : List UInt8)
    (incident : List UInt8 → List UInt8 → Incident μ) : ClientParts μ ω ε α :=
  (s.setCipher s.audio.udp.cipher.nextEnc).record (incident packet (s.nextDatagram aes packet))

/-- Both ways of a packet keep `P`. -/
structure Sends (lib : Libraries μ ω ε) (P : ClientParts μ ω ε α → Prop) : Prop where
  tunnel : ∀ {s packet}, P s → s.audio.pinger.connected = false → packet.length ≤ 1020 →
    P (s.record (.tunnel packet (tunnelOf packet)))
  datagram : ∀ {s packet}, P s → s.audio.pinger.connected = true → packet.length ≤ 1020 →
    P (s.emit lib.aes packet .voice)

/-- So does all else that becomes of a call of the sender, effect by effect. -/
structure Speaks (lib : Libraries μ ω ε) (P : ClientParts μ ω ε α → Prop) : Prop extends Sends lib P where
  supply : ∀ {s speech}, P s → P (s.record (.spoke speech))
  voice : ∀ {s voice}, P s → P { s with voice }

/-- The pinger after the reply to its attempt. -/
def confirmed (s : ClientParts μ ω ε α) : ClientParts μ ω ε α :=
  (s.setPing {
    connected := true
    lastAttempt := { s.audio.pinger.lastAttempt with waiting := false }
    replyTimer := false }).record .confirmed

/-- New keys, and a pinger that is due. -/
def rekeyed (s : ClientParts μ ω ε α) (udp : UdpSsl) : ClientParts μ ω ε α :=
  ({ s.setUdp udp with timers := mumbleUdpPingStart s.now s.timers }).record (.keys udp.cipher)

/-- The pinger with an attempt outstanding, before its datagram is sent. -/
def attempting (s : ClientParts μ ω ε α) (time : UInt64) (pingBuf : List UInt8) : ClientParts μ ω ε α :=
  { s.setPing { s.audio.pinger with lastAttempt := ⟨time, true⟩, replyTimer := true } with
    timers := { s.timers with
      periodDue := some (s.now + s.timers.pingPeriod)
      replyDue := s.now + s.timers.timeout
      pingBuf } }

/-- The messages that an application writes. -/
structure AppWrites (application : Application μ α) (Q : ClientParts μ ω ε α → μ → Prop) : Prop where
  onMessage : ∀ cb, application.onMessage = some cb →
    ∀ app type message other, ClientCall.write other ∈ (cb app type message).2 → ∀ s, Q s other
  onAudio : ∀ cb, application.onAudio = some cb →
    ∀ app packet other, ClientCall.write other ∈ (cb app packet).2 → ∀ s, Q s other

/-- Those and the messages that the client writes of its own, each in a state. -/
structure Writes (lib : Libraries μ ω ε) (application : Application μ α) (Q : ClientParts μ ω ε α → μ → Prop) :
    Prop extends AppWrites application Q where
  version : ∀ s v, Q s (lib.version v)
  authenticate : ∀ s malloc username, dupstr malloc s.nick = .ok username → Q s (lib.authenticate username)
  ping : ∀ s time, Q s (lib.ping time)

def EventWrites (Q : ClientParts μ ω ε α → μ → Prop) : ClientEvent μ → Prop
  | .call (.write message) => ∀ s, Q s message
  | _ => True

/-- Every effect keeps `P`, if the messages that are written are in `Q`. -/
structure Steady (lib : Libraries μ ω ε) (Q : ClientParts μ ω ε α → μ → Prop) (P : ClientParts μ ω ε α → Prop) :
    Prop where
  app : ∀ {s app}, P s → P { s with app }
  pingDue : ∀ {s pingDue}, P s → P { s with pingDue }
  control : ∀ {s message encoder}, Q s message → P s →
    mumbleFrameEncode lib.protobuf s.encoder message = .ok encoder →
    P (({ s with encoder }).record (.control message encoder.written))
  speak : ∀ {s carrier speech t}, P s → s.Equipped → s.clientWriteAudio lib carrier speech = .ok t → P t
  listen : ∀ {s decoder heard}, P s → P { s with audio := { s.audio with decoder, heard } }
  pool : ∀ {s pool}, P s → P (s.setPool pool)
  opened : ∀ {s}, P s → P (s.setCipher s.audio.udp.cipher.nextDec)
  confirmed : ∀ {s}, P s → s.audio.pinger.lastAttempt.waiting = true → P s.confirmed
  rekeyed : ∀ {s key encIv decIv ivlen udp}, P s →
    udpSslSetEncryption s.audio.udp key encIv decIv ivlen = .ok udp → P (s.rekeyed udp)
  waited : ∀ {s ms}, P s → s.Possible (.wait ms : ClientEvent μ) → P { s with now := s.now + ms }
  attempted : ∀ {s time pingBuf packet}, P s → s.timers.periodDue = some s.now →
    P ((s.attempting time pingBuf).emit lib.aes packet .ping)
  timeout : ∀ {s}, P s → s.Possible (.timeout : ClientEvent μ) → P s.timeout

/-- What a part of an event leaves: the buffers are those of before. -/
structure Kept (P : ClientParts μ ω ε α → Prop) (pool : BufferPool) (s : ClientParts μ ω ε α) : Prop where
  holds : P s
  equipped : s.Equipped
  pool : s.audio.udp.bufferPool = pool

section Speaking
variable {lib : Libraries μ ω ε} {carrier : Carrier} {P : ClientParts μ ω ε α → Prop} {pool : BufferPool}
  {s : ClientParts μ ω ε α}

theorem Equipped.setCipher (equipped : s.Equipped) (cipher : OcbAes) : (s.setCipher cipher).Equipped :=
  ⟨equipped.ready.cipher cipher, equipped.framedOut⟩

theorem Equipped.record (equipped : s.Equipped) (incident : Incident μ) : (s.record incident).Equipped :=
  ⟨equipped.ready, equipped.framedOut⟩

theorem tunnelFrame_unaborted (buf : List UInt8) {size : Nat} (short : size ≤ 1020) :
    Avoids .aborted (tunnelFrame buf size) fun frame => frame = tunnelOf (buf.take size) := by
  have whole : toInt (toUnsigned (size + 6)) = size + 6 := by
    rw [toUnsigned_of_small (by omega) (by omega), toInt_of_small] <;> omega
  rw [tunnelFrame, whole]
  refine .require (by decide) fun _ => .slice (by decide) fun inside => .ok ?_
  rw [tunnelOf, List.length_take_of_le inside]

theorem sslWrite_kept (bytes : List UInt8) (incident : Incident μ) :
    Avoids .aborted (s.sslWrite carrier bytes incident) fun t => t = s.record incident :=
  .require (by decide) fun _ => .ok rfl

/-- A packet goes by one of the two ways. -/
theorem encoderCb_kept (sends : Sends lib P) (kept : Kept P pool s) (buf : List UInt8) {size : Nat}
    (short : size ≤ 1020) : Avoids .aborted (s.encoderCb lib carrier buf size) (Kept P pool) := by
  have bounded : (buf.take size).length ≤ 1020 := (List.length_take_le _ _).trans short
  unfold encoderCb Mumble.encoderCb
  cases way : s.audio.pinger.connected with
  | true =>
    rw [if_pos rfl, bind_assoc]
    refine (udpSslWrite_unaborted _ kept.equipped.ready _ short).bind fun _ ⟨_, sent⟩ => ?_
    rw [sent]
    exact .ok ⟨sends.datagram kept.holds way bounded, (kept.equipped.setCipher _).record _, kept.pool⟩
  | false =>
    rw [if_neg nofun, bind_assoc]
    refine (tunnelFrame_unaborted buf short).bind fun frame same => ?_
    rw [same]
    refine (sslWrite_kept _ _).mono fun t after => ?_
    rw [after]
    exact ⟨sends.tunnel kept.holds way bounded, kept.equipped.record _, kept.pool⟩

theorem clientWriteAudio_kept (speaks : Speaks lib P) (kept : Kept P pool s) (speech : Speech) :
    Avoids .aborted (s.clientWriteAudio lib carrier speech) (Kept P pool) := by
  have supplied : Kept P pool (s.record (.spoke speech)) :=
    ⟨speaks.supply kept.holds, kept.equipped.record _, kept.pool⟩
  refine (mumbleAudioEncoderEncode_unaborted (by decide)
    (fun s buf size kept short => encoderCb_kept speaks.toSends kept buf short) kept.equipped.framedOut _ _ _
    supplied).bind fun after ⟨framedOut, kept⟩ => .ok ?_
  exact ⟨speaks.voice kept.holds, ⟨kept.equipped.ready, framedOut⟩, kept.pool⟩

/-- A property of the ways that packets go is kept by whole calls of the sender. -/
theorem Speaks.speak (speaks : Speaks lib P) (holds : P s) (equipped : s.Equipped) {speech : Speech}
    {t : ClientParts μ ω ε α} (run : s.clientWriteAudio lib carrier speech = .ok t) : P t :=
  ((clientWriteAudio_kept speaks ⟨holds, equipped, rfl⟩ speech).result run).holds

end Speaking

section Steps
variable {lib : Libraries μ ω ε} {application : Application μ α} {carrier : Carrier}
  {Q : ClientParts μ ω ε α → μ → Prop} {P : ClientParts μ ω ε α → Prop} {pool : BufferPool} {s : ClientParts μ ω ε α}

theorem clientWrite_kept (steady : Steady lib Q P) (kept : Kept P pool s) {message : μ} (written : Q s message) :
    Avoids .aborted (s.clientWrite lib carrier message) (Kept P pool) := by
  refine (mumbleFrameEncode_unaborted s.encoder message).returned.bind fun encoder encoded => ?_
  refine (sslWrite_kept _ _).mono fun t after => ?_
  rw [after]
  exact ⟨steady.control written kept.holds encoded, ⟨kept.equipped.ready, kept.equipped.framedOut⟩, kept.pool⟩

/-- Any property is carried through the ways that packets go when all are. -/
theorem speaks_true : Speaks lib fun _ : ClientParts μ ω ε α => True :=
  ⟨⟨fun _ _ _ => trivial, fun _ _ _ => trivial⟩, fun _ => trivial, fun _ => trivial⟩

theorem call_kept (steady : Steady lib Q P) (kept : Kept P pool s) (call : ClientCall μ)
    (written : ∀ message, .write message = call → Q s message) :
    Avoids .aborted (s.call lib carrier call) (Kept P pool) := by
  cases call with
  | write message => exact clientWrite_kept steady kept (written message rfl)
  | writeAudio speech =>
    have sent := @clientWriteAudio_kept _ _ _ _ lib carrier _ pool s speaks_true
      ⟨trivial, kept.equipped, kept.pool⟩ speech
    exact (sent.and sent.returned).mono fun t ⟨same, run⟩ =>
      ⟨steady.speak kept.holds kept.equipped run, same.equipped, same.pool⟩

theorem calls_kept (steady : Steady lib Q P) (kept : Kept P pool s) {all : List (ClientCall μ)}
    (written : ∀ message, .write message ∈ all → ∀ s, Q s message) :
    Avoids .aborted (s.calls lib carrier all) (Kept P pool) :=
  .foldlM (fun _ call member kept => call_kept steady kept call fun message same =>
    written message (same ▸ member) _)
    kept

theorem onAudio_kept (steady : Steady lib Q P) (writes : Writes lib application Q) (kept : Kept P pool s)
    (count : Nat) : Avoids .aborted (s.onAudio lib application carrier count) (Kept P pool) := by
  refine .foldlM (fun s packet _ kept => ?_) kept
  cases callback : application.onAudio with
  | none => exact .ok kept
  | some cb =>
    have called : Kept P pool { s with app := (cb s.app packet).1 } :=
      ⟨steady.app kept.holds, ⟨kept.equipped.ready, kept.equipped.framedOut⟩, kept.pool⟩
    exact calls_kept steady called (writes.onAudio cb callback s.app packet)

theorem listen_kept (steady : Steady lib Q P) (kept : Kept P pool s) (decoder : AudioDecoder ω)
    (heard : List AudioPacket) : Kept P pool { s with audio := { s.audio with decoder, heard } } :=
  ⟨steady.listen kept.holds, ⟨⟨kept.equipped.ready.callback, kept.equipped.ready.free,
    kept.equipped.ready.size⟩, kept.equipped.framedOut⟩, kept.pool⟩

/-- A reply confirms the link, or nothing happens. -/
theorem mumbleUdpPingRecv_cases (ping : UdpPing) (timestamp : UInt64) :
    (ping.lastAttempt.waiting = true ∧ (mumbleUdpPingRecv ping timestamp).lastAttempt.waiting = false ∧
      mumbleUdpPingRecv ping timestamp = { 
        connected := true
        lastAttempt := { ping.lastAttempt with waiting := false }
        replyTimer := false }) ∨
    mumbleUdpPingRecv ping timestamp = ping := by
  unfold mumbleUdpPingRecv
  split
  next waiting =>
    split
    · exact .inl ⟨waiting, rfl, rfl⟩
    · exact .inr rfl
  next => exact .inr rfl

theorem udpCb_kept (steady : Steady lib Q P) (writes : Writes lib application Q) (kept : Kept P pool s)
    (buf : List UInt8) (len : Nat) : Avoids .aborted (s.udpCb lib application carrier buf len) (Kept P pool) := by
  unfold udpCb
  refine Avoids.bind (?_ : Avoids _ _ fun audio =>
    (∃ decoder heard, audio = { s.audio with decoder, heard }) ∨
      ∃ timestamp, audio = { s.audio with pinger := mumbleUdpPingRecv s.audio.pinger timestamp }) ?_
  · refine .load (by decide) fun b _ => ?_
    split
    · refine (varintDecode_unaborted _ _ _).bind fun decoded _ => .require (by decide) fun _ => .ok ?_
      exact .inr ⟨_, rfl⟩
    · exact (decode_unaborted _ _ _).mono fun audio same => .inl same
  · rintro audio (⟨decoder, heard, rfl⟩ | ⟨timestamp, rfl⟩)
    · refine onAudio_kept steady writes ?_ _
      rw [if_neg (by rw [Bool.and_not_self]; exact Bool.false_ne_true)]
      exact listen_kept steady kept decoder heard
    · refine onAudio_kept steady writes ?_ _
      rcases mumbleUdpPingRecv_cases s.audio.pinger timestamp with ⟨waiting, quiet, after⟩ | same
      · dsimp only
        rw [if_pos (by rw [waiting, quiet]; rfl), after]
        exact ⟨steady.confirmed kept.holds waiting,
          ⟨kept.equipped.ready, kept.equipped.framedOut⟩, kept.pool⟩
      · dsimp only
        rw [same, if_neg (by rw [Bool.and_not_self]; exact Bool.false_ne_true)]
        exact kept

theorem udpSslSetEncryption_unaborted (conn : UdpSsl) (key encIv decIv : List UInt8) (ivlen : Nat) :
    Avoids .aborted (udpSslSetEncryption conn key encIv decIv ivlen) fun after =>
      ∃ cipher, after = { conn with cipher } :=
  (ocbAesSetKeys_unaborted _ _ _ _ _).bind fun _ _ => .ok ⟨_, rfl⟩

theorem messageInternal_kept (steady : Steady lib Q P) (kept : Kept P pool s) (type : Int)
    (message : Option μ) : Avoids .aborted (s.messageInternal lib type message) (Kept P pool) := by
  unfold messageInternal mumbleMessageInternal
  by_cases crypt : type = typeCryptSetup
  · have voice : ¬ type = typeUdptunnel := by
      rw [crypt]
      decide
    rw [if_neg voice, if_pos crypt]
    cases message with
    | none => exact .error (by decide)
    | some message =>
      refine Avoids.bind (?_ : Avoids _ _ fun after => ∃ key encIv decIv ivlen udp,
        udpSslSetEncryption s.audio.udp key encIv decIv ivlen = .ok udp ∧
          after = ({ s.audio with udp }, mumbleUdpPingStart s.now s.timers)) ?_
      · refine .require (by decide) fun _ => .require (by decide) fun _ => .require (by decide) fun _ => ?_
        exact (udpSslSetEncryption_unaborted _ _ _ _ _).returned.bind fun udp set =>
          .ok ⟨_, _, _, _, udp, set, rfl⟩
      · rintro _ ⟨key, encIv, decIv, ivlen, udp, set, rfl⟩
        obtain ⟨cipher, same⟩ := (udpSslSetEncryption_unaborted _ _ _ _ _).result set
        dsimp only
        rw [if_pos crypt]
        refine .ok ⟨steady.rekeyed kept.holds set, ?_, ?_⟩
        · subst same
          exact ⟨kept.equipped.ready.cipher cipher, kept.equipped.framedOut⟩
        · subst same
          exact kept.pool
  · rw [if_neg crypt, ite_self, ok_bind]
    dsimp only
    rw [if_neg crypt]
    exact .ok kept

/-- A round of the control stream, and all of them. -/
theorem adapterRound_kept (steady : Steady lib Q P) (writes : Writes lib application Q)
    (client : MumbleClient μ ω ε α) (kept : Kept P pool client.state) :
    Avoids .aborted (adapterRound (clientHandlers lib application carrier) client) fun next =>
      Kept P pool next.state := by
  unfold adapterRound
  split
  · refine Avoids.bind (?_ : Avoids _ _ (Kept P pool)) fun state kept => .ok kept
    refine (decode_unaborted _ _ _).bind ?_
    rintro audio ⟨decoder, heard, rfl⟩
    exact onAudio_kept steady writes (listen_kept steady kept decoder heard) _
  · refine Avoids.bind (?_ : Avoids _ _ fun decoded => Kept P pool decoded.2.2.1) fun decoded kept => ?_
    · unfold mumbleFrameDecode
      split
      · exact .ok kept
      · refine (unpackMessage_unaborted _ _ _ _).bind fun unpacked same => .ok ?_
        rw [same]
        exact kept
    · dsimp only
      split
      · refine (messageInternal_kept steady kept _ _).bind fun state kept => ?_
        unfold clientHandlers
        dsimp only
        cases callback : application.onMessage with
        | none => exact .ok kept
        | some cb =>
          refine Avoids.bind (calls_kept steady (?_ : Kept P pool { state with app := _ })
            (writes.onMessage cb callback _ _ _)) fun state kept => .ok kept
          exact ⟨steady.app kept.holds, ⟨kept.equipped.ready, kept.equipped.framedOut⟩, kept.pool⟩
      · exact .ok kept

theorem adapterLoop_kept (steady : Steady lib Q P) (writes : Writes lib application Q) (rounds : Nat)
    (client : MumbleClient μ ω ε α) (kept : Kept P pool client.state) :
    Avoids .aborted (adapterLoop (clientHandlers lib application carrier) rounds client) fun next =>
      Kept P pool next.state := by
  induction rounds generalizing client with
  | zero => exact .error (by decide)
  | succ rounds ih =>
    unfold adapterLoop
    split
    · exact (adapterRound_kept steady writes client kept).bind fun next kept => ih next kept
    · exact .ok kept

theorem mumbleMessageCbAdapter_kept (steady : Steady lib Q P) (writes : Writes lib application Q)
    (client : MumbleClient μ ω ε α) (kept : Kept P pool client.state) (buf : List UInt8) (size : Int) :
    Avoids .aborted (mumbleMessageCbAdapter (clientHandlers lib application carrier) client buf size)
      fun next => Kept P pool next.state := by
  refine Avoids.bind (?_ : Unaborted _) fun appended _ => adapterLoop_kept steady writes _ _ kept
  refine .slice (by decide) fun _ => ?_
  split
  · exact .ok trivial
  · exact .error (by decide)

theorem setPool_kept (steady : Steady lib Q P) (kept : Kept P pool s) {other : BufferPool}
    (free : other.inUse < other.buffers.length) (size : 1024 ≤ other.size) :
    Kept P other (s.setPool other) :=
  ⟨steady.pool kept.holds, ⟨⟨kept.equipped.ready.callback, free, size⟩, kept.equipped.framedOut⟩, rfl⟩

theorem udpSslDecrypt_unaborted (conn : UdpSsl) (buf : List UInt8) (len : Nat) :
    Avoids .aborted (udpSslDecrypt lib.aes conn buf len) fun after =>
      after.1 = { conn with cipher := conn.cipher.nextDec } := by
  refine .load (by decide) fun _ _ => .load (by decide) fun _ _ => .load (by decide) fun _ _ =>
    .load (by decide) fun _ _ => ?_
  refine Avoids.bind (?_ : Unaborted _) fun opened _ => .require (by decide) fun _ => .ok rfl
  refine (ocb2Blocks_unaborted _ _ _ _).bind fun read _ => ?_
  exact (ocb2EncryptBlockFinal_unaborted _ _ _ _).bind fun last _ => .ok trivial

/-- A reception holds a buffer while the application is called, which leaves one for
what it sends. -/
theorem receive_kept (steady : Steady lib Q P) (writes : Writes lib application Q) (kept : Kept P pool s)
    (spare : pool.inUse + 1 < pool.buffers.length) (buf : List UInt8) (nread : Int)
    (behind : List UInt8) : Avoids .aborted (s.receive lib application carrier buf nread behind) (Kept P pool) := by
  have free : pool.inUse < pool.buffers.length := Nat.lt_of_succ_lt spare
  have size : 1024 ≤ pool.size := kept.pool ▸ kept.equipped.ready.size
  obtain ⟨base, held, acquired, same, used, count, released⟩ := bufferPoolAcquire_free free
  have room : held.inUse < held.buffers.length := by
    rw [used, count]
    exact spare
  have holding := setPool_kept steady kept room (same ▸ size)
  have allocated : allocCb s.audio.udp = .ok (base, { s.audio.udp with bufferPool := held }) := by
    rw [allocCb, kept.pool, acquired]
  rw [receive, allocated, ok_bind]
  dsimp only
  refine Avoids.bind (?_ : Avoids _ _ fun read => Kept P held (s.setUdp read.1)) fun read kept => ?_
  · split
    · refine (udpSslDecrypt_unaborted _ _ _).mono fun read after => ?_
      rw [after]
      exact ⟨steady.opened holding.holds, holding.equipped.setCipher _, holding.pool⟩
    · exact .ok holding
  · refine Avoids.bind (?_ : Avoids _ _ (Kept P held)) fun t kept => ?_
    · cases read.2 with
      | none => exact .ok kept
      | some plaintext => exact udpCb_kept steady writes kept _ _
    · rw [kept.pool, released]
      exact .ok (setPool_kept steady kept free size)

/-- An attempt sends what its buffer starts with. -/
theorem period_kept (steady : Steady lib Q P) (kept : Kept P pool s)
    (due : s.timers.periodDue = some s.now) (time timeAgain : UInt64) :
    Avoids .aborted (s.period lib carrier time timeAgain) (Kept P pool) := by
  refine (periodTimerCb_unaborted _ _ _ _ _ kept.equipped.ready).bind ?_
  rintro _ ⟨pingBuf, size, inside, rfl⟩
  have packet : pingBuf.take ((datagramOf (lib.aes s.audio.udp.cipher.key)
      s.audio.udp.cipher.nextEnc.encIv (pingBuf.take size)).length - 4) = pingBuf.take size := by
    rw [datagramOf_length, Nat.add_sub_cancel, List.length_take_of_le inside]
  refine .ok ?_
  dsimp only
  rw [packet]
  have begun : (s.attempting time pingBuf).Equipped := ⟨kept.equipped.ready, kept.equipped.framedOut⟩
  exact ⟨steady.attempted kept.holds due, (begun.setCipher _).record _, kept.pool⟩

theorem pingDue_kept (steady : Steady lib Q P) (kept : Kept P pool s) (pingDue : Option Nat) :
    Kept P pool { s with pingDue } :=
  ⟨steady.pingDue kept.holds, ⟨kept.equipped.ready, kept.equipped.framedOut⟩, kept.pool⟩

theorem connectCbAdapter_kept (steady : Steady lib Q P) (writes : Writes lib application Q) (kept : Kept P pool s)
    (malloc : Nat → Bool) (time : UInt64) :
    Avoids .aborted (s.connectCbAdapter lib carrier malloc time) (Kept P pool) := by
  refine (clientWrite_kept steady (pingDue_kept steady kept _) (writes.version _ _)).bind fun t kept => ?_
  have duplicated : Unaborted (dupstr malloc t.nick) := .require (by decide) fun _ => .ok trivial
  refine duplicated.returned.bind fun username named => ?_
  exact (clientWrite_kept steady kept (writes.authenticate t malloc username named)).bind fun t kept =>
    clientWrite_kept steady kept (writes.ping _ _)

/-- One event, of which nothing calls `abort`. -/
theorem step_kept (steady : Steady lib Q P) (writes : Writes lib application Q) (client : MumbleClient μ ω ε α)
    (kept : Kept P pool client.state) (spare : pool.inUse + 1 < pool.buffers.length)
    {event : ClientEvent μ} (possible : client.state.Possible event) (written : EventWrites Q event) :
    Avoids .aborted (client.step lib application carrier event) fun next => Kept P pool next.state := by
  have within {run : Run (ClientParts μ ω ε α)} (keeps : Avoids .aborted run (Kept P pool)) :
      Avoids .aborted (run >>= fun state => .ok { client with state } : Run (MumbleClient μ ω ε α))
        fun next => Kept P pool next.state :=
    keeps.bind fun state kept => .ok kept
  cases event with
  | connected malloc time => exact within (connectCbAdapter_kept steady writes kept malloc time)
  | chunk buf => exact mumbleMessageCbAdapter_kept steady writes client kept buf _
  | datagram buf nread behind => exact within (receive_kept steady writes kept spare buf nread behind)
  | call call =>
    refine within (call_kept steady kept call fun message same => ?_)
    subst same
    exact written _
  | wait ms =>
    exact within (.ok ⟨steady.waited kept.holds possible,
      ⟨kept.equipped.ready, kept.equipped.framedOut⟩, kept.pool⟩)
  | ping time => exact within (clientWrite_kept steady (pingDue_kept steady kept _) (writes.ping _ _))
  | period time timeAgain => exact within (period_kept steady kept possible time timeAgain)
  | timeout =>
    exact within (.ok ⟨steady.timeout kept.holds possible,
      ⟨kept.equipped.ready, kept.equipped.framedOut⟩, kept.pool⟩)

/-- What every effect keeps holds after every run. -/
theorem Steady.reaches_writing (steady : Steady lib Q P) (writes : Writes lib application Q)
    {client final : MumbleClient μ ω ε α} (kept : Kept P pool client.state)
    (spare : pool.inUse + 1 < pool.buffers.length) {events : List (Carrier × ClientEvent μ)}
    (written : ∀ event ∈ events, EventWrites Q event.2) (run : client.Reaches lib application events final) :
    Kept P pool final.state := by
  induction run with
  | refl => exact kept
  | next _ step ih =>
    have before := ih fun event member => written event (List.mem_append_left _ member)
    have last := written _ (List.mem_append_right _ List.mem_cons_self)
    exact (step_kept steady writes _ before spare step.1 last).result step.2

theorem writes_any (lib : Libraries μ ω ε) (application : Application μ α) :
    Writes lib application fun (_ : ClientParts μ ω ε α) _ => True := by
  refine ⟨⟨?_, ?_⟩, ?_, ?_, ?_⟩ <;> intros <;> trivial

theorem eventWrites_any (event : ClientEvent μ) :
    EventWrites (fun (_ : ClientParts μ ω ε α) _ => True) event := by
  unfold EventWrites
  split
  · exact fun _ => trivial
  · trivial

theorem Steady.reaches (steady : Steady lib (fun _ _ => True) P) {client final : MumbleClient μ ω ε α}
    (kept : Kept P pool client.state) (spare : pool.inUse + 1 < pool.buffers.length)
    {events : List (Carrier × ClientEvent μ)} (run : client.Reaches lib application events final) :
    Kept P pool final.state :=
  steady.reaches_writing (writes_any lib application) kept spare (fun event _ => eventWrites_any event.2) run

end Steps

/-- A client that `mumble_client_init` has just made. -/
structure Fresh (memory : ClientMemory ω ε α) (now : Nat) (s : ClientParts μ ω ε α) : Prop where
  log : s.log = []
  now : s.now = now
  udp : s.audio.udp = udpSslSetCb (uvUdpSslInit [memory.first, memory.second] memory.distinct)
  pinger : s.audio.pinger = ⟨false, ⟨0, false⟩, false⟩
  timers : s.timers = ⟨none, 0, 5000, 1000, 0x20 :: List.replicate 7 0⟩
  voice : s.voice =
    mumbleAudioEncoderInit memory.opusEncoder clientFrameSize memory.codecOut memory.framedOut

variable {memory : ClientMemory ω ε α} {now : Nat} {client : MumbleClient μ ω ε α} {s : ClientParts μ ω ε α}

theorem mumbleClientInit_fresh (init : mumbleClientInit memory now = .ok client) :
    Fresh memory now client.state := by
  cases init
  exact ⟨rfl, rfl, rfl, rfl, rfl, rfl⟩

theorem Fresh.kept {P : ClientParts μ ω ε α → Prop} (fresh : Fresh memory now s) (holds : P s) :
    Kept P s.audio.udp.bufferPool s := by
  refine ⟨holds, ⟨⟨?_, ?_, ?_⟩, ?_⟩, rfl⟩
  · rw [fresh.udp]
    rfl
  · rw [fresh.udp]
    exact Nat.zero_lt_two
  · rw [fresh.udp]
    exact Nat.le_refl _
  · rw [fresh.voice]
    exact memory.framedOut.property

theorem Fresh.spare (fresh : Fresh memory now s) :
    s.audio.udp.bufferPool.inUse + 1 < s.audio.udp.bufferPool.buffers.length := by
  rw [fresh.udp]
  exact Nat.one_lt_two

theorem steady_true (lib : Libraries μ ω ε) :
    Steady lib (fun _ _ => True) fun _ : ClientParts μ ω ε α => True := by
  constructor <;> intros <;> trivial

end ClientParts

/-- Between two events both buffers are free, and whatever comes next, with whatever
answers of libuv, of the TLS connection and of the libraries, it does not end in
`abort`. The write of voice from a callback finds the second buffer while a reception
holds the first, and every packet fits. -/
theorem client_never_aborts {μ ω ε α : Type} (lib : Libraries μ ω ε) (application : Application μ α)
    {memory : ClientMemory ω ε α} {now : Nat} {client final : MumbleClient μ ω ε α}
    (init : mumbleClientInit memory now = .ok client) {events : List (Carrier × ClientEvent μ)}
    (run : client.Reaches lib application events final) :
    final.state.audio.udp.bufferPool = bufferPoolInit [memory.first, memory.second] 1024 memory.distinct ∧
      ∀ carrier event, final.state.Possible event →
        final.step lib application carrier event ≠ .error .aborted := by
  have fresh := ClientParts.mumbleClientInit_fresh init
  have steady := @ClientParts.steady_true μ ω ε α lib
  have kept := steady.reaches (fresh.kept trivial) fresh.spare run
  refine ⟨?_, fun carrier event possible => ?_⟩
  · rw [kept.pool, fresh.udp]
    rfl
  · exact (ClientParts.step_kept steady (ClientParts.writes_any lib application) final kept fresh.spare possible
      (ClientParts.eventWrites_any event)).ne

/-- Libraries that work on messages without fields. Each `CryptSetup` has the same keys. -/
def sampleLibraries : Libraries MessageType Unit UInt8 where
  aes := identityAes
  opusDecoder := silentOpus
  opusEncoder := echoOpus
  protobuf := emptyMessages
  cryptSetup _ := ⟨some (List.replicate 16 0), some [1], some [9]⟩
  version _ := .version
  authenticate _ := .authenticate
  ping _ := .ping

def sampleMemory : ClientMemory Unit UInt8 Unit where
  first := 0x1000
  second := 0x2000
  distinct := by decide
  nick := [0]
  opusDecoder := ()
  opusEncoder := 0
  codecOut := ⟨List.replicate clientFrameSize.bytes 0, List.length_replicate⟩
  framedOut := ⟨List.replicate clientFrameSize.bytes 0, List.length_replicate⟩
  frame := ⟨List.replicate frameMaxSize 0xA5, List.length_replicate⟩
  app := ()

/-- An application that answers whatever it hears with ten milliseconds of silence. -/
def answeringApplication : Application MessageType Unit where
  onMessage := none
  onAudio := some fun _ _ =>
    ((), [.writeAudio ⟨0, List.replicate 480 0, 48000, by rw [List.length_replicate]; decide⟩])

def openCarrier : Carrier := ⟨fun datagram => datagram.length, fun bytes => bytes.length⟩

/-- Keys, a ping with its reply, a voice packet that is heard and answered, and an empty
payload, behind which the array still holds a reply. -/
def sampleEvents : List (Carrier × ClientEvent MessageType) :=
  let received (iv : UInt8) (packet : List UInt8) :=
    datagramOf (Equiv.refl Block) (zeroBlock.overlay [iv]) packet
  [.chunk [0, 15, 0, 0, 0, 0], .period 7 7, .datagram (received 10 [0x20, 7]) 6 [],
    .datagram (received 11 [0x80, 5, 7, 5, 0x80, 2, 3, 4, 5]) 13 [],
    .datagram (received 12 []) 4 [0x20, 7]].map fun event => (openCarrier, event)

/-- What is noted down, without its contents. -/
def Incident.label : Incident μ → String
  | .control _ _ => "control"
  | .tunnel _ _ => "tunnel"
  | .voice _ _ => "voice"
  | .ping _ _ => "ping"
  | .spoke _ => "spoke"
  | .keys _ => "keys"
  | .confirmed => "confirmed"
  | .lost => "lost"

/-- The run is possible, and the answer goes by UDP. -/
theorem sample_run : ∃ client final, mumbleClientInit sampleMemory 0 = .ok client ∧
    client.Reaches sampleLibraries answeringApplication sampleEvents final ∧
    final.state.log.map (fun entry => entry.2.label) = ["keys", "ping", "confirmed", "spoke", "voice"] := by
  have played : ((mumbleClientInit sampleMemory 0).toOption.bind fun client =>
      client.play sampleLibraries answeringApplication sampleEvents).map
        (fun final => final.state.log.map fun entry => entry.2.label) =
      some ["keys", "ping", "confirmed", "spoke", "voice"] := by decide +kernel
  obtain ⟨final, found, labels⟩ := Option.map_eq_some_iff.mp played
  obtain ⟨client, init, run⟩ := Option.bind_eq_some_iff.mp found
  cases started : mumbleClientInit sampleMemory 0 with
  | error fault =>
    rw [started] at init
    cases init
  | ok other =>
    rw [started] at init
    cases init
    exact ⟨client, final, rfl, MumbleClient.play_reaches _ _ run, labels⟩

theorem client_never_aborts_sample : ∃ client final, mumbleClientInit sampleMemory 0 = .ok client ∧
    client.Reaches sampleLibraries answeringApplication sampleEvents final ∧
    final.state.audio.udp.bufferPool = bufferPoolInit [0x1000, 0x2000] 1024 sampleMemory.distinct ∧
      ∀ carrier event, final.state.Possible event →
        final.step sampleLibraries answeringApplication carrier event ≠ .error .aborted := by
  obtain ⟨client, final, init, run, -⟩ := sample_run
  exact ⟨client, final, init, run, client_never_aborts sampleLibraries answeringApplication init run⟩

end Mumble

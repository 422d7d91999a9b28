import Mumble.GeneratedCode

/-! The messages that a client sends of its own. It never sets the `has_` members of the
version and of the timestamp, so that `protobuf-c` leaves both out. -/
namespace MumbleProto
open ProtobufC

/-- `MUMBLE_PROTO__VERSION__INIT` with `version` set. -/
def versionMessage (v : UInt32) : GeneratedMessage where
  type := .version
  message := setMember (messageInit version) ⟨0, by decide⟩ ((false, v) : Bool × UInt32)

/-- `MUMBLE_PROTO__AUTHENTICATE__INIT` with `username`, `opus` and `has_opus` set. -/
def authenticateMessage (username : Option (List UInt8)) : GeneratedMessage where
  type := .authenticate
  message := setMember (setMember (messageInit authenticate) ⟨0, by decide⟩ (username.map CString.ofArray))
    ⟨4, by decide⟩ ((true, true) : Bool × Bool)

/-- `MUMBLE_PROTO__PING__INIT` with `timestamp` set. -/
def pingMessage (timestamp : UInt64) : GeneratedMessage where
  type := .ping
  message := setMember (messageInit ping) ⟨0, by decide⟩ ((false, timestamp) : Bool × UInt64)

/-- The name up to its terminator, if there is one, and that Opus is supported. -/
def authenticatePayload (username : Option (List UInt8)) : List UInt8 :=
  (username.elim [] fun name => 0x0A :: prefixedPack (name.takeWhile (· ≠ 0))) ++ [0x28, 1]

theorem authenticateMessage_pack (username : Option (List UInt8)) :
    protobufC.pack (authenticateMessage username) = authenticatePayload username := by
  let part (i : Fin 5) : List UInt8 :=
    fieldPack (messagePack 1) (authenticate.field i) ((authenticateMessage username).message.member i)
  have whole : protobufC.pack (authenticateMessage username) =
      (part 0 ++ (part 1 ++ (part 2 ++ (part 3 ++ (part 4 ++ []))))) ++ [] := rfl
  have name : part 0 = username.elim [] fun name => 0x0A :: prefixedPack (name.takeWhile (· ≠ 0)) := by
    cases username <;> rfl
  have opus : part 4 = [0x28, 1] := rfl
  rw [whole, List.append_nil, name, opus, authenticatePayload]
  rfl

section Properness

theorem messageInit_proper (t : Mumble.MessageType)
    (free : ∀ i, ((generated t).field i).label ≠ .required) : Proper 2 (generated t) (messageInit (generated t)) := by
  refine ⟨fun i => initialMember_settled _ _ _ (.inl (free i)), fun _ member => absurd member List.not_mem_nil⟩

theorem setMember_settled {δ : Type} {μ : δ → Type} {d : MessageDescriptor δ} {good : (d : δ) → μ d → Prop}
    {m : Record μ d} {i : Fin d.nFields} {value : (d.field i).type.Member μ (d.field i).label}
    (settled : ∀ i, Settled good m i)
    (here : settledMember good (d.field i).type (d.field i).defaultValue (d.field i).label value)
    (j : Fin d.nFields) : Settled good (setMember m i value) j := by
  unfold Settled setMember
  dsimp only
  by_cases same : j = i
  · subst same
    rw [Function.update_self]
    exact here
  · rw [Function.update_of_ne same]
    exact settled j

theorem authenticateMessage_proper (username : Option (List UInt8)) :
    Proper 2 authenticate (authenticateMessage username).message := by
  have initially := messageInit_proper .authenticate (by decide)
  refine ⟨setMember_settled (setMember_settled initially.1 trivial) (.inl rfl), initially.2⟩

/-- A `Version` and a `Ping` as the other end has them. -/
def noVersion : ProperMessage where
  type := .version
  message := messageInit version
  proper := messageInit_proper .version (by decide)
  small := by decide

def noPing : ProperMessage where
  type := .ping
  message := messageInit ping
  proper := messageInit_proper .ping (by decide)
  small := by decide

end Properness

end MumbleProto

namespace Mumble
open CExec Bytes MumbleProto ProtobufC

section Client
variable {ω ε α : Type}

/-- A member of bytes, if its `has_` member is set. -/
def bytesMember (member : Bool × List UInt8) : Option (List UInt8) := if member.1 then some member.2 else none

/-- The fields of a `CryptSetup`. No message of another type is cast to one. -/
def cryptSetupOf : GeneratedMessage → CryptSetup
  | ⟨.cryptSetup, m⟩ =>
    ⟨bytesMember (m.member ⟨0, by decide⟩), bytesMember (m.member ⟨1, by decide⟩),
      bytesMember (m.member ⟨2, by decide⟩)⟩
  | _ => ⟨none, none, none⟩

/-- The client with its libraries, but for the cipher and the codec. -/
def libraries (aes : Aes) (opusDecoder : OpusApi ω) (opusEncoder : OpusEncoderApi ε) :
    Libraries GeneratedMessage ω ε where
  aes := aes
  opusDecoder := opusDecoder
  opusEncoder := opusEncoder
  protobuf := protobufC
  cryptSetup := cryptSetupOf
  version := versionMessage
  authenticate := authenticateMessage
  ping := pingMessage

/-- The frames of those messages. -/
def OwnFrame (nick : List UInt8) (f : Frame) : Prop :=
  (f.type.toNat = MessageType.version.number ∧ f.payload = []) ∨
    (f.type.toNat = MessageType.ping.number ∧ f.payload = []) ∨
    ∃ malloc username, dupstr malloc nick = .ok username ∧
      f.type.toNat = MessageType.authenticate.number ∧ f.payload = authenticatePayload username

/-- A message of the client, or one of the application. -/
def Written (app : GeneratedMessage → Prop) (s : ClientParts GeneratedMessage ω ε α) (m : GeneratedMessage) : Prop :=
  app m ∨ (∃ v, m = versionMessage v) ∨ (∃ timestamp, m = pingMessage timestamp) ∨
    ∃ malloc username, dupstr malloc s.nick = .ok username ∧ m = authenticateMessage username

/-- What is noted down of a message of the application is what the encoder made of it. -/
def AppFrame (app : GeneratedMessage → Prop) (bytes : List UInt8) : Prop :=
  ∃ m encoder encoded, app m ∧ mumbleFrameEncode protobufC encoder m = .ok encoded ∧ bytes = encoded.written

theorem own_written {m : GeneratedMessage} {w : ProperMessage} {encoder encoded : FrameEncoder}
    (same : mumbleFrameEncode protobufC encoder m = mumbleFrameEncode properMessages encoder w)
    (run : mumbleFrameEncode protobufC encoder m = .ok encoded) :
    ∃ f : Frame, encoded.written = f.wire ∧ f.type.toNat = w.type.number ∧
      f.payload = protobufC.pack w.toGeneratedMessage :=
  encoded_frame properMessages_lawful.1 rfl (same.symm.trans run)

theorem version_written {v : UInt32} {encoder encoded : FrameEncoder}
    (run : mumbleFrameEncode protobufC encoder (versionMessage v) = .ok encoded) :
    ∃ f : Frame, encoded.written = f.wire ∧ f.type.toNat = MessageType.version.number ∧
      f.payload = [] :=
  own_written (w := noVersion) rfl run

theorem ping_written {timestamp : UInt64} {encoder encoded : FrameEncoder}
    (run : mumbleFrameEncode protobufC encoder (pingMessage timestamp) = .ok encoded) :
    ∃ f : Frame, encoded.written = f.wire ∧ f.type.toNat = MessageType.ping.number ∧ f.payload = [] :=
  own_written (w := noPing) rfl run

theorem authenticate_written {username : Option (List UInt8)} {encoder encoded : FrameEncoder}
    (run : mumbleFrameEncode protobufC encoder (authenticateMessage username) = .ok encoded) :
    ∃ f : Frame, encoded.written = f.wire ∧ f.type.toNat = MessageType.authenticate.number ∧
      f.payload = authenticatePayload username := by
  have packed := messagePack_length 2 authenticate (authenticateMessage username).message
  have size := mumbleFrameEncode_size packed run
  have room : encoded.written.length ≤ frameMaxSize := by
    rw [FrameEncoder.written, ← encoded.allocated]
    exact List.length_take_le' _ _
  have small : (protobufC.pack (authenticateMessage username)).length ≤ packLimit := by
    have limit : frameMaxSize ≤ packLimit := by decide
    have length : (protobufC.pack (authenticateMessage username)).length =
        protobufC.packedSize (authenticateMessage username) := packed
    omega
  let w : ProperMessage := ⟨authenticateMessage username, authenticateMessage_proper username, small⟩
  obtain ⟨f, written, type, payload⟩ := own_written (w := w) rfl run
  exact ⟨f, written, type, payload.trans (authenticateMessage_pack username)⟩

/-- The control frames of a client whose name is `nick`. -/
structure Announced (nick : List UInt8) (app : GeneratedMessage → Prop) (s : ClientParts GeneratedMessage ω ε α) :
    Prop where
  named : s.nick = nick
  frames : ∀ entry ∈ s.log, ∀ message bytes, entry.2 = .control message bytes →
    (∃ f, bytes = f.wire ∧ OwnFrame nick f) ∨ AppFrame app bytes

variable {nick : List UInt8} {app : GeneratedMessage → Prop} {s : ClientParts GeneratedMessage ω ε α} {aes : Aes}
  {opusDecoder : OpusApi ω} {opusEncoder : OpusEncoderApi ε}

theorem Announced.record (announced : Announced nick app s) {t : ClientParts GeneratedMessage ω ε α} {time : Nat}
    {incident : Incident GeneratedMessage} (named : t.nick = s.nick) (log : t.log = s.log ++ [(time, incident)])
    (frame : ∀ message bytes, incident = .control message bytes →
      (∃ f, bytes = f.wire ∧ OwnFrame nick f) ∨ AppFrame app bytes) :
    Announced nick app t := by
  refine ⟨named.trans announced.named, fun entry member message bytes same => ?_⟩
  rw [log] at member
  rcases List.mem_append.mp member with old | new
  · exact announced.frames entry old message bytes same
  · rw [List.mem_singleton.mp new] at same
    exact frame message bytes same

theorem written_announced (named : s.nick = nick) {m : GeneratedMessage} (written : Written app s m)
    {encoder encoded : FrameEncoder} (run : mumbleFrameEncode protobufC encoder m = .ok encoded) :
    (∃ f, encoded.written = f.wire ∧ OwnFrame nick f) ∨ AppFrame app encoded.written := by
  rcases written with said | ⟨v, rfl⟩ | ⟨timestamp, rfl⟩ | ⟨malloc, username, duplicated, rfl⟩
  · exact .inr ⟨m, encoder, encoded, said, run, rfl⟩
  · obtain ⟨f, wire, type, payload⟩ := version_written run
    exact .inl ⟨f, wire, .inl ⟨type, payload⟩⟩
  · obtain ⟨f, wire, type, payload⟩ := ping_written run
    exact .inl ⟨f, wire, .inr (.inl ⟨type, payload⟩)⟩
  · obtain ⟨f, wire, type, payload⟩ := authenticate_written run
    exact .inl ⟨f, wire, .inr (.inr ⟨malloc, username, named ▸ duplicated, type, payload⟩)⟩

theorem libraries_writes {application : Application GeneratedMessage α}
    (authored : ClientParts.AppWrites (ω := ω) (ε := ε) application fun _ => app) :
    ClientParts.Writes (libraries aes opusDecoder opusEncoder) application (Written (ω := ω) (ε := ε) app) where
  onMessage cb set state type message other member s :=
    .inl (authored.onMessage cb set state type message other member s)
  onAudio cb set state packet other member s := .inl (authored.onAudio cb set state packet other member s)
  version _ v := .inr (.inl ⟨v, rfl⟩)
  authenticate _ malloc username duplicated := .inr (.inr (.inr ⟨malloc, username, duplicated, rfl⟩))
  ping _ timestamp := .inr (.inr (.inl ⟨timestamp, rfl⟩))

theorem announced_speaks :
    ClientParts.Speaks (libraries aes opusDecoder opusEncoder) (Announced (ω := ω) (ε := ε) (α := α) nick app) where
  supply announced := announced.record rfl rfl nofun
  tunnel announced _ _ := announced.record rfl rfl nofun
  datagram announced _ _ := announced.record rfl rfl nofun
  voice announced := ⟨announced.named, announced.frames⟩

theorem announced_steady : ClientParts.Steady (libraries aes opusDecoder opusEncoder) (Written app)
    (Announced (ω := ω) (ε := ε) (α := α) nick app) where
  app announced := ⟨announced.named, announced.frames⟩
  pingDue announced := ⟨announced.named, announced.frames⟩
  control := by
    intro s message encoder written announced run
    refine announced.record rfl rfl ?_
    rintro _ _ ⟨⟩
    exact written_announced announced.named written run
  speak announced equipped run := announced_speaks.speak announced equipped run
  listen announced := ⟨announced.named, announced.frames⟩
  pool announced := ⟨announced.named, announced.frames⟩
  opened announced := ⟨announced.named, announced.frames⟩
  confirmed announced _ := announced.record rfl rfl nofun
  rekeyed announced _ := announced.record rfl rfl nofun
  waited announced _ := ⟨announced.named, announced.frames⟩
  attempted announced _ := announced.record rfl rfl nofun
  timeout announced _ := announced.record rfl rfl nofun

end Client

section Write
variable {ω ε α : Type} {s : ClientParts GeneratedMessage ω ε α} {carrier : Carrier}
  {lib : Libraries GeneratedMessage ω ε}

/-- A message of the client that fits into a frame is written, if the connection takes it. -/
theorem clientWrite_proper (library : lib.protobuf = protobufC) (takes : ∀ bytes, 1 < bytes.length →
      1 < carrier.sslWrite bytes) {m : GeneratedMessage} {w : ProperMessage}
    (same : ∀ encoder, mumbleFrameEncode protobufC encoder m = mumbleFrameEncode properMessages encoder w)
    (fits : 6 + (protobufC.pack w.toGeneratedMessage).length ≤ frameMaxSize) {frame : List UInt8}
    (is_frame : ofBigEndian 2 w.type.number ++ ofBigEndian 4 (protobufC.pack w.toGeneratedMessage).length ++
      protobufC.pack w.toGeneratedMessage = frame) :
    ∃ encoder, s.clientWrite lib carrier m = .ok (({ s with encoder }).record (.control m frame)) := by
  have lawful := properMessages_lawful.1
  have packed : protobufC.packedSize w.toGeneratedMessage = (protobufC.pack w.toGeneratedMessage).length :=
    (lawful.packedSize w).symm
  have limit : frameMaxSize < 2 ^ 32 := by decide
  obtain ⟨f, type, payload⟩ := exists_message_frame lawful w.type w (by
    change protobufC.packedSize w.toGeneratedMessage < 2 ^ 32
    omega)
  have length : f.wire.length = 6 + (protobufC.pack w.toGeneratedMessage).length := by
    rw [frame_wire_length, payload]
    rfl
  obtain ⟨encoder, encoded, written⟩ := mumbleFrameEncode_written s.encoder lawful rfl f type payload (length ▸ fits)
  have wire : f.wire = frame := by
    rw [← is_frame, Frame.wire, Frame.header, type, payload]
    rfl
  refine ⟨encoder, ?_⟩
  rw [ClientParts.clientWrite, library, same, encoded, ok_bind, written, ClientParts.sslWrite,
    require_true (takes f.wire (by omega)), ok_bind, wire]

theorem version_clientWrite (library : lib.protobuf = protobufC)
    (takes : ∀ bytes, 1 < bytes.length → 1 < carrier.sslWrite bytes) (v : UInt32) :
    ∃ encoder, s.clientWrite lib carrier (versionMessage v) =
      .ok (({ s with encoder }).record (.control (versionMessage v) [0, 0, 0, 0, 0, 0])) := by
  refine clientWrite_proper library takes (m := versionMessage v) (w := noVersion) (fun _ => rfl) ?_ ?_
  · decide
  · decide

theorem ping_clientWrite (library : lib.protobuf = protobufC)
    (takes : ∀ bytes, 1 < bytes.length → 1 < carrier.sslWrite bytes) (timestamp : UInt64) :
    ∃ encoder, s.clientWrite lib carrier (pingMessage timestamp) =
      .ok (({ s with encoder }).record (.control (pingMessage timestamp) [0, 3, 0, 0, 0, 0])) := by
  refine clientWrite_proper library takes (m := pingMessage timestamp) (w := noPing) (fun _ => rfl) ?_ ?_
  · decide
  · decide

/-- The frame of an `Authenticate`. -/
def authenticateFrame (username : Option (List UInt8)) : List UInt8 :=
  [0, 2] ++ ofBigEndian 4 (authenticatePayload username).length ++ authenticatePayload username

theorem authenticate_clientWrite (library : lib.protobuf = protobufC)
    (takes : ∀ bytes, 1 < bytes.length → 1 < carrier.sslWrite bytes) {username : Option (List UInt8)}
    (fits : 6 + (authenticatePayload username).length ≤ frameMaxSize) :
    ∃ encoder, s.clientWrite lib carrier (authenticateMessage username) =
      .ok (({ s with encoder }).record (.control (authenticateMessage username) (authenticateFrame username))) := by
  have limit : frameMaxSize ≤ packLimit := by decide
  have pack := authenticateMessage_pack username
  have small : (protobufC.pack (authenticateMessage username)).length ≤ packLimit := by
    rw [pack]
    omega
  let w : ProperMessage := ⟨authenticateMessage username, authenticateMessage_proper username, small⟩
  have number : ofBigEndian 2 MessageType.authenticate.number = [0, 2] := by decide
  refine clientWrite_proper library takes (w := w) (fun _ => rfl) ?_ ?_
  · change 6 + (protobufC.pack (authenticateMessage username)).length ≤ frameMaxSize
    rwa [pack]
  · change ofBigEndian 2 MessageType.authenticate.number ++
      ofBigEndian 4 (protobufC.pack (authenticateMessage username)).length ++
        protobufC.pack (authenticateMessage username) = _
    rw [pack, number, authenticateFrame]

theorem bytesWritten_control (log : List (Nat × Incident μ)) (time : Nat) (message : μ) (bytes : List UInt8) :
    bytesWritten (log ++ [(time, .control message bytes)]) = bytesWritten log ++ bytes := by
  rw [bytesWritten, List.filterMap_append, List.flatten_append]
  exact congrArg (bytesWritten log ++ ·) (List.append_nil bytes)

/-- What a client writes as soon as it is connected, if its connection takes it: its
name is all that it says. -/
theorem connectCbAdapter_written {aes : Aes} {opusDecoder : OpusApi ω} {opusEncoder : OpusEncoderApi ε}
    (takes : ∀ bytes, 1 < bytes.length → 1 < carrier.sslWrite bytes) {malloc : Nat → Bool}
    {username : Option (List UInt8)} (named : dupstr malloc s.nick = .ok username)
    (fits : 6 + (authenticatePayload username).length ≤ frameMaxSize) (time : UInt64) :
    ∃ t, s.connectCbAdapter (libraries aes opusDecoder opusEncoder) carrier malloc time = .ok t ∧
      bytesWritten t.log = bytesWritten s.log ++ [0, 0, 0, 0, 0, 0] ++ authenticateFrame username ++
        [0, 3, 0, 0, 0, 0] := by
  let lib := libraries aes opusDecoder opusEncoder
  let version := ((1 : UInt32) <<< 16) ||| ((2 : UInt32) <<< 8) ||| 5
  let s₀ : ClientParts GeneratedMessage ω ε α := { s with pingDue := some (s.now + pingDelay) }
  obtain ⟨first, wrote⟩ : ∃ encoder, s₀.clientWrite lib carrier _ = .ok _ :=
    version_clientWrite rfl takes version
  let s₁ := ({ s₀ with encoder := first }).record (.control (versionMessage version) [0, 0, 0, 0, 0, 0])
  obtain ⟨second, wrote₁⟩ : ∃ encoder, s₁.clientWrite lib carrier _ = .ok _ :=
    authenticate_clientWrite rfl takes fits
  let s₂ := ({ s₁ with encoder := second }).record
    (.control (authenticateMessage username) (authenticateFrame username))
  obtain ⟨third, wrote₂⟩ : ∃ encoder, s₂.clientWrite lib carrier _ = .ok _ :=
    ping_clientWrite rfl takes (intTime time)
  let s₃ := ({ s₂ with encoder := third }).record (.control (pingMessage (intTime time)) [0, 3, 0, 0, 0, 0])
  refine ⟨s₃, ?_, ?_⟩
  · have run : s.connectCbAdapter lib carrier malloc time = (do
        let s ← s₀.clientWrite lib carrier (versionMessage version)
        let username ← dupstr malloc s.nick
        let s ← s.clientWrite lib carrier (authenticateMessage username)
        s.clientWrite lib carrier (pingMessage (intTime time))) := rfl
    rw [run, wrote, ok_bind]
    change (dupstr malloc s.nick >>= fun username =>
      s₁.clientWrite lib carrier (authenticateMessage username) >>= _) = _
    rw [named, ok_bind, wrote₁, ok_bind]
    exact wrote₂
  · have logs : s₃.log = ((s.log ++ [(s.now, .control (versionMessage version) [0, 0, 0, 0, 0, 0])]) ++
        [(s.now, .control (authenticateMessage username) (authenticateFrame username))]) ++
          [(s.now, .control (pingMessage (intTime time)) [0, 3, 0, 0, 0, 0])] := rfl
    rw [logs, bytesWritten_control, bytesWritten_control, bytesWritten_control]

end Write

def botMemory : ClientMemory Unit UInt8 Unit := { sampleMemory with nick := [0x62, 0x6F, 0x74, 0] }

def silentApplication : Application GeneratedMessage Unit := ⟨none, none⟩

theorem silentApplication_writes {ω ε : Type} (app : GeneratedMessage → Prop) :
    ClientParts.AppWrites (ω := ω) (ε := ε) silentApplication fun _ => app :=
  ⟨(fun _ set => nomatch set), (fun _ set => nomatch set)⟩

theorem login_run : ∃ client final, mumbleClientInit botMemory 0 = .ok client ∧
    client.Reaches (libraries identityAes silentOpus echoOpus) silentApplication
      [(openCarrier, .connected (fun _ => true) 7)] final ∧
    bytesWritten final.state.log = [0, 0, 0, 0, 0, 0, 0, 2, 0, 0, 0, 7, 0x0A, 3, 0x62, 0x6F, 0x74, 0x28, 1,
      0, 3, 0, 0, 0, 0] := by
  cases init : mumbleClientInit botMemory 0 with
  | error fault => cases init
  | ok client =>
    have fresh := ClientParts.mumbleClientInit_fresh init
    have named : dupstr (fun _ => true) client.state.nick = .ok (some [0x62, 0x6F, 0x74]) := by
      cases init
      rfl
    have takes (bytes : List UInt8) (long : 1 < bytes.length) : 1 < openCarrier.sslWrite bytes :=
      Int.ofNat_lt.mpr long
    obtain ⟨t, run, written⟩ : ∃ t, client.state.connectCbAdapter (libraries identityAes silentOpus echoOpus)
        openCarrier (fun _ => true) 7 = .ok t ∧ _ := connectCbAdapter_written takes named (by decide) 7
    refine ⟨client, { client with state := t }, rfl, .single ⟨trivial, ?_⟩, ?_⟩
    · change (client.state.connectCbAdapter _ _ _ _ >>= fun state => _) = _
      rw [run]
      rfl
    · rw [written, fresh.log]
      decide

/-- In every run of a client, whatever its application writes, no message of its own
says a version or a time: each is an empty `Version` or `Ping`, or an `Authenticate`
with the name that the client was given, if there was memory for it. -/
theorem client_announces {ω ε α : Type} (aes : Aes) (opusDecoder : OpusApi ω) (opusEncoder : OpusEncoderApi ε)
    (application : Application GeneratedMessage α) (app : GeneratedMessage → Prop)
    (authored : ClientParts.AppWrites (ω := ω) (ε := ε) application fun _ => app) {memory : ClientMemory ω ε α}
    {now : Nat}
    {client final : MumbleClient GeneratedMessage ω ε α} (init : mumbleClientInit memory now = .ok client)
    {events : List (Carrier × ClientEvent GeneratedMessage)}
    (written : ∀ carrier m, (carrier, .call (.write m)) ∈ events → app m)
    (run : client.Reaches (libraries aes opusDecoder opusEncoder) application events final) :
    ∀ entry ∈ final.state.log, ∀ message bytes, entry.2 = .control message bytes →
      (∃ f, bytes = f.wire ∧ OwnFrame memory.nick f) ∨ AppFrame app bytes := by
  have fresh := ClientParts.mumbleClientInit_fresh init
  have initially : Announced memory.nick app client.state := by
    refine ⟨?_, ?_⟩
    · cases init
      rfl
    · rw [fresh.log]
      exact nofun
  have allowed : ∀ event ∈ events, ClientParts.EventWrites (Written (ω := ω) (ε := ε) (α := α) app) event.2 := by
    rintro ⟨carrier, event⟩ member
    cases event with
    | call call =>
      cases call with
      | write m => exact fun s => .inl (written carrier m member)
      | writeAudio => trivial
    | _ => trivial
  exact (announced_steady.reaches_writing (libraries_writes authored) (fresh.kept initially) fresh.spare allowed
    run).holds.frames

theorem client_announces_sample : ∃ final : MumbleClient GeneratedMessage Unit UInt8 Unit,
    bytesWritten final.state.log = [0, 0, 0, 0, 0, 0, 0, 2, 0, 0, 0, 7, 0x0A, 3, 0x62, 0x6F, 0x74, 0x28, 1,
      0, 3, 0, 0, 0, 0] ∧
    ∀ entry ∈ final.state.log, ∀ message bytes, entry.2 = .control message bytes →
      (∃ f, bytes = f.wire ∧ OwnFrame botMemory.nick f) ∨ AppFrame (fun _ => False) bytes := by
  obtain ⟨client, final, init, run, bytes⟩ := login_run
  refine ⟨final, bytes, ?_⟩
  apply client_announces identityAes silentOpus echoOpus silentApplication (fun _ => False)
    (silentApplication_writes _) init _ run
  intro carrier m member
  cases List.mem_singleton.mp member

end Mumble

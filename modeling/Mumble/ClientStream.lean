import Mumble.ClientEffects
import Mumble.ClientWrite
import Mumble.Lib.History

/-! What a client gives its TLS connection to write over whole runs: the frames of its
messages and of its tunnelled packets, whole and in order. -/
namespace Mumble
open CExec Bytes Framing History ClientParts

/-- The bytes that are handed to `SSL_write`. -/
def Incident.written : Incident μ → Option (List UInt8)
  | .control _ frame => some frame
  | .tunnel _ frame => some frame
  | _ => none

def bytesWritten (log : List (Nat × Incident μ)) : List UInt8 :=
  (log.filterMap fun entry => entry.2.written).flatten

/-- The frame that a write is. A message is under the number of its own type, and a
packet of voice under that of `UDPTunnel`. -/
def WrittenAs {μ : Type} (p : Protobuf μ) (incident : Incident μ) (f : Frame) : Prop :=
  match incident with
  | .control message bytes => bytes = f.wire ∧ ∃ t, p.descriptor message = p.generated t ∧
      f.type.toNat = t.number ∧ f.payload = p.pack message
  | .tunnel packet bytes => bytes = f.wire ∧ f.type.toNat = MessageType.udptunnel.number ∧
      f.payload = packet
  | _ => False

/-- All messages are of the types that have numbers. -/
def Protobuf.Typed {μ : Type} (p : Protobuf μ) : Prop :=
  ∀ message, ∃ t, p.descriptor message = p.generated t

def FramedEntry {μ : Type} (p : Protobuf μ) (entry : Nat × Incident μ) : Prop :=
  ∀ bytes, entry.2.written = some bytes → ∃ f, WrittenAs p entry.2 f

section Effects
variable {μ ω ε α : Type} {lib : Libraries μ ω ε} {s : ClientParts μ ω ε α}

/-- What the encoder makes of a message is its frame. -/
theorem encoded_frame {p : Protobuf μ} (lawful : p.Lawful) {t : MessageType} {message : μ}
    (type : p.descriptor message = p.generated t) {encoder encoded : FrameEncoder}
    (run : mumbleFrameEncode p encoder message = .ok encoded) :
    ∃ f : Frame, encoded.written = f.wire ∧ f.type.toNat = t.number ∧ f.payload = p.pack message := by
  have size := mumbleFrameEncode_size (lawful.packedSize message) run
  have room : encoded.written.length ≤ frameMaxSize := by
    rw [FrameEncoder.written, ← encoded.allocated]
    exact List.length_take_le' _ _
  have limit : frameMaxSize = 2 ^ 20 := rfl
  obtain ⟨f, number, payload⟩ := exists_message_frame lawful t message (by omega)
  have whole : f.wire.length ≤ frameMaxSize := by
    rw [frame_wire_length, payload, lawful.packedSize]
    omega
  obtain ⟨other, again, written⟩ := mumbleFrameEncode_written encoder lawful type f number payload whole
  cases run.symm.trans again
  exact ⟨f, written, number, payload⟩

theorem control_framed (lawful : lib.protobuf.Lawful) (typed : lib.protobuf.Typed) {message : μ}
    {encoder encoded : FrameEncoder} (run : mumbleFrameEncode lib.protobuf encoder message = .ok encoded) :
    ∃ f, WrittenAs lib.protobuf (.control message encoded.written) f := by
  obtain ⟨t, type⟩ := typed message
  obtain ⟨f, written, number, payload⟩ := encoded_frame lawful type run
  exact ⟨f, written, t, type, number, payload⟩

/-- What is noted down of a message is the message that was to be sent. -/
theorem clientWrite_notes {carrier : Carrier} {t : ClientParts μ ω ε α} {message : μ}
    (run : s.clientWrite lib carrier message = .ok t) :
    t.log = s.log ++ [(s.now, .control message t.encoder.written)] := by
  obtain ⟨encoder, -, run⟩ := bind_eq_ok.mp run
  obtain ⟨_, -, run⟩ := bind_eq_ok.mp run
  cases run
  rfl

theorem tunnel_framed {packet : List UInt8} (short : packet.length ≤ 1020) :
    ∃ f, WrittenAs lib.protobuf (.tunnel packet (tunnelOf packet)) f :=
  ⟨⟨1, packet, by omega⟩, rfl, rfl, rfl⟩

abbrev Framed (p : Protobuf μ) (s : ClientParts μ ω ε α) : Prop := ∀ entry ∈ s.log, FramedEntry p entry

theorem Framed.record (framed : Framed lib.protobuf s) {incident : Incident μ}
    (next : FramedEntry lib.protobuf (s.now, incident)) : Framed lib.protobuf (s.record incident) := by
  intro entry member
  rcases List.mem_append.mp member with old | new
  · exact framed entry old
  · rw [List.mem_singleton.mp new]
    exact next

theorem framed_speaks : Speaks lib (Framed (ω := ω) (ε := ε) (α := α) lib.protobuf) where
  supply framed := framed.record nofun
  tunnel framed _ short := framed.record fun _ _ => tunnel_framed short
  datagram framed _ _ := Framed.record framed nofun
  voice framed := framed

theorem framed_steady (lawful : lib.protobuf.Lawful) (typed : lib.protobuf.Typed) :
    Steady lib (fun _ _ => True) (Framed (ω := ω) (ε := ε) (α := α) lib.protobuf) where
  app framed := framed
  pingDue framed := framed
  control _ framed run := Framed.record framed fun _ _ => control_framed lawful typed run
  speak framed equipped run := framed_speaks.speak framed equipped run
  listen framed := framed
  pool framed := framed
  opened framed := framed
  confirmed framed _ := Framed.record framed nofun
  rekeyed framed _ := Framed.record framed nofun
  waited framed _ := framed
  attempted framed _ := Framed.record framed nofun
  timeout framed _ := Framed.record framed nofun

end Effects

/-- The writes of a log, one frame for each. -/
theorem bytesWritten_frames {μ : Type} {p : Protobuf μ} {log : List (Nat × Incident μ)}
    (framed : ∀ entry ∈ log, FramedEntry p entry) :
    ∃ frames, bytesWritten log = stream Frame.wire frames ∧
      List.Forall₂ (WrittenAs p) ((log.map Prod.snd).filter fun incident => incident.written.isSome) frames := by
  induction log with
  | nil => exact ⟨[], rfl, .nil⟩
  | cons entry log ih =>
    obtain ⟨frames, same, carried⟩ := ih fun other member => framed other (List.mem_cons_of_mem _ member)
    obtain ⟨time, incident⟩ := entry
    cases written : incident.written with
    | none =>
      refine ⟨frames, ?_, ?_⟩
      · rw [← same]
        simp only [bytesWritten, List.filterMap_cons, written]
      · rw [List.map_cons, List.filter_cons_of_neg (by rw [written]; exact Bool.false_ne_true)]
        exact carried
    | some bytes =>
      obtain ⟨f, carries⟩ := framed (time, incident) List.mem_cons_self bytes written
      have wire : bytes = f.wire := by
        cases incident with
        | control message frame =>
          cases written
          exact carries.1
        | tunnel packet frame =>
          cases written
          exact carries.1
        | _ => cases written
      refine ⟨f :: frames, ?_, ?_⟩
      · rw [stream_cons, ← same, ← wire]
        simp only [bytesWritten, List.filterMap_cons, written, List.flatten_cons]
      · rw [List.map_cons, List.filter_cons_of_pos (by rw [written]; rfl)]
        exact .cons carries carried

/-- In every run of a client, what its TLS connection is given to write is one whole
frame after another: for each message the application or the client itself sends, and
for each packet of voice that is tunnelled, in the order in which they were made and
with their own type and content. In any state a message that is sent is one of these. -/
theorem client_stream_framed {μ ω ε α : Type} (lib : Libraries μ ω ε) (lawful : lib.protobuf.Lawful)
    (typed : lib.protobuf.Typed) (application : Application μ α)
    {memory : ClientMemory ω ε α} {now : Nat} {client final : MumbleClient μ ω ε α}
    (init : mumbleClientInit memory now = .ok client) {events : List (Carrier × ClientEvent μ)}
    (run : client.Reaches lib application events final) :
    (∃ frames, bytesWritten final.state.log = stream Frame.wire frames ∧ List.Forall₂ (WrittenAs lib.protobuf)
      ((final.state.log.map Prod.snd).filter fun incident => incident.written.isSome) frames) ∧
    ∀ (s t : ClientParts μ ω ε α) (carrier : Carrier) (message : μ),
      s.clientWrite lib carrier message = .ok t →
        t.log = s.log ++ [(s.now, .control message t.encoder.written)] := by
  have fresh := mumbleClientInit_fresh init
  have initially : Framed lib.protobuf client.state := by
    rw [Framed, fresh.log]
    exact nofun
  have framed := ((framed_steady lawful typed).reaches (fresh.kept initially) fresh.spare run).holds
  exact ⟨bytesWritten_frames framed, fun _ _ _ _ => clientWrite_notes⟩

theorem emptyMessages_typed : emptyMessages.Typed := fun t => ⟨t, rfl⟩

theorem client_stream_framed_sample : ∃ client final, mumbleClientInit sampleMemory 0 = .ok client ∧
    client.Reaches sampleLibraries answeringApplication sampleEvents final ∧
    ∃ frames, bytesWritten final.state.log = stream Frame.wire frames ∧ List.Forall₂ (WrittenAs emptyMessages)
      ((final.state.log.map Prod.snd).filter fun incident => incident.written.isSome) frames := by
  obtain ⟨client, final, init, run, -⟩ := sample_run
  exact ⟨client, final, init, run, (client_stream_framed sampleLibraries emptyMessages_lawful
    emptyMessages_typed answeringApplication init run).1⟩

end Mumble

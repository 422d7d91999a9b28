import Mumble.ClientEffects
import Mumble.FramingProofs

/-! The voice of a client over whole runs, by whatever ways its packets have gone. They
are numbered in the order of the samples that they are made of. -/
namespace Mumble
open CExec Bytes Chunking ClientParts

/-- What is relied on of libopus: the bytes that it returns the count of are written. -/
def OpusEncoderApi.Writes {ω : Type} (api : OpusEncoderApi ω) : Prop :=
  ∀ encoder pcm frames size, (api.encode encoder pcm frames size).1 ≤ (api.encode encoder pcm frames size).2.2.length

section Inversion
variable {ω τ : Type} {api : OpusEncoderApi ω} {size : FrameSize}

theorem writeBuf_room {values : List UInt8} {s t : WriteBuf} (inside : s.pos ≤ s.buf.length)
    (run : values.foldlM writeBuf s = .ok t) : s.pos + values.length ≤ s.buf.length := by
  induction values generalizing s with
  | nil => exact inside
  | cons value values ih =>
    obtain ⟨m, first, rest⟩ := bind_eq_ok.mp run
    unfold writeBuf at first
    split at first
    · next more =>
      cases first
      have room := ih (by rw [List.length_set]; exact more) rest
      rw [List.length_set] at room
      rw [List.length_cons]
      dsimp only at room
      omega
    · cases first

/-- All that an encoding which succeeds has done. -/
theorem varintEncode_written {source : UInt64} {buf after : List UInt8} {limit written count : Int}
    (run : varintEncode source buf limit written = .ok (0, after, count)) :
    (varintBytes source).length ≤ buf.length ∧ count = (varintBytes source).length ∧
      after = varintBytes source ++ buf.drop (varintBytes source).length := by
  have room := (varintEncode_eq_ok run).2 rfl
  have space : (varintBytes source).length ≤ buf.length := by
    have wrote := run
    unfold varintEncode at wrote
    rw [if_neg (show ¬ limit < varintEncodeSize source by omega), if_neg (show ¬ source < 0 by simp),
      varintWrite_eq] at wrote
    obtain ⟨s, stored, -⟩ := bind_eq_ok.mp wrote
    have inside := writeBuf_room (Nat.zero_le _) stored
    rwa [Nat.zero_add] at inside
  rw [varintEncode_eq source buf limit written room space] at run
  cases run
  exact ⟨space, rfl, rfl⟩

theorem store_ok {p q data : List UInt8} {i : Nat} (run : store p i data = .ok q) :
    i + data.length ≤ p.length ∧ q = p.take i ++ data ++ p.drop (i + data.length) := by
  unfold store at run
  split at run
  · cases run
    exact ⟨‹_›, rfl⟩
  · cases run

theorem slice_ok {p q : List UInt8} {n : Nat} (run : slice p n = .ok q) : n ≤ p.length ∧ q = p.take n := by
  unfold slice at run
  split at run
  · cases run
    exact ⟨‹_›, rfl⟩
  · cases run

/-- The frame that the codec has handed on. -/
theorem onEncoderFrame_ok {cb : τ → List UInt8 → Nat → Bool → Run τ} (writes : api.Writes)
    {codec codec' : CodecOpusEncoder ω} {state state' : τ} (sized : codec.Sized size)
    {block : List UInt8} (whole : block.length = size.bytes) {final : Bool}
    (run : onEncoderFrame api cb (codec, state) block size.bytes final = .ok (codec', state')) :
    codec'.Sized size ∧ codec'.buffer = codec.buffer ∧
      codec'.encoder = opusNext api size codec.encoder block ∧
      ∃ buf n, slice buf n = .ok (framed (opusOutput api size codec.encoder block)) ∧ n < 2 ^ 23 ∧
        cb state buf n final = .ok state' := by
  obtain ⟨ret, next, data, encoded⟩ : ∃ ret next data, api.encode codec.encoder
      (block.take (2 * (size.bytes / 2))) (size.bytes / 2) size.bytes = (ret, next, data) :=
    ⟨_, _, _, rfl⟩
  have output : opusOutput api size codec.encoder block = data.take ret.toNat := by
    simp only [opusOutput, encoded]
  have after : opusNext api size codec.encoder block = next := by
    simp only [opusNext, encoded]
  have small := size.small
  have long : ret ≤ data.length := by
    have written := writes codec.encoder (block.take (2 * (size.bytes / 2))) (size.bytes / 2) size.bytes
    rwa [encoded] at written
  have frames : toInt (size.bytes / 2 : Int) = size.bytes / 2 := toInt_of_small (by omega) (by omega)
  have samples : slice block (2 * (size.bytes / 2)) = .ok (block.take (2 * (size.bytes / 2))) :=
    slice_of_le (by omega)
  have stored := run
  simp only [onEncoderFrame, samples, ok_bind, frames, sized.codecOut, encoded] at stored
  obtain ⟨codecOut, copied, stored⟩ := bind_eq_ok.mp stored
  obtain ⟨_, positive, -⟩ := bind_eq_ok.mp stored
  replace positive := require_eq_ok.mp positive
  have fits := (store_ok copied).1
  rw [sized.codecOut, Nat.zero_add] at fits
  have room := room_of_onEncoderFrame sized whole encoded positive (by omega) (by rw [whole]; exact run)
  obtain ⟨codec'', rest, kept, encoder, sized', frame⟩ :=
    onEncoderFrame_framed cb sized whole encoded positive long fits room final
  rw [frame] at run
  obtain ⟨called, handed, ended⟩ := bind_eq_ok.mp run
  cases ended
  rw [output, after]
  exact ⟨sized', kept, encoder, _, _, framed_slice _ rest, framed_lt positive long room, handed⟩

/-- The packet that has been made of a payload. -/
theorem encoderCodecCb_ok {cb : τ → List UInt8 → Nat → Run τ} {target : UInt32} {position : Position}
    {sequence sequence' : UInt32} {state state' : τ} {buf payload : List UInt8} {n : Nat} {final : Bool}
    (handed : slice buf n = .ok payload) (small : n < 2 ^ 23)
    (run : encoderCodecCb api (some cb) target.toUInt64 position (sequence, state) buf n final =
      .ok (sequence', state')) :
    sequence' = sequence + 1 ∧ ∃ packet k,
      slice packet k = .ok (audioHeader target :: (varintBytes sequence.toUInt64 ++ payload)) ∧
        cb state packet k = .ok state' := by
  obtain ⟨inside, rfl⟩ := slice_ok handed
  have length : (buf.take n).length = n := List.length_take_of_le inside
  unfold encoderCodecCb at run
  dsimp only at run
  generalize toInt (toSize _) = encodedSize at run
  split at run
  · cases run
  next memory got =>
  obtain ⟨encodedData, first, run⟩ := bind_eq_ok.mp run
  obtain ⟨some, rfl⟩ := store_ok first
  cases memory with
  | nil => exact absurd some (Nat.not_succ_le_zero 0)
  | cons m rest =>
    obtain ⟨⟨ret, behind, written⟩, encoded, run⟩ := bind_eq_ok.mp run
    obtain ⟨_, zero, run⟩ := bind_eq_ok.mp run
    obtain rfl : ret = 0 := require_eq_ok.mp zero
    obtain ⟨space, rfl, rfl⟩ := varintEncode_written encoded
    have width := varintBytes_le_nine sequence.toUInt64
    obtain ⟨pos, place⟩ : ∃ pos, pos = toInt (1 + ((varintBytes sequence.toUInt64).length : Int) + n) :=
      ⟨_, rfl⟩
    obtain ⟨_, -, run⟩ := bind_eq_ok.mp run
    rw [handed, ok_bind, ← place] at run
    rw [toInt_of_small (by omega) (by omega)] at place
    obtain ⟨copied, second, run⟩ := bind_eq_ok.mp run
    change store (audioHeader target :: varintBytes sequence.toUInt64 ++
      rest.drop (varintBytes sequence.toUInt64).length) _ _ = _ at second
    obtain ⟨head, head_eq⟩ : ∃ head, head = audioHeader target :: varintBytes sequence.toUInt64 := ⟨_, rfl⟩
    have offset : (1 + ((varintBytes sequence.toUInt64).length : Int)).toNat = head.length := by
      rw [head_eq, List.length_cons]
      omega
    rw [← head_eq, offset] at second
    have room := (store_ok second).1
    rw [List.length_append] at room
    rw [store_append head (by omega)] at second
    cases second
    obtain ⟨_, -, run⟩ := bind_eq_ok.mp run
    obtain ⟨positioned, third, run⟩ := bind_eq_ok.mp run
    have total : pos.toNat = (head ++ buf.take n).length := by
      rw [List.length_append, length, ← offset]
      omega
    rw [total, ← List.append_assoc] at third
    have room' := (store_ok third).1
    rw [@List.length_append _ (head ++ buf.take n)] at room'
    rw [store_append (head ++ buf.take n) (by omega)] at third
    cases third
    obtain ⟨called, sent, ended⟩ := bind_eq_ok.mp run
    cases ended
    refine ⟨rfl, _, _, ?_, sent⟩
    have count : toUnsigned pos = (head ++ buf.take n).length := by
      rw [toUnsigned_of_small (by omega) (by omega), total]
    rw [count, slice_length_append, head_eq]
    rfl

/-- A callback that notes each packet in its state. -/
def Notes (packetsIn : τ → List (List UInt8)) (cb : τ → List UInt8 → Nat → Run τ) : Prop :=
  ∀ state state' buf n packet, slice buf n = .ok packet → cb state buf n = .ok state' →
    packetsIn state' = packetsIn state ++ [packet]

variable {packetsIn : τ → List (List UInt8)} {cb : τ → List UInt8 → Nat → Run τ}

/-- The blocks that were completed in one call for `target`. -/
theorem frames_ok (writes : api.Writes) (notes : Notes packetsIn cb) {codec codec' : CodecOpusEncoder ω}
    (sized : codec.Sized size) {found : List (List Supplied)}
    (whole : ∀ block ∈ found, block.length = size.bytes) {target : UInt32}
    (stamps : ∀ block ∈ found, blockTarget block = target) {position : Position}
    {sequence sequence' : UInt32} {state state' : τ}
    (run : (found.map (List.map Prod.fst)).foldlM (fun state block =>
        onEncoderFrame api (encoderCodecCb api (some cb) target.toUInt64 position) state block
          size.bytes false) (codec, sequence, state) = .ok (codec', sequence', state')) :
    codec'.Sized size ∧ codec'.buffer = codec.buffer ∧
      codec'.encoder = opusAfter api size codec.encoder (found.map (List.map Prod.fst)) ∧
      sequence' = sequence + .ofNat found.length ∧
      packetsIn state' = packetsIn state ++ packetsOf api size sequence codec.encoder found := by
  induction found generalizing codec sequence state with
  | nil =>
    cases run
    refine ⟨sized, rfl, rfl, ?_, (List.append_nil _).symm⟩
    rw [List.length_nil]
    exact (UInt32.add_zero _).symm
  | cons block found ih =>
    rw [List.map_cons, List.foldlM_cons] at run
    obtain ⟨⟨codec₁, sequence₁, state₁⟩, first, rest⟩ := bind_eq_ok.mp run
    have whole' : (block.map Prod.fst).length = size.bytes := by
      rw [List.length_map, whole block List.mem_cons_self]
    obtain ⟨sized₁, kept, encoder, buf, n, handed, small, sent⟩ :=
      onEncoderFrame_ok writes sized whole' first
    obtain ⟨rfl, packet, k, emitted, called⟩ := encoderCodecCb_ok handed small sent
    obtain ⟨sized', kept', encoder', sequence', packets⟩ := ih sized₁
      (fun block member => whole block (List.mem_cons_of_mem _ member))
      (fun block member => stamps block (List.mem_cons_of_mem _ member)) rest
    refine ⟨sized', kept'.trans kept, ?_, ?_, ?_⟩
    · rw [encoder', encoder]
      rfl
    · rw [sequence', sequence_succ]
      rfl
    · rw [packets, notes _ _ _ _ _ emitted called, packetsOf, encoder, stamps block List.mem_cons_self,
        List.append_assoc, List.singleton_append]
      rfl

/-- What a call that returns leaves, and the packets that it has made. -/
theorem Encoding.encode_ok (writes : api.Writes) (notes : Notes packetsIn cb)
    {encoder encoder' : AudioEncoder ω} {carry : List Supplied} (encoding : Encoding size encoder carry)
    (call : EncodeCall) {state state' : τ}
    (run : mumbleAudioEncoderEncode api (some cb) encoder call.target
      ⟨call.samples, call.hz, call.samples.length⟩ call.position state = .ok (encoder', state')) :
    Encoding size encoder' (leftover size.bytes (carry ++ call.supplied)) ∧
      encoder'.sequence =
        encoder.sequence + .ofNat (chunks size.bytes (carry ++ call.supplied)).length ∧
      encoder'.opus.encoder = opusAfter api size encoder.opus.encoder
        ((chunks size.bytes (carry ++ call.supplied)).map (List.map Prod.fst)) ∧
      packetsIn state' = packetsIn state ++ packetsOf api size encoder.sequence encoder.opus.encoder
        (chunks size.bytes (carry ++ call.supplied)) := by
  have joined : encoder.opus.buffer.buf ++ call.bytes = (carry ++ call.supplied).map Prod.fst := by
    rw [List.map_append, supplied_fst, encoding.buffered]
  have count : toUnsigned (2 * call.samples.length) = call.bytes.length := by
    have small := call.small
    rw [toUnsigned_of_small (by omega) (by omega), EncodeCall.bytes, pcmBytes_length]
    omega
  have room : encoder.opus.buffer.buf.length < encoder.opus.buffer.bufAllocated := by
    rw [encoding.buffered, List.length_map, encoding.allocated]
    exact encoding.short
  let target := call.target.toUInt64
  let position := call.position.getD api.unset
  obtain ⟨buffer', bytes, allocated, written⟩ := @mumbleBufferWrite_chunks _
    (onEncoderFrame api (encoderCodecCb api (some cb) target position)) encoder.opus.buffer
    room call.bytes []
  rw [encoding.allocated, joined] at bytes written
  rw [chunks_map, List.append_nil] at written
  simp only [mumbleAudioEncoderEncode, mumbleCodecOpusEncode, count] at run
  change (mumbleBufferWrite _ _ _ call.bytes _ _ >>= _) >>= _ = _ at run
  rw [written, bind_assoc, bind_assoc] at run
  obtain ⟨⟨codec', sequence', last⟩, frames, ended⟩ := bind_eq_ok.mp run
  cases ended
  obtain ⟨sized, -, after, sequence, packets⟩ := frames_ok writes notes encoding.sized
    (fun block => length_of_mem_chunks) (fun block => blockTarget_call encoding.short call) frames
  refine ⟨⟨⟨sized.codecOut, sized.framedOut⟩, allocated.trans encoding.allocated, ?_, ?_⟩, sequence, after,
    packets⟩
  · rw [bytes, leftover_map]
  · rw [leftover_length]
    exact Nat.mod_lt _ size.positive

end Inversion

/-- The packets that have gone either way, in the order in which they were made. -/
def voiceIn (log : List (Nat × Incident μ)) : List (List UInt8) :=
  log.filterMap fun entry =>
    match entry.2 with
    | .voice packet _ => some packet
    | .tunnel packet _ => some packet
    | _ => none

def Speech.call (speech : Speech) : EncodeCall :=
  ⟨speech.target, speech.samples, speech.hz, none, speech.small⟩

/-- What the sender has been called with. -/
def spokenIn (log : List (Nat × Incident μ)) : List EncodeCall :=
  log.filterMap fun entry =>
    match entry.2 with
    | .spoke speech => some speech.call
    | _ => none

/-- The packets are those of one stream, however its calls and its packets are mixed
with everything else. -/
structure Numbered {μ ω ε α : Type} (lib : Libraries μ ω ε) (encoder : ε) (s : ClientParts μ ω ε α) : Prop where
  encoding : Encoding clientFrameSize s.voice (leftover clientFrameSize.bytes (suppliedBy (spokenIn s.log)))
  sequence : s.voice.sequence =
    .ofNat (chunks clientFrameSize.bytes (suppliedBy (spokenIn s.log))).length
  after : s.voice.opus.encoder = opusAfter lib.opusEncoder clientFrameSize encoder
    ((chunks clientFrameSize.bytes (suppliedBy (spokenIn s.log))).map (List.map Prod.fst))
  packets : voiceIn s.log = packetsOf lib.opusEncoder clientFrameSize 0 encoder
    (chunks clientFrameSize.bytes (suppliedBy (spokenIn s.log)))

section Effects
variable {μ ω ε α : Type} {lib : Libraries μ ω ε} {carrier : Carrier} {encoder : ε} {s : ClientParts μ ω ε α}

theorem encoderCb_notes : Notes (fun s : ClientParts μ ω ε α => voiceIn s.log)
    (ClientParts.encoderCb lib carrier) := by
  intro s t buf n packet handed run
  obtain ⟨-, rfl⟩ := slice_ok handed
  obtain ⟨⟨audio, sent⟩, -, run⟩ := bind_eq_ok.mp run
  cases sent with
  | udp datagram =>
    cases run
    exact List.filterMap_append
  | tcp frame =>
    obtain ⟨_, -, run⟩ := bind_eq_ok.mp run
    cases run
    exact List.filterMap_append

theorem voiceIn_record {incident : Incident μ} (silent : voiceIn [(s.now, incident)] = []) :
    voiceIn (s.record incident).log = voiceIn s.log := by
  rw [ClientParts.record, voiceIn, List.filterMap_append]
  exact (congrArg _ silent).trans (List.append_nil _)

theorem spokenIn_record {incident : Incident μ} (quiet : spokenIn [(s.now, incident)] = []) :
    spokenIn (s.record incident).log = spokenIn s.log := by
  rw [ClientParts.record, spokenIn, List.filterMap_append]
  exact (congrArg _ quiet).trans (List.append_nil _)

/-- Nothing else of a client matters here. -/
theorem Numbered.of_eq (numbered : Numbered lib encoder s) {t : ClientParts μ ω ε α}
    (voice : t.voice = s.voice) (packets : voiceIn t.log = voiceIn s.log)
    (spoken : spokenIn t.log = spokenIn s.log) : Numbered lib encoder t := by
  constructor
  all_goals simp only [voice, packets, spoken]
  · exact numbered.encoding
  · exact numbered.sequence
  · exact numbered.after
  · exact numbered.packets

theorem spoken_sends (spoken : List EncodeCall) :
    Sends lib fun s : ClientParts μ ω ε α => spokenIn s.log = spoken where
  tunnel same _ _ := (spokenIn_record rfl).trans same
  datagram same _ _ := (spokenIn_record rfl).trans same

theorem Numbered.speak (writes : lib.opusEncoder.Writes) (numbered : Numbered lib encoder s)
    (equipped : s.Equipped) {speech : Speech} {t : ClientParts μ ω ε α}
    (run : s.clientWriteAudio lib carrier speech = .ok t) : Numbered lib encoder t := by
  obtain ⟨⟨voice, after⟩, encoded, ended⟩ := bind_eq_ok.mp run
  cases ended
  have calls : spokenIn (s.record (.spoke speech)).log = spokenIn s.log ++ [speech.call] :=
    List.filterMap_append
  have silent : voiceIn (s.record (.spoke speech)).log = voiceIn s.log := voiceIn_record rfl
  have supplied : suppliedBy (spokenIn s.log ++ [speech.call]) =
      suppliedBy (spokenIn s.log) ++ speech.call.supplied := by
    rw [suppliedBy, List.flatMap_append, List.flatMap_singleton]
    rfl
  have start : Kept (fun t => spokenIn t.log = spokenIn (s.record (.spoke speech)).log)
      s.audio.udp.bufferPool (s.record (.spoke speech)) := ⟨rfl, equipped.record _, rfl⟩
  have unspoken : spokenIn after.log = spokenIn (s.record (.spoke speech)).log :=
    ((mumbleAudioEncoderEncode_unaborted (by decide)
      (fun s buf size kept short => encoderCb_kept (spoken_sends _) kept buf short) equipped.framedOut _ _ _
      start).result encoded).2.holds
  have all : suppliedBy (spokenIn { after with voice }.log) =
      suppliedBy (spokenIn s.log) ++ speech.call.supplied := by
    rw [← supplied, ← calls]
    exact congrArg suppliedBy unspoken
  obtain ⟨encoding, sequence, next, packets⟩ :=
    numbered.encoding.encode_ok writes encoderCb_notes speech.call encoded
  constructor
  · rw [all, leftover_append clientFrameSize.positive]
    exact encoding
  · rw [all, chunks_append clientFrameSize.positive, List.length_append, UInt32.ofNat_add,
      ← numbered.sequence]
    exact sequence
  · rw [all, chunks_append clientFrameSize.positive, List.map_append, opusAfter, List.foldl_append]
    rw [numbered.after] at next
    exact next
  · rw [all, chunks_append clientFrameSize.positive, packetsOf_append, UInt32.zero_add,
      ← numbered.sequence, ← numbered.after, ← numbered.packets, ← silent]
    exact packets

theorem numbered_steady (writes : lib.opusEncoder.Writes) :
    Steady lib (fun _ _ => True) (Numbered (ω := ω) (α := α) lib encoder) where
  app numbered := numbered.of_eq rfl rfl rfl
  pingDue numbered := numbered.of_eq rfl rfl rfl
  control _ numbered _ := numbered.of_eq rfl (voiceIn_record rfl) (spokenIn_record rfl)
  speak numbered equipped run := numbered.speak writes equipped run
  listen numbered := numbered.of_eq rfl rfl rfl
  pool numbered := numbered.of_eq rfl rfl rfl
  opened numbered := numbered.of_eq rfl rfl rfl
  confirmed numbered _ := numbered.of_eq rfl (voiceIn_record rfl) (spokenIn_record rfl)
  rekeyed numbered _ := numbered.of_eq rfl (voiceIn_record rfl) (spokenIn_record rfl)
  waited numbered _ := numbered.of_eq rfl rfl rfl
  attempted numbered _ := numbered.of_eq rfl (voiceIn_record rfl) (spokenIn_record rfl)
  timeout numbered _ := numbered.of_eq rfl (voiceIn_record rfl) (spokenIn_record rfl)

end Effects

/-- In every run of a client, the voice packets that have gone out, by whichever way
each of them went, are exactly those of the whole blocks of all samples supplied so
far, in order and numbered from zero. None is lost, doubled or made twice when the way
changes, when a callback speaks or when other messages come in between. -/
theorem client_voice_numbered {μ ω ε α : Type} (lib : Libraries μ ω ε) (writes : lib.opusEncoder.Writes)
    (application : Application μ α) {memory : ClientMemory ω ε α} {now : Nat}
    {client final : MumbleClient μ ω ε α} (init : mumbleClientInit memory now = .ok client)
    {events : List (Carrier × ClientEvent μ)} (run : client.Reaches lib application events final) :
    voiceIn final.state.log = packetsOf lib.opusEncoder clientFrameSize 0 memory.opusEncoder
      (chunks clientFrameSize.bytes (suppliedBy (spokenIn final.state.log))) := by
  have fresh := mumbleClientInit_fresh init
  have initially : Numbered lib memory.opusEncoder client.state := by
    have first := init_encoding memory.opusEncoder clientFrameSize memory.codecOut memory.framedOut
    have silent : suppliedBy (spokenIn ([] : List (Nat × Incident μ))) = [] := rfl
    constructor
    all_goals rw [fresh.log, silent]
    · rw [fresh.voice]
      exact first
    · rw [fresh.voice]
      rfl
    · rw [fresh.voice]
      rfl
    · rfl
  exact ((numbered_steady writes).reaches (fresh.kept initially) fresh.spare run).holds.packets

theorem echoOpus_writes : echoOpus.Writes := fun _ _ _ _ => Int.le_refl 2

theorem client_voice_numbered_sample : ∃ client final, mumbleClientInit sampleMemory 0 = .ok client ∧
    client.Reaches sampleLibraries answeringApplication sampleEvents final ∧
    final.state.log.map (fun entry => entry.2.label) = ["keys", "ping", "confirmed", "spoke", "voice"] ∧
    voiceIn final.state.log = packetsOf echoOpus clientFrameSize 0 0
      (chunks clientFrameSize.bytes (suppliedBy (spokenIn final.state.log))) := by
  obtain ⟨client, final, init, run, labels⟩ := sample_run
  exact ⟨client, final, init, run, labels,
    client_voice_numbered sampleLibraries echoOpus_writes answeringApplication init run⟩

end Mumble

import Mumble.EncoderProofs

/-! The duration of a frame. The count of samples for a frame is the count of bytes
for the buffer, so that a block holds half of the samples. -/
namespace Mumble
open CExec Chunking

/-- A rate and a duration with a whole number of samples. -/
structure FrameTiming where
  sampleRate : UInt16
  bufferMs : UInt16
  samples : Nat
  whole : sampleRate.toNat * bufferMs.toNat = 1000 * samples
  positive : 0 < samples

/-- The `audio_buffer_size` that the encoder is created with. -/
def FrameTiming.size (t : FrameTiming) : FrameSize where
  bytes := t.samples
  positive := t.positive
  small := by
    have rate := Nat.le_of_lt_succ t.sampleRate.toNat_lt
    have duration := Nat.le_of_lt_succ t.bufferMs.toNat_lt
    have product := Nat.mul_le_mul rate duration
    rw [t.whole] at product
    omega

/-- What `opus_encode` is given: the bytes that it may read and the count of samples. -/
abbrev EncodeArgs := List UInt8 × Int

/-- A libopus that also keeps a log of what it is given. -/
def OpusEncoderApi.traced {ω : Type} (api : OpusEncoderApi ω) : OpusEncoderApi (ω × List EncodeArgs) where
  encode state pcm count room :=
    let result := api.encode state.1 pcm count room
    (result.1, (result.2.1, state.2 ++ [(pcm, count)]), result.2.2)
  malloc := api.malloc
  unset := api.unset

/-- A call of the codec, with all samples of its buffer. -/
structure PcmCall where
  samples : List UInt16
  termination : Bool
  small : samples.length < 2 ^ 31

def streamOf (calls : List PcmCall) : List UInt16 := calls.flatMap PcmCall.samples

def encodeCalls {ω τ : Type} (api : OpusEncoderApi ω) (cb : τ → List UInt8 → Nat → Bool → Run τ)
    (codec : CodecOpusEncoder ω) (state : τ) : List PcmCall → Run (CodecOpusEncoder ω × τ)
  | [] => .ok (codec, state)
  | call :: calls => do
    let (codec, state) ← mumbleCodecOpusEncode api codec call.samples call.samples.length call.termination
      cb state
    encodeCalls api cb codec state calls

/-- Every call of `opus_encode` is given a frame of the stream, each the one behind
the one before. -/
def FramesTimed (t : FrameTiming) (stream : List UInt16) (log : List EncodeArgs) : Prop :=
  ∀ k args, log[k]? = some args → args.2 = (t.samples : Int) ∧ args.1.length = 2 * t.samples ∧
    args.1 = pcmBytes ((stream.drop (k * t.samples)).take t.samples)

section
variable {ω τ : Type} {api : OpusEncoderApi ω} {cb : τ → List UInt8 → Nat → Bool → Run τ}
  {codec codec' : CodecOpusEncoder (ω × List EncodeArgs)} {state state' : τ} {size : FrameSize}

/-- What becomes of a block. -/
def argsOf (size : FrameSize) (block : List UInt8) : EncodeArgs :=
  (block.take (2 * (size.bytes / 2)), size.bytes / 2)

theorem traced_step {block : List UInt8} {final : Bool} (whole : block.length = size.bytes)
    (run : onEncoderFrame api.traced cb (codec, state) block size.bytes final = .ok (codec', state')) :
    codec'.encoder.2 = codec.encoder.2 ++ [argsOf size block] := by
  have small := size.small
  have samples : slice block (2 * (size.bytes / 2)) = .ok (block.take (2 * (size.bytes / 2))) :=
    slice_of_le (by omega)
  have frames : toInt (size.bytes / 2 : Int) = size.bytes / 2 := toInt_of_small (by omega) (by omega)
  rw [onEncoderFrame, samples, ok_bind, frames] at run
  obtain ⟨codecOut, -, run⟩ := bind_eq_ok.mp run
  obtain ⟨_, -, run⟩ := bind_eq_ok.mp run
  obtain ⟨⟨varintRet, framedOut, written⟩, -, run⟩ := bind_eq_ok.mp run
  obtain ⟨_, -, run⟩ := bind_eq_ok.mp run
  obtain ⟨_, -, run⟩ := bind_eq_ok.mp run
  obtain ⟨payload, -, run⟩ := bind_eq_ok.mp run
  obtain ⟨framedOut', -, run⟩ := bind_eq_ok.mp run
  obtain ⟨state'', -, ended⟩ := bind_eq_ok.mp run
  cases ended
  rfl

/-- All blocks of a write. -/
theorem traced_blocks {mark : Bool} {blocks : List (List UInt8)}
    (whole : ∀ block ∈ blocks, block.length = size.bytes)
    (run : (lastMarked mark blocks).foldlM (blockCall (onEncoderFrame api.traced cb) size.bytes)
      (codec, state) = .ok (codec', state')) :
    codec'.encoder.2 = codec.encoder.2 ++ blocks.map (argsOf size) := by
  induction blocks generalizing codec state with
  | nil =>
    cases run
    exact (List.append_nil _).symm
  | cons block blocks ih =>
    obtain ⟨flag, rest⟩ : ∃ flag,
        lastMarked mark (block :: blocks) = (block, flag) :: lastMarked mark blocks := by
      cases blocks with
      | nil => exact ⟨mark, rfl⟩
      | cons next blocks => exact ⟨false, rfl⟩
    rw [rest, List.foldlM_cons] at run
    obtain ⟨⟨codec'', state''⟩, first, run⟩ := bind_eq_ok.mp run
    have later := ih (fun b member => whole b (List.mem_cons_of_mem _ member)) run
    rw [later, traced_step (whole block List.mem_cons_self) first, List.append_assoc]
    rfl

/-- Between two calls: what is left over is buffered, and every block has been handed on. -/
structure Traced (size : FrameSize) (codec : CodecOpusEncoder (ω × List EncodeArgs)) (bytes : List UInt8) :
    Prop where
  allocated : codec.buffer.bufAllocated = size.bytes
  buffered : codec.buffer.buf = leftover size.bytes bytes
  log : codec.encoder.2 = (chunks size.bytes bytes).map (argsOf size)

theorem Traced.room {bytes : List UInt8} (traced : Traced size codec bytes) :
    codec.buffer.buf.length < codec.buffer.bufAllocated := by
  rw [traced.buffered, leftover_length, traced.allocated]
  exact Nat.mod_lt _ size.positive

theorem PcmCall.byteCount (call : PcmCall) :
    toUnsigned (2 * call.samples.length) = (pcmBytes call.samples).length := by
  have small := call.small
  rw [toUnsigned_of_small (by omega) (by omega), pcmBytes_length]
  omega

theorem Traced.encode {bytes : List UInt8} (traced : Traced size codec bytes) (call : PcmCall)
    (run : mumbleCodecOpusEncode api.traced codec call.samples call.samples.length call.termination cb state =
      .ok (codec', state')) : Traced size codec' (bytes ++ pcmBytes call.samples) := by
  rw [mumbleCodecOpusEncode, call.byteCount] at run
  obtain ⟨⟨buffer, codec'', state''⟩, written, ended⟩ := bind_eq_ok.mp run
  cases ended
  obtain ⟨kept, allocated, mark, emitted⟩ := mumbleBufferWrite_eq_ok traced.room written
  rw [traced.buffered, traced.allocated] at kept emitted
  have log := traced_blocks (fun block => length_of_mem_chunks) emitted
  refine ⟨allocated.trans traced.allocated, ?_, ?_⟩
  · rw [leftover_append size.positive]
    exact kept
  · rw [chunks_append size.positive, List.map_append, ← traced.log]
    exact log

theorem Traced.encodeCalls {bytes : List UInt8} {calls : List PcmCall} (traced : Traced size codec bytes)
    (run : encodeCalls api.traced cb codec state calls = .ok (codec', state')) :
    Traced size codec' (bytes ++ pcmBytes (streamOf calls)) := by
  induction calls generalizing codec state bytes with
  | nil =>
    cases run
    rwa [streamOf, List.flatMap_nil, pcmBytes, List.flatMap_nil, List.append_nil]
  | cons call calls ih =>
    obtain ⟨⟨codec'', state''⟩, first, rest⟩ := bind_eq_ok.mp run
    have all : pcmBytes (streamOf (call :: calls)) = pcmBytes call.samples ++ pcmBytes (streamOf calls) := by
      rw [streamOf, List.flatMap_cons, pcmBytes, List.flatMap_append]
      rfl
    rw [all, ← List.append_assoc]
    exact ih (traced.encode call first) rest

/-- All blocks of a write are encoded, if every encoding succeeds. -/
theorem blocks_return (returns : api.traced.Returns size)
    (callback : ∀ state buf n final, n ≤ buf.length → ∃ next, cb state buf n final = .ok next)
    (sized : codec.Sized size) {blocks : List (List UInt8)}
    (whole : ∀ block ∈ blocks, block.length = size.bytes) (state : τ) :
    ∃ codec' state', codec'.Sized size ∧
      blocks.foldlM (fun state block => onEncoderFrame api.traced cb state block size.bytes false)
        (codec, state) = .ok (codec', state') := by
  induction blocks generalizing codec state with
  | nil => exact ⟨codec, state, sized, rfl⟩
  | cons block blocks ih =>
    obtain ⟨codec'', rest, -, -, sized', run⟩ :=
      onEncoderFrame_eq returns cb sized (whole block List.mem_cons_self) false
    obtain ⟨state'', called⟩ := callback state
      (framed (opusOutput api.traced size codec.encoder block) ++ rest)
      (framed (opusOutput api.traced size codec.encoder block)).length false
      (by rw [List.length_append]; exact Nat.le_add_right _ _)
    obtain ⟨codec', state', sized'', later⟩ :=
      ih sized' (fun b member => whole b (List.mem_cons_of_mem _ member)) state''
    refine ⟨codec', state', sized'', ?_⟩
    rw [List.foldlM_cons, run, called, ok_bind, ok_bind, later]

theorem traced_returns {api : OpusEncoderApi ω} (returns : api.Returns size) : api.traced.Returns size where
  encode encoder block := by
    obtain ⟨ret, next, data, encoded, bounds⟩ := returns.encode encoder.1 block
    refine ⟨ret, (next, encoder.2 ++ [(block, (size.bytes / 2 : Int))]), data, ?_, bounds⟩
    simp only [OpusEncoderApi.traced, encoded]
  malloc := returns.malloc

/-- A run without the end of a transmission. -/
theorem encodeCalls_returns (returns : api.traced.Returns size)
    (callback : ∀ state buf n final, n ≤ buf.length → ∃ next, cb state buf n final = .ok next)
    (sized : codec.Sized size) {bytes : List UInt8} (traced : Traced size codec bytes) {calls : List PcmCall}
    (going : ∀ call ∈ calls, call.termination = false) (state : τ) :
    ∃ last, Mumble.encodeCalls api.traced cb codec state calls = .ok last := by
  induction calls generalizing codec state bytes with
  | nil => exact ⟨_, rfl⟩
  | cons call calls ih =>
    have room : codec.buffer.buf.length < codec.buffer.bufAllocated := traced.room
    obtain ⟨buffer, -, -, written⟩ := @mumbleBufferWrite_chunks _ (onEncoderFrame api.traced cb) codec.buffer
      room (pcmBytes call.samples) []
    rw [List.append_nil, traced.allocated] at written
    obtain ⟨codec'', state'', sized', emitted⟩ := blocks_return returns callback sized
      (fun block => length_of_mem_chunks) state
    have first : mumbleCodecOpusEncode api.traced codec call.samples call.samples.length call.termination cb
        state = .ok ({ codec'' with buffer }, state'') := by
      rw [mumbleCodecOpusEncode, call.byteCount, going call List.mem_cons_self, written, emitted]
      rfl
    have next : CodecOpusEncoder.Sized { codec'' with buffer } size := ⟨sized'.codecOut, sized'.framedOut⟩
    obtain ⟨last, rest⟩ := ih next (traced.encode call first)
      (fun c member => going c (List.mem_cons_of_mem _ member)) state''
    refine ⟨last, ?_⟩
    rw [Mumble.encodeCalls, first, ok_bind]
    exact rest

end

/-- The frames of a run are those that the rate and the duration say if and only if
there is none. A run without the end of a transmission returns if every encoding
succeeds. -/
theorem frame_duration_iff {ω τ : Type} (api : OpusEncoderApi ω) (t : FrameTiming) (encoder : ω)
    (codecOut framedOut : Memory t.size.bytes) (cb : τ → List UInt8 → Nat → Bool → Run τ)
    (calls : List PcmCall) (state : τ) :
    (∀ last, encodeCalls api.traced cb (mumbleCodecOpusCreateEncoder (encoder, []) t.size codecOut framedOut)
        state calls = .ok last →
      (FramesTimed t (streamOf calls) last.1.encoder.2 ↔ 2 * (streamOf calls).length < t.samples)) ∧
      (api.Returns t.size →
        (∀ state buf n final, n ≤ buf.length → ∃ next, cb state buf n final = .ok next) →
        (∀ call ∈ calls, call.termination = false) →
        ∃ last, encodeCalls api.traced cb
          (mumbleCodecOpusCreateEncoder (encoder, []) t.size codecOut framedOut) state calls = .ok last) := by
  have positive : 0 < t.size.bytes := t.positive
  have start : Traced t.size (mumbleCodecOpusCreateEncoder (encoder, []) t.size codecOut framedOut) [] := by
    have none : ([] : List UInt8).length < t.size.bytes := positive
    refine ⟨rfl, ?_, ?_⟩
    · rw [leftover_short none]
      rfl
    · rw [chunks_short none]
      rfl
  constructor
  · intro last run
    have log := (start.encodeCalls run).log
    rw [List.nil_append] at log
    rw [log, ← pcmBytes_length]
    constructor
    · intro timed
      by_contra long
      have some : chunks t.size.bytes (pcmBytes (streamOf calls)) ≠ [] := fun none =>
        long ((chunks_eq_nil_iff positive _).mp none)
      obtain ⟨block, blocks, split⟩ := List.exists_cons_of_ne_nil some
      have first := (timed 0 (argsOf t.size block) (by rw [split]; rfl)).1
      have half : (t.size.bytes : Int) / 2 = t.size.bytes := first
      omega
    · intro short k args found
      have short : (pcmBytes (streamOf calls)).length < t.size.bytes := short
      rw [chunks_short short] at found
      cases found
  · intro returns callback going
    exact encodeCalls_returns (traced_returns returns) callback ⟨codecOut.property, framedOut.property⟩ start
      going state

/-- A millisecond at the lowest rate. -/
def oneMillisecond : FrameTiming := ⟨8000, 1, 8, rfl, Nat.succ_pos 7⟩

def fourPcmSamples : PcmCall := ⟨[1, 2, 3, 4], false, Nat.le_of_ble_eq_true rfl⟩

/-- The codec for a millisecond, with no frame yet. -/
def millisecondCodec : CodecOpusEncoder (UInt8 × List EncodeArgs) :=
  mumbleCodecOpusCreateEncoder (0, []) oneMillisecond.size zeros zeros

theorem frame_duration_sample :
    (∀ last, encodeCalls echoOpus.traced (fun (_ : Unit) _ _ _ => .ok ()) millisecondCodec () [fourPcmSamples] =
        .ok last →
      (FramesTimed oneMillisecond (streamOf [fourPcmSamples]) last.1.encoder.2 ↔
        2 * (streamOf [fourPcmSamples]).length < oneMillisecond.samples)) ∧
      ∃ last, encodeCalls echoOpus.traced (fun (_ : Unit) _ _ _ => .ok ()) millisecondCodec ()
        [fourPcmSamples] = .ok last := by
  obtain ⟨timed, returned⟩ := frame_duration_iff echoOpus oneMillisecond 0 zeros zeros
    (fun (_ : Unit) _ _ _ => .ok ()) [fourPcmSamples] ()
  have going : ∀ call ∈ [fourPcmSamples], call.termination = false := by
    intro call member
    rw [List.mem_singleton.mp member]
    rfl
  exact ⟨timed, returned echoOpus_returns (fun _ _ _ _ _ => ⟨(), rfl⟩) going⟩

/-- Four samples fill the buffer for eight, and are encoded as a frame. -/
theorem frame_duration_half : ∃ last,
    encodeCalls echoOpus.traced (fun (_ : Unit) _ _ _ => .ok ()) millisecondCodec ()
        [fourPcmSamples] = .ok last ∧
      last.1.encoder.2 = [([1, 0, 2, 0, 3, 0, 4, 0], 4)] ∧
      ¬ FramesTimed oneMillisecond (streamOf [fourPcmSamples]) last.1.encoder.2 := by
  have log : (encodeCalls echoOpus.traced (fun (_ : Unit) _ _ _ => .ok ()) millisecondCodec ()
      [fourPcmSamples]).map (fun last => last.1.encoder.2) = .ok [([1, 0, 2, 0, 3, 0, 4, 0], 4)] := by
    decide +kernel
  cases run : encodeCalls echoOpus.traced (fun (_ : Unit) _ _ _ => .ok ()) millisecondCodec ()
      [fourPcmSamples] with
  | error fault =>
    rw [run] at log
    cases log
  | ok last =>
    rw [run] at log
    have same : last.1.encoder.2 = [([1, 0, 2, 0, 3, 0, 4, 0], 4)] := Except.ok.inj log
    refine ⟨last, rfl, same, fun timed => ?_⟩
    rw [same] at timed
    exact absurd (timed 0 _ rfl).1 (by decide)

end Mumble

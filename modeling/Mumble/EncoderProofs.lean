import Mumble.AudioEncoder
import Mumble.VarintProofs

/-! The sender as one transducer of its stream of samples. Every whole block of
the bytes of all calls becomes a packet, numbered from zero. -/
namespace Mumble
open CExec Bytes Chunking

/-- What the encoding of a block has stored, and what it leaves. -/
def opusOutput {ω : Type} (api : OpusEncoderApi ω) (size : FrameSize) (encoder : ω) (block : List UInt8) :
    List UInt8 :=
  let (ret, _, data) :=
    api.encode encoder (block.take (2 * (size.bytes / 2))) (size.bytes / 2) size.bytes
  data.take ret.toNat

def opusNext {ω : Type} (api : OpusEncoderApi ω) (size : FrameSize) (encoder : ω) (block : List UInt8) :
    ω :=
  (api.encode encoder (block.take (2 * (size.bytes / 2))) (size.bytes / 2) size.bytes).2.1

/-- The encoding gives at least a byte and no more than what both output buffers
hold, and there is memory. -/
structure OpusEncoderApi.Returns {ω : Type} (api : OpusEncoderApi ω) (size : FrameSize) : Prop where
  encode : ∀ encoder block, ∃ ret next data,
    api.encode encoder block (size.bytes / 2) size.bytes = (ret, next, data) ∧ 0 < ret ∧
      ret ≤ data.length ∧ data.length ≤ size.bytes ∧
      varintEncodeSize (.ofNat ret.toNat) + ret < size.bytes
  malloc : ∀ n, ∃ memory, api.malloc n = some memory ∧ memory.length = n

def audioHeader (target : UInt32) : UInt8 := encodedHeader audioOpus target.toUInt64

/-- The payload of a packet: what the encoding has stored, behind its length. -/
def framed (output : List UInt8) : List UInt8 := varintBytes (.ofNat output.length) ++ output

def voicePacket (target sequence : UInt32) (output : List UInt8) : List UInt8 :=
  audioHeader target :: (varintBytes sequence.toUInt64 ++ framed output)

/-- A call of the sender, with all samples of its `pcm_t`. -/
structure EncodeCall where
  target : UInt32
  samples : List UInt16
  hz : Int
  position : Option Position
  small : samples.length < 2 ^ 31

def EncodeCall.bytes (call : EncodeCall) : List UInt8 := pcmBytes call.samples

def encodeAll {ω τ : Type} (api : OpusEncoderApi ω) (cb : τ → List UInt8 → Nat → Run τ)
    (encoder : AudioEncoder ω) (state : τ) : List EncodeCall → Run (AudioEncoder ω × τ)
  | [] => .ok (encoder, state)
  | call :: calls => do
    let (encoder, state) ← mumbleAudioEncoderEncode api cb encoder call.target
      ⟨call.samples, call.hz, call.samples.length⟩ call.position state
    encodeAll api cb encoder state calls

/-- A byte with the target it is supplied under. -/
abbrev Supplied := UInt8 × UInt32

def EncodeCall.supplied (call : EncodeCall) : List Supplied := call.bytes.map fun b => (b, call.target)

def suppliedBy (calls : List EncodeCall) : List Supplied := calls.flatMap EncodeCall.supplied

/-- The target of the call that completes a block. -/
def blockTarget (block : List Supplied) : UInt32 := (block.getLast?.map Prod.snd).getD 0

def opusAfter {ω : Type} (api : OpusEncoderApi ω) (size : FrameSize) (encoder : ω)
    (chunks : List (List UInt8)) : ω :=
  chunks.foldl (opusNext api size) encoder

def packetsOf {ω : Type} (api : OpusEncoderApi ω) (size : FrameSize) :
    UInt32 → ω → List (List Supplied) → List (List UInt8)
  | _, _, [] => []
  | sequence, encoder, block :: chunks =>
    voicePacket (blockTarget block) sequence (opusOutput api size encoder (block.map Prod.fst)) ::
      packetsOf api size (sequence + 1) (opusNext api size encoder (block.map Prod.fst)) chunks

/-- A callback that also keeps a log of the packets it is given. -/
def recorded {τ : Type} (cb : τ → List UInt8 → Nat → Run τ) (state : τ × List (List UInt8))
    (buf : List UInt8) (size : Nat) : Run (τ × List (List UInt8)) := do
  let next ← cb state.1 buf size
  let packet ← slice buf size
  .ok (next, state.2 ++ [packet])

/-- A callback that returns on every buffer it is given. -/
def CallbackReturns {τ : Type} (cb : τ → List UInt8 → Nat → Run τ) : Prop :=
  ∀ state buf size, size ≤ buf.length → ∃ next, cb state buf size = .ok next

section
variable {ω τ : Type} {api : OpusEncoderApi ω} {size : FrameSize}

theorem varintBytes_le_nine (source : UInt64) : (varintBytes source).length ≤ 9 := by
  have width := varintBytes_length source
  have nine := varintEncodeSize_le_nine source
  omega

/-- The allocation holds the packet and a position, as the two assertions ask, and the
size of the packet passes through an `int` and an `unsigned`. -/
theorem packet_capacity {head payload : List UInt8} (short : head.length ≤ 10)
    (small : payload.length + 37 < 2 ^ 31) :
    payload.length < toUnsigned (payload.length + 37 - head.length) ∧
      4 * 3 < toSize (payload.length + 37 - (head ++ payload).length) ∧
      toUnsigned ((head ++ payload).length : Nat) = (head ++ payload).length ∧
      toInt (head ++ payload).length = (head ++ payload).length := by
  have length : (head ++ payload).length = head.length + payload.length := List.length_append
  refine ⟨?_, ?_, ?_, toInt_of_small (by omega) (by omega)⟩
  · rw [toUnsigned_of_small (by omega) (by omega)]
    omega
  · rw [toSize_of_small (by omega) (by omega)]
    omega
  · rw [toUnsigned_of_small (by omega) (by omega), Int.toNat_natCast]

/-- The packet that is made of a payload. -/
theorem encoderCodecCb_eq {cb : τ → List UInt8 → Nat → Run τ}
    (callback : CallbackReturns cb) (target : UInt32) (position : Position) (sequence : UInt32)
    (state : τ) (log : List (List UInt8)) {payload memory : List UInt8}
    (got : api.malloc (payload.length + 37) = some memory) (length : memory.length = payload.length + 37)
    (small : payload.length + 37 < 2 ^ 31) (tail : List UInt8) (final : Bool) :
    ∃ next, encoderCodecCb api (some (recorded cb)) target.toUInt64 position (sequence, state, log)
        (payload ++ tail) payload.length final =
      .ok (sequence + 1, next,
        log ++ [audioHeader target :: (varintBytes sequence.toUInt64 ++ payload)]) := by
  have width := varintBytes_le_nine sequence.toUInt64
  have size_eq := varintBytes_length sequence.toUInt64
  have encodedSize : toInt (toSize (payload.length + 8 * 3 + 4 * 3 + 1)) = payload.length + 37 := by
    rw [toSize, toInt_of_small] <;> omega
  have allocated : toSize (payload.length + 37 : Int) = payload.length + 37 := by
    rw [toSize]
    omega
  have stored : store memory 0 [audioHeader target] = .ok ([audioHeader target] ++ memory.drop 1) :=
    store_append [] (by rw [length]; exact Nat.succ_pos _)
  have written := varintEncode_eq sequence.toUInt64 (memory.drop 1) (payload.length + 37) 0 (by omega)
    (by rw [List.length_drop]; omega)
  generalize varintBytes sequence.toUInt64 = number at *
  obtain ⟨head, head_eq⟩ : ∃ head, head = audioHeader target :: number := ⟨_, rfl⟩
  obtain ⟨room, room_eq⟩ : ∃ room, room = (memory.drop 1).drop number.length := ⟨_, rfl⟩
  have room_length : room.length = payload.length + 36 - number.length := by
    rw [room_eq, List.length_drop, List.length_drop, length]
    rfl
  have copied : store (head ++ room) head.length payload = _ := store_append head (by omega)
  have position_length : position.bytes.length = 12 := rfl
  have positioned : store ((head ++ payload) ++ room.drop payload.length) (head ++ payload).length
      position.bytes = _ :=
    store_append (head ++ payload) (by rw [List.length_drop, position_length]; omega)
  obtain ⟨next, called⟩ := callback state
    (head ++ payload ++ (position.bytes ++ (room.drop payload.length).drop position.bytes.length))
    (head ++ payload).length (by simp only [List.length_append]; omega)
  refine ⟨next, ?_⟩
  have head_length : (1 + (number.length : Int)) = head.length := by
    rw [head_eq, List.length_cons]
    omega
  have packet_length : (head.length : Int) + payload.length = (head ++ payload).length := by
    rw [List.length_append]
    rfl
  have short : head.length ≤ 10 := by
    rw [head_eq, List.length_cons]
    omega
  obtain ⟨enough, enough', handed, kept⟩ := packet_capacity short small
  unfold encoderCodecCb
  dsimp only
  rw [encodedSize, allocated, got]
  dsimp only
  change store memory 0 [audioHeader target] >>= _ = _
  rw [stored, ok_bind]
  change varintEncode sequence.toUInt64 (memory.drop 1) _ 0 >>= _ = _
  rw [written, ok_bind]
  dsimp only
  rw [require_true rfl, ok_bind, head_length, require_true enough, ok_bind, slice_length_append,
    ok_bind]
  change store (audioHeader target :: number ++ (memory.drop 1).drop number.length) _ payload >>= _ =
    .ok (_, _, log ++ [audioHeader target :: number ++ payload])
  rw [← head_eq, ← room_eq, Int.toNat_natCast, copied, ok_bind, packet_length, kept,
    require_true enough', ok_bind,
    Int.toNat_natCast, ← List.append_assoc, positioned, ok_bind, handed, recorded, called, ok_bind,
    slice_length_append]
  rfl

/-- The header depends on the low five bits of the target. -/
theorem audioHeader_low (target : UInt32) : ∃ n < 32, target &&& 0x1F = .ofNat n ∧
    audioHeader target = encodedHeader audioOpus (UInt32.ofNat n).toUInt64 := by
  have low : (target &&& 0x1F).toNat < 32 := by
    rw [UInt32.toNat_and]
    exact Nat.and_lt_two_pow _ (show 31 < 2 ^ 5 by decide)
  have header : audioHeader target = encodedHeader audioOpus (target &&& 0x1F).toUInt64 := by
    rw [audioHeader, encodedHeader, encodedHeader, UInt32.toUInt64_and, UInt64.and_assoc]
    rfl
  exact ⟨(target &&& 0x1F).toNat, low, UInt32.ofNat_toNat.symm, by rw [UInt32.ofNat_toNat, header]⟩

/-- Both output buffers have the size of a block. -/
structure CodecOpusEncoder.Sized (codec : CodecOpusEncoder ω) (size : FrameSize) : Prop where
  codecOut : codec.codecOut.length = size.bytes
  framedOut : codec.framedOut.length = size.bytes

theorem framed_length (returns : api.Returns size) (encoder : ω) (block : List UInt8) :
    (framed (opusOutput api size encoder block)).length < size.bytes := by
  obtain ⟨ret, next, data, encoded, positive, long, fits, room⟩ :=
    returns.encode encoder (block.take (2 * (size.bytes / 2)))
  have output : opusOutput api size encoder block = data.take ret.toNat := by
    simp only [opusOutput, encoded]
  have count : (data.take ret.toNat).length = ret.toNat := by
    rw [List.length_take]
    omega
  have width := varintBytes_length (.ofNat ret.toNat)
  rw [framed, List.length_append, output, count]
  omega

/-- What the codec hands on for an output that fits behind its length. -/
theorem onEncoderFrame_framed (cb : τ → List UInt8 → Nat → Bool → Run τ) {codec : CodecOpusEncoder ω}
    (sized : codec.Sized size) {block data : List UInt8} {ret : Int} {next : ω}
    (whole : block.length = size.bytes)
    (encoded : api.encode codec.encoder (block.take (2 * (size.bytes / 2))) (size.bytes / 2) size.bytes =
      (ret, next, data))
    (positive : 0 < ret) (long : ret ≤ data.length) (fits : data.length ≤ size.bytes)
    (room : varintEncodeSize (.ofNat ret.toNat) + ret < size.bytes) (final : Bool) :
    ∃ codec' rest, codec'.buffer = codec.buffer ∧ codec'.encoder = next ∧ codec'.Sized size ∧
      ∀ state, onEncoderFrame api cb (codec, state) block size.bytes final =
        cb state (framed (data.take ret.toNat) ++ rest) (framed (data.take ret.toNat)).length final >>=
          fun state => .ok (codec', state) := by
  have small := size.small
  have count : (data.take ret.toNat).length = ret.toNat := by
    rw [List.length_take]
    omega
  have samples : slice block (2 * (size.bytes / 2)) = .ok (block.take (2 * (size.bytes / 2))) :=
    slice_of_le (by omega)
  have frames : toInt (size.bytes / 2 : Int) = size.bytes / 2 := toInt_of_small (by omega) (by omega)
  have stored : store codec.codecOut 0 data = .ok (data ++ codec.codecOut.drop data.length) :=
    store_append [] (by rw [sized.codecOut]; exact fits)
  have length : toSize ret = ret.toNat := toSize_of_small (by omega) (by omega)
  have width := varintBytes_length (.ofNat ret.toNat)
  have written := varintEncode_eq (.ofNat ret.toNat) codec.framedOut size.bytes 0 (by omega)
    (by rw [sized.framedOut]; omega)
  rw [framed, count]
  generalize varintBytes (.ofNat ret.toNat) = number at *
  have payload : slice (data ++ codec.codecOut.drop data.length) ret.toNat = .ok (data.take ret.toNat) := by
    rw [slice_of_le (by rw [List.length_append]; omega), List.take_append_of_le_length (by omega)]
  have copied : store (number ++ codec.framedOut.drop number.length) number.length (data.take ret.toNat) =
      .ok (number ++ (data.take ret.toNat ++ (codec.framedOut.drop number.length).drop ret.toNat)) := by
    rw [store_append number (by rw [count, List.length_drop, sized.framedOut]; omega), count]
  have sum : toInt (ret + number.length) < size.bytes := by
    rw [toInt_of_small] <;> omega
  have handed : toUnsigned (toInt (number.length + ret)) = (number ++ data.take ret.toNat).length := by
    rw [toInt_of_small (by omega) (by omega), toUnsigned_of_small (by omega) (by omega),
      List.length_append, count]
    omega
  refine ⟨{ codec with
      encoder := next
      codecOut := data ++ codec.codecOut.drop data.length
      framedOut := number ++ (data.take ret.toNat ++ (codec.framedOut.drop number.length).drop ret.toNat) },
    (codec.framedOut.drop number.length).drop ret.toNat, rfl, rfl, ⟨?_, ?_⟩, fun state => ?_⟩
  · rw [List.length_append, List.length_drop, sized.codecOut]
    omega
  · simp only [List.length_append, List.length_drop, sized.framedOut, count]
    omega
  · simp only [onEncoderFrame, samples, ok_bind, frames, sized.codecOut, encoded, stored,
      require_true positive, length, sized.framedOut, written, require_true, require_true sum, payload,
      Int.toNat_natCast, copied, handed, List.append_assoc]

/-- What the codec hands on for a block. -/
theorem onEncoderFrame_eq (returns : api.Returns size) (cb : τ → List UInt8 → Nat → Bool → Run τ)
    {codec : CodecOpusEncoder ω} (sized : codec.Sized size) {block : List UInt8}
    (whole : block.length = size.bytes) (final : Bool) :
    ∃ codec' rest, codec'.buffer = codec.buffer ∧
      codec'.encoder = opusNext api size codec.encoder block ∧ codec'.Sized size ∧
      ∀ state, onEncoderFrame api cb (codec, state) block size.bytes final =
        cb state (framed (opusOutput api size codec.encoder block) ++ rest)
          (framed (opusOutput api size codec.encoder block)).length final >>=
          fun state => .ok (codec', state) := by
  obtain ⟨ret, next, data, encoded, positive, long, fits, room⟩ :=
    returns.encode codec.encoder (block.take (2 * (size.bytes / 2)))
  have output : opusOutput api size codec.encoder block = data.take ret.toNat := by
    simp only [opusOutput, encoded]
  have after : opusNext api size codec.encoder block = next := by
    simp only [opusNext, encoded]
  rw [output, after]
  exact onEncoderFrame_framed cb sized whole encoded positive long fits room final

theorem sequence_succ (sequence : UInt32) (n : Nat) :
    sequence + 1 + .ofNat n = sequence + .ofNat (n + 1) := by
  rw [UInt32.ofNat_add, UInt32.add_comm (.ofNat n), ← UInt32.add_assoc]
  rfl

/-- A block that is completed in a call for `target`. -/
theorem frame_step (returns : api.Returns size) {cb : τ → List UInt8 → Nat → Run τ}
    (callback : CallbackReturns cb) {codec : CodecOpusEncoder ω} (sized : codec.Sized size)
    {block : List Supplied} (whole : block.length = size.bytes) (target : UInt32)
    (stamp : blockTarget block = target) (position : Position) (sequence : UInt32) (state : τ)
    (log : List (List UInt8)) :
    ∃ codec' next, codec'.buffer = codec.buffer ∧ codec'.Sized size ∧
      codec'.encoder = opusNext api size codec.encoder (block.map Prod.fst) ∧
      onEncoderFrame api (encoderCodecCb api (some (recorded cb)) target.toUInt64 position)
          (codec, sequence, state, log) (block.map Prod.fst) size.bytes false =
        .ok (codec', sequence + 1, next, log ++ [voicePacket (blockTarget block) sequence
          (opusOutput api size codec.encoder (block.map Prod.fst))]) := by
  have total := framed_length returns codec.encoder (block.map Prod.fst)
  have whole' : (block.map Prod.fst).length = size.bytes := by rw [List.length_map, whole]
  obtain ⟨codec', rest, kept, encoder, sized', run⟩ := onEncoderFrame_eq returns
    (encoderCodecCb api (some (recorded cb)) target.toUInt64 position) sized whole' false
  obtain ⟨memory, got, length⟩ :=
    returns.malloc ((framed (opusOutput api size codec.encoder (block.map Prod.fst))).length + 37)
  have small := size.small
  obtain ⟨next, emitted⟩ := encoderCodecCb_eq callback target position sequence state log got length
    (by omega) rest false
  refine ⟨codec', next, kept, sized', encoder, ?_⟩
  rw [run, emitted, ok_bind, stamp]
  rfl

/-- All blocks that are completed in one call. -/
theorem frames_run (returns : api.Returns size) {cb : τ → List UInt8 → Nat → Run τ}
    (callback : CallbackReturns cb) {codec : CodecOpusEncoder ω} (sized : codec.Sized size)
    {found : List (List Supplied)} (whole : ∀ block ∈ found, block.length = size.bytes)
    (target : UInt32) (stamps : ∀ block ∈ found, blockTarget block = target) (position : Position)
    (sequence : UInt32) (state : τ) (log : List (List UInt8)) :
    ∃ codec' next, codec'.buffer = codec.buffer ∧ codec'.Sized size ∧
      codec'.encoder = opusAfter api size codec.encoder (found.map (List.map Prod.fst)) ∧
      (found.map (List.map Prod.fst)).foldlM (fun state block =>
        onEncoderFrame api (encoderCodecCb api (some (recorded cb)) target.toUInt64 position) state block
          size.bytes false) (codec, sequence, state, log) =
        .ok (codec', sequence + .ofNat found.length, next,
          log ++ packetsOf api size sequence codec.encoder found) := by
  induction found generalizing codec sequence state log with
  | nil =>
    refine ⟨codec, state, rfl, sized, rfl, ?_⟩
    rw [packetsOf, List.append_nil]
    exact congrArg (fun n => Except.ok (codec, n, state, log)) (UInt32.add_zero sequence).symm
  | cons block found ih =>
    obtain ⟨codec', next, kept, sized', encoder, first⟩ := frame_step returns callback sized
      (whole block (by simp)) target (stamps block (by simp)) position sequence state log
    obtain ⟨codec'', last, kept', sized'', encoder', rest⟩ := ih sized'
      (fun block member => whole block (by simp [member]))
      (fun block member => stamps block (by simp [member])) (sequence + 1) next
      (log ++ [voicePacket (blockTarget block) sequence
        (opusOutput api size codec.encoder (block.map Prod.fst))])
    refine ⟨codec'', last, kept'.trans kept, sized'', ?_, ?_⟩
    · rw [encoder', encoder]
      rfl
    · rw [List.map_cons, List.foldlM_cons, first, ok_bind, rest, sequence_succ, encoder, packetsOf,
        List.append_assoc, List.singleton_append]
      rfl

theorem pcmBytes_length (samples : List UInt16) : (pcmBytes samples).length = 2 * samples.length := by
  simp only [pcmBytes, List.length_flatMap, List.length_cons, List.length_nil, List.map_const',
    List.sum_replicate]
  exact Nat.mul_comm _ _

theorem supplied_fst (call : EncodeCall) : call.supplied.map Prod.fst = call.bytes := by
  rw [EncodeCall.supplied, List.map_map]
  exact List.map_id _

/-- What is behind a carry of less than a block was supplied in the call itself. -/
theorem blockTarget_call {carry : List Supplied} (short : carry.length < size.bytes) (call : EncodeCall)
    {block : List Supplied} (found : block ∈ chunks size.bytes (carry ++ call.supplied)) :
    blockTarget block = call.target := by
  obtain ⟨k, found⟩ := List.mem_iff_getElem?.mp found
  have last := chunks_getLast? size.positive found
  have behind : carry.length ≤ (k + 1) * size.bytes - 1 := by
    rw [Nat.add_mul, Nat.one_mul]
    omega
  rw [List.getElem?_append_right behind, EncodeCall.supplied, List.getElem?_map] at last
  have some : block.getLast?.isSome = true := by
    rw [List.getLast?_isSome, ← List.length_pos_iff, length_of_mem_chunks (List.mem_of_getElem? found)]
    exact size.positive
  rw [blockTarget]
  cases byte : call.bytes[(k + 1) * size.bytes - 1 - carry.length]? with
  | none =>
    rw [last, byte] at some
    cases some
  | some b =>
    rw [last, byte]
    rfl

/-- Between two calls: `carry` is buffered, which is less than a block. -/
structure Encoding (size : FrameSize) (encoder : AudioEncoder ω) (carry : List Supplied) : Prop where
  sized : encoder.opus.Sized size
  allocated : encoder.opus.buffer.bufAllocated = size.bytes
  buffered : encoder.opus.buffer.buf = carry.map Prod.fst
  short : carry.length < size.bytes

theorem Encoding.encode (returns : api.Returns size) {cb : τ → List UInt8 → Nat → Run τ}
    (callback : CallbackReturns cb) {encoder : AudioEncoder ω} {carry : List Supplied}
    (encoding : Encoding size encoder carry) (call : EncodeCall) (state : τ) (log : List (List UInt8)) :
    ∃ encoder' next, Encoding size encoder' (leftover size.bytes (carry ++ call.supplied)) ∧
      encoder'.sequence =
        encoder.sequence + .ofNat (chunks size.bytes (carry ++ call.supplied)).length ∧
      encoder'.opus.encoder = opusAfter api size encoder.opus.encoder
        ((chunks size.bytes (carry ++ call.supplied)).map (List.map Prod.fst)) ∧
      mumbleAudioEncoderEncode api (some (recorded cb)) encoder call.target
          ⟨call.samples, call.hz, call.samples.length⟩ call.position (state, log) =
        .ok (encoder', next, log ++ packetsOf api size encoder.sequence encoder.opus.encoder
          (chunks size.bytes (carry ++ call.supplied))) := by
  have joined : encoder.opus.buffer.buf ++ call.bytes = (carry ++ call.supplied).map Prod.fst := by
    rw [List.map_append, supplied_fst, encoding.buffered]
  have count : toUnsigned (2 * call.samples.length) = call.bytes.length := by
    have small := call.small
    rw [toUnsigned_of_small (by omega) (by omega), EncodeCall.bytes, pcmBytes_length]
    omega
  have room : encoder.opus.buffer.buf.length < encoder.opus.buffer.bufAllocated := by
    rw [encoding.buffered, List.length_map, encoding.allocated]
    exact encoding.short
  let target := call.target.toUInt64
  let position := call.position.getD api.unset
  obtain ⟨buffer', bytes, allocated, written⟩ := @mumbleBufferWrite_chunks _
    (onEncoderFrame api (encoderCodecCb api (some (recorded cb)) target position)) encoder.opus.buffer
    room call.bytes []
  rw [encoding.allocated, joined] at bytes written
  rw [chunks_map] at written
  obtain ⟨codec', next, kept, sized', after, run⟩ := frames_run returns callback encoding.sized
    (fun block => length_of_mem_chunks) call.target
    (fun block => blockTarget_call encoding.short call) position encoder.sequence state log
  refine ⟨⟨{ codec' with buffer := buffer' }, _⟩, next, ⟨?_, ?_, ?_, ?_⟩, rfl, ?_, ?_⟩
  · exact ⟨sized'.codecOut, sized'.framedOut⟩
  · rw [allocated, encoding.allocated]
  · rw [bytes, leftover_map]
  · rw [leftover_length]
    exact Nat.mod_lt _ size.positive
  · exact after
  · rw [List.append_nil] at written
    simp only [mumbleAudioEncoderEncode, mumbleCodecOpusEncode, count]
    change (mumbleBufferWrite _ _ _ call.bytes _ _ >>= _) >>= _ = _
    rw [written, run]
    rfl

theorem packetsOf_append (sequence : UInt32) (encoder : ω) (xs ys : List (List Supplied)) :
    packetsOf api size sequence encoder (xs ++ ys) = packetsOf api size sequence encoder xs ++
      packetsOf api size (sequence + .ofNat xs.length)
        (opusAfter api size encoder (xs.map (List.map Prod.fst))) ys := by
  induction xs generalizing sequence encoder with
  | nil =>
    change _ = packetsOf api size (sequence + 0) encoder ys
    rw [UInt32.add_zero]
    rfl
  | cons x xs ih =>
    rw [List.cons_append, packetsOf, packetsOf, ih, sequence_succ, List.cons_append]
    rfl

/-- A run of calls emits a packet for each block of the carry and of all they supply. -/
theorem encodeAll_packets (returns : api.Returns size) {cb : τ → List UInt8 → Nat → Run τ}
    (callback : CallbackReturns cb) {encoder : AudioEncoder ω} {carry : List Supplied}
    (encoding : Encoding size encoder carry) (calls : List EncodeCall) (state : τ)
    (log : List (List UInt8)) :
    ∃ last next, Encoding size last (leftover size.bytes (carry ++ suppliedBy calls)) ∧
      last.opus.encoder = opusAfter api size encoder.opus.encoder
        ((chunks size.bytes (carry ++ suppliedBy calls)).map (List.map Prod.fst)) ∧
      encodeAll api (recorded cb) encoder (state, log) calls =
        .ok (last, next, log ++ packetsOf api size encoder.sequence encoder.opus.encoder
          (chunks size.bytes (carry ++ suppliedBy calls))) := by
  induction calls generalizing encoder carry state log with
  | nil =>
    have nothing : carry ++ suppliedBy [] = carry := List.append_nil carry
    rw [nothing, chunks_short encoding.short, leftover_short encoding.short]
    exact ⟨encoder, state, encoding, rfl, by rw [packetsOf, List.append_nil]; rfl⟩
  | cons call calls ih =>
    obtain ⟨encoder', next, encoding', sequence, after, first⟩ :=
      encoding.encode returns callback call state log
    obtain ⟨last, next', encoding'', after', rest⟩ := ih encoding' next
      (log ++ packetsOf api size encoder.sequence encoder.opus.encoder
        (chunks size.bytes (carry ++ call.supplied)))
    have all : carry ++ suppliedBy (call :: calls) = (carry ++ call.supplied) ++ suppliedBy calls := by
      rw [suppliedBy, List.flatMap_cons, List.append_assoc]
      rfl
    refine ⟨last, next', ?_, ?_, ?_⟩
    · rw [all, leftover_append size.positive]
      exact encoding''
    · rw [all, chunks_append size.positive, List.map_append, opusAfter, List.foldl_append, after', after]
      rfl
    · rw [all, chunks_append size.positive, packetsOf_append, encodeAll, first, ok_bind]
      dsimp only
      rw [rest, sequence, after, List.append_assoc]

theorem init_encoding (encoder : ω) (size : FrameSize) (codecOut framedOut : Memory size.bytes) :
    Encoding size (mumbleAudioEncoderInit encoder size codecOut framedOut) [] where
  sized := ⟨codecOut.property, framedOut.property⟩
  allocated := rfl
  buffered := rfl
  short := size.positive

/-- The packets of a fresh encoder. -/
theorem encodeAll_init (returns : api.Returns size) {cb : τ → List UInt8 → Nat → Run τ}
    (callback : CallbackReturns cb) (encoder : ω) (codecOut framedOut : Memory size.bytes)
    (calls : List EncodeCall) (state : τ) :
    ∃ last next, Encoding size last (leftover size.bytes (suppliedBy calls)) ∧
      last.opus.encoder = opusAfter api size encoder
        ((chunks size.bytes (suppliedBy calls)).map (List.map Prod.fst)) ∧
      encodeAll api (recorded cb) (mumbleAudioEncoderInit encoder size codecOut framedOut) (state, [])
          calls =
        .ok (last, next, packetsOf api size 0 encoder (chunks size.bytes (suppliedBy calls))) :=
  encodeAll_packets returns callback (init_encoding encoder size codecOut framedOut) calls state []

end

/-- A libopus that numbers the frames and keeps the first byte of each. -/
def echoOpus : OpusEncoderApi UInt8 where
  encode count pcm _ _ := (2, count + 1, [count, pcm.headD 0])
  malloc n := some (List.replicate n 0)
  unset := ⟨0, 0, 0⟩

def eightBytes : FrameSize := ⟨8, by decide, by decide⟩

theorem echoOpus_returns : echoOpus.Returns eightBytes where
  encode count pcm := ⟨2, count + 1, [count, pcm.headD 0], rfl, by decide,
    Int.le_refl 2, Nat.le_of_ble_eq_true rfl, by decide⟩
  malloc n := ⟨List.replicate n 0, rfl, List.length_replicate⟩

def zeros : Memory eightBytes.bytes := ⟨List.replicate 8 0, rfl⟩

/-- A call with the samples `first`, `first + 1` and so on. -/
def callFrom (target : UInt32) (first : UInt16) : EncodeCall :=
  ⟨target, [first, first + 1, first + 2, first + 3, first + 4], 48000, none,
    show 5 < 2 ^ 31 by decide⟩

end Mumble

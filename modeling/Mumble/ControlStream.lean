import Mumble.Client
import Mumble.Lib.Framing

/-! The frames of the control stream and what the adapter makes of them. A
window of exactly five bytes has no header yet, its size is `-1` and the sum
with the header size is five, so it is ready, dispatched and dropped. Every
other unfinished frame waits for its rest. -/
namespace Mumble
open CExec Bytes Framing

structure Frame where
  type : UInt16
  payload : List UInt8
  bounded : payload.length < 2 ^ 32

def Frame.header (f : Frame) : List UInt8 :=
  ofBigEndian 2 f.type.toNat ++ ofBigEndian 4 f.payload.length

def Frame.wire (f : Frame) : List UInt8 := f.header ++ f.payload

def Frame.content (f : Frame) : Int × List UInt8 := (f.type.toNat, f.payload)

/-- A call for a frame: to the audio decoder, or to `protobuf_c_message_unpack`. -/
inductive Dispatch where
  | audio (buffer : List UInt8) (len : Int)
  | message (type : Int) (len : Nat) (data : List UInt8)
  deriving DecidableEq

/-- The type and the payload of the frame at the front of a window. -/
def headFrame (window : List UInt8) : Option (Int × List UInt8) :=
  let size := bigEndian ((window.drop 2).take 4)
  if 6 + size ≤ window.length then some (bigEndian (window.take 2), (window.drop 6).take size)
  else none

/-- The frame that a call presents, if the bytes it passes hold a whole one. -/
def Dispatch.frame : Dispatch → Option (Int × List UInt8)
  | .audio buffer len => headFrame (buffer.take len.toNat)
  | .message type len data => if len ≤ data.length then some (type, data.take len) else none

section
variable {σ μ : Type}

/-- Handlers that also write down each call. -/
def Handlers.record (h : Handlers σ μ) : Handlers (σ × List Dispatch) μ where
  audioDecode state buf len := do
    let next ← h.audioDecode state.1 buf len
    .ok (next, state.2 ++ [.audio buf len])
  unpack state type len data := do
    let (next, message) ← h.unpack state.1 type len data
    .ok ((next, state.2 ++ [.message type len data]), message)
  messageInternal state type message := do
    let next ← h.messageInternal state.1 type message
    .ok (next, state.2)
  onMessage := h.onMessage.map fun cb state type message => do
    let next ← cb state.1 type message
    .ok (next, state.2)

structure Handlers.Returns (h : Handlers σ μ) : Prop where
  audioDecode : ∀ state buf len, ∃ next, h.audioDecode state buf len = .ok next
  unpack : ∀ state type len data, ∃ next, h.unpack state type len data = .ok next
  messageInternal : ∀ state type message, ∃ next, h.messageInternal state type message = .ok next
  onMessage : ∀ cb ∈ h.onMessage, ∀ state type message, ∃ next, cb state type message = .ok next

end

section Header
variable {ctx : FrameDecoder}

theorem frame_header_length (f : Frame) : f.header.length = 6 := by
  rw [Frame.header, List.length_append, ofBigEndian_length, ofBigEndian_length]

theorem frame_wire_length (f : Frame) : f.wire.length = 6 + f.payload.length := by
  rw [Frame.wire, List.length_append, frame_header_length]

theorem wire_append (f : Frame) (rest : List UInt8) :
    f.wire ++ rest = f.header ++ (f.payload ++ rest) := List.append_assoc ..

theorem header_take_type (f : Frame) (rest : List UInt8) :
    bigEndian ((f.header ++ rest).take 2) = f.type.toNat := by
  rw [Frame.header, List.append_assoc, List.take_left' (ofBigEndian_length 2 _),
    bigEndian_ofBigEndian 2 f.type.toNat_lt]

theorem header_take_size (f : Frame) (rest : List UInt8) :
    bigEndian (((f.header ++ rest).drop 2).take 4) = f.payload.length := by
  rw [Frame.header, List.append_assoc, List.drop_left' (ofBigEndian_length 2 _),
    List.take_left' (ofBigEndian_length 4 _), bigEndian_ofBigEndian 4 f.bounded]

theorem mumbleFrameType_header {f : Frame} (window : ctx.buffer = f.header ++ rest) :
    mumbleFrameType ctx = f.type.toNat := by
  have long : ¬ ctx.buffer.length < 2 := by
    rw [window, List.length_append, frame_header_length]
    omega
  rw [mumbleFrameType, if_neg long, window, header_take_type]

theorem mumbleFrameSize_header {f : Frame} (window : ctx.buffer = f.header ++ rest)
    (small : f.payload.length < 2 ^ 31) : mumbleFrameSize ctx = f.payload.length := by
  have long : ¬ ctx.buffer.length < 2 + 4 := by
    rw [window, List.length_append, frame_header_length]
    omega
  rw [mumbleFrameSize, if_neg long, window, header_take_size, toInt_of_small (by omega) (by omega)]

theorem toUnsigned_frame_size {n : Nat} (small : n < 2 ^ 30) :
    toInt (n + frameHeaderSize) = n + 6 ∧ toUnsigned (n + 6) = n + 6 := by
  constructor
  · exact toInt_of_small (by rw [frameHeaderSize]; omega) (by rw [frameHeaderSize]; omega)
  · rw [toUnsigned]
    omega

theorem mumbleFrameReady_header {f : Frame} (window : ctx.buffer = f.header ++ rest)
    (small : f.payload.length < 2 ^ 30) :
    mumbleFrameReady ctx = true ↔ f.payload.length ≤ rest.length := by
  obtain ⟨sum, value⟩ := toUnsigned_frame_size small
  rw [mumbleFrameReady, mumbleFrameSize_header window (by omega), sum, value, decide_eq_true_iff,
    window, List.length_append, frame_header_length]
  omega

/-- Before the length field is complete, five bytes are ready. -/
theorem mumbleFrameReady_short (short : ctx.buffer.length < 6) :
    mumbleFrameReady ctx = true ↔ ctx.buffer.length = 5 := by
  have five : toUnsigned (toInt (-1 + frameHeaderSize)) = 5 := by decide
  rw [mumbleFrameReady, mumbleFrameSize, if_pos short, five, decide_eq_true_iff]
  omega

theorem ready_length (ready : mumbleFrameReady ctx = true) : 5 ≤ ctx.buffer.length := by
  by_cases short : ctx.buffer.length < 6
  · exact Nat.le_of_eq ((mumbleFrameReady_short short).mp ready).symm
  · omega

theorem mumbleFrameReady_unfinished {f : Frame} (small : f.payload.length < 2 ^ 30)
    (start : ctx.buffer <+: f.wire) (proper : ctx.buffer.length < f.wire.length) :
    mumbleFrameReady ctx = true ↔ ctx.buffer.length = 5 := by
  by_cases short : ctx.buffer.length < 6
  · exact mumbleFrameReady_short short
  · have header : f.header <+: ctx.buffer :=
      List.prefix_of_prefix_length_le (List.prefix_append _ _) start
        (by rw [frame_header_length]; omega)
    obtain ⟨rest, window⟩ := header
    have size : ctx.buffer.length = 6 + rest.length := by
      rw [← window, List.length_append, frame_header_length]
    rw [mumbleFrameReady_header window.symm small]
    rw [frame_wire_length] at proper
    omega

/-- A whole frame is ready, and the window behind it is kept. -/
theorem mumbleFramePop_wire {f : Frame} (window : ctx.buffer = f.wire ++ rest)
    (small : f.payload.length < 2 ^ 30) :
    mumbleFrameReady ctx = true ∧ (mumbleFramePop ctx).2.buffer = rest := by
  have window' := window.trans (wire_append f rest)
  have ready : mumbleFrameReady ctx = true := by
    rw [mumbleFrameReady_header window' small, List.length_append]
    omega
  obtain ⟨sum, -⟩ := toUnsigned_frame_size small
  have size : ((f.payload.length : Int) + 6).toNat = f.wire.length := by
    rw [frame_wire_length]
    omega
  refine ⟨ready, ?_⟩
  rw [mumbleFramePop_buffer ready, mumbleFrameSize_header window' (by omega), sum, size, window,
    List.drop_left]

theorem mumbleFramePop_five (five : ctx.buffer.length = 5) : (mumbleFramePop ctx).2.buffer = [] := by
  have ready := (mumbleFrameReady_short (by omega : ctx.buffer.length < 6)).mpr five
  have size : (toInt (-1 + frameHeaderSize)).toNat = 5 := by decide
  rw [mumbleFramePop_buffer ready, mumbleFrameSize, if_pos (by omega), size,
    List.drop_of_length_le (by omega)]

end Header

/-- The call that a round makes for the head of its window. -/
def dispatched (ctx : FrameDecoder) : Dispatch :=
  if mumbleFrameIsAudio ctx then .audio ctx.buffer (toInt ctx.buffer.length)
  else .message (mumbleFrameType ctx) (toSize (mumbleFrameSize ctx)) (ctx.buffer.drop 6)

theorem window_toInt (ctx : FrameDecoder) : toInt ctx.buffer.length = ctx.buffer.length := by
  have bound : ctx.buffer.length ≤ 2 ^ 20 := Nat.le_trans ctx.fits ctx.limit
  exact toInt_of_small (by omega) (by omega)

section Dispatched
variable {ctx : FrameDecoder}

theorem headFrame_header {f : Frame} :
    headFrame (f.header ++ (f.payload ++ rest)) = some f.content := by
  rw [headFrame, header_take_size, header_take_type, if_pos, List.drop_left' (frame_header_length f),
    List.take_left' rfl]
  · rfl
  · simp only [List.length_append, frame_header_length]
    omega

theorem dispatched_wire {f : Frame} (window : ctx.buffer = f.wire ++ rest)
    (small : f.payload.length < 2 ^ 30) : (dispatched ctx).frame = some f.content := by
  have window' := window.trans (wire_append f rest)
  unfold dispatched
  split
  · rw [Dispatch.frame, window_toInt, Int.toNat_natCast, List.take_length, window', headFrame_header]
  · have size : toSize (f.payload.length : Int) = f.payload.length := by
      rw [toSize_natCast]
      omega
    have data : ctx.buffer.drop 6 = f.payload ++ rest := by
      rw [window', List.drop_left' (frame_header_length f)]
    rw [Dispatch.frame, mumbleFrameSize_header window' (by omega), size, data,
      if_pos (by rw [List.length_append]; omega), mumbleFrameType_header window', List.take_left' rfl]
    rfl

/-- Five bytes hold no frame, and the call for them presents none. -/
theorem dispatched_five (five : ctx.buffer.length = 5) : (dispatched ctx).frame = none := by
  unfold dispatched
  split
  · rw [Dispatch.frame, window_toInt, Int.toNat_natCast, List.take_length]
    exact if_neg (by omega)
  · have missing : mumbleFrameSize ctx = -1 := if_pos (by omega)
    have size : toSize (-1) = 2 ^ 64 - 1 := by decide
    rw [Dispatch.frame, missing, size]
    exact if_neg (by rw [List.length_drop]; omega)

end Dispatched

section Front
variable {σ μ : Type} {h : Handlers σ μ} {client next : Client σ} {ctx : FrameDecoder}

/-- What becomes of a message. -/
def Handlers.passOn (h : Handlers σ μ) (state : σ) (type : Int) (message : Option μ) : Run σ := do
  let state ← h.messageInternal state type message
  h.onMessage.elim (.ok state) fun cb => cb state type message

theorem mumbleFrameType_nonneg (ready : mumbleFrameReady ctx = true) : 0 ≤ mumbleFrameType ctx := by
  have long := ready_length ready
  rw [mumbleFrameType, if_neg (by omega)]
  exact Int.natCast_nonneg _

theorem mumbleFrameDecode_front (ready : mumbleFrameReady ctx = true) (other : mumbleFrameIsAudio ctx = false)
    (unpack : σ → Int → Nat → List UInt8 → Run (σ × Option μ)) (state : σ) (message : Option μ) :
    mumbleFrameDecode ctx unpack state message =
      unpack state (mumbleFrameType ctx) (toSize (mumbleFrameSize ctx)) (ctx.buffer.drop 6) >>= fun unpacked =>
        .ok (mumbleFrameType ctx, (mumbleFramePop ctx).2, unpacked.1, unpacked.2) := by
  rw [mumbleFrameDecode, if_neg (by simp [ready]), if_neg (by simp [other])]

theorem adapterRound_audio (audio : mumbleFrameIsAudio client.decoder = true) :
    adapterRound h client =
      h.audioDecode client.state client.decoder.buffer (toInt client.decoder.buffer.length) >>= fun state =>
        .ok ⟨(mumbleFramePop client.decoder).2, state⟩ := by
  rw [adapterRound, if_pos audio]

theorem adapterRound_message (ready : mumbleFrameReady client.decoder = true)
    (other : mumbleFrameIsAudio client.decoder = false) :
    adapterRound h client =
      h.unpack client.state (mumbleFrameType client.decoder) (toSize (mumbleFrameSize client.decoder))
          (client.decoder.buffer.drop 6) >>= fun unpacked =>
        h.passOn unpacked.1 (mumbleFrameType client.decoder) unpacked.2 >>= fun state =>
          .ok ⟨(mumbleFramePop client.decoder).2, state⟩ := by
  rw [adapterRound, if_neg (by simp [other]), mumbleFrameDecode_front ready other]
  cases h.unpack client.state (mumbleFrameType client.decoder) (toSize (mumbleFrameSize client.decoder))
    (client.decoder.buffer.drop 6) with
  | error fault => rfl
  | ok unpacked =>
    dsimp only [ok_bind]
    rw [if_pos (mumbleFrameType_nonneg ready), Handlers.passOn]
    cases h.messageInternal unpacked.1 (mumbleFrameType client.decoder) unpacked.2 with
    | error fault => rfl
    | ok state =>
      cases h.onMessage with
      | none => rfl
      | some cb => rfl

/-- Whatever a round calls, it pops the window. -/
theorem adapterRound_pop (ready : mumbleFrameReady client.decoder = true)
    (run : adapterRound h client = .ok next) : next.decoder = (mumbleFramePop client.decoder).2 := by
  cases audio : mumbleFrameIsAudio client.decoder with
  | true =>
    rw [adapterRound_audio audio] at run
    obtain ⟨state, -, run⟩ := bind_eq_ok.mp run
    cases run
    rfl
  | false =>
    rw [adapterRound_message ready audio] at run
    obtain ⟨unpacked, -, run⟩ := bind_eq_ok.mp run
    obtain ⟨state, -, run⟩ := bind_eq_ok.mp run
    cases run
    rfl

theorem passOn_returns (returns : h.Returns) (state : σ) (type : Int) (message : Option μ) :
    ∃ next, h.passOn state type message = .ok next := by
  obtain ⟨internal, run⟩ := returns.messageInternal state type message
  rw [Handlers.passOn, run, ok_bind]
  cases installed : h.onMessage with
  | none => exact ⟨internal, rfl⟩
  | some cb => exact returns.onMessage cb installed internal type message

theorem adapterRound_returns (returns : h.Returns) (ready : mumbleFrameReady client.decoder = true) :
    ∃ state, adapterRound h client = .ok ⟨(mumbleFramePop client.decoder).2, state⟩ := by
  cases audio : mumbleFrameIsAudio client.decoder with
  | true =>
    obtain ⟨state, run⟩ := returns.audioDecode client.state client.decoder.buffer
      (toInt client.decoder.buffer.length)
    exact ⟨state, by rw [adapterRound_audio audio, run, ok_bind]⟩
  | false =>
    obtain ⟨unpacked, run⟩ := returns.unpack client.state (mumbleFrameType client.decoder)
      (toSize (mumbleFrameSize client.decoder)) (client.decoder.buffer.drop 6)
    obtain ⟨state, passed⟩ := passOn_returns returns unpacked.1 (mumbleFrameType client.decoder) unpacked.2
    exact ⟨state, by rw [adapterRound_message ready audio, run, ok_bind, passed, ok_bind]⟩

end Front

section Rounds
variable {σ μ : Type} {h : Handlers σ μ} {client : Client (σ × List Dispatch)}

theorem record_passOn (state : σ × List Dispatch) (type : Int) (message : Option μ) :
    h.record.passOn state type message =
      h.passOn state.1 type message >>= fun next => .ok (next, state.2) := by
  simp only [Handlers.passOn, Handlers.record]
  cases h.messageInternal state.1 type message with
  | error fault => rfl
  | ok next =>
    cases h.onMessage with
    | none => rfl
    | some cb => rfl

/-- The call of a round is written down. -/
theorem adapterRound_record (returns : h.Returns) (ready : mumbleFrameReady client.decoder = true) :
    ∃ state, adapterRound h.record client = .ok
      ⟨(mumbleFramePop client.decoder).2, (state, client.state.2 ++ [dispatched client.decoder])⟩ := by
  cases audio : mumbleFrameIsAudio client.decoder with
  | true =>
    obtain ⟨state, run⟩ := returns.audioDecode client.state.1 client.decoder.buffer
      (toInt client.decoder.buffer.length)
    refine ⟨state, ?_⟩
    rw [adapterRound_audio audio, dispatched, if_pos audio]
    simp only [Handlers.record, run, ok_bind]
  | false =>
    obtain ⟨unpacked, run⟩ := returns.unpack client.state.1 (mumbleFrameType client.decoder)
      (toSize (mumbleFrameSize client.decoder)) (client.decoder.buffer.drop 6)
    obtain ⟨state, passed⟩ := passOn_returns returns unpacked.1 (mumbleFrameType client.decoder) unpacked.2
    have recorded : h.record.unpack client.state (mumbleFrameType client.decoder)
        (toSize (mumbleFrameSize client.decoder)) (client.decoder.buffer.drop 6) =
        .ok ((unpacked.1, client.state.2 ++ [dispatched client.decoder]), unpacked.2) := by
      rw [dispatched, if_neg (by simp [audio])]
      simp only [Handlers.record, run, ok_bind]
    refine ⟨state, ?_⟩
    rw [adapterRound_message ready audio, recorded, ok_bind, record_passOn, passed]
    rfl

theorem adapterLoop_round (returns : h.Returns) (ready : mumbleFrameReady client.decoder = true)
    (rounds : Nat) : ∃ state, adapterLoop h.record (rounds + 1) client = adapterLoop h.record rounds
      ⟨(mumbleFramePop client.decoder).2, (state, client.state.2 ++ [dispatched client.decoder])⟩ := by
  obtain ⟨state, round⟩ := adapterRound_record returns ready
  refine ⟨state, ?_⟩
  rw [adapterLoop, if_pos ready, round, ok_bind]

/-- A frame too small to overflow an `int` together with its header. -/
def Frame.Small (f : Frame) : Prop := f.payload.length < 2 ^ 30

/-- The rounds for whole frames at the front of the window. -/
theorem adapterLoop_stream (returns : h.Returns) {frames : List Frame}
    (small : ∀ f ∈ frames, f.Small)
    (window : client.decoder.buffer = stream Frame.wire frames ++ rest) (rounds : Nat) :
    ∃ decoder state calls,
      adapterLoop h.record (frames.length + rounds) client =
        adapterLoop h.record rounds ⟨decoder, (state, client.state.2 ++ calls)⟩ ∧
      decoder.buffer = rest ∧ decoder.bufferAllocated = client.decoder.bufferAllocated ∧
      calls.map Dispatch.frame = frames.map fun f => some f.content := by
  induction frames generalizing client with
  | nil =>
    refine ⟨client.decoder, client.state.1, [], ?_, window, rfl, rfl⟩
    rw [List.length_nil, Nat.zero_add, List.append_nil]
  | cons f frames ih =>
    rw [stream_cons, List.append_assoc] at window
    obtain ⟨ready, popped⟩ := mumbleFramePop_wire window (small f (by simp))
    obtain ⟨state, round⟩ := adapterLoop_round returns ready (frames.length + rounds)
    obtain ⟨decoder, state, calls, loop, buffer, allocated, presented⟩ :=
      @ih ⟨_, (state, client.state.2 ++ [dispatched client.decoder])⟩
        (fun g member => small g (by simp [member])) popped
    refine ⟨decoder, state, dispatched client.decoder :: calls, ?_, buffer, ?_, ?_⟩
    · rw [List.length_cons, Nat.add_right_comm, round, loop, List.append_assoc, List.singleton_append]
    · rw [allocated, mumbleFramePop_allocated]
    · rw [List.map_cons, List.map_cons, presented, dispatched_wire window (small f (by simp))]

theorem adapterLoop_log (returns : h.Returns) {rounds : Nat} {client' : Client (σ × List Dispatch)}
    (run : adapterLoop h.record rounds client = .ok client') : client.state.2 <+: client'.state.2 := by
  induction rounds generalizing client with
  | zero => cases run
  | succ rounds ih =>
    cases ready : mumbleFrameReady client.decoder with
    | false =>
      rw [adapterLoop_idle ready] at run
      cases run
      exact List.prefix_refl _
    | true =>
      obtain ⟨state, round⟩ := adapterLoop_round returns ready rounds
      rw [round] at run
      exact (List.prefix_append _ _).trans (ih run)

theorem adapter_eq (size : chunk.length ≤ frameMaxSize) :
    mumbleMessageCbAdapter h.record client chunk chunk.length =
      mumbleFrameAppend client.decoder chunk chunk.length >>= fun (_, decoder) =>
        adapterLoop h.record (decoder.buffer.length + 1) { client with decoder } := by
  have unsigned : toUnsigned (chunk.length : Int) = chunk.length := by
    rw [toUnsigned_natCast]
    exact Nat.mod_eq_of_lt (Nat.lt_of_le_of_lt size (by decide))
  rw [mumbleMessageCbAdapter, unsigned]

theorem receiveAll_log (returns : h.Returns) {chunks : List (List UInt8)}
    {client' : Client (σ × List Dispatch)} (sizes : ∀ c ∈ chunks, c.length ≤ frameMaxSize)
    (run : receiveAll h.record client chunks = .ok client') : client.state.2 <+: client'.state.2 := by
  induction chunks generalizing client with
  | nil =>
    cases run
    exact List.prefix_refl _
  | cons chunk chunks ih =>
    obtain ⟨middle, first, rest⟩ := bind_eq_ok.mp run
    rw [adapter_eq (sizes chunk (by simp))] at first
    obtain ⟨⟨_, decoder⟩, -, loop⟩ := bind_eq_ok.mp first
    have front := adapterLoop_log returns loop
    exact front.trans (ih (fun c member => sizes c (by simp [member])) rest)

/-- Between two reads: the window is the start of the next frame, and not five bytes of it. -/
structure Waiting (tail : List UInt8) (frames : List Frame)
    (client : Client (σ × List Dispatch)) : Prop where
  unfinished : Unfinished Frame.wire frames tail client.decoder.buffer
  live : client.decoder.buffer.length ≠ 5
  allocated : client.decoder.bufferAllocated = frameMaxSize

/-- The frames fit in `limit` bytes, and so does the one that the tail is the start of. -/
structure Fitting (limit : Nat) (tail : List UInt8) (frames : List Frame) : Prop where
  whole : ∀ f ∈ frames, f.wire.length ≤ limit
  next : ∃ f : Frame, f.wire.length ≤ limit ∧ tail <+: f.wire ∧ tail.length < f.wire.length

theorem Fitting.drop {whole left : List Frame} (fitting : Fitting limit tail (whole ++ left)) :
    Fitting limit tail left :=
  ⟨fun f member => fitting.whole f (List.mem_append_right whole member), fitting.next⟩

theorem Fitting.unfinished {frames : List Frame} (fitting : Fitting limit tail frames)
    (start : Unfinished Frame.wire frames tail rest) :
    ∃ f : Frame, f.wire.length ≤ limit ∧ rest <+: f.wire ∧ rest.length < f.wire.length := by
  cases frames with
  | nil =>
    obtain ⟨f, size, inside, proper⟩ := fitting.next
    exact ⟨f, size, start.trans inside, Nat.lt_of_le_of_lt start.length_le proper⟩
  | cons f frames => exact ⟨f, fitting.whole f (by simp), start⟩

theorem small_of_limit {f : Frame} (size : f.wire.length ≤ limit) (room : limit ≤ frameMaxSize) :
    f.Small := by
  rw [frame_wire_length] at size
  unfold Frame.Small
  unfold frameMaxSize at room
  omega

/-- The last rounds of a read, on the start of a frame. -/
theorem adapterLoop_unfinished (returns : h.Returns) {f : Frame} (small : f.Small)
    (start : client.decoder.buffer <+: f.wire) (proper : client.decoder.buffer.length < f.wire.length)
    (enough : client.decoder.buffer.length < rounds) :
    ∃ client' calls, adapterLoop h.record rounds client = .ok client' ∧
      client'.state.2 = client.state.2 ++ calls ∧
      (client.decoder.buffer.length ≠ 5 ∧ client'.decoder = client.decoder ∧ calls = [] ∨
        client.decoder.buffer.length = 5 ∧ calls.map Dispatch.frame = [none]) := by
  have ready := mumbleFrameReady_unfinished small start proper
  by_cases five : client.decoder.buffer.length = 5
  · obtain ⟨rounds, rfl⟩ : ∃ more, rounds = more + 2 := ⟨rounds - 2, by omega⟩
    obtain ⟨state, round⟩ := adapterLoop_round returns (ready.mpr five) (rounds + 1)
    have popped := mumbleFramePop_five five
    have idle : mumbleFrameReady (mumbleFramePop client.decoder).2 = false := by
      rw [Bool.eq_false_iff, ne_eq, mumbleFrameReady_short (by rw [popped]; decide), popped]
      decide
    let client' : Client (σ × List Dispatch) :=
      ⟨(mumbleFramePop client.decoder).2, (state, client.state.2 ++ [dispatched client.decoder])⟩
    refine ⟨client', [dispatched client.decoder], ?_, rfl, .inr ⟨five, ?_⟩⟩
    · exact round.trans (@adapterLoop_idle _ _ h.record client' idle rounds)
    · rw [List.map_singleton, dispatched_five five]
  · obtain ⟨rounds, rfl⟩ : ∃ more, rounds = more + 1 := ⟨rounds - 1, by omega⟩
    have idle : mumbleFrameReady client.decoder = false := by
      rw [Bool.eq_false_iff]
      exact fun yes => five (ready.mp yes)
    exact ⟨client, [], adapterLoop_idle idle _, (List.append_nil _).symm, .inl ⟨five, rfl, rfl⟩⟩

/-- A read that leaves `rest` behind whole frames. -/
theorem adapter_chunk (returns : h.Returns) {whole : List Frame} {f : Frame}
    (size : chunk.length ≤ frameMaxSize)
    (fits : (client.decoder.buffer ++ chunk).length ≤ client.decoder.bufferAllocated)
    (window : client.decoder.buffer ++ chunk = stream Frame.wire whole ++ rest)
    (small : ∀ f ∈ whole, f.Small) (next : f.Small) (start : rest <+: f.wire)
    (proper : rest.length < f.wire.length) :
    ∃ client' calls, mumbleMessageCbAdapter h.record client chunk chunk.length = .ok client' ∧
      client'.state.2 = client.state.2 ++ calls ∧
      (rest.length ≠ 5 ∧ client'.decoder.buffer = rest ∧
          client'.decoder.bufferAllocated = client.decoder.bufferAllocated ∧
          calls.map Dispatch.frame = whole.map (fun f => some f.content) ∨
        rest.length = 5 ∧ none ∈ calls.map Dispatch.frame) := by
  obtain ⟨ready, decoder, append, buffer, allocated⟩ := mumbleFrameAppend_of_fits fits
  have count : whole.length ≤ (stream Frame.wire whole).length :=
    length_le_stream (fun f => by rw [frame_wire_length]; omega) whole
  have rounds : ∃ rounds, decoder.buffer.length + 1 = whole.length + rounds ∧ rest.length < rounds := by
    refine ⟨decoder.buffer.length + 1 - whole.length, ?_⟩
    rw [buffer, window, List.length_append]
    omega
  obtain ⟨rounds, enough, more⟩ := rounds
  obtain ⟨decoder', state, calls, loop, buffer', allocated', presented⟩ :=
    @adapterLoop_stream _ _ h { client with decoder } rest returns whole small (buffer.trans window)
      rounds
  have run : mumbleMessageCbAdapter h.record client chunk chunk.length =
      adapterLoop h.record rounds ⟨decoder', (state, client.state.2 ++ calls)⟩ := by
    rw [adapter_eq size, append, ok_bind]
    dsimp only
    rw [enough, loop]
  obtain ⟨client', calls', last, log, outcome⟩ :=
    @adapterLoop_unfinished _ _ h ⟨decoder', (state, client.state.2 ++ calls)⟩ rounds returns f next
      (by rwa [buffer']) (by rwa [buffer']) (by rwa [buffer'])
  refine ⟨client', calls ++ calls', run.trans last, by rw [log, List.append_assoc], ?_⟩
  rw [buffer'] at outcome
  rcases outcome with ⟨live, kept, rfl⟩ | ⟨five, lost⟩
  · refine .inl ⟨live, by rw [kept, buffer'], by rw [kept, allocated', allocated], ?_⟩
    rw [List.append_nil, presented]
  · refine .inr ⟨five, ?_⟩
    rw [List.map_append, lost]
    exact List.mem_append_right _ (List.mem_singleton_self none)

/-- One read in a stream of fitting frames. -/
theorem adapter_step (returns : h.Returns) {frames : List Frame} (fitting : Fitting limit tail frames)
    (waiting : Waiting tail frames client) (room : limit + chunk.length ≤ frameMaxSize)
    (bytes : client.decoder.buffer ++ (chunk ++ more) = stream Frame.wire frames ++ tail) :
    ∃ whole left client' calls, frames = whole ++ left ∧
      mumbleMessageCbAdapter h.record client chunk chunk.length = .ok client' ∧
      client'.state.2 = client.state.2 ++ calls ∧
      (Waiting tail left client' ∧
          client.decoder.buffer ++ chunk = stream Frame.wire whole ++ client'.decoder.buffer ∧
          calls.map Dispatch.frame = whole.map (fun f => some f.content) ∨
        none ∈ calls.map Dispatch.frame ∧
          CutAt Frame.wire 5 frames (client.decoder.buffer.length + chunk.length)) := by
  obtain ⟨f, small, -, proper⟩ := fitting.unfinished waiting.unfinished
  have room' : limit ≤ frameMaxSize := by omega
  have fits : (client.decoder.buffer ++ chunk).length ≤ client.decoder.bufferAllocated := by
    rw [waiting.allocated, List.length_append]
    omega
  have front : client.decoder.buffer ++ chunk <+: stream Frame.wire frames ++ tail :=
    ⟨more, by rw [List.append_assoc, bytes]⟩
  obtain ⟨whole, left, rest, rfl, window, unfinished⟩ := prefix_split front
  obtain ⟨g, size, start, short⟩ := fitting.drop.unfinished unfinished
  obtain ⟨client', calls, run, log, outcome⟩ := adapter_chunk returns (by omega) fits window
    (fun f member => small_of_limit (fitting.whole f (by simp [member])) room')
    (small_of_limit size room') start short
  refine ⟨whole, left, client', calls, rfl, run, log, ?_⟩
  rcases outcome with ⟨live, buffer, allocated, presented⟩ | ⟨five, lost⟩
  · refine .inl ⟨⟨by rwa [buffer], by rwa [buffer], allocated.trans waiting.allocated⟩, ?_, presented⟩
    rw [buffer, window]
  · refine .inr ⟨lost, whole, List.prefix_append _ _, ?_⟩
    rw [← List.length_append, window, List.length_append, five]

/-- A cut behind one more chunk, seen from the window after it. -/
theorem cutAt_chunk {whole left : List Frame} {buffer buffer' : List UInt8}
    (window : buffer ++ chunk = stream Frame.wire whole ++ buffer') (n : Nat) :
    CutAt Frame.wire 5 (whole ++ left) (buffer.length + (chunk.length + n)) ↔
      CutAt Frame.wire 5 left (buffer'.length + n) := by
  have size : buffer.length + (chunk.length + n) =
      (stream Frame.wire whole).length + (buffer'.length + n) := by
    rw [← Nat.add_assoc, ← List.length_append, window, List.length_append, Nat.add_assoc]
  rw [size]
  exact cutAt_append (fun f => by rw [frame_wire_length]; omega) whole left _

theorem receiveAll_presents (returns : h.Returns) {frames : List Frame} {chunks : List (List UInt8)}
    (fitting : Fitting limit tail frames) (waiting : Waiting tail frames client)
    (room : ∀ c ∈ chunks, limit + c.length ≤ frameMaxSize)
    (bytes : client.decoder.buffer ++ chunks.flatten = stream Frame.wire frames ++ tail)
    (uncut : ∀ front, front <+: chunks →
      ¬ CutAt Frame.wire 5 frames (client.decoder.buffer.length + front.flatten.length)) :
    ∃ client' calls, receiveAll h.record client chunks = .ok client' ∧
      client'.state.2 = client.state.2 ++ calls ∧
      calls.map Dispatch.frame = frames.map (fun f => some f.content) ∧
      client'.decoder.buffer = tail := by
  induction chunks generalizing client frames with
  | nil =>
    rw [List.flatten_nil, List.append_nil] at bytes
    cases frames with
    | nil => exact ⟨client, [], rfl, (List.append_nil _).symm, rfl, bytes⟩
    | cons f frames =>
      have short : client.decoder.buffer.length < f.wire.length := waiting.unfinished.2
      have size := congrArg List.length bytes
      simp only [stream_cons, List.length_append] at size
      omega
  | cons chunk chunks ih =>
    rw [List.flatten_cons] at bytes
    obtain ⟨whole, left, middle, calls, rfl, run, log, outcome⟩ :=
      adapter_step returns fitting waiting (room chunk (by simp)) bytes
    rcases outcome with ⟨waiting', window, presented⟩ | ⟨-, cut⟩
    · have uncut' : ∀ front, front <+: chunks →
          ¬ CutAt Frame.wire 5 left (middle.decoder.buffer.length + front.flatten.length) := by
        intro front first cut
        refine uncut (chunk :: front) (List.cons_prefix_cons.mpr ⟨rfl, first⟩) ?_
        rw [List.flatten_cons, List.length_append]
        exact (cutAt_chunk window _).mpr cut
      obtain ⟨client', calls', rest, log', presented', buffer⟩ := ih fitting.drop waiting'
        (fun c member => room c (by simp [member])) (stream_after window bytes) uncut'
      refine ⟨client', calls ++ calls', ?_, ?_, ?_, buffer⟩
      · rw [receiveAll, run, ok_bind, rest]
      · rw [log', log, List.append_assoc]
      · rw [List.map_append, List.map_append, presented, presented']
    · have first : [chunk] <+: chunk :: chunks := ⟨chunks, rfl⟩
      exact absurd (by simpa using cut) (uncut [chunk] first)

theorem receiveAll_loses (returns : h.Returns) {frames : List Frame} {chunks front : List (List UInt8)}
    (fitting : Fitting limit tail frames) (waiting : Waiting tail frames client)
    (room : ∀ c ∈ chunks, limit + c.length ≤ frameMaxSize)
    (bytes : client.decoder.buffer ++ chunks.flatten = stream Frame.wire frames ++ tail)
    (first : front <+: chunks)
    (cut : CutAt Frame.wire 5 frames (client.decoder.buffer.length + front.flatten.length))
    {client' : Client (σ × List Dispatch)} (run : receiveAll h.record client chunks = .ok client') :
    none ∈ client'.state.2.map Dispatch.frame := by
  induction chunks generalizing client frames front with
  | nil =>
    rw [List.prefix_nil] at first
    subst first
    exact absurd ((cutAt_unfinished waiting.unfinished).mp cut) waiting.live
  | cons chunk chunks ih =>
    rw [List.flatten_cons] at bytes
    obtain ⟨whole, left, middle, calls, rfl, step, log, outcome⟩ :=
      adapter_step returns fitting waiting (room chunk (by simp)) bytes
    rw [receiveAll, step, ok_bind] at run
    have sizes : ∀ c ∈ chunks, c.length ≤ frameMaxSize := fun c member => by
      have := room c (by simp [member])
      omega
    rcases outcome with ⟨waiting', window, presented⟩ | ⟨lost, -⟩
    · cases front with
      | nil => exact absurd ((cutAt_unfinished waiting.unfinished).mp cut) waiting.live
      | cons c front =>
        obtain ⟨same, inner⟩ := List.cons_prefix_cons.mp first
        rw [List.flatten_cons, List.length_append, same] at cut
        exact ih fitting.drop waiting' (fun c member => room c (by simp [member]))
          (stream_after window bytes) inner ((cutAt_chunk window _).mp cut) run
    · have kept := (receiveAll_log returns sizes run).map Dispatch.frame
      refine kept.subset ?_
      rw [log, List.map_append]
      exact List.mem_append_right _ lost

end Rounds

/-- The chunks of a stream present its frames, whole and in order, and leave its
tail, exactly when no chunk ends five bytes into a frame. -/
theorem control_stream_iff {σ μ : Type} (h : Handlers σ μ) (returns : h.Returns) (state : σ)
    (frames : List Frame) (tail : List UInt8) (chunks : List (List UInt8)) (limit : Nat)
    (fitting : Fitting limit tail frames) (room : ∀ c ∈ chunks, limit + c.length ≤ frameMaxSize)
    (bytes : chunks.flatten = stream Frame.wire frames ++ tail) :
    (∃ client, receiveAll h.record ⟨mumbleFrameInit, (state, [])⟩ chunks = .ok client ∧
        client.state.2.map Dispatch.frame = frames.map (fun f => some f.content) ∧
        client.decoder.buffer = tail) ↔
      ∀ front, front <+: chunks → ¬ CutAt Frame.wire 5 frames front.flatten.length := by
  have waiting : Waiting tail frames (⟨mumbleFrameInit, (state, [])⟩ : Client (σ × List Dispatch)) := by
    refine ⟨?_, (by decide : ([] : List UInt8).length ≠ 5), rfl⟩
    cases frames with
    | nil => exact List.nil_prefix
    | cons f frames =>
      refine ⟨List.nil_prefix, ?_⟩
      rw [frame_wire_length]
      exact Nat.lt_of_lt_of_le (by decide : 0 < 6) (Nat.le_add_right 6 _)
  constructor
  · rintro ⟨client, run, presented, -⟩ front first cut
    have lost := receiveAll_loses returns fitting waiting room bytes first
      (by simpa [mumbleFrameInit] using cut) run
    rw [presented] at lost
    simp at lost
  · intro uncut
    obtain ⟨client, calls, run, log, presented, buffer⟩ := receiveAll_presents returns fitting waiting
      room bytes (fun front first cut => uncut front first (by simpa [mumbleFrameInit] using cut))
    refine ⟨client, run, ?_, buffer⟩
    rw [log]
    exact presented

def quietHandlers : Handlers Unit Unit where
  audioDecode _ _ _ := .ok ()
  unpack _ _ _ _ := .ok ((), some ())
  messageInternal _ _ _ := .ok ()
  onMessage := none

theorem quietHandlers_returns : quietHandlers.Returns where
  audioDecode _ _ _ := ⟨(), rfl⟩
  unpack _ _ _ _ := ⟨((), some ()), rfl⟩
  messageInternal _ _ _ := ⟨(), rfl⟩
  onMessage _ installed := by cases installed

def emptyPing : Frame := ⟨3, [], by decide⟩

theorem control_stream_sample :
    (∃ client, receiveAll quietHandlers.record ⟨mumbleFrameInit, ((), [])⟩ [[0, 3, 0], [0, 0, 0, 0, 3]] =
        .ok client ∧ client.state.2.map Dispatch.frame = [some (3, [])] ∧
          client.decoder.buffer = [0, 3]) ↔
      ∀ front : List (List UInt8), front <+: [[0, 3, 0], [0, 0, 0, 0, 3]] →
        ¬ CutAt Frame.wire 5 [emptyPing] front.flatten.length :=
  control_stream_iff quietHandlers quietHandlers_returns () [emptyPing] [0, 3]
    [[0, 3, 0], [0, 0, 0, 0, 3]] 6
    ⟨by simp [emptyPing, frame_wire_length], emptyPing, by decide, by decide, by decide⟩ (by decide) rfl

/-- A header that arrives as five bytes and one is lost, and its last byte is left over. -/
theorem control_stream_cut :
    [[0, 3, 0, 0, 0], [0]].flatten = stream Frame.wire [emptyPing] ∧
      (receiveAll quietHandlers.record ⟨mumbleFrameInit, ((), [])⟩ [[0, 3, 0, 0, 0], [0]]).map
        (fun client => (client.state.2.map Dispatch.frame, client.decoder.buffer)) = .ok ([none], [0]) ∧
      ¬ ∃ client, receiveAll quietHandlers.record ⟨mumbleFrameInit, ((), [])⟩ [[0, 3, 0, 0, 0], [0]] =
        .ok client ∧ client.state.2.map Dispatch.frame = [some emptyPing.content] ∧
          client.decoder.buffer = [] := by
  have run : (receiveAll quietHandlers.record ⟨mumbleFrameInit, ((), [])⟩ [[0, 3, 0, 0, 0], [0]]).map
      (fun client => (client.state.2.map Dispatch.frame, client.decoder.buffer)) = .ok ([none], [0]) := by
    decide
  refine ⟨by decide, run, ?_⟩
  rintro ⟨client, whole, -, buffer⟩
  rw [whole] at run
  have left : client.decoder.buffer = [0] := congrArg Prod.snd (Except.ok.inj run)
  rw [buffer] at left
  cases left

end Mumble

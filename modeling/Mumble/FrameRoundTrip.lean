import Mumble.FrameEncoder
import Mumble.ControlStream

/-! What the frame encoder writes is a frame to the frame decoder, of the type that
the message has. -/
namespace Mumble
open CExec Bytes

/-- What is relied on of the generated descriptors and of `protobuf-c`. -/
structure Protobuf.Lawful (p : Protobuf μ) : Prop where
  packageName : ∀ t, (p.generated t).packageName = "MumbleProto"
  distinct : ∀ t t', (p.generated t).name = (p.generated t').name → t = t'
  descriptorSize : 0 < p.descriptorSize
  packedSize : ∀ message, (p.pack message).length = p.packedSize message
  unpack : ∀ message rest,
    p.unpack (p.descriptor message) (p.packedSize message) (p.pack message ++ rest) = some message

section Tables
variable {μ : Type} {p : Protobuf μ}

theorem number_lt (t : MessageType) : t.number < mumbleTypeCount := by
  cases t <;> decide

theorem decoderDescriptors_number (t : MessageType) : decoderDescriptors[t.number]? = some t := by
  cases t <;> rfl

theorem encoderDescriptors_number (t : MessageType) : encoderDescriptors[t.number]? = some t := by
  cases t <;> rfl

/-- Each entry of the encoder's table is at the number of its type. -/
theorem encoderDescriptors_entry {i : Nat} (inside : i < mumbleTypeCount) :
    ∃ t : MessageType, encoderDescriptors[i]? = some t ∧ t.number = i := by
  have entries : ∀ i < mumbleTypeCount, (encoderDescriptors[i]?).map MessageType.number = some i := by
    decide
  obtain ⟨t, found, number⟩ := Option.map_eq_some_iff.mp (entries i inside)
  exact ⟨t, found, number⟩

theorem descriptor_found {descriptors : List MessageType} (size : 0 < p.descriptorSize)
    {type : Nat} (found : descriptors[type]? = some t) :
    descriptor p descriptors type = .ok (p.generated t) := by
  have inside : type < descriptors.length * p.descriptorSize :=
    (List.getElem?_eq_some_iff.mp found).1.trans_le (Nat.le_mul_of_pos_right _ size)
  rw [descriptor, require_true inside, ok_bind, load, List.getElem?_map, found]
  rfl

/-- The search passes every entry before the one that it is for. -/
theorem findType_from (lawful : p.Lawful) (t : MessageType) {ahead count i : Nat}
    (distance : i + ahead = t.number) (enough : ahead < count) :
    findType p (p.generated t).name count i = .ok t.number := by
  induction ahead generalizing count i with
  | zero =>
    obtain ⟨count, rfl⟩ := Nat.exists_eq_add_of_lt enough
    have here : encoderDescriptors[i]? = some t := by
      rw [← encoderDescriptors_number t, ← distance, Nat.add_zero]
    rw [Nat.zero_add, findType, descriptor_found lawful.descriptorSize here, ok_bind, if_pos rfl]
    rw [← distance, Nat.add_zero]
  | succ ahead ih =>
    obtain ⟨count, rfl⟩ : ∃ more, count = more + 1 := ⟨count - 1, by omega⟩
    have bound := number_lt t
    obtain ⟨other, here, number⟩ := encoderDescriptors_entry (show i < mumbleTypeCount by omega)
    have different : (p.generated t).name ≠ (p.generated other).name := by
      intro same
      rw [← lawful.distinct t other same] at number
      omega
    rw [findType, descriptor_found lawful.descriptorSize here, ok_bind, if_neg different]
    exact ih (by omega) (by omega)

theorem getMessageType_eq (lawful : p.Lawful) {message : μ}
    (typed : p.descriptor message = p.generated t) : getMessageType p message = .ok t.number := by
  rw [getMessageType, typed, require_true (lawful.packageName t), ok_bind]
  exact findType_from lawful t (Nat.zero_add _) (number_lt t)

theorem unpackMessage_eq (lawful : p.Lawful) {message : μ} (typed : p.descriptor message = p.generated t)
    (state : σ) (rest : List UInt8) :
    unpackMessage p state t.number (p.packedSize message) (p.pack message ++ rest) =
      .ok (state, some message) := by
  have unsigned : toUnsigned (t.number : Int) = t.number := by
    have bound := number_lt t
    rw [mumbleTypeCount] at bound
    rw [toUnsigned_natCast]
    omega
  rw [unpackMessage, unsigned, descriptor_found lawful.descriptorSize (decoderDescriptors_number t),
    ok_bind, ← typed, lawful.unpack]

end Tables

section Encode
variable (ctx : FrameEncoder)

theorem write_eq {i : Nat} {data : List UInt8} (inside : i + data.length ≤ frameMaxSize) :
    ∃ after, ctx.write i data = .ok after ∧
      after.buffer = ctx.buffer.take i ++ (data ++ ctx.buffer.drop (i + data.length)) := by
  have inside' : i + data.length ≤ ctx.buffer.length := ctx.allocated ▸ inside
  exact ⟨_, dif_pos inside', rfl⟩

variable {ctx}

/-- A store behind what has been stored already. -/
theorem write_behind (data : List UInt8) {front rest : List UInt8} (stored : ctx.buffer = front ++ rest)
    (inside : front.length + data.length ≤ frameMaxSize) :
    ∃ after, ctx.write front.length data = .ok after ∧
      after.buffer = (front ++ data) ++ rest.drop data.length := by
  obtain ⟨after, run, buffer⟩ := write_eq ctx inside
  refine ⟨after, run, ?_⟩
  rw [buffer, stored, List.take_left, List.drop_length_add_append, List.append_assoc]

variable {μ : Type} {p : Protobuf μ} (ctx)

theorem mumbleFrameEncode_written (lawful : p.Lawful) {message : μ}
    (typed : p.descriptor message = p.generated t) (f : Frame) (type : f.type.toNat = t.number)
    (payload : f.payload = p.pack message) (fits : f.wire.length ≤ frameMaxSize) :
    ∃ encoded, mumbleFrameEncode p ctx message = .ok encoded ∧ encoded.written = f.wire := by
  have size : f.wire.length = 6 + p.packedSize message := by
    rw [frame_wire_length, payload, lawful.packedSize]
  have limit : frameMaxSize = 2 ^ 20 := rfl
  have total : toSize (2 + 4 + (p.packedSize message : Int)) = f.wire.length := by
    rw [toSize, size]
    omega
  have field : (ofBigEndian 2 t.number).length = 2 := ofBigEndian_length 2 _
  have field' : (ofBigEndian 4 (p.packedSize message)).length = 4 := ofBigEndian_length 4 _
  obtain ⟨first, run, buffer⟩ := write_behind (ofBigEndian 2 t.number)
    (List.nil_append ctx.buffer).symm (by rw [field]; decide)
  rw [List.nil_append] at buffer
  obtain ⟨second, run', buffer'⟩ := write_behind (ofBigEndian 4 (p.packedSize message)) buffer
    (by rw [field, field']; decide)
  obtain ⟨third, run'', buffer''⟩ := write_behind (p.pack message) buffer'
    (by rw [List.length_append, field, field', lawful.packedSize]; omega)
  rw [List.length_append, field, field'] at run''
  rw [field] at run'
  refine ⟨{ third with bufferSize := toUnsigned (f.wire.length : Int) }, ?_, ?_⟩
  · rw [mumbleFrameEncode, getMessageType_eq lawful typed, ok_bind, require_true (by omega), ok_bind]
    dsimp only
    rw [total, ctx.allocated, require_true fits, ok_bind, Int.toNat_natCast]
    rw [List.length_nil] at run
    rw [run, ok_bind, run', ok_bind, run'', ok_bind]
  · have stored : toUnsigned (f.wire.length : Int) = f.wire.length := by
      rw [toUnsigned_natCast]
      omega
    have wire : ofBigEndian 2 t.number ++ ofBigEndian 4 (p.packedSize message) ++ p.pack message =
        f.wire := by
      rw [Frame.wire, Frame.header, type, payload, lawful.packedSize]
    change List.take (toUnsigned (f.wire.length : Int)) third.buffer = _
    rw [stored, buffer'', wire, List.take_left]

end Encode

theorem mumbleFrameAppend_ready {ctx ctx' : FrameDecoder} {buf : List UInt8} {size : Nat} {ready : Bool}
    (run : mumbleFrameAppend ctx buf size = .ok (ready, ctx')) : mumbleFrameReady ctx' = ready := by
  obtain ⟨data, -, run⟩ := bind_eq_ok.mp run
  split at run
  · cases run
    rfl
  · cases run

/-- The frame of a message. -/
theorem exists_message_frame {p : Protobuf μ} (lawful : p.Lawful) (t : MessageType) (message : μ)
    (small : p.packedSize message < 2 ^ 32) :
    ∃ f : Frame, f.type.toNat = t.number ∧ f.payload = p.pack message := by
  have bound := number_lt t
  rw [mumbleTypeCount] at bound
  refine ⟨⟨.ofNat t.number, p.pack message, by rwa [lawful.packedSize]⟩, ?_, rfl⟩
  change (UInt16.ofNat t.number).toNat = _
  rw [UInt16.toNat_ofNat']
  omega

/-- A whole message frame at the front of the window. -/
theorem mumbleFrameDecode_message {p : Protobuf μ} (lawful : p.Lawful) {ctx : FrameDecoder} {message : μ}
    (typed : p.descriptor message = p.generated t) (other : t ≠ .udptunnel) (f : Frame)
    (type : f.type.toNat = t.number) (payload : f.payload = p.pack message)
    (window : ctx.buffer = f.wire ++ rest) (small : f.payload.length < 2 ^ 30) (state : σ)
    (old : Option μ) :
    mumbleFrameDecode ctx (unpackMessage p) state old =
      .ok (t.number, (mumbleFramePop ctx).2, state, some message) := by
  have window' := window.trans (wire_append f rest)
  have ready := (mumbleFramePop_wire window small).1
  have number : mumbleFrameType ctx = t.number := by rw [mumbleFrameType_header window', type]
  have tunnel : mumbleFrameIsAudio ctx = false := by
    have different : t.number ≠ 1 := by
      intro one
      apply other
      cases t <;> first | rfl | cases one
    rw [mumbleFrameIsAudio, number, decide_eq_false_iff_not, typeUdptunnel]
    omega
  have size : toSize (mumbleFrameSize ctx) = p.packedSize message := by
    rw [mumbleFrameSize_header window' (by omega), toSize_natCast, payload, lawful.packedSize]
    rw [payload, lawful.packedSize] at small
    omega
  have body : ctx.buffer.drop 6 = p.pack message ++ rest := by
    rw [window', List.drop_left' (frame_header_length f), payload]
  rw [mumbleFrameDecode_front ready tunnel, number, size, body, unpackMessage_eq lawful typed, ok_bind]

/-- An encoded message is ready to be decoded, to the same message under the number of
its type, and what was appended behind it is left. -/
theorem frame_round_trip {μ : Type} (p : Protobuf μ) (lawful : p.Lawful) (t : MessageType) (message : μ)
    (typed : p.descriptor message = p.generated t) (other : t ≠ .udptunnel) (ctx : FrameEncoder)
    (rest : List UInt8) (fits : 6 + p.packedSize message + rest.length ≤ 2 ^ 20) (old : Option μ) :
    ∃ encoded decoder decoder', mumbleFrameEncode p ctx message = .ok encoded ∧
      mumbleFrameAppend mumbleFrameInit (encoded.written ++ rest) (encoded.written ++ rest).length =
        .ok (true, decoder) ∧
      mumbleFrameDecode decoder (unpackMessage p) () old = .ok (t.number, decoder', (), some message) ∧
      decoder'.buffer = rest := by
  obtain ⟨f, type, payload⟩ := exists_message_frame lawful t message (by omega)
  have size : f.wire.length = 6 + p.packedSize message := by
    rw [frame_wire_length, payload, lawful.packedSize]
  have small : f.payload.length < 2 ^ 30 := by
    rw [payload, lawful.packedSize]
    omega
  obtain ⟨encoded, run, written⟩ := mumbleFrameEncode_written ctx lawful typed f type payload
    (by rw [size]; change _ ≤ 2 ^ 20; omega)
  have room : (mumbleFrameInit.buffer ++ (encoded.written ++ rest)).length ≤
      mumbleFrameInit.bufferAllocated := by
    rw [written, List.length_append, List.length_append, size]
    change 0 + _ ≤ 2 ^ 20
    omega
  obtain ⟨ready, decoder, appended, buffer, -⟩ := mumbleFrameAppend_of_fits room
  have window : decoder.buffer = f.wire ++ rest := by rw [buffer, written]; rfl
  obtain rfl : ready = true :=
    (mumbleFrameAppend_ready appended).symm.trans (mumbleFramePop_wire window small).1
  exact ⟨encoded, decoder, _, run, appended,
    mumbleFrameDecode_message lawful typed other f type payload window small () old,
    (mumbleFramePop_wire window small).2⟩

theorem fullName_injective (t t' : MessageType) (same : t.fullName = t'.fullName) : t = t' := by
  -- as numbers, which are compared in one step
  have names : (decoderDescriptors.map fun t =>
      littleEndian t.fullName.toByteArray.data.toList).Nodup := by decide
  have member (t : MessageType) : t ∈ decoderDescriptors :=
    List.mem_of_getElem? (decoderDescriptors_number t)
  exact List.inj_on_of_nodup_map names (member t) (member t') (by rw [same])

theorem emptyMessages_lawful : emptyMessages.Lawful where
  packageName _ := rfl
  distinct := fullName_injective
  descriptorSize := by decide
  packedSize _ := rfl
  unpack message rest := by
    have names : (fun t => decide (t.fullName = message.fullName)) = fun t => decide (t = message) := by
      funext t
      exact decide_eq_decide.mpr ⟨fullName_injective t message, congrArg _⟩
    change decoderDescriptors.find? (fun t => decide (t.fullName = message.fullName)) = _
    rw [names]
    cases message <;> rfl

theorem frame_round_trip_sample :
    ∃ encoded decoder decoder', mumbleFrameEncode emptyMessages
        ⟨List.replicate frameMaxSize 7, 0, List.length_replicate⟩ MessageType.ping = .ok encoded ∧
      mumbleFrameAppend mumbleFrameInit (encoded.written ++ [0, 3]) (encoded.written ++ [0, 3]).length =
        .ok (true, decoder) ∧
      mumbleFrameDecode decoder (unpackMessage emptyMessages) () none =
        .ok (MessageType.ping.number, decoder', (), some MessageType.ping) ∧
      decoder'.buffer = [0, 3] :=
  frame_round_trip emptyMessages emptyMessages_lawful .ping .ping rfl (by decide)
    ⟨List.replicate frameMaxSize 7, 0, List.length_replicate⟩ [0, 3] (by decide) none

end Mumble

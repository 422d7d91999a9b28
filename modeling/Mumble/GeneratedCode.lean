import Mumble.ClientStream
import Mumble.MumbleProto
import Mumble.ProtobufC.Settled

/-! The generated code for `Mumble.proto`, on top of `protobuf-c`, in the place of the
library that the frames and the client rely on. -/
namespace MumbleProto
open ProtobufC

/-- The descriptor that stands for a type in the tables. -/
def generated : Mumble.MessageType → MessageDescriptor (Descriptor 1)
  | .version => version
  | .udptunnel => udptunnel
  | .authenticate => authenticate
  | .ping => ping
  | .reject => reject
  | .serverSync => serverSync
  | .channelRemove => channelRemove
  | .channelState => channelState
  | .userRemove => userRemove
  | .userState => userState
  | .banList => banList
  | .textMessage => textMessage
  | .permissionDenied => permissionDenied
  | .acl => acl
  | .queryUsers => queryUsers
  | .cryptSetup => cryptSetup
  | .contextActionModify => contextActionModify
  | .contextAction => contextAction
  | .userList => userList
  | .voiceTarget => voiceTarget
  | .permissionQuery => permissionQuery
  | .codecVersion => codecVersion
  | .userStats => userStats
  | .requestBlob => requestBlob
  | .serverConfig => serverConfig
  | .suggestConfig => suggestConfig

/-- An object of one of the generated structures. -/
structure GeneratedMessage where
  type : Mumble.MessageType
  message : Message 2 (generated type)

/-- The type whose descriptor this is. -/
def typeOf (d : Mumble.MessageDescriptor) : Option Mumble.MessageType :=
  Mumble.decoderDescriptors.find? fun t => (generated t).name = d.name

/-- A message of a type. Memory that is read out of bounds is taken for data that is
refused. -/
def unpackAs (type : Mumble.MessageType) (len : Nat) (data : List UInt8) : Option GeneratedMessage :=
  match messageUnpack 2 (generated type) len data with
  | .ok (some message) => some ⟨type, message⟩
  | _ => none

/-- The generated code, and the library under it. -/
def protobufC : Mumble.Protobuf GeneratedMessage where
  generated t := ⟨(generated t).name, (generated t).packageName⟩
  descriptorSize := 120
  descriptor m := ⟨(generated m.type).name, (generated m.type).packageName⟩
  packedSize m := messageGetPackedSize 2 (generated m.type) m.message
  pack m := messagePack 2 (generated m.type) m.message
  unpack d len data := do
    let type ← typeOf d
    unpackAs type len data

/-- A message of which nothing is lost on the way, of a size that can be unpacked. -/
structure ProperMessage extends GeneratedMessage where
  proper : Proper 2 (generated type) message
  small : (messagePack 2 (generated type) message).length ≤ packLimit

/-- What is unpacked is such a message. -/
def unpackProper (type : Mumble.MessageType) (len : Nat) (data : List UInt8) : Option ProperMessage :=
  if inside : len ≤ data.length ∧ len < 2 ^ 64 then
    match read : messageUnpack 2 (generated type) len data with
    | .ok (some message) =>
      if small : (messagePack 2 (generated type) message).length ≤ packLimit then
        some ⟨⟨type, message⟩, (messageUnpack_proper 2).read _ len data message inside.1 inside.2 read, small⟩
      else none
    | _ => none
  else none

/-- The library for these messages. -/
def properMessages : Mumble.Protobuf ProperMessage where
  generated := protobufC.generated
  descriptorSize := protobufC.descriptorSize
  descriptor m := protobufC.descriptor m.toGeneratedMessage
  packedSize m := protobufC.packedSize m.toGeneratedMessage
  pack m := protobufC.pack m.toGeneratedMessage
  unpack d len data := do
    let type ← typeOf d
    unpackProper type len data

theorem generated_name (t : Mumble.MessageType) : (generated t).name = t.fullName := by
  cases t <;> rfl

theorem generated_packageName (t : Mumble.MessageType) : (generated t).packageName = "MumbleProto" := by
  cases t <;> rfl

theorem typeOf_generated (t : Mumble.MessageType) (packageName : String) :
    typeOf ⟨(generated t).name, packageName⟩ = some t := by
  have names : (fun other => decide ((generated other).name = (generated t).name)) =
      fun other => decide (other = t) := by
    funext other
    rw [generated_name, generated_name]
    exact decide_eq_decide.mpr ⟨Mumble.fullName_injective other t, congrArg _⟩
  rw [typeOf]
  dsimp only
  rw [names]
  cases t <;> rfl

theorem unpackProper_pack (m : ProperMessage) (rest : List UInt8) :
    unpackProper m.type (protobufC.pack m.toGeneratedMessage).length
      (protobufC.pack m.toGeneratedMessage ++ rest) = some m := by
  obtain ⟨⟨type, message⟩, proper, small⟩ := m
  obtain ⟨complete, same⟩ := proper.unchanged
  have read := messageUnpack_messagePack 2 (generated type) complete small rest
  rw [same] at read
  have limit : packLimit < 2 ^ 64 := by decide
  dsimp only [protobufC] at small ⊢
  rw [unpackProper, dif_pos ⟨by rw [List.length_append]; omega, by omega⟩]
  split
  next other found =>
    rw [read] at found
    cases found
    rw [dif_pos small]
  next missing => exact absurd read (missing message)

/-- The library that comes with the program is as the frames and the client rely on it. -/
theorem properMessages_lawful : properMessages.Lawful ∧ properMessages.Typed := by
  refine ⟨?_, fun m => ⟨m.type, rfl⟩⟩
  constructor
  · exact generated_packageName
  · intro t t' same
    change (generated t).name = (generated t').name at same
    rw [generated_name, generated_name] at same
    exact Mumble.fullName_injective t t' same
  · decide
  · exact fun m => messagePack_length 2 (generated m.type) m.message
  · intro m rest
    have size : properMessages.packedSize m = (protobufC.pack m.toGeneratedMessage).length :=
      (messagePack_length 2 (generated m.type) m.message).symm
    have type : typeOf (properMessages.descriptor m) = some m.type := typeOf_generated m.type _
    change (do
      let type ← typeOf (properMessages.descriptor m)
      unpackProper type (properMessages.packedSize m) (protobufC.pack m.toGeneratedMessage ++ rest)) = some m
    rw [type, size]
    exact unpackProper_pack m rest

section Frames
open Mumble

/-- The message as the other end has it. -/
def sent (m : GeneratedMessage) : GeneratedMessage := ⟨m.type, sentMessage 2 (generated m.type) m.message⟩

/-- Messages that are packed to the same bytes have the same frame. -/
theorem mumbleFrameEncode_sent (ctx : FrameEncoder) (m : GeneratedMessage) :
    mumbleFrameEncode protobufC ctx (sent m) = mumbleFrameEncode protobufC ctx m := by
  have pack : protobufC.pack (sent m) = protobufC.pack m :=
    messagePack_sentMessage 2 (generated m.type) m.message
  have size : protobufC.packedSize (sent m) = protobufC.packedSize m := by
    refine (messagePack_length ..).symm.trans ((congrArg List.length pack).trans ?_)
    exact messagePack_length 2 (generated m.type) m.message
  have type : getMessageType protobufC (sent m) = getMessageType protobufC m := rfl
  rw [mumbleFrameEncode, mumbleFrameEncode, type, size, pack]

theorem unpackMessage_sent {m : GeneratedMessage} (complete : Complete 2 (generated m.type) m.message)
    (small : (protobufC.pack m).length ≤ packLimit) (rest : List UInt8) :
    unpackMessage protobufC () m.type.number (protobufC.pack m).length (protobufC.pack m ++ rest) =
      .ok ((), some (sent m)) := by
  have unsigned : CExec.toUnsigned (m.type.number : Int) = m.type.number := by
    have bound := number_lt m.type
    rw [mumbleTypeCount] at bound
    rw [CExec.toUnsigned_natCast]
    omega
  have found : Mumble.descriptor protobufC decoderDescriptors m.type.number = .ok (protobufC.generated m.type) :=
    descriptor_found (by decide) (decoderDescriptors_number m.type)
  have read : messageUnpack 2 (generated m.type) (protobufC.pack m).length (protobufC.pack m ++ rest) =
      .ok (some (sentMessage 2 (generated m.type) m.message)) := messageUnpack_messagePack 2 _ complete small rest
  have unpacked : protobufC.unpack (protobufC.generated m.type) (protobufC.pack m).length (protobufC.pack m ++ rest) =
      some (sent m) := by
    have type : typeOf (protobufC.generated m.type) = some m.type := typeOf_generated m.type _
    change (typeOf (protobufC.generated m.type) >>= fun type => _) = _
    rw [type]
    change unpackAs m.type (protobufC.pack m).length (protobufC.pack m ++ rest) = _
    rw [unpackAs, read]
    rfl
  rw [unpackMessage, unsigned, found, CExec.ok_bind, unpacked]

/-- Every message that has no null pointer where a message must be, and fits into a
frame, reaches the other end under the number of its type: with what was set, with the
defaults for what was not, and with whatever comes behind it left in the window. -/
theorem generated_frame_round_trip (m : GeneratedMessage) (complete : Complete 2 (generated m.type) m.message)
    (other : m.type ≠ .udptunnel) (ctx : FrameEncoder) (rest : List UInt8)
    (fits : 6 + protobufC.packedSize m + rest.length ≤ 2 ^ 20) (old : Option GeneratedMessage) :
    ∃ encoded decoder decoder', mumbleFrameEncode protobufC ctx m = .ok encoded ∧
      mumbleFrameAppend mumbleFrameInit (encoded.written ++ rest) (encoded.written ++ rest).length =
        .ok (true, decoder) ∧
      mumbleFrameDecode decoder (unpackMessage protobufC) () old = .ok (m.type.number, decoder', (), some (sent m)) ∧
      decoder'.buffer = rest := by
  have lawful := properMessages_lawful.1
  have size : protobufC.packedSize m = (protobufC.pack m).length := (messagePack_length ..).symm
  have pack : protobufC.pack (sent m) = protobufC.pack m :=
    messagePack_sentMessage 2 (generated m.type) m.message
  have limit : 2 ^ 20 ≤ packLimit := by decide
  let w : ProperMessage := {
    toGeneratedMessage := sent m
    proper := sentMessage_proper 2 (generated m.type) complete
    small := by
      change (protobufC.pack (sent m)).length ≤ packLimit
      rw [pack]
      omega }
  have same : (properMessages.pack w).length = (protobufC.pack m).length := congrArg List.length pack
  obtain ⟨f, type, payload⟩ := exists_message_frame lawful m.type w (by rw [← lawful.packedSize, same]; omega)
  have payload : f.payload = protobufC.pack m := payload.trans pack
  have wire : f.wire.length = 6 + (protobufC.pack m).length := by rw [frame_wire_length, payload]
  obtain ⟨encoded, run, written⟩ : ∃ encoded, mumbleFrameEncode properMessages ctx w = .ok encoded ∧
      encoded.written = f.wire :=
    mumbleFrameEncode_written ctx lawful rfl f type (payload.trans pack.symm) (by rw [wire]; change _ ≤ 2 ^ 20; omega)
  have run : mumbleFrameEncode protobufC ctx m = .ok encoded := (mumbleFrameEncode_sent ctx m).symm.trans run
  have room : (mumbleFrameInit.buffer ++ (encoded.written ++ rest)).length ≤ mumbleFrameInit.bufferAllocated := by
    rw [written, List.length_append, List.length_append, wire]
    change 0 + _ ≤ 2 ^ 20
    omega
  obtain ⟨ready, decoder, appended, buffer, -⟩ := mumbleFrameAppend_of_fits room
  have window : decoder.buffer = f.wire ++ rest := by
    rw [buffer, written]
    rfl
  have short : f.payload.length < 2 ^ 30 := by
    rw [payload]
    omega
  obtain ⟨popped, left⟩ := mumbleFramePop_wire window short
  obtain rfl : ready = true := (mumbleFrameAppend_ready appended).symm.trans popped
  refine ⟨encoded, decoder, _, run, appended, ?_, left⟩
  have window' := window.trans (wire_append f rest)
  have number : mumbleFrameType decoder = m.type.number := by rw [mumbleFrameType_header window', type]
  have message : mumbleFrameIsAudio decoder = false := by
    have different : m.type.number ≠ 1 := by
      intro one
      apply other
      cases kind : m.type <;> rw [kind] at one <;> first | rfl | cases one
    rw [mumbleFrameIsAudio, number, decide_eq_false_iff_not, typeUdptunnel]
    omega
  have length : CExec.toSize (mumbleFrameSize decoder) = (protobufC.pack m).length := by
    rw [mumbleFrameSize_header window' (by omega), CExec.toSize_natCast, payload]
    omega
  have body : decoder.buffer.drop 6 = protobufC.pack m ++ rest := by
    rw [window', List.drop_left' (frame_header_length f), payload]
  rw [mumbleFrameDecode_front popped message, number, length, body,
    unpackMessage_sent complete (by omega), CExec.ok_bind]

/-- The second target of a client: the user with session 5. -/
def whisper : GeneratedMessage where
  type := .voiceTarget
  message := setMember (setMember (messageInit voiceTarget) ⟨0, by decide⟩ ((true, 2) : Bool × UInt32)) ⟨1, by decide⟩
    [setMember (messageInit target) ⟨0, by decide⟩ ([5] : List UInt32)]

theorem whisper_complete : Complete 2 voiceTarget whisper.message := by
  refine ⟨fun i => ?_, fun _ member => absurd member List.not_mem_nil⟩
  match i with
  | ⟨0, _⟩ => trivial
  | ⟨1, _⟩ =>
    intro inner member
    obtain rfl := List.mem_singleton.mp member
    refine ⟨fun i => ?_, fun _ member => absurd member List.not_mem_nil⟩
    match i with
    | ⟨0, _⟩ => trivial
    | ⟨1, _⟩ => trivial
    | ⟨2, _⟩ => trivial
    | ⟨3, _⟩ => trivial
    | ⟨4, _⟩ => trivial

theorem generated_frame_round_trip_sample : ∃ encoded decoder decoder',
    mumbleFrameEncode protobufC ⟨List.replicate frameMaxSize 7, 0, List.length_replicate⟩ whisper = .ok encoded ∧
      mumbleFrameAppend mumbleFrameInit (encoded.written ++ [0, 3]) (encoded.written ++ [0, 3]).length =
        .ok (true, decoder) ∧
      mumbleFrameDecode decoder (unpackMessage protobufC) () none =
        .ok (whisper.type.number, decoder', (), some (sent whisper)) ∧
      decoder'.buffer = [0, 3] :=
  generated_frame_round_trip whisper whisper_complete (by decide)
    ⟨List.replicate frameMaxSize 7, 0, List.length_replicate⟩ [0, 3] (by decide) none

end Frames

end MumbleProto

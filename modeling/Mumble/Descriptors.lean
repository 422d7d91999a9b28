import Mumble.Client

/-! The tables of message descriptors in `frame_decoder.c` and `frame_encoder.c`.
The descriptors themselves are generated from `Mumble.proto`, and `protobuf-c`
works with them. Both are parameters. -/
namespace Mumble
open CExec

/-- The top-level messages, each under the name of its descriptor. -/
inductive MessageType where
  | version
  | udptunnel
  | authenticate
  | ping
  | reject
  | serverSync
  | channelRemove
  | channelState
  | userRemove
  | userState
  | banList
  | textMessage
  | permissionDenied
  | acl
  | queryUsers
  | cryptSetup
  | contextActionModify
  | contextAction
  | userList
  | voiceTarget
  | permissionQuery
  | codecVersion
  | userStats
  | requestBlob
  | serverConfig
  | suggestConfig
  deriving DecidableEq, Repr

/-- The `MUMBLE_TYPE_` constants of `common.h`. -/
def MessageType.number : MessageType → Nat
  | version => 0
  | udptunnel => 1
  | authenticate => 2
  | ping => 3
  | reject => 4
  | serverSync => 5
  | channelRemove => 6
  | channelState => 7
  | userRemove => 8
  | userState => 9
  | banList => 10
  | textMessage => 11
  | permissionDenied => 12
  | acl => 13
  | queryUsers => 14
  | cryptSetup => 15
  | contextActionModify => 16
  | contextAction => 17
  | userList => 18
  | voiceTarget => 19
  | permissionQuery => 20
  | codecVersion => 21
  | userStats => 22
  | requestBlob => 23
  | serverConfig => 24
  | suggestConfig => 25

def mumbleTypeCount : Nat := 26

/-- What is read of a descriptor here. -/
structure MessageDescriptor where
  name : String
  packageName : String

/-- The generated descriptors and `protobuf-c`: `descriptor` is the one that a
message points to, and `unpack` gets a length and the bytes from its pointer on.
`descriptorSize` is the `sizeof` of a descriptor. -/
structure Protobuf (μ : Type) where
  generated : MessageType → MessageDescriptor
  descriptorSize : Nat
  descriptor : μ → MessageDescriptor
  packedSize : μ → Nat
  pack : μ → List UInt8
  unpack : MessageDescriptor → Nat → List UInt8 → Option μ

/-- `descriptors` in `frame_decoder.c`. -/
def decoderDescriptors : List MessageType :=
  [.version, .udptunnel, .authenticate, .ping, .reject, .serverSync, .channelRemove, .channelState,
    .userRemove, .userState, .banList, .textMessage, .permissionDenied, .acl, .queryUsers,
    .cryptSetup, .contextActionModify, .contextAction, .userList, .voiceTarget, .permissionQuery,
    .codecVersion, .userStats, .requestBlob, .serverConfig, .suggestConfig]

/-- `descriptors` in `frame_encoder.c`. -/
def encoderDescriptors : List MessageType :=
  [.version, .udptunnel, .authenticate, .ping, .reject, .serverSync, .channelRemove, .channelState,
    .userRemove, .userState, .banList, .textMessage, .permissionDenied, .acl, .queryUsers,
    .cryptSetup, .contextActionModify, .contextAction, .userList, .voiceTarget, .permissionQuery,
    .codecVersion, .userStats, .requestBlob, .serverConfig, .suggestConfig]

section
variable {σ μ : Type} (p : Protobuf μ)

/-- `descriptor` in either file. The assertion is on the size of the table in bytes. -/
def descriptor (descriptors : List MessageType) (type : Nat) : Run MessageDescriptor := do
  require (type < descriptors.length * p.descriptorSize) .assertion
  load (descriptors.map p.generated) type

/-- What `mumble_frame_decode` does with a type and a payload. -/
def unpackMessage (state : σ) (type : Int) (len : Nat) (data : List UInt8) : Run (σ × Option μ) := do
  let msgDescriptor ← descriptor p decoderDescriptors (toUnsigned type)
  .ok (state, p.unpack msgDescriptor len data)

end

/-- The qualified names that `Mumble.proto` gives. -/
def MessageType.fullName : MessageType → String
  | version => "MumbleProto.Version"
  | udptunnel => "MumbleProto.UDPTunnel"
  | authenticate => "MumbleProto.Authenticate"
  | ping => "MumbleProto.Ping"
  | reject => "MumbleProto.Reject"
  | serverSync => "MumbleProto.ServerSync"
  | channelRemove => "MumbleProto.ChannelRemove"
  | channelState => "MumbleProto.ChannelState"
  | userRemove => "MumbleProto.UserRemove"
  | userState => "MumbleProto.UserState"
  | banList => "MumbleProto.BanList"
  | textMessage => "MumbleProto.TextMessage"
  | permissionDenied => "MumbleProto.PermissionDenied"
  | acl => "MumbleProto.ACL"
  | queryUsers => "MumbleProto.QueryUsers"
  | cryptSetup => "MumbleProto.CryptSetup"
  | contextActionModify => "MumbleProto.ContextActionModify"
  | contextAction => "MumbleProto.ContextAction"
  | userList => "MumbleProto.UserList"
  | voiceTarget => "MumbleProto.VoiceTarget"
  | permissionQuery => "MumbleProto.PermissionQuery"
  | codecVersion => "MumbleProto.CodecVersion"
  | userStats => "MumbleProto.UserStats"
  | requestBlob => "MumbleProto.RequestBlob"
  | serverConfig => "MumbleProto.ServerConfig"
  | suggestConfig => "MumbleProto.SuggestConfig"

/-- Messages that are packed to nothing, one of each type. -/
def emptyMessages : Protobuf MessageType where
  generated t := ⟨t.fullName, "MumbleProto"⟩
  descriptorSize := 120
  descriptor t := ⟨t.fullName, "MumbleProto"⟩
  packedSize _ := 0
  pack _ := []
  unpack d len _ := if len = 0 then decoderDescriptors.find? (fun t => t.fullName = d.name) else none

end Mumble

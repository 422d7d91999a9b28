import Mumble.ProtobufC.Message

/-! The messages of `Mumble.proto` as the generated code describes them to `protobuf-c`.
None of their fields is packed. -/
namespace MumbleProto
open ProtobufC

section Fields
variable {δ : Type}

def field (label : Label) (id : Nat) (t : FieldType δ) (value : t.Default) (numbered : id < 2 ^ 29 := by decide) :
    FieldDescriptor δ where
  id := .ofNat id
  label := label
  type := t
  defaultValue := value
  packed := false
  numbered := by
    rw [UInt32.toNat_ofNat', Nat.mod_eq_of_lt (by omega)]
    exact numbered
  packable packed := by cases packed

def scalar (label : Label) (id : Nat) (t : ScalarType) (value : Option t.Value := none)
    (numbered : id < 2 ^ 29 := by decide) : FieldDescriptor δ := field label id (.scalar t) value numbered

def string (label : Label) (id : Nat) (numbered : id < 2 ^ 29 := by decide) : FieldDescriptor δ :=
  field label id .string () numbered

def bytes (label : Label) (id : Nat) (numbered : id < 2 ^ 29 := by decide) : FieldDescriptor δ :=
  field label id .bytes () numbered

def message (label : Label) (id : Nat) (d : δ) (numbered : id < 2 ^ 29 := by decide) : FieldDescriptor δ :=
  field label id (.message d) () numbered

/-- A generated descriptor. -/
def descriptor (name : String) (fields : List (FieldDescriptor δ))
    (ascending : (fields.map FieldDescriptor.id).Pairwise (· < ·)) : MessageDescriptor δ where
  name := name
  packageName := "MumbleProto"
  fields := fields
  ascending := List.pairwise_map.mp ascending

end Fields

section Inner
variable {δ : Type}

def version : MessageDescriptor δ := descriptor "MumbleProto.Version"
  [scalar .optional 1 .uint32, string .optional 2, string .optional 3, string .optional 4]
  (of_decide_eq_true rfl)

def banEntry : MessageDescriptor δ := descriptor "MumbleProto.BanList.BanEntry"
  [bytes .required 1, scalar .required 2 .uint32, string .optional 3, string .optional 4, string .optional 5,
    string .optional 6, scalar .optional 7 .uint32]
  (of_decide_eq_true rfl)

def chanGroup : MessageDescriptor δ := descriptor "MumbleProto.ACL.ChanGroup"
  [string .required 1, scalar .optional 2 .bool (some true), scalar .optional 3 .bool (some true),
    scalar .optional 4 .bool (some true), scalar .repeated 5 .uint32, scalar .repeated 6 .uint32,
    scalar .repeated 7 .uint32]
  (of_decide_eq_true rfl)

def chanACL : MessageDescriptor δ := descriptor "MumbleProto.ACL.ChanACL"
  [scalar .optional 1 .bool (some true), scalar .optional 2 .bool (some true),
    scalar .optional 3 .bool (some true), scalar .optional 4 .uint32, string .optional 5,
    scalar .optional 6 .uint32, scalar .optional 7 .uint32]
  (of_decide_eq_true rfl)

def user : MessageDescriptor δ := descriptor "MumbleProto.UserList.User"
  [scalar .required 1 .uint32, string .optional 2, string .optional 3, scalar .optional 4 .uint32]
  (of_decide_eq_true rfl)

def target : MessageDescriptor δ := descriptor "MumbleProto.VoiceTarget.Target"
  [scalar .repeated 1 .uint32, scalar .optional 2 .uint32, string .optional 3,
    scalar .optional 4 .bool (some false), scalar .optional 5 .bool (some false)]
  (of_decide_eq_true rfl)

def stats : MessageDescriptor δ := descriptor "MumbleProto.UserStats.Stats"
  [scalar .optional 1 .uint32, scalar .optional 2 .uint32, scalar .optional 3 .uint32,
    scalar .optional 4 .uint32]
  (of_decide_eq_true rfl)

end Inner

def udptunnel : MessageDescriptor (Descriptor 1) := descriptor "MumbleProto.UDPTunnel"
  [bytes .required 1]
  (of_decide_eq_true rfl)

def authenticate : MessageDescriptor (Descriptor 1) := descriptor "MumbleProto.Authenticate"
  [string .optional 1, string .optional 2, string .repeated 3, scalar .repeated 4 .int32,
    scalar .optional 5 .bool (some false)]
  (of_decide_eq_true rfl)

def ping : MessageDescriptor (Descriptor 1) := descriptor "MumbleProto.Ping"
  [scalar .optional 1 .uint64, scalar .optional 2 .uint32, scalar .optional 3 .uint32,
    scalar .optional 4 .uint32, scalar .optional 5 .uint32, scalar .optional 6 .uint32,
    scalar .optional 7 .uint32, scalar .optional 8 .float, scalar .optional 9 .float,
    scalar .optional 10 .float, scalar .optional 11 .float]
  (of_decide_eq_true rfl)

def reject : MessageDescriptor (Descriptor 1) := descriptor "MumbleProto.Reject"
  [scalar .optional 1 .enum, string .optional 2]
  (of_decide_eq_true rfl)

def serverSync : MessageDescriptor (Descriptor 1) := descriptor "MumbleProto.ServerSync"
  [scalar .optional 1 .uint32, scalar .optional 2 .uint32, string .optional 3, scalar .optional 4 .uint64]
  (of_decide_eq_true rfl)

def channelRemove : MessageDescriptor (Descriptor 1) := descriptor "MumbleProto.ChannelRemove"
  [scalar .required 1 .uint32]
  (of_decide_eq_true rfl)

def channelState : MessageDescriptor (Descriptor 1) := descriptor "MumbleProto.ChannelState"
  [scalar .optional 1 .uint32, scalar .optional 2 .uint32, string .optional 3, scalar .repeated 4 .uint32,
    string .optional 5, scalar .repeated 6 .uint32, scalar .repeated 7 .uint32,
    scalar .optional 8 .bool (some false), scalar .optional 9 .int32 (some (0 : UInt32)), bytes .optional 10,
    scalar .optional 11 .uint32]
  (of_decide_eq_true rfl)

def userRemove : MessageDescriptor (Descriptor 1) := descriptor "MumbleProto.UserRemove"
  [scalar .required 1 .uint32, scalar .optional 2 .uint32, string .optional 3, scalar .optional 4 .bool]
  (of_decide_eq_true rfl)

def userState : MessageDescriptor (Descriptor 1) := descriptor "MumbleProto.UserState"
  [scalar .optional 1 .uint32, scalar .optional 2 .uint32, string .optional 3, scalar .optional 4 .uint32,
    scalar .optional 5 .uint32, scalar .optional 6 .bool, scalar .optional 7 .bool, scalar .optional 8 .bool,
    scalar .optional 9 .bool, scalar .optional 10 .bool, bytes .optional 11, bytes .optional 12,
    string .optional 13, string .optional 14, string .optional 15, bytes .optional 16, bytes .optional 17,
    scalar .optional 18 .bool, scalar .optional 19 .bool]
  (of_decide_eq_true rfl)

def banList : MessageDescriptor (Descriptor 1) := descriptor "MumbleProto.BanList"
  [message .repeated 1 banEntry, scalar .optional 2 .bool (some false)]
  (of_decide_eq_true rfl)

def textMessage : MessageDescriptor (Descriptor 1) := descriptor "MumbleProto.TextMessage"
  [scalar .optional 1 .uint32, scalar .repeated 2 .uint32, scalar .repeated 3 .uint32,
    scalar .repeated 4 .uint32, string .required 5]
  (of_decide_eq_true rfl)

def permissionDenied : MessageDescriptor (Descriptor 1) := descriptor "MumbleProto.PermissionDenied"
  [scalar .optional 1 .uint32, scalar .optional 2 .uint32, scalar .optional 3 .uint32, string .optional 4,
    scalar .optional 5 .enum, string .optional 6]
  (of_decide_eq_true rfl)

def acl : MessageDescriptor (Descriptor 1) := descriptor "MumbleProto.ACL"
  [scalar .required 1 .uint32, scalar .optional 2 .bool (some true), message .repeated 3 chanGroup,
    message .repeated 4 chanACL, scalar .optional 5 .bool (some false)]
  (of_decide_eq_true rfl)

def queryUsers : MessageDescriptor (Descriptor 1) := descriptor "MumbleProto.QueryUsers"
  [scalar .repeated 1 .uint32, string .repeated 2]
  (of_decide_eq_true rfl)

def cryptSetup : MessageDescriptor (Descriptor 1) := descriptor "MumbleProto.CryptSetup"
  [bytes .optional 1, bytes .optional 2, bytes .optional 3]
  (of_decide_eq_true rfl)

def contextActionModify : MessageDescriptor (Descriptor 1) := descriptor "MumbleProto.ContextActionModify"
  [string .required 1, string .optional 2, scalar .optional 3 .uint32, scalar .optional 4 .enum]
  (of_decide_eq_true rfl)

def contextAction : MessageDescriptor (Descriptor 1) := descriptor "MumbleProto.ContextAction"
  [scalar .optional 1 .uint32, scalar .optional 2 .uint32, string .required 3]
  (of_decide_eq_true rfl)

def userList : MessageDescriptor (Descriptor 1) := descriptor "MumbleProto.UserList"
  [message .repeated 1 user]
  (of_decide_eq_true rfl)

def voiceTarget : MessageDescriptor (Descriptor 1) := descriptor "MumbleProto.VoiceTarget"
  [scalar .optional 1 .uint32, message .repeated 2 target]
  (of_decide_eq_true rfl)

def permissionQuery : MessageDescriptor (Descriptor 1) := descriptor "MumbleProto.PermissionQuery"
  [scalar .optional 1 .uint32, scalar .optional 2 .uint32, scalar .optional 3 .bool (some false)]
  (of_decide_eq_true rfl)

def codecVersion : MessageDescriptor (Descriptor 1) := descriptor "MumbleProto.CodecVersion"
  [scalar .required 1 .int32, scalar .required 2 .int32, scalar .required 3 .bool (some true),
    scalar .optional 4 .bool (some false)]
  (of_decide_eq_true rfl)

def userStats : MessageDescriptor (Descriptor 1) := descriptor "MumbleProto.UserStats"
  [scalar .optional 1 .uint32, scalar .optional 2 .bool (some false), bytes .repeated 3,
    message .optional 4 stats, message .optional 5 stats, scalar .optional 6 .uint32,
    scalar .optional 7 .uint32, scalar .optional 8 .float, scalar .optional 9 .float,
    scalar .optional 10 .float, scalar .optional 11 .float, message .optional 12 version,
    scalar .repeated 13 .int32, bytes .optional 14, scalar .optional 15 .uint32, scalar .optional 16 .uint32,
    scalar .optional 17 .uint32, scalar .optional 18 .bool (some false), scalar .optional 19 .bool (some false)]
  (of_decide_eq_true rfl)

def requestBlob : MessageDescriptor (Descriptor 1) := descriptor "MumbleProto.RequestBlob"
  [scalar .repeated 1 .uint32, scalar .repeated 2 .uint32, scalar .repeated 3 .uint32]
  (of_decide_eq_true rfl)

def serverConfig : MessageDescriptor (Descriptor 1) := descriptor "MumbleProto.ServerConfig"
  [scalar .optional 1 .uint32, string .optional 2, scalar .optional 3 .bool, scalar .optional 4 .uint32,
    scalar .optional 5 .uint32, scalar .optional 6 .uint32]
  (of_decide_eq_true rfl)

def suggestConfig : MessageDescriptor (Descriptor 1) := descriptor "MumbleProto.SuggestConfig"
  [scalar .optional 1 .uint32, scalar .optional 2 .bool, scalar .optional 3 .bool]
  (of_decide_eq_true rfl)

end MumbleProto

import Mathlib.Data.Nat.Bitwise
import Mathlib.Data.List.Pairwise
import Mathlib.Data.List.FinRange
import Mathlib.Data.List.TakeWhile

/-! Messages of `protobuf-c` and their descriptors, as the generated code declares
them. A descriptor is over the descriptors `δ` of the messages that it contains, and
`μ` are these messages. There are no `oneof` members, and only numbers have defaults. -/
namespace ProtobufC

/-- The types of `ProtobufCType` that are numbers. -/
inductive ScalarType where
  | int32
  | sint32
  | sfixed32
  | int64
  | sint64
  | sfixed64
  | uint32
  | fixed32
  | uint64
  | fixed64
  | float
  | double
  | bool
  | enum
  deriving DecidableEq, Repr

/-- A number as the bits of its member. -/
def ScalarType.Value : ScalarType → Type
  | int32 | sint32 | sfixed32 | uint32 | fixed32 | float | enum => UInt32
  | int64 | sint64 | sfixed64 | uint64 | fixed64 | double => UInt64
  | bool => Bool

def ScalarType.zero : (t : ScalarType) → t.Value
  | int32 | sint32 | sfixed32 | uint32 | fixed32 | float | enum => (0 : UInt32)
  | int64 | sint64 | sfixed64 | uint64 | fixed64 | double => (0 : UInt64)
  | bool => false

/-- A string up to its terminator. -/
structure CString where
  bytes : List UInt8
  unterminated : 0 ∉ bytes
  deriving DecidableEq

/-- What is read of an array of characters that a terminator has been put behind. -/
def CString.ofArray (bytes : List UInt8) : CString where
  bytes := bytes.takeWhile (· ≠ 0)
  unterminated inside := by simpa using List.mem_takeWhile_imp inside

@[simp] theorem CString.ofArray_bytes (s : CString) : CString.ofArray s.bytes = s := by
  obtain ⟨bytes, unterminated⟩ := s
  have all : bytes.takeWhile (· ≠ 0) = bytes := by
    rw [List.takeWhile_eq_self_iff]
    intro b inside
    simpa using fun zero : b = 0 => unterminated (zero ▸ inside)
  simp only [ofArray, all]

/-- `ProtobufCType`. -/
inductive FieldType (δ : Type) where
  | scalar (type : ScalarType)
  | string
  | bytes
  | message (descriptor : δ)

/-- `ProtobufCLabel`. -/
inductive Label where
  | required
  | optional
  | repeated
  deriving DecidableEq, Repr

section Members
variable {δ : Type} (μ : δ → Type)

/-- An element of a repeated field. -/
def FieldType.Element : FieldType δ → Type
  | scalar t => t.Value
  | string => CString
  | bytes => List UInt8
  | message d => μ d

/-- A required member. Strings and messages are pointers, which may be null. -/
def FieldType.Required : FieldType δ → Type
  | scalar t => t.Value
  | string => Option CString
  | bytes => List UInt8
  | message d => Option (μ d)

/-- An optional member, with its `has_` member unless it is a pointer. -/
def FieldType.Optional : FieldType δ → Type
  | scalar t => Bool × t.Value
  | string => Option CString
  | bytes => Bool × List UInt8
  | message d => Option (μ d)

def FieldType.Member (t : FieldType δ) : Label → Type
  | .required => t.Required μ
  | .optional => t.Optional μ
  | .repeated => List (t.Element μ)

end Members

/-- The static object that `default_value` points to, if it is not null. -/
def FieldType.Default {δ : Type} : FieldType δ → Type
  | scalar t => Option t.Value
  | string | bytes | message _ => Unit

/-- `is_packable_type`. -/
def FieldType.isPackable {δ : Type} : FieldType δ → Bool
  | scalar _ => true
  | string | bytes | message _ => false

/-- `ProtobufCFieldDescriptor`, with the flag `PACKED` of those that are set. The
compiler lets no number be larger. -/
structure FieldDescriptor (δ : Type) where
  id : UInt32
  label : Label
  type : FieldType δ
  defaultValue : type.Default
  packed : Bool
  numbered : id.toNat < 2 ^ 29
  packable : packed = true → type.isPackable = true

/-- `ProtobufCMessageDescriptor`, whose fields are sorted by their numbers. -/
structure MessageDescriptor (δ : Type) where
  name : String
  packageName : String
  fields : List (FieldDescriptor δ)
  ascending : fields.Pairwise fun f g => f.id < g.id

namespace MessageDescriptor
variable {δ : Type} (d : MessageDescriptor δ)

def nFields : Nat := d.fields.length

def field (i : Fin d.nFields) : FieldDescriptor δ := d.fields.get i

end MessageDescriptor

/-- `ProtobufCMessageUnknownField`. -/
structure UnknownField where
  tag : UInt32
  wireType : UInt8
  data : List UInt8
  deriving DecidableEq, Repr

/-- One message: the members of its fields, and what was not recognized. -/
structure Record {δ : Type} (μ : δ → Type) (d : MessageDescriptor δ) where
  member : (i : Fin d.nFields) → (d.field i).type.Member μ (d.field i).label
  unknown : List UnknownField

/-- Descriptors of messages that are nested no deeper than `n`. -/
def Descriptor : Nat → Type
  | 0 => Empty
  | n + 1 => MessageDescriptor (Descriptor n)

def Message : (n : Nat) → Descriptor n → Type
  | 0, d => nomatch d
  | n + 1, d => Record (Message n) d

section Init
variable {δ : Type} {μ : δ → Type}

/-- The value that a member has before it is set. -/
def initialMember : (t : FieldType δ) → t.Default → (label : Label) → t.Member μ label
  | .scalar t, value, .required => value.getD t.zero
  | .scalar t, value, .optional => (false, value.getD t.zero)
  | .string, _, .required | .string, _, .optional => none
  | .bytes, _, .required => []
  | .bytes, _, .optional => (false, [])
  | .message _, _, .required | .message _, _, .optional => none
  | _, _, .repeated => []

/-- `message_init`. -/
def messageInit (d : MessageDescriptor δ) : Record μ d where
  member i := initialMember (d.field i).type (d.field i).defaultValue (d.field i).label
  unknown := []

/-- A message with one member set. -/
def setMember {d : MessageDescriptor δ} (m : Record μ d) (i : Fin d.nFields)
    (value : (d.field i).type.Member μ (d.field i).label) : Record μ d :=
  { m with member := Function.update m.member i value }

end Init

end ProtobufC

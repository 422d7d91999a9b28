import Mumble.ProtobufC.Message

/-! Packing a message, and the size that is computed for it beforehand. What a
function writes to `out` is the list of the bytes. -/
namespace ProtobufC

section PackedSize

def getTagSize (number : UInt32) : Nat :=
  if number.toNat < 2 ^ 4 then 1
  else if number.toNat < 2 ^ 11 then 2
  else if number.toNat < 2 ^ 18 then 3
  else if number.toNat < 2 ^ 25 then 4
  else 5

def uint32Size (v : UInt32) : Nat :=
  if v.toNat < 2 ^ 7 then 1
  else if v.toNat < 2 ^ 14 then 2
  else if v.toNat < 2 ^ 21 then 3
  else if v.toNat < 2 ^ 28 then 4
  else 5

def int32Size (v : UInt32) : Nat :=
  if v.toInt32 < 0 then 10
  else if v.toNat < 2 ^ 7 then 1
  else if v.toNat < 2 ^ 14 then 2
  else if v.toNat < 2 ^ 21 then 3
  else if v.toNat < 2 ^ 28 then 4
  else 5

def zigzag32 (v : UInt32) : UInt32 := if v.toInt32 < 0 then (-v) * 2 - 1 else v * 2

def sint32Size (v : UInt32) : Nat := uint32Size (zigzag32 v)

def uint64Size (v : UInt64) : Nat :=
  let upper := (v >>> 32).toUInt32
  if upper = 0 then uint32Size v.toUInt32
  else if upper.toNat < 2 ^ 3 then 5
  else if upper.toNat < 2 ^ 10 then 6
  else if upper.toNat < 2 ^ 17 then 7
  else if upper.toNat < 2 ^ 24 then 8
  else if upper.toNat < 2 ^ 31 then 9
  else 10

def zigzag64 (v : UInt64) : UInt64 := if v.toInt64 < 0 then (-v) * 2 - 1 else v * 2

def sint64Size (v : UInt64) : Nat := uint64Size (zigzag64 v)

def scalarSize : (t : ScalarType) → t.Value → Nat
  | .sint32, v => sint32Size v
  | .int32, v => int32Size v
  | .uint32, v => uint32Size v
  | .sint64, v => sint64Size v
  | .int64, v | .uint64, v => uint64Size v
  | .sfixed32, _ | .fixed32, _ | .float, _ => 4
  | .sfixed64, _ | .fixed64, _ | .double, _ => 8
  | .bool, _ => 1
  | .enum, v => uint32Size v

/-- A size and the length in front of it, which is a `uint32_t`. -/
def prefixedSize (len : Nat) : Nat := uint32Size (.ofNat len) + len

variable {δ : Type} {μ : δ → Type} (subSize : (d : δ) → μ d → Nat)

def requiredSize : (t : FieldType δ) → t.Required μ → Nat
  | .scalar t, v => scalarSize t v
  | .string, s => prefixedSize (s.elim 0 fun s => s.bytes.length)
  | .bytes, b => prefixedSize b.length
  | .message d, m => prefixedSize (m.elim 0 (subSize d))

def requiredFieldGetPackedSize (f : FieldDescriptor δ) (member : f.type.Required μ) : Nat :=
  getTagSize f.id + requiredSize subSize f.type member

end PackedSize

section Elements
variable {δ : Type} {μ : δ → Type}

/-- An element as a member of the same type, which is not null. -/
def FieldType.required : (t : FieldType δ) → t.Element μ → t.Required μ
  | .scalar _, v => v
  | .string, s => some s
  | .bytes, b => b
  | .message _, m => some m

/-- What there is to pack of an optional member. -/
def FieldType.present : (t : FieldType δ) → t.Optional μ → Option (t.Required μ)
  | .scalar _, (has, v) => if has then some v else none
  | .string, s => s.map some
  | .bytes, (has, b) => if has then some b else none
  | .message _, m => m.map some

end Elements

section PackedSize
variable {δ : Type} {μ : δ → Type} (subSize : (d : δ) → μ d → Nat)

def optionalFieldGetPackedSize (f : FieldDescriptor δ) (member : f.type.Optional μ) : Nat :=
  match f.type.present member with
  | some member => requiredFieldGetPackedSize subSize f member
  | none => 0

def repeatedFieldGetPackedSize (f : FieldDescriptor δ) (array : List (f.type.Element μ)) : Nat :=
  if array.length = 0 then 0
  else
    let rv := (array.map fun a => requiredSize subSize f.type (f.type.required a)).sum
    if f.packed then getTagSize f.id + uint32Size (.ofNat rv) + rv
    else getTagSize f.id * array.length + rv

def unknownFieldGetPackedSize (field : UnknownField) : Nat := getTagSize field.tag + field.data.length

def fieldGetPackedSize (f : FieldDescriptor δ) (member : f.type.Member μ f.label) : Nat :=
  match f.label, member with
  | .required, member => requiredFieldGetPackedSize subSize f member
  | .optional, member => optionalFieldGetPackedSize subSize f member
  | .repeated, array => repeatedFieldGetPackedSize subSize f array

def recordGetPackedSize (d : MessageDescriptor δ) (message : Record μ d) : Nat :=
  ((List.finRange d.nFields).map fun i => fieldGetPackedSize subSize (d.field i) (message.member i)).sum +
    (message.unknown.map unknownFieldGetPackedSize).sum

/-- `protobuf_c_message_get_packed_size`. -/
def messageGetPackedSize : (n : Nat) → (d : Descriptor n) → Message n d → Nat
  | 0, d, _ => nomatch d
  | n + 1, d, message => recordGetPackedSize (messageGetPackedSize n) d message

end PackedSize

section Pack

/-- The nested `if`s of `uint32_pack` and the loop of `uint64_pack`: a byte for each
seven bits but the last. -/
def packBytes : Nat → UInt32 → List UInt8
  | 0, value => [value.toUInt8]
  | more + 1, value =>
    if value ≥ 0x80 then (value ||| 0x80).toUInt8 :: packBytes more (value >>> 7) else [value.toUInt8]

def uint32Pack (value : UInt32) : List UInt8 := packBytes 4 value

/-- The shifts are arithmetic. -/
def int32Pack (value : UInt32) : List UInt8 :=
  if value.toInt32 < 0 then
    let byte (shift : Int32) : UInt8 := ((value.toInt32 >>> shift).toUInt32 ||| 0x80).toUInt8
    [byte 0, byte 7, byte 14, byte 21, byte 28, 0xff, 0xff, 0xff, 0xff, 0x01]
  else uint32Pack value

def sint32Pack (value : UInt32) : List UInt8 := uint32Pack (zigzag32 value)

def uint64Pack (value : UInt64) : List UInt8 :=
  let hi := (value >>> 32).toUInt32
  let lo := value.toUInt32
  if hi = 0 then uint32Pack lo
  else
    let low := [(lo ||| 0x80).toUInt8, (lo >>> 7 ||| 0x80).toUInt8, (lo >>> 14 ||| 0x80).toUInt8,
      (lo >>> 21 ||| 0x80).toUInt8]
    if hi < 8 then low ++ [(hi <<< 4 ||| lo >>> 28).toUInt8]
    else low ++ ((hi &&& 7) <<< 4 ||| lo >>> 28 ||| 0x80).toUInt8 :: packBytes 4 (hi >>> 3)

def sint64Pack (value : UInt64) : List UInt8 := uint64Pack (zigzag64 value)

/-- The machine is little-endian. -/
def fixed32Pack (value : UInt32) : List UInt8 :=
  [value.toUInt8, (value >>> 8).toUInt8, (value >>> 16).toUInt8, (value >>> 24).toUInt8]

def fixed64Pack (value : UInt64) : List UInt8 :=
  fixed32Pack value.toUInt32 ++ fixed32Pack (value >>> 32).toUInt32

def booleanPack (value : Bool) : List UInt8 := [if value then 1 else 0]

/-- `string_pack`, `binary_data_pack` and `prefixed_message_pack`. The last one packs
behind one byte for the length, and moves the message if the length takes more. -/
def prefixedPack (data : List UInt8) : List UInt8 := uint32Pack (.ofNat data.length) ++ data

def tagPack (id : UInt32) : List UInt8 :=
  if id.toNat < 2 ^ (32 - 3) then uint32Pack (id <<< 3) else uint64Pack (id.toUInt64 <<< 3)

def wireTypeVarint : UInt8 := 0
def wireType64bit : UInt8 := 1
def wireTypeLengthPrefixed : UInt8 := 2
def wireType32bit : UInt8 := 5

/-- `out[0] |= wireType` behind `tag_pack`. -/
def wireTagPack (id : UInt32) (wireType : UInt8) : List UInt8 := (tagPack id).modifyHead (· ||| wireType)

def ScalarType.wireType : ScalarType → UInt8
  | .sfixed32 | .fixed32 | .float => wireType32bit
  | .sfixed64 | .fixed64 | .double => wireType64bit
  | .int32 | .sint32 | .int64 | .sint64 | .uint32 | .uint64 | .bool | .enum => wireTypeVarint

def FieldType.wireType {δ : Type} : FieldType δ → UInt8
  | .scalar t => t.wireType
  | .string | .bytes | .message _ => wireTypeLengthPrefixed

def scalarPack : (t : ScalarType) → t.Value → List UInt8
  | .sint32, v => sint32Pack v
  | .int32, v => int32Pack v
  | .uint32, v | .enum, v => uint32Pack v
  | .sint64, v => sint64Pack v
  | .int64, v | .uint64, v => uint64Pack v
  | .sfixed32, v | .fixed32, v | .float, v => fixed32Pack v
  | .sfixed64, v | .fixed64, v | .double, v => fixed64Pack v
  | .bool, v => booleanPack v

/-- `get_type_min_size`. -/
def ScalarType.minSize : ScalarType → Nat
  | .sfixed32 | .fixed32 | .float => 4
  | .sfixed64 | .fixed64 | .double => 8
  | .int32 | .sint32 | .int64 | .sint64 | .uint32 | .uint64 | .bool | .enum => 1

variable {δ : Type} {μ : δ → Type} (subPack : (d : δ) → μ d → List UInt8)

def requiredPack : (t : FieldType δ) → t.Required μ → List UInt8
  | .scalar t, v => scalarPack t v
  | .string, none => [0]
  | .string, some s => prefixedPack s.bytes
  | .bytes, b => prefixedPack b
  | .message _, none => [0]
  | .message d, some m => prefixedPack (subPack d m)

def requiredFieldPack (f : FieldDescriptor δ) (member : f.type.Required μ) : List UInt8 :=
  wireTagPack f.id f.type.wireType ++ requiredPack subPack f.type member

def optionalFieldPack (f : FieldDescriptor δ) (member : f.type.Optional μ) : List UInt8 :=
  match f.type.present member with
  | some member => requiredFieldPack subPack f member
  | none => []

/-- Packed values are written behind a length of the least size that they can have,
and moved by one byte if theirs takes more. -/
def repeatedFieldPack (f : FieldDescriptor δ) (array : List (f.type.Element μ)) : List UInt8 :=
  if f.packed then
    if array.length = 0 then []
    else wireTagPack f.id wireTypeLengthPrefixed ++
      prefixedPack (array.flatMap fun a => requiredPack subPack f.type (f.type.required a))
  else array.flatMap fun a => requiredFieldPack subPack f (f.type.required a)

def unknownFieldPack (field : UnknownField) : List UInt8 :=
  wireTagPack field.tag field.wireType ++ field.data

def fieldPack (f : FieldDescriptor δ) (member : f.type.Member μ f.label) : List UInt8 :=
  match f.label, member with
  | .required, member => requiredFieldPack subPack f member
  | .optional, member => optionalFieldPack subPack f member
  | .repeated, array => repeatedFieldPack subPack f array

def recordPack (d : MessageDescriptor δ) (message : Record μ d) : List UInt8 :=
  ((List.finRange d.nFields).flatMap fun i => fieldPack subPack (d.field i) (message.member i)) ++
    message.unknown.flatMap unknownFieldPack

/-- `protobuf_c_message_pack`. -/
def messagePack : (n : Nat) → (d : Descriptor n) → Message n d → List UInt8
  | 0, d, _ => nomatch d
  | n + 1, d, message => recordPack (messagePack n) d message

end Pack

end ProtobufC

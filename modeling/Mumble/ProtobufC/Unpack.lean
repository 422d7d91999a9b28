import Mumble.ProtobufC.Pack
import Mumble.ProtobufC.FieldRanges

/-! Unpacking a message: one pass over the data that finds its members and counts the
values of the repeated fields, and a second one that reads them. A pointer into the data
is the list of the bytes from it to the end of the object, and memory is always to be had. -/
namespace ProtobufC
open CExec

/-- `ScannedMember`, for a message of `fields` fields. -/
structure ScannedMember (fields : Nat) where
  tag : UInt32
  wireType : UInt8
  lengthPrefixLen : Nat
  field : Option (Fin fields)
  len : Nat
  data : List UInt8

section Scan

/-- The loop of `parse_tag_and_wiretype` over the bytes behind the first. -/
def parseTagBytes (data : List UInt8) : Nat → Nat → UInt32 → UInt32 → Run (Nat × UInt32)
  | 0, _, _, tag => .ok (0, tag)
  | left + 1, rv, shift, tag => do
    let b ← load data rv
    if b &&& 0x80 ≠ 0 then
      parseTagBytes data left (rv + 1) (shift + 7) (tag ||| (b &&& 0x7f).toUInt32 <<< shift)
    else .ok (rv + 1, tag ||| b.toUInt32 <<< shift)

/-- The bytes used, the tag and the wire type. -/
def parseTagAndWiretype (len : Nat) (data : List UInt8) : Run (Nat × UInt32 × UInt8) := do
  let maxRv := if len > 5 then 5 else len
  let first ← load data 0
  let tag := (first &&& 0x7f).toUInt32 >>> 3
  let wireType := first &&& 7
  if first &&& 0x80 = 0 then .ok (1, tag, wireType)
  else do
    let (used, tag) ← parseTagBytes data (maxRv - 1) 1 4 tag
    .ok (used, tag, wireType)

/-- The index of the first byte without the top bit, or of the end. -/
def scanTerminator (data : List UInt8) : Nat → Nat → Run Nat
  | 0, i => .ok i
  | left + 1, i => do
    let b ← load data i
    if b &&& 0x80 = 0 then .ok i else scanTerminator data left (i + 1)

/-- The loop of `scan_length_prefixed_data`: where it ends, and `val`. -/
def scanPrefix (data : List UInt8) : Nat → Nat → UInt32 → UInt32 → Run (Nat × UInt32)
  | 0, i, _, val => .ok (i, val)
  | left + 1, i, shift, val => do
    let b ← load data i
    let val := val ||| (b &&& 0x7f).toUInt32 <<< shift
    if b &&& 0x80 = 0 then .ok (i, val) else scanPrefix data left (i + 1) (shift + 7) val

/-- The sum of the two lengths is a `uint32_t`. -/
def scanLengthPrefixedData (len : Nat) (data : List UInt8) : Run (Nat × Nat) := do
  let hdrMax := if len < 5 then len else 5
  let (i, val) ← scanPrefix data hdrMax 0 0 0
  if i = hdrMax then .ok (0, 0)
  else
    let hdrLen := i + 1
    let total := UInt32.ofNat hdrLen + val
    if total.toNat > len then .ok (0, hdrLen) else .ok (total.toNat, hdrLen)

/-- The length of the data of a member and of its prefix, if it has one. -/
def scanData (wireType : UInt8) (rem : Nat) (data : List UInt8) : Run (Option (Nat × Nat)) :=
  if wireType = wireTypeVarint then do
    let maxLen := if rem < 10 then rem else 10
    let i ← scanTerminator data maxLen 0
    if i = maxLen then .ok none else .ok (some (i + 1, 0))
  else if wireType = wireType64bit then .ok (if rem < 8 then none else some (8, 0))
  else if wireType = wireTypeLengthPrefixed then do
    let (len, prefLen) ← scanLengthPrefixedData rem data
    .ok (if len = 0 then none else some (len, prefLen))
  else if wireType = wireType32bit then .ok (if rem < 4 then none else some (4, 0))
  else .ok none

/-- `count_packed_elements`, with `max_b128_numbers`. -/
def countPackedElements {δ : Type} (t : FieldType δ) (len : Nat) (data : List UInt8) : Run (Option Nat) :=
  match t with
  | .scalar .sfixed32 | .scalar .fixed32 | .scalar .float =>
    .ok (if len % 4 ≠ 0 then none else some (len / 4))
  | .scalar .sfixed64 | .scalar .fixed64 | .scalar .double =>
    .ok (if len % 8 ≠ 0 then none else some (len / 8))
  | .scalar .int32 | .scalar .sint32 | .scalar .enum | .scalar .uint32 | .scalar .int64
  | .scalar .sint64 | .scalar .uint64 => do
    let numbers ← slice data len
    .ok (some (numbers.countP (· &&& 0x80 = 0)))
  | .scalar .bool => .ok (some len)
  | .string | .bytes | .message _ => .ok none

variable {δ : Type} (d : MessageDescriptor δ)

/-- `field_ranges`. -/
def MessageDescriptor.fieldRanges : List IntRange := writeIntRanges (d.fields.map fun f => (f.id.toNat : Int))

def MessageDescriptor.nFieldRanges : Nat := d.fieldRanges.length - 1

/-- The field with a number, `last` being the one that was found before. -/
def findField (last : Option (Fin d.nFields)) (tag : UInt32) : Run (Option (Fin d.nFields)) :=
  if last.all fun i => (d.field i).id ≠ tag then do
    let fieldIndex ← intRangeLookup d.nFieldRanges d.fieldRanges tag.toInt32.toInt
    if fieldIndex < 0 then .ok none
    else if found : fieldIndex.toNat < d.nFields then .ok (some ⟨fieldIndex.toNat, found⟩)
    else .error .outOfBounds
  else .ok last

/-- A member that is read as packed values. -/
def readPacked (f : FieldDescriptor δ) (wireType : UInt8) : Bool :=
  wireType = wireTypeLengthPrefixed && (f.packed || f.type.isPackable)

/-- What the first pass keeps. `counts` are the `n_` members of the repeated fields. -/
structure Scan (fields : Nat) where
  lastField : Option (Fin fields)
  seen : Fin fields → Bool
  counts : Fin fields → Nat
  whichSlab : Nat
  inSlabIndex : Nat
  members : List (ScannedMember fields)

def firstSlabSizeLog2 : Nat := 4

def maxSlab : Nat := 4 * 8 - 1 - 5 - firstSlabSizeLog2

/-- The place of the next member in the slabs. -/
def nextSlot (whichSlab inSlabIndex : Nat) : Option (Nat × Nat) :=
  if inSlabIndex = 2 ^ (whichSlab + firstSlabSizeLog2) then
    if whichSlab = maxSlab then none else some (whichSlab + 1, 1)
  else some (whichSlab, inSlabIndex + 1)

/-- What a member adds to the count of a repeated field. -/
def countField {fields : Nat} (f : FieldDescriptor δ) (tmp : ScannedMember fields) : Run (Option Nat) :=
  if readPacked f tmp.wireType then
    countPackedElements f.type (toSize (tmp.len - tmp.lengthPrefixLen)) (tmp.data.drop tmp.lengthPrefixLen)
  else .ok (some 1)

def countMember (tmp : ScannedMember d.nFields) (counts : Fin d.nFields → Nat) :
    Run (Option (Fin d.nFields → Nat)) :=
  match tmp.field with
  | none => .ok (some counts)
  | some i =>
    if (d.field i).label ≠ .repeated then .ok (some counts)
    else do
      let some count ← countField (d.field i) tmp | .ok none
      .ok (some (Function.update counts i (toSize (counts i + count : Nat))))

/-- One round of the first pass: what is kept, and the bytes that were used. -/
def scanMember (s : Scan d.nFields) (rem : Nat) (data : List UInt8) :
    Run (Option (Scan d.nFields × Nat)) := do
  let (used, tag, wireType) ← parseTagAndWiretype rem data
  if used = 0 then .ok none
  else do
    let field ← findField d s.lastField tag
    let some (len, lengthPrefixLen) ← scanData wireType (rem - used) (data.drop used) | .ok none
    let tmp := { tag, wireType, lengthPrefixLen, field, len, data := data.drop used }
    let some (whichSlab, inSlabIndex) := nextSlot s.whichSlab s.inSlabIndex | .ok none
    let some counts ← countMember d tmp s.counts | .ok none
    .ok (some ({
      lastField := field.or s.lastField
      seen := fun i => s.seen i || field = some i
      counts
      whichSlab
      inSlabIndex
      members := s.members ++ [tmp] }, used + len))

def scanLoop : Nat → Scan d.nFields → Nat → List UInt8 → Run (Option (Scan d.nFields))
  | 0, _, _, _ => .error .endless
  | fuel + 1, s, rem, data =>
    if rem > 0 then do
      let some (s, used) ← scanMember d s rem data | .ok none
      scanLoop fuel s (rem - used) (data.drop used)
    else .ok (some s)

/-- `last_field` is the first field to begin with. -/
def scanMembers (len : Nat) (data : List UInt8) : Run (Option (Scan d.nFields)) :=
  scanLoop d (len + 1) {
    lastField := if first : 0 < d.nFields then some ⟨0, first⟩ else none
    seen := fun _ => false
    counts := fun _ => 0
    whichSlab := 0
    inSlabIndex := 0
    members := [] } len data

/-- `default_value != NULL`. -/
def FieldType.hasDefault : (t : FieldType δ) → t.Default → Bool
  | scalar _, value => value.isSome
  | string, _ | bytes, _ | message _, _ => false

def requiredSeen (seen : Fin d.nFields → Bool) : Bool :=
  (List.finRange d.nFields).all fun i =>
    (d.field i).label ≠ .required || (d.field i).type.hasDefault (d.field i).defaultValue || seen i

end Scan

section Parse

/-- The bytes of a number that come first, no more than `left`. -/
def parse32 : Nat → UInt32 → List UInt8 → UInt32
  | left + 1, shift, b :: bytes => (b &&& 0x7f).toUInt32 <<< shift ||| parse32 left (shift + 7) bytes
  | 0, _, _ | _, _, [] => 0

def parseUint32 (bytes : List UInt8) : UInt32 := parse32 5 0 bytes

def parse64 : UInt64 → List UInt8 → UInt64
  | shift, b :: bytes => (b &&& 0x7f).toUInt64 <<< shift ||| parse64 (shift + 7) bytes
  | _, [] => 0

def parseUint64 (bytes : List UInt8) : UInt64 :=
  if bytes.length < 5 then (parseUint32 bytes).toUInt64 else parse64 0 bytes

def unzigzag32 (v : UInt32) : UInt32 := if v &&& 1 ≠ 0 then -(v >>> 1) - 1 else v >>> 1

def unzigzag64 (v : UInt64) : UInt64 := if v &&& 1 ≠ 0 then -(v >>> 1) - 1 else v >>> 1

def parseFixedUint32 : List UInt8 → UInt32
  | b0 :: b1 :: b2 :: b3 :: _ =>
    b0.toUInt32 ||| b1.toUInt32 <<< 8 ||| b2.toUInt32 <<< 16 ||| b3.toUInt32 <<< 24
  | _ => 0

def parseFixedUint64 (bytes : List UInt8) : UInt64 :=
  (parseFixedUint32 bytes).toUInt64 ||| (parseFixedUint32 (bytes.drop 4)).toUInt64 <<< 32

def parseBoolean (bytes : List UInt8) : Bool := bytes.any (· &&& 0x7f ≠ 0)

def parseScalar : (t : ScalarType) → List UInt8 → t.Value
  | .int32, bytes | .uint32, bytes | .enum, bytes => parseUint32 bytes
  | .sint32, bytes => unzigzag32 (parseUint32 bytes)
  | .sfixed32, bytes | .fixed32, bytes | .float, bytes => parseFixedUint32 bytes
  | .int64, bytes | .uint64, bytes => parseUint64 bytes
  | .sint64, bytes => unzigzag64 (parseUint64 bytes)
  | .sfixed64, bytes | .fixed64, bytes | .double, bytes => parseFixedUint64 bytes
  | .bool, bytes => parseBoolean bytes

/-- Every type but `bool` is read from its own wire type only. -/
def ScalarType.accepts (t : ScalarType) (wireType : UInt8) : Bool := t = .bool || wireType = t.wireType

variable {δ : Type} {μ : δ → Type}

/-- `parse_required_member` without the member that is there before. -/
def parseElement {fields : Nat} (subUnpack : (d : δ) → Nat → List UInt8 → Run (Option (μ d)))
    (s : ScannedMember fields) : (t : FieldType δ) → Run (Option (t.Element μ))
  | .scalar t =>
    if t.accepts s.wireType then do
      let bytes ← slice s.data (toUnsigned s.len)
      .ok (some (parseScalar t bytes))
    else .ok none
  | .string =>
    if s.wireType = wireTypeLengthPrefixed then do
      let bytes ← slice (s.data.drop s.lengthPrefixLen) (toUnsigned (toUnsigned s.len - s.lengthPrefixLen))
      .ok (some (CString.ofArray bytes))
    else .ok none
  | .bytes =>
    if s.wireType = wireTypeLengthPrefixed then do
      let bytes ← slice (s.data.drop s.lengthPrefixLen) (toUnsigned (toUnsigned s.len - s.lengthPrefixLen))
      .ok (some bytes)
    else .ok none
  | .message d =>
    if s.wireType = wireTypeLengthPrefixed then
      subUnpack d (toUnsigned (toUnsigned s.len - s.lengthPrefixLen)) (s.data.drop s.lengthPrefixLen)
    else .ok none

/-- A member that is set again: messages are merged. -/
def FieldType.replace (merge : (d : δ) → μ d → μ d → μ d) :
    (t : FieldType δ) → t.Required μ → t.Element μ → t.Required μ
  | scalar _, _, v => v
  | string, _, s => some s
  | bytes, _, b => b
  | message d, before, m => some (before.elim m fun before => merge d before m)

/-- `parse_optional_member`, which sets the `has_` member. -/
def FieldType.set (merge : (d : δ) → μ d → μ d → μ d) :
    (t : FieldType δ) → t.Optional μ → t.Element μ → t.Optional μ
  | scalar _, _, v => (true, v)
  | string, _, s => some s
  | bytes, _, b => (true, b)
  | message d, before, m => some (before.elim m fun before => merge d before m)

/-- The values of a packed field, each behind the last, while there is room for them. -/
def parseNumbers {α : Type} (parse : List UInt8 → α) : Nat → Nat → Nat → List UInt8 → Run (Option (List α))
  | 0, _, _, _ => .error .endless
  | fuel + 1, room, rem, data =>
    if rem > 0 then do
      let most := if toUnsigned rem > 10 then 10 else toUnsigned rem
      let i ← scanTerminator data most 0
      if i = most then .ok none
      else do
        require (0 < room) .outOfBounds
        let bytes ← slice data (i + 1)
        let some values ← parseNumbers parse fuel (room - 1) (rem - (i + 1)) (data.drop (i + 1)) | .ok none
        .ok (some (parse bytes :: values))
    else .ok (some [])

/-- `memcpy` of `count` values of `size` bytes. -/
def copyFixed {α : Type} (parse : List UInt8 → α) (size : Nat) (room count : Nat) (data : List UInt8) :
    Run (Option (List α)) := do
  let bytes ← slice data (count * size)
  require (count ≤ room) .outOfBounds
  .ok (some ((List.range count).map fun i => parse (bytes.drop (i * size))))

/-- The switch of `parse_packed_repeated_member`, with room for `room` values. -/
def parsePackedScalars (room rem : Nat) (data : List UInt8) : (t : ScalarType) → Run (Option (List t.Value))
  | .sfixed32 => copyFixed (parseScalar .sfixed32) 4 room (rem / 4) data
  | .fixed32 => copyFixed (parseScalar .fixed32) 4 room (rem / 4) data
  | .float => copyFixed (parseScalar .float) 4 room (rem / 4) data
  | .sfixed64 => copyFixed (parseScalar .sfixed64) 8 room (rem / 8) data
  | .fixed64 => copyFixed (parseScalar .fixed64) 8 room (rem / 8) data
  | .double => copyFixed (parseScalar .double) 8 room (rem / 8) data
  | .int32 => parseNumbers (parseScalar .int32) (rem + 1) room rem data
  | .sint32 => parseNumbers (parseScalar .sint32) (rem + 1) room rem data
  | .enum => parseNumbers (parseScalar .enum) (rem + 1) room rem data
  | .uint32 => parseNumbers (parseScalar .uint32) (rem + 1) room rem data
  | .sint64 => parseNumbers (parseScalar .sint64) (rem + 1) room rem data
  | .int64 => parseNumbers (parseScalar .int64) (rem + 1) room rem data
  | .uint64 => parseNumbers (parseScalar .uint64) (rem + 1) room rem data
  | .bool => do
    let bytes ← slice data rem
    if bytes.any (· > 1) then .ok none
    else do
      require (bytes.length ≤ room) .outOfBounds
      .ok (some (bytes.map fun b => decide (b ≠ 0)))

def parsePackedRepeatedMember {fields : Nat} (s : ScannedMember fields) (room : Nat) :
    (t : FieldType δ) → Run (Option (List (t.Element μ)))
  | .scalar t =>
    parsePackedScalars room (toSize (s.len - s.lengthPrefixLen)) (s.data.drop s.lengthPrefixLen) t
  | .string | .bytes | .message _ => .error .assertion

section Member
variable {d : MessageDescriptor δ} (subUnpack : (d : δ) → Nat → List UInt8 → Run (Option (μ d)))
  (merge : (d : δ) → μ d → μ d → μ d) (s : ScannedMember d.nFields)

/-- The part of `parse_member` for a field, whose array has `capacity` places. -/
def parseField (f : FieldDescriptor δ) (capacity : Nat) (member : f.type.Member μ f.label) :
    Run (Option (f.type.Member μ f.label)) :=
  match f.label, member with
  | .required, member => do
    let some element ← parseElement subUnpack s f.type | .ok none
    .ok (some (f.type.replace merge member element))
  | .optional, member => do
    let some element ← parseElement subUnpack s f.type | .ok none
    .ok (some (f.type.set merge member element))
  | .repeated, (array : List (f.type.Element μ)) =>
    if readPacked f s.wireType then do
      let some values ← parsePackedRepeatedMember (μ := μ) s (capacity - array.length) f.type | .ok none
      .ok (some (array ++ values))
    else do
      let some element ← parseElement subUnpack s f.type | .ok none
      require (array.length < capacity) .outOfBounds
      .ok (some (array ++ [element]))

/-- `parse_member`. -/
def parseMember (capacities : Fin d.nFields → Nat) (message : Record μ d) : Run (Option (Record μ d)) :=
  match s.field with
  | none => do
    let data ← slice s.data s.len
    .ok (some { message with unknown := message.unknown ++ [⟨s.tag, s.wireType, data⟩] })
  | some i => do
    let some member ← parseField subUnpack merge s (d.field i) (capacities i) (message.member i) | .ok none
    .ok (some { message with member := Function.update message.member i member })

def parseMembers (capacities : Fin d.nFields → Nat) :
    List (ScannedMember d.nFields) → Record μ d → Run (Option (Record μ d))
  | [], message => .ok (some message)
  | s :: members, message => do
    let some message ← parseMember subUnpack merge s capacities message | .ok none
    parseMembers capacities members message

end Member

/-- `merge_messages` for one field of two messages that were unpacked, the earlier one
first. Data of no bytes is a null pointer. -/
def mergeMember (merge : (d : δ) → μ d → μ d → μ d) :
    (t : FieldType δ) → (label : Label) → t.Member μ label → t.Member μ label → t.Member μ label
  | _, .repeated, (earlier : List _), (latter : List _) => earlier ++ latter
  | _, .required, _, latter => latter
  | .scalar _, .optional, earlier, latter => if earlier.1 ∧ ¬ latter.1 then earlier else latter
  | .bytes, .optional, earlier, latter => if earlier.2 ≠ [] ∧ latter.2 = [] then earlier else latter
  | .string, .optional, earlier, latter => latter.or earlier
  | .message d, .optional, some earlier, some latter => some (merge d earlier latter)
  | .message _, .optional, some earlier, none => some earlier
  | .message _, .optional, none, latter => latter

def recordMerge (merge : (d : δ) → μ d → μ d → μ d) (d : MessageDescriptor δ) (earlier latter : Record μ d) :
    Record μ d where
  member i := mergeMember merge (d.field i).type (d.field i).label (earlier.member i) (latter.member i)
  unknown := latter.unknown

/-- The arrays have as many places as the counts, as `unsigned`. -/
def recordUnpack (subUnpack : (d : δ) → Nat → List UInt8 → Run (Option (μ d)))
    (merge : (d : δ) → μ d → μ d → μ d) (d : MessageDescriptor δ) (len : Nat) (data : List UInt8) :
    Run (Option (Record μ d)) := do
  let some scan ← scanMembers d len data | .ok none
  if requiredSeen d scan.seen then
    parseMembers subUnpack merge (fun i => toUnsigned (scan.counts i)) scan.members (messageInit d)
  else .ok none

end Parse

/-- `merge_messages`. -/
def mergeMessages : (n : Nat) → (d : Descriptor n) → Message n d → Message n d → Message n d
  | 0, d, _, _ => nomatch d
  | n + 1, d, earlier, latter => recordMerge (mergeMessages n) d earlier latter

/-- `protobuf_c_message_unpack`. -/
def messageUnpack : (n : Nat) → (d : Descriptor n) → Nat → List UInt8 → Run (Option (Message n d))
  | 0, d, _, _ => nomatch d
  | n + 1, d, len, data => recordUnpack (messageUnpack n) (mergeMessages n) d len data

end ProtobufC

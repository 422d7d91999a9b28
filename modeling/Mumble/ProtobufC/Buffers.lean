import Mumble.ProtobufC.RoundTrip

/-! Messages packed through calls of a buffer, piece by piece, instead of into an array
that is large enough. The buffer gets the same bytes. -/
namespace ProtobufC
open CExec

section Simple

/-- `ProtobufCBufferSimple`, `data` being the bytes that are stored. -/
structure BufferSimple where
  alloced : Nat
  data : List UInt8
  positive : 0 < alloced
  fits : data.length ≤ alloced

/-- The loop that doubles the size. -/
def doubled (newLen : Nat) : Nat → Nat → Nat
  | 0, newAlloced => newAlloced
  | fuel + 1, newAlloced =>
    if newAlloced < newLen then doubled newLen fuel (newAlloced + newAlloced) else newAlloced

theorem le_doubled {newLen fuel newAlloced : Nat} (positive : 0 < newAlloced) (enough : newLen ≤ newAlloced + fuel) :
    newLen ≤ doubled newLen fuel newAlloced := by
  induction fuel generalizing newAlloced with
  | zero => exact enough
  | succ fuel ih =>
    rw [doubled]
    split_ifs with short
    · exact ih (by omega) (by omega)
    · exact Nat.not_lt.mp short

/-- `protobuf_c_buffer_simple_append`, with the answers of the allocator. What there is
no memory for is dropped. -/
def bufferSimpleAppend (alloc : Nat → Bool) (buffer : BufferSimple) (bytes : List UInt8) : BufferSimple :=
  let newLen := buffer.data.length + bytes.length
  if more : newLen > buffer.alloced then
    let newAlloced := doubled newLen newLen (buffer.alloced * 2)
    have enough : newLen ≤ newAlloced :=
      le_doubled (Nat.mul_pos buffer.positive (Nat.succ_pos 1)) (Nat.le_add_left _ _)
    if alloc newAlloced then
      { alloced := newAlloced
        data := buffer.data ++ bytes
        positive := Nat.lt_of_lt_of_le (Nat.lt_of_le_of_lt (Nat.zero_le _) more) enough
        fits := List.length_append ▸ enough }
    else buffer
  else
    { buffer with
      data := buffer.data ++ bytes
      fits := List.length_append ▸ Nat.not_lt.mp more }

/-- `PROTOBUF_C_BUFFER_SIMPLE_INIT` with an array of some bytes. -/
def bufferSimpleInit (size : Nat) (positive : 0 < size) : BufferSimple := ⟨size, [], positive, Nat.zero_le size⟩

theorem bufferSimpleAppend_data {alloc : Nat → Bool} (memory : ∀ size, alloc size = true) (buffer : BufferSimple)
    (bytes : List UInt8) : (bufferSimpleAppend alloc buffer bytes).data = buffer.data ++ bytes := by
  simp only [bufferSimpleAppend, memory, if_true]
  split_ifs <;> rfl

end Simple

section Pack
variable {β : Type}

/-- One packing after another. -/
def andThen (first : Run (Nat × β)) (second : β → Run (Nat × β)) : Run (Nat × β) := do
  let front ← first
  let back ← second front.2
  .ok (front.1 + back.1, back.2)

/-- The loops over arrays and fields. -/
def packEach {α : Type} (pack : α → β → Run (Nat × β)) : List α → β → Run (Nat × β)
  | [], buffer => .ok (0, buffer)
  | a :: array, buffer => andThen (pack a buffer) (packEach pack array)

variable {δ : Type} {μ : δ → Type} (subPack : (d : δ) → μ d → BufferSimple → Run (Nat × BufferSimple))
  (append : β → List UInt8 → β)

/-- A length, and as much of the data. -/
def prefixedPackToBuffer (id : UInt32) (sublen : Nat) (data : List UInt8) (buffer : β) : Run (Nat × β) := do
  let scratch := wireTagPack id wireTypeLengthPrefixed ++ uint32Pack (.ofNat sublen)
  let data ← slice data sublen
  .ok (scratch.length + sublen, append (append buffer scratch) data)

/-- `required_field_pack_to_buffer`. A message is packed to a buffer of its own first. -/
def requiredPackToBuffer (id : UInt32) : (t : FieldType δ) → t.Required μ → β → Run (Nat × β)
  | .scalar t, v, buffer =>
    let scratch := wireTagPack id t.wireType ++ scalarPack t v
    .ok (scratch.length, append buffer scratch)
  | .string, s, buffer =>
    let str := (s : Option CString).elim [] CString.bytes
    prefixedPackToBuffer append id str.length str buffer
  | .bytes, (b : List UInt8), buffer => prefixedPackToBuffer append id b.length b buffer
  | .message _, none, buffer => prefixedPackToBuffer append id 0 [] buffer
  | .message d, some m, buffer => do
    let (sublen, simple) ← subPack d m (bufferSimpleInit 256 (by decide))
    prefixedPackToBuffer append id sublen simple.data buffer

def requiredFieldPackToBuffer (f : FieldDescriptor δ) (member : f.type.Required μ) (buffer : β) : Run (Nat × β) :=
  requiredPackToBuffer subPack append f.id f.type member buffer

def optionalFieldPackToBuffer (f : FieldDescriptor δ) (member : f.type.Optional μ) (buffer : β) : Run (Nat × β) :=
  match f.type.present member with
  | some member => requiredFieldPackToBuffer subPack append f member buffer
  | none => .ok (0, buffer)

/-- The sum is an `unsigned`. -/
def getPackedPayloadLength : (t : FieldType δ) → List (t.Element μ) → Run Nat
  | .scalar t, (array : List t.Value) => .ok (toUnsigned (array.map (scalarSize t)).sum)
  | .string, _ | .bytes, _ | .message _, _ => .error .assertion

/-- Numbers of a fixed size are taken as they are in memory. -/
def packBufferPackedPayload : (t : FieldType δ) → List (t.Element μ) → β → Run (Nat × β)
  | .scalar t, (array : List t.Value), buffer =>
    if t.wireType = wireTypeVarint then
      packEach (fun v buffer => .ok ((scalarPack t v).length, append buffer (scalarPack t v))) array buffer
    else do
      let rv := toUnsigned (array.length * t.minSize : Nat)
      let data ← slice (array.flatMap (scalarPack t)) rv
      .ok (rv, append buffer data)
  | .string, _, _ | .bytes, _, _ | .message _, _, _ => .error .assertion

/-- An array of as many elements as are counted. Without packing the sum is an `unsigned`. -/
def packArrayToBuffer (f : FieldDescriptor δ) (array : List (f.type.Element μ)) (buffer : β) : Run (Nat × β) :=
  if array.length = 0 then .ok (0, buffer)
  else if f.packed then do
    let payloadLen ← getPackedPayloadLength f.type array
    let scratch := wireTagPack f.id wireTypeLengthPrefixed ++ uint32Pack (.ofNat payloadLen)
    let (tmp, buffer) ← packBufferPackedPayload append f.type array (append buffer scratch)
    require (tmp = payloadLen) .assertion
    .ok (scratch.length + payloadLen, buffer)
  else do
    let (rv, buffer) ← packEach (fun a => requiredFieldPackToBuffer subPack append f (f.type.required a)) array buffer
    .ok (toUnsigned rv, buffer)

/-- The number of elements is taken as an `unsigned`. -/
def repeatedFieldPackToBuffer (f : FieldDescriptor δ) (array : List (f.type.Element μ)) (buffer : β) :
    Run (Nat × β) :=
  packArrayToBuffer subPack append f (array.take (toUnsigned array.length)) buffer

def unknownFieldPackToBuffer (field : UnknownField) (buffer : β) : Run (Nat × β) :=
  let header := wireTagPack field.tag field.wireType
  .ok (header.length + field.data.length, append (append buffer header) field.data)

def fieldPackToBuffer (f : FieldDescriptor δ) (member : f.type.Member μ f.label) (buffer : β) : Run (Nat × β) :=
  match f.label, member with
  | .required, member => requiredFieldPackToBuffer subPack append f member buffer
  | .optional, member => optionalFieldPackToBuffer subPack append f member buffer
  | .repeated, array => repeatedFieldPackToBuffer subPack append f array buffer

def recordPackToBuffer (d : MessageDescriptor δ) (message : Record μ d) (buffer : β) : Run (Nat × β) :=
  andThen
    (packEach (fun i => fieldPackToBuffer subPack append (d.field i) (message.member i)) (List.finRange d.nFields)
      buffer)
    (packEach (unknownFieldPackToBuffer append) message.unknown)

end Pack

/-- `protobuf_c_message_pack_to_buffer`, with what the allocator of the buffers inside
answers. -/
def messagePackToBuffer (alloc : Nat → Bool) : (n : Nat) → {β : Type} → (β → List UInt8 → β) → (d : Descriptor n) →
    Message n d → β → Run (Nat × β)
  | 0, _, _, d, _, _ => nomatch d
  | n + 1, _, append, d, message, buffer =>
    recordPackToBuffer (messagePackToBuffer alloc n (bufferSimpleAppend alloc)) append d message buffer

section Sizes
open Base128

theorem getTagSize_pos (id : UInt32) : 0 < getTagSize id := by
  unfold getTagSize
  split_ifs <;> omega

theorem scalarPack_pos (t : ScalarType) (v : t.Value) : 0 < (scalarPack t v).length := by
  cases t
  case sfixed32 | fixed32 | float | sfixed64 | fixed64 | double | bool => exact Nat.succ_pos _
  all_goals
    rw [scalarPack_varint rfl]
    exact encode_length_pos _

theorem scalars_length (t : ScalarType) (array : List t.Value) :
    (array.flatMap (scalarPack t)).length = (array.map (scalarSize t)).sum := by
  rw [List.length_flatMap]
  simp only [scalarPack_length]

theorem fixed_length {t : ScalarType} (fixed : t.wireType ≠ wireTypeVarint) (array : List t.Value) :
    (array.flatMap (scalarPack t)).length = array.length * t.minSize := by
  have each (v : t.Value) : (scalarPack t v).length = t.minSize := by
    cases t
    case sfixed32 | fixed32 | float | sfixed64 | fixed64 | double => rfl
    all_goals exact absurd rfl fixed
  rw [List.length_flatMap]
  simp [each]

/-- There are no more elements than bytes. -/
theorem length_le_flatMap {α : Type} {bytes : α → List UInt8} {array : List α}
    (some : ∀ a ∈ array, 0 < (bytes a).length) : array.length ≤ (array.flatMap bytes).length := by
  induction array with
  | nil => simp
  | cons a array ih =>
    have here := some a List.mem_cons_self
    have rest := ih fun a member => some a (List.mem_cons_of_mem _ member)
    rw [List.flatMap_cons, List.length_append, List.length_cons]
    omega

end Sizes

section Wrote
variable {β : Type} {contents : β → List UInt8} {append : β → List UInt8 → β}

/-- A packing that has added these bytes, and counted them. -/
def Wrote (contents : β → List UInt8) (bytes : List UInt8) (buffer : β) (result : Run (Nat × β)) : Prop :=
  ∃ after, result = .ok (bytes.length, after) ∧ contents after = contents buffer ++ bytes

theorem wrote_nothing (buffer : β) : Wrote contents [] buffer (.ok (0, buffer)) :=
  ⟨buffer, rfl, (List.append_nil _).symm⟩

theorem andThen_wrote {front back : List UInt8} {buffer : β} {first : Run (Nat × β)} {second : β → Run (Nat × β)}
    (begun : Wrote contents front buffer first) (ended : ∀ after, Wrote contents back after (second after)) :
    Wrote contents (front ++ back) buffer (andThen first second) := by
  obtain ⟨middle, rfl, at_middle⟩ := begun
  obtain ⟨last, run, at_last⟩ := ended middle
  refine ⟨last, ?_, ?_⟩
  · rw [andThen, ok_bind]
    dsimp only
    rw [run, ok_bind, List.length_append]
  · rw [at_last, at_middle, List.append_assoc]

theorem packEach_wrote {α : Type} {pack : α → β → Run (Nat × β)} {bytes : α → List UInt8} {array : List α}
    (each : ∀ a ∈ array, ∀ buffer, Wrote contents (bytes a) buffer (pack a buffer)) (buffer : β) :
    Wrote contents (array.flatMap bytes) buffer (packEach pack array buffer) := by
  induction array generalizing buffer with
  | nil => exact wrote_nothing buffer
  | cons a array ih =>
    rw [List.flatMap_cons, packEach]
    apply andThen_wrote (each a List.mem_cons_self buffer)
    exact ih fun a member => each a (List.mem_cons_of_mem _ member)

variable (collects : ∀ buffer bytes, contents (append buffer bytes) = contents buffer ++ bytes)
include collects

theorem wrote_once (bytes : List UInt8) (buffer : β) :
    Wrote contents bytes buffer (.ok (bytes.length, append buffer bytes)) :=
  ⟨append buffer bytes, rfl, collects buffer bytes⟩

theorem prefixedPackToBuffer_wrote (id : UInt32) (data : List UInt8) (buffer : β) :
    Wrote contents (wireTagPack id wireTypeLengthPrefixed ++ prefixedPack data) buffer
      (prefixedPackToBuffer append id data.length data buffer) := by
  refine ⟨append (append buffer (wireTagPack id wireTypeLengthPrefixed ++ uint32Pack (.ofNat data.length))) data,
    ?_, ?_⟩
  · rw [prefixedPackToBuffer, slice_of_le (Nat.le_refl _), ok_bind, List.take_length, prefixedPack]
    simp only [List.length_append, Nat.add_assoc]
  · rw [collects, collects, prefixedPack]
    simp only [List.append_assoc]

theorem packBufferPackedPayload_wrote {δ : Type} {μ : δ → Type} {t : ScalarType} (array : List t.Value)
    (fits : (array.flatMap (scalarPack t)).length < 2 ^ 32) (buffer : β) :
    Wrote contents (array.flatMap (scalarPack t)) buffer
      (packBufferPackedPayload (μ := μ) append (.scalar t : FieldType δ) array buffer) := by
  rw [packBufferPackedPayload]
  split_ifs with varint
  · exact packEach_wrote (fun v _ => wrote_once collects (scalarPack t v)) buffer
  · have length := fixed_length varint array
    have size : toUnsigned (array.length * t.minSize : Nat) = (array.flatMap (scalarPack t)).length := by
      rw [toUnsigned_natCast, ← length, Nat.mod_eq_of_lt fits]
    rw [size]
    dsimp only
    rw [slice_of_le (Nat.le_refl _), ok_bind, List.take_length]
    exact wrote_once collects _ buffer

variable {δ : Type} {μ : δ → Type} {subPack : (d : δ) → μ d → BufferSimple → Run (Nat × BufferSimple)}
  {subBytes : (d : δ) → μ d → List UInt8}
  (sub : ∀ d m, (subBytes d m).length < 2 ^ 32 → ∀ buffer,
    Wrote BufferSimple.data (subBytes d m) buffer (subPack d m buffer))
include sub

theorem requiredFieldPackToBuffer_wrote (f : FieldDescriptor δ) (member : f.type.Required μ)
    (fits : (requiredFieldPack subBytes f member).length < 2 ^ 32) (buffer : β) :
    Wrote contents (requiredFieldPack subBytes f member) buffer
      (requiredFieldPackToBuffer subPack append f member buffer) := by
  obtain ⟨id, label, type, value, packed, numbered, packable⟩ := f
  cases type with
  | scalar t => exact wrote_once collects _ buffer
  | string =>
    cases member with
    | none => exact prefixedPackToBuffer_wrote collects id [] buffer
    | some s => exact prefixedPackToBuffer_wrote collects id s.bytes buffer
  | bytes => exact prefixedPackToBuffer_wrote collects id member buffer
  | message d =>
    cases member with
    | none => exact prefixedPackToBuffer_wrote collects id [] buffer
    | some m =>
      have short : (subBytes d m).length < 2 ^ 32 := by
        have whole : (wireTagPack id wireTypeLengthPrefixed ++ prefixedPack (subBytes d m)).length < 2 ^ 32 := fits
        rw [prefixedPack, List.length_append, List.length_append] at whole
        omega
      obtain ⟨simple, run, stored⟩ := sub d m short (bufferSimpleInit 256 (by decide))
      have stored : simple.data = subBytes d m := stored
      have packs := prefixedPackToBuffer_wrote collects id (subBytes d m) buffer
      change Wrote contents _ buffer (subPack d m (bufferSimpleInit 256 (by decide)) >>= fun packed =>
        prefixedPackToBuffer append id packed.1 packed.2.data buffer)
      rw [run, ok_bind]
      dsimp only
      rw [stored]
      exact packs

theorem optionalFieldPackToBuffer_wrote (f : FieldDescriptor δ) (member : f.type.Optional μ)
    (fits : (optionalFieldPack subBytes f member).length < 2 ^ 32) (buffer : β) :
    Wrote contents (optionalFieldPack subBytes f member) buffer
      (optionalFieldPackToBuffer subPack append f member buffer) := by
  unfold optionalFieldPack at fits ⊢
  unfold optionalFieldPackToBuffer
  generalize f.type.present member = present at fits ⊢
  cases present with
  | none => exact wrote_nothing buffer
  | some member => exact requiredFieldPackToBuffer_wrote collects sub f member fits buffer

omit collects sub in
theorem repeatedFieldPackToBuffer_all (f : FieldDescriptor δ) {array : List (f.type.Element μ)}
    (few : array.length < 2 ^ 32) (buffer : β) :
    repeatedFieldPackToBuffer subPack append f array buffer = packArrayToBuffer subPack append f array buffer := by
  rw [repeatedFieldPackToBuffer, toUnsigned_natCast, Nat.mod_eq_of_lt few, List.take_length]

section Arrays
variable {id : UInt32} {numbered : id.toNat < 2 ^ 29}

/-- An array whose elements are packed one by one. -/
theorem repeatedPackToBuffer_wrote {t : FieldType δ} {value : t.Default}
    {packable : false = true → t.isPackable = true} (array : List (t.Element μ))
    (fits : (repeatedFieldPack subBytes ⟨id, .repeated, t, value, false, numbered, packable⟩ array).length < 2 ^ 32)
    (buffer : β) :
    Wrote contents (repeatedFieldPack subBytes ⟨id, .repeated, t, value, false, numbered, packable⟩ array) buffer
      (repeatedFieldPackToBuffer subPack append ⟨id, .repeated, t, value, false, numbered, packable⟩ array
        buffer) := by
  let f : FieldDescriptor δ := ⟨id, .repeated, t, value, false, numbered, packable⟩
  let bytes (a : t.Element μ) : List UInt8 := requiredFieldPack subBytes f (t.required a)
  have fits : (array.flatMap bytes).length < 2 ^ 32 := fits
  have few : array.length ≤ (array.flatMap bytes).length := by
    apply length_le_flatMap
    intro a _
    have tag := getTagSize_pos id
    change 0 < (wireTagPack id t.wireType ++ _).length
    rw [List.length_append, wireTagPack_length]
    omega
  have all : repeatedFieldPackToBuffer subPack append f array buffer =
      packArrayToBuffer subPack append f array buffer := repeatedFieldPackToBuffer_all f (Nat.lt_of_le_of_lt few fits) buffer
  have each : ∀ a ∈ array, ∀ buffer, Wrote contents (bytes a) buffer
      (requiredFieldPackToBuffer subPack append f (t.required a) buffer) := by
    intro a member buffer
    have part : (bytes a).length ≤ (array.flatMap bytes).length := part_length_le member
    exact requiredFieldPackToBuffer_wrote collects sub f _ (Nat.lt_of_le_of_lt part fits) buffer
  obtain ⟨after, run, stored⟩ := packEach_wrote each buffer
  by_cases empty : array.length = 0
  · obtain rfl := List.length_eq_zero_iff.mp empty
    exact wrote_nothing buffer
  · refine ⟨after, all.trans ((if_neg empty).trans ((if_neg Bool.false_ne_true).trans ?_)), stored⟩
    change (packEach (fun a => requiredFieldPackToBuffer subPack append f (t.required a)) array buffer >>=
      fun packed => .ok (toUnsigned packed.1, packed.2)) = _
    rw [run, ok_bind]
    dsimp only
    rw [toUnsigned_natCast, Nat.mod_eq_of_lt fits]
    rfl

omit sub in
/-- An array that is packed behind one length. -/
theorem packedPackToBuffer_wrote {t : ScalarType} {value : (FieldType.scalar t : FieldType δ).Default}
    {packable : true = true → (FieldType.scalar t : FieldType δ).isPackable = true} (array : List t.Value)
    (fits : (repeatedFieldPack subBytes ⟨id, .repeated, .scalar t, value, true, numbered, packable⟩ array).length <
      2 ^ 32)
    (buffer : β) :
    Wrote contents (repeatedFieldPack subBytes ⟨id, .repeated, .scalar t, value, true, numbered, packable⟩ array)
      buffer (repeatedFieldPackToBuffer subPack append ⟨id, .repeated, .scalar t, value, true, numbered, packable⟩
        array buffer) := by
  by_cases empty : array.length = 0
  · obtain rfl := List.length_eq_zero_iff.mp empty
    exact wrote_nothing buffer
  · have packs : repeatedFieldPack subBytes
        (⟨id, .repeated, .scalar t, value, true, numbered, packable⟩ : FieldDescriptor δ) array =
          wireTagPack id wireTypeLengthPrefixed ++ prefixedPack (array.flatMap (scalarPack t)) := if_neg empty
    rw [packs] at fits ⊢
    have short : (array.flatMap (scalarPack t)).length < 2 ^ 32 := by
      rw [prefixedPack, List.length_append, List.length_append] at fits
      omega
    have few : array.length ≤ (array.flatMap (scalarPack t)).length :=
      length_le_flatMap fun v _ => scalarPack_pos t v
    have all : repeatedFieldPackToBuffer subPack append
        (⟨id, .repeated, .scalar t, value, true, numbered, packable⟩ : FieldDescriptor δ) array buffer =
          packArrayToBuffer subPack append ⟨id, .repeated, .scalar t, value, true, numbered, packable⟩ array buffer :=
      repeatedFieldPackToBuffer_all _ (Nat.lt_of_le_of_lt few short) buffer
    have size : toUnsigned (array.map (scalarSize t)).sum = (array.flatMap (scalarPack t)).length := by
      rw [toUnsigned_natCast, ← scalars_length, Nat.mod_eq_of_lt short]
    let payload := array.flatMap (scalarPack t)
    let front := wireTagPack id wireTypeLengthPrefixed ++ uint32Pack (.ofNat payload.length)
    obtain ⟨after, run, stored⟩ :=
      packBufferPackedPayload_wrote (δ := δ) (μ := μ) collects array short (append buffer front)
    refine ⟨after, all.trans ((if_neg empty).trans ((if_pos rfl).trans ?_)), ?_⟩
    · change (Except.ok (toUnsigned (array.map (scalarSize t)).sum) >>= fun payloadLen => _) = _
      rw [size, ok_bind]
      change (packBufferPackedPayload (μ := μ) append (.scalar t) array (append buffer front) >>= fun packed =>
        require (packed.1 = payload.length) .assertion >>= fun _ =>
          .ok (front.length + payload.length, packed.2)) = _
      rw [run, ok_bind, require_true rfl, ok_bind, prefixedPack]
      simp only [front, payload, List.length_append, Nat.add_assoc]
    · rw [stored, collects, prefixedPack]
      simp only [front, payload, List.append_assoc]

end Arrays

theorem fieldPackToBuffer_wrote (f : FieldDescriptor δ) (member : f.type.Member μ f.label)
    (fits : (fieldPack subBytes f member).length < 2 ^ 32) (buffer : β) :
    Wrote contents (fieldPack subBytes f member) buffer (fieldPackToBuffer subPack append f member buffer) := by
  obtain ⟨id, label, type, value, packed, numbered, packable⟩ := f
  cases label with
  | required => exact requiredFieldPackToBuffer_wrote collects sub _ member fits buffer
  | optional => exact optionalFieldPackToBuffer_wrote collects sub _ member fits buffer
  | repeated =>
    cases packed with
    | false => exact repeatedPackToBuffer_wrote collects sub member fits buffer
    | true =>
      cases type with
      | scalar t => exact packedPackToBuffer_wrote collects member fits buffer
      | string => cases packable rfl
      | bytes => cases packable rfl
      | message => cases packable rfl

omit sub in
theorem unknownFieldPackToBuffer_wrote (field : UnknownField) (buffer : β) :
    Wrote contents (unknownFieldPack field) buffer (unknownFieldPackToBuffer append field buffer) := by
  refine ⟨_, congrArg (fun size => Except.ok (size, _)) List.length_append.symm, ?_⟩
  rw [collects, collects, List.append_assoc]
  rfl

theorem recordPackToBuffer_wrote (d : MessageDescriptor δ) (message : Record μ d)
    (fits : (recordPack subBytes d message).length < 2 ^ 32) (buffer : β) :
    Wrote contents (recordPack subBytes d message) buffer (recordPackToBuffer subPack append d message buffer) := by
  rw [recordPack, List.length_append] at fits
  rw [recordPack, recordPackToBuffer]
  apply andThen_wrote
  · let bytes (i : Fin d.nFields) : List UInt8 := fieldPack subBytes (d.field i) (message.member i)
    have fits : ((List.finRange d.nFields).flatMap bytes).length < 2 ^ 32 :=
      Nat.lt_of_le_of_lt (Nat.le_add_right _ _) fits
    apply packEach_wrote
    intro i member buffer
    have part : (bytes i).length ≤ ((List.finRange d.nFields).flatMap bytes).length := part_length_le member
    exact fieldPackToBuffer_wrote collects sub _ _ (Nat.lt_of_le_of_lt part fits) buffer
  · exact packEach_wrote fun field _ buffer => unknownFieldPackToBuffer_wrote collects field buffer

end Wrote

theorem messagePackToBuffer_wrote {alloc : Nat → Bool} (memory : ∀ size, alloc size = true) (n : Nat) {β : Type}
    {contents : β → List UInt8} {append : β → List UInt8 → β}
    (collects : ∀ buffer bytes, contents (append buffer bytes) = contents buffer ++ bytes) (d : Descriptor n)
    (message : Message n d) (fits : (messagePack n d message).length < 2 ^ 32) (buffer : β) :
    Wrote contents (messagePack n d message) buffer (messagePackToBuffer alloc n append d message buffer) := by
  induction n generalizing β with
  | zero => exact nomatch d
  | succ n ih =>
    apply recordPackToBuffer_wrote collects _ d message fits buffer
    intro d inner small buffer
    exact ih (bufferSimpleAppend_data memory) d inner small buffer

/-- Whatever buffer a message is packed to, through calls that each add their bytes, it
gets the bytes that the message is packed to in an array, and as many are counted. -/
theorem pack_to_buffer_agrees {alloc : Nat → Bool} (memory : ∀ size, alloc size = true) (n : Nat) {β : Type}
    {contents : β → List UInt8} {append : β → List UInt8 → β}
    (collects : ∀ buffer bytes, contents (append buffer bytes) = contents buffer ++ bytes) (d : Descriptor n)
    (message : Message n d) (fits : messageGetPackedSize n d message < 2 ^ 32) (buffer : β) :
    ∃ after, messagePackToBuffer alloc n append d message buffer = .ok (messageGetPackedSize n d message, after) ∧
      contents after = contents buffer ++ messagePack n d message := by
  have length := messagePack_length n d message
  rw [← length] at fits ⊢
  exact messagePackToBuffer_wrote memory n collects d message fits buffer

/-- The list of one user, in a buffer that starts with four bytes. -/
theorem pack_to_buffer_agrees_sample : ∃ after,
    messagePackToBuffer (fun _ => true) 2 (bufferSimpleAppend fun _ => true) MumbleProto.userList oneUser
      (bufferSimpleInit 4 (by decide)) = .ok (messageGetPackedSize 2 MumbleProto.userList oneUser, after) ∧
    after.data = (bufferSimpleInit 4 (by decide)).data ++ messagePack 2 MumbleProto.userList oneUser :=
  pack_to_buffer_agrees (fun _ => rfl) 2 (bufferSimpleAppend_data fun _ => rfl) MumbleProto.userList oneUser
    (by decide) (bufferSimpleInit 4 (by decide))

end ProtobufC

import Mumble.ProtobufC.Records
import Mumble.ProtobufC.PackedSize
import Mumble.MumbleProto

/-! What is packed is unpacked again: every member that was set, in every message that
has no null pointer where a message must be. -/
namespace ProtobufC
open CExec Base128

section Sent
variable {δ : Type} {μ : δ → Type}

/-- A member as the other end has it. What is not set has its initial value, and a
required string that is null is empty. -/
def sentMember (sub : (d : δ) → μ d → μ d) :
    (t : FieldType δ) → t.Default → (label : Label) → t.Member μ label → t.Member μ label
  | .scalar _, _, .required, v => v
  | .string, _, .required, s => some (s.getD ⟨[], List.not_mem_nil⟩)
  | .bytes, _, .required, b => b
  | .message d, _, .required, m => m.map (sub d)
  | .scalar t, value, .optional, (has, v) => (has, if has then v else value.getD t.zero)
  | .string, _, .optional, s => s
  | .bytes, _, .optional, (has, b) => (has, if has then b else [])
  | .message d, _, .optional, m => m.map (sub d)
  | .scalar _, _, .repeated, array => array
  | .string, _, .repeated, array => array
  | .bytes, _, .repeated, array => array
  | .message d, _, .repeated, (array : List (μ d)) => array.map (sub d)

def sentRecord (sub : (d : δ) → μ d → μ d) (d : MessageDescriptor δ) (message : Record μ d) : Record μ d where
  member i := sentMember sub (d.field i).type (d.field i).defaultValue (d.field i).label (message.member i)
  unknown := message.unknown

/-- No required message is missing, and all messages inside are complete. -/
def completeMember (sub : (d : δ) → μ d → Prop) : (t : FieldType δ) → (label : Label) → t.Member μ label → Prop
  | .message d, .required, m => ∃ inner, m = some inner ∧ sub d inner
  | .message d, .optional, (m : Option (μ d)) => ∀ inner ∈ m, sub d inner
  | .message d, .repeated, (array : List (μ d)) => ∀ inner ∈ array, sub d inner
  | .scalar _, _, _ | .string, _, _ | .bytes, _, _ => True

/-- The members are complete, and what was not recognized is the data of other fields. -/
structure CompleteRecord (sub : (d : δ) → μ d → Prop) (d : MessageDescriptor δ) (message : Record μ d) : Prop where
  members : ∀ i, completeMember sub (d.field i).type (d.field i).label (message.member i)
  unknown : ∀ field ∈ message.unknown, fieldOf d field.tag = none ∧
    ∃ prefLen, Payload field.wireType field.data prefLen

end Sent

def sentMessage : (n : Nat) → (d : Descriptor n) → Message n d → Message n d
  | 0, d, _ => nomatch d
  | n + 1, d, message => sentRecord (sentMessage n) d message

def Complete : (n : Nat) → (d : Descriptor n) → Message n d → Prop
  | 0, d, _ => nomatch d
  | n + 1, d, message => CompleteRecord (Complete n) d message

/-- Messages of this size have no more members than there is room for in the slabs. -/
def packLimit : Nat := 2 * slabsSize

section Numbers
variable {α : Type} {code : α → List UInt8} {parse : List UInt8 → α}

/-- Packed varints are read one after the other. -/
theorem parseNumbers_flatMap (whole : ∀ a, Whole (code a)) (short : ∀ a, (code a).length ≤ 10)
    (inverse : ∀ a, parse (code a) = a) (values : List α) {fuel room : Nat}
    (enough : (values.flatMap code).length < fuel) (small : (values.flatMap code).length < 2 ^ 32)
    (fits : values.length ≤ room) (rest : List UInt8) :
    parseNumbers parse fuel room (values.flatMap code).length (values.flatMap code ++ rest) =
      .ok (some values) := by
  induction values generalizing fuel room with
  | nil =>
    obtain ⟨fuel, rfl⟩ : ∃ more, fuel = more + 1 := ⟨fuel - 1, by simp at enough; omega⟩
    rfl
  | cons a values ih =>
    obtain ⟨fuel, rfl⟩ : ∃ more, fuel = more + 1 := ⟨fuel - 1, by omega⟩
    have some := (whole a).length_pos
    have ten := short a
    rw [List.flatMap_cons, List.length_append] at enough small ⊢
    rw [List.length_cons] at fits
    have unsigned : toUnsigned ((code a).length + (values.flatMap code).length : Nat) =
        (code a).length + (values.flatMap code).length := by
      rw [toUnsigned_natCast, Nat.mod_eq_of_lt small]
    have most : (if (code a).length + (values.flatMap code).length > 10 then 10
        else (code a).length + (values.flatMap code).length) =
          min 10 ((code a).length + (values.flatMap code).length) := by
      split_ifs <;> omega
    have found := wholeLength_append (whole a)
      (show (code a).length ≤ min 10 ((code a).length + (values.flatMap code).length) by omega)
      (values.flatMap code ++ rest)
    have scanned : scanTerminator (code a ++ (values.flatMap code ++ rest))
        (min 10 ((code a).length + (values.flatMap code).length)) 0 = _ :=
      scanTerminator_eq (by rw [List.drop_zero, List.length_append, List.length_append]; omega)
    rw [List.drop_zero, found, Option.elim_some, Nat.zero_add] at scanned
    have tail := ih (show (values.flatMap code).length < fuel by omega) (by omega)
      (show values.length ≤ room - 1 by omega)
    rw [List.append_assoc, parseNumbers, if_pos (by omega)]
    dsimp only
    rw [unsigned, most, scanned, ok_bind, if_neg (by omega), require_true (by omega), ok_bind,
      Nat.sub_add_cancel some, slice_length_append, ok_bind, List.drop_left, Nat.add_sub_cancel_left, tail, ok_bind]
    dsimp only
    rw [inverse]

theorem length_flatMap_fixed (code : α → List UInt8) (size : Nat) (length : ∀ a, (code a).length = size)
    (values : List α) :
    (values.flatMap code).length = values.length * size := by
  rw [List.length_flatMap]
  simp [length]

/-- Values of one size are copied. -/
theorem copyFixed_flatMap {size : Nat} (length : ∀ a, (code a).length = size)
    (inverse : ∀ a rest, parse (code a ++ rest) = a) (values : List α) {room : Nat}
    (fits : values.length ≤ room) (rest : List UInt8) :
    copyFixed parse size room values.length (values.flatMap code ++ rest) = .ok (some values) := by
  have total := length_flatMap_fixed code size length values
  have taken : (values.flatMap code ++ rest).take (values.length * size) = values.flatMap code := by
    rw [← total, List.take_left]
  have read (back : List UInt8) : ((List.range values.length).map fun i =>
      parse ((values.flatMap code ++ back).drop (i * size))) = values := by
    clear total taken fits
    induction values with
    | nil => rfl
    | cons a values ih =>
      have next (i : Nat) : (code a ++ (values.flatMap code ++ back)).drop ((i + 1) * size) =
          (values.flatMap code ++ back).drop (i * size) := by
        rw [Nat.succ_mul, Nat.add_comm, ← length a, List.drop_length_add_append]
      simp only [List.length_cons, List.range_succ_eq_map, List.map_cons, List.map_map, Function.comp_def,
        Nat.zero_mul, List.drop_zero, List.flatMap_cons, List.append_assoc, inverse, Nat.succ_eq_add_one, next, ih]
  have whole := read []
  rw [List.append_nil] at whole
  rw [copyFixed, slice_of_le (by rw [List.length_append, total]; omega), taken, ok_bind,
    require_true fits, ok_bind, whole]

theorem parsePackedBooleans (values : List Bool) {room : Nat} (fits : values.length ≤ room) (rest : List UInt8) :
    parsePackedScalars room (values.flatMap booleanPack).length (values.flatMap booleanPack ++ rest) .bool =
      .ok (some values) := by
  have bytes : values.flatMap booleanPack = values.map fun v => if v then 1 else 0 := List.flatMap_pure_eq_map _ _
  have back : (values.map fun v => if v then (1 : UInt8) else 0).map (fun b => decide (b ≠ 0)) = values := by
    rw [List.map_map]
    apply List.map_id''
    intro v
    cases v <;> rfl
  rw [parsePackedScalars, slice_length_append, ok_bind, bytes, if_neg (by simp), List.length_map,
    require_true fits, ok_bind]
  exact congrArg (Except.ok ∘ some) back

theorem parsePackedScalars_flatMap (t : ScalarType) (values : List t.Value) {room : Nat}
    (small : (values.flatMap (scalarPack t)).length < 2 ^ 32) (fits : values.length ≤ room) (rest : List UInt8) :
    parsePackedScalars room (values.flatMap (scalarPack t)).length (values.flatMap (scalarPack t) ++ rest) t =
      .ok (some values) := by
  have numbers (t : ScalarType) (varint : t.wireType = wireTypeVarint) (values : List t.Value)
      (small : (values.flatMap (scalarPack t)).length < 2 ^ 32) (fits : values.length ≤ room) :
      parseNumbers (parseScalar t) ((values.flatMap (scalarPack t)).length + 1) room
        (values.flatMap (scalarPack t)).length (values.flatMap (scalarPack t) ++ rest) = .ok (some values) := by
    apply parseNumbers_flatMap _ _ (parseScalar_scalarPack t) values (Nat.lt_succ_self _) small fits
    · intro v
      rw [scalarPack_varint varint]
      exact encode_whole _
    · intro v
      rw [scalarPack_varint varint]
      exact encode_short (t.extended_lt v)
  have fixed (t : ScalarType) (size : Nat) (positive : 0 < size) (length : ∀ v, (scalarPack t v).length = size)
      (inverse : ∀ v rest, parseScalar t (scalarPack t v ++ rest) = v) (values : List t.Value)
      (fits : values.length ≤ room) :
      copyFixed (parseScalar t) size room ((values.flatMap (scalarPack t)).length / size)
        (values.flatMap (scalarPack t) ++ rest) = .ok (some values) := by
    have total : (values.flatMap (scalarPack t)).length / size = values.length := by
      rw [length_flatMap_fixed _ size length]
      exact Nat.mul_div_cancel _ positive
    rw [total]
    exact copyFixed_flatMap length inverse values fits rest
  cases t
  case int32 | sint32 | int64 | sint64 | uint32 | uint64 | enum => exact numbers _ rfl values small fits
  case sfixed32 => exact fixed .sfixed32 4 (by decide) (fun _ => rfl) parseFixedUint32_fixed32Pack values fits
  case fixed32 => exact fixed .fixed32 4 (by decide) (fun _ => rfl) parseFixedUint32_fixed32Pack values fits
  case float => exact fixed .float 4 (by decide) (fun _ => rfl) parseFixedUint32_fixed32Pack values fits
  case sfixed64 => exact fixed .sfixed64 8 (by decide) (fun _ => rfl) parseFixedUint64_fixed64Pack values fits
  case fixed64 => exact fixed .fixed64 8 (by decide) (fun _ => rfl) parseFixedUint64_fixed64Pack values fits
  case double => exact fixed .double 8 (by decide) (fun _ => rfl) parseFixedUint64_fixed64Pack values fits
  case bool => exact parsePackedBooleans values fits rest

end Numbers

section Elements
variable {δ : Type} {μ : δ → Type}

/-- The number of values in packed data. -/
theorem packedCount_flatMap (t : ScalarType) (values : List t.Value) :
    packedCount (.scalar t : FieldType δ) (values.flatMap (scalarPack t)) = some values.length := by
  have numbers (t : ScalarType) (varint : t.wireType = wireTypeVarint) (values : List t.Value) :
      ends (values.flatMap (scalarPack t)) = values.length := by
    apply ends_flatMap
    intro v
    rw [scalarPack_varint varint]
    exact encode_whole _
  cases t
  case int32 | sint32 | int64 | sint64 | uint32 | uint64 | enum => exact congrArg _ (numbers _ rfl values)
  case sfixed32 | fixed32 | float =>
    have length := length_flatMap_fixed (scalarPack _) 4 (fun _ => rfl) values
    simp only [packedCount, length]
    rw [if_neg (by omega), Nat.mul_div_cancel _ (by decide)]
  case sfixed64 | fixed64 | double =>
    have length := length_flatMap_fixed (scalarPack _) 8 (fun _ => rfl) values
    simp only [packedCount, length]
    rw [if_neg (by omega), Nat.mul_div_cancel _ (by decide)]
  case bool =>
    have length := length_flatMap_fixed (scalarPack .bool) 1 (fun _ => rfl) values
    rw [packedCount, length, Nat.mul_one]

theorem prefixedPack_payload {data : List UInt8} (fits : data.length ≤ packLimit) :
    Payload wireTypeLengthPrefixed (prefixedPack data) (uint32Pack (.ofNat data.length)).length := by
  have limit : data.length < 2 ^ 28 := Nat.lt_of_le_of_lt fits (by decide)
  have number : (UInt32.ofNat data.length).toNat = data.length := by
    rw [UInt32.toNat_ofNat', Nat.mod_eq_of_lt (by omega)]
  have five : (encode data.length).length ≤ 5 := encode_length_le.mpr (by omega)
  rw [prefixedPack, uint32Pack_eq, number]
  exact .prefixed (encode_whole _) five (by rw [value_encode]; omega) (by omega)

/-- Data behind its length, as a member of field `id`. -/
def prefixedRecord (id : UInt32) (data : List UInt8) (fits : data.length ≤ packLimit) : WireRecord where
  tag := id
  wireType := wireTypeLengthPrefixed
  payload := prefixedPack data
  prefLen := (uint32Pack (.ofNat data.length)).length
  extent := prefixedPack_payload fits

def scalarRecord (id : UInt32) (t : ScalarType) (v : t.Value) : WireRecord where
  tag := id
  wireType := t.wireType
  payload := scalarPack t v
  prefLen := 0
  extent := by
    have varint (same : t.wireType = wireTypeVarint) : Payload t.wireType (scalarPack t v) 0 := by
      rw [same, scalarPack_varint same]
      exact .varint (encode_whole _) (encode_short (t.extended_lt v))
    cases t
    case sfixed32 | fixed32 | float => exact .fixed32 rfl
    case sfixed64 | fixed64 | double => exact .fixed64 rfl
    all_goals exact varint rfl

theorem prefixedRecord_body (id : UInt32) (data : List UInt8) (fits : data.length ≤ packLimit) :
    (prefixedRecord id data fits).body = data := List.drop_left

/-- Where the second pass finds data behind its length. -/
theorem Kept.prefixed {fields : Nat} {s : ScannedMember fields} {id : UInt32} {data : List UInt8}
    (fits : data.length ≤ packLimit) (kept : Kept (prefixedRecord id data fits) s) :
    toUnsigned (toUnsigned s.len - s.lengthPrefixLen) = data.length ∧
      toSize (s.len - s.lengthPrefixLen) = data.length ∧
      ∃ rest, s.data.drop s.lengthPrefixLen = data ++ rest := by
  have limit : data.length < 2 ^ 28 := Nat.lt_of_le_of_lt fits (by decide)
  have len : s.len = s.lengthPrefixLen + data.length := by
    rw [kept.len, kept.prefLen]
    exact List.length_append
  have short : s.len < 2 ^ 32 := kept.len ▸ (prefixedRecord id data fits).payload_short
  obtain ⟨rest, found⟩ := kept.data
  refine ⟨?_, ?_, rest, ?_⟩
  · rw [toUnsigned_natCast, Nat.mod_eq_of_lt short, toUnsigned]
    omega
  · rw [toSize]
    omega
  · rw [found, kept.prefLen]
    change ((uint32Pack (.ofNat data.length) ++ data) ++ rest).drop (uint32Pack (.ofNat data.length)).length = _
    rw [List.append_assoc, List.drop_left]

theorem prefixedPack_fits {data : List UInt8} (fits : (prefixedPack data).length ≤ packLimit) :
    data.length ≤ packLimit := by
  rw [prefixedPack, List.length_append] at fits
  omega

variable {subPack : (d : δ) → μ d → List UInt8}

/-- The member that one value is packed to. -/
def elementRecord (subPack : (d : δ) → μ d → List UInt8) (id : UInt32) : (t : FieldType δ) →
    (e : t.Element μ) → (requiredPack subPack t (t.required e)).length ≤ packLimit → WireRecord
  | .scalar t, v, _ => scalarRecord id t v
  | .string, (s : CString), fits => prefixedRecord id s.bytes (prefixedPack_fits fits)
  | .bytes, b, fits => prefixedRecord id b (prefixedPack_fits fits)
  | .message d, m, fits => prefixedRecord id (subPack d m) (prefixedPack_fits fits)

section Record
variable {id : UInt32} {t : FieldType δ} {e : t.Element μ}
  {fits : (requiredPack subPack t (t.required e)).length ≤ packLimit}

theorem elementRecord_bytes : (elementRecord subPack id t e fits).bytes =
    wireTagPack id t.wireType ++ requiredPack subPack t (t.required e) := by
  cases t <;> rfl

theorem elementRecord_tag : (elementRecord subPack id t e fits).tag = id := by
  cases t <;> rfl

theorem elementRecord_wireType : (elementRecord subPack id t e fits).wireType = t.wireType := by
  cases t <;> rfl

end Record

/-- A value as the other end has it. -/
def sentElement (sub : (d : δ) → μ d → μ d) : (t : FieldType δ) → t.Element μ → t.Element μ
  | .scalar _, v => v
  | .string, s => s
  | .bytes, b => b
  | .message d, m => sub d m

def completeElement (sub : (d : δ) → μ d → Prop) : (t : FieldType δ) → t.Element μ → Prop
  | .message d, m => sub d m
  | .scalar _, _ | .string, _ | .bytes, _ => True

end Elements

/-- What is relied on of the messages inside: one that is packed is unpacked again. -/
structure SubCodec {δ : Type} {μ : δ → Type} (pack : (d : δ) → μ d → List UInt8)
    (unpack : (d : δ) → Nat → List UInt8 → Run (Option (μ d))) (sent : (d : δ) → μ d → μ d)
    (complete : (d : δ) → μ d → Prop) : Prop where
  inverse : ∀ d m, complete d m → (pack d m).length ≤ packLimit → ∀ rest,
    unpack d (pack d m).length (pack d m ++ rest) = .ok (some (sent d m))

section Parse
variable {δ : Type} {μ : δ → Type} {subPack : (d : δ) → μ d → List UInt8}
  {subUnpack : (d : δ) → Nat → List UInt8 → Run (Option (μ d))} {subSent : (d : δ) → μ d → μ d}
  {subComplete : (d : δ) → μ d → Prop} {merge : (d : δ) → μ d → μ d → μ d}

/-- One value is read back. -/
theorem parseElement_kept (sub : SubCodec subPack subUnpack subSent subComplete) {fields : Nat} {id : UInt32}
    {t : FieldType δ} {e : t.Element μ} (complete : completeElement subComplete t e)
    {fits : (requiredPack subPack t (t.required e)).length ≤ packLimit} {s : ScannedMember fields}
    (kept : Kept (elementRecord subPack id t e fits) s) :
    parseElement subUnpack s t = .ok (some (sentElement subSent t e)) := by
  cases t with
  | scalar t =>
    obtain ⟨rest, data⟩ := kept.data
    have wire : t.accepts s.wireType = true := by
      rw [kept.wireType]
      exact Bool.or_eq_true_iff.mpr (.inr (decide_eq_true rfl))
    have short : s.len < 2 ^ 32 := kept.len ▸ (elementRecord subPack id (.scalar t) e fits).payload_short
    rw [parseElement, if_pos wire, toUnsigned_natCast, Nat.mod_eq_of_lt short, kept.len, data, slice_length_append,
      ok_bind]
    exact congrArg (Except.ok ∘ some) (parseScalar_scalarPack t e)
  | string =>
    obtain ⟨len, -, rest, data⟩ := Kept.prefixed (prefixedPack_fits fits) kept
    have wire : s.wireType = wireTypeLengthPrefixed := kept.wireType
    rw [parseElement, if_pos wire, len, data, slice_length_append, ok_bind]
    exact congrArg (Except.ok ∘ some) (CString.ofArray_bytes e)
  | bytes =>
    obtain ⟨len, -, rest, data⟩ := Kept.prefixed (prefixedPack_fits fits) kept
    have wire : s.wireType = wireTypeLengthPrefixed := kept.wireType
    have read : slice (s.data.drop s.lengthPrefixLen) (toUnsigned (toUnsigned s.len - s.lengthPrefixLen)) = .ok e := by
      rw [len, data]
      exact slice_length_append e rest
    rw [parseElement, if_pos wire, read]
    rfl
  | message d =>
    obtain ⟨len, -, rest, data⟩ := Kept.prefixed (prefixedPack_fits fits) kept
    have wire : s.wireType = wireTypeLengthPrefixed := kept.wireType
    refine (if_pos wire).trans ?_
    rw [len, data]
    exact sub.inverse d e complete (prefixedPack_fits fits) rest

/-- The second pass over the members of one field. -/
def parseFields {d : MessageDescriptor δ} (subUnpack : (d : δ) → Nat → List UInt8 → Run (Option (μ d)))
    (merge : (d : δ) → μ d → μ d → μ d) (f : FieldDescriptor δ) (capacity : Nat) :
    List (ScannedMember d.nFields) → f.type.Member μ f.label → Run (Option (f.type.Member μ f.label))
  | [], member => .ok (some member)
  | s :: members, member => do
    let some member ← parseField subUnpack merge s f capacity member | .ok none
    parseFields subUnpack merge f capacity members member

theorem parseFields_step {d : MessageDescriptor δ} {f : FieldDescriptor δ} {capacity : Nat}
    {s : ScannedMember d.nFields} {members : List (ScannedMember d.nFields)} {before next : f.type.Member μ f.label}
    (here : parseField subUnpack merge s f capacity before = .ok (some next)) :
    parseFields subUnpack merge f capacity (s :: members) before =
      parseFields subUnpack merge f capacity members next := by
  rw [parseFields, here]
  rfl

theorem initialMember_repeated (t : FieldType δ) (value : t.Default) :
    initialMember (μ := μ) t value .repeated = ([] : List (t.Element μ)) := by
  cases t <;> rfl

variable (subSent merge) in
/-- A required member is packed as some value, which takes its place again. -/
theorem required_element (t : FieldType δ) (value : t.Default) {member : t.Required μ}
    (complete : completeMember subComplete t .required member) :
    ∃ e, requiredPack subPack t member = requiredPack subPack t (t.required e) ∧ completeElement subComplete t e ∧
      t.replace merge (initialMember t value .required) (sentElement subSent t e) =
        sentMember subSent t value .required member := by
  cases t with
  | scalar t => exact ⟨member, rfl, trivial, rfl⟩
  | string =>
    cases member with
    | none => exact ⟨⟨[], List.not_mem_nil⟩, rfl, trivial, rfl⟩
    | some s => exact ⟨s, rfl, trivial, rfl⟩
  | bytes => exact ⟨member, rfl, trivial, rfl⟩
  | message d =>
    obtain ⟨inner, rfl, ready⟩ := complete
    exact ⟨inner, rfl, ready, rfl⟩

variable (subSent merge) in
/-- An optional member is not packed, and keeps its initial value, or is packed as the
value that it is set to again. -/
theorem optional_element (t : FieldType δ) (value : t.Default) {member : t.Optional μ}
    (complete : completeMember subComplete t .optional member) :
    (t.present member = none ∧ initialMember t value .optional = sentMember subSent t value .optional member) ∨
      ∃ e, t.present member = some (t.required e) ∧ completeElement subComplete t e ∧
        t.set merge (initialMember t value .optional) (sentElement subSent t e) =
          sentMember subSent t value .optional member := by
  cases t with
  | scalar t =>
    obtain ⟨has, v⟩ := member
    cases has with
    | false => exact .inl ⟨rfl, rfl⟩
    | true => exact .inr ⟨v, rfl, trivial, rfl⟩
  | string =>
    cases member with
    | none => exact .inl ⟨rfl, rfl⟩
    | some s => exact .inr ⟨s, rfl, trivial, rfl⟩
  | bytes =>
    obtain ⟨has, b⟩ := member
    cases has with
    | false => exact .inl ⟨rfl, rfl⟩
    | true => exact .inr ⟨b, rfl, trivial, rfl⟩
  | message d =>
    cases member with
    | none => exact .inl ⟨rfl, rfl⟩
    | some m => exact .inr ⟨m, rfl, complete m rfl, rfl⟩

/-- The members of one field, and what the two passes make of them. -/
structure FieldRecords (subPack : (d : δ) → μ d → List UInt8)
    (subUnpack : (d : δ) → Nat → List UInt8 → Run (Option (μ d))) (subSent : (d : δ) → μ d → μ d)
    (merge : (d : δ) → μ d → μ d → μ d) (d : MessageDescriptor δ) (f : FieldDescriptor δ)
    (member : f.type.Member μ f.label) (records : List WireRecord) : Prop where
  bytes : records.flatMap WireRecord.bytes = fieldPack subPack f member
  tags : ∀ r ∈ records, r.tag = f.id
  countable : ∀ r ∈ records, (elements f r).isSome
  required : f.label = .required → records ≠ []
  parsed : ∀ members : List (ScannedMember d.nFields), List.Forall₂ Kept records members → ∀ capacity,
    (records.map fun r => (elements f r).getD 0).sum ≤ capacity →
      parseFields subUnpack merge f capacity members (initialMember f.type f.defaultValue f.label) =
        .ok (some (sentMember subSent f.type f.defaultValue f.label member))

section Labels
variable {id : UInt32} {t : FieldType δ} {value : t.Default} {packed : Bool} {numbered : id.toNat < 2 ^ 29}
  {packable : packed = true → t.isPackable = true} {d : MessageDescriptor δ}

theorem required_records (sub : SubCodec subPack subUnpack subSent subComplete) {member : t.Required μ}
    (complete : completeMember subComplete t .required member)
    (fits : (requiredFieldPack subPack ⟨id, .required, t, value, packed, numbered, packable⟩ member).length ≤
      packLimit) :
    ∃ records, FieldRecords subPack subUnpack subSent merge d
      ⟨id, .required, t, value, packed, numbered, packable⟩ member records := by
  obtain ⟨e, packs, ready, replaced⟩ := required_element subSent merge t value complete
  rw [requiredFieldPack, packs, List.length_append] at fits
  have fits : (requiredPack subPack t (t.required e)).length ≤ packLimit := by omega
  refine ⟨[elementRecord subPack id t e fits], ?_, ?_, ?_, ?_, ?_⟩
  · rw [List.flatMap_cons, List.flatMap_nil, List.append_nil, elementRecord_bytes, ← packs]
    rfl
  · intro r only
    rw [List.mem_singleton.mp only, elementRecord_tag]
  · intro r _
    rfl
  · exact fun _ => List.cons_ne_nil _ _
  · intro members scanned capacity _
    obtain _ | @⟨_, s, _, _, kept, rest⟩ := scanned
    cases rest
    have read := parseElement_kept sub ready kept
    change (parseElement subUnpack s t >>= fun x => _) >>= _ = _
    rw [read]
    exact congrArg (Except.ok ∘ some) replaced

theorem optional_records (sub : SubCodec subPack subUnpack subSent subComplete) {member : t.Optional μ}
    (complete : completeMember subComplete t .optional member)
    (fits : (optionalFieldPack subPack ⟨id, .optional, t, value, packed, numbered, packable⟩ member).length ≤
      packLimit) :
    ∃ records, FieldRecords subPack subUnpack subSent merge d
      ⟨id, .optional, t, value, packed, numbered, packable⟩ member records := by
  rcases optional_element subSent merge t value complete with
    ⟨absent, unset⟩ | ⟨e, present, ready, set⟩
  · refine ⟨[], ?_, nofun, nofun, nofun, ?_⟩
    · change [] = optionalFieldPack subPack ⟨id, .optional, t, value, packed, numbered, packable⟩ member
      rw [optionalFieldPack]
      simp only [absent]
    · intro members scanned capacity _
      cases scanned
      exact congrArg (Except.ok ∘ some) unset
  · have packs : optionalFieldPack subPack ⟨id, .optional, t, value, packed, numbered, packable⟩ member =
        wireTagPack id t.wireType ++ requiredPack subPack t (t.required e) := by
      rw [optionalFieldPack]
      simp only [present]
      rfl
    rw [packs, List.length_append] at fits
    have fits : (requiredPack subPack t (t.required e)).length ≤ packLimit := by omega
    refine ⟨[elementRecord subPack id t e fits], ?_, ?_, ?_, nofun, ?_⟩
    · rw [List.flatMap_cons, List.flatMap_nil, List.append_nil, elementRecord_bytes]
      exact packs.symm
    · intro r only
      rw [List.mem_singleton.mp only, elementRecord_tag]
    · intro r _
      rfl
    · intro members scanned capacity _
      obtain _ | @⟨_, s, _, _, kept, rest⟩ := scanned
      cases rest
      have read := parseElement_kept sub ready kept
      change (parseElement subUnpack s t >>= fun x => _) >>= _ = _
      rw [read]
      exact congrArg (Except.ok ∘ some) set

/-- An array as the other end has it. -/
theorem sentMember_repeated (array : List (t.Element μ)) :
    sentMember subSent t value .repeated array = array.map (sentElement subSent t) := by
  cases t
  case message => rfl
  all_goals exact (List.map_id'' (fun _ => rfl) array).symm

theorem complete_elements {array : List (t.Element μ)} (complete : completeMember subComplete t .repeated array) :
    ∀ e ∈ array, completeElement subComplete t e := by
  intro e member
  cases t with
  | message d => exact complete e member
  | scalar => trivial
  | string => trivial
  | bytes => trivial

section Elements
variable {packable : false = true → t.isPackable = true} {array : List (t.Element μ)} {records : List WireRecord}

theorem single_member : readPacked (⟨id, .repeated, t, value, false, numbered, packable⟩ : FieldDescriptor δ)
    t.wireType = false := by
  cases t with
  | scalar t => cases t <;> rfl
  | string => rfl
  | bytes => rfl
  | message => rfl

theorem exists_elementRecords
    (fits : (repeatedFieldPack subPack ⟨id, .repeated, t, value, false, numbered, packable⟩ array).length ≤
      packLimit) :
    ∃ records : List WireRecord, List.Forall₂ (fun e r => ∃ fits, r = elementRecord subPack id t e fits)
      array records := by
  rw [repeatedFieldPack, if_neg Bool.false_ne_true] at fits
  induction array with
  | nil => exact ⟨[], .nil⟩
  | cons e array ih =>
    rw [List.flatMap_cons, List.length_append] at fits
    obtain ⟨records, made⟩ := ih (by omega)
    have one : (requiredPack subPack t (t.required e)).length ≤ packLimit := by
      rw [requiredFieldPack, List.length_append] at fits
      dsimp only at fits
      omega
    exact ⟨elementRecord subPack id t e one :: records, .cons ⟨one, rfl⟩ made⟩

variable (made : List.Forall₂ (fun e r => ∃ fits, r = elementRecord subPack id t e fits) array records)
include made

theorem elementRecords_each : ∀ r ∈ records, r.tag = id ∧ r.wireType = t.wireType := by
  induction made with
  | nil => simp
  | cons same _ ih =>
    obtain ⟨fits, rfl⟩ := same
    exact List.forall_mem_cons.mpr ⟨⟨elementRecord_tag, elementRecord_wireType⟩, ih⟩

theorem elementRecords_bytes : records.flatMap WireRecord.bytes =
    repeatedFieldPack subPack ⟨id, .repeated, t, value, false, numbered, packable⟩ array := by
  rw [repeatedFieldPack, if_neg Bool.false_ne_true]
  induction made with
  | nil => rfl
  | cons same _ ih =>
    obtain ⟨fits, rfl⟩ := same
    rw [List.flatMap_cons, List.flatMap_cons, ih, elementRecord_bytes]
    rfl

/-- Each of the members adds its element to those that were read before. -/
theorem parseFields_elements (sub : SubCodec subPack subUnpack subSent subComplete)
    (ready : ∀ e ∈ array, completeElement subComplete t e) {capacity : Nat}
    {members : List (ScannedMember d.nFields)} (scanned : List.Forall₂ Kept records members)
    {before : List (t.Element μ)} (room : before.length + array.length ≤ capacity) :
    parseFields subUnpack merge (⟨id, .repeated, t, value, false, numbered, packable⟩ : FieldDescriptor δ)
      capacity members before = .ok (some (before ++ array.map (sentElement subSent t))) := by
  induction made generalizing members before with
  | nil =>
    cases scanned
    rw [List.map_nil, List.append_nil]
    rfl
  | @cons e r array records same _ ih =>
    obtain ⟨fits, rfl⟩ := same
    obtain _ | @⟨_, s, _, members, kept, rest⟩ := scanned
    rw [List.length_cons] at room
    have read := parseElement_kept sub (ready e List.mem_cons_self) kept
    have wire : s.wireType = t.wireType := kept.wireType.trans elementRecord_wireType
    have here : parseField subUnpack merge s
        (⟨id, .repeated, t, value, false, numbered, packable⟩ : FieldDescriptor δ) capacity before =
          .ok (some (before ++ [sentElement subSent t e])) := by
      simp only [parseField, wire, single_member, Bool.false_eq_true, if_false, read, ok_bind]
      rw [require_true (by omega)]
      rfl
    have tail := ih (fun e member => ready e (List.mem_cons_of_mem _ member)) rest
      (show (before ++ [sentElement subSent t e]).length + array.length ≤ capacity by
        rw [List.length_append, List.length_singleton]
        omega)
    refine (parseFields_step here).trans (tail.trans ?_)
    rw [List.append_assoc, List.map_cons]
    rfl

end Elements

/-- The values of an array that is not packed, one member for each. -/
theorem repeated_records {packable : false = true → t.isPackable = true}
    (sub : SubCodec subPack subUnpack subSent subComplete) {array : List (t.Element μ)}
    (complete : completeMember subComplete t .repeated array)
    (fits : (repeatedFieldPack subPack ⟨id, .repeated, t, value, false, numbered, packable⟩ array).length ≤
      packLimit) :
    ∃ records, FieldRecords subPack subUnpack subSent merge d
      ⟨id, .repeated, t, value, false, numbered, packable⟩ array records := by
  obtain ⟨records, made⟩ := exists_elementRecords fits
  have each := elementRecords_each made
  have count : ∀ r ∈ records, elements (⟨id, .repeated, t, value, false, numbered, packable⟩ : FieldDescriptor δ) r =
      some 1 := by
    intro r member
    rw [elements, if_neg (fun different => different rfl), (each r member).2, single_member]
    rfl
  refine ⟨records, elementRecords_bytes made, fun r member => (each r member).1, ?_,
    (fun label => by cases label), ?_⟩
  · intro r member
    rw [count r member]
    rfl
  · intro members scanned capacity room
    have length : (records.map fun r => (elements
        (⟨id, .repeated, t, value, false, numbered, packable⟩ : FieldDescriptor δ) r).getD 0).sum = array.length := by
      rw [List.map_congr_left fun r member => congrArg (Option.getD · 0) (count r member), made.length_eq]
      simp
    rw [length] at room
    have start := initialMember_repeated (μ := μ) t value
    refine (congrArg (parseFields subUnpack merge _ capacity members) start).trans ?_
    refine (parseFields_elements made sub (complete_elements complete) scanned (by simpa using room)).trans ?_
    exact congrArg (Except.ok ∘ some) (sentMember_repeated array).symm

/-- The values of a packed array, in one member. -/
theorem packed_records {t : ScalarType} {value : (FieldType.scalar t : FieldType δ).Default}
    {packable : true = true → (FieldType.scalar t : FieldType δ).isPackable = true} {array : List t.Value}
    (fits : (repeatedFieldPack subPack ⟨id, .repeated, .scalar t, value, true, numbered, packable⟩ array).length ≤
      packLimit) :
    ∃ records, FieldRecords subPack subUnpack subSent merge d
      ⟨id, .repeated, .scalar t, value, true, numbered, packable⟩ array records := by
  by_cases empty : array.length = 0
  · obtain rfl := List.length_eq_zero_iff.mp empty
    refine ⟨[], rfl, by simp, by simp, (fun label => by cases label), ?_⟩
    intro members scanned capacity _
    cases scanned
    rfl
  · have packs : repeatedFieldPack subPack
        (⟨id, .repeated, .scalar t, value, true, numbered, packable⟩ : FieldDescriptor δ) array =
          wireTagPack id wireTypeLengthPrefixed ++ prefixedPack (array.flatMap (scalarPack t)) := by
      exact (if_pos rfl).trans (if_neg empty)
    rw [packs, List.length_append] at fits
    have fits : (array.flatMap (scalarPack t)).length ≤ packLimit := prefixedPack_fits (by omega)
    have limit : (array.flatMap (scalarPack t)).length < 2 ^ 32 := Nat.lt_of_le_of_lt fits (by decide)
    have count : elements (⟨id, .repeated, .scalar t, value, true, numbered, packable⟩ : FieldDescriptor δ)
        (prefixedRecord id (array.flatMap (scalarPack t)) fits) = some array.length := by
      rw [elements, if_neg (fun different => different rfl), prefixedRecord_body]
      exact packedCount_flatMap t array
    refine ⟨[prefixedRecord id (array.flatMap (scalarPack t)) fits], ?_, ?_, ?_, (fun label => by cases label), ?_⟩
    · rw [List.flatMap_cons, List.flatMap_nil, List.append_nil]
      exact packs.symm
    · intro r only
      rw [List.mem_singleton.mp only]
      rfl
    · intro r only
      rw [List.mem_singleton.mp only, count]
      rfl
    · intro members scanned capacity room
      obtain _ | @⟨_, s, _, _, kept, rest⟩ := scanned
      cases rest
      rw [List.map_cons, List.map_nil, List.sum_cons, List.sum_nil, count, Option.getD_some, Nat.add_zero] at room
      obtain ⟨-, size, rest, data⟩ := kept.prefixed fits
      have wire : s.wireType = wireTypeLengthPrefixed := kept.wireType
      have read : parsePackedRepeatedMember (μ := μ) s (capacity - 0) (.scalar t) = .ok (some array) := by
        rw [parsePackedRepeatedMember, size, data]
        exact parsePackedScalars_flatMap t array limit room rest
      have here : parseField subUnpack merge s
          (⟨id, .repeated, .scalar t, value, true, numbered, packable⟩ : FieldDescriptor δ) capacity [] =
            .ok (some array) := by
        have packed : readPacked (⟨id, .repeated, .scalar t, value, true, numbered, packable⟩ : FieldDescriptor δ)
            s.wireType = true := by
          rw [wire]
          rfl
        refine (if_pos packed).trans ?_
        change (parsePackedRepeatedMember (μ := μ) s (capacity - 0) (.scalar t) >>= fun values => _) = _
        rw [read]
        rfl
      have start := initialMember_repeated (μ := μ) (.scalar t) value
      refine (congrArg (parseFields subUnpack merge _ capacity [s]) start).trans ?_
      exact parseFields_step here

end Labels

theorem exists_fieldRecords (sub : SubCodec subPack subUnpack subSent subComplete) (d : MessageDescriptor δ)
    (f : FieldDescriptor δ) {member : f.type.Member μ f.label}
    (complete : completeMember subComplete f.type f.label member)
    (fits : (fieldPack subPack f member).length ≤ packLimit) :
    ∃ records, FieldRecords subPack subUnpack subSent merge d f member records := by
  obtain ⟨id, label, type, value, packed, numbered, packable⟩ := f
  cases label with
  | required => exact required_records sub complete fits
  | optional => exact optional_records sub complete fits
  | repeated =>
    cases packed with
    | false => exact repeated_records sub complete fits
    | true =>
      cases type with
      | scalar t => exact packed_records fits
      | string => cases packable rfl
      | bytes => cases packable rfl
      | message => cases packable rfl

section Members
variable {d : MessageDescriptor δ} {message : Record μ d} {capacities : Fin d.nFields → Nat}

theorem parseMembers_append (front back : List (ScannedMember d.nFields)) (start : Record μ d) {middle : Record μ d}
    (first : parseMembers subUnpack merge capacities front start = .ok (some middle)) :
    parseMembers subUnpack merge capacities (front ++ back) start =
      parseMembers subUnpack merge capacities back middle := by
  induction front generalizing start with
  | nil =>
    cases first
    rfl
  | cons s front ih =>
    rw [List.cons_append, parseMembers] at *
    obtain ⟨next, here, rest⟩ := bind_eq_ok.mp first
    rw [here, ok_bind]
    cases next with
    | none => cases rest
    | some next => exact ih next rest

/-- Members of one field leave the others as they are. -/
theorem parseMembers_field {i : Fin d.nFields} {members : List (ScannedMember d.nFields)}
    (all : ∀ s ∈ members, s.field = some i) {start : Record μ d}
    {final : (d.field i).type.Member μ (d.field i).label}
    (parsed : parseFields subUnpack merge (d.field i) (capacities i) members (start.member i) = .ok (some final)) :
    parseMembers subUnpack merge capacities members start =
      .ok (some { start with member := Function.update start.member i final }) := by
  induction members generalizing start with
  | nil =>
    cases parsed
    rw [Function.update_eq_self]
    rfl
  | cons s members ih =>
    rw [parseFields] at parsed
    obtain ⟨next, here, rest⟩ := bind_eq_ok.mp parsed
    cases next with
    | none => cases rest
    | some next =>
      have single : parseMember subUnpack merge s capacities start =
          .ok (some { start with member := Function.update start.member i next }) := by
        rw [parseMember, all s List.mem_cons_self]
        dsimp only
        rw [here]
        rfl
      rw [parseMembers, single, ok_bind]
      dsimp only
      rw [ih (fun s member => all s (List.mem_cons_of_mem _ member)) (by dsimp only; rwa [Function.update_self]),
        Function.update_idem]

theorem parseMembers_unknown {fields : List UnknownField} {records : List WireRecord}
    (same : List.Forall₂ (fun field r => r.tag = field.tag ∧ r.wireType = field.wireType ∧
      r.payload = field.data ∧ fieldOf d r.tag = none) fields records)
    {members : List (ScannedMember d.nFields)} (scanned : List.Forall₂ Scanned records members)
    (start : Record μ d) :
    parseMembers subUnpack merge capacities members start =
      .ok (some { start with unknown := start.unknown ++ fields }) := by
  induction same generalizing members start with
  | nil =>
    cases scanned
    rw [List.append_nil]
    rfl
  | @cons field r fields records equal _ ih =>
    obtain _ | @⟨_, s, _, members, kept, rest⟩ := scanned
    obtain ⟨tag, wire, payload, missing⟩ := equal
    obtain ⟨after, data⟩ := kept.data
    have single : parseMember subUnpack merge s capacities start =
        .ok (some { start with unknown := start.unknown ++ [field] }) := by
      rw [parseMember, kept.field, missing]
      dsimp only
      rw [kept.len, data, slice_length_append, ok_bind, kept.tag, kept.wireType, tag, wire, payload]
    rw [parseMembers, single, ok_bind]
    dsimp only
    rw [ih rest, List.append_assoc]
    rfl

theorem scanned_fields {i : Fin d.nFields} {records : List WireRecord} {members : List (ScannedMember d.nFields)}
    (tags : ∀ r ∈ records, r.tag = (d.field i).id) (scanned : List.Forall₂ Scanned records members) :
    ∀ s ∈ members, s.field = some i := by
  induction scanned with
  | nil => exact nofun
  | cons kept _ ih =>
    refine List.forall_mem_cons.mpr ⟨?_, ih fun r member => tags r (List.mem_cons_of_mem _ member)⟩
    rw [kept.field, tags _ List.mem_cons_self, fieldOf_field]

/-- Fields one after the other, each with its members. -/
theorem parseMembers_fields {records : Fin d.nFields → List WireRecord}
    (made : ∀ i, FieldRecords subPack subUnpack subSent merge d (d.field i) (message.member i) (records i))
    (enough : ∀ i, ((records i).map fun r => (elements (d.field i) r).getD 0).sum ≤ capacities i)
    {fields : List (Fin d.nFields)} (once : fields.Nodup) {members : List (ScannedMember d.nFields)}
    (scanned : List.Forall₂ Scanned (fields.flatMap records) members) (start : Record μ d)
    (fresh : ∀ i ∈ fields, start.member i =
      initialMember (d.field i).type (d.field i).defaultValue (d.field i).label) :
    ∃ final : Record μ d, parseMembers subUnpack merge capacities members start = .ok (some final) ∧
      (∀ i ∈ fields, final.member i = (sentRecord subSent d message).member i) ∧
      (∀ i ∉ fields, final.member i = start.member i) ∧ final.unknown = start.unknown := by
  induction fields generalizing members start with
  | nil =>
    cases scanned
    exact ⟨start, rfl, nofun, fun _ _ => rfl, rfl⟩
  | cons i fields ih =>
    obtain ⟨outside, once⟩ := List.nodup_cons.mp once
    rw [List.flatMap_cons] at scanned
    obtain ⟨front, back, rfl, first, second⟩ : ∃ front back, members = front ++ back ∧
        List.Forall₂ Scanned (records i) front ∧ List.Forall₂ Scanned (fields.flatMap records) back := by
      refine ⟨members.take (records i).length, members.drop (records i).length,
        (List.take_append_drop ..).symm, ?_, ?_⟩
      · simpa using List.forall₂_take (records i).length scanned
      · simpa using List.forall₂_drop (records i).length scanned
    have all := scanned_fields (made i).tags first
    have parsed := (made i).parsed front (first.imp fun _ _ scanned => scanned.toKept) (capacities i) (enough i)
    rw [← fresh i List.mem_cons_self] at parsed
    let next : Record μ d := { start with
      member := Function.update start.member i ((sentRecord subSent d message).member i) }
    have fresh_next : ∀ j ∈ fields, next.member j =
        initialMember (d.field j).type (d.field j).defaultValue (d.field j).label := by
      intro j member
      have different : j ≠ i := fun same => outside (same ▸ member)
      rw [← fresh j (List.mem_cons_of_mem _ member)]
      exact Function.update_of_ne different ..
    obtain ⟨final, run, set, kept, unknown⟩ := ih once second next fresh_next
    refine ⟨final, ?_, ?_, ?_, unknown⟩
    · rw [parseMembers_append front back start (parseMembers_field all parsed)]
      exact run
    · intro j member
      rcases List.mem_cons.mp member with rfl | member
      · rw [kept j outside]
        exact Function.update_self ..
      · exact set j member
    · intro j outer
      have different : j ≠ i := fun same => outer (same ▸ List.mem_cons_self)
      rw [kept j fun member => outer (List.mem_cons_of_mem _ member)]
      exact Function.update_of_ne different ..

end Members

section Whole
variable {d : MessageDescriptor δ}

theorem tally_append (i : Fin d.nFields) (front back : List WireRecord) :
    tally d i (front ++ back) = tally d i front + tally d i back := by
  rw [tally, List.map_append, List.sum_append]
  rfl

theorem tally_mem {i j : Fin d.nFields} {fields : List (Fin d.nFields)} (member : j ∈ fields)
    (records : Fin d.nFields → List WireRecord) : tally d i (records j) ≤ tally d i (fields.flatMap records) := by
  obtain ⟨front, back, rfl⟩ := List.append_of_mem member
  rw [List.flatMap_append, List.flatMap_cons, tally_append, tally_append]
  omega

theorem two_bytes (records : List WireRecord) : 2 * records.length ≤ (records.flatMap WireRecord.bytes).length := by
  induction records with
  | nil => exact Nat.le_refl _
  | cons r records ih =>
    have some := r.extent.length_pos
    have longer := r.bytes_length
    rw [List.flatMap_cons, List.length_append, List.length_cons]
    omega

/-- What was not recognized stands behind the fields as it was found. -/
theorem unknown_records {fields : List UnknownField}
    (found : ∀ field ∈ fields, fieldOf d field.tag = none ∧ ∃ prefLen, Payload field.wireType field.data prefLen) :
    ∃ records : List WireRecord, records.flatMap WireRecord.bytes = fields.flatMap unknownFieldPack ∧
      List.Forall₂ (fun field r => r.tag = field.tag ∧ r.wireType = field.wireType ∧ r.payload = field.data ∧
        fieldOf d r.tag = none) fields records := by
  induction fields with
  | nil => exact ⟨[], rfl, .nil⟩
  | cons field fields ih =>
    obtain ⟨records, bytes, same⟩ := ih fun field member => found field (List.mem_cons_of_mem _ member)
    obtain ⟨missing, prefLen, extent⟩ := found field List.mem_cons_self
    refine ⟨⟨field.tag, field.wireType, field.data, prefLen, extent⟩ :: records, ?_,
      .cons ⟨rfl, rfl, rfl, missing⟩ same⟩
    rw [List.flatMap_cons, List.flatMap_cons, bytes]
    rfl

theorem unknown_missing {fields : List UnknownField} {records : List WireRecord}
    (same : List.Forall₂ (fun field r => r.tag = field.tag ∧ r.wireType = field.wireType ∧
      r.payload = field.data ∧ fieldOf d r.tag = none) fields records) :
    ∀ r ∈ records, fieldOf d r.tag = none := by
  induction same with
  | nil => exact nofun
  | cons equal _ ih => exact List.forall_mem_cons.mpr ⟨equal.2.2.2, ih⟩

/-- The members that a message is packed to: those of each field, and behind them those
that were not recognized. -/
structure MessageRecords (subPack : (d : δ) → μ d → List UInt8)
    (subUnpack : (d : δ) → Nat → List UInt8 → Run (Option (μ d))) (subSent : (d : δ) → μ d → μ d)
    (merge : (d : δ) → μ d → μ d → μ d) (message : Record μ d) (records : Fin d.nFields → List WireRecord)
    (others : List WireRecord) : Prop where
  fields : ∀ i, FieldRecords subPack subUnpack subSent merge d (d.field i) (message.member i) (records i)
  unknown : List.Forall₂ (fun field r => r.tag = field.tag ∧ r.wireType = field.wireType ∧
    r.payload = field.data ∧ fieldOf d r.tag = none) message.unknown others
  bytes : ((List.finRange d.nFields).flatMap records ++ others).flatMap WireRecord.bytes =
    recordPack subPack d message

theorem exists_messageRecords (sub : SubCodec subPack subUnpack subSent subComplete) {message : Record μ d}
    (complete : CompleteRecord subComplete d message)
    (fits : (recordPack subPack d message).length ≤ packLimit) :
    ∃ records others, MessageRecords subPack subUnpack subSent merge message records others := by
  have part (i : Fin d.nFields) : (fieldPack subPack (d.field i) (message.member i)).length ≤ packLimit := by
    rw [recordPack, List.length_append] at fits
    have whole : _ ≤ ((List.finRange d.nFields).flatMap fun i =>
        fieldPack subPack (d.field i) (message.member i)).length := part_length_le (List.mem_finRange i)
    omega
  have each (i : Fin d.nFields) :
      ∃ records, FieldRecords subPack subUnpack subSent merge d (d.field i) (message.member i) records :=
    exists_fieldRecords sub d (d.field i) (complete.members i) (part i)
  choose records made using each
  obtain ⟨others, others_bytes, unknown⟩ := unknown_records complete.unknown
  refine ⟨records, others, made, unknown, ?_⟩
  rw [List.flatMap_append, others_bytes, List.flatMap_assoc, recordPack]
  simp only [(made _).bytes]

namespace MessageRecords
variable {message : Record μ d} {records : Fin d.nFields → List WireRecord} {others : List WireRecord}
  (made : MessageRecords subPack subUnpack subSent merge message records others)
include made

theorem known (i : Fin d.nFields) : ∀ r ∈ records i, fieldOf d r.tag = some i := by
  intro r member
  rw [(made.fields i).tags r member, fieldOf_field]

theorem countable : ∀ r ∈ (List.finRange d.nFields).flatMap records ++ others, Countable d r := by
  intro r member i found
  rw [List.mem_append, List.mem_flatMap] at member
  rcases member with ⟨j, -, member⟩ | member
  · obtain rfl : j = i := Option.some.inj ((made.known j r member).symm.trans found)
    exact (made.fields j).countable r member
  · rw [unknown_missing made.unknown r member] at found
    cases found

/-- There is a place for every element that a field was packed to. -/
theorem enough (i : Fin d.nFields) :
    ((records i).map fun r => (elements (d.field i) r).getD 0).sum ≤
      tally d i ((List.finRange d.nFields).flatMap records ++ others) := by
  have own : ((records i).map fun r => (elements (d.field i) r).getD 0).sum = tally d i (records i) := by
    rw [tally]
    congr 1
    apply List.map_congr_left
    intro r member
    rw [memberElements, if_pos (made.known i r member)]
  rw [own, tally_append]
  exact (tally_mem (List.mem_finRange i) records).trans (Nat.le_add_right _ _)

theorem required {seen : Fin d.nFields → Bool}
    (marks : ∀ i, seen i = ((List.finRange d.nFields).flatMap records ++ others).any fun r =>
      fieldOf d r.tag = some i) : requiredSeen d seen = true := by
  rw [requiredSeen, List.all_eq_true]
  intro i _
  by_cases required : (d.field i).label = .required
  · obtain ⟨r, member⟩ := List.exists_mem_of_ne_nil _ ((made.fields i).required required)
    have marked : seen i = true := by
      rw [marks i, List.any_eq_true]
      refine ⟨r, List.mem_append_left _ ?_, decide_eq_true (made.known i r member)⟩
      exact List.mem_flatMap.mpr ⟨i, List.mem_finRange i, member⟩
    rw [marked, Bool.or_true]
  · simp [required]

/-- All the members, read one after another, give the message as it is sent. -/
theorem parsed {members : List (ScannedMember d.nFields)}
    (scanned : List.Forall₂ Scanned ((List.finRange d.nFields).flatMap records ++ others) members)
    (room : ∀ i, tally d i ((List.finRange d.nFields).flatMap records ++ others) ≤ capacities i) :
    parseMembers subUnpack merge capacities members (messageInit d) = .ok (some (sentRecord subSent d message)) := by
  obtain ⟨front, back, split, first, second⟩ : ∃ front back, members = front ++ back ∧
      List.Forall₂ Scanned ((List.finRange d.nFields).flatMap records) front ∧
        List.Forall₂ Scanned others back := by
    refine ⟨members.take ((List.finRange d.nFields).flatMap records).length,
      members.drop ((List.finRange d.nFields).flatMap records).length, (List.take_append_drop ..).symm, ?_, ?_⟩
    · simpa using List.forall₂_take ((List.finRange d.nFields).flatMap records).length scanned
    · simpa using List.forall₂_drop ((List.finRange d.nFields).flatMap records).length scanned
  obtain ⟨middle, run, set, -, none_yet⟩ := parseMembers_fields made.fields
    (fun i => (made.enough i).trans (room i)) (List.nodup_finRange _) first (messageInit d) fun _ _ => rfl
  have run_all := parseMembers_append front back (messageInit d) run
  rw [parseMembers_unknown made.unknown second middle] at run_all
  rw [split, run_all, none_yet]
  congr 2
  have members_final : middle.member = (sentRecord subSent d message).member := by
    funext i
    exact set i (List.mem_finRange i)
  rw [members_final]
  rfl

end MessageRecords

/-- A message whose inner messages are unpacked as they were packed is itself so. -/
theorem recordUnpack_recordPack (sub : SubCodec subPack subUnpack subSent subComplete) {message : Record μ d}
    (complete : CompleteRecord subComplete d message) (fits : (recordPack subPack d message).length ≤ packLimit)
    (rest : List UInt8) :
    recordUnpack subUnpack merge d (recordPack subPack d message).length (recordPack subPack d message ++ rest) =
      .ok (some (sentRecord subSent d message)) := by
  obtain ⟨records, others, made⟩ :
      ∃ records others, MessageRecords subPack subUnpack subSent merge message records others :=
    exists_messageRecords sub complete fits
  have bytes := made.bytes
  have countable := made.countable
  obtain ⟨all, all_eq⟩ : ∃ all, all = (List.finRange d.nFields).flatMap records ++ others := ⟨_, rfl⟩
  rw [← all_eq] at bytes countable
  have limit : (recordPack subPack d message).length < 2 ^ 28 := Nat.lt_of_le_of_lt fits (by decide)
  have total (i : Fin d.nFields) : tally d i all < 2 ^ 32 := by
    have most := (tally_le i all).trans (payloads_le all)
    rw [bytes] at most
    omega
  have slots : (⟨if first : 0 < d.nFields then some ⟨0, first⟩ else none, fun _ => false, fun _ => 0, 0, 0, []⟩ :
      Scan d.nFields).Room all.length := by
    have two := two_bytes all
    rw [bytes] at two
    refine ⟨Nat.zero_le _, Nat.zero_le _, ?_⟩
    change 0 + all.length ≤ slabsSize
    rw [packLimit] at fits
    omega
  obtain ⟨scan, scanned, after⟩ := scanLoop_records countable slots
    (fun i => by have small := total i; dsimp only; omega) (Nat.lt_succ_self _) rest
  rw [bytes] at scanned
  obtain ⟨members, members_eq, kept⟩ := after.members
  rw [List.nil_append] at members_eq
  have capacity (i : Fin d.nFields) : toUnsigned (scan.counts i) = tally d i all := by
    rw [after.counts i, Nat.zero_add, toUnsigned_natCast, Nat.mod_eq_of_lt (total i)]
  have seen : requiredSeen d scan.seen = true := by
    apply made.required
    intro i
    rw [after.seen i, Bool.false_or, all_eq]
  rw [recordUnpack, scanMembers, scanned, ok_bind]
  dsimp only
  rw [if_pos seen, members_eq]
  apply made.parsed (all_eq ▸ kept)
  intro i
  rw [capacity, all_eq]

end Whole

end Parse

/-- Every message that has no null pointer where a message must be is unpacked from what
it was packed to, at any depth, and whatever bytes stand behind it: with all values that
were set, and those that were not set as they are initially. -/
theorem messageUnpack_messagePack (n : Nat) (d : Descriptor n) {message : Message n d}
    (complete : Complete n d message) (fits : (messagePack n d message).length ≤ packLimit) (rest : List UInt8) :
    messageUnpack n d (messagePack n d message).length (messagePack n d message ++ rest) =
      .ok (some (sentMessage n d message)) := by
  induction n generalizing rest with
  | zero => exact nomatch d
  | succ n ih => exact recordUnpack_recordPack ⟨fun d _ complete fits rest => ih d complete fits rest⟩ complete fits rest

/-- As many bytes as the packed size are written and read. -/
theorem message_round_trip (n : Nat) (d : Descriptor n) {message : Message n d} (complete : Complete n d message)
    (fits : messageGetPackedSize n d message ≤ packLimit) (rest : List UInt8) :
    (messagePack n d message).length = messageGetPackedSize n d message ∧
      messageUnpack n d (messageGetPackedSize n d message) (messagePack n d message ++ rest) =
        .ok (some (sentMessage n d message)) := by
  have length := messagePack_length n d message
  rw [← length] at fits ⊢
  exact ⟨rfl, messageUnpack_messagePack n d complete fits rest⟩

section Sample
open MumbleProto

/-- A user without a name, of whom a channel is known, inside a list. -/
def oneUser : Message 2 userList :=
  setMember (messageInit userList) ⟨0, by decide⟩
    [setMember (setMember (messageInit user) ⟨0, by decide⟩ (7 : UInt32)) ⟨3, by decide⟩
      ((true, 300) : Bool × UInt32)]

theorem oneUser_complete : Complete 2 userList oneUser := by
  refine ⟨fun i => ?_, fun _ member => absurd member List.not_mem_nil⟩
  match i with
  | ⟨0, _⟩ =>
    intro inner member
    obtain rfl := List.mem_singleton.mp member
    refine ⟨fun i => ?_, fun _ member => absurd member List.not_mem_nil⟩
    match i with
    | ⟨0, _⟩ => trivial
    | ⟨1, _⟩ => trivial
    | ⟨2, _⟩ => trivial
    | ⟨3, _⟩ => trivial

theorem message_round_trip_sample :
    (messagePack 2 userList oneUser).length = messageGetPackedSize 2 userList oneUser ∧
      messageUnpack 2 userList (messageGetPackedSize 2 userList oneUser) (messagePack 2 userList oneUser ++ [0, 1]) =
        .ok (some (sentMessage 2 userList oneUser)) :=
  message_round_trip 2 userList oneUser_complete (by decide) [0, 1]

end Sample

end ProtobufC

import Mumble.ProtobufC.Varints

/-! The size that is computed of a message is the number of the bytes that it is packed
to, for every message: the buffer that a caller allocates of that size is filled and not
left. -/
namespace ProtobufC
open Base128

section Fields

theorem part_length_le {α : Type} {bytes : α → List UInt8} {array : List α} {a : α} (member : a ∈ array) :
    (bytes a).length ≤ (array.flatMap bytes).length := by
  obtain ⟨front, back, rfl⟩ := List.append_of_mem member
  rw [List.flatMap_append, List.flatMap_cons, List.length_append, List.length_append]
  omega

theorem uint32Pack_length (v : UInt32) : (uint32Pack v).length = uint32Size v := by
  rw [uint32Pack_eq, uint32Size_eq]

theorem wireTagPack_length (id : UInt32) (wireType : UInt8) : (wireTagPack id wireType).length = getTagSize id := by
  have plain : (wireTagPack id 0).length = getTagSize id := by
    rw [wireTagPack_eq id (by decide), getTagSize_eq id (show (0 : UInt8).toNat < 8 by decide)]
  rw [← plain, wireTagPack, wireTagPack, List.length_modifyHead, List.length_modifyHead]

theorem prefixedPack_length (data : List UInt8) : (prefixedPack data).length = prefixedSize data.length := by
  rw [prefixedPack, List.length_append, uint32Pack_length, prefixedSize]

variable {δ : Type} {μ : δ → Type} {subPack : (d : δ) → μ d → List UInt8} {subSize : (d : δ) → μ d → Nat}

theorem requiredPack_length (sub : ∀ d m, (subPack d m).length = subSize d m) (t : FieldType δ)
    (member : t.Required μ) : (requiredPack subPack t member).length = requiredSize subSize t member := by
  cases t with
  | scalar t => exact scalarPack_length t member
  | string =>
    cases member with
    | none => rfl
    | some s => exact prefixedPack_length s.bytes
  | bytes => exact prefixedPack_length member
  | message d =>
    cases member with
    | none => rfl
    | some m =>
      change (prefixedPack (subPack d m)).length = prefixedSize (subSize d m)
      rw [prefixedPack_length, sub]

theorem requiredFieldPack_length (sub : ∀ d m, (subPack d m).length = subSize d m) (f : FieldDescriptor δ)
    (member : f.type.Required μ) :
    (requiredFieldPack subPack f member).length = requiredFieldGetPackedSize subSize f member := by
  rw [requiredFieldPack, List.length_append, wireTagPack_length, requiredPack_length sub,
    requiredFieldGetPackedSize]

theorem optionalFieldPack_length (sub : ∀ d m, (subPack d m).length = subSize d m) (f : FieldDescriptor δ)
    (member : f.type.Optional μ) :
    (optionalFieldPack subPack f member).length = optionalFieldGetPackedSize subSize f member := by
  unfold optionalFieldPack optionalFieldGetPackedSize
  split
  · exact requiredFieldPack_length sub f _
  · rfl

theorem repeatedFieldPack_length (sub : ∀ d m, (subPack d m).length = subSize d m) (f : FieldDescriptor δ)
    (array : List (f.type.Element μ)) :
    (repeatedFieldPack subPack f array).length = repeatedFieldGetPackedSize subSize f array := by
  have payload : (array.flatMap fun a => requiredPack subPack f.type (f.type.required a)).length =
      (array.map fun a => requiredSize subSize f.type (f.type.required a)).sum := by
    rw [List.length_flatMap]
    simp only [requiredPack_length sub]
  have fields : (array.flatMap fun a => requiredFieldPack subPack f (f.type.required a)).length =
      getTagSize f.id * array.length +
        (array.map fun a => requiredSize subSize f.type (f.type.required a)).sum := by
    rw [List.length_flatMap]
    simp only [requiredFieldPack_length sub, requiredFieldGetPackedSize]
    clear payload
    induction array with
    | nil => rfl
    | cons a array ih =>
      simp only [List.map_cons, List.sum_cons, List.length_cons, Nat.mul_succ, ih]
      omega
  unfold repeatedFieldPack repeatedFieldGetPackedSize
  split_ifs with packed empty empty
  · rfl
  · rw [List.length_append, wireTagPack_length, prefixedPack_length, payload, prefixedSize]
    exact (Nat.add_assoc ..).symm
  · rw [List.length_eq_zero_iff.mp empty]
    rfl
  · exact fields

theorem fieldPack_length (sub : ∀ d m, (subPack d m).length = subSize d m) (f : FieldDescriptor δ)
    (member : f.type.Member μ f.label) :
    (fieldPack subPack f member).length = fieldGetPackedSize subSize f member := by
  obtain ⟨id, label, type, value, packed, numbered, packable⟩ := f
  cases label with
  | required => exact requiredFieldPack_length sub _ _
  | optional => exact optionalFieldPack_length sub _ _
  | repeated => exact repeatedFieldPack_length sub _ _

theorem recordPack_length (sub : ∀ d m, (subPack d m).length = subSize d m) (d : MessageDescriptor δ)
    (message : Record μ d) : (recordPack subPack d message).length = recordGetPackedSize subSize d message := by
  have unknown : (message.unknown.map fun field => (unknownFieldPack field).length) =
      message.unknown.map unknownFieldGetPackedSize := by
    apply List.map_congr_left
    intro field _
    rw [unknownFieldPack, List.length_append, wireTagPack_length, unknownFieldGetPackedSize]
  rw [recordPack, List.length_append, List.length_flatMap, List.length_flatMap, unknown, recordGetPackedSize]
  simp only [fieldPack_length sub]

end Fields

/-- Exactly the bytes are written that `protobuf_c_message_get_packed_size` counts. -/
theorem messagePack_length (n : Nat) (d : Descriptor n) (message : Message n d) :
    (messagePack n d message).length = messageGetPackedSize n d message := by
  induction n with
  | zero => exact nomatch d
  | succ n ih => exact recordPack_length ih d message

/-- Packed values take no more than one byte more for their length than was kept free
for it, as `repeated_field_pack` asserts. -/
theorem packed_length_estimate (t : ScalarType) (array : List t.Value)
    (fits : (array.flatMap (scalarPack t)).length < 2 ^ 32) :
    uint32Size (.ofNat (array.flatMap (scalarPack t)).length) = uint32Size (.ofNat (t.minSize * array.length)) ∨
      uint32Size (.ofNat (array.flatMap (scalarPack t)).length) =
        uint32Size (.ofNat (t.minSize * array.length)) + 1 := by
  have least (v : t.Value) : t.minSize ≤ (scalarPack t v).length := by
    cases t
    case sfixed32 | fixed32 | float | sfixed64 | fixed64 | double => exact Nat.le_refl _
    case bool => exact Nat.le_refl 1
    all_goals
      rw [scalarPack_varint rfl]
      exact encode_length_pos _
  have most (v : t.Value) : (scalarPack t v).length ≤ 10 * t.minSize := by
    cases t
    case sfixed32 | fixed32 | float | sfixed64 | fixed64 | double =>
      exact Nat.le_mul_of_pos_left _ (by decide)
    case bool => exact (by decide : 1 ≤ 10)
    all_goals
      rw [scalarPack_varint rfl]
      exact encode_short (ScalarType.extended_lt _ v)
  have low : t.minSize * array.length ≤ (array.flatMap (scalarPack t)).length := by
    rw [List.length_flatMap]
    clear fits
    induction array with
    | nil => simp
    | cons v array ih =>
      have here := least v
      simp only [List.map_cons, List.sum_cons, List.length_cons, Nat.mul_succ]
      omega
  have high : (array.flatMap (scalarPack t)).length ≤ 10 * (t.minSize * array.length) := by
    rw [List.length_flatMap]
    clear fits low
    induction array with
    | nil => simp
    | cons v array ih =>
      have here := most v
      simp only [List.map_cons, List.sum_cons, List.length_cons, Nat.mul_succ]
      omega
  generalize (array.flatMap (scalarPack t)).length = size at *
  generalize t.minSize * array.length = estimate at *
  simp only [uint32Size, UInt32.toNat_ofNat', Nat.mod_eq_of_lt fits,
    Nat.mod_eq_of_lt (show estimate < 2 ^ 32 by omega)]
  split_ifs <;> omega

theorem packed_length_estimate_sample :
    uint32Size (.ofNat (([1, 300] : List UInt32).flatMap uint32Pack).length) = uint32Size (.ofNat (1 * 2)) ∨
      uint32Size (.ofNat (([1, 300] : List UInt32).flatMap uint32Pack).length) = uint32Size (.ofNat (1 * 2)) + 1 :=
  packed_length_estimate .uint32 (show List UInt32 from [1, 300]) (by decide)

end ProtobufC

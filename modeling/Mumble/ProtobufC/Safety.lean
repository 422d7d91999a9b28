import Mumble.ProtobufC.Accepted
import Mumble.MumbleProto

/-! Unpacking reads no byte outside of the data and writes no array beyond its end, for
any data that holds no length which wraps. Such a length in front of the values of a
repeated field is read out of bounds. -/
namespace ProtobufC
open CExec Base128

section Values
variable {α : Type} (parse : List UInt8 → α)

end Values

section Parse
variable {δ : Type} {μ : δ → Type} {subUnpack : (d : δ) → Nat → List UInt8 → Run (Option (μ d))}
  {merge : (d : δ) → μ d → μ d → μ d}

/-- Where the second pass finds the data of a member behind its length. -/
theorem Kept.body {fields : Nat} {r : WireRecord} {s : ScannedMember fields} (kept : Kept r s) :
    toUnsigned (toUnsigned s.len - s.lengthPrefixLen) = r.body.length ∧
      toSize (s.len - s.lengthPrefixLen) = r.body.length ∧
      ∃ rest, s.data.drop s.lengthPrefixLen = r.body ++ rest := by
  have sizes := r.prefLen_le
  have short := r.payload_short
  obtain ⟨rest, data⟩ := kept.data
  rw [kept.len, kept.prefLen, WireRecord.body, List.length_drop]
  refine ⟨?_, ?_, rest, ?_⟩
  · rw [toUnsigned_natCast, Nat.mod_eq_of_lt short, toUnsigned]
    omega
  · rw [toSize]
    omega
  · rw [data, List.drop_append_of_le_length sizes]

/-- The places of an array that are taken. -/
def filled : (t : FieldType δ) → (label : Label) → t.Member μ label → Nat
  | _, .repeated, (array : List _) => array.length
  | _, .required, _ | _, .optional, _ => 0

section Arrays
variable {d : MessageDescriptor δ} {r : WireRecord} {s : ScannedMember d.nFields} {id : UInt32} {packed : Bool}
  {numbered : id.toNat < 2 ^ 29} {n capacity : Nat}

end Arrays

section Members
variable {d : MessageDescriptor δ}

end Members

end Parse

section Overlong
variable {δ : Type} {d : MessageDescriptor δ}

/-- The length in front of an array wraps to a size of four bytes or less with its own
bytes, and so the rest is negative. -/
theorem scanData_overlong {rem : Nat} {back : List UInt8} (long : overlong back = true) (inside : rem ≤ back.length)
    (five : 5 ≤ rem) : ∃ len, scanData wireTypeLengthPrefixed rem back = .ok (some (len, 5)) ∧ 0 < len ∧ len < 5 := by
  obtain ⟨whole, near⟩ := overlong_iff.mp long
  have bound := value_lt (back.take 5)
  have length : (back.take 5).length = 5 := by
    rw [List.length_take]
    omega
  have found : wholeLength (min 5 rem) back = some 5 := by
    have front := wholeLength_append whole (show (back.take 5).length ≤ min 5 rem by omega) (back.drop 5)
    rwa [List.take_append_drop, length] at front
  refine ⟨(5 + value (back.take 5)) % 2 ^ 32, ?_, by omega, by omega⟩
  rw [scanData, if_neg (by decide), if_neg (by decide), if_pos rfl, scanLengthPrefixedData_some inside found, ok_bind]
  dsimp only
  rw [if_neg (show ¬ (5 + value (back.take 5)) % 2 ^ 32 > rem by omega), if_neg (by omega)]

/-- As many values are counted as there are in memory. -/
theorem countField_overlong {fields : Nat} {f : FieldDescriptor δ} {t : ScalarType} (type : f.type = .scalar t)
    (varint : t.wireType = wireTypeVarint) (number : t ≠ .bool) {tmp : ScannedMember fields}
    (wire : tmp.wireType = wireTypeLengthPrefixed) (prefLen : tmp.lengthPrefixLen = 5) (some : 0 < tmp.len)
    (short : tmp.len < 5) (small : tmp.data.length < 2 ^ 63) : countField f tmp = .error .outOfBounds := by
  have several : readPacked f tmp.wireType = true := by
    rw [readPacked, wire, type]
    exact Bool.or_true _
  have beyond : slice (tmp.data.drop tmp.lengthPrefixLen) (toSize (tmp.len - tmp.lengthPrefixLen)) =
      .error .outOfBounds := by
    rw [slice, if_neg]
    rw [List.length_drop, toSize]
    omega
  rw [countField, if_pos several, type]
  cases t
  case bool => exact absurd rfl number
  case sfixed32 | sfixed64 | fixed32 | fixed64 | float | double => cases varint
  all_goals rw [countPackedElements, beyond, error_bind]

/-- Such a length is the last that the first pass reads. -/
theorem scanMember_overlong {i : Fin d.nFields} (repeated : (d.field i).label = .repeated) {t : ScalarType}
    (type : (d.field i).type = .scalar t) (varint : t.wireType = wireTypeVarint) (number : t ≠ .bool)
    {back : List UInt8} (long : overlong back = true) (small : back.length < 2 ^ 63) {s : Scan d.nFields} {k : Nat}
    (room : s.Room (k + 1)) :
    scanMember d s (wireTagPack (d.field i).id wireTypeLengthPrefixed ++ back).length
      (wireTagPack (d.field i).id wireTypeLengthPrefixed ++ back) = .error .outOfBounds := by
  have five : 5 ≤ back.length := by
    obtain _ | ⟨b₀, _ | ⟨b₁, _ | ⟨b₂, _ | ⟨b₃, _ | ⟨b₄, rest⟩⟩⟩⟩⟩ := back
    all_goals try cases long
    simp only [List.length_cons]
    omega
  have tag_pos := wireTagPack_pos (d.field i).id (show wireTypeLengthPrefixed.toNat < 8 by decide)
  have tag_read := parseTagAndWiretype_tag (d.field i).id (show wireTypeLengthPrefixed.toNat < 8 by decide)
    (List.length_append ▸ Nat.le_add_right _ back.length) (Nat.le_refl (_ ++ back).length)
  have drop : (wireTagPack (d.field i).id wireTypeLengthPrefixed ++ back).drop
      (wireTagPack (d.field i).id wireTypeLengthPrefixed).length = back := List.drop_left
  generalize wireTagPack (d.field i).id wireTypeLengthPrefixed = tag at tag_pos tag_read drop ⊢
  obtain ⟨len, extent, len_pos, short⟩ := scanData_overlong long (Nat.le_refl _) five
  have places := room.places
  obtain ⟨whichSlab, inSlabIndex, slot, -⟩ := nextSlot_some room.slab room.index (by omega)
  have counted : countMember d ⟨(d.field i).id, wireTypeLengthPrefixed, 5, fieldOf d (d.field i).id, len,
      (tag ++ back).drop tag.length⟩ s.counts = .error .outOfBounds := by
    have field : countField (d.field i) (⟨(d.field i).id, wireTypeLengthPrefixed, 5, some i, len, back⟩ :
        ScannedMember d.nFields) = .error .outOfBounds :=
      countField_overlong type varint number rfl rfl len_pos short small
    rw [countMember, fieldOf_field, drop]
    dsimp only
    rw [if_neg (by simpa using repeated), field, error_bind]
  have extent : scanData wireTypeLengthPrefixed ((tag ++ back).length - tag.length) ((tag ++ back).drop tag.length) =
      .ok (some (len, 5)) := by
    rw [drop, List.length_append, Nat.add_sub_cancel_left]
    exact extent
  rw [scanMember_round tag_read tag_pos extent slot counted]
  rfl

end Overlong

/-- Behind members that are whole, such a length in front of the numbers of a repeated
field lets every message be read out of bounds. -/
theorem messageUnpack_overlong (n : Nat) (d : MessageDescriptor (Descriptor n)) (records : List WireRecord)
    (countable : ∀ r ∈ records, Countable d r) (room : records.length < slabsSize) (i : Fin d.nFields)
    (repeated : (d.field i).label = .repeated) {t : ScalarType} (type : (d.field i).type = .scalar t)
    (varint : t.wireType = wireTypeVarint) (number : t ≠ .bool) (back data : List UInt8)
    (long : overlong back = true) (small : data.length < 2 ^ 63)
    (split : data = records.flatMap WireRecord.bytes ++
      (wireTagPack (d.field i).id wireTypeLengthPrefixed ++ back)) :
    messageUnpack (n + 1) d data.length data = .error .outOfBounds := by
  have total : data.length = (records.flatMap WireRecord.bytes).length +
      (wireTagPack (d.field i).id wireTypeLengthPrefixed ++ back).length := by
    rw [split, List.length_append]
  have tag_pos := wireTagPack_pos (d.field i).id (show wireTypeLengthPrefixed.toNat < 8 by decide)
  have sizes : (wireTagPack (d.field i).id wireTypeLengthPrefixed ++ back).length =
      (wireTagPack (d.field i).id wireTypeLengthPrefixed).length + back.length := List.length_append
  let start : Scan d.nFields :=
    ⟨if first : 0 < d.nFields then some ⟨0, first⟩ else none, fun _ => false, fun _ => 0, 0, 0, []⟩
  have slots : start.Room (records.length + 1) := by
    refine ⟨Nat.zero_le _, Nat.zero_le _, ?_⟩
    change 0 + (records.length + 1) ≤ slabsSize
    omega
  have counts (i : Fin d.nFields) : start.counts i + tally d i records < 2 ^ 64 := by
    have most := (tally_le i records).trans (payloads_le records)
    change 0 + tally d i records < 2 ^ 64
    omega
  obtain ⟨s, fuel, scanned, enough, -, room⟩ := scanLoop_append countable slots counts
    (show (records.flatMap WireRecord.bytes).length +
      (wireTagPack (d.field i).id wireTypeLengthPrefixed ++ back).length < data.length + 1 by omega) (Nat.le_refl _)
  obtain ⟨fuel, rfl⟩ : ∃ fewer, fuel = fewer + 1 := ⟨fuel - 1, by omega⟩
  have last : scanLoop d (fuel + 1) s (wireTagPack (d.field i).id wireTypeLengthPrefixed ++ back).length
      (wireTagPack (d.field i).id wireTypeLengthPrefixed ++ back) = .error .outOfBounds := by
    rw [scanLoop, if_pos (by omega), scanMember_overlong repeated type varint number long (by omega) room]
    rfl
  rw [← split, ← total, last] at scanned
  have fault : scanMembers d data.length data = .error .outOfBounds := scanned
  change (scanMembers d data.length data >>= fun scan => _) = _
  rw [fault]
  rfl

/-- One session, and then the length of as many as there are in memory. -/
theorem messageUnpack_overlong_sample :
    messageUnpack 2 MumbleProto.requestBlob (List.length [0x08, 5, 0x0A, 0xFF, 0xFF, 0xFF, 0xFF, 0x0F])
      [0x08, 5, 0x0A, 0xFF, 0xFF, 0xFF, 0xFF, 0x0F] = .error .outOfBounds :=
  messageUnpack_overlong 1 MumbleProto.requestBlob
    [⟨1, wireTypeVarint, [5], 0, .varint (.last (by decide)) (by decide)⟩] (by unfold Countable; decide) (by decide)
    ⟨0, by decide⟩ rfl rfl (rfl : ScalarType.uint32.wireType = _) (by decide) [0xFF, 0xFF, 0xFF, 0xFF, 0x0F]
    [0x08, 5, 0x0A, 0xFF, 0xFF, 0xFF, 0xFF, 0x0F] (by decide) (by decide) (by decide)

end ProtobufC

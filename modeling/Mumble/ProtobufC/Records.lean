import Mumble.ProtobufC.Scanning

/-! The records of which packed data consists, and what the first pass makes of each
and of a sequence of them. -/
namespace ProtobufC
open CExec Base128

/-- The data of a member on the wire, of which the first bytes may be the length of the
others. -/
inductive Payload : UInt8 → List UInt8 → Nat → Prop where
  | varint {digits : List UInt8} (whole : Whole digits) (short : digits.length ≤ 10) :
      Payload wireTypeVarint digits 0
  | fixed64 {bytes : List UInt8} (size : bytes.length = 8) : Payload wireType64bit bytes 0
  | prefixed {digits body : List UInt8} (whole : Whole digits) (short : digits.length ≤ 5)
      (size : value digits % 2 ^ 32 = body.length) (fits : digits.length + body.length < 2 ^ 32) :
      Payload wireTypeLengthPrefixed (digits ++ body) digits.length
  | fixed32 {bytes : List UInt8} (size : bytes.length = 4) : Payload wireType32bit bytes 0

/-- A length so near to `2 ^ 32` that the sum with that of its own bytes wraps. -/
structure Wrapped (wireType : UInt8) (data : List UInt8) (len prefLen : Nat) : Prop where
  prefixed : wireType = wireTypeLengthPrefixed
  five : prefLen = 5
  whole : Whole (data.take 5)
  near : value (data.take 5) % 2 ^ 32 + 5 = 2 ^ 32 + len
  some : 0 < len

section Payload
variable {wireType : UInt8} {rem : Nat}

theorem Payload.length_pos {bytes : List UInt8} {p : Nat} (payload : Payload wireType bytes p) :
    0 < bytes.length := by
  cases payload with
  | varint whole => exact whole.length_pos
  | fixed64 size => omega
  | prefixed whole =>
    have some := whole.length_pos
    rw [List.length_append]
    omega
  | fixed32 size => omega

theorem Payload.wireType_lt {bytes : List UInt8} {p : Nat} (payload : Payload wireType bytes p) :
    wireType.toNat < 8 := by
  cases payload <;> decide

theorem min_ten (rem : Nat) : (if rem < 10 then rem else 10) = min 10 rem := by
  split_ifs <;> omega

/-- The first pass finds the end of a member's data. -/
theorem scanData_payload {bytes rest : List UInt8} {p : Nat} (payload : Payload wireType bytes p)
    (fits : bytes.length ≤ rem) (inside : rem ≤ (bytes ++ rest).length) :
    scanData wireType rem (bytes ++ rest) = .ok (some (bytes.length, p)) := by
  cases payload with
  | varint whole short =>
    have some := whole.length_pos
    have found := wholeLength_append whole (show bytes.length ≤ min 10 rem by omega) rest
    have scanned := scanTerminator_eq (i := 0) (show min 10 rem ≤ ((bytes ++ rest).drop 0).length by
      rw [List.drop_zero]; omega)
    simp only [List.drop_zero, found, Option.elim_some, Nat.zero_add] at scanned
    rw [scanData, if_pos rfl, min_ten]
    dsimp only
    rw [scanned, ok_bind, if_neg (by omega), Nat.sub_add_cancel some]
  | fixed64 size =>
    rw [scanData, if_neg (by decide), if_pos rfl, if_neg (by omega), size]
  | @prefixed digits body whole short size _ =>
    have some := whole.length_pos
    rw [List.length_append] at fits
    have found := wholeLength_append whole (show digits.length ≤ min 5 rem by omega) (body ++ rest)
    rw [← List.append_assoc] at found
    have front : (digits ++ body ++ rest).take digits.length = digits := by
      rw [List.append_assoc, List.take_left]
    have total : (digits.length + value digits) % 2 ^ 32 = digits.length + body.length := by omega
    rw [scanData, if_neg (by decide), if_neg (by decide), if_pos rfl,
      scanLengthPrefixedData_some inside found, front, total, ok_bind]
    dsimp only
    rw [if_neg (show ¬ digits.length + body.length > rem by omega), if_neg (by omega), List.length_append]
  | fixed32 size =>
    rw [scanData, if_neg (by decide), if_neg (by decide), if_neg (by decide), if_pos rfl,
      if_neg (by omega), size]

theorem scanData_varint_cases {data : List UInt8} (inside : rem ≤ data.length) :
    scanData wireTypeVarint rem data = .ok none ∨ ∃ k,
      scanData wireTypeVarint rem data = .ok (some (k, 0)) ∧ k ≤ rem ∧ Payload wireTypeVarint (data.take k) 0 := by
  have scanned := scanTerminator_eq (i := 0) (show min 10 rem ≤ (data.drop 0).length by
    rw [List.drop_zero]; omega)
  rw [List.drop_zero, Nat.zero_add] at scanned
  rw [scanData, if_pos rfl, min_ten]
  dsimp only
  rw [scanned, ok_bind]
  cases found : wholeLength (min 10 rem) data with
  | none => exact .inl (if_pos rfl)
  | some k =>
    obtain ⟨most, within, whole⟩ := wholeLength_some found
    have some := whole.length_pos
    rw [List.length_take] at some
    refine .inr ⟨k, ?_, by omega, .varint whole (by rw [List.length_take]; omega)⟩
    rw [Option.elim_some, if_neg (by omega), Nat.zero_add, Nat.sub_add_cancel (by omega)]

/-- Data of `k` bytes of length and of the length that they say, if their sum does not wrap. -/
theorem Payload.of_length {data : List UInt8} {k : Nat} (within : k ≤ data.length) (whole : Whole (data.take k))
    (five : k ≤ 5) (inside : k + value (data.take k) % 2 ^ 32 ≤ data.length)
    (fits : k + value (data.take k) % 2 ^ 32 < 2 ^ 32) :
    Payload wireTypeLengthPrefixed (data.take (k + value (data.take k) % 2 ^ 32)) k := by
  have size : (data.take k).length = k := by
    rw [List.length_take]
    omega
  have body : ((data.drop k).take (value (data.take k) % 2 ^ 32)).length = value (data.take k) % 2 ^ 32 := by
    rw [List.length_take, List.length_drop]
    omega
  have payload := Payload.prefixed whole (by omega) body.symm (by omega)
  rwa [← List.take_add, size] at payload

theorem scanData_prefixed_cases {data : List UInt8} (inside : rem ≤ data.length) :
    scanData wireTypeLengthPrefixed rem data = .ok none ∨ ∃ len prefLen,
      scanData wireTypeLengthPrefixed rem data = .ok (some (len, prefLen)) ∧ len ≤ rem ∧
        (Payload wireTypeLengthPrefixed (data.take len) prefLen ∨
          (Wrapped wireTypeLengthPrefixed data len prefLen ∧ 5 ≤ rem)) := by
  rw [scanData, if_neg (by decide), if_neg (by decide), if_pos rfl]
  cases found : wholeLength (min 5 rem) data with
  | none =>
    rw [scanLengthPrefixedData_none inside found, ok_bind]
    exact .inl rfl
  | some k =>
    obtain ⟨most, within, whole⟩ := wholeLength_some found
    have some := whole.length_pos
    have size : (data.take k).length = k := by
      rw [List.length_take]
      omega
    rw [scanLengthPrefixedData_some inside found, ok_bind]
    dsimp only
    generalize total : (k + value (data.take k)) % 2 ^ 32 = sum
    by_cases refused : sum > rem ∨ sum = 0
    · rw [if_pos (by split_ifs <;> omega)]
      exact .inl rfl
    · rw [if_neg (show ¬ sum > rem by omega), if_neg (show sum ≠ 0 by omega)]
      refine .inr ⟨sum, k, rfl, by omega, ?_⟩
      by_cases wraps : k + value (data.take k) % 2 ^ 32 < 2 ^ 32
      · left
        obtain rfl : sum = k + value (data.take k) % 2 ^ 32 := by omega
        exact .of_length within whole (by omega) (by omega) wraps
      · right
        have bound := value_lt (data.take k)
        rw [size] at bound
        have five : k = 5 := by
          by_contra other
          have power : 128 ^ k ≤ 128 ^ 4 := Nat.pow_le_pow_right (by decide) (by omega)
          omega
        subst five
        exact ⟨⟨rfl, rfl, whole, by omega, by omega⟩, by omega⟩

/-- Whatever the data is, its first member is refused, whole or of a length that wraps. -/
theorem scanData_cases (wireType : UInt8) {data : List UInt8} (inside : rem ≤ data.length) :
    scanData wireType rem data = .ok none ∨ ∃ len prefLen,
      scanData wireType rem data = .ok (some (len, prefLen)) ∧ len ≤ rem ∧
        (Payload wireType (data.take len) prefLen ∨ (Wrapped wireType data len prefLen ∧ 5 ≤ rem)) := by
  by_cases varint : wireType = wireTypeVarint
  · subst varint
    rcases scanData_varint_cases inside with refused | ⟨k, extent, within, payload⟩
    · exact .inl refused
    · exact .inr ⟨k, 0, extent, within, .inl payload⟩
  by_cases wide : wireType = wireType64bit
  · subst wide
    rw [scanData, if_neg varint, if_pos rfl]
    by_cases short : rem < 8
    · exact .inl (by rw [if_pos short])
    · refine .inr ⟨8, 0, by rw [if_neg short], by omega, .inl (.fixed64 ?_)⟩
      rw [List.length_take]
      omega
  by_cases pref : wireType = wireTypeLengthPrefixed
  · subst pref
    exact scanData_prefixed_cases inside
  by_cases narrow : wireType = wireType32bit
  · subst narrow
    rw [scanData, if_neg varint, if_neg wide, if_neg pref, if_pos rfl]
    by_cases short : rem < 4
    · exact .inl (by rw [if_pos short])
    · refine .inr ⟨4, 0, by rw [if_neg short], by omega, .inl (.fixed32 ?_)⟩
      rw [List.length_take]
      omega
  · exact .inl (by rw [scanData, if_neg varint, if_neg wide, if_neg pref, if_neg narrow])

end Payload

section Fields
variable {δ : Type} (d : MessageDescriptor δ)

/-- The field with a number. -/
def fieldOf (tag : UInt32) : Option (Fin d.nFields) :=
  (List.finRange d.nFields).find? fun i => (d.field i).id = tag

variable {d}

theorem field_injective {i j : Fin d.nFields} (same : (d.field i).id = (d.field j).id) : i = j := by
  have ascending := List.pairwise_iff_getElem.mp d.ascending
  rcases Nat.lt_trichotomy i.val j.val with less | equal | more
  · have order : (d.field i).id < (d.field j).id := ascending i j i.isLt j.isLt less
    rw [same] at order
    exact absurd order (UInt32.lt_irrefl _)
  · exact Fin.ext equal
  · have order : (d.field j).id < (d.field i).id := ascending j i j.isLt i.isLt more
    rw [same] at order
    exact absurd order (UInt32.lt_irrefl _)

theorem fieldOf_field (i : Fin d.nFields) : fieldOf d (d.field i).id = some i := by
  cases found : fieldOf d (d.field i).id with
  | none =>
    have missing := List.find?_eq_none.mp found i (List.mem_finRange i)
    simp at missing
  | some j =>
    have same := List.find?_some found
    rw [field_injective (of_decide_eq_true same)]

theorem fieldOf_some {tag : UInt32} {i : Fin d.nFields} (found : fieldOf d tag = some i) :
    (d.field i).id = tag := by
  simpa using List.find?_some found

/-- The search by halves in the generated ranges, and the field that is remembered from
the member before, give the field that has the number, for every order of the members. -/
theorem findField_eq (last : Option (Fin d.nFields)) (tag : UInt32) :
    findField d last tag = .ok (fieldOf d tag) := by
  have ascending : (d.fields.map fun f => (f.id.toNat : Int)).Pairwise (· < ·) := by
    rw [List.pairwise_map]
    exact d.ascending.imp fun less => Int.ofNat_lt.mpr less
  have number (i : Fin d.nFields) :
      (d.fields.map fun f => (f.id.toNat : Int))[i.val]? = some ((d.field i).id.toNat : Int) := by
    rw [List.getElem?_map, List.getElem?_eq_getElem i.isLt]
    rfl
  have signed : tag.toInt32.toInt = (tag.toNat : Int).bmod (2 ^ 32) := BitVec.toInt_eq_toNat_bmod tag.toBitVec
  unfold findField
  split_ifs with other
  · obtain ⟨result, found, located⟩ := intRangeLookup_located ascending tag.toInt32.toInt
    have looked : intRangeLookup d.nFieldRanges d.fieldRanges tag.toInt32.toInt = .ok result := found
    rw [looked, ok_bind]
    rcases located with ⟨rfl, missing⟩ | ⟨i, rfl, here⟩
    · rw [if_pos (by decide)]
      cases absent : fieldOf d tag with
      | none => rfl
      | some i =>
        have same := fieldOf_some absent
        have small := (d.field i).numbered
        have member := List.mem_of_getElem? (number i)
        rw [same] at small member
        rw [signed, Int.bmod_def, if_pos (by omega), Int.emod_eq_of_lt (by omega) (by omega)] at missing
        exact absurd member missing
    · have inside : i < d.nFields := by
        have bound := (List.getElem?_eq_some_iff.mp here).1
        rwa [List.length_map] at bound
      have range := tag.toNat_lt
      have small := (d.field ⟨i, inside⟩).numbered
      rw [number ⟨i, inside⟩, Option.some.injEq, signed, Int.bmod_def] at here
      have same : (d.field ⟨i, inside⟩).id = tag := by
        apply UInt32.toNat_inj.mp
        split_ifs at here <;> omega
      have back : ((i : Int)).toNat = i := Int.toNat_natCast i
      rw [if_neg (by omega), dif_pos (by omega)]
      rw [← same, fieldOf_field]
      simp
  · cases last with
    | none => simp at other
    | some i =>
      have same : (d.field i).id = tag := by simpa using other
      rw [← same, fieldOf_field]

/-- The ranges that are generated for a message, searched by halves, and the field of the
member before, lead from every number to the one field that has it, or to none. -/
theorem field_lookup (d : MessageDescriptor δ) (last : Option (Fin d.nFields)) (tag : UInt32) :
    ∃ result, findField d last tag = .ok result ∧ ∀ i, result = some i ↔ (d.field i).id = tag := by
  refine ⟨fieldOf d tag, findField_eq last tag, fun i => ⟨fieldOf_some, ?_⟩⟩
  intro same
  rw [← same]
  exact fieldOf_field i

end Fields

theorem wireTagPack_pos (tag : UInt32) {wireType : UInt8} (small : wireType.toNat < 8) :
    0 < (wireTagPack tag wireType).length := by
  rw [wireTagPack_eq tag small]
  exact encode_length_pos _

/-- A member as it stands on the wire. -/
structure WireRecord where
  tag : UInt32
  wireType : UInt8
  payload : List UInt8
  prefLen : Nat
  extent : Payload wireType payload prefLen

namespace WireRecord

def bytes (r : WireRecord) : List UInt8 := wireTagPack r.tag r.wireType ++ r.payload

/-- The data without the length in front. -/
def body (r : WireRecord) : List UInt8 := r.payload.drop r.prefLen

theorem bytes_length (r : WireRecord) : r.payload.length + 1 ≤ r.bytes.length := by
  have tag := wireTagPack_pos r.tag r.extent.wireType_lt
  rw [bytes, List.length_append]
  omega

theorem prefLen_le (r : WireRecord) : r.prefLen ≤ r.payload.length := by
  obtain ⟨tag, wireType, payload, prefLen, extent⟩ := r
  cases extent with
  | prefixed =>
    dsimp only
    rw [List.length_append]
    omega
  | _ => exact Nat.zero_le _

theorem payload_short (r : WireRecord) : r.payload.length < 2 ^ 32 := by
  obtain ⟨tag, wireType, payload, prefLen, extent⟩ := r
  cases extent with
  | varint whole short => exact Nat.lt_of_le_of_lt short (by decide)
  | fixed64 size => exact size ▸ by decide
  | prefixed whole short size fits =>
    dsimp only
    rwa [List.length_append]
  | fixed32 size => exact size ▸ by decide

end WireRecord

section Count
variable {δ : Type}

/-- The values in packed data, if it can be such data. -/
def packedCount : FieldType δ → List UInt8 → Option Nat
  | .scalar .sfixed32, body | .scalar .fixed32, body | .scalar .float, body =>
    if body.length % 4 ≠ 0 then none else some (body.length / 4)
  | .scalar .sfixed64, body | .scalar .fixed64, body | .scalar .double, body =>
    if body.length % 8 ≠ 0 then none else some (body.length / 8)
  | .scalar .bool, body => some body.length
  | .scalar _, body => some (ends body)
  | .string, _ | .bytes, _ | .message _, _ => none

theorem ends_eq (bytes : List UInt8) : bytes.countP (fun b => decide (b &&& 0x80 = 0)) = ends bytes := by
  apply List.countP_congr
  intro b _
  simp only [decide_eq_true_eq]
  exact top_clear

theorem countPackedElements_eq (t : FieldType δ) (body rest : List UInt8) :
    countPackedElements t body.length (body ++ rest) = .ok (packedCount t body) := by
  cases t with
  | scalar t =>
    cases t
    all_goals first
      | rfl
      | simp only [countPackedElements, slice_length_append, ok_bind, packedCount, ends_eq]
  | string => rfl
  | bytes => rfl
  | message => rfl

theorem packedCount_le {t : FieldType δ} {body : List UInt8} {n : Nat} (counted : packedCount t body = some n) :
    n ≤ body.length := by
  have most : ends body ≤ body.length := List.countP_le_length
  cases t with
  | scalar t =>
    cases t
    case sfixed32 | fixed32 | float =>
      simp only [packedCount] at counted
      split_ifs at counted
      cases counted
      omega
    case sfixed64 | fixed64 | double =>
      simp only [packedCount] at counted
      split_ifs at counted
      cases counted
      omega
    all_goals
      cases counted
      first
        | exact most
        | exact Nat.le_refl _
  | string => cases counted
  | bytes => cases counted
  | message => cases counted

/-- The values of a repeated field in one member. -/
def elements (f : FieldDescriptor δ) (r : WireRecord) : Option Nat :=
  if f.label ≠ .repeated then some 0
  else if readPacked f r.wireType then packedCount f.type r.body
  else some 1

variable (d : MessageDescriptor δ)

def memberElements (i : Fin d.nFields) (r : WireRecord) : Nat :=
  if fieldOf d r.tag = some i then (elements (d.field i) r).getD 0 else 0

/-- The values of a field in a sequence of members. -/
def tally (i : Fin d.nFields) (records : List WireRecord) : Nat := (records.map (memberElements d i)).sum

/-- A member whose packed values can be counted, or that has none. -/
def Countable (r : WireRecord) : Prop :=
  ∀ i, fieldOf d r.tag = some i → (elements (d.field i) r).isSome

variable {d}

theorem memberElements_le (i : Fin d.nFields) (r : WireRecord) : memberElements d i r ≤ r.payload.length := by
  have some := r.extent.length_pos
  have within : r.body.length ≤ r.payload.length := by
    rw [WireRecord.body, List.length_drop]
    omega
  unfold memberElements elements
  split_ifs
  · exact Nat.zero_le _
  · cases counted : packedCount (d.field i).type r.body with
    | none => exact Nat.zero_le _
    | some n => exact (packedCount_le counted).trans within
  · exact some
  · exact Nat.zero_le _

theorem tally_le (i : Fin d.nFields) (records : List WireRecord) :
    tally d i records ≤ (records.map fun r => r.payload.length).sum := by
  induction records with
  | nil => exact Nat.le_refl _
  | cons r records ih =>
    have here := memberElements_le i r
    simp only [tally, List.map_cons, List.sum_cons] at ih ⊢
    omega

theorem payloads_le (records : List WireRecord) :
    (records.map fun r => r.payload.length).sum ≤ (records.flatMap WireRecord.bytes).length := by
  induction records with
  | nil => exact Nat.le_refl _
  | cons r records ih =>
    have longer := r.bytes_length
    simp only [List.map_cons, List.sum_cons, List.flatMap_cons, List.length_append] at ih ⊢
    omega

end Count

section Slabs

/-- The members that have been put before a place in the slabs. -/
def slotCount (whichSlab inSlabIndex : Nat) : Nat := 2 ^ (whichSlab + 4) - 16 + inSlabIndex

/-- As many members as all slabs hold. -/
def slabsSize : Nat := 2 ^ 27 - 16

/-- There is a place for the next member until all slabs are full. -/
theorem nextSlot_some {whichSlab inSlabIndex : Nat} (slab : whichSlab ≤ maxSlab)
    (index : inSlabIndex ≤ 2 ^ (whichSlab + 4)) (room : slotCount whichSlab inSlabIndex < slabsSize) :
    ∃ slab' index', nextSlot whichSlab inSlabIndex = some (slab', index') ∧ slab' ≤ maxSlab ∧
      index' ≤ 2 ^ (slab' + 4) ∧ slotCount slab' index' = slotCount whichSlab inSlabIndex + 1 := by
  have power : 2 ^ (whichSlab + 4) = 16 * 2 ^ whichSlab := by
    rw [Nat.pow_add]
    omega
  have positive : 0 < 2 ^ whichSlab := Nat.two_pow_pos _
  unfold nextSlot
  by_cases full : inSlabIndex = 2 ^ (whichSlab + firstSlabSizeLog2)
  · have double : 2 ^ (whichSlab + 1 + 4) = 2 * 2 ^ (whichSlab + 4) := by
      rw [Nat.add_right_comm, Nat.pow_succ]
      omega
    have full' : inSlabIndex = 2 ^ (whichSlab + 4) := full
    have more : whichSlab ≠ maxSlab := by
      rintro rfl
      rw [slotCount, full', slabsSize, maxSlab, firstSlabSizeLog2] at room
      omega
    refine ⟨whichSlab + 1, 1, by rw [if_pos full, if_neg more], by omega, by omega, ?_⟩
    unfold slotCount
    omega
  · have full' : inSlabIndex ≠ 2 ^ (whichSlab + 4) := full
    refine ⟨whichSlab, inSlabIndex + 1, by rw [if_neg full], slab, by omega, ?_⟩
    unfold slotCount
    omega

end Slabs

section Scan
variable {δ : Type} {d : MessageDescriptor δ}

/-- What the first pass keeps of a member on the wire. -/
structure Kept {fields : Nat} (r : WireRecord) (s : ScannedMember fields) : Prop where
  tag : s.tag = r.tag
  wireType : s.wireType = r.wireType
  prefLen : s.lengthPrefixLen = r.prefLen
  len : s.len = r.payload.length
  data : ∃ rest, s.data = r.payload ++ rest

structure Scanned (r : WireRecord) (s : ScannedMember d.nFields) : Prop extends Kept r s where
  field : s.field = fieldOf d r.tag

/-- The places that are left in the slabs. -/
structure Scan.Room (s : Scan d.nFields) (members : Nat) : Prop where
  slab : s.whichSlab ≤ maxSlab
  index : s.inSlabIndex ≤ 2 ^ (s.whichSlab + 4)
  places : slotCount s.whichSlab s.inSlabIndex + members ≤ slabsSize

/-- What `records` add to what has been kept. -/
structure Scan.After (s s' : Scan d.nFields) (records : List WireRecord) : Prop where
  members : ∃ more, s'.members = s.members ++ more ∧ List.Forall₂ Scanned records more
  counts : ∀ i, s'.counts i = s.counts i + tally d i records
  seen : ∀ i, s'.seen i = (s.seen i || records.any fun r => fieldOf d r.tag = some i)

/-- The values that are counted in a member of a repeated field. -/
theorem countField_record {r : WireRecord} {tmp : ScannedMember d.nFields} (kept : Kept r tmp)
    {f : FieldDescriptor δ} (repeated : f.label = .repeated) : countField f tmp = .ok (elements f r) := by
  have sizes := r.prefLen_le
  have short := r.payload_short
  obtain ⟨rest, data⟩ := kept.data
  have length : toSize (tmp.len - tmp.lengthPrefixLen : Int) = r.body.length := by
    rw [kept.len, kept.prefLen, WireRecord.body, List.length_drop, toSize]
    omega
  have drop : tmp.data.drop tmp.lengthPrefixLen = r.body ++ rest := by
    rw [data, kept.prefLen, WireRecord.body, List.drop_append_of_le_length sizes]
  rw [elements, if_neg (by simpa using repeated), countField, kept.wireType, length, drop, countPackedElements_eq]
  split_ifs <;> rfl

theorem countMember_record {r : WireRecord} (countable : Countable d r) {tmp : ScannedMember d.nFields}
    (scanned : Scanned r tmp) {counts : Fin d.nFields → Nat}
    (small : ∀ i, counts i + memberElements d i r < 2 ^ 64) :
    countMember d tmp counts = .ok (some fun i => counts i + memberElements d i r) := by
  unfold countMember
  rw [scanned.field]
  cases found : fieldOf d r.tag with
  | none => simp [memberElements, found]
  | some i =>
    have counted := countable i found
    obtain ⟨n, n_eq⟩ := Option.isSome_iff_exists.mp counted
    have here : memberElements d i r = n := by
      rw [memberElements, if_pos found, n_eq, Option.getD_some]
    have other (j : Fin d.nFields) (different : j ≠ i) : memberElements d j r = 0 := by
      rw [memberElements, if_neg]
      rw [found]
      simpa using different.symm
    dsimp only
    by_cases single : (d.field i).label = .repeated
    · have bound := small i
      rw [if_neg (by simpa using single), countField_record scanned.toKept single, n_eq, ok_bind]
      dsimp only
      congr 2
      funext j
      by_cases same : j = i
      · subst same
        rw [here] at bound
        rw [Function.update_self, here, toSize_natCast, Nat.mod_eq_of_lt bound]
      · rw [Function.update_of_ne same, other j same, Nat.add_zero]
    · rw [if_pos single]
      rw [elements, if_pos single] at n_eq
      cases n_eq
      congr 2
      funext j
      by_cases same : j = i
      · rw [same, here]
        rfl
      · rw [other j same]
        rfl

theorem countMember_uncountable {r : WireRecord} (uncountable : ¬ Countable d r) {tmp : ScannedMember d.nFields}
    (scanned : Scanned r tmp) (counts : Fin d.nFields → Nat) : countMember d tmp counts = .ok none := by
  rw [Countable] at uncountable
  push Not at uncountable
  obtain ⟨i, found, missing⟩ := uncountable
  have missing : elements (d.field i) r = none := by simpa using missing
  have repeated : (d.field i).label = .repeated := by
    by_contra single
    rw [elements, if_pos single] at missing
    cases missing
  unfold countMember
  rw [scanned.field, found]
  dsimp only
  rw [if_neg (by simpa using repeated), countField_record scanned.toKept repeated, missing, ok_bind]

theorem Scan.After.nil (s : Scan d.nFields) : s.After s [] where
  members := ⟨[], (List.append_nil _).symm, .nil⟩
  counts _ := rfl
  seen _ := by rw [List.any_nil, Bool.or_false]

theorem Scan.After.append {s s' s'' : Scan d.nFields} {front back : List WireRecord} (first : s.After s' front)
    (second : s'.After s'' back) : s.After s'' (front ++ back) := by
  obtain ⟨more, members, scanned⟩ := first.members
  obtain ⟨more', members', scanned'⟩ := second.members
  constructor
  · refine ⟨more ++ more', ?_, List.rel_append scanned scanned'⟩
    rw [members', members, List.append_assoc]
  · intro i
    simp only [second.counts i, first.counts i, tally, List.map_append, List.sum_append, Nat.add_assoc]
  · intro i
    rw [second.seen i, first.seen i, List.any_append, Bool.or_assoc]

theorem parseTagAndWiretype_tag (tag : UInt32) {wireType : UInt8} (small : wireType.toNat < 8) {rem : Nat}
    {rest : List UInt8} (fits : (wireTagPack tag wireType).length ≤ rem)
    (inside : rem ≤ (wireTagPack tag wireType ++ rest).length) :
    parseTagAndWiretype rem (wireTagPack tag wireType ++ rest) =
      .ok ((wireTagPack tag wireType).length, tag, wireType) := by
  have range := tag.toNat_lt
  have tag_eq := wireTagPack_eq tag small
  have five : (wireTagPack tag wireType).length ≤ 5 := by
    rw [tag_eq]
    exact encode_length_le.mpr (by omega)
  have whole : Whole (wireTagPack tag wireType) := tag_eq ▸ encode_whole _
  have found := wholeLength_append whole (show _ ≤ min 5 rem by omega) rest
  have number : value (wireTagPack tag wireType) = tag.toNat * 8 + wireType.toNat := by
    rw [tag_eq, value_encode]
  have high : (tag.toNat * 8 + wireType.toNat) / 8 = tag.toNat := by omega
  have low : (tag.toNat * 8 + wireType.toNat) % 8 = wireType.toNat := by omega
  rw [parseTagAndWiretype_some inside found, List.take_left, number, high, low, UInt32.ofNat_toNat,
    UInt8.ofNat_toNat]

/-- One round over a member of the data. -/
theorem scanMember_record {r : WireRecord} (countable : Countable d r) {s : Scan d.nFields} {room : Nat}
    (slots : s.Room (room + 1)) (small : ∀ i, s.counts i + memberElements d i r < 2 ^ 64) {rem : Nat}
    {rest : List UInt8} (fits : r.bytes.length ≤ rem) (inside : rem ≤ (r.bytes ++ rest).length) :
    ∃ s', scanMember d s rem (r.bytes ++ rest) = .ok (some (s', r.bytes.length)) ∧ s.After s' [r] ∧
      s'.Room room := by
  obtain ⟨slab, index, next, slab_le, index_le, count⟩ :=
    nextSlot_some slots.slab slots.index (Nat.lt_of_lt_of_le (by omega) slots.places)
  have some_tag := wireTagPack_pos r.tag r.extent.wireType_lt
  have drop : (r.bytes ++ rest).drop (wireTagPack r.tag r.wireType).length = r.payload ++ rest := by
    rw [WireRecord.bytes, List.append_assoc, List.drop_left]
  have sizes : r.bytes.length = (wireTagPack r.tag r.wireType).length + r.payload.length := by
    rw [WireRecord.bytes, List.length_append]
  have split : r.bytes ++ rest = wireTagPack r.tag r.wireType ++ (r.payload ++ rest) := by
    rw [WireRecord.bytes, List.append_assoc]
  have tag := parseTagAndWiretype_tag r.tag r.extent.wireType_lt (show _ ≤ rem by omega) (split ▸ inside)
  rw [← split] at tag
  rw [List.length_append] at inside
  have data : scanData r.wireType (rem - (wireTagPack r.tag r.wireType).length) (r.payload ++ rest) =
      .ok (some (r.payload.length, r.prefLen)) :=
    scanData_payload r.extent (by omega) (by rw [List.length_append]; omega)
  let tmp : ScannedMember d.nFields :=
    ⟨r.tag, r.wireType, r.prefLen, fieldOf d r.tag, r.payload.length, r.payload ++ rest⟩
  have scanned : Scanned r tmp := ⟨⟨rfl, rfl, rfl, rfl, rest, rfl⟩, rfl⟩
  have counted := countMember_record countable scanned small
  refine ⟨⟨(fieldOf d r.tag).or s.lastField, fun i => s.seen i || fieldOf d r.tag = some i,
    fun i => s.counts i + memberElements d i r, slab, index, s.members ++ [tmp]⟩, ?_, ?_, ?_⟩
  · rw [scanMember, tag, ok_bind]
    dsimp only
    rw [if_neg (by omega), findField_eq, ok_bind, drop, data, ok_bind]
    dsimp only
    rw [next]
    dsimp only
    rw [counted, ok_bind, sizes]
  · constructor
    · exact ⟨[tmp], rfl, .cons scanned .nil⟩
    · intro i
      simp [tally]
    · intro i
      simp
  · have places : slotCount slab index + room ≤ slabsSize := by
      have before := slots.places
      omega
    exact ⟨slab_le, index_le, places⟩

/-- The first pass goes over a sequence of members, and on behind them. -/
theorem scanLoop_append {records : List WireRecord} (countable : ∀ r ∈ records, Countable d r)
    {s : Scan d.nFields} {room : Nat} (slots : s.Room (records.length + room))
    (small : ∀ i, s.counts i + tally d i records < 2 ^ 64) {fuel rem : Nat} {rest : List UInt8}
    (enough : (records.flatMap WireRecord.bytes).length + rem < fuel) (inside : rem ≤ rest.length) :
    ∃ s' fuel', scanLoop d fuel s ((records.flatMap WireRecord.bytes).length + rem)
        (records.flatMap WireRecord.bytes ++ rest) = scanLoop d fuel' s' rem rest ∧
      rem < fuel' ∧ s.After s' records ∧ s'.Room room := by
  induction records generalizing fuel s with
  | nil =>
    refine ⟨s, fuel, ?_, by simpa using enough, .nil s, by simpa using slots⟩
    rw [List.flatMap_nil, List.nil_append, List.length_nil, Nat.zero_add]
  | cons r records ih =>
    obtain ⟨fuel, rfl⟩ : ∃ more, fuel = more + 1 := ⟨fuel - 1, by omega⟩
    have longer := r.bytes_length
    rw [List.flatMap_cons, List.length_append] at enough
    rw [List.length_cons, Nat.add_right_comm] at slots
    obtain ⟨s₁, scanned, after, room⟩ := scanMember_record (countable r List.mem_cons_self) slots
      (fun i => Nat.lt_of_le_of_lt (by simp [tally]) (small i))
      (show r.bytes.length ≤ r.bytes.length + (records.flatMap WireRecord.bytes).length + rem by omega)
      (show _ ≤ (r.bytes ++ (records.flatMap WireRecord.bytes ++ rest)).length by
        simp only [List.length_append]
        omega)
    have small₁ (i : Fin d.nFields) : s₁.counts i + tally d i records < 2 ^ 64 := by
      have total := small i
      rw [after.counts i]
      simp only [tally, List.map_cons, List.map_nil, List.sum_cons, List.sum_nil] at total ⊢
      omega
    obtain ⟨s₂, fuel', scanned₂, enough₂, after₂, room₂⟩ := ih
      (fun r member => countable r (List.mem_cons_of_mem _ member)) room small₁
      (by omega : (records.flatMap WireRecord.bytes).length + rem < fuel)
    refine ⟨s₂, fuel', ?_, enough₂, after.append after₂, room₂⟩
    rw [List.flatMap_cons, List.append_assoc, List.length_append, scanLoop, if_pos (by omega), scanned, ok_bind]
    dsimp only
    rw [Nat.add_assoc, Nat.add_sub_cancel_left, List.drop_left, scanned₂]

/-- The first pass over a sequence of members. -/
theorem scanLoop_records {records : List WireRecord} (countable : ∀ r ∈ records, Countable d r)
    {s : Scan d.nFields} (slots : s.Room records.length) (small : ∀ i, s.counts i + tally d i records < 2 ^ 64)
    {fuel : Nat} (enough : (records.flatMap WireRecord.bytes).length < fuel) (rest : List UInt8) :
    ∃ s', scanLoop d fuel s (records.flatMap WireRecord.bytes).length
        (records.flatMap WireRecord.bytes ++ rest) = .ok (some s') ∧ s.After s' records := by
  have slots : s.Room (records.length + 0) := slots
  have enough : (records.flatMap WireRecord.bytes).length + 0 < fuel := enough
  obtain ⟨s', fuel', scanned, more, after, -⟩ := scanLoop_append countable slots small enough
    (Nat.zero_le rest.length)
  obtain ⟨fuel', rfl⟩ : ∃ fewer, fuel' = fewer + 1 := ⟨fuel' - 1, by omega⟩
  exact ⟨s', scanned, after⟩

end Scan

end ProtobufC

import Mathlib.Data.List.Infix
import Mumble.ProtobufC.Records

/-! What the first pass makes of any data: it refuses the data, or has found a sequence
of members that are whole, or has read a length that wraps. No data is accepted that
holds such a length, since the member behind it has no wire type. -/
namespace ProtobufC
open CExec Base128

section Overlong

/-- The bytes of a length among the last four below `2 ^ 32`. -/
def overlong : List UInt8 → Bool
  | b₀ :: b₁ :: b₂ :: b₃ :: b₄ :: _ =>
    252 ≤ b₀.toNat && b₁ = 0xff && b₂ = 0xff && b₃ = 0xff && b₄.toNat < 128 && b₄.toNat % 16 = 15
  | _ => false

/-- Data that holds the bytes of such a length nowhere. -/
def Unwrapped (data : List UInt8) : Prop := ∀ part ∈ data.tails, overlong part = false

instance (data : List UInt8) : Decidable (Unwrapped data) := inferInstanceAs (Decidable (∀ part ∈ data.tails, _))

theorem Unwrapped.suffix {data part : List UInt8} (unwrapped : Unwrapped data) (suffix : part <:+ data) :
    Unwrapped part := by
  intro inner member
  rw [List.mem_tails] at member
  exact unwrapped inner ((List.mem_tails _ _).mpr (member.trans suffix))

theorem not_unwrapped {data : List UInt8} {k : Nat} (long : overlong (data.drop k) = true) : ¬ Unwrapped data := by
  intro unwrapped
  have clear := unwrapped (data.drop k) ((List.mem_tails _ _).mpr (List.drop_suffix k data))
  rw [long] at clear
  cases clear

theorem full_byte {b : UInt8} : b = 0xff ↔ b.toNat = 255 := by
  rw [← UInt8.toNat_inj]
  rfl

theorem overlong_iff {data : List UInt8} :
    overlong data = true ↔ Whole (data.take 5) ∧ 2 ^ 32 < value (data.take 5) % 2 ^ 32 + 5 := by
  constructor
  · intro long
    obtain _ | ⟨b₀, _ | ⟨b₁, _ | ⟨b₂, _ | ⟨b₃, _ | ⟨b₄, rest⟩⟩⟩⟩⟩ := data
    all_goals try cases long
    have range := b₀.toNat_lt
    simp only [overlong, full_byte, Bool.and_eq_true, decide_eq_true_eq] at long
    obtain ⟨⟨⟨⟨⟨first, second⟩, third⟩, fourth⟩, last⟩, digit⟩ := long
    refine ⟨?_, ?_⟩
    · exact .more (by omega) (.more (by omega) (.more (by omega) (.more (by omega) (.last last))))
    · simp only [List.take_succ_cons, List.take_zero, value_cons, value_nil, second, third, fourth]
      omega
  · rintro ⟨whole, near⟩
    have bound := value_lt (data.take 5)
    have five : (data.take 5).length = 5 := by
      by_contra other
      have most : (data.take 5).length ≤ 5 := List.length_take_le 5 data
      have power : 128 ^ (data.take 5).length ≤ 128 ^ 4 := Nat.pow_le_pow_right (by decide) (by omega)
      omega
    obtain _ | ⟨b₀, _ | ⟨b₁, _ | ⟨b₂, _ | ⟨b₃, _ | ⟨b₄, rest⟩⟩⟩⟩⟩ := data
    all_goals try cases five
    simp only [List.take_succ_cons, List.take_zero] at whole near
    obtain _ | ⟨more₀, _ | ⟨more₁, _ | ⟨more₂, _ | ⟨more₃, last⟩⟩⟩⟩ := whole
    cases last with
    | more _ rest => cases rest
    | last last =>
      have range₀ := b₀.toNat_lt
      have range₁ := b₁.toNat_lt
      have range₂ := b₂.toNat_lt
      have range₃ := b₃.toNat_lt
      simp only [value_cons, value_nil] at near
      simp only [overlong, full_byte, Bool.and_eq_true, decide_eq_true_eq]
      omega

theorem Wrapped.overlong {wireType : UInt8} {data : List UInt8} {len prefLen : Nat}
    (wrapped : Wrapped wireType data len prefLen) : overlong data = true := by
  have near := wrapped.near
  have some := wrapped.some
  exact overlong_iff.mpr ⟨wrapped.whole, by omega⟩

/-- Where the first pass goes on there are the last bits of the length, all of them set. -/
theorem Wrapped.next {wireType : UInt8} {data : List UInt8} {len prefLen : Nat}
    (wrapped : Wrapped wireType data len prefLen) :
    len < 5 ∧ ∃ b rest, data.drop len = b :: rest ∧ b.toNat % 8 = 7 := by
  have near := wrapped.near
  have some := wrapped.some
  have long := wrapped.overlong
  refine ⟨by omega, ?_⟩
  obtain _ | ⟨b₀, _ | ⟨b₁, _ | ⟨b₂, _ | ⟨b₃, _ | ⟨b₄, rest⟩⟩⟩⟩⟩ := data
  all_goals try cases long
  simp only [ProtobufC.overlong, full_byte, Bool.and_eq_true, decide_eq_true_eq] at long
  obtain ⟨⟨⟨⟨⟨-, second⟩, third⟩, fourth⟩, -⟩, digit⟩ := long
  have places : len = 1 ∨ len = 2 ∨ len = 3 ∨ len = 4 := by omega
  rcases places with rfl | rfl | rfl | rfl
  · exact ⟨b₁, _, rfl, by omega⟩
  · exact ⟨b₂, _, rfl, by omega⟩
  · exact ⟨b₃, _, rfl, by omega⟩
  · exact ⟨b₄, _, rfl, by omega⟩

end Overlong

section Members
variable {δ : Type} {d : MessageDescriptor δ}

/-- Wire type 7 is refused. -/
theorem scanMember_seven {s : Scan d.nFields} {rem : Nat} {data rest : List UInt8} {b : UInt8}
    (here : data = b :: rest) (seven : b.toNat % 8 = 7) (more : 0 < rem) (inside : rem ≤ data.length) :
    scanMember d s rem data = .ok none := by
  rw [scanMember]
  cases found : wholeLength (min 5 rem) data with
  | none =>
    obtain ⟨tag, wireType, read⟩ := parseTagAndWiretype_none more inside found
    rw [read, ok_bind]
    exact if_pos rfl
  | some k =>
    have whole := (wholeLength_some found).2.2.length_pos
    rw [List.length_take] at whole
    obtain ⟨k, rfl⟩ : ∃ fewer, k = fewer + 1 := ⟨k - 1, by omega⟩
    have wire : value (data.take (k + 1)) % 8 = 7 := by
      rw [here, List.take_succ_cons, value_cons]
      omega
    rw [parseTagAndWiretype_some inside found, ok_bind, wire]
    dsimp only
    rw [if_neg (Nat.succ_ne_zero k), findField_eq, ok_bind]
    rfl

/-- Counting reads no further than the data of a member, unless its length is wrong. -/
theorem countMember_fault (tmp : ScannedMember d.nFields) (counts : Fin d.nFields → Nat) :
    (∃ result, countMember d tmp counts = .ok result) ∨ countMember d tmp counts = .error .outOfBounds := by
  have numbers (p : List UInt8) (n : Nat) : (∃ bytes, slice p n = .ok bytes) ∨ slice p n = .error .outOfBounds := by
    unfold slice
    split_ifs
    · exact .inl ⟨_, rfl⟩
    · exact .inr rfl
  have counted (t : FieldType δ) (len : Nat) (data : List UInt8) :
      (∃ result, countPackedElements t len data = .ok result) ∨
        countPackedElements t len data = .error .outOfBounds := by
    cases t with
    | scalar t =>
      cases t
      case int32 | sint32 | int64 | sint64 | uint32 | uint64 | enum =>
        rcases numbers data len with ⟨bytes, read⟩ | read
        · exact .inl ⟨_, by rw [countPackedElements, read, ok_bind]⟩
        · exact .inr (by rw [countPackedElements, read, error_bind])
      all_goals exact .inl ⟨_, rfl⟩
    | string => exact .inl ⟨_, rfl⟩
    | bytes => exact .inl ⟨_, rfl⟩
    | message => exact .inl ⟨_, rfl⟩
  unfold countMember countField
  cases tmp.field with
  | none => exact .inl ⟨_, rfl⟩
  | some i =>
    dsimp only
    split_ifs
    · exact .inl ⟨_, rfl⟩
    · rcases counted (d.field i).type (toSize (tmp.len - tmp.lengthPrefixLen))
        (tmp.data.drop tmp.lengthPrefixLen) with ⟨_ | count, read⟩ | read
      · exact .inl ⟨_, by rw [read, ok_bind]⟩
      · exact .inl ⟨_, by rw [read, ok_bind]⟩
      · exact .inr (by rw [read, error_bind])
    · exact .inl ⟨_, rfl⟩

/-- `s'` is `s` with members that lie in the data, on `used` bytes of it. -/
structure Scan.Accepts (s s' : Scan d.nFields) (data : List UInt8) (used : Nat) (records : List WireRecord) : Prop
    extends s.After s' records where
  countable : ∀ r ∈ records, Countable d r
  payloads : (records.map fun r => r.payload.length).sum ≤ used
  parts : ∀ m ∈ s'.members, m ∈ s.members ∨ m.data <:+ data

/-- A length that wraps stops the first pass in this round or in the next one. -/
def Scan.Stops (s : Scan d.nFields) (rem : Nat) (data : List UInt8) : Prop :=
  scanMember d s rem data = .error .outOfBounds ∨
    ∃ s' used, scanMember d s rem data = .ok (some (s', used)) ∧ used < rem ∧
      ∃ b rest, data.drop used = b :: rest ∧ b.toNat % 8 = 7

section Round
variable {s : Scan d.nFields} {rem k len prefLen whichSlab inSlabIndex : Nat} {data : List UInt8} {tag : UInt32}
  {wireType : UInt8}

/-- What a round does once it has the extent of a member and a place for it. -/
theorem scanMember_round (tag_read : parseTagAndWiretype rem data = .ok (k, tag, wireType)) (k_pos : 0 < k)
    (extent : scanData wireType (rem - k) (data.drop k) = .ok (some (len, prefLen)))
    (slot : nextSlot s.whichSlab s.inSlabIndex = some (whichSlab, inSlabIndex))
    {result : Run (Option (Fin d.nFields → Nat))}
    (counted : countMember d ⟨tag, wireType, prefLen, fieldOf d tag, len, data.drop k⟩ s.counts = result) :
    scanMember d s rem data = result.map (Option.map fun counts =>
      (⟨(fieldOf d tag).or s.lastField, fun i => s.seen i || fieldOf d tag = some i, counts, whichSlab,
        inSlabIndex, s.members ++ [⟨tag, wireType, prefLen, fieldOf d tag, len, data.drop k⟩]⟩, k + len)) := by
  rw [scanMember, tag_read, ok_bind]
  dsimp only
  rw [if_neg (by omega), findField_eq, ok_bind, extent, ok_bind]
  dsimp only
  rw [slot]
  dsimp only
  rw [counted]
  cases result with
  | error => rfl
  | ok counts => cases counts <;> rfl

/-- The round over a member that is whole. -/
theorem scanMember_whole (tag_read : parseTagAndWiretype rem data = .ok (k, tag, wireType)) (k_pos : 0 < k)
    (inside : rem ≤ data.length) (within : k + len ≤ rem)
    (extent : scanData wireType (rem - k) (data.drop k) = .ok (some (len, prefLen)))
    (slot : nextSlot s.whichSlab s.inSlabIndex = some (whichSlab, inSlabIndex))
    (payload : Payload wireType ((data.drop k).take len) prefLen) (small : ∀ i, s.counts i + rem < 2 ^ 64) :
    scanMember d s rem data = .ok none ∨ ∃ s' r, scanMember d s rem data = .ok (some (s', k + len)) ∧
      s.Accepts s' data (k + len) [r] := by
  let tmp : ScannedMember d.nFields := ⟨tag, wireType, prefLen, fieldOf d tag, len, data.drop k⟩
  let r : WireRecord := ⟨tag, wireType, (data.drop k).take len, prefLen, payload⟩
  have len_eq : ((data.drop k).take len).length = len := by
    rw [List.length_take, List.length_drop]
    omega
  have scanned : Scanned r tmp :=
    ⟨⟨rfl, rfl, rfl, len_eq.symm, (data.drop k).drop len, (List.take_append_drop ..).symm⟩, rfl⟩
  by_cases countable : Countable d r
  · have size (i : Fin d.nFields) : memberElements d i r ≤ len := len_eq ▸ memberElements_le i r
    have counted : countMember d tmp s.counts = .ok (some fun i => s.counts i + memberElements d i r) := by
      apply countMember_record countable scanned
      intro i
      have room := small i
      have bound := size i
      omega
    refine .inr ⟨_, r, scanMember_round tag_read k_pos extent slot counted, ?_⟩
    refine ⟨⟨⟨[tmp], rfl, .cons scanned .nil⟩, ?_, ?_⟩, ?_, ?_, ?_⟩
    · intro i
      simp [tally]
    · intro i
      simp [r]
    · intro other member
      rwa [List.mem_singleton.mp member]
    · simp only [List.map_cons, List.map_nil, List.sum_cons, List.sum_nil, r, len_eq]
      omega
    · intro m member
      rcases List.mem_append.mp member with member | member
      · exact .inl member
      · rw [List.mem_singleton.mp member]
        exact .inr (List.drop_suffix k data)
  · exact .inl (scanMember_round tag_read k_pos extent slot (countMember_uncountable countable scanned s.counts))

/-- The round over a length that wraps. -/
theorem scanMember_wrapped (tag_read : parseTagAndWiretype rem data = .ok (k, tag, wireType)) (k_pos : 0 < k)
    (extent : scanData wireType (rem - k) (data.drop k) = .ok (some (len, prefLen)))
    (slot : nextSlot s.whichSlab s.inSlabIndex = some (whichSlab, inSlabIndex))
    (wrapped : Wrapped wireType (data.drop k) len prefLen) (five : 5 ≤ rem - k) :
    scanMember d s rem data = .ok none ∨ s.Stops rem data := by
  obtain ⟨short, b, rest, next, seven⟩ := wrapped.next
  rcases countMember_fault ⟨tag, wireType, prefLen, fieldOf d tag, len, data.drop k⟩ s.counts with
    ⟨_ | counts, counted⟩ | counted
  · exact .inl (scanMember_round tag_read k_pos extent slot counted)
  · refine .inr (.inr ⟨_, k + len, scanMember_round tag_read k_pos extent slot counted, by omega, b, rest, ?_, seven⟩)
    rw [← List.drop_drop]
    exact next
  · exact .inr (.inl (scanMember_round tag_read k_pos extent slot counted))

/-- One round over any data. -/
theorem scanMember_cases (more : 0 < rem) (inside : rem ≤ data.length) (small : ∀ i, s.counts i + rem < 2 ^ 64) :
    scanMember d s rem data = .ok none ∨
      (∃ s' used r, scanMember d s rem data = .ok (some (s', used)) ∧ 0 < used ∧ used ≤ rem ∧
        s.Accepts s' data used [r]) ∨
      (¬ Unwrapped data ∧ s.Stops rem data) := by
  cases found : wholeLength (min 5 rem) data with
  | none =>
    obtain ⟨tag, wireType, read⟩ := parseTagAndWiretype_none more inside found
    left
    rw [scanMember, read, ok_bind]
    exact if_pos rfl
  | some k =>
    have k_pos := (wholeLength_some found).2.2.length_pos
    rw [List.length_take] at k_pos
    have tag_read := parseTagAndWiretype_some inside found
    generalize UInt32.ofNat (value (data.take k) / 8) = tag at tag_read
    generalize UInt8.ofNat (value (data.take k) % 8) = wireType at tag_read
    have left_inside : rem - k ≤ (data.drop k).length := by
      rw [List.length_drop]
      omega
    have most := (wholeLength_some found).1
    rcases scanData_cases wireType left_inside with refused | ⟨len, prefLen, extent, within, accepted⟩
    · left
      rw [scanMember, tag_read, ok_bind]
      dsimp only
      rw [if_neg (by omega), findField_eq, ok_bind, refused]
      rfl
    · cases slot : nextSlot s.whichSlab s.inSlabIndex with
      | none =>
        left
        rw [scanMember, tag_read, ok_bind]
        dsimp only
        rw [if_neg (by omega), findField_eq, ok_bind, extent, ok_bind]
        dsimp only
        rw [slot]
      | some place =>
        rcases accepted with payload | ⟨wrapped, five⟩
        · rcases scanMember_whole tag_read (by omega) inside (by omega) extent slot payload small with
            refused | ⟨s', r, scanned, accepts⟩
          · exact .inl refused
          · exact .inr (.inl ⟨s', k + len, r, scanned, by omega, by omega, accepts⟩)
        · rcases scanMember_wrapped tag_read (by omega) extent slot wrapped five with refused | stops
          · exact .inl refused
          · exact .inr (.inr ⟨not_unwrapped wrapped.overlong, stops⟩)

end Round

section Loop
variable {s s' s'' : Scan d.nFields} {data : List UInt8}

theorem Scan.Accepts.nil (s : Scan d.nFields) (data : List UInt8) (used : Nat) : s.Accepts s data used [] where
  toAfter := .nil s
  countable _ member := nomatch member
  payloads := Nat.zero_le _
  parts _ member := .inl member

theorem Scan.Accepts.append {used rem : Nat} {front back : List WireRecord} (first : s.Accepts s' data used front)
    (second : s'.Accepts s'' (data.drop used) rem back) : s.Accepts s'' data (used + rem) (front ++ back) where
  toAfter := first.toAfter.append second.toAfter
  countable r member := (List.mem_append.mp member).elim (first.countable r) (second.countable r)
  payloads := by
    rw [List.map_append, List.sum_append]
    exact Nat.add_le_add first.payloads second.payloads
  parts m member := by
    rcases second.parts m member with member | suffix
    · exact first.parts m member
    · exact .inr (suffix.trans (List.drop_suffix used data))

/-- The values that are counted lie in the data of the members. -/
theorem Scan.Accepts.counts_le {used : Nat} {records : List WireRecord} (accepts : s.Accepts s' data used records)
    (i : Fin d.nFields) : s'.counts i ≤ s.counts i + used := by
  have each := tally_le i records
  have payloads := accepts.payloads
  have counts := accepts.counts i
  omega

/-- The first pass over any data. -/
theorem scanLoop_cases {fuel rem : Nat} (inside : rem ≤ data.length) (enough : rem < fuel)
    (small : ∀ i, s.counts i + rem < 2 ^ 64) :
    scanLoop d fuel s rem data = .ok none ∨
      (∃ s' records, scanLoop d fuel s rem data = .ok (some s') ∧ s.Accepts s' data rem records) ∨
      (¬ Unwrapped data ∧ scanLoop d fuel s rem data = .error .outOfBounds) := by
  induction fuel generalizing s rem data with
  | zero => omega
  | succ fuel ih =>
    rw [scanLoop]
    by_cases more : rem > 0
    · rw [if_pos more]
      rcases scanMember_cases more inside small with
        refused | ⟨s₁, used, r, scanned, progress, within, accepts⟩ |
          ⟨overlong, fault | ⟨s₁, used, scanned, within, next⟩⟩
      · rw [refused, ok_bind]
        exact .inl rfl
      · rw [scanned, ok_bind]
        dsimp only
        have small₁ (i : Fin d.nFields) : s₁.counts i + (rem - used) < 2 ^ 64 := by
          have bound := accepts.counts_le i
          have room := small i
          omega
        have inside₁ : rem - used ≤ (data.drop used).length := by
          rw [List.length_drop]
          omega
        rcases ih inside₁ (by omega) small₁ with
          refused | ⟨s₂, records, scanned₂, accepts₂⟩ | ⟨overlong, fault⟩
        · exact .inl refused
        · have total := accepts.append accepts₂
          rw [Nat.add_sub_cancel' within] at total
          exact .inr (.inl ⟨s₂, _, scanned₂, total⟩)
        · exact .inr (.inr ⟨fun unwrapped => overlong (unwrapped.suffix (List.drop_suffix used data)), fault⟩)
      · rw [fault, error_bind]
        exact .inr (.inr ⟨overlong, rfl⟩)
      · -- the round behind the length finds wire type 7
        obtain ⟨b, rest, here, seven⟩ := next
        obtain ⟨fuel, rfl⟩ : ∃ fewer, fuel = fewer + 1 := ⟨fuel - 1, by omega⟩
        rw [scanned, ok_bind]
        dsimp only
        rw [scanLoop, if_pos (by omega), scanMember_seven here seven (by omega) (by rw [List.length_drop]; omega)]
        exact .inl rfl
    · rw [if_neg more]
      exact .inr (.inl ⟨s, [], rfl, .nil s data rem⟩)

/-- What the first pass has found in `len` bytes of data. -/
structure Accepted (d : MessageDescriptor δ) (len : Nat) (data : List UInt8) (scan : Scan d.nFields)
    (records : List WireRecord) : Prop where
  members : List.Forall₂ Scanned records scan.members
  counts : ∀ i, scan.counts i = tally d i records
  seen : ∀ i, scan.seen i = records.any fun r => fieldOf d r.tag = some i
  countable : ∀ r ∈ records, Countable d r
  payloads : (records.map fun r => r.payload.length).sum ≤ len
  parts : ∀ m ∈ scan.members, m.data <:+ data

theorem scanMembers_cases {len : Nat} (inside : len ≤ data.length) (small : len < 2 ^ 64) :
    scanMembers d len data = .ok none ∨
      (∃ scan records, scanMembers d len data = .ok (some scan) ∧ Accepted d len data scan records) ∨
      (¬ Unwrapped data ∧ scanMembers d len data = .error .outOfBounds) := by
  rcases scanLoop_cases inside (Nat.lt_succ_self len) (s := ⟨if first : 0 < d.nFields then some ⟨0, first⟩ else none,
      fun _ => false, fun _ => 0, 0, 0, []⟩) (fun _ => by dsimp only; omega) with
    refused | ⟨scan, records, scanned, accepts⟩ | overlong
  · exact .inl refused
  · refine .inr (.inl ⟨scan, records, scanned, ?_⟩)
    obtain ⟨more, members, each⟩ := accepts.members
    rw [List.nil_append] at members
    refine ⟨members ▸ each, fun i => ?_, fun i => ?_, accepts.countable, accepts.payloads, fun m member => ?_⟩
    · rw [accepts.counts i, Nat.zero_add]
    · rw [accepts.seen i, Bool.false_or]
    · exact (accepts.parts m member).resolve_left List.not_mem_nil
  · exact .inr (.inr overlong)

end Loop

end Members

end ProtobufC

import Mumble.VarintProofs

/-! How far `varint_decode` reads, and whether it comes to an end. A varint is the
bytes that one call of the decoder reads. The form of a negative value is a byte in
front of another encoding. -/
namespace Mumble
open CExec

/-- The number of bytes that a first byte announces, all forms but the negative
one being fixed by it. -/
def formLength (b0 : UInt8) : Nat :=
  if b0.toNat < 0x80 then 1
  else if b0.toNat < 0xC0 then 2
  else if b0.toNat < 0xE0 then 3
  else if b0.toNat < 0xF0 then 4
  else if b0.toNat < 0xF4 then 5
  else if b0.toNat < 0xF8 then 9
  else 1

/-- The first byte `111110xx`. -/
abbrev Negative (b0 : UInt8) : Prop := b0 &&& 0xFC = 0xF8

/-- A complete encoding. -/
inductive EncodedVarint : List UInt8 → Prop where
  | plain {b0 : UInt8} {rest : List UInt8} : ¬ Negative b0 → rest.length + 1 = formLength b0 →
      EncodedVarint (b0 :: rest)
  | negative {b0 : UInt8} {e : List UInt8} : Negative b0 → EncodedVarint e → EncodedVarint (b0 :: e)

/-- The start of an encoding without its end. -/
def Truncated (buf : List UInt8) : Prop := ∃ rest, rest ≠ [] ∧ EncodedVarint (buf ++ rest)

theorem formLength_pos (b0 : UInt8) : 0 < formLength b0 := by
  unfold formLength
  repeat' split
  all_goals decide

/-- With all the bytes that its first one announces, an encoding is complete. -/
theorem exists_complete {b0 : UInt8} {rest : List UInt8} (plain : ¬ Negative b0)
    (long : formLength b0 ≤ rest.length + 1) : ∃ e, e <+: b0 :: rest ∧ EncodedVarint e := by
  have positive := formLength_pos b0
  refine ⟨b0 :: rest.take (formLength b0 - 1),
    List.cons_prefix_cons.mpr ⟨rfl, List.take_prefix _ _⟩, .plain plain ?_⟩
  rw [List.length_take]
  omega

section Prefixes
variable {buf e e' : List UInt8}

/-- No encoding starts another one. -/
theorem EncodedVarint.eq_of_prefix (first : EncodedVarint e) (second : EncodedVarint e')
    (starts : e <+: e') : e = e' := by
  induction first generalizing e' with
  | plain plain length =>
    cases second with
    | plain plain' length' =>
      obtain ⟨rfl, front⟩ := List.cons_prefix_cons.mp starts
      rw [front.eq_of_length (by omega)]
    | negative negative _ =>
      obtain ⟨rfl, -⟩ := List.cons_prefix_cons.mp starts
      exact absurd negative plain
  | negative negative _ ih =>
    cases second with
    | plain plain _ =>
      obtain ⟨rfl, -⟩ := List.cons_prefix_cons.mp starts
      exact absurd negative plain
    | negative _ inner =>
      obtain ⟨rfl, front⟩ := List.cons_prefix_cons.mp starts
      rw [ih inner front]

theorem not_truncated_of_complete (complete : EncodedVarint e) (front : e <+: buf) : ¬ Truncated buf := by
  rintro ⟨rest, some, whole⟩
  have starts : e <+: buf ++ rest := front.trans (List.prefix_append buf rest)
  have same := complete.eq_of_prefix whole starts
  have short := front.length_le
  rw [same, List.length_append] at short
  exact some (List.length_eq_zero_iff.mp (by omega))

/-- Bytes that no encoding starts are the start of one. -/
theorem truncated_of_incomplete (incomplete : ∀ e, e <+: buf → ¬ EncodedVarint e) : Truncated buf := by
  induction buf with
  | nil =>
    have zero : EncodedVarint [0] := .plain (by decide) rfl
    exact ⟨[0], List.cons_ne_nil _ _, zero⟩
  | cons b0 buf ih =>
    by_cases negative : Negative b0
    · obtain ⟨rest, some, whole⟩ := ih fun e front complete =>
        incomplete (b0 :: e) (List.cons_prefix_cons.mpr ⟨rfl, front⟩) (.negative negative complete)
      exact ⟨rest, some, .negative negative whole⟩
    · have cut : buf.length + 1 < formLength b0 := by
        by_contra long
        obtain ⟨e, front, complete⟩ := exists_complete negative (Nat.le_of_not_lt long)
        exact incomplete e front complete
      refine ⟨List.replicate (formLength b0 - (buf.length + 1)) 0, ?_, .plain negative ?_⟩
      · rw [Ne, List.replicate_eq_nil_iff]
        omega
      · change (buf ++ _).length + 1 = _
        rw [List.length_append, List.length_replicate]
        omega

end Prefixes

/-- The forms but the negative one, each with its range of first bytes. -/
theorem plain_cases {b0 : UInt8} (plain : ¬ Negative b0) :
    (b0.toNat < 0x80 ∧ formLength b0 = 1) ∨
    ((0x80 ≤ b0.toNat ∧ b0.toNat < 0xC0) ∧ formLength b0 = 2) ∨
    ((0xC0 ≤ b0.toNat ∧ b0.toNat < 0xE0) ∧ formLength b0 = 3) ∨
    ((0xE0 ≤ b0.toNat ∧ b0.toNat < 0xF0) ∧ formLength b0 = 4) ∨
    ((0xF0 ≤ b0.toNat ∧ b0.toNat < 0xF4) ∧ formLength b0 = 5) ∨
    ((0xF4 ≤ b0.toNat ∧ b0.toNat < 0xF8) ∧ formLength b0 = 9) ∨
    (0xFC ≤ b0.toNat ∧ formLength b0 = 1) := by
  rw [Negative, (tag_ranges b0).2.2.2.2.2.2.2.1] at plain
  unfold formLength
  repeat' split
  all_goals omega

/-- The decoder reads these bytes, and nothing behind them, as `value`. -/
structure IsVarint (bytes : List UInt8) (value : UInt64) : Prop where
  nonempty : bytes ≠ []
  short : bytes.length ≤ 9
  read : ∀ (back : List UInt8) (size : Int) (result : UInt64), size ≠ 0 →
    (bytes.length = 2 → 2 ≤ size) →
    varintDecode (bytes ++ back) size result = .ok (bytes.length, value)

theorem IsVarint.decode {bytes : List UInt8} {value : UInt64} (varint : IsVarint bytes value)
    (back : List UInt8) (size : Int) (result : UInt64) (long : bytes.length ≤ size) :
    varintDecode (bytes ++ back) size result = .ok (bytes.length, value) := by
  have positive := List.length_pos_iff.mpr varint.nonempty
  exact varint.read back size result (by omega) (by omega)

section Forms
variable {b0 b1 b2 b3 b4 b5 b6 b7 b8 : UInt8}

theorem isVarint_one (tag : b0.toNat < 0x80) : IsVarint [b0] (.ofNat b0.toNat) :=
  ⟨List.cons_ne_nil _ _, Nat.le_of_ble_eq_true rfl,
    fun _ _ _ some _ => varintDecode_one tag some⟩

theorem isVarint_two (range : 0x80 ≤ b0.toNat ∧ b0.toNat < 0xC0) :
    IsVarint [b0, b1] (.ofNat ((b0.toNat - 0x80) * 2 ^ 8 + b1.toNat)) :=
  ⟨List.cons_ne_nil _ _, Nat.le_of_ble_eq_true rfl,
    fun _ _ _ _ two => varintDecode_two range.1 range.2 (two rfl)⟩

theorem isVarint_three (range : 0xC0 ≤ b0.toNat ∧ b0.toNat < 0xE0) :
    IsVarint [b0, b1, b2] (.ofNat ((b0.toNat - 0xC0) * 2 ^ 16 + b1.toNat * 2 ^ 8 + b2.toNat)) :=
  ⟨List.cons_ne_nil _ _, Nat.le_of_ble_eq_true rfl,
    fun _ _ _ some _ => varintDecode_three range.1 range.2 some⟩

theorem isVarint_four (range : 0xE0 ≤ b0.toNat ∧ b0.toNat < 0xF0) :
    IsVarint [b0, b1, b2, b3]
      (.ofNat ((b0.toNat - 0xE0) * 2 ^ 24 + b1.toNat * 2 ^ 16 + b2.toNat * 2 ^ 8 + b3.toNat)) :=
  ⟨List.cons_ne_nil _ _, Nat.le_of_ble_eq_true rfl,
    fun _ _ _ some _ => varintDecode_four range.1 range.2 some⟩

theorem isVarint_five (range : 0xF0 ≤ b0.toNat ∧ b0.toNat < 0xF4) :
    IsVarint [b0, b1, b2, b3, b4] (.ofNat (signExtended
      (b1.toNat * 2 ^ 24 + b2.toNat * 2 ^ 16 + b3.toNat * 2 ^ 8 + b4.toNat))) :=
  ⟨List.cons_ne_nil _ _, Nat.le_of_ble_eq_true rfl,
    fun _ _ _ some _ => varintDecode_five range.1 range.2 some⟩

theorem isVarint_nine (range : 0xF4 ≤ b0.toNat ∧ b0.toNat < 0xF8) :
    IsVarint [b0, b1, b2, b3, b4, b5, b6, b7, b8] (.ofNat (signExtended
      (2 ^ 32 * (b1.toNat * 2 ^ 24 + b2.toNat * 2 ^ 16 + b3.toNat * 2 ^ 8 + b4.toNat) +
        (b5.toNat * 2 ^ 24 + b6.toNat * 2 ^ 16 + b7.toNat * 2 ^ 8 + b8.toNat)))) :=
  ⟨List.cons_ne_nil _ _, Nat.le_of_ble_eq_true rfl,
    fun _ _ _ some _ => varintDecode_nine range.1 range.2 some⟩

theorem isVarint_small (low : 0xFC ≤ b0.toNat) : IsVarint [b0] (~~~(b0 &&& 0x03).toUInt64) :=
  ⟨List.cons_ne_nil _ _, Nat.le_of_ble_eq_true rfl,
    fun _ _ _ some _ => varintDecode_small low some⟩

end Forms

/-- The forms that the decoder comes to the end of, with their values. -/
inductive VarintForm : List UInt8 → UInt64 → Prop where
  | one {b0 : UInt8} : b0.toNat < 0x80 → VarintForm [b0] (.ofNat b0.toNat)
  | two {b0 b1 : UInt8} : 0x80 ≤ b0.toNat ∧ b0.toNat < 0xC0 →
      VarintForm [b0, b1] (.ofNat ((b0.toNat - 0x80) * 2 ^ 8 + b1.toNat))
  | three {b0 b1 b2 : UInt8} : 0xC0 ≤ b0.toNat ∧ b0.toNat < 0xE0 →
      VarintForm [b0, b1, b2]
        (.ofNat ((b0.toNat - 0xC0) * 2 ^ 16 + b1.toNat * 2 ^ 8 + b2.toNat))
  | four {b0 b1 b2 b3 : UInt8} : 0xE0 ≤ b0.toNat ∧ b0.toNat < 0xF0 →
      VarintForm [b0, b1, b2, b3]
        (.ofNat ((b0.toNat - 0xE0) * 2 ^ 24 + b1.toNat * 2 ^ 16 + b2.toNat * 2 ^ 8 + b3.toNat))
  | five {b0 b1 b2 b3 b4 : UInt8} : 0xF0 ≤ b0.toNat ∧ b0.toNat < 0xF4 →
      VarintForm [b0, b1, b2, b3, b4] (.ofNat (signExtended
        (b1.toNat * 2 ^ 24 + b2.toNat * 2 ^ 16 + b3.toNat * 2 ^ 8 + b4.toNat)))
  | nine {b0 b1 b2 b3 b4 b5 b6 b7 b8 : UInt8} : 0xF4 ≤ b0.toNat ∧ b0.toNat < 0xF8 →
      VarintForm [b0, b1, b2, b3, b4, b5, b6, b7, b8] (.ofNat (signExtended
        (2 ^ 32 * (b1.toNat * 2 ^ 24 + b2.toNat * 2 ^ 16 + b3.toNat * 2 ^ 8 + b4.toNat) +
          (b5.toNat * 2 ^ 24 + b6.toNat * 2 ^ 16 + b7.toNat * 2 ^ 8 + b8.toNat))))
  | small {b0 : UInt8} : 0xFC ≤ b0.toNat → VarintForm [b0] (~~~(b0 &&& 0x03).toUInt64)

theorem VarintForm.isVarint {bytes : List UInt8} {value : UInt64} (form : VarintForm bytes value) :
    IsVarint bytes value := by
  cases form with
  | one tag => exact isVarint_one tag
  | two range => exact isVarint_two range
  | three range => exact isVarint_three range
  | four range => exact isVarint_four range
  | five range => exact isVarint_five range
  | nine range => exact isVarint_nine range
  | small low => exact isVarint_small low

section Decode
variable {b0 : UInt8} {rest : List UInt8} {size : Int} {result : UInt64}

/-- With all its bytes, a form is read. -/
theorem exists_form (plain : ¬ Negative b0) (whole : formLength b0 ≤ rest.length + 1) :
    ∃ front back value, b0 :: rest = front ++ back ∧ front.length = formLength b0 ∧
      VarintForm front value := by
  rcases plain_cases plain with ⟨tag, length⟩ | ⟨range, length⟩ | ⟨range, length⟩ | ⟨range, length⟩ |
    ⟨range, length⟩ | ⟨range, length⟩ | ⟨low, length⟩
  · exact ⟨[b0], rest, _, rfl, length.symm, .one tag⟩
  · rw [length] at whole
    obtain _ | ⟨b1, rest⟩ := rest
    · cases Nat.le_of_succ_le_succ whole
    exact ⟨[b0, b1], rest, _, rfl, length.symm, .two range⟩
  · rw [length] at whole
    obtain _ | ⟨b1, _ | ⟨b2, rest⟩⟩ := rest
    iterate 2 simp at whole
    exact ⟨[b0, b1, b2], rest, _, rfl, length.symm, .three range⟩
  · rw [length] at whole
    obtain _ | ⟨b1, _ | ⟨b2, _ | ⟨b3, rest⟩⟩⟩ := rest
    iterate 3 simp at whole
    exact ⟨[b0, b1, b2, b3], rest, _, rfl, length.symm, .four range⟩
  · rw [length] at whole
    obtain _ | ⟨b1, _ | ⟨b2, _ | ⟨b3, _ | ⟨b4, rest⟩⟩⟩⟩ := rest
    iterate 4 simp at whole
    exact ⟨[b0, b1, b2, b3, b4], rest, _, rfl, length.symm, .five range⟩
  · rw [length] at whole
    obtain _ | ⟨b1, _ | ⟨b2, _ | ⟨b3, _ | ⟨b4, _ | ⟨b5, _ | ⟨b6, _ | ⟨b7, _ | ⟨b8, rest⟩⟩⟩⟩⟩⟩⟩⟩ := rest
    iterate 8 simp at whole
    exact ⟨[b0, b1, b2, b3, b4, b5, b6, b7, b8], rest, _, rfl, length.symm, .nine range⟩
  · exact ⟨[b0], rest, _, rfl, length.symm, .small low⟩

theorem exists_whole (plain : ¬ Negative b0) (whole : formLength b0 ≤ rest.length + 1) :
    ∃ front back value, b0 :: rest = front ++ back ∧ front.length = formLength b0 ∧ IsVarint front value := by
  obtain ⟨front, back, value, split, length, form⟩ := exists_form plain whole
  exact ⟨front, back, value, split, length, form.isVarint⟩

theorem varintDecode_whole (plain : ¬ Negative b0) (some : size ≠ 0)
    (whole : formLength b0 ≤ rest.length + 1) (two : formLength b0 = 2 → 2 ≤ size) :
    ∃ value, varintDecode (b0 :: rest) size result = .ok (formLength b0, value) := by
  obtain ⟨front, back, value, split, length, varint⟩ := exists_whole plain whole
  refine ⟨value, ?_⟩
  rw [split, ← length]
  exact varint.read back size result some fun count => two (length.symm.trans count)

/-- A form of two bytes is the only one whose end is looked for. -/
theorem varintDecode_cut_two (two : formLength b0 = 2) (plain : ¬ Negative b0) (some : size ≠ 0)
    (short : size < 2) : varintDecode (b0 :: rest) size result = .ok (-1, 0) := by
  have range : 0x80 ≤ b0.toNat ∧ b0.toNat < 0xC0 := by
    have cases := plain_cases plain
    omega
  obtain ⟨one, isTwo, -⟩ := tag_ranges b0
  have notOne : ¬ b0 &&& 0x80 = 0x00 := by rw [one]; omega
  simp only [varintDecode, varintDecodeRec, if_neg some, load_zero, ok_bind, if_neg notOne,
    if_pos (isTwo.mpr range), if_pos short]

/-- Any other is read past the end of the buffer. -/
theorem varintDecode_cut (other : formLength b0 = 2 → 2 ≤ size) (plain : ¬ Negative b0) (some : size ≠ 0)
    (cut : rest.length + 1 < formLength b0) :
    varintDecode (b0 :: rest) size result = .error .outOfBounds := by
  have length : (b0 :: rest).length = rest.length + 1 := rfl
  obtain ⟨one, two, three, four, long, five, nine, -⟩ := tag_ranges b0
  rw [varintDecode, varintDecodeRec, if_neg some, load_zero, ok_bind]
  rcases plain_cases plain with ⟨tag, form⟩ | ⟨range, form⟩ | ⟨range, form⟩ | ⟨range, form⟩ |
    ⟨range, form⟩ | ⟨range, form⟩ | ⟨low, form⟩
  · omega
  · have long := other form
    rw [if_neg (by rw [one]; omega), if_pos (two.mpr range), if_neg (by omega)]
    refine load_bind_outside fun _ => ?_
    omega
  · rw [if_neg (by rw [one]; omega), if_neg (by rw [two]; omega), if_neg (by rw [long]; omega),
      if_neg (by rw [four]; omega), if_pos (three.mpr range)]
    refine load_bind_outside fun _ _ => load_bind_outside fun _ => ?_
    omega
  · rw [if_neg (by rw [one]; omega), if_neg (by rw [two]; omega), if_neg (by rw [long]; omega),
      if_pos (four.mpr range)]
    refine load_bind_outside fun _ _ => load_bind_outside fun _ _ => load_bind_outside fun _ => ?_
    omega
  · rw [if_neg (by rw [one]; omega), if_neg (by rw [two]; omega), if_pos (long.mpr range.1),
      if_pos (five.mpr range)]
    refine load_bind_outside fun _ _ => load_bind_outside fun _ _ => load_bind_outside fun _ _ =>
      load_bind_outside fun _ => ?_
    omega
  · rw [if_neg (by rw [one]; omega), if_neg (by rw [two]; omega), if_pos (by rw [long]; omega),
      if_neg (by rw [five]; omega), if_pos (nine.mpr range)]
    refine load_bind_outside fun _ _ => load_bind_outside fun _ _ => load_bind_outside fun _ _ =>
      load_bind_outside fun _ _ => load_bind_outside fun _ _ => load_bind_outside fun _ _ =>
        load_bind_outside fun _ _ => load_bind_outside fun _ => ?_
    omega
  · omega

end Decode

/-- The call comes to an end at some depth of the recursion. -/
def Terminates (buf : List UInt8) (size : Int) (result : UInt64) : Prop :=
  ∃ depth, varintDecodeRec depth buf size result ≠ .error .endless

/-- A negative form in front of a complete encoding is decoded to the complement of
what the encoding is decoded to. -/
def Complements (buf : List UInt8) (size : Int) (result : UInt64) : Prop :=
  ∀ b0 e back value, buf = b0 :: (e ++ back) → Negative b0 → e ≠ [] → 1 + e.length ≤ size →
    varintDecode (e ++ back) (size - 1) 0 = .ok (e.length, value) →
    varintDecode buf size result = .ok (1 + e.length, ~~~value)

theorem varintDecode_terminates {buf : List UInt8} {size : Int}
    (plain : size = 0 ∨ ∀ b0 ∈ buf.head?, ¬ Negative b0) (result : UInt64) :
    varintDecode buf size result ≠ .error .endless := by
  by_cases none : size = 0
  · rw [varintDecode, varintDecodeRec, if_pos none]
    exact ok_ne_error
  cases buf with
  | nil =>
    rw [varintDecode, varintDecodeRec, if_neg none]
    exact error_ne_error (by decide)
  | cons b0 rest =>
    have plain := (plain.resolve_left none) b0 rfl
    by_cases short : formLength b0 = 2 ∧ size < 2
    · rw [varintDecode_cut_two short.1 plain none short.2]
      exact ok_ne_error
    have long : formLength b0 = 2 → 2 ≤ size := fun two => Int.not_lt.mp fun less => short ⟨two, less⟩
    by_cases whole : formLength b0 ≤ rest.length + 1
    · obtain ⟨value, run⟩ := @varintDecode_whole b0 rest size result plain none whole long
      rw [run]
      exact ok_ne_error
    · rw [varintDecode_cut long plain none (Nat.lt_of_not_le whole)]
      exact error_ne_error (by decide)

/-- The decoder comes to an end, and does what it should for a negative form, unless
there is a byte to decode and it is that of a negative form. -/
theorem varint_terminates_iff (buf : List UInt8) (size : Int) (result : UInt64) :
    Terminates buf size result ∧ Complements buf size result ↔
      size = 0 ∨ ∀ b0 ∈ buf.head?, ¬ Negative b0 := by
  constructor
  · rintro ⟨⟨depth, ends⟩, -⟩
    by_contra other
    obtain ⟨some, other⟩ := not_or.mp other
    cases buf with
    | nil => exact other (by rintro b0 ⟨⟩)
    | cons b0 rest =>
      apply other
      rintro _ ⟨⟩ negative
      exact ends (varintDecodeRec_endless negative some depth rest result)
  · intro plain
    refine ⟨⟨_, varintDecode_terminates plain result⟩, ?_⟩
    rintro b0 e back value rfl negative nonempty room -
    rcases plain with none | plain
    · have positive := List.length_pos_iff.mpr nonempty
      omega
    · exact absurd negative (plain b0 rfl)

/-- The complement of five is never found, however deep the calls may nest. -/
theorem varint_negative_endless :
    varintDecode [5] 1 0 = .ok (1, 5) ∧
      (∀ depth, varintDecodeRec depth [0xF8, 5] 2 0 = .error .endless) ∧
      ¬ (Terminates [0xF8, 5] 2 0 ∧ Complements [0xF8, 5] 2 0) := by
  have endless depth : varintDecodeRec depth [0xF8, 5] 2 0 = .error .endless :=
    varintDecodeRec_endless (by decide) (by decide) depth [5] 0
  exact ⟨rfl, endless, fun both => both.1.elim fun depth ends => ends (endless depth)⟩

/-- What a caller relies on: no read past the end of the buffer, a count within it,
and none for an encoding that is cut short. -/
structure ReadsInside (buf : List UInt8) (result : UInt64) : Prop where
  inside : varintDecode buf buf.length result ≠ .error .outOfBounds
  count : ∀ n value, varintDecode buf buf.length result = .ok (n, value) → 0 < n → n ≤ buf.length
  truncated : Truncated buf →
    ∃ n value, varintDecode buf buf.length result = .ok (n, value) ∧ n ≤ 0

theorem readsInside_complete {buf e : List UInt8} (complete : EncodedVarint e) (front : e <+: buf)
    (result : UInt64) : ReadsInside buf result := by
  have whole := not_truncated_of_complete complete front
  cases complete with
  | @plain b0 rest plain length =>
    obtain ⟨back, rfl⟩ := front
    have count : ((b0 :: rest ++ back).length : Int) = rest.length + back.length + 1 := by
      rw [List.length_append, List.length_cons]
      omega
    have room : formLength b0 ≤ (rest ++ back).length + 1 := by
      rw [List.length_append]
      omega
    obtain ⟨value, run⟩ := @varintDecode_whole b0 (rest ++ back) (b0 :: rest ++ back).length result plain
      (by omega) room (by omega)
    refine ⟨?_, ?_, fun cut => absurd cut whole⟩
    · rw [List.cons_append] at run ⊢
      rw [run]
      exact ok_ne_error
    · intro n value' again positive
      rw [List.cons_append] at run again
      rw [run] at again
      cases again
      omega
  | @negative b0 e negative inner =>
    obtain ⟨back, rfl⟩ := front
    have endless : varintDecode (b0 :: e ++ back) (b0 :: e ++ back).length result = .error .endless :=
      varintDecodeRec_endless negative (by rw [List.cons_append, List.length_cons]; omega) _ _ _
    refine ⟨?_, ?_, fun cut => absurd cut whole⟩
    · rw [endless]
      exact error_ne_error (by decide)
    · intro n value again
      rw [endless] at again
      cases again

theorem readsInside_nil (result : UInt64) : ReadsInside [] result := by
  have none : varintDecode [] 0 result = .ok (0, result) := rfl
  refine ⟨?_, ?_, fun _ => ⟨0, result, none, Int.le_refl 0⟩⟩
  · exact fun same => ok_ne_error (none.symm.trans same)
  · intro n value run positive
    cases none.symm.trans run
    exact Int.le_refl 0

/-- The form of two bytes, whole or cut. -/
theorem readsInside_two {b0 : UInt8} (two : formLength b0 = 2) (rest : List UInt8) (result : UInt64) :
    ReadsInside (b0 :: rest) result := by
  have plain : ¬ Negative b0 := by
    intro negative
    have range := (tag_ranges b0).2.2.2.2.2.2.2.1.mp negative
    unfold formLength at two
    repeat' split at two
    all_goals omega
  cases rest with
  | nil =>
    have cut : varintDecode [b0] ([b0].length : Int) result = .ok (-1, 0) :=
      varintDecode_cut_two two plain Int.one_ne_zero (show (1 : Int) < 2 by decide)
    refine ⟨?_, ?_, fun _ => ⟨-1, 0, cut, by decide⟩⟩
    · exact fun same => ok_ne_error (cut.symm.trans same)
    · intro n value run positive
      cases cut.symm.trans run
      cases positive
  | cons b1 rest =>
    exact readsInside_complete (.plain plain (show [b1].length + 1 = formLength b0 from two.symm))
      (List.prefix_append [b0, b1] rest) result

/-- The start of any other form is read past its end, or for ever. -/
theorem not_readsInside {b0 : UInt8} {rest : List UInt8} {result : UInt64} (other : formLength b0 ≠ 2)
    (incomplete : ∀ e, e <+: b0 :: rest → ¬ EncodedVarint e) : ¬ ReadsInside (b0 :: rest) result := by
  intro inside
  obtain ⟨n, value, run, -⟩ := inside.truncated (truncated_of_incomplete incomplete)
  have positive : ((b0 :: rest).length : Int) ≠ 0 := by
    rw [List.length_cons]
    omega
  by_cases negative : Negative b0
  · have endless := varintDecodeRec_endless negative positive ((b0 :: rest).length + 1) rest result
    cases endless.symm.trans run
  · have cut : rest.length + 1 < formLength b0 := by
      by_contra long
      obtain ⟨e, front, complete⟩ := exists_complete negative (Nat.le_of_not_lt long)
      exact incomplete e front complete
    exact inside.inside (varintDecode_cut (fun two => absurd two other) negative positive cut)

/-- The decoder keeps to its buffer, and to the truth about it, exactly when there is
nothing to decode, a complete encoding, or the start of a form of two bytes. -/
theorem varint_reads_inside_iff (buf : List UInt8) (result : UInt64) :
    ReadsInside buf result ↔
      buf = [] ∨ (∃ e, e <+: buf ∧ EncodedVarint e) ∨ ∃ b0 ∈ buf.head?, formLength b0 = 2 := by
  constructor
  · intro inside
    by_contra other
    obtain ⟨some, other⟩ := not_or.mp other
    obtain ⟨incomplete, other⟩ := not_or.mp other
    cases buf with
    | nil => exact some rfl
    | cons b0 rest =>
      exact not_readsInside (fun two => other ⟨b0, rfl, two⟩)
        (fun e front complete => incomplete ⟨e, front, complete⟩) inside
  · rintro (rfl | ⟨e, front, complete⟩ | ⟨b0, head, two⟩)
    · exact readsInside_nil result
    · exact readsInside_complete complete front result
    · obtain _ | ⟨b, rest⟩ := buf
      · cases head
      cases head
      exact readsInside_two two rest result

/-- The two bytes of a form of four that have arrived, and one behind them. -/
theorem varint_reads_outside :
    varintDecode [0xE0, 1] 2 0 = .error .outOfBounds ∧ ¬ ReadsInside [0xE0, 1] 0 :=
  ⟨rfl, fun inside => inside.inside rfl⟩

end Mumble

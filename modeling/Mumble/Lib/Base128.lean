import Mathlib.Data.Nat.Bitwise
import Mathlib.Data.List.Basic
import Mathlib.Tactic.Ring

/-! Numbers in base 128, the lowest digit first, one byte for each digit. Every byte
but the last has its top bit set, so that the bytes say where a number ends. -/
namespace Base128

/-- The shortest form of a number. -/
def encode (n : Nat) : List UInt8 :=
  if n < 128 then [UInt8.ofNat n] else UInt8.ofNat (n % 128 + 128) :: encode (n / 128)

/-- The number that a sequence of digits stands for, in its shortest form or not. -/
def value : List UInt8 → Nat
  | [] => 0
  | b :: digits => b.toNat % 128 + 128 * value digits

/-- The bytes of one number: the last one, and no other, ends it. -/
inductive Whole : List UInt8 → Prop where
  | last {b : UInt8} (ends : b.toNat < 128) : Whole [b]
  | more {b : UInt8} {digits : List UInt8} (goesOn : 128 ≤ b.toNat) (rest : Whole digits) :
      Whole (b :: digits)

/-- The number of bytes of the number at the front, if it ends within `max` bytes. -/
def wholeLength : Nat → List UInt8 → Option Nat
  | 0, _ => none
  | _ + 1, [] => none
  | max + 1, b :: rest => if b.toNat < 128 then some 1 else (wholeLength max rest).map (· + 1)

theorem toNat_digit {n : Nat} (small : n < 256) : (UInt8.ofNat n).toNat = n := by
  rw [UInt8.toNat_ofNat', Nat.mod_eq_of_lt small]

@[simp] theorem value_nil : value [] = 0 := rfl

@[simp] theorem value_cons (b : UInt8) (digits : List UInt8) :
    value (b :: digits) = b.toNat % 128 + 128 * value digits := rfl

theorem value_append (front back : List UInt8) :
    value (front ++ back) = value front + 128 ^ front.length * value back := by
  induction front with
  | nil => simp
  | cons b front ih =>
    simp only [List.cons_append, value_cons, ih, List.length_cons, Nat.pow_succ]
    ring

theorem value_lt (digits : List UInt8) : value digits < 128 ^ digits.length := by
  induction digits with
  | nil => simp
  | cons b digits ih =>
    simp only [value_cons, List.length_cons, Nat.pow_succ]
    omega

theorem Whole.ne_nil {digits : List UInt8} (whole : Whole digits) : digits ≠ [] := by
  cases whole <;> simp

theorem Whole.length_pos {digits : List UInt8} (whole : Whole digits) : 0 < digits.length :=
  List.length_pos_iff.mpr whole.ne_nil

section Encode

theorem encode_small {n : Nat} (small : n < 128) : encode n = [UInt8.ofNat n] := by
  rw [encode, if_pos small]

theorem encode_large {n : Nat} (large : 128 ≤ n) :
    encode n = UInt8.ofNat (n % 128 + 128) :: encode (n / 128) := by
  rw [encode, if_neg (Nat.not_lt.mpr large)]

theorem encode_whole (n : Nat) : Whole (encode n) := by
  induction n using Nat.strongRecOn with
  | ind n ih =>
    by_cases small : n < 128
    · rw [encode_small small]
      apply Whole.last
      rw [toNat_digit (by omega)]
      exact small
    · rw [encode_large (by omega)]
      apply Whole.more _ (ih _ (by omega))
      rw [toNat_digit (by omega)]
      omega

theorem value_encode (n : Nat) : value (encode n) = n := by
  induction n using Nat.strongRecOn with
  | ind n ih =>
    by_cases small : n < 128
    · simp only [encode_small small, value_cons, value_nil, toNat_digit (show n < 256 by omega)]
      omega
    · simp only [encode_large (show 128 ≤ n by omega), value_cons, ih _ (show n / 128 < n by omega),
        toNat_digit (show n % 128 + 128 < 256 by omega)]
      omega

/-- A number below `128 ^ (k + 1)` takes no more than `k + 1` bytes, and no other does. -/
theorem encode_length_le {n k : Nat} : (encode n).length ≤ k + 1 ↔ n < 128 ^ (k + 1) := by
  induction k generalizing n with
  | zero =>
    by_cases small : n < 128
    · simp [encode_small small, small]
    · have more := (encode_whole (n / 128)).length_pos
      simp only [encode_large (show 128 ≤ n by omega), List.length_cons]
      omega
  | succ k ih =>
    have grows : 128 ≤ 128 ^ (k + 1) := by
      rw [Nat.pow_succ]
      exact Nat.le_mul_of_pos_left 128 (Nat.pow_pos (by decide))
    by_cases small : n < 128
    · simp only [encode_small small, List.length_singleton]
      rw [Nat.pow_succ]
      omega
    · have shorter := ih (n := n / 128)
      simp only [encode_large (show 128 ≤ n by omega), List.length_cons, Nat.add_le_add_iff_right,
        shorter, Nat.pow_succ]
      omega

/-- The first digits of a number that has more. -/
theorem encode_split (k : Nat) {n : Nat} (large : 128 ^ k ≤ n) :
    encode n = ((List.range k).map fun i => UInt8.ofNat (n / 128 ^ i % 128 + 128)) ++ encode (n / 128 ^ k) := by
  induction k generalizing n with
  | zero => simp
  | succ k ih =>
    have power : 128 ^ (k + 1) = 128 ^ k * 128 := Nat.pow_succ ..
    have positive : 0 < 128 ^ k := Nat.pow_pos (by decide)
    have tail := ih (n := n / 128) (by omega)
    have step (i : Nat) : n / 128 / 128 ^ i = n / 128 ^ (i + 1) := by
      rw [Nat.div_div_eq_div_mul, Nat.mul_comm, ← Nat.pow_succ]
    simp only [step] at tail
    rw [encode_large (by omega), tail, List.range_succ_eq_map]
    simp [Function.comp_def]

theorem encode_length_pos (n : Nat) : 0 < (encode n).length := (encode_whole n).length_pos

/-- The length of a number is found from its size, one limit for each length. -/
theorem encode_length_eq {n k : Nat} (low : k = 0 ∨ 128 ^ k ≤ n) (high : n < 128 ^ (k + 1)) :
    (encode n).length = k + 1 := by
  have most := encode_length_le.mpr high
  rcases low with rfl | low
  · have some := encode_length_pos n
    omega
  · cases k with
    | zero =>
      have some := encode_length_pos n
      omega
    | succ k =>
      have least := mt encode_length_le.mp (Nat.not_lt.mpr low)
      omega

end Encode

section Front

/-- The number at the front of a sequence of bytes is found, whatever comes behind it. -/
theorem wholeLength_append {digits : List UInt8} (whole : Whole digits) {max : Nat}
    (fits : digits.length ≤ max) (rest : List UInt8) :
    wholeLength max (digits ++ rest) = some digits.length := by
  induction whole generalizing max with
  | last ends =>
    cases max with
    | zero => simp at fits
    | succ max => simp [wholeLength, ends]
  | more goesOn _ ih =>
    cases max with
    | zero => simp at fits
    | succ max =>
      have tail := ih (Nat.le_of_succ_le_succ fits)
      simp [wholeLength, Nat.not_lt.mpr goesOn, tail]

/-- Nothing else is found. -/
theorem wholeLength_some {max n : Nat} {bytes : List UInt8} (found : wholeLength max bytes = some n) :
    n ≤ max ∧ n ≤ bytes.length ∧ Whole (bytes.take n) := by
  induction max generalizing bytes n with
  | zero => cases found
  | succ max ih =>
    cases bytes with
    | nil => cases found
    | cons b rest =>
      simp only [wholeLength] at found
      split at found
      case isTrue ends =>
        cases found
        refine ⟨by omega, by simp, ?_⟩
        rw [List.take_succ_cons, List.take_zero]
        exact .last ends
      case isFalse goesOn =>
        obtain ⟨m, inner, rfl⟩ := Option.map_eq_some_iff.mp found
        obtain ⟨short, inside, whole⟩ := ih inner
        refine ⟨by omega, by simpa using inside, ?_⟩
        rw [List.take_succ_cons]
        exact .more (Nat.not_lt.mp goesOn) whole

end Front

section Count

/-- The numbers that end in a sequence of bytes. -/
def ends (bytes : List UInt8) : Nat := bytes.countP fun b => decide (b.toNat < 128)

@[simp] theorem ends_append (front back : List UInt8) : ends (front ++ back) = ends front + ends back :=
  List.countP_append

theorem Whole.ends_eq {digits : List UInt8} (whole : Whole digits) : ends digits = 1 := by
  induction whole with
  | last ends => simp [Base128.ends, ends]
  | more goesOn _ ih =>
    rw [ends, List.countP_cons_of_neg (by simpa using goesOn)]
    exact ih

/-- As many numbers end in a sequence as it was made of. -/
theorem ends_flatMap {α : Type*} {code : α → List UInt8} (whole : ∀ a, Whole (code a)) (values : List α) :
    ends (values.flatMap code) = values.length := by
  induction values with
  | nil => rfl
  | cons a values ih =>
    rw [List.flatMap_cons, ends_append, (whole a).ends_eq, ih, List.length_cons, Nat.add_comm]

end Count

end Base128

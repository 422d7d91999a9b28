import Mumble.EncoderProofs

/-! The layout of an outgoing packet. A position is copied behind the payload and not
counted, and the size of the buffer is an `int`. -/
namespace Mumble
open CExec

/-- The bytes of a packet, with the position that the caller has given. -/
def packetLayout (target sequence : UInt32) (payload : List UInt8) (position : Option Position) :
    List UInt8 :=
  audioHeader target :: (varintBytes sequence.toUInt64 ++ (payload ++ position.elim [] Position.bytes))

/-- The callback is handed these bytes and their number, whatever is behind the payload. -/
def LaysOut {ω : Type} (api : OpusEncoderApi ω) (target sequence : UInt32) (payload : List UInt8)
    (position : Option Position) : Prop :=
  ∀ tail final, encoderCodecCb api (some (recorded fun (_ : Unit) _ _ => .ok ())) target.toUInt64
      (position.getD api.unset) (sequence, (), []) (payload ++ tail) payload.length final =
    .ok (sequence + 1, (), [packetLayout target sequence payload position])

/-- Memory is of the size asked for, and any size that an `int` holds is granted. -/
structure OpusEncoderApi.Allocates {ω : Type} (api : OpusEncoderApi ω) : Prop where
  grants : ∀ n < 2 ^ 31, ∃ memory, api.malloc n = some memory
  size : ∀ n memory, api.malloc n = some memory → memory.length = n

section
variable {ω τ : Type} {api : OpusEncoderApi ω}

/-- A size that the `int` does not hold is cut to one that is too small for the
payload. -/
theorem encoderCodecCb_too_large (allocates : api.Allocates) {cb : Option (τ → List UInt8 → Nat → Run τ)}
    {target : UInt64} {position : Position} {sequence : UInt32} {state : τ} {payload tail : List UInt8}
    {final : Bool} (large : 2 ^ 31 ≤ payload.length + 37) (unsigned : payload.length < 2 ^ 32)
    (run : encoderCodecCb api cb target position (sequence, state) (payload ++ tail) payload.length final =
      .ok result) : False := by
  have encodedSize : toInt (toSize (payload.length + 8 * 3 + 4 * 3 + 1)) = payload.length + 37 - 2 ^ 32 := by
    rw [toSize, toInt, Int.bmod_def]
    split <;> omega
  unfold encoderCodecCb at run
  dsimp only at run
  rw [encodedSize] at run
  split at run
  · cases run
  next memory got =>
    have size := allocates.size _ _ got
    obtain ⟨encoded, header, run⟩ := bind_eq_ok.mp run
    obtain ⟨⟨ret, behind, written⟩, encoding, run⟩ := bind_eq_ok.mp run
    obtain ⟨_, zero, run⟩ := bind_eq_ok.mp run
    obtain ⟨_, -, run⟩ := bind_eq_ok.mp run
    obtain ⟨copied, taken, run⟩ := bind_eq_ok.mp run
    obtain ⟨_, stored, -⟩ := bind_eq_ok.mp run
    obtain ⟨same, room⟩ := varintEncode_eq_ok encoding
    have width := varintBytes_length sequence.toUInt64
    have whole := (store_eq_ok header).2
    have inside := (store_eq_ok stored).1
    rw [slice_length_append] at taken
    cases taken
    have fits := room (require_eq_ok.mp zero)
    have bound : memory.length ≤ 36 := by
      rw [size, toSize_of_small (by omega) (by omega)]
      omega
    rw [List.length_append, List.length_take, same, List.length_drop] at inside
    omega

theorem layout_of_condition (allocates : api.Allocates) (target sequence : UInt32) {payload : List UInt8}
    (small : payload.length + 37 < 2 ^ 31) : LaysOut api target sequence payload none := by
  intro tail final
  obtain ⟨memory, got⟩ := allocates.grants (payload.length + 37) small
  obtain ⟨⟨⟩, run⟩ := encoderCodecCb_eq (fun (_ : Unit) _ _ _ => ⟨(), rfl⟩) target
    ((none : Option Position).getD api.unset) sequence () [] got (allocates.size _ _ got) small tail final
  rw [run, packetLayout, Option.elim_none, List.append_nil]
  rfl

end

/-- The callback is handed the packet if and only if no position is given and the
size of the buffer does not overflow. -/
theorem packet_layout_iff {ω : Type} (api : OpusEncoderApi ω) (allocates : api.Allocates)
    (target sequence : UInt32) (payload : List UInt8) (unsigned : payload.length < 2 ^ 32)
    (position : Option Position) :
    LaysOut api target sequence payload position ↔ position = none ∧ payload.length + 37 < 2 ^ 31 := by
  constructor
  · intro laysOut
    have small : payload.length + 37 < 2 ^ 31 := by
      by_contra large
      exact encoderCodecCb_too_large allocates (Nat.le_of_not_lt large) unsigned (laysOut [] false)
    refine ⟨?_, small⟩
    cases position with
    | none => rfl
    | some p =>
      obtain ⟨memory, got⟩ := allocates.grants (payload.length + 37) small
      obtain ⟨⟨⟩, run⟩ := encoderCodecCb_eq (fun (_ : Unit) _ _ _ => ⟨(), rfl⟩) target
        ((some p).getD api.unset) sequence () [] got (allocates.size _ _ got) small [] false
      have same := (laysOut [] false).symm.trans run
      simp only [Except.ok.injEq, Prod.mk.injEq, List.nil_append, List.cons.injEq, true_and, and_true,
        packetLayout, List.append_cancel_left_eq, Option.elim_some] at same
      have twelve : p.bytes.length = 12 := rfl
      rw [List.append_right_eq_self.mp same] at twelve
      cases twelve
  · rintro ⟨rfl, small⟩
    exact layout_of_condition allocates target sequence small

theorem echoOpus_allocates : echoOpus.Allocates where
  grants n _ := ⟨List.replicate n 0, rfl⟩
  size n memory got := by
    cases got
    exact List.length_replicate

theorem packet_layout_sample :
    LaysOut echoOpus 3 7 [1, 2] none ↔
      (none : Option Position) = none ∧ [(1 : UInt8), 2].length + 37 < 2 ^ 31 :=
  packet_layout_iff echoOpus echoOpus_allocates 3 7 [1, 2] (Nat.le_of_ble_eq_true rfl) none

/-- With a position the callback is handed a packet that ends with the payload. -/
theorem packet_layout_short :
    encoderCodecCb echoOpus (some (recorded fun (_ : Unit) _ _ => .ok ())) 3 ⟨1, 2, 3⟩ (7, (), []) [1, 2] 2
        false = .ok (8, (), [[0x83, 7, 1, 2]]) ∧
      ¬ LaysOut echoOpus 3 7 [1, 2] (some ⟨1, 2, 3⟩) := by
  have short : encoderCodecCb echoOpus (some (recorded fun (_ : Unit) _ _ => .ok ())) 3 ⟨1, 2, 3⟩ (7, (), [])
      [1, 2] 2 false = .ok (8, (), [[0x83, 7, 1, 2]]) := by decide +kernel
  refine ⟨short, fun laysOut => ?_⟩
  have whole := short.symm.trans (laysOut [] false)
  exact absurd whole (by decide +kernel)

end Mumble

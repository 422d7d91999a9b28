import Mathlib.Data.List.Infix

/-! Streams of frames that are cut anywhere. `wire` gives the bytes of a frame,
and a prefix of a stream is whole frames and the start of one more. -/
namespace Framing
variable {φ β : Type} (wire : φ → List β)

def stream (frames : List φ) : List β := frames.flatMap wire

/-- `rest` is the start of the next frame, or of the `tail` behind the last one. -/
def Unfinished (frames : List φ) (tail rest : List β) : Prop :=
  match frames with
  | [] => rest <+: tail
  | f :: _ => rest <+: wire f ∧ rest.length < (wire f).length

/-- A cut after `n` bytes is `k` bytes behind the end of a frame. -/
def CutAt (k : Nat) (frames : List φ) (n : Nat) : Prop :=
  ∃ whole, whole <+: frames ∧ n = (stream wire whole).length + k

variable {wire}

@[simp] theorem stream_nil : stream wire [] = [] := rfl

@[simp] theorem stream_cons (f : φ) (frames : List φ) :
    stream wire (f :: frames) = wire f ++ stream wire frames := List.flatMap_cons

@[simp] theorem stream_append (frames more : List φ) :
    stream wire (frames ++ more) = stream wire frames ++ stream wire more := List.flatMap_append

theorem length_le_stream (long : ∀ f, 0 < (wire f).length) (frames : List φ) :
    frames.length ≤ (stream wire frames).length := by
  induction frames with
  | nil => exact Nat.le_refl 0
  | cons f frames ih =>
    have head := long f
    rw [stream_cons, List.length_append, List.length_cons]
    omega

theorem prefix_split {frames : List φ} {p : List β} (inside : p <+: stream wire frames ++ tail) :
    ∃ whole left rest, frames = whole ++ left ∧ p = stream wire whole ++ rest ∧
      Unfinished wire left tail rest := by
  induction frames generalizing p with
  | nil => exact ⟨[], [], p, rfl, rfl, inside⟩
  | cons f frames ih =>
    rw [stream_cons, List.append_assoc] at inside
    by_cases short : p.length < (wire f).length
    · refine ⟨[], f :: frames, p, rfl, rfl, ?_, short⟩
      exact List.prefix_of_prefix_length_le inside (List.prefix_append _ _) (Nat.le_of_lt short)
    · have first : wire f <+: p :=
        List.prefix_of_prefix_length_le (List.prefix_append _ _) inside (Nat.le_of_not_lt short)
      obtain ⟨p, rfl⟩ := first
      obtain ⟨whole, left, rest, rfl, rfl, unfinished⟩ := ih ((List.prefix_append_right_inj _).mp inside)
      exact ⟨f :: whole, left, rest, rfl, by rw [stream_cons, List.append_assoc], unfinished⟩

/-- What is still to come when a window has been rid of its whole frames. -/
theorem stream_after {whole left : List φ} {window window' chunk more tail : List β}
    (split : window ++ chunk = stream wire whole ++ window')
    (bytes : window ++ (chunk ++ more) = stream wire (whole ++ left) ++ tail) :
    window' ++ more = stream wire left ++ tail := by
  rw [← List.append_assoc, split, stream_append, List.append_assoc, List.append_assoc] at bytes
  exact List.append_cancel_left bytes

theorem cutAt_unfinished {frames : List φ} (unfinished : Unfinished wire frames tail rest) :
    CutAt wire k frames rest.length ↔ rest.length = k := by
  constructor
  · rintro ⟨whole, first, size⟩
    cases whole with
    | nil => exact size.trans (Nat.zero_add k)
    | cons f whole =>
      obtain ⟨more, rfl⟩ := first
      have short : rest.length < (wire f).length := unfinished.2
      rw [stream_cons, List.length_append] at size
      omega
  · rintro rfl
    exact ⟨[], List.nil_prefix, (Nat.zero_add _).symm⟩

/-- Where a cut lies does not depend on whole frames before it. -/
theorem cutAt_append (long : ∀ f, k < (wire f).length) (whole frames : List φ) (n : Nat) :
    CutAt wire k (whole ++ frames) ((stream wire whole).length + n) ↔ CutAt wire k frames n := by
  induction whole with
  | nil => rw [List.nil_append, stream_nil, List.length_nil, Nat.zero_add]
  | cons f whole ih =>
    rw [← ih, List.cons_append, stream_cons, List.length_append, Nat.add_assoc]
    constructor
    · rintro ⟨front, first, size⟩
      cases front with
      | nil =>
        have behind := long f
        rw [stream_nil, List.length_nil] at size
        omega
      | cons g front =>
        obtain ⟨same, inner⟩ := List.cons_prefix_cons.mp first
        rw [stream_cons, List.length_append, same] at size
        exact ⟨front, inner, by omega⟩
    · rintro ⟨front, first, size⟩
      exact ⟨f :: front, List.cons_prefix_cons.mpr ⟨rfl, first⟩, by
        rw [stream_cons, List.length_append, size, Nat.add_assoc]⟩

end Framing

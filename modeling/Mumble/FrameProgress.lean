import Mumble.ControlBuffer

/-! The length arithmetic of the frame decoder over all lengths that a header can
announce, and the progress of the dispatch loop, which rests on it. -/
namespace Mumble
open CExec Bytes Framing Relation

/-- The length field of a header. -/
def announced (window : List UInt8) : Nat := bigEndian ((window.drop 2).take 4)

/-- The window is ready when the frame is whole, and is popped by that frame. -/
structure FrameExact (ctx : FrameDecoder) : Prop where
  ready : mumbleFrameReady ctx = true ↔ 6 + announced ctx.buffer ≤ ctx.buffer.length
  pop : mumbleFrameReady ctx = true →
    (mumbleFramePop ctx).2.buffer = ctx.buffer.drop (6 + announced ctx.buffer)

section
variable {ctx : FrameDecoder}

theorem announced_lt (window : List UInt8) : announced window < 2 ^ 32 := by
  have bound := bigEndian_lt ((window.drop 2).take 4)
  have size : ((window.drop 2).take 4).length ≤ 4 := List.length_take_le 4 _
  exact bound.trans_le (Nat.pow_le_pow_right (by decide) size)

/-- The sum of the length and the header size, both as an `int` and as an `unsigned`. -/
theorem frameTotal_announced (header : 6 ≤ ctx.buffer.length) :
    frameTotal ctx = (announced ctx.buffer + 6) % 2 ^ 32 := by
  have sum : toUnsigned (toInt (toInt (announced ctx.buffer) + 6)) =
      (announced ctx.buffer + 6) % 2 ^ 32 := by
    rw [toUnsigned, toInt, toInt, Int.bmod_add_bmod, Int.bmod_def]
    split <;> omega
  rw [frameTotal, mumbleFrameSize, if_neg (Nat.not_lt.mpr header)]
  exact sum

theorem buffer_lt (ctx : FrameDecoder) : ctx.buffer.length < 2 ^ 21 :=
  Nat.lt_of_le_of_lt (ctx.fits.trans ctx.limit) (by decide)

theorem mumbleFrameReady_iff : mumbleFrameReady ctx = true ↔ frameTotal ctx ≤ ctx.buffer.length := by
  rw [mumbleFrameReady, decide_eq_true_iff]
  rfl

theorem mumbleFramePop_total (ready : mumbleFrameReady ctx = true) :
    (mumbleFramePop ctx).2.buffer = ctx.buffer.drop (frameTotal ctx) := by
  have inside := mumbleFrameReady_iff.mp ready
  have bound := buffer_lt ctx
  rw [mumbleFramePop_buffer ready]
  congr 1
  rw [frameTotal, toUnsigned] at inside ⊢
  have range := @Int.le_bmod (mumbleFrameSize ctx + frameHeaderSize) (2 ^ 32) (by decide)
  have range' := @Int.bmod_lt (mumbleFrameSize ctx + frameHeaderSize) (2 ^ 32) (by decide)
  change (_ : Int) ≤ toInt _ at range
  change toInt _ < (_ : Int) at range'
  omega

/-- Only the six largest lengths overflow together with the header size. -/
theorem frameExact_iff (header : 6 ≤ ctx.buffer.length) :
    FrameExact ctx ↔ announced ctx.buffer < 2 ^ 32 - 6 := by
  have total := frameTotal_announced header
  have bound := buffer_lt ctx
  have field := announced_lt ctx.buffer
  constructor
  · intro exact
    by_contra large
    have ready : mumbleFrameReady ctx = true := by
      rw [mumbleFrameReady_iff, total]
      omega
    have whole := exact.ready.mp ready
    omega
  · intro small
    have sum : frameTotal ctx = 6 + announced ctx.buffer := by omega
    refine ⟨?_, fun ready => ?_⟩
    · rw [mumbleFrameReady_iff, sum]
    · rw [mumbleFramePop_total ready, sum]

end

section
variable {σ μ : Type} {h : Handlers σ μ} {client next : Client σ}

/-- A round of the dispatch loop. -/
def AdapterRound (h : Handlers σ μ) (client next : Client σ) : Prop :=
  mumbleFrameReady client.decoder = true ∧ adapterRound h client = .ok next

/-- In every round that the loop makes from here, a window with a header is handled
exactly, and the window shrinks by a header at least. The loop ends. -/
structure LoopProgress (h : Handlers σ μ) (client : Client σ) : Prop where
  exact : ∀ reached, ReflTransGen (AdapterRound h) client reached →
    6 ≤ reached.decoder.buffer.length → FrameExact reached.decoder
  shrinks : ∀ reached next, ReflTransGen (AdapterRound h) client reached →
    AdapterRound h reached next → next.decoder.buffer.length + 6 ≤ reached.decoder.buffer.length
  ends : ∃ last, adapterLoop h (client.decoder.buffer.length + 1) client = .ok last

/-- The bytes behind the whole frames of a window: too few for a header and not five
of them, or less than a header announces whose length does not overflow. -/
def Awaits (rest : List UInt8) : Prop :=
  rest.length < 5 ∨ 6 ≤ rest.length ∧ rest.length < 6 + announced rest ∧ announced rest < 2 ^ 32 - 6

/-- A row of whole frames and the start of one more. -/
def FrameRow (window : List UInt8) : Prop :=
  ∃ frames rest, window = stream Frame.wire frames ++ rest ∧ Awaits rest

/-- One whole frame at the front of a window. -/
theorem AdapterRound.shrinks (round : AdapterRound h client next)
    (exact : FrameExact client.decoder) :
    next.decoder.buffer = client.decoder.buffer.drop (6 + announced client.decoder.buffer) ∧
      6 + announced client.decoder.buffer ≤ client.decoder.buffer.length := by
  rw [adapterRound_pop round.1 round.2]
  exact ⟨exact.pop round.1, exact.ready.mp round.1⟩

/-- The frame that a window starts with. -/
theorem exists_frame {window : List UInt8} (whole : 6 + announced window ≤ window.length) :
    ∃ f : Frame, f.payload.length = announced window ∧
      window = f.wire ++ window.drop (6 + announced window) := by
  have small := announced_lt window
  have size : ((window.drop 6).take (announced window)).length = announced window := by
    rw [List.length_take, List.length_drop]
    omega
  have field : (window.take 2).length = 2 := List.length_take_of_le (by omega)
  have length : ((window.drop 2).take 4).length = 4 := by
    rw [List.length_take, List.length_drop]
    omega
  have type : bigEndian (window.take 2) < 2 ^ 16 := by
    have bound := bigEndian_lt (window.take 2)
    rwa [field] at bound
  refine ⟨⟨.ofNat (bigEndian (window.take 2)), (window.drop 6).take (announced window), by omega⟩,
    size, ?_⟩
  have header : ofBigEndian 2 (bigEndian (window.take 2)) = window.take 2 := by
    refine bigEndian_inj (by rw [ofBigEndian_length, field]) ?_
    rw [bigEndian_ofBigEndian 2 type]
  have header' : ofBigEndian 4 (announced window) = (window.drop 2).take 4 := by
    refine bigEndian_inj (by rw [ofBigEndian_length, length]) ?_
    rw [bigEndian_ofBigEndian 4 small, announced]
  have stored : (UInt16.ofNat (bigEndian (window.take 2))).toNat = bigEndian (window.take 2) := by
    rw [UInt16.toNat_ofNat']
    exact Nat.mod_eq_of_lt type
  have split : window.take 2 ++ ((window.drop 2).take 4 ++ ((window.drop 6).take (announced window) ++
      window.drop (6 + announced window))) = window := by
    rw [← List.drop_drop, List.take_append_drop]
    change _ ++ (_ ++ List.drop (2 + 4) window) = _
    rw [← List.drop_drop, List.take_append_drop, List.take_append_drop]
  simp only [Frame.wire, Frame.header, stored, size, header, header', List.append_assoc, split]

/-- Behind a row of frames nothing is ready. -/
theorem Awaits.not_ready {ctx : FrameDecoder} (awaits : Awaits ctx.buffer) :
    mumbleFrameReady ctx = false := by
  rcases awaits with short | ⟨header, cut, small⟩
  · rw [Bool.eq_false_iff, ne_eq, mumbleFrameReady_short (by omega)]
    omega
  · rw [Bool.eq_false_iff, ne_eq, ((frameExact_iff header).mpr small).ready]
    omega

/-- The first frame of a row is handled exactly, and a row is left. -/
theorem FrameRow.round (row : FrameRow client.decoder.buffer) (round : AdapterRound h client next) :
    FrameRow next.decoder.buffer ∧
      next.decoder.buffer.length + 6 ≤ client.decoder.buffer.length := by
  obtain ⟨frames, rest, window, awaits⟩ := row
  cases frames with
  | nil =>
    rw [stream_nil, List.nil_append] at window
    have idle : mumbleFrameReady client.decoder = false := Awaits.not_ready (window ▸ awaits)
    exact absurd (idle.symm.trans round.1) Bool.false_ne_true
  | cons f frames =>
    have bound := buffer_lt client.decoder
    have size := congrArg List.length window
    rw [stream_cons, List.append_assoc] at window size
    rw [List.length_append, frame_wire_length] at size
    obtain ⟨-, popped⟩ := mumbleFramePop_wire window (by omega)
    rw [adapterRound_pop round.1 round.2, popped]
    exact ⟨⟨frames, rest, rfl, awaits⟩, by omega⟩

theorem FrameRow.exact {ctx : FrameDecoder} (row : FrameRow ctx.buffer) (header : 6 ≤ ctx.buffer.length) :
    FrameExact ctx := by
  rw [frameExact_iff header]
  obtain ⟨frames, rest, window, awaits⟩ := row
  cases frames with
  | nil =>
    rw [stream_nil, List.nil_append] at window
    subst window
    rcases awaits with short | ⟨-, -, small⟩
    · omega
    · exact small
  | cons f frames =>
    have bound := buffer_lt ctx
    have field : announced ctx.buffer = f.payload.length := by
      rw [window, stream_cons, List.append_assoc, wire_append]
      exact header_take_size f _
    rw [stream_cons, List.append_assoc] at window
    rw [window, List.length_append, frame_wire_length] at bound
    omega

theorem FrameRow.reached (row : FrameRow client.decoder.buffer)
    (rounds : ReflTransGen (AdapterRound h) client next) : FrameRow next.decoder.buffer := by
  induction rounds with
  | refl => exact row
  | tail _ last ih => exact (ih.round last).1

theorem FrameRow.ends (returns : h.Returns) {rounds : Nat} (row : FrameRow client.decoder.buffer)
    (enough : client.decoder.buffer.length < rounds) : ∃ last, adapterLoop h rounds client = .ok last := by
  induction rounds generalizing client with
  | zero => cases enough
  | succ rounds ih =>
    cases ready : mumbleFrameReady client.decoder with
    | false => exact ⟨client, adapterLoop_idle ready rounds⟩
    | true =>
      obtain ⟨state, run⟩ := adapterRound_returns returns ready
      obtain ⟨row', shorter⟩ := row.round ⟨ready, run⟩
      rw [adapterLoop, if_pos ready, run, ok_bind]
      exact ih row' (by omega)

/-- A window that keeps shrinking as it should is a row of frames. -/
theorem frameRow_of_progress (returns : h.Returns) {size : Nat}
    (bound : client.decoder.buffer.length ≤ size)
    (exact : ∀ reached, ReflTransGen (AdapterRound h) client reached →
      6 ≤ reached.decoder.buffer.length → FrameExact reached.decoder)
    (shrinks : ∀ reached next, ReflTransGen (AdapterRound h) client reached →
      AdapterRound h reached next →
      next.decoder.buffer.length + 6 ≤ reached.decoder.buffer.length) :
    FrameRow client.decoder.buffer := by
  induction size using Nat.strong_induction_on generalizing client with
  | h size ih =>
    cases ready : mumbleFrameReady client.decoder with
    | false =>
      refine ⟨[], client.decoder.buffer, rfl, ?_⟩
      by_cases header : 6 ≤ client.decoder.buffer.length
      · have whole := exact client .refl header
        have cut : ¬ 6 + announced client.decoder.buffer ≤ client.decoder.buffer.length := by
          rw [← whole.ready, ready]
          exact Bool.false_ne_true
        exact .inr ⟨header, Nat.lt_of_not_le cut, (frameExact_iff header).mp whole⟩
      · have five : client.decoder.buffer.length ≠ 5 := by
          rw [ne_eq, ← mumbleFrameReady_short (by omega), ready]
          exact Bool.false_ne_true
        exact .inl (by omega)
    | true =>
      obtain ⟨next, round⟩ : ∃ next, AdapterRound h client next :=
        (adapterRound_returns returns ready).elim fun state run => ⟨_, ready, run⟩
      have shorter := shrinks client next .refl round
      have header : 6 ≤ client.decoder.buffer.length := by omega
      obtain ⟨popped, whole⟩ := round.shrinks (exact client .refl header)
      have row : FrameRow next.decoder.buffer := by
        refine ih next.decoder.buffer.length (by omega) (Nat.le_refl _) ?_ ?_
        · exact fun reached rounds => exact reached (.head round rounds)
        · exact fun reached last rounds => shrinks reached last (.head round rounds)
      obtain ⟨f, -, window⟩ := exists_frame whole
      obtain ⟨frames, rest, split, awaits⟩ := row
      refine ⟨f :: frames, rest, ?_, awaits⟩
      rw [window, ← popped, split, stream_cons, List.append_assoc]

end

/-- Over every window: the loop takes whole frames, a header at least in each round,
and ends, exactly when the window is a row of frames and the start of one more that is
not five bytes long and announces none of the six largest lengths. -/
theorem loop_progress_iff {σ μ : Type} (h : Handlers σ μ) (returns : h.Returns) (client : Client σ) :
    LoopProgress h client ↔ FrameRow client.decoder.buffer := by
  constructor
  · intro progress
    exact frameRow_of_progress returns (Nat.le_refl _) progress.exact progress.shrinks
  · intro row
    refine ⟨?_, ?_, row.ends returns (Nat.lt_succ_self _)⟩
    · exact fun reached rounds header => (row.reached rounds).exact header
    · exact fun reached next rounds round => ((row.reached rounds).round round).2

/-- A client whose window holds `buffer`. -/
def holding (buffer : List UInt8) (fits : buffer.length ≤ frameMaxSize) : Client Unit where
  decoder := { buffer, bufferAllocated := frameMaxSize, fits, limit := Nat.le_refl _ }
  state := ()

theorem six_fit : [(0 : UInt8), 3, 0xFF, 0xFF, 0xFF, 0xFA].length ≤ frameMaxSize := by decide

theorem loop_progress_sample :
    LoopProgress quietHandlers (holding [0, 3, 0, 0, 0, 0, 0, 3] (Nat.le_of_ble_eq_true rfl)) :=
  (loop_progress_iff quietHandlers quietHandlers_returns _).mpr
    ⟨[emptyPing], [0, 3], rfl, .inl (show 2 < 5 by decide)⟩

/-- A header that announces six bytes fewer than an `unsigned` can count is a ready
frame of no bytes, and is dispatched for ever. -/
theorem loop_stands_still :
    (∀ rounds, adapterLoop quietHandlers rounds
      (holding [0, 3, 0xFF, 0xFF, 0xFF, 0xFA] six_fit) = .error .endless) ∧
    ¬ LoopProgress quietHandlers (holding [0, 3, 0xFF, 0xFF, 0xFF, 0xFA] six_fit) := by
  have round : AdapterRound quietHandlers (holding [0, 3, 0xFF, 0xFF, 0xFF, 0xFA] six_fit)
      (holding [0, 3, 0xFF, 0xFF, 0xFF, 0xFA] six_fit) := by
    refine ⟨by decide, ?_⟩
    decide
  refine ⟨fun rounds => ?_, fun progress => ?_⟩
  · induction rounds with
    | zero => rfl
    | succ rounds ih => rw [adapterLoop, if_pos round.1, round.2, ok_bind, ih]
  · have shorter := progress.shrinks _ _ .refl round
    omega

end Mumble

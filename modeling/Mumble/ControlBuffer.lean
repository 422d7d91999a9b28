import Mumble.ControlStream

/-! The room in the frame decoder's window. Between two reads the window holds
less than the frame at its front is said to take, and nothing else bounds it. -/
namespace Mumble
open CExec

/-- The bytes that the frame at the front of the window takes, by its header. -/
def frameTotal (ctx : FrameDecoder) : Nat := toUnsigned (toInt (mumbleFrameSize ctx + frameHeaderSize))

/-- The size of the buffer that a read is made into. -/
def chunkSize : Nat := 16 * 1024

/-- Between two reads. -/
structure FrameDecoder.Idle (ctx : FrameDecoder) : Prop where
  allocated : ctx.bufferAllocated = frameMaxSize
  waiting : mumbleFrameReady ctx = false

section
variable {σ μ : Type} {h : Handlers σ μ} {client client' : Client σ} {ctx : FrameDecoder}

theorem mumbleFrameReady_false : mumbleFrameReady ctx = false ↔ ctx.buffer.length < frameTotal ctx := by
  rw [mumbleFrameReady, decide_eq_false_iff_not, Nat.not_le]
  rfl

theorem adapterRound_allocated (ready : mumbleFrameReady client.decoder = true)
    (run : adapterRound h client = .ok client') :
    client'.decoder.bufferAllocated = client.decoder.bufferAllocated := by
  rw [adapterRound_pop ready run]
  exact mumbleFramePop_allocated client.decoder

/-- The loop is left only when no frame is ready. -/
theorem adapterLoop_idle_after {rounds : Nat} (run : adapterLoop h rounds client = .ok client')
    (allocated : client.decoder.bufferAllocated = frameMaxSize) : client'.decoder.Idle := by
  induction rounds generalizing client with
  | zero => cases run
  | succ rounds ih =>
    rw [adapterLoop] at run
    split at run
    case isTrue ready =>
      obtain ⟨middle, round, run⟩ := bind_eq_ok.mp run
      exact ih run ((adapterRound_allocated ready round).trans allocated)
    case isFalse waiting =>
      cases run
      exact ⟨allocated, Bool.eq_false_iff.mpr waiting⟩

theorem mumbleFrameAppend_ok {chunk : List UInt8}
    (run : mumbleFrameAppend ctx chunk chunk.length = .ok (ready, ctx')) :
    ctx'.buffer = ctx.buffer ++ chunk ∧ ctx'.bufferAllocated = ctx.bufferAllocated := by
  obtain ⟨data, copied, run⟩ := bind_eq_ok.mp run
  rw [slice_of_le (Nat.le_refl _), List.take_length] at copied
  cases copied
  split at run
  · cases run
    exact ⟨rfl, rfl⟩
  · cases run

theorem mumbleFrameAppend_overflow {chunk : List UInt8}
    (past : ctx.bufferAllocated < ctx.buffer.length + chunk.length) :
    mumbleFrameAppend ctx chunk chunk.length = .error .outOfBounds := by
  have outside : ¬ (ctx.buffer ++ chunk).length ≤ ctx.bufferAllocated := by
    rw [List.length_append]
    exact Nat.not_le.mpr past
  rw [mumbleFrameAppend, slice_of_le (Nat.le_refl _), ok_bind, List.take_length, dif_neg outside]

theorem adapter_unsigned {chunk : List UInt8} (size : chunk.length ≤ chunkSize) :
    toUnsigned (chunk.length : Int) = chunk.length := by
  have small : chunkSize < 2 ^ 32 := by decide
  rw [toUnsigned_natCast]
  exact Nat.mod_eq_of_lt (Nat.lt_of_le_of_lt size small)

theorem receiveAll_idle {chunks : List (List UInt8)} (sizes : ∀ chunk ∈ chunks, chunk.length ≤ chunkSize)
    (idle : client.decoder.Idle) (run : receiveAll h client chunks = .ok client') :
    client'.decoder.Idle := by
  induction chunks generalizing client with
  | nil =>
    cases run
    exact idle
  | cons chunk chunks ih =>
    obtain ⟨middle, first, rest⟩ := bind_eq_ok.mp run
    obtain ⟨⟨ready, decoder⟩, appended, loop⟩ := bind_eq_ok.mp first
    rw [adapter_unsigned (sizes chunk (by simp))] at appended
    have allocated := (mumbleFrameAppend_ok appended).2.trans idle.allocated
    exact ih (fun c member => sizes c (by simp [member])) (adapterLoop_idle_after loop allocated) rest

theorem mumbleFrameInit_idle : mumbleFrameInit.Idle := ⟨rfl, by decide⟩

theorem frameTotal_short (short : ctx.buffer.length < 6) : frameTotal ctx = 5 := by
  rw [frameTotal, mumbleFrameSize, if_pos short]
  decide

/-- The length field stays in front of what is appended. -/
theorem frameTotal_append (long : 6 ≤ ctx.buffer.length) (more : ctx'.buffer = ctx.buffer ++ data) :
    frameTotal ctx' = frameTotal ctx := by
  have long' : 6 ≤ ctx'.buffer.length := by
    rw [more, List.length_append]
    exact Nat.le_add_right_of_le long
  have field : (ctx'.buffer.drop 2).take 4 = (ctx.buffer.drop 2).take 4 := by
    rw [more, List.drop_append_of_le_length (Nat.le_trans (by decide) long),
      List.take_append_of_le_length (by rw [List.length_drop]; omega)]
  rw [frameTotal, frameTotal, mumbleFrameSize, mumbleFrameSize, if_neg (Nat.not_lt.mpr long'),
    if_neg (Nat.not_lt.mpr long), field]

/-- A chunk that does not complete the frame at the front. -/
theorem adapter_waits (idle : client.decoder.Idle) (long : 6 ≤ client.decoder.buffer.length)
    {chunk : List UInt8} (size : chunk.length ≤ chunkSize)
    (waits : client.decoder.buffer.length + chunk.length < frameTotal client.decoder)
    (fits : client.decoder.buffer.length + chunk.length ≤ frameMaxSize) :
    ∃ client', mumbleMessageCbAdapter h client chunk chunk.length = .ok client' ∧
      client'.decoder.Idle ∧ client'.decoder.buffer = client.decoder.buffer ++ chunk := by
  have room : (client.decoder.buffer ++ chunk).length ≤ client.decoder.bufferAllocated := by
    rw [List.length_append, idle.allocated]
    exact fits
  obtain ⟨ready, ctx', appended, buffer, allocated⟩ := mumbleFrameAppend_of_fits room
  have waiting : mumbleFrameReady ctx' = false := by
    rw [mumbleFrameReady_false, frameTotal_append long buffer, buffer, List.length_append]
    exact waits
  have loop : adapterLoop h (ctx'.buffer.length + 1) ⟨ctx', client.state⟩ = .ok ⟨ctx', client.state⟩ :=
    @adapterLoop_idle _ _ h ⟨ctx', client.state⟩ waiting ctx'.buffer.length
  refine ⟨⟨ctx', client.state⟩, ?_, ⟨allocated.trans idle.allocated, waiting⟩, buffer⟩
  rw [mumbleMessageCbAdapter, adapter_unsigned size, appended, ok_bind]
  exact loop

/-- The window is filled up as long as the frame is not complete. -/
theorem window_fills (idle : client.decoder.Idle) (long : 6 ≤ client.decoder.buffer.length)
    (chunks : List (List UInt8)) (sizes : ∀ chunk ∈ chunks, chunk.length ≤ chunkSize)
    (waits : client.decoder.buffer.length + chunks.flatten.length < frameTotal client.decoder)
    (fits : client.decoder.buffer.length + chunks.flatten.length ≤ frameMaxSize) :
    ∃ client', receiveAll h client chunks = .ok client' ∧ client'.decoder.Idle ∧
      client'.decoder.buffer = client.decoder.buffer ++ chunks.flatten := by
  induction chunks generalizing client with
  | nil => exact ⟨client, rfl, idle, (List.append_nil _).symm⟩
  | cons chunk chunks ih =>
    rw [List.flatten_cons, List.length_append] at waits fits
    obtain ⟨middle, first, idle', buffer⟩ :=
      adapter_waits (h := h) idle long (sizes chunk (by simp)) (by omega) (by omega)
    have length : middle.decoder.buffer.length = client.decoder.buffer.length + chunk.length := by
      rw [buffer, List.length_append]
    have total := frameTotal_append long buffer
    obtain ⟨client', rest, idle'', buffer'⟩ :=
      ih idle' (by omega) (fun c member => sizes c (by simp [member])) (by omega) (by omega)
    refine ⟨client', ?_, idle'', ?_⟩
    · rw [receiveAll, first, ok_bind, rest]
    · rw [buffer', buffer, List.flatten_cons, List.append_assoc]

/-- A frame that leaves no room for one more read, and reads of nothing but zeros. -/
theorem window_overflows (idle : client.decoder.Idle)
    (large : frameMaxSize - chunkSize + 1 < frameTotal client.decoder) :
    ∃ more chunk last, (∀ c ∈ more ++ [chunk], c.length ≤ chunkSize) ∧
      receiveAll h client more = .ok last ∧
      mumbleFrameAppend last.decoder chunk chunk.length = .error .outOfBounds := by
  have waiting := mumbleFrameReady_false.mp idle.waiting
  have long : 6 ≤ client.decoder.buffer.length := by
    by_contra short
    rw [frameTotal_short (Nat.lt_of_not_le short)] at large
    exact absurd large (by decide)
  have inside : client.decoder.buffer.length ≤ frameMaxSize := by
    rw [← idle.allocated]
    exact client.decoder.fits
  have bound : frameMaxSize - chunkSize + 1 ≤ frameMaxSize := by decide
  let more := List.replicate (frameMaxSize - chunkSize + 1 - client.decoder.buffer.length) [(0 : UInt8)]
  have size : ∀ c ∈ more, c.length ≤ chunkSize := by
    intro c member
    rw [List.eq_of_mem_replicate member]
    decide
  have total : more.flatten.length = frameMaxSize - chunkSize + 1 - client.decoder.buffer.length := by
    simp [more]
  obtain ⟨last, filled, idle', buffer⟩ := window_fills (h := h) idle long more size (by omega) (by omega)
  refine ⟨more, List.replicate chunkSize 0, last, ?_, filled, mumbleFrameAppend_overflow ?_⟩
  · intro c member
    rcases List.mem_append.mp member with byte | chunk
    · exact size c byte
    · rw [List.mem_singleton.mp chunk, List.length_replicate]
  · have past : frameMaxSize < frameMaxSize - chunkSize + 1 + chunkSize := by decide
    rw [idle'.allocated, buffer, List.length_append, total, List.length_replicate]
    omega

end

/-- In a run whose frames are never said to take more than leaves room for one
more read, every append is within the window. From a state with a frame of more,
some chunks end in an append past its end. -/
theorem control_buffer_bounded {σ μ : Type} (h : Handlers σ μ) (state : σ) (chunks : List (List UInt8))
    (sizes : ∀ chunk ∈ chunks, chunk.length ≤ chunkSize) :
    ((∀ front reached, front <+: chunks → receiveAll h ⟨mumbleFrameInit, state⟩ front = .ok reached →
        frameTotal reached.decoder ≤ frameMaxSize - chunkSize + 1) →
      ∀ front chunk reached, front ++ [chunk] <+: chunks →
        receiveAll h ⟨mumbleFrameInit, state⟩ front = .ok reached →
        reached.decoder.buffer.length ≤ reached.decoder.bufferAllocated ∧
          ∃ ready ctx, mumbleFrameAppend reached.decoder chunk chunk.length = .ok (ready, ctx)) ∧
      ∀ reached, receiveAll h ⟨mumbleFrameInit, state⟩ chunks = .ok reached →
        frameMaxSize - chunkSize + 1 < frameTotal reached.decoder →
        ∃ more chunk last, (∀ c ∈ more ++ [chunk], c.length ≤ chunkSize) ∧
          receiveAll h reached more = .ok last ∧
          mumbleFrameAppend last.decoder chunk chunk.length = .error .outOfBounds := by
  constructor
  · intro declared front chunk reached before run
    have inside : front <+: chunks := (List.prefix_append front [chunk]).trans before
    have idle := receiveAll_idle (fun c member => sizes c (inside.mem member)) mumbleFrameInit_idle run
    have total := declared front reached inside run
    have waiting := mumbleFrameReady_false.mp idle.waiting
    have size := sizes chunk (before.mem (by simp))
    have room : (reached.decoder.buffer ++ chunk).length ≤ reached.decoder.bufferAllocated := by
      rw [List.length_append, idle.allocated]
      unfold frameMaxSize chunkSize at *
      omega
    obtain ⟨ready, ctx, appended, -⟩ := mumbleFrameAppend_of_fits room
    exact ⟨reached.decoder.fits, ready, ctx, appended⟩
  · intro reached run large
    have idle := receiveAll_idle sizes mumbleFrameInit_idle run
    exact window_overflows idle large

/-- A header whose frame of a mebibyte is said to follow. -/
def largeHeader : List UInt8 := [0, 3, 0, 16, 0, 0]

/-- A frame of no payload in two chunks. -/
theorem control_buffer_sample :
    ∃ reached, receiveAll quietHandlers ⟨mumbleFrameInit, ()⟩ [[0, 3, 0]] = .ok reached ∧
      reached.decoder.buffer.length ≤ reached.decoder.bufferAllocated ∧
        ∃ ready ctx, mumbleFrameAppend reached.decoder [0, 0, 0] 3 = .ok (ready, ctx) := by
  let reached : Client Unit := ⟨⟨[0, 3, 0], frameMaxSize, by decide, Nat.le_refl _⟩, ()⟩
  have run : receiveAll quietHandlers ⟨mumbleFrameInit, ()⟩ [[0, 3, 0]] = .ok reached := by
    decide +kernel
  refine ⟨reached, run, (control_buffer_bounded quietHandlers () [[0, 3, 0], [0, 0, 0]] (by decide)).1 ?_
    [[0, 3, 0]] [0, 0, 0] reached (List.prefix_refl _) run⟩
  intro front reached before run
  have total : ∀ front ∈ [[0, 3, 0], [0, 0, 0]].inits,
      (receiveAll quietHandlers ⟨mumbleFrameInit, ()⟩ front).map
        (fun client => decide (frameTotal client.decoder ≤ frameMaxSize - chunkSize + 1)) = .ok true := by
    decide +kernel
  have small := total front ((List.mem_inits _ _).mpr before)
  rw [run] at small
  exact of_decide_eq_true (Except.ok.inj small)

/-- The header, 63 full reads, and one read too many. -/
theorem control_buffer_overflows :
    ¬ ∀ chunks chunk reached, (∀ c ∈ chunks ++ [chunk], c.length ≤ chunkSize) →
      receiveAll quietHandlers ⟨mumbleFrameInit, ()⟩ chunks = .ok reached →
      ∃ ready ctx, mumbleFrameAppend reached.decoder chunk chunk.length = .ok (ready, ctx) := by
  intro inside
  let waiting : Client Unit := ⟨⟨largeHeader, frameMaxSize, by decide, Nat.le_refl _⟩, ()⟩
  have first : mumbleMessageCbAdapter quietHandlers ⟨mumbleFrameInit, ()⟩ largeHeader largeHeader.length =
      .ok waiting := by decide +kernel
  have idle : waiting.decoder.Idle := ⟨rfl, by decide⟩
  have total : frameTotal waiting.decoder = frameMaxSize + 6 := by decide
  let chunk := List.replicate chunkSize (0 : UInt8)
  have chunk_length : chunk.length = chunkSize := List.length_replicate
  have filling : (List.replicate 63 chunk).flatten.length = 63 * chunkSize := by
    rw [List.length_flatten, List.map_replicate, List.sum_replicate, chunk_length]
    rfl
  have room : largeHeader.length + 63 * chunkSize < frameMaxSize := by decide
  have past : frameMaxSize < largeHeader.length + 63 * chunkSize + chunkSize := by decide
  have size : ∀ c ∈ List.replicate 63 chunk, c.length ≤ chunkSize := by
    intro c member
    rw [List.eq_of_mem_replicate member, chunk_length]
  have header : waiting.decoder.buffer = largeHeader := rfl
  obtain ⟨last, filled, idle', buffer⟩ := window_fills (h := quietHandlers) idle (by decide)
    (List.replicate 63 chunk) size (by rw [header]; omega) (by rw [header]; omega)
  have run : receiveAll quietHandlers ⟨mumbleFrameInit, ()⟩ (largeHeader :: List.replicate 63 chunk) =
      .ok last := by
    rw [receiveAll, first, ok_bind, filled]
  have sizes : ∀ c ∈ (largeHeader :: List.replicate 63 chunk) ++ [chunk], c.length ≤ chunkSize := by
    intro c member
    rcases List.mem_append.mp member with earlier | final
    · rcases List.mem_cons.mp earlier with rfl | full
      · decide
      · exact size c full
    · rw [List.mem_singleton.mp final, chunk_length]
  have overflow : last.decoder.bufferAllocated < last.decoder.buffer.length + chunk.length := by
    rw [idle'.allocated, buffer, List.length_append, filling, chunk_length]
    exact past
  obtain ⟨ready, ctx, appended⟩ := inside _ chunk last sizes run
  rw [mumbleFrameAppend_overflow overflow] at appended
  cases appended

end Mumble

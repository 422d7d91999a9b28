import Mumble.EncoderProofs

/-! Two runs of the sender that differ in what one target is told. A block that
is begun under one target and completed under another is sent to the latter. -/
namespace Mumble
open CExec Chunking

/-- A libopus that also keeps a log of the samples it is given. -/
def OpusEncoderApi.logged {ω : Type} (api : OpusEncoderApi ω) :
    OpusEncoderApi (ω × List (List UInt8)) where
  encode state pcm count room :=
    let (ret, next, data) := api.encode state.1 pcm count room
    (ret, (next, state.2 ++ [pcm]), data)
  malloc := api.malloc
  unset := api.unset

/-- The target that the header of a packet carries. -/
def stampOf (packet : List UInt8) : UInt32 := (audioTarget (packet.headD 0)).toUInt32

/-- The PCM frames behind the packets that are stamped with another target than `t`. -/
def framesBeside {ω : Type} (api : OpusEncoderApi ω) (size : FrameSize) (encoder : ω)
    (codecOut framedOut : Memory size.bytes) (t : UInt32) (calls : List EncodeCall) :
    Run (List (List UInt8)) := do
  let (last, _, packets) ← encodeAll api.logged (recorded fun (_ : Unit) _ _ => .ok ())
    (mumbleAudioEncoderInit (encoder, []) size codecOut framedOut) ((), []) calls
  .ok (((last.opus.encoder.2.zip packets).filter fun sent => stampOf sent.2 ≠ t).map Prod.fst)

/-- Calls that differ at most in the samples that are passed under `t`. -/
def SameBut (t : UInt32) (calls calls' : List EncodeCall) : Prop :=
  List.Forall₂ (fun call call' => call.target = call'.target ∧ call.hz = call'.hz ∧
    call.position = call'.position ∧ call.samples.length = call'.samples.length ∧
    (call.target ≠ t → call.samples = call'.samples)) calls calls'

/-- Bytes that differ at most in a value that is supplied under `t`. -/
def Agree (t : UInt32) (b b' : Supplied) : Prop := b.2 = b'.2 ∧ (b.2 ≠ t → b.1 = b'.1)

/-- What `opus_encode` reads of a block. -/
def handed {α : Type} (size : FrameSize) (block : List α) : List α := block.take (2 * (size.bytes / 2))

/-- The target that a block is stamped with. -/
def blockStamp (block : List Supplied) : UInt32 := blockTarget block &&& 0x1F

section
variable {ω : Type} {api : OpusEncoderApi ω} {size : FrameSize}

theorem logged_returns (returns : api.Returns size) : api.logged.Returns size where
  encode encoder block := by
    obtain ⟨ret, next, data, encoded, bounds⟩ := returns.encode encoder.1 block
    refine ⟨ret, (next, encoder.2 ++ [block]), data, ?_, bounds⟩
    simp only [OpusEncoderApi.logged, encoded]
  malloc := returns.malloc

theorem audioHeader_target (target : UInt32) :
    (audioTarget (audioHeader target)).toUInt32 = target &&& 0x1F := by
  have all : ∀ n < 32, (audioTarget (encodedHeader audioOpus (UInt32.ofNat n).toUInt64)).toUInt32 =
      .ofNat n := by decide
  obtain ⟨n, low, same, header⟩ := audioHeader_low target
  rw [same, header, all n low]

theorem opusAfter_logged (encoder : ω) (log : List (List UInt8)) (found : List (List UInt8)) :
    (opusAfter api.logged size (encoder, log) found).2 = log ++ found.map (handed size) := by
  induction found generalizing encoder log with
  | nil => exact (List.append_nil log).symm
  | cons block found ih =>
    have next : opusNext api.logged size (encoder, log) block =
      (opusNext api size encoder block, log ++ [handed size block]) := rfl
    rw [opusAfter, List.foldl_cons, next]
    exact (ih _ _).trans (by rw [List.append_assoc, List.map_cons, List.singleton_append])

/-- Every frame is paired with its packet, and the stamp of the packet is that of the block. -/
theorem zip_packetsOf {ω : Type} {api : OpusEncoderApi ω} (t : UInt32) (sequence : UInt32) (encoder : ω)
    (found : List (List Supplied)) (frame : List Supplied → List UInt8) :
    ((((found.map frame).zip (packetsOf api size sequence encoder found)).filter
        fun sent => stampOf sent.2 ≠ t).map Prod.fst) =
      (found.filter fun block => blockStamp block ≠ t).map frame := by
  induction found generalizing sequence encoder with
  | nil => rfl
  | cons block found ih =>
    have stamp (output : List UInt8) :
        stampOf (voicePacket (blockTarget block) sequence output) = blockStamp block :=
      audioHeader_target (blockTarget block)
    rw [List.map_cons, packetsOf, List.zip_cons_cons, List.filter_cons, List.filter_cons, stamp]
    split
    · rw [List.map_cons, ih, List.map_cons]
    · exact ih _ _

/-- The frames beside `t` are read off the blocks of what was supplied. -/
theorem framesBeside_eq (returns : api.Returns size) (encoder : ω)
    (codecOut framedOut : Memory size.bytes) (t : UInt32) (calls : List EncodeCall) :
    framesBeside api size encoder codecOut framedOut t calls =
      .ok (((chunks size.bytes (suppliedBy calls)).filter fun block => blockStamp block ≠ t).map
        fun block => handed size (block.map Prod.fst)) := by
  obtain ⟨last, next, -, after, run⟩ := encodeAll_init (logged_returns returns)
    (fun (_ : Unit) _ _ _ => ⟨(), rfl⟩) (encoder, []) codecOut framedOut calls ()
  rw [framesBeside, run, ok_bind]
  dsimp only
  rw [after, opusAfter_logged, List.nil_append, List.map_map]
  exact congrArg _ (zip_packetsOf t 0 _ _ _)

theorem SameBut.supplied {t : UInt32} {calls calls' : List EncodeCall} (same : SameBut t calls calls') :
    List.Forall₂ (Agree t) (suppliedBy calls) (suppliedBy calls') := by
  refine List.rel_flatMap same ?_
  rintro call call' ⟨target, -, -, length, samples⟩
  by_cases told : call.target = t
  · refine List.forall₂_iff_zip.mpr ⟨?_, ?_⟩
    · simp only [EncodeCall.supplied, EncodeCall.bytes, List.length_map, pcmBytes_length, length]
    · intro b b' pair
      obtain ⟨member, member'⟩ := List.of_mem_zip pair
      obtain ⟨x, -, rfl⟩ := List.mem_map.mp member
      obtain ⟨x', -, rfl⟩ := List.mem_map.mp member'
      exact ⟨target, fun other => absurd told other⟩
  · have bytes : call.supplied = call'.supplied := by
      rw [EncodeCall.supplied, EncodeCall.supplied, EncodeCall.bytes, EncodeCall.bytes, samples told, target]
    rw [bytes, List.forall₂_same]
    exact fun b _ => ⟨rfl, fun _ => rfl⟩

theorem Agree.tags {t : UInt32} {block block' : List Supplied}
    (agree : List.Forall₂ (Agree t) block block') : block.map Prod.snd = block'.map Prod.snd := by
  induction agree with
  | nil => rfl
  | cons head _ ih => rw [List.map_cons, List.map_cons, head.1, ih]

theorem Agree.values {t : UInt32} {block block' : List Supplied}
    (agree : List.Forall₂ (Agree t) block block') (other : ∀ b ∈ block, b.2 ≠ t) :
    block.map Prod.fst = block'.map Prod.fst := by
  induction agree with
  | nil => rfl
  | @cons b b' block block' head _ ih =>
    rw [List.map_cons, List.map_cons, head.2 (other b (by simp)),
      ih fun b member => other b (by simp [member])]

theorem blockStamp_tags {block block' : List Supplied}
    (tags : block.map Prod.snd = block'.map Prod.snd) : blockStamp block = blockStamp block' := by
  rw [blockStamp, blockStamp, blockTarget, blockTarget, ← List.getLast?_map, ← List.getLast?_map, tags]

/-- Every byte of a frame is supplied under the target that its packet is stamped with. -/
def SingleTarget (size : FrameSize) (calls : List EncodeCall) : Prop :=
  ∀ block ∈ chunks size.bytes (suppliedBy calls), ∀ b ∈ handed size block, b.2 = blockStamp block

theorem frames_agree {t : UInt32} {found found' : List (List Supplied)}
    (agree : List.Forall₂ (List.Forall₂ (Agree t)) found found')
    (single : ∀ block ∈ found, ∀ b ∈ handed size block, b.2 = blockStamp block) :
    ((found.filter fun block => blockStamp block ≠ t).map fun block => handed size (block.map Prod.fst)) =
      (found'.filter fun block => blockStamp block ≠ t).map
        fun block => handed size (block.map Prod.fst) := by
  induction agree with
  | nil => rfl
  | @cons block block' found found' head _ ih =>
    have rest := ih fun block member => single block (by simp [member])
    rw [List.filter_cons, List.filter_cons, ← blockStamp_tags (Agree.tags head)]
    split
    case isFalse => exact rest
    case isTrue other =>
      have values := Agree.values (List.forall₂_take (2 * (size.bytes / 2)) head)
        fun b member same => of_decide_eq_true other ((single block (by simp) b member).symm.trans same)
      rw [List.map_cons, List.map_cons, rest, handed, handed, ← List.map_take, ← List.map_take, values]

/-- The calls with other samples under `t`. -/
def changed (t : UInt32) (call : EncodeCall) : EncodeCall :=
  if call.target = t then
    { call with
      samples := call.samples.map (· ^^^ 0x0101)
      small := Nat.lt_of_le_of_lt (Nat.le_of_eq (List.length_map _)) call.small }
  else call

def changedByte (t : UInt32) (b : Supplied) : Supplied := if b.2 = t then (b.1 ^^^ 1, b.2) else b

theorem changedByte_tag (t : UInt32) (b : Supplied) : (changedByte t b).2 = b.2 := by
  unfold changedByte
  split
  · rfl
  · rfl

theorem changedByte_value {t : UInt32} {b : Supplied} (kept : (changedByte t b).1 = b.1) : b.2 ≠ t := by
  intro told
  rw [changedByte, if_pos told] at kept
  have bit : b.1 ^^^ (b.1 ^^^ 1) = b.1 ^^^ b.1 := congrArg (b.1 ^^^ ·) kept
  rw [← UInt8.xor_assoc, UInt8.xor_self, UInt8.zero_xor] at bit
  cases bit

theorem changed_same (t : UInt32) (calls : List EncodeCall) : SameBut t calls (calls.map (changed t)) := by
  rw [SameBut, List.forall₂_map_right_iff, List.forall₂_same]
  intro call _
  unfold changed
  split
  case isTrue told => exact ⟨rfl, rfl, rfl, (List.length_map _).symm, fun other => absurd told other⟩
  case isFalse => exact ⟨rfl, rfl, rfl, rfl, fun _ => rfl⟩

theorem pcmBytes_changed (samples : List UInt16) :
    pcmBytes (samples.map (· ^^^ 0x0101)) = (pcmBytes samples).map (· ^^^ 1) := by
  induction samples with
  | nil => rfl
  | cons sample samples ih =>
    have low : (sample ^^^ 0x0101).toUInt8 = sample.toUInt8 ^^^ 1 := UInt16.toUInt8_xor _ _
    have high : ((sample ^^^ 0x0101) >>> 8).toUInt8 = (sample >>> 8).toUInt8 ^^^ 1 := by
      rw [UInt16.shiftRight_xor]
      exact UInt16.toUInt8_xor _ _
    rw [pcmBytes] at ih ⊢
    rw [List.map_cons, List.flatMap_cons, ih, low, high]
    rfl

theorem changed_supplied (t : UInt32) (call : EncodeCall) :
    (changed t call).supplied = call.supplied.map (changedByte t) := by
  rw [EncodeCall.supplied, EncodeCall.supplied, List.map_map]
  unfold changed
  split
  case isTrue told =>
    rw [EncodeCall.bytes, pcmBytes_changed, List.map_map]
    apply List.map_congr_left
    intro b _
    simp only [Function.comp_apply, changedByte, if_pos told]
  case isFalse other =>
    apply List.map_congr_left
    intro b _
    simp only [Function.comp_apply, changedByte, if_neg other]

theorem suppliedBy_changed (t : UInt32) (calls : List EncodeCall) :
    suppliedBy (calls.map (changed t)) = (suppliedBy calls).map (changedByte t) := by
  rw [suppliedBy, suppliedBy, List.flatMap_map, List.map_flatMap]
  simp only [changed_supplied]

end

/-- The frames beside each target depend on nothing that the target is told
exactly when no frame that is sent is put together for two targets. -/
theorem target_isolation_iff {ω : Type} (api : OpusEncoderApi ω) (size : FrameSize)
    (returns : api.Returns size) (encoder : ω) (codecOut framedOut : Memory size.bytes)
    (calls : List EncodeCall) :
    (∀ t calls', SameBut t calls calls' →
        framesBeside api size encoder codecOut framedOut t calls =
          framesBeside api size encoder codecOut framedOut t calls') ↔
      SingleTarget size calls := by
  simp only [framesBeside_eq returns]
  constructor
  · intro isolated block found b member
    by_contra leaked
    have stamps (block : List Supplied) : blockStamp (block.map (changedByte b.2)) = blockStamp block := by
      apply blockStamp_tags
      rw [List.map_map]
      exact List.map_congr_left fun b' _ => changedByte_tag b.2 b'
    have same := Except.ok.inj (isolated b.2 _ (changed_same b.2 calls))
    rw [suppliedBy_changed, chunks_map, List.filter_map, List.map_map] at same
    simp only [Function.comp_def, stamps] at same
    have frame := List.map_inj_left.mp same block
      (List.mem_filter.mpr ⟨found, decide_eq_true (Ne.symm leaked)⟩)
    rw [List.map_map, handed, handed, ← List.map_take, ← List.map_take] at frame
    exact changedByte_value (List.map_inj_left.mp frame b member).symm rfl
  · intro single t calls' same
    rw [frames_agree (chunks_forall₂ same.supplied) single]

/-- The first target's samples fill five frames, so that they do not depend on the second's. -/
theorem target_isolation_sample :
    framesBeside echoOpus eightBytes 0 zeros zeros 2
        [callFrom 1 10, callFrom 1 20, callFrom 1 30, callFrom 1 40, callFrom 2 50] =
      framesBeside echoOpus eightBytes 0 zeros zeros 2
        [callFrom 1 10, callFrom 1 20, callFrom 1 30, callFrom 1 40, callFrom 2 60] := by
  have single : SingleTarget eightBytes
      [callFrom 1 10, callFrom 1 20, callFrom 1 30, callFrom 1 40, callFrom 2 50] := by
    intro block found b member
    -- `decide` would run through every byte and target; the tags are lists, which it evaluates
    have tags : ∀ block ∈ chunks eightBytes.bytes (suppliedBy
        [callFrom 1 10, callFrom 1 20, callFrom 1 30, callFrom 1 40, callFrom 2 50]),
        (handed eightBytes block).map Prod.snd = List.replicate 8 (blockStamp block) := by decide +kernel
    have tag : b.2 ∈ (handed eightBytes block).map Prod.snd := List.mem_map_of_mem member
    rw [tags block found] at tag
    exact List.eq_of_mem_replicate tag
  refine (target_isolation_iff echoOpus eightBytes echoOpus_returns 0 zeros zeros _).mpr single 2 _ ?_
  exact .cons ⟨rfl, rfl, rfl, rfl, fun _ => rfl⟩ (.cons ⟨rfl, rfl, rfl, rfl, fun _ => rfl⟩
    (.cons ⟨rfl, rfl, rfl, rfl, fun _ => rfl⟩ (.cons ⟨rfl, rfl, rfl, rfl, fun _ => rfl⟩
      (.cons ⟨rfl, rfl, rfl, rfl, fun other => absurd rfl other⟩ .nil))))

/-- The fifth sample for the first target is sent to the second one. -/
theorem target_leaks : ¬ ∀ t calls', SameBut t [callFrom 1 10, callFrom 2 20] calls' →
    framesBeside echoOpus eightBytes 0 zeros zeros t [callFrom 1 10, callFrom 2 20] =
      framesBeside echoOpus eightBytes 0 zeros zeros t calls' := by
  intro isolated
  have told : SameBut 1 [callFrom 1 10, callFrom 2 20] [callFrom 1 30, callFrom 2 20] :=
    .cons ⟨rfl, rfl, rfl, rfl, fun other => absurd rfl other⟩
      (.cons ⟨rfl, rfl, rfl, rfl, fun _ => rfl⟩ .nil)
  have heard : framesBeside echoOpus eightBytes 0 zeros zeros 1 [callFrom 1 10, callFrom 2 20] =
      .ok [[14, 0, 20, 0, 21, 0, 22, 0]] := by decide +kernel
  have heard' : framesBeside echoOpus eightBytes 0 zeros zeros 1 [callFrom 1 30, callFrom 2 20] =
      .ok [[34, 0, 20, 0, 21, 0, 22, 0]] := by decide +kernel
  have same := isolated 1 _ told
  rw [heard, heard'] at same
  cases same

end Mumble

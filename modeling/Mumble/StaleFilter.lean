import Mumble.SpeakerProofs

/-! The filter for late packets, over any sequence numbers. The mark has half the
width of a number, so that it falls short of the highest number once that needs
more, and a number whose bit 31 is set is compared with its upper half filled. -/
namespace Mumble
open CExec HighWater

/-- What is delivered is in order, what is dropped is what is below something
delivered before it, and every packet is counted as one or the other. -/
structure Filtered {ω : Type} (api : OpusApi ω) (opus : ω) (packets : List VoicePacket)
    (last : AudioDecoder ω) (heard : List VoicePacket) : Prop where
  ordered : heard.Pairwise fun p q => p.seq ≤ q.seq
  exact : ∀ front p back, packets = front ++ p :: back → ∀ before earlier d,
    decodeAll api (freshDecoder opus) front = .ok (before, earlier) →
    mumbleAudioDecoderDecode api before p.bytes p.bytes.length = .ok d →
    (d.delivered = none ↔ ∃ q ∈ earlier, p.seq < q.seq)
  counted : last.packets = .ofNat heard.length + last.droppedSequence

/-- The decoder gets through all packets, and has filtered them. -/
def FiltersStale {ω : Type} (api : OpusApi ω) (opus : ω) (packets : List VoicePacket) : Prop :=
  ∃ last heard, decodeAll api (freshDecoder opus) packets = .ok (last, heard) ∧
    Filtered api opus packets last heard

/-- The payload is decoded, and the cursor, which moves by the count of samples, has
passed the end or stops twelve bytes in front of it. -/
structure VoicePacket.Plays {ω : Type} (api : OpusApi ω) (codec : ω) (p : VoicePacket) : Prop where
  length : Plain p.length
  untrailed : p.trailer = []
  stops : (p.body.length : Int) ≤ samplesOf api codec p.payload ∨
    (p.body.length : Int) = samplesOf api codec p.payload + 12

/-- The state of libopus behind the payloads of some packets. -/
def codecAfter {ω : Type} (api : OpusApi ω) (opus : ω) (packets : List VoicePacket) : ω :=
  packets.foldl (fun codec p => (decodeCall api codec p.payload).2.1) opus

/-- The header is read. A late packet has bit 31 of its number clear and is below the lower
half of the highest number before it, and any other is played. -/
def Filterable {ω : Type} (api : OpusApi ω) (opus : ω) (front : List VoicePacket) (p : VoicePacket) : Prop :=
  p.Headed ∧
    if p.seq < level VoicePacket.seq 0 front then
      p.seq % 2 ^ 32 < 2 ^ 31 ∧ p.seq < level VoicePacket.seq 0 front % 2 ^ 32
    else p.Plays api (codecAfter api opus (passed VoicePacket.seq 0 front))

section
variable {ω : Type} {api : OpusApi ω} {decoder decoder' : AudioDecoder ω} {opus : ω} {p : VoicePacket}
  {packets heard front : List VoicePacket}

/-- The counters of a run. -/
theorem decodeAll_counted (installed : decoder.cb = true)
    (run : decodeAll api decoder packets = .ok (decoder', heard)) :
    decoder'.packets + decoder.droppedSequence =
      decoder.packets + (.ofNat heard.length + decoder'.droppedSequence) := by
  induction packets generalizing decoder heard with
  | nil =>
    cases run
    exact congrArg _ (UInt32.zero_add _).symm
  | cons p packets ih =>
    obtain ⟨d, first, run⟩ := bind_eq_ok.mp run
    obtain ⟨⟨decoder'', heard'⟩, rest, run⟩ := bind_eq_ok.mp run
    cases run
    obtain ⟨installed', counted, outcome⟩ := decode_mark installed first
    have later := ih installed' rest
    rw [counted] at later
    rcases outcome with ⟨-, nothing, -, dropped, -⟩ | ⟨-, delivered, -, dropped⟩
    · rw [nothing]
      rw [dropped] at later
      simp only [Option.isSome_none, Bool.false_eq_true, if_false]
      grind
    · rw [delivered]
      rw [dropped] at later
      simp only [Option.isSome_some, if_true, List.length_cons, UInt32.ofNat_add]
      grind

theorem decodeAll_concat {before : AudioDecoder ω} {d : Decoded ω}
    (start : decodeAll api decoder front = .ok (before, heard))
    (step : mumbleAudioDecoderDecode api before p.bytes p.bytes.length = .ok d) :
    decodeAll api decoder (front ++ [p]) =
      .ok (d.decoder, heard ++ if d.delivered.isSome then [p] else []) := by
  induction front generalizing decoder heard with
  | nil =>
    cases start
    rw [List.nil_append, decodeAll, step, ok_bind]
    rfl
  | cons q front ih =>
    obtain ⟨first, read, start⟩ := bind_eq_ok.mp start
    obtain ⟨⟨middle, heard'⟩, rest, start⟩ := bind_eq_ok.mp start
    cases start
    rw [List.cons_append, decodeAll, read, ok_bind, ih rest, ok_bind]
    dsimp only
    split
    · rw [List.cons_append]
    · rfl

theorem headed_of_run {d : Decoded ω}
    (run : mumbleAudioDecoderDecode api decoder p.bytes p.bytes.length = .ok d) : p.Headed := by
  obtain ⟨long, _, _, _, header, -⟩ := mumbleAudioDecoderDecode_cases run
  exact VoicePacket.headed_of_decode (Int.ofNat_lt.mp long) header

theorem announced_readAs (small : p.bytes.length < 2 ^ 31) : opusLength (readAs p.lengthId) = p.payload.length := by
  have bound := p.body_lt small
  rw [PacketOf.body, List.length_append, List.length_append] at bound
  rw [opusLength_readAs (by rw [p.announced]; omega), p.announced]

/-- A payload that is decoded has its length in front of it and nothing behind it. -/
theorem framed_of_run (small : p.bytes.length < 2 ^ 31) {codec : ω} {frame : OpusFrame ω}
    (run : mumbleCodecOpusDecode api codec (p.body ++ p.trailer) (p.body ++ p.trailer).length = .ok frame) :
    Plain p.length ∧ p.trailer = [] ∧ frame.ret = samplesOf api codec p.payload ∧
      frame.codec = (decodeCall api codec p.payload).2.1 := by
  obtain ⟨⟨ret, value⟩, read, -⟩ := bind_eq_ok.mp run
  have some := List.length_pos_iff.mpr p.isLength.nonempty
  have plain : Plain p.length := by
    rw [PacketOf.body, List.append_assoc] at read
    refine p.isLength.plain ?_ read
    rw [List.length_append]
    omega
  rw [← List.append_nil (p.body ++ p.trailer), List.length_append, List.length_nil, Nat.add_zero] at run
  exact ⟨plain, untrailed_of_mumbleCodecOpusDecode (p.body_lt small) (p.isLength.read plain)
    (announced_readAs small) run⟩

/-- A packet that is not late returns only if it is played. -/
theorem plays_of_run (small : p.bytes.length < 2 ^ 31) {d : Decoded ω}
    (run : mumbleAudioDecoderDecode api decoder p.bytes p.bytes.length = .ok d)
    (high : ¬ p.seen < decoder.sequence.toNat) :
    p.Plays api decoder.opus ∧ d.decoder.opus = (decodeCall api decoder.opus p.payload).2.1 := by
  obtain ⟨-, audio, rest, left, header, outcome⟩ := mumbleAudioDecoderDecode_cases run
  cases (headed_of_run run).decode.symm.trans header
  rcases outcome with ⟨low, -⟩ | ⟨-, -, opus, audio', rest', left', payload, position, after⟩
  · exact absurd (VoicePacket.readAs_lt_iff.mp low) high
  have codec : (headerOf p.header (readAs p.sourceId) (readAs p.sequenceId)).codec = audioOpus := p.opus
  obtain ⟨frame, decoded, positive, rfl, rfl, rfl, rfl⟩ := frame_of_decodePayload codec payload
  obtain ⟨plain, nothing, samples, next⟩ := framed_of_run small decoded
  have bound := p.body_lt small
  rw [nothing, List.append_nil] at position bound
  rw [after]
  refine ⟨⟨plain, nothing, ?_⟩, next⟩
  rw [← samples]
  by_cases past : (p.body.length : Int) ≤ frame.ret
  · exact .inl past
  · have stops := left_of_position (by omega) (by omega) position
    omega

theorem run_of_plays (succeeds : api.Succeeds) (small : p.bytes.length < 2 ^ 31) (headed : p.Headed)
    (outcome : p.seen < decoder.sequence.toNat ∨ p.Plays api decoder.opus) :
    ∃ d, mumbleAudioDecoderDecode api decoder p.bytes p.bytes.length = .ok d := by
  have long := Int.ofNat_lt.mpr headed.long
  by_cases late : p.seen < decoder.sequence.toNat
  · exact ⟨_, mumbleAudioDecoderDecode_dropped long headed.decode (VoicePacket.readAs_lt_iff.mpr late)⟩
  obtain ⟨plain, untrailed, stops⟩ := outcome.resolve_left late
  have header := headed.decode
  have bound := p.body_lt small
  rw [untrailed, List.append_nil] at header bound
  have codec : (headerOf p.header (readAs p.sourceId) (readAs p.sequenceId)).codec = audioOpus := p.opus
  obtain ⟨frame, payload, positive, count, -⟩ := decodePayload_framed succeeds codec
    (p.isLength.read plain) p.nonempty (announced_readAs small) bound decoder.opus []
  have whole : p.length ++ p.payload = p.body := rfl
  rw [List.append_nil, whole] at payload
  have inTime := fun low => late (VoicePacket.readAs_lt_iff.mp low)
  rw [← count] at stops
  rcases stops with past | twelve
  · exact ⟨_, mumbleAudioDecoderDecode_of_stages long header inTime payload (if_neg (by omega))⟩
  · have left : (p.body.length : Int) - frame.ret = 12 := by omega
    rw [left] at payload
    obtain ⟨packet', position⟩ := decodePosition_twelve
      { headerOf p.header (readAs p.sourceId) (readAs p.sequenceId) with pcm := ⟨frame.pcm, 48000, frame.ret⟩ }
      (show 12 ≤ (p.body.drop frame.ret.toNat).length by rw [List.length_drop]; omega)
    exact ⟨_, mumbleAudioDecoderDecode_of_stages long header inTime payload position⟩

/-- Behind these packets the decoder has let pass what the filter lets pass. -/
structure Follows (api : OpusApi ω) (opus : ω) (front : List VoicePacket) (before : AudioDecoder ω) : Prop where
  run : decodeAll api (freshDecoder opus) front = .ok (before, passed VoicePacket.seq 0 front)
  installed : before.cb = true
  mark : before.sequence.toNat = level VoicePacket.seq 0 front % 2 ^ 32
  codec : before.opus = codecAfter api opus (passed VoicePacket.seq 0 front)

/-- The next packet returns, and is dropped if and only if it is late. -/
def Decides (api : OpusApi ω) (opus : ω) (front : List VoicePacket) (p : VoicePacket) : Prop :=
  ∃ before earlier d, decodeAll api (freshDecoder opus) front = .ok (before, earlier) ∧
    mumbleAudioDecoderDecode api before p.bytes p.bytes.length = .ok d ∧
    (d.delivered = none ↔ ∃ q ∈ earlier, p.seq < q.seq)

section Following
variable {before : AudioDecoder ω} {d : Decoded ω}

theorem Follows.late_iff (follows : Follows api opus front before) :
    p.seen < before.sequence.toNat ↔
      p.seq % 2 ^ 32 < 2 ^ 31 ∧ p.seq < level VoicePacket.seq 0 front % 2 ^ 32 := by
  rw [follows.mark]
  exact signExtended_lt_iff (Nat.mod_lt _ (by decide))

/-- What is not below the highest number is not below the mark. -/
theorem Follows.inTime (follows : Follows api opus front before)
    (high : ¬ p.seq < level VoicePacket.seq 0 front) : ¬ p.seen < before.sequence.toNat := by
  rw [follows.late_iff]
  have lower := Nat.mod_le (level VoicePacket.seq 0 front) (2 ^ 32)
  omega

theorem Follows.decides_iff (follows : Follows api opus front before) (succeeds : api.Succeeds)
    (small : p.bytes.length < 2 ^ 31) : Decides api opus front p ↔ Filterable api opus front p := by
  have highest : (∃ q ∈ passed VoicePacket.seq 0 front, p.seq < q.seq) ↔ p.seq < level VoicePacket.seq 0 front :=
    (level_lt_iff (Nat.zero_le _)).symm
  have codec := follows.codec
  constructor
  · rintro ⟨_, _, d, start, step, decides⟩
    cases follows.run.symm.trans start
    rw [highest] at decides
    refine ⟨headed_of_run step, ?_⟩
    obtain ⟨-, -, outcome⟩ := decode_mark follows.installed step
    split
    case isTrue low =>
      rcases outcome with ⟨late, -⟩ | ⟨-, delivered, -⟩
      · exact follows.late_iff.mp late
      · cases (decides.mpr low).symm.trans delivered
    case isFalse high =>
      rw [← codec]
      exact (plays_of_run small step (follows.inTime high)).1
  · rintro ⟨headed, condition⟩
    split at condition
    case isTrue low =>
      have late := follows.late_iff.mpr condition
      obtain ⟨d, step⟩ := run_of_plays succeeds small headed (.inl late)
      obtain ⟨-, -, ⟨-, nothing, -⟩ | ⟨high, -⟩⟩ := decode_mark follows.installed step
      · exact ⟨before, _, d, follows.run, step, iff_of_true nothing (highest.mpr low)⟩
      · exact absurd late high
    case isFalse high =>
      rw [← codec] at condition
      obtain ⟨d, step⟩ := run_of_plays succeeds small headed (.inr condition)
      obtain ⟨-, -, ⟨late, -⟩ | ⟨-, delivered, -⟩⟩ := decode_mark follows.installed step
      · exact absurd late (follows.inTime high)
      · refine ⟨before, _, d, follows.run, step, iff_of_false ?_ fun above => high (highest.mp above)⟩
        rw [delivered]
        exact Option.some_ne_none _

/-- One packet more. -/
theorem Follows.concat (follows : Follows api opus front before) (succeeds : api.Succeeds)
    (small : p.bytes.length < 2 ^ 31) (filterable : Filterable api opus front p) :
    ∃ after, Follows api opus (front ++ [p]) after := by
  obtain ⟨_, _, d, start, step, decides⟩ := (follows.decides_iff succeeds small).mpr filterable
  cases follows.run.symm.trans start
  have run := decodeAll_concat follows.run step
  obtain ⟨installed, -, outcome⟩ := decode_mark follows.installed step
  refine ⟨d.decoder, ?_⟩
  by_cases low : p.seq < level VoicePacket.seq 0 front
  · have nothing := decides.mpr ((level_lt_iff (Nat.zero_le _)).mp low)
    have passing : passed VoicePacket.seq 0 (front ++ [p]) = passed VoicePacket.seq 0 front := by
      rw [passed_concat, if_pos low, List.append_nil]
    have highest : level VoicePacket.seq 0 (front ++ [p]) = level VoicePacket.seq 0 front := by
      rw [level_concat, Nat.max_eq_left (Nat.le_of_lt low)]
    rcases outcome with ⟨-, -, mark, -, opus⟩ | ⟨-, delivered, -⟩
    · rw [nothing, Option.isSome_none, if_neg Bool.false_ne_true, List.append_nil] at run
      exact ⟨by rw [passing]; exact run, installed, by rw [mark, highest, follows.mark],
        by rw [opus, passing, follows.codec]⟩
    · cases nothing.symm.trans delivered
  · have passing : passed VoicePacket.seq 0 (front ++ [p]) = passed VoicePacket.seq 0 front ++ [p] := by
      rw [passed_concat, if_neg low]
    have highest : level VoicePacket.seq 0 (front ++ [p]) = p.seq := by
      rw [level_concat, Nat.max_eq_right (Nat.le_of_not_lt low)]
    rcases outcome with ⟨late, -⟩ | ⟨high, delivered, mark, -⟩
    · exact absurd late (follows.inTime low)
    · rw [delivered, Option.isSome_some, if_pos rfl] at run
      obtain ⟨-, opus⟩ := plays_of_run small step high
      refine ⟨by rw [passing]; exact run, installed, by rw [mark, highest], ?_⟩
      rw [opus, passing, codecAfter, List.foldl_append, follows.codec]
      rfl

end Following

end

/-- The decoder drops exactly what is late, in order and with every packet counted,
if and only if it reads the header of every packet, finds what is late by the lower
halves of the numbers, and plays what is not. -/
theorem stale_filter_iff {ω : Type} (api : OpusApi ω) (succeeds : api.Succeeds) (opus : ω)
    (packets : List VoicePacket) (small : ∀ p ∈ packets, p.bytes.length < 2 ^ 31) :
    FiltersStale api opus packets ↔
      ∀ front p back, packets = front ++ p :: back → Filterable api opus front p := by
  let S (p : VoicePacket) : Prop := p.bytes.length < 2 ^ 31
  have start : ∃ before, Follows api opus [] before := ⟨freshDecoder opus, rfl, rfl, rfl, rfl⟩
  have keeps : ∀ front p, S p → (∃ before, Follows api opus front before) → Filterable api opus front p →
      ∃ after, Follows api opus (front ++ [p]) after :=
    fun _ _ small ⟨_, follows⟩ filterable => follows.concat succeeds small filterable
  have every := @forall_split_iff _ S (fun front => ∃ before, Follows api opus front before)
    (Decides api opus) (Filterable api opus) (fun _ _ small ⟨_, follows⟩ => follows.decides_iff succeeds small)
    keeps [] packets small start
  simp only [List.nil_append] at every
  rw [← every]
  constructor
  · rintro ⟨last, heard, run, filtered⟩ front p back rfl
    obtain ⟨before, earlier, _, begun, rest⟩ := decodeAll_append run
    obtain ⟨d, step, -⟩ := bind_eq_ok.mp rest
    exact ⟨before, earlier, d, begun, step, filtered.exact front p back rfl before earlier d begun step⟩
  · intro decides
    obtain ⟨last, follows⟩ := invariant_of_forall keeps small start (every.mp decides)
    refine ⟨last, _, follows.run, (passed_pairwise 0 packets).1, ?_, ?_⟩
    · intro front p back split before earlier d begun step
      obtain ⟨_, _, _, begun', step', decided⟩ := decides front p back split
      cases begun.symm.trans begun'
      cases step.symm.trans step'
      exact decided
    · have counted := decodeAll_counted rfl follows.run
      have initial : (freshDecoder opus).droppedSequence = 0 := rfl
      have initial' : (freshDecoder opus).packets = 0 := rfl
      rwa [initial, initial', UInt32.add_zero, UInt32.zero_add] at counted

/-- A packet of the same source with a lower number. -/
def latePacket : VoicePacket := packetFrom encodes_one encodes_one

theorem stale_filter_sample :
    FiltersStale silentOpus () [firstSpeaker, latePacket] ↔
      ∀ front p back, [firstSpeaker, latePacket] = front ++ p :: back → Filterable silentOpus () front p :=
  stale_filter_iff silentOpus silentOpus_succeeds () [firstSpeaker, latePacket]
    (by simp only [List.forall_mem_cons]; decide)

theorem encodes_far : Encodes [0xF4, 0, 0, 0, 1, 0, 0, 0, 0] 0x100000000 :=
  @Encodes.nine 0xF4 0 0 0 1 0 0 0 0 (by decide)

theorem encodes_signed : Encodes [0xF0, 0x80, 0, 0, 0] 0x80000000 :=
  @Encodes.five 0xF0 0x80 0 0 0 (by decide)

theorem encodes_signed_five : Encodes [0xF0, 0x80, 0, 0, 5] 0x80000005 :=
  @Encodes.five 0xF0 0x80 0 0 5 (by decide)

/-- A packet with a sequence number of 33 bits. -/
def farPacket : VoicePacket := packetFrom encodes_one encodes_far

/-- Two packets with bit 31 of their numbers set. -/
def signedPacket : VoicePacket := packetFrom encodes_one encodes_signed

def signedPacketFive : VoicePacket := packetFrom encodes_one encodes_signed_five

theorem not_filtersStale {ω : Type} {api : OpusApi ω} {opus : ω} {p q : VoicePacket} {last : AudioDecoder ω}
    (run : decodeAll api (freshDecoder opus) [p, q] = .ok (last, [p, q])) (late : q.seq < p.seq) :
    ¬ FiltersStale api opus [p, q] := by
  rintro ⟨last', heard, run', filtered⟩
  cases run.symm.trans run'
  have ordered := List.rel_of_pairwise_cons filtered.ordered (List.mem_singleton_self q)
  exact Nat.not_lt.mpr ordered late

/-- A packet far below a number of 33 bits is delivered after it, and so is one of two
numbers that have been extended. -/
theorem stale_filter_cut :
    ¬ FiltersStale silentOpus () [farPacket, firstSpeaker] ∧
      ¬ FiltersStale silentOpus () [signedPacketFive, signedPacket] :=
  ⟨@not_filtersStale _ silentOpus () _ _ ⟨true, (), 100, 2, 0⟩ (by decide +kernel) (by decide +kernel),
    @not_filtersStale _ silentOpus () _ _ ⟨true, (), 0x80000000, 2, 0⟩ (by decide +kernel) (by decide +kernel)⟩

end Mumble

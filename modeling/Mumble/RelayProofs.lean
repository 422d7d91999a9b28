import Mumble.EncoderProofs
import Mumble.ReceiverProofs
import Mumble.VoicePackets

/-! A voice packet on its way from one client's encoder, by way of the server,
which puts the source behind the first byte, to another client's decoder. -/
namespace Mumble
open CExec Bytes

/-- The form in which the server relays a packet. -/
def relay (source : UInt64) (packet : List UInt8) : List UInt8 :=
  packet.take 1 ++ varintBytes source ++ packet.drop 1

/-- A libopus that also keeps a log of the payloads it is given. -/
def OpusApi.logged {ω : Type} (api : OpusApi ω) : OpusApi (ω × List (List UInt8)) where
  getNbSamples state data len := api.getNbSamples state.1 data len
  decode state data len room :=
    let (ret, next, pcm) := api.decode state.1 data len room
    (ret, (next, state.2 ++ [data]), pcm)
  malloc := api.malloc

/-- The relayed packet is decoded to what was sent: its header, the `output` of
the encoding as the one payload, and no position. -/
def Arrives {ω : Type} (api : OpusApi ω) (decoder : AudioDecoder (ω × List (List UInt8)))
    (relayed stale : List UInt8) (target sequence : UInt32) (source : UInt64) (output : List UInt8) :
    Prop :=
  ∃ d, mumbleAudioDecoderDecode api.logged decoder (relayed ++ stale) relayed.length = .ok d ∧
    d.ret = 0 ∧ d.audio.codec = audioOpus ∧ d.audio.target = target.toUInt64 ∧
    d.audio.source = source ∧ d.audio.sequence = sequence.toUInt64 ∧ d.audio.position = ⟨0, 0, 0⟩ ∧
    d.decoder.opus.2 = decoder.opus.2 ++ [output]

section
variable {ω : Type} {api : OpusApi ω}

theorem logged_succeeds (succeeds : api.Succeeds) : api.logged.Succeeds where
  malloc := succeeds.malloc
  samples codec data some := succeeds.samples codec.1 data some
  pcm codec data some := succeeds.pcm codec.1 data some

theorem logged_opus (codec : ω × List (List UInt8)) (data : List UInt8) :
    (decodeCall api.logged codec data).2.1.2 = codec.2 ++ [data] := rfl

theorem audioHeader_type (target : UInt32) : audioType (audioHeader target) = audioOpus := by
  have all : ∀ n < 32, audioType (encodedHeader audioOpus (UInt32.ofNat n).toUInt64) = audioOpus := by
    decide
  obtain ⟨n, low, -, header⟩ := audioHeader_low target
  rw [header, all n low]

theorem audioHeader_small {target : UInt32} (small : target < 32) :
    (audioTarget (audioHeader target)).toUInt64 = target.toUInt64 := by
  have all : ∀ n < 32, (audioTarget (encodedHeader audioOpus (UInt32.ofNat n).toUInt64)).toUInt64 =
      (UInt32.ofNat n).toUInt64 := by decide
  obtain ⟨n, low, same, header⟩ := audioHeader_low target
  have whole : target &&& 0x1F = target := by
    have bound : target.toNat < 32 := UInt32.lt_iff_toNat_lt.mp small
    apply UInt32.toNat_inj.mp
    rw [UInt32.toNat_and]
    exact (Nat.and_two_pow_sub_one_eq_mod _ 5).trans (Nat.mod_eq_of_lt bound)
  rw [header, all n low, ← same, whole]

theorem relay_parts (target sequence : UInt32) (source : UInt64) (output : List UInt8) :
    HasParts (relay source (voicePacket target sequence output)) (audioHeader target)
      (.ofNat (signExtended source.toNat)) (.ofNat (signExtended sequence.toUInt64.toNat))
      (framed output) :=
  ⟨varintBytes source, varintBytes sequence.toUInt64, rfl, isVarint_varintBytes source,
    isVarint_varintBytes sequence.toUInt64⟩

/-- The bit that the receiver takes for the end of a transmission. -/
theorem terminator_iff {n : Nat} (small : n < 2 ^ 64) :
    UInt64.ofNat n &&& 0x2000 = 0 ↔ n &&& 0x2000 = 0 := by
  rw [← UInt64.toNat_inj, UInt64.toNat_and, UInt64.toNat_ofNat', Nat.mod_eq_of_lt small]
  rfl

theorem opusLength_eq_iff {n : Nat} (small : n < 2 ^ 64) :
    opusLength (.ofNat n) = n ↔ n &&& 0x2000 = 0 := by
  have value : (UInt64.ofNat n).toNat = n := by
    rw [UInt64.toNat_ofNat', Nat.mod_eq_of_lt small]
  have bit := terminator_iff small
  rw [opusLength]
  by_cases clear : n &&& 0x2000 = 0
  · rw [if_neg (not_not.mpr (bit.mpr clear)), value]
    exact iff_of_true rfl clear
  · rw [if_pos (mt bit.mp clear), UInt64.toNat_and, value]
    refine iff_of_false (fun same => ?_) clear
    have low : n &&& 0x1FFF < 2 ^ 13 := Nat.and_lt_two_pow n (by decide)
    change n &&& 0x1FFF = n at same
    have high : n.testBit 13 = false := Nat.testBit_lt_two_pow (same ▸ low)
    have mask : n &&& 2 ^ 13 = 0 := by rw [Nat.and_two_pow, high]; rfl
    exact clear mask

/-- A sequence number keeps its value if it is not negative as an `int`. -/
theorem sequence_eq_iff (sequence : UInt32) :
    UInt64.ofNat (signExtended sequence.toUInt64.toNat) = sequence.toUInt64 ↔ sequence.toNat < 2 ^ 31 := by
  have bound := sequence.toNat_lt
  rw [← UInt64.toNat_inj, UInt64.toNat_ofNat', UInt32.toNat_toUInt64, signExtended]
  split <;> omega

/-- At least nine bytes in all, a source that a varint carries, a number that is
not negative as an `int`, a length without the termination bit, and no bytes of the
payload left behind as many as there are samples, except for twelve zeros. -/
structure Survives (source : UInt64) (sequence : UInt32) (output relayed : List UInt8) (samples : Int) :
    Prop where
  long : 8 < relayed.length
  source : source &&& 0x80000000 = 0 ∨ source >>> 32 = 0xFFFFFFFF
  sequence : sequence.toNat < 2 ^ 31
  length : output.length &&& 0x2000 = 0
  rest : (framed output).length ≤ samples ∨
    ((framed output).length = samples + 12 ∧ ∀ b ∈ (framed output).drop samples.toNat, b = 0)

variable {decoder : AudioDecoder (ω × List (List UInt8))} {target sequence : UInt32} {source : UInt64}
  {output : List UInt8}

theorem audioHeader_voice (target : UInt32) : audioType (audioHeader target) ≠ audioPing := by
  rw [audioHeader_type]
  decide

theorem output_short (small : (framed output).length < 2 ^ 23) : output.length < 2 ^ 23 := by
  rw [framed, List.length_append] at small
  exact Nat.lt_of_le_of_lt (Nat.le_add_left _ _) small

/-- The length of a payload keeps its value. -/
theorem signExtended_output (small : (framed output).length < 2 ^ 23) :
    UInt64.ofNat (signExtended (UInt64.ofNat output.length).toNat) = .ofNat output.length := by
  have bound := output_short small
  rw [UInt64.toNat_ofNat', Nat.mod_eq_of_lt (Nat.lt_trans bound (by decide)),
    signExtended_small (Nat.lt_trans bound (by decide))]

theorem survives_of_arrives (small : (framed output).length < 2 ^ 23) (stale : List UInt8)
    (arrives : Arrives api decoder (relay source (voicePacket target sequence output)) stale target
      sequence source output) :
    Survives source sequence output (relay source (voicePacket target sequence output))
      (samplesOf api.logged decoder.opus output) := by
  have parts := relay_parts target sequence source output
  have header := decodeHeader_parts parts (audioHeader_voice target) stale
  obtain ⟨d, run, -, -, -, same_source, same_sequence, none, log⟩ := arrives
  obtain ⟨long, audio, rest, left, header', outcome⟩ := mumbleAudioDecoderDecode_cases run
  rw [header] at header'
  cases header'
  rcases outcome with ⟨-, -, after⟩ | ⟨-, -, opus, packet, rest', left', payload, position, -⟩
  · rw [after] at log
    exact absurd (congrArg List.length log) (by rw [List.length_append]; exact Nat.ne_of_lt (by simp))
  · have codec : (headerOf (audioHeader target) (.ofNat (signExtended source.toNat))
        (.ofNat (signExtended sequence.toUInt64.toNat))).codec = audioOpus := audioHeader_type target
    obtain ⟨frame, decoded, positive, rfl, rfl, rfl, rfl⟩ := frame_of_decodePayload codec payload
    obtain ⟨k, value, data, split, isLength, -, length, samples, -⟩ :=
      framed_of_mumbleCodecOpusDecode (Nat.lt_trans small (by decide)) decoded
    obtain ⟨rfl, rfl, rfl⟩ := IsVarint.unique (isVarint_varintBytes (.ofNat output.length)) isLength split
    have fields := decodePosition_fields position
    refine ⟨Int.ofNat_lt.mp long, ?_, ?_, ?_, ?_⟩
    · exact (signExtended_eq_iff source).mp ((congrArg AudioPacket.source fields).symm.trans same_source)
    · exact (sequence_eq_iff sequence).mp
        ((congrArg AudioPacket.sequence fields).symm.trans same_sequence)
    · exact (opusLength_eq_iff (Nat.lt_trans (output_short small) (by decide))).mp
        (by rwa [signExtended_output small] at length)
    · rw [← samples]
      have bound := Nat.lt_trans small (show 2 ^ 23 < 2 ^ 31 by decide)
      obtain ⟨-, all | ⟨twelve, zeros⟩⟩ := (decodePosition_zeros_iff rfl positive bound).mp ⟨position, none⟩
      · exact .inl all
      · exact .inr ⟨twelve.symm, zeros⟩

theorem arrives_of_survives (succeeds : api.Succeeds) (some : output ≠ [])
    (small : (framed output).length < 2 ^ 23) (target_small : target < 32)
    (mark : decoder.sequence ≤ sequence) (stale : List UInt8)
    (survives : Survives source sequence output (relay source (voicePacket target sequence output))
      (samplesOf api.logged decoder.opus output)) :
    Arrives api decoder (relay source (voicePacket target sequence output)) stale target sequence source
      output := by
  have parts := relay_parts target sequence source output
  have header := decodeHeader_parts parts (audioHeader_voice target) stale
  rw [(signExtended_eq_iff source).mpr survives.source, (sequence_eq_iff sequence).mpr survives.sequence]
    at header
  have inTime : ¬ sequence.toUInt64 < decoder.sequence.toUInt64 := by
    rw [UInt64.lt_iff_toNat_lt, UInt32.toNat_toUInt64, UInt32.toNat_toUInt64, ← UInt32.lt_iff_toNat_lt]
    exact UInt32.not_lt.mpr mark
  have length : opusLength (.ofNat (signExtended (UInt64.ofNat output.length).toNat)) = output.length := by
    rw [signExtended_output small]
    exact (opusLength_eq_iff (Nat.lt_trans (output_short small) (by decide))).mpr survives.length
  let sent := headerOf (audioHeader target) source sequence.toUInt64
  have codec : sent.codec = audioOpus := audioHeader_type target
  obtain ⟨frame, payload, positive, samples, opus⟩ := decodePayload_framed (logged_succeeds succeeds) codec
    (isVarint_varintBytes (.ofNat output.length)) some length (Nat.lt_trans small (by decide)) decoder.opus
    stale
  have rest : (framed output).length ≤ frame.ret ∨ StopsAtZeros frame.ret (framed output) := by
    rw [samples]
    exact survives.rest.imp_right fun behind => ⟨behind.1.symm, behind.2⟩
  have bound := Nat.lt_trans small (show 2 ^ 23 < 2 ^ 31 by decide)
  obtain ⟨position, none⟩ := (@decodePosition_zeros_iff
    { sent with pcm := ⟨frame.pcm, 48000, frame.ret⟩ } { sent with pcm := ⟨frame.pcm, 48000, frame.ret⟩ }
    (framed output) stale frame.ret rfl positive bound).mpr ⟨rfl, rest⟩
  refine ⟨_, mumbleAudioDecoderDecode_of_stages (Int.ofNat_lt.mpr survives.long) header inTime payload
    position, rfl, codec, audioHeader_small target_small, rfl, rfl, none, ?_⟩
  · change frame.codec.2 = _
    rw [opus, logged_opus]

end

theorem opusOutput_nonempty {ε : Type} {encoder : OpusEncoderApi ε} {size : FrameSize}
    (returns : encoder.Returns size) (state : ε) (block : List UInt8) :
    opusOutput encoder size state block ≠ [] := by
  obtain ⟨ret, next, data, encoded, positive, long, -⟩ :=
    returns.encode state (block.take (2 * (size.bytes / 2)))
  have output : opusOutput encoder size state block = data.take ret.toNat := by
    simp only [opusOutput, encoded]
  rw [output, ← List.length_pos_iff, List.length_take]
  omega

/-- The packet that the encoder emits for a block comes out of the decoder of
another client as what was sent exactly when it survives there. -/
theorem relay_round_trip_iff {ε ω : Type} (encoder : OpusEncoderApi ε) (size : FrameSize)
    (returns : encoder.Returns size) (codec : CodecOpusEncoder ε) (sized : codec.Sized size)
    (block output : List UInt8) (whole : block.length = size.bytes)
    (encoded : opusOutput encoder size codec.encoder block = output) (target sequence : UInt32)
    (target_small : target < 32) (position : Position) (api : OpusApi ω) (succeeds : api.Succeeds)
    (decoder : AudioDecoder (ω × List (List UInt8))) (mark : decoder.sequence ≤ sequence) (source : UInt64)
    (stale : List UInt8) :
    ∃ codec' packet,
      onEncoderFrame encoder
          (encoderCodecCb encoder (some (recorded fun (_ : Unit) _ _ => .ok ())) target.toUInt64 position)
          (codec, sequence, (), []) block size.bytes false =
        .ok (codec', sequence + 1, (), [packet]) ∧
      (Arrives api decoder (relay source packet) stale target sequence source output ↔
        Survives source sequence output (relay source packet)
          (samplesOf api.logged decoder.opus output)) := by
  subst encoded
  have total := framed_length returns codec.encoder block
  have small := Nat.lt_trans total size.small
  obtain ⟨codec', rest, -, -, -, framing⟩ := onEncoderFrame_eq returns
    (encoderCodecCb encoder (some (recorded fun (_ : Unit) _ _ => .ok ())) target.toUInt64 position) sized
    whole false
  obtain ⟨memory, got, length⟩ :=
    returns.malloc ((framed (opusOutput encoder size codec.encoder block)).length + 37)
  obtain ⟨next, emitted⟩ := encoderCodecCb_eq (fun (_ : Unit) _ _ _ => ⟨(), rfl⟩) target position sequence ()
    [] got length (by omega) rest false
  refine ⟨codec', voicePacket target sequence (opusOutput encoder size codec.encoder block), ?_, ?_⟩
  · rw [framing, emitted]
    rfl
  · exact ⟨survives_of_arrives small stale, arrives_of_survives succeeds
      (opusOutput_nonempty returns codec.encoder block) small target_small mark stale⟩

/-- A libopus whose packets all hold one sample. -/
def oneSample : OpusApi Unit where
  getNbSamples _ _ _ := 1
  decode _ _ _ _ := (1, (), [0])
  malloc _ := true

def freshCodec : CodecOpusEncoder UInt8 := mumbleCodecOpusCreateEncoder 0 eightBytes zeros zeros

def fourSamples : List UInt8 := [9, 0, 8, 0, 7, 0, 6, 0]

def listener : AudioDecoder (Unit × List (List UInt8)) := ⟨true, ((), []), 0, 0, 0⟩

theorem relay_round_trip_sample : ∃ codec' packet,
    onEncoderFrame echoOpus
        (encoderCodecCb echoOpus (some (recorded fun (_ : Unit) _ _ => .ok ())) 3 ⟨0, 0, 0⟩)
        (freshCodec, 7, (), []) fourSamples 8 false = .ok (codec', 8, (), [packet]) ∧
      Arrives silentOpus listener (relay 0x200000 packet) [] 3 7 0x200000 [0, 9] := by
  obtain ⟨codec', packet, emitted, iff⟩ := relay_round_trip_iff echoOpus eightBytes echoOpus_returns
    freshCodec ⟨rfl, rfl⟩ fourSamples [0, 9] rfl (by decide +kernel) 3 7 (by decide) ⟨0, 0, 0⟩ silentOpus
    silentOpus_succeeds listener (by decide) 0x200000 []
  have packet_eq : (onEncoderFrame echoOpus
      (encoderCodecCb echoOpus (some (recorded fun (_ : Unit) _ _ => .ok ())) 3 ⟨0, 0, 0⟩)
      (freshCodec, 7, (), []) fourSamples 8 false).map (fun after => after.2.2.2) =
      .ok [[0x83, 7, 2, 0, 9]] := by decide +kernel
  rw [show (3 : UInt64) = (3 : UInt32).toUInt64 from rfl, show 8 = eightBytes.bytes from rfl, emitted]
    at packet_eq
  obtain rfl : packet = [0x83, 7, 2, 0, 9] := List.singleton_inj.mp (Except.ok.inj packet_eq)
  refine ⟨codec', _, emitted, iff.mpr ⟨by decide +kernel, by decide, by decide, by decide, .inl ?_⟩⟩
  decide +kernel

/-- The one sample is subtracted from three bytes, and the rest is not a position. -/
theorem relay_rejected :
    (onEncoderFrame echoOpus
        (encoderCodecCb echoOpus (some (recorded fun (_ : Unit) _ _ => .ok ())) 3 ⟨0, 0, 0⟩)
        (freshCodec, 7, (), []) fourSamples 8 false).map (fun after => after.2.2.2) =
      .ok [[0x83, 7, 2, 0, 9]] ∧
      ¬ Arrives oneSample listener (relay 0x200000 [0x83, 7, 2, 0, 9]) [] 3 7 0x200000 [0, 9] := by
  constructor
  · decide +kernel
  · rintro ⟨d, run, -⟩
    have stopped : mumbleAudioDecoderDecode oneSample.logged listener
        (relay 0x200000 [0x83, 7, 2, 0, 9] ++ []) (relay 0x200000 [0x83, 7, 2, 0, 9]).length =
        .error .assertion := by decide +kernel
    rw [stopped] at run
    cases run

end Mumble

import Mumble.RelayProofs

/-! The framing of an Opus output, from the codec of one client to that of another.
The bit that tells the end of a transmission is part of the length for the receiver,
and the sender never sets it. -/
namespace Mumble
open CExec

/-- A callback of the codec that keeps a log of the frames and their marks. -/
def frameLog (log : List (List UInt8 × Bool)) (buf : List UInt8) (size : Nat) (final : Bool) :
    Run (List (List UInt8 × Bool)) := do
  let frame ← slice buf size
  .ok (log ++ [(frame, final)])

/-- One frame is emitted. Its receiver hands the output, and nothing else, to its
decoder, and takes the frame for the last one if it is. -/
def FramesRoundTrip {ω υ : Type} (api : OpusEncoderApi ω) (decoding : OpusApi υ) (codec : CodecOpusEncoder ω)
    (decoder : υ) (block : List UInt8) (final : Bool) (output : List UInt8) : Prop :=
  ∃ codec' f mark frame,
    onEncoderFrame api frameLog (codec, []) block block.length final = .ok (codec', [(f, mark)]) ∧
      mumbleCodecOpusDecode decoding.logged (decoder, []) f f.length = .ok frame ∧
      frame.codec.2 = [output] ∧ frame.termination = final

section
variable {ω υ : Type} {api : OpusEncoderApi ω} {size : FrameSize} {codec : CodecOpusEncoder ω}
  {block data : List UInt8} {ret : Int} {next : ω}

/-- The length of an output fits in front of it, with a byte to spare, if the frame is emitted. -/
theorem room_of_onEncoderFrame {τ : Type} {cb : τ → List UInt8 → Nat → Bool → Run τ} {state : τ}
    {final : Bool} {result : CodecOpusEncoder ω × τ} (sized : codec.Sized size)
    (whole : block.length = size.bytes)
    (encoded : api.encode codec.encoder (block.take (2 * (size.bytes / 2))) (size.bytes / 2) size.bytes =
      (ret, next, data))
    (positive : 0 < ret) (bound : ret ≤ size.bytes)
    (run : onEncoderFrame api cb (codec, state) block block.length final = .ok result) :
    varintEncodeSize (.ofNat ret.toNat) + ret < size.bytes := by
  have small := size.small
  have frames : toInt (size.bytes / 2 : Int) = size.bytes / 2 := toInt_of_small (by omega) (by omega)
  have length : toSize ret = ret.toNat := toSize_of_small (by omega) (by omega)
  have samples : slice block (2 * (size.bytes / 2)) = .ok (block.take (2 * (size.bytes / 2))) :=
    slice_of_le (by omega)
  have width := varintBytes_length (.ofNat ret.toNat)
  simp only [onEncoderFrame, whole, samples, ok_bind, frames, sized.codecOut, encoded, length,
    sized.framedOut] at run
  obtain ⟨codecOut, -, run⟩ := bind_eq_ok.mp run
  obtain ⟨_, -, run⟩ := bind_eq_ok.mp run
  obtain ⟨⟨varintRet, framedOut, written⟩, encoding, run⟩ := bind_eq_ok.mp run
  obtain ⟨_, zero, run⟩ := bind_eq_ok.mp run
  obtain ⟨_, fits, -⟩ := bind_eq_ok.mp run
  have room := (varintEncode_eq_ok encoding).2 (require_eq_ok.mp zero)
  rw [varintEncode_eq _ _ _ _ room (by rw [sized.framedOut]; omega)] at encoding
  cases encoding
  replace fits := require_eq_ok.mp fits
  dsimp only at fits
  have nine := varintBytes_le_nine (.ofNat ret.toNat)
  rw [toInt_of_small (by omega) (by omega)] at fits
  omega

theorem framed_lt (positive : 0 < ret) (long : ret ≤ data.length)
    (room : varintEncodeSize (.ofNat ret.toNat) + ret < size.bytes) :
    (framed (data.take ret.toNat)).length < 2 ^ 23 := by
  have count : (data.take ret.toNat).length = ret.toNat := List.length_take_of_le (by omega)
  have width := varintBytes_length (.ofNat ret.toNat)
  have small := size.small
  rw [framed, count, List.length_append, count]
  omega

theorem framed_slice (output rest : List UInt8) : slice (framed output ++ rest) (framed output).length =
    .ok (framed output) := slice_length_append _ _

/-- The value in front of an output, and what it says about the end. -/
theorem framed_value {output : List UInt8} (total : (framed output).length < 2 ^ 23) :
    (opusLength (.ofNat (signExtended (UInt64.ofNat output.length).toNat)) = output.length ↔
        output.length &&& 0x2000 = 0) ∧
      decide (UInt64.ofNat (signExtended (UInt64.ofNat output.length).toNat) &&& 0x2000 ≠ 0) =
        decide (output.length &&& 0x2000 ≠ 0) := by
  have small : output.length < 2 ^ 64 := Nat.lt_trans (output_short total) (by decide)
  rw [signExtended_output total]
  exact ⟨opusLength_eq_iff small, decide_eq_decide.mpr (not_congr (terminator_iff small))⟩

theorem framesRoundTrip_of_condition {decoding : OpusApi υ} (succeeds : decoding.Succeeds) {decoder : υ}
    (sized : codec.Sized size) (whole : block.length = size.bytes)
    (encoded : api.encode codec.encoder (block.take (2 * (size.bytes / 2))) (size.bytes / 2) size.bytes =
      (ret, next, data))
    (positive : 0 < ret) (long : ret ≤ data.length) (fits : data.length ≤ size.bytes)
    (room : varintEncodeSize (.ofNat ret.toNat) + ret < size.bytes) (clear : ret.toNat &&& 0x2000 = 0) :
    FramesRoundTrip api decoding codec decoder block false (data.take ret.toNat) := by
  have count : (data.take ret.toNat).length = ret.toNat := List.length_take_of_le (by omega)
  have total := framed_lt positive long room
  have some : data.take ret.toNat ≠ [] := by
    rw [← List.length_pos_iff, count]
    omega
  have clear' : (data.take ret.toNat).length &&& 0x2000 = 0 := by rw [count, clear]
  obtain ⟨length, mark⟩ := framed_value total
  obtain ⟨codec', rest, -, -, -, run⟩ :=
    onEncoderFrame_framed frameLog sized whole encoded positive long fits room false
  obtain ⟨frame, decoded, -, log, termination⟩ := mumbleCodecOpusDecode_framed (logged_succeeds succeeds)
    (isVarint_varintBytes (.ofNat (data.take ret.toNat).length)) some (length.mpr clear')
    (Nat.lt_trans total (by decide)) (decoder, []) []
  refine ⟨codec', framed (data.take ret.toNat), false, frame, ?_, ?_, ?_, ?_⟩
  · rw [whole, run, frameLog, framed_slice]
    rfl
  · rw [List.append_nil] at decoded
    exact decoded
  · rw [log, logged_opus]
    rfl
  · rw [termination, mark]
    exact decide_eq_false (not_not.mpr clear')

theorem condition_of_framesRoundTrip {decoding : OpusApi υ} {decoder : υ} {final : Bool}
    (sized : codec.Sized size) (whole : block.length = size.bytes)
    (encoded : api.encode codec.encoder (block.take (2 * (size.bytes / 2))) (size.bytes / 2) size.bytes =
      (ret, next, data))
    (positive : 0 < ret) (long : ret ≤ data.length) (fits : data.length ≤ size.bytes)
    (trip : FramesRoundTrip api decoding codec decoder block final (data.take ret.toNat)) :
    final = false ∧ varintEncodeSize (.ofNat ret.toNat) + ret < size.bytes ∧ ret.toNat &&& 0x2000 = 0 := by
  obtain ⟨codec', f, mark, frame, emitted, decoded, log, termination⟩ := trip
  have room := room_of_onEncoderFrame sized whole encoded positive (by omega) emitted
  have count : (data.take ret.toNat).length = ret.toNat := List.length_take_of_le (by omega)
  have total := framed_lt positive long room
  obtain ⟨codec'', rest, -, -, -, run⟩ :=
    onEncoderFrame_framed frameLog sized whole encoded positive long fits room final
  rw [whole, run, frameLog, framed_slice] at emitted
  cases emitted
  obtain ⟨length, mark'⟩ := framed_value total
  have body : mumbleCodecOpusDecode decoding.logged (decoder, []) (framed (data.take ret.toNat) ++ [])
      (framed (data.take ret.toNat)).length = .ok frame := by rw [List.append_nil, decoded]
  obtain ⟨k, value, payload, split, isLength, -, announced, -, -, mark⟩ :=
    framed_of_mumbleCodecOpusDecode (Nat.lt_trans total (by decide)) body
  obtain ⟨rfl, rfl, rfl⟩ := IsVarint.unique (isVarint_varintBytes _) isLength split
  have clear := length.mp announced
  rw [mark, mark'] at termination
  refine ⟨termination.symm.trans (decide_eq_false (not_not.mpr clear)), room, ?_⟩
  rwa [count] at clear

end

/-- A frame makes the round trip if and only if it is not the last one, leaves a byte
of the buffer free, and has a length without the bit of the end. -/
theorem framing_round_trip_iff {ω υ : Type} (api : OpusEncoderApi ω) (size : FrameSize)
    (codec : CodecOpusEncoder ω) (sized : codec.Sized size) (block : List UInt8)
    (whole : block.length = size.bytes) {ret : Int} {next : ω} {data : List UInt8}
    (encoded : api.encode codec.encoder (block.take (2 * (size.bytes / 2))) (size.bytes / 2) size.bytes =
      (ret, next, data))
    (positive : 0 < ret) (long : ret ≤ data.length) (fits : data.length ≤ size.bytes) (decoding : OpusApi υ)
    (succeeds : decoding.Succeeds) (decoder : υ) (final : Bool) :
    FramesRoundTrip api decoding codec decoder block final (data.take ret.toNat) ↔
      final = false ∧ varintEncodeSize (.ofNat ret.toNat) + ret < size.bytes ∧ ret.toNat &&& 0x2000 = 0 := by
  constructor
  · exact condition_of_framesRoundTrip sized whole encoded positive long fits
  · rintro ⟨rfl, room, clear⟩
    exact framesRoundTrip_of_condition succeeds sized whole encoded positive long fits room clear

/-- The encoder that numbers its frames, with buffers of eight bytes. -/
def eightByteCodec : CodecOpusEncoder UInt8 := mumbleCodecOpusCreateEncoder 0 eightBytes zeros zeros

theorem framing_round_trip_sample :
    FramesRoundTrip echoOpus silentOpus eightByteCodec () (List.replicate 8 1) false [0, 1] ↔
      false = false ∧ varintEncodeSize (.ofNat (2 : Int).toNat) + 2 < (eightBytes.bytes : Int) ∧
        (2 : Int).toNat &&& 0x2000 = 0 :=
  framing_round_trip_iff echoOpus eightBytes eightByteCodec ⟨rfl, rfl⟩ (List.replicate 8 1) rfl rfl
    (by decide) (Int.le_refl 2) (Nat.le_of_ble_eq_true rfl) silentOpus silentOpus_succeeds () false

/-- The last frame is emitted as it would be if it were not, and is not taken for the last one. -/
theorem framing_unterminated :
    (onEncoderFrame echoOpus frameLog (eightByteCodec, []) (List.replicate 8 1) 8 true).map Prod.snd =
        .ok [([2, 0, 1], true)] ∧
      (mumbleCodecOpusDecode silentOpus () [2, 0, 1] 3).map OpusFrame.termination = .ok false ∧
      ¬ FramesRoundTrip echoOpus silentOpus eightByteCodec () (List.replicate 8 1) true [0, 1] := by
  refine ⟨by decide +kernel, by decide +kernel, fun trip => ?_⟩
  have sized : eightByteCodec.Sized eightBytes := ⟨rfl, rfl⟩
  obtain ⟨impossible, -⟩ := @condition_of_framesRoundTrip _ _ echoOpus eightBytes eightByteCodec
    (List.replicate 8 1) [0, 1] 2 1 silentOpus () true sized rfl rfl (by decide) (Int.le_refl 2)
    (Nat.le_of_ble_eq_true rfl) trip
  cases impossible

end Mumble

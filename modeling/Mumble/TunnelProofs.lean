import Mumble.Audio
import Mumble.ControlStream
import Mumble.UdpSslProofs
import Mumble.VarintProofs

/-! Voice packets through the control stream. The decoder is given the frame with
its header, so what it takes for a packet is one of type zero from source one
with sequence zero, whatever the payload. -/
namespace Mumble
open CExec Bytes

/-- The varints of the source and of the sequence number decode, the latter to `seq`. -/
def Carries (p : List UInt8) (seq : UInt64) : Prop :=
  ∃ n source m, varintDecode (p.drop 1) (p.length - 1) 0 = .ok (n, source) ∧ 0 < n ∧
    varintDecode ((p.drop 1).drop n.toNat) (p.length - 1 - n) 0 = .ok (m, seq) ∧ 0 < m

section
variable {ω μ : Type} {api : OpusApi ω} {audio : Audio ω} {p tail : List UInt8}

theorem carries_of_header (header : decodeHeader p p.length = .ok (packet, rest, left)) :
    Carries p packet.sequence := by
  obtain ⟨b, n, source, m, seq, -, -, source_ok, some_source, seq_ok, some_seq, rfl, -, -⟩ :=
    decodeHeader_eq_ok.mp header
  exact ⟨n, source, m, source_ok, some_source, seq_ok, some_seq⟩

theorem header_of_carries (nonempty : p ≠ []) (voice : ∀ b ∈ p.head?, audioType b ≠ audioPing)
    (carries : Carries p seq) :
    ∃ packet rest left, decodeHeader p p.length = .ok (packet, rest, left) ∧ packet.sequence = seq := by
  cases p with
  | nil => exact absurd rfl nonempty
  | cons b p =>
    obtain ⟨n, source, m, source_ok, some_source, seq_ok, some_seq⟩ := carries
    exact ⟨_, _, _, decodeHeader_eq_ok.mpr ⟨b, n, source, m, seq, load_zero b p, voice b rfl, source_ok,
      some_source, seq_ok, some_seq, rfl, rfl, rfl⟩, rfl⟩

theorem tunnelFrame_eq_ok (built : tunnelFrame p p.length = .ok frame) :
    frame = ofBigEndian 2 1 ++ ofBigEndian 4 p.length ++ p := by
  obtain ⟨_, -, built⟩ := bind_eq_ok.mp built
  obtain ⟨data, copied, built⟩ := bind_eq_ok.mp built
  rw [slice_of_le (Nat.le_refl _), List.take_length] at copied
  cases copied
  cases built
  rfl

theorem encoderCb_tcp {ν : Type} {aes : Aes} {trySend : List UInt8 → Int} {sender sender' : Audio ν}
    (sent : encoderCb aes trySend sender p p.length = .ok (sender', .tcp frame)) :
    tunnelFrame p p.length = .ok frame := by
  unfold encoderCb at sent
  split at sent
  · obtain ⟨_, -, sent⟩ := bind_eq_ok.mp sent
    cases sent
  · obtain ⟨tcpBuf, built, sent⟩ := bind_eq_ok.mp sent
    cases sent
    exact built

/-- The length field of a frame that fits in the window starts with a zero. -/
theorem tunnelFrame_bytes (small : p.length < 2 ^ 24) (tail : List UInt8) :
    ofBigEndian 2 1 ++ ofBigEndian 4 p.length ++ p ++ tail =
      0 :: 1 :: 0 :: .ofNat (p.length / 256 / 256) :: .ofNat (p.length / 256) :: .ofNat p.length ::
        (p ++ tail) := by
  have top : p.length / 256 / 256 / 256 = 0 := by omega
  have length : ofBigEndian 4 p.length = [.ofNat (p.length / 256 / 256 / 256),
      .ofNat (p.length / 256 / 256), .ofNat (p.length / 256), .ofNat p.length] := rfl
  rw [length, top]
  rfl

/-- What a call of the decoder leaves, with both callbacks installed. -/
theorem audio_decode_eq_ok (installed : audio.cb = true) (run : audio.decode api buf len = .ok next) :
    ∃ d, mumbleAudioDecoderDecode api audio.decoder buf len = .ok d ∧
      next = { audio with decoder := d.decoder, heard := audio.heard ++ d.delivered.toList } := by
  obtain ⟨d, decoded, run⟩ := bind_eq_ok.mp run
  refine ⟨d, decoded, ?_⟩
  dsimp only at run
  cases delivered : d.delivered with
  | none =>
    rw [delivered] at run
    cases run
    rw [Option.toList_none, List.append_nil]
  | some packet =>
    rw [delivered] at run
    cases run
    rw [decoderCb, if_pos installed]
    rfl

theorem audio_decode_dropped (long : 8 < len) (header : decodeHeader buf len = .ok (packet, rest, left))
    (late : packet.sequence < audio.decoder.sequence.toUInt64) :
    audio.decode api buf len = .ok { audio with decoder := { audio.decoder with
      packets := audio.decoder.packets + 1
      droppedSequence := audio.decoder.droppedSequence + 1 } } := by
  rw [Audio.decode, mumbleAudioDecoderDecode_dropped long header late, ok_bind]

/-- A voice packet by datagram. -/
theorem udpCb_voice (small : p.length < 2 ^ 31) (voice : ∀ b ∈ p.head?, audioType b ≠ audioPing)
    (nonempty : p ≠ []) : udpCb api audio p p.length = audio.decode api p p.length := by
  cases p with
  | nil => exact absurd rfl nonempty
  | cons b p =>
    have other : b ≠ 0x20 := by
      rintro rfl
      exact voice 0x20 rfl (by decide)
    rw [udpCb, load_zero, ok_bind, if_neg other, toInt_of_small (by omega) (by omega)]

/-- A ping by datagram, with the bytes behind it in the buffer. -/
theorem udpCb_ping (rest stale : List UInt8) (small : rest.length + 1 < 2 ^ 31) :
    udpCb api audio (0x20 :: rest ++ stale) (0x20 :: rest : List UInt8).length =
      varintDecode (rest ++ stale) rest.length 0 >>= fun read =>
        require (0 < read.1) .assertion >>= fun _ =>
          .ok { audio with pinger := mumbleUdpPingRecv audio.pinger read.2 } := by
  have length : toInt (toSize (((0x20 :: rest : List UInt8).length : Int) - 1)) = rest.length := by
    rw [List.length_cons, toSize, toInt_of_small] <;> omega
  rw [udpCb, List.cons_append, load_zero, ok_bind, if_pos rfl, length]
  rfl

/-- A tunnel frame at the front of the window. -/
theorem adapterRound_tunnel {h : Handlers (Audio ω) μ} {decoder : FrameDecoder}
    (small : p.length < 2 ^ 32)
    (window : decoder.buffer = (⟨1, p, small⟩ : Frame).wire ++ tail) :
    adapterRound (h.withAudio api) ⟨decoder, audio⟩ =
      audio.decode api decoder.buffer decoder.buffer.length >>= fun next =>
        .ok ⟨(mumbleFramePop decoder).2, next⟩ := by
  have type : mumbleFrameType decoder = 1 :=
    @mumbleFrameType_header decoder _ ⟨1, p, small⟩ (window.trans (wire_append _ tail))
  have isAudio : mumbleFrameIsAudio decoder = true := by
    rw [mumbleFrameIsAudio, type]
    decide
  rw [adapterRound, if_pos isAudio, window_toInt]
  rfl

/-- The decoder's reading of a window that starts with the header of a tunnel frame. -/
theorem decodeHeader_tunnel (len : Int) (long : 8 < len) (rest : List UInt8) :
    decodeHeader (0 :: 1 :: 0 :: rest) len =
      .ok (⟨0, ⟨[], 0, 0⟩, ⟨0, 0, 0⟩, 0, 1, 0⟩, rest, len - 3) := by
  have source : varintDecode (1 :: 0 :: rest) (len - 1) 0 = .ok (1, 1) :=
    varintDecode_one (by decide) (by omega)
  have seq : varintDecode (0 :: rest) (len - 1 - 1) 0 = .ok (1, 0) :=
    varintDecode_one (by decide) (by omega)
  refine decodeHeader_eq_ok.mpr ⟨0, 1, 1, 1, 0, rfl, by decide, source, Int.one_pos, seq, Int.one_pos,
    ?_, rfl, ?_⟩
  · rfl
  · omega

theorem decodePayload_other {opus opus' : ω} (other : packet.codec ≠ audioOpus)
    (run : decodePayload api opus packet rest left = .ok (opus', packet', rest', left')) :
    packet' = packet ∧ rest' = rest ∧ left' = left := by
  rw [decodePayload, if_neg other] at run
  cases run
  exact ⟨rfl, rfl, rfl⟩

theorem decodePayload_codec {opus opus' : ω}
    (run : decodePayload api opus packet rest left = .ok (opus', packet', rest', left')) :
    packet'.codec = packet.codec := by
  rw [decodePayload] at run
  split at run
  · obtain ⟨frame, -, run⟩ := bind_eq_ok.mp run
    obtain ⟨_, -, run⟩ := bind_eq_ok.mp run
    cases run
    rfl
  · cases run
    rfl

theorem decodePosition_eq_ok (run : decodePosition packet rest left = .ok packet') :
    packet'.codec = packet.codec ∧ (left ≤ 0 ∧ packet'.position = packet.position ∨
      0 < left ∧ toSize left = 12 ∧ packet'.position =
        ⟨float (rest.take 12), float ((rest.take 12).drop 4), float ((rest.take 12).drop 8)⟩) := by
  rw [decodePosition] at run
  split at run
  · obtain ⟨_, three, run⟩ := bind_eq_ok.mp run
    obtain ⟨pos, read, run⟩ := bind_eq_ok.mp run
    unfold slice at read
    split at read
    · cases read
      cases run
      exact ⟨rfl, .inr ⟨‹_›, require_eq_ok.mp three, rfl⟩⟩
    · cases read
  · cases run
    exact ⟨rfl, .inl ⟨by omega, rfl⟩⟩

theorem toSize_eq_small (positive : 0 < left) (small : left < 2 ^ 32) (count : toSize left = 12) :
    left = 12 := by
  rw [toSize] at count
  omega

theorem mumbleAudioDecoderDecode_presented {decoder : AudioDecoder ω} {d : Decoded ω}
    (run : mumbleAudioDecoderDecode api decoder buf len = .ok d)
    (delivered : d.delivered = some packet) : packet = d.audio := by
  obtain ⟨-, audio, rest, left, -, ⟨-, nothing, -⟩ | ⟨-, called, -⟩⟩ :=
    mumbleAudioDecoderDecode_cases run
  · rw [nothing] at delivered
    cases delivered
  · rw [called] at delivered
    split at delivered
    · exact (Option.some.inj delivered).symm
    · cases delivered

/-- A window from which the decoder delivers anything is one of 15 bytes, and the
last twelve of them become the position. -/
theorem tunnel_delivered {decoder : AudioDecoder ω} {d : Decoded ω} (small : len < 2 ^ 32)
    (run : mumbleAudioDecoderDecode api decoder (0 :: 1 :: 0 :: rest) len = .ok d)
    (delivered : d.delivered ≠ none) :
    len = 15 ∧ d.audio.codec = 0 ∧ d.audio.position.x = float (rest.take 12) := by
  obtain ⟨long, packet, rest', left, header, outcome⟩ := mumbleAudioDecoderDecode_cases run
  rw [decodeHeader_tunnel len long rest] at header
  cases header
  rcases outcome with ⟨-, nothing, -⟩ | ⟨-, -, opus, packet', rest', left', payload, position, -⟩
  · exact absurd nothing delivered
  · obtain ⟨rfl, rfl, rfl⟩ := decodePayload_other (by decide) payload
    obtain ⟨codec, ⟨short, -⟩ | ⟨positive, count, value⟩⟩ := decodePosition_eq_ok position
    · omega
    · have twelve := toSize_eq_small positive (by omega) count
      exact ⟨by omega, codec, by rw [value]⟩

theorem float_length_field (b : UInt8) (rest : List UInt8) :
    float ((0 :: 0 :: 9 :: b :: rest).take 12) ≠ 0 := by
  have bound := b.toNat_lt
  have bytes : float ((0 :: 0 :: 9 :: b :: rest).take 12) = .ofNat (littleEndian [0, 0, 9, b]) := rfl
  have value : littleEndian [0, 0, 9, b] = 256 * (256 * (9 + 256 * b.toNat)) := by
    have zero : (0 : UInt8).toNat = 0 := rfl
    have nine : (9 : UInt8).toNat = 9 := rfl
    simp only [littleEndian_cons, littleEndian_nil, zero, nine, Nat.mul_zero, Nat.add_zero, Nat.zero_add]
  rw [bytes, value]
  intro zero
  have same := congrArg UInt32.toNat zero
  rw [UInt32.toNat_ofNat'] at same
  have none : (0 : UInt32).toNat = 0 := rfl
  omega

/-- A packet of nine bytes that is not Opus has no room for a position. -/
theorem short_delivered {decoder : AudioDecoder ω} {d : Decoded ω} (nine : p.length = 9)
    (run : mumbleAudioDecoderDecode api decoder p p.length = .ok d) (delivered : d.delivered ≠ none)
    (other : d.audio.codec ≠ audioOpus) : d.audio.position.x = 0 := by
  obtain ⟨-, packet, rest, left, header, outcome⟩ := mumbleAudioDecoderDecode_cases run
  obtain ⟨b, n, source, m, seq, -, -, -, some_source, -, some_seq, rfl, rfl, rfl⟩ :=
    decodeHeader_eq_ok.mp header
  rcases outcome with ⟨-, nothing, -⟩ | ⟨-, -, opus, packet', rest', left', payload, position, -⟩
  · exact absurd nothing delivered
  · obtain ⟨same, trailer⟩ := decodePosition_eq_ok position
    rw [same, decodePayload_codec payload] at other
    obtain ⟨rfl, rfl, rfl⟩ := decodePayload_other other payload
    rcases trailer with ⟨-, value⟩ | ⟨positive, count, -⟩
    · rw [value]
    · have twelve := toSize_eq_small positive (by omega) count
      omega

/-- The adapter, at a tunnel frame, and the datagram callback, at its payload,
return the same exactly when both drop the packet as late. -/
theorem tunnel_agrees_iff {ν : Type} (api : OpusApi ω) (h : Handlers (Audio ω) μ) (audio : Audio ω)
    (installed : audio.cb = true) (installed' : audio.decoder.cb = true) (aes : Aes)
    (trySend : List UInt8 → Int) (sender sender' : Audio ν) (p tail frame : List UInt8)
    (voice : ∀ b ∈ p.head?, audioType b ≠ audioPing)
    (sent : encoderCb aes trySend sender p p.length = .ok (sender', .tcp frame))
    (decoder : FrameDecoder) (window : decoder.buffer = frame ++ tail) :
    (∃ next left, adapterRound (h.withAudio api) ⟨decoder, audio⟩ = .ok ⟨left, next⟩ ∧
        udpCb api audio p p.length = .ok next) ↔
      8 < p.length ∧ ∃ seq, Carries p seq ∧ seq < audio.decoder.sequence.toUInt64 := by
  obtain rfl := tunnelFrame_eq_ok (encoderCb_tcp sent)
  have room : decoder.buffer.length ≤ 2 ^ 20 := Nat.le_trans decoder.fits decoder.limit
  have size : decoder.buffer.length = 6 + p.length + tail.length := by
    rw [window]
    simp only [List.length_append, ofBigEndian_length]
  have round : adapterRound (h.withAudio api) ⟨decoder, audio⟩ = _ :=
    adapterRound_tunnel (p := p) (by omega) window
  have length : (decoder.buffer.length : Int) = 6 + p.length + tail.length := by omega
  obtain ⟨rest, bytes, after⟩ : ∃ rest, decoder.buffer = 0 :: 1 :: 0 :: rest ∧ rest =
      .ofNat (p.length / 256 / 256) :: .ofNat (p.length / 256) :: .ofNat p.length :: (p ++ tail) :=
    ⟨_, window.trans (tunnelFrame_bytes (by omega) tail), rfl⟩
  rw [length, bytes] at round
  constructor
  · rintro ⟨next, left, tunneled, direct⟩
    have nonempty : p ≠ [] := by
      rintro rfl
      cases direct
    rw [udpCb_voice (by omega) voice nonempty] at direct
    rw [round] at tunneled
    obtain ⟨next', tunneled, same⟩ := bind_eq_ok.mp tunneled
    cases same
    obtain ⟨d, decoded, left_by_tunnel⟩ := audio_decode_eq_ok installed tunneled
    obtain ⟨d', decoded', left_by_udp⟩ := audio_decode_eq_ok installed direct
    have heard : d.delivered.toList = d'.delivered.toList :=
      List.append_cancel_left (congrArg Audio.heard (left_by_tunnel.symm.trans left_by_udp))
    obtain ⟨long, packet, _, _, header, ⟨late, -, -⟩ | ⟨-, delivered, -⟩⟩ :=
      mumbleAudioDecoderDecode_cases decoded'
    · exact ⟨by omega, packet.sequence, carries_of_header header, late⟩
    · rw [if_pos installed'] at delivered
      have delivered' : d.delivered = some d'.audio := by
        rw [delivered] at heard
        exact Option.toList_eq_singleton_iff.mp heard
      have presented := mumbleAudioDecoderDecode_presented decoded delivered'
      obtain ⟨count, codec, position⟩ :=
        tunnel_delivered (by omega) decoded (by rw [delivered']; exact nofun)
      have nine : p.length = 9 := by omega
      have zero := short_delivered nine decoded' (by rw [delivered]; exact nofun)
        (by rw [presented, codec]; decide)
      obtain ⟨b, p', rfl⟩ := List.exists_cons_of_ne_nil nonempty
      rw [presented, position, after, nine] at zero
      exact absurd zero (float_length_field b _)
  · rintro ⟨long, seq, carries, late⟩
    have nonempty : p ≠ [] := by
      rintro rfl
      exact absurd long (by decide)
    obtain ⟨packet, behind, left, header, rfl⟩ := header_of_carries nonempty voice carries
    have marked : (0 : UInt64) < audio.decoder.sequence.toUInt64 := by
      rw [UInt64.lt_iff_toNat_lt] at late ⊢
      exact Nat.zero_lt_of_lt late
    have direct := (udpCb_voice (by omega) voice nonempty).trans
      (@audio_decode_dropped _ api _ _ _ _ _ _ (by omega) header late)
    have tunneled := @audio_decode_dropped _ api audio _ _ _ _ _ (by omega)
      (decodeHeader_tunnel (6 + p.length + tail.length) (by omega) rest) marked
    rw [tunneled, ok_bind] at round
    exact ⟨_, _, round, direct⟩

end

def sampleAudio (mark : UInt32) : Audio Unit where
  udp := sampleConn []
  cb := true
  decoder := { mumbleAudioDecoderSetCb (mumbleAudioDecoderInit ()) with sequence := mark }
  pinger := ⟨false, ⟨0, false⟩, false⟩
  heard := []

/-- An Opus packet from source five with sequence number seven. -/
def samplePacket : List UInt8 := [0x80, 5, 7, 5, 0x80, 2, 3, 4, 5]

def sampleFrame : List UInt8 := [0, 1, 0, 0, 0, 9, 0x80, 5, 7, 5, 0x80, 2, 3, 4, 5]

def sampleHandlers : Handlers (Audio Unit) Unit where
  audioDecode audio _ _ := .ok audio
  unpack audio _ _ _ := .ok (audio, none)
  messageInternal audio _ _ := .ok audio
  onMessage := none

def windowOf (buffer : List UInt8) (fits : buffer.length ≤ frameMaxSize) : FrameDecoder :=
  ⟨buffer, frameMaxSize, fits, Nat.le_refl _⟩

theorem tunnel_agrees_sample :
    (∃ next left, adapterRound (sampleHandlers.withAudio silentOpus)
        ⟨windowOf (sampleFrame ++ [0, 3]) (by decide), sampleAudio 8⟩ = .ok ⟨left, next⟩ ∧
      udpCb silentOpus (sampleAudio 8) samplePacket samplePacket.length = .ok next) ↔
    8 < samplePacket.length ∧
      ∃ seq, Carries samplePacket seq ∧ seq < (sampleAudio 8).decoder.sequence.toUInt64 :=
  tunnel_agrees_iff silentOpus sampleHandlers (sampleAudio 8) rfl rfl identityAes (fun _ => 1)
    (sampleAudio 0) (sampleAudio 0) samplePacket [0, 3] sampleFrame (by rintro b ⟨⟩; decide) rfl _ rfl

/-- The same packet is heard from source five by datagram and from source one by
the control stream, where the codec, the sequence number and the samples differ too. -/
theorem tunnel_disagrees :
    encoderCb identityAes (fun _ => 1) (sampleAudio 0) samplePacket samplePacket.length =
        .ok (sampleAudio 0, .tcp sampleFrame) ∧
      (udpCb silentOpus (sampleAudio 0) samplePacket samplePacket.length).map (fun audio =>
        audio.heard.map fun a => (a.codec, a.source, a.sequence, a.pcm.samples)) =
          .ok [(4, 5, 7, 120)] ∧
      (adapterRound (sampleHandlers.withAudio silentOpus)
        ⟨windowOf sampleFrame (by decide), sampleAudio 0⟩).map (fun client =>
          client.state.heard.map fun a => (a.codec, a.source, a.sequence, a.pcm.samples)) =
          .ok [(0, 1, 0, 0)] := by
  refine ⟨rfl, by decide +kernel, by decide +kernel⟩

end Mumble

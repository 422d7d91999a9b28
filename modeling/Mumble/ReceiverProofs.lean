import Mumble.PacketParts

/-! Payloads of any bytes at the datagram callback. The decoder takes the sample
count for the length of the Opus payload, and reads varints past the end. -/
namespace Mumble
open CExec Bytes

/-- The values that the remaining length takes while a packet is decoded. -/
def cursors {ω : Type} (api : OpusApi ω) (decoder : AudioDecoder ω) (buf : List UInt8) (len : Int) :
    List Int :=
  (len - 1) :: ((match varintDecode (buf.drop 1) (len - 1) 0 with
    | .error _ => []
    | .ok (n, _) => [len - 1 - n]) ++
    match decodeHeader buf len with
    | .error _ => []
    | .ok (audio, rest, left) => left ::
      if audio.sequence < decoder.sequence.toUInt64 ∨ audio.codec ≠ audioOpus then []
      else (match varintDecode rest left 0 with
        | .error _ => []
        | .ok (k, _) => [left - k]) ++
        match decodePayload api decoder.opus audio rest left with
        | .error _ => []
        | .ok (_, _, _, left) => [left])

/-- The callback returns, and the remaining length has never been negative. -/
def ReceivesSafely {ω : Type} (api : OpusApi ω) (audio : Audio ω) (p stale : List UInt8) : Prop :=
  (∃ next, udpCb api audio (p ++ stale) p.length = .ok next) ∧
    (p.head? ≠ some 0x20 → ∀ cursor ∈ cursors api audio.decoder (p ++ stale) p.length, 0 ≤ cursor)

/-- A timestamp starts within the packet. Its bytes may run on into what is
behind the packet, except for those of the form of two. -/
def PingReadable (p stale : List UInt8) : Prop :=
  ∃ bytes value back, p.drop 1 ≠ [] ∧ p.drop 1 ++ stale = bytes ++ back ∧ IsVarint bytes value ∧
    (bytes.length = 2 → 2 ≤ (p.drop 1).length)

/-- More than eight bytes with a header within them, and either a late number, or
a codec that is not decoded and nothing or a position behind the header, or a
framed Opus payload of as many bytes as it has samples, up to a position. -/
def Receivable {ω : Type} (api : OpusApi ω) (decoder : AudioDecoder ω) (p : List UInt8) : Prop :=
  8 < p.length ∧ ∃ b source sequence body, HasParts p b source sequence body ∧
    audioType b ≠ audioPing ∧
    (sequence < decoder.sequence.toUInt64 ∨
      (audioType b ≠ audioOpus ∧ (body.length = 0 ∨ body.length = 12)) ∨
      (audioType b = audioOpus ∧ ∃ k value data, body = k ++ data ∧ IsVarint k value ∧ data ≠ [] ∧
        opusLength value = data.length ∧
        (samplesOf api decoder.opus data = body.length ∨
          samplesOf api decoder.opus data + 12 = body.length)))

section
variable {ω : Type} {api : OpusApi ω} {audio : Audio ω} {decoder : AudioDecoder ω} {p stale : List UInt8}

theorem decodePosition_none (packet : AudioPacket) (rest : List UInt8) :
    decodePosition packet rest 0 = .ok packet := if_neg (by decide)

theorem decodePosition_twelve (packet : AudioPacket) {rest : List UInt8} (long : 12 ≤ rest.length) :
    ∃ packet', decodePosition packet rest 12 = .ok packet' := by
  have copied : slice rest (4 * 3) = .ok (rest.take (4 * 3)) := slice_of_le long
  rw [decodePosition, if_pos (by decide), require_true (by decide), ok_bind, copied]
  exact ⟨_, rfl⟩

theorem float_eq_zero (bytes : List UInt8) : float bytes = 0 ↔ ∀ b ∈ bytes.take 4, b = 0 := by
  have bound := littleEndian_lt (bytes.take 4)
  have width : 256 ^ (bytes.take 4).length ≤ 256 ^ 4 :=
    Nat.pow_le_pow_right (by decide) (List.length_take_le 4 bytes)
  rw [float, ← littleEndian_eq_zero, ← UInt32.toNat_inj, UInt32.toNat_ofNat', Nat.mod_eq_of_lt (by omega)]
  rfl

/-- A position of three zeros is read off twelve zero bytes. -/
theorem position_eq_zero {bytes : List UInt8} (twelve : bytes.length = 12) :
    (⟨float bytes, float (bytes.drop 4), float (bytes.drop 8)⟩ : Position) = ⟨0, 0, 0⟩ ↔
      ∀ b ∈ bytes, b = 0 := by
  have last : (bytes.drop 8).take 4 = bytes.drop 8 := List.take_of_length_le (by
    rw [List.length_drop, twelve])
  have middle : (bytes.drop 4).take 4 ++ bytes.drop 8 = bytes.drop 4 := by
    have rest : bytes.drop 8 = (bytes.drop 4).drop 4 := by rw [List.drop_drop]
    rw [rest, List.take_append_drop]
  rw [Position.mk.injEq, float_eq_zero, float_eq_zero, float_eq_zero, last, ← List.forall_mem_append,
    middle, ← List.forall_mem_append, List.take_append_drop]

theorem decodePosition_fields {packet packet' : AudioPacket} {rest : List UInt8} {left : Int}
    (run : decodePosition packet rest left = .ok packet') :
    packet' = { packet with position := packet'.position } := by
  rw [decodePosition] at run
  split at run
  · obtain ⟨_, -, run⟩ := bind_eq_ok.mp run
    obtain ⟨pos, -, run⟩ := bind_eq_ok.mp run
    cases run
    rfl
  · cases run
    rfl

/-- The last twelve bytes are zeros, and the cursor, which moves by the count of
samples, stops in front of them. -/
def StopsAtZeros (samples : Int) (body : List UInt8) : Prop :=
  samples + 12 = body.length ∧ ∀ b ∈ body.drop samples.toNat, b = 0

/-- Zeros are what is left of the position if the cursor has passed the end, or if it
stops where zeros are read. -/
theorem decodePosition_zeros_iff {packet packet' : AudioPacket} {body stale : List UInt8} {samples : Int}
    (zeros : packet.position = ⟨0, 0, 0⟩) (positive : 0 < samples) (small : body.length < 2 ^ 31) :
    (decodePosition packet ((body ++ stale).drop samples.toNat) (body.length - samples) = .ok packet' ∧
        packet'.position = ⟨0, 0, 0⟩) ↔
      packet' = packet ∧ (body.length ≤ samples ∨ StopsAtZeros samples body) := by
  by_cases past : (body.length : Int) ≤ samples
  · rw [decodePosition, if_neg (by omega)]
    constructor
    · rintro ⟨run, -⟩
      cases run
      exact ⟨rfl, .inl past⟩
    · rintro ⟨rfl, -⟩
      exact ⟨rfl, zeros⟩
  have before : 0 < (body.length : Int) - samples := by omega
  by_cases twelve : samples + 12 = body.length
  · have left : (body.length : Int) - samples = 12 := by omega
    have behind : (body.drop samples.toNat).length = 4 * 3 := by
      rw [List.length_drop]
      omega
    have read : slice ((body ++ stale).drop samples.toNat) (4 * 3) = .ok (body.drop samples.toNat) := by
      rw [List.drop_append_of_le_length (by omega), ← behind, slice_length_append]
    have zero := position_eq_zero behind
    rw [left, decodePosition, if_pos (by decide), require_true (by decide), ok_bind, read, ok_bind]
    constructor
    · rintro ⟨run, none⟩
      cases run
      replace none : (⟨_, _, _⟩ : Position) = ⟨0, 0, 0⟩ := none
      refine ⟨?_, .inr ⟨twelve, zero.mp none⟩⟩
      rw [none, ← zeros]
    · rintro ⟨rfl, passed | ⟨-, none⟩⟩
      · exact absurd passed past
      · rw [zero.mpr none, ← zeros]
        exact ⟨rfl, rfl⟩
  · have other : ¬ toSize ((body.length : Int) - samples) = 4 * 3 := fun count =>
      twelve (by have left := toSize_eq_small before (by omega) count; omega)
    rw [decodePosition, if_pos before, require_false other, error_bind]
    constructor
    · rintro ⟨run, -⟩
      cases run
    · rintro ⟨-, passed | ⟨stops, -⟩⟩
      · exact absurd passed past
      · exact absurd stops twelve

/-- What is behind the payload is nothing or a position. -/
theorem left_of_position {packet packet' : AudioPacket} {rest : List UInt8} {left : Int}
    (small : left < 2 ^ 31) (inside : 0 ≤ left) (run : decodePosition packet rest left = .ok packet') :
    left = 0 ∨ left = 12 := by
  obtain ⟨-, ⟨none, -⟩ | ⟨positive, count, -⟩⟩ := decodePosition_eq_ok run
  · exact .inl (by omega)
  · exact .inr (toSize_eq_small positive (by omega) count)

theorem audio_decode_ok (buf : List UInt8) (len : Int) :
    (∃ next, audio.decode api buf len = .ok next) ↔
      ∃ d, mumbleAudioDecoderDecode api audio.decoder buf len = .ok d := by
  constructor
  · rintro ⟨next, run⟩
    obtain ⟨d, decoded, -⟩ := bind_eq_ok.mp run
    exact ⟨d, decoded⟩
  · rintro ⟨d, decoded⟩
    rw [Audio.decode, decoded, ok_bind]
    cases d.delivered with
    | none => exact ⟨_, rfl⟩
    | some packet => exact ⟨_, rfl⟩

section Cursors
variable {buf rest : List UInt8} {len left n : Int} {source : UInt64} {packet : AudioPacket}

theorem mem_cursors_source (source_ok : varintDecode (buf.drop 1) (len - 1) 0 = .ok (n, source)) :
    len - 1 - n ∈ cursors api decoder buf len := by
  rw [cursors, source_ok]
  exact List.mem_cons_of_mem _ (List.mem_append_left _ (List.mem_singleton_self _))

theorem mem_cursors_header (header : decodeHeader buf len = .ok (packet, rest, left)) :
    left ∈ cursors api decoder buf len := by
  simp [cursors, header]

theorem mem_cursors_payload (header : decodeHeader buf len = .ok (packet, rest, left))
    (inTime : ¬ packet.sequence < decoder.sequence.toUInt64) (opus : packet.codec = audioOpus)
    (payload : decodePayload api decoder.opus packet rest left = .ok (opus', packet', rest', left')) :
    left' ∈ cursors api decoder buf len := by
  simp [cursors, header, inTime, opus, payload]

/-- The lengths stay at or above zero if they do behind the header. -/
theorem cursors_nonneg (some : 0 < len)
    (source_ok : varintDecode (buf.drop 1) (len - 1) 0 = .ok (n, source)) (inside : n ≤ len - 1)
    (header : decodeHeader buf len = .ok (packet, rest, left)) (inside' : 0 ≤ left)
    (behind : ¬ packet.sequence < decoder.sequence.toUInt64 → packet.codec = audioOpus →
      (∀ k value, varintDecode rest left 0 = .ok (k, value) → k ≤ left) ∧
        ∀ opus packet' rest' left', decodePayload api decoder.opus packet rest left =
          .ok (opus, packet', rest', left') → 0 ≤ left') :
    ∀ cursor ∈ cursors api decoder buf len, 0 ≤ cursor := by
  intro cursor member
  rw [cursors, source_ok, header] at member
  dsimp only at member
  rcases List.mem_cons.mp member with rfl | member
  · exact Int.sub_nonneg.mpr some
  rcases List.mem_append.mp member with member | member
  · rw [List.mem_singleton.mp member]
    omega
  rcases List.mem_cons.mp member with rfl | member
  · exact inside'
  split at member
  · cases member
  case isFalse decoded =>
    obtain ⟨inTime, opus⟩ := not_or.mp decoded
    obtain ⟨length, payload⟩ := behind inTime (not_not.mp opus)
    rcases List.mem_append.mp member with member | member
    · split at member
      · cases member
      · rw [List.mem_singleton.mp member]
        exact Int.sub_nonneg.mpr (length _ _ ‹_›)
    · split at member
      · cases member
      · rw [List.mem_singleton.mp member]
        exact payload _ _ _ _ ‹_›

end Cursors

/-- The source is read within a packet that has parts. -/
theorem source_of_parts {b : UInt8} {source sequence : UInt64} {body : List UInt8}
    (parts : HasParts p b source sequence body) (stale : List UInt8) :
    ∃ n : Int, varintDecode ((p ++ stale).drop 1) (p.length - 1) 0 = .ok (n, source) ∧
      n ≤ p.length - 1 := by
  obtain ⟨s, q, rfl, isSource, -⟩ := parts
  have length : ((b :: (s ++ (q ++ body))).length : Int) - 1 = (s ++ (q ++ body)).length := by
    rw [List.length_cons]
    omega
  have inside : (s.length : Int) ≤ (s ++ (q ++ body)).length := by
    rw [List.length_append]
    omega
  refine ⟨s.length, ?_, by rw [length]; exact inside⟩
  rw [length, List.cons_append, List.drop_one, List.tail_cons, List.append_assoc]
  exact isSource.decode _ _ _ inside

theorem mumbleAudioDecoderDecode_of_stages {buf : List UInt8} {len : Int} {packet : AudioPacket}
    (long : 8 < len) (header : decodeHeader buf len = .ok (packet, rest, left))
    (inTime : ¬ packet.sequence < decoder.sequence.toUInt64)
    (payload : decodePayload api decoder.opus packet rest left = .ok (opus', packet', rest', left'))
    (position : decodePosition packet' rest' left' = .ok packet'') :
    mumbleAudioDecoderDecode api decoder buf len = .ok
      { ret := 0
        decoder := { decoder with
          packets := decoder.packets + 1, sequence := packet.sequence.toUInt32, opus := opus' }
        audio := packet''
        delivered := if decoder.cb then some packet'' else none } := by
  rw [mumbleAudioDecoderDecode, require_true long, ok_bind, header, ok_bind]
  dsimp only
  rw [if_neg inTime, payload, ok_bind]
  dsimp only
  rw [position]
  rfl

/-- What is behind the header is decoded. -/
theorem payload_of_receivable (succeeds : api.Succeeds) {b : UInt8} {source sequence : UInt64}
    {body : List UInt8} (small : body.length < 2 ^ 31) (stale : List UInt8)
    (decodable : (audioType b ≠ audioOpus ∧ (body.length = 0 ∨ body.length = 12)) ∨
      (audioType b = audioOpus ∧ ∃ k value data, body = k ++ data ∧ IsVarint k value ∧ data ≠ [] ∧
        opusLength value = data.length ∧ (samplesOf api decoder.opus data = body.length ∨
          samplesOf api decoder.opus data + 12 = body.length))) :
    ∃ opus packet rest left packet', decodePayload api decoder.opus (headerOf b source sequence)
        (body ++ stale) body.length = .ok (opus, packet, rest, left) ∧ 0 ≤ left ∧
      decodePosition packet rest left = .ok packet' := by
  rcases decodable with ⟨other, none | twelve⟩ | ⟨opus, k, value, data, rfl, isLength, some, length, samples⟩
  · have same : (headerOf b source sequence).codec ≠ audioOpus := other
    rw [decodePayload, if_neg same, none]
    exact ⟨_, _, _, _, _, rfl, Int.le_refl 0, decodePosition_none _ _⟩
  · have same : (headerOf b source sequence).codec ≠ audioOpus := other
    rw [decodePayload, if_neg same, twelve]
    obtain ⟨packet', position⟩ := @decodePosition_twelve (headerOf b source sequence) (body ++ stale)
      (by rw [List.length_append]; omega)
    exact ⟨_, _, _, _, packet', rfl, by decide, position⟩
  · have same : (headerOf b source sequence).codec = audioOpus := opus
    obtain ⟨frame, decoded, positive, count, -⟩ :=
      decodePayload_framed succeeds same isLength some length small decoder.opus stale
    rw [decoded]
    rcases samples with all | twelve
    · have none : ((k ++ data).length : Int) - frame.ret = 0 := by omega
      rw [none]
      exact ⟨_, _, _, _, _, rfl, Int.le_refl 0, decodePosition_none _ _⟩
    · have rest : ((k ++ data).length : Int) - frame.ret = 12 := by omega
      rw [rest]
      obtain ⟨packet', position⟩ := @decodePosition_twelve
        { headerOf b source sequence with pcm := ⟨frame.pcm, 48000, frame.ret⟩ }
        ((k ++ data ++ stale).drop frame.ret.toNat) (by rw [List.length_drop, List.length_append]; omega)
      exact ⟨_, _, _, _, packet', rfl, by decide, position⟩

theorem receivable_safe (succeeds : api.Succeeds) (small : p.length < 2 ^ 31)
    (receivable : Receivable api decoder p) (stale : List UInt8) :
    (∃ d, mumbleAudioDecoderDecode api decoder (p ++ stale) p.length = .ok d) ∧
      ∀ cursor ∈ cursors api decoder (p ++ stale) p.length, 0 ≤ cursor := by
  obtain ⟨long, b, source, sequence, body, parts, voice, outcome⟩ := receivable
  have header := decodeHeader_parts parts voice stale
  obtain ⟨n, read, inside⟩ := source_of_parts parts stale
  have bound : body.length < 2 ^ 31 := by
    obtain ⟨s, q, rfl, -, -⟩ := parts
    simp only [List.length_cons, List.length_append] at small
    omega
  have safe := @cursors_nonneg _ api decoder _ _ _ _ _ _ _ (by omega) read inside header
    (Int.natCast_nonneg _)
  by_cases late : sequence < decoder.sequence.toUInt64
  · exact ⟨⟨_, mumbleAudioDecoderDecode_dropped (Int.ofNat_lt.mpr long) header late⟩,
      safe fun inTime => absurd late inTime⟩
  · obtain ⟨opus, packet, rest, left, packet', payload, nonneg, position⟩ :=
      @payload_of_receivable _ api decoder succeeds b source sequence body bound stale
        (outcome.resolve_left late)
    refine ⟨⟨_, mumbleAudioDecoderDecode_of_stages (Int.ofNat_lt.mpr long) header late payload position⟩,
      safe fun _ codec => ⟨?_, ?_⟩⟩
    · intro m value length
      rcases outcome.resolve_left late with ⟨other, -⟩ | ⟨-, k, value', data, rfl, isLength, -⟩
      · exact absurd codec other
      · have front : (k.length : Int) ≤ (k ++ data).length := by
          rw [List.length_append]
          omega
        rw [List.append_assoc, isLength.decode _ _ _ front] at length
        cases length
        exact front
    · intro opus' packet'' rest' left' payload'
      rw [payload] at payload'
      cases payload'
      exact nonneg

theorem safe_receivable (small : p.length < 2 ^ 31) (nonempty : p ≠ []) {d : Decoded ω}
    (run : mumbleAudioDecoderDecode api decoder (p ++ stale) p.length = .ok d)
    (inside : ∀ cursor ∈ cursors api decoder (p ++ stale) p.length, 0 ≤ cursor) :
    Receivable api decoder p := by
  obtain ⟨long, packet, rest, left, header, outcome⟩ := mumbleAudioDecoderDecode_cases run
  obtain ⟨b, source, sequence, body, parts, -, voice, rfl, rfl, rfl⟩ := parts_of_decodeHeader nonempty
    header (fun n source read => inside _ (mem_cursors_source read)) (inside _ (mem_cursors_header header))
  have bound : body.length < 2 ^ 31 := by
    obtain ⟨s, q, rfl, -, -⟩ := parts
    simp only [List.length_cons, List.length_append] at small
    omega
  refine ⟨Int.ofNat_lt.mp long, b, source, sequence, body, parts, voice, ?_⟩
  rcases outcome with ⟨late, -, -⟩ | ⟨inTime, -, opus', packet', rest', left', payload, position, -⟩
  · exact .inl late
  · right
    by_cases opus : (headerOf b source sequence).codec = audioOpus
    · right
      have inside' := inside _ (mem_cursors_payload header inTime opus payload)
      obtain ⟨frame, decoded, positive, rfl, rfl, rfl, rfl⟩ := frame_of_decodePayload opus payload
      obtain ⟨k, value, data, split, isLength, some, length, samples, -⟩ :=
        framed_of_mumbleCodecOpusDecode bound decoded
      refine ⟨opus, k, value, data, split, isLength, some, length, ?_⟩
      rw [← samples]
      rcases left_of_position (by omega) inside' position with none | twelve
      · exact .inl (by omega)
      · exact .inr (by omega)
    · left
      obtain ⟨rfl, rfl, rfl⟩ := decodePayload_other opus payload
      refine ⟨opus, ?_⟩
      rcases left_of_position (by omega) (by omega) position with none | twelve
      · exact .inl (by omega)
      · exact .inr (by omega)

theorem ping_iff (small : p.length < 2 ^ 31) (rest : List UInt8) (ping : p = 0x20 :: rest) :
    (∃ next, udpCb api audio (p ++ stale) p.length = .ok next) ↔ PingReadable p stale := by
  subst ping
  rw [udpCb_ping rest stale (by simpa using small)]
  constructor
  · rintro ⟨next, run⟩
    obtain ⟨⟨ret, timestamp⟩, read, run⟩ := bind_eq_ok.mp run
    obtain ⟨_, positive, -⟩ := bind_eq_ok.mp run
    obtain ⟨bytes, back, split, rfl, varint, some, two⟩ := exists_varint read (require_eq_ok.mp positive)
    refine ⟨bytes, timestamp, back, ?_, split, varint, fun size => ?_⟩
    · rintro rfl
      exact some rfl
    · exact Int.ofNat_le.mp (two (congrArg Int.ofNat size))
  · rintro ⟨bytes, value, back, some, split, varint, two⟩
    rw [List.drop_one, List.tail_cons] at some split two
    have nonzero : (rest.length : Int) ≠ 0 := Int.natCast_ne_zero.mpr (List.length_pos_iff.mpr some).ne'
    rw [split, varint.read back rest.length 0 nonzero (fun size => Int.ofNat_le.mpr (two size)), ok_bind]
    dsimp only
    rw [require_true varint.positive]
    exact ⟨_, rfl⟩

end

/-- The callback returns, with the remaining length never negative, exactly when
the packet is a ping with a timestamp or is cut up in this way. -/
theorem receiver_safe_iff {ω : Type} (api : OpusApi ω) (succeeds : api.Succeeds) (audio : Audio ω)
    (p stale : List UInt8) (nonempty : p ≠ []) (small : p.length < 2 ^ 31) :
    ReceivesSafely api audio p stale ↔
      if p.head? = some 0x20 then PingReadable p stale else Receivable api audio.decoder p := by
  cases p with
  | nil => exact absurd rfl nonempty
  | cons b rest =>
    rw [ReceivesSafely]
    split
    case isTrue ping =>
      rw [and_iff_left (fun voice => absurd ping voice)]
      cases ping
      exact ping_iff small rest rfl
    case isFalse voice =>
      have other : b ≠ 0x20 := fun same => voice (congrArg some same)
      have first : udpCb api audio (b :: rest ++ stale) (b :: rest).length =
          audio.decode api (b :: rest ++ stale) (b :: rest).length := by
        rw [udpCb, List.cons_append, load_zero, ok_bind, if_neg other,
          toInt_of_small (by omega) (by omega)]
      rw [first, audio_decode_ok]
      constructor
      · rintro ⟨⟨d, run⟩, inside⟩
        exact safe_receivable small nonempty run (inside voice)
      · intro receivable
        obtain ⟨run, inside⟩ := receivable_safe succeeds small receivable stale
        exact ⟨run, fun _ => inside⟩

theorem silentOpus_succeeds : silentOpus.Succeeds where
  malloc _ := rfl
  samples _ _ _ := show (0 : Int) < 120 by decide
  pcm _ _ _ := show 2 * (List.replicate 120 (0 : UInt16)).length ≤ toSize (toInt (toSize (2 * 120))) by
    decide

/-- An Opus packet with as many bytes behind the header as it has samples. -/
def evenPacket : List UInt8 := 0x80 :: ([5] ++ ([7] ++ (119 :: List.replicate 119 1)))

theorem receiver_safe_sample : ReceivesSafely silentOpus (sampleAudio 0) evenPacket [] := by
  have source : IsVarint [5] 5 := isVarint_varintBytes 5
  have sequence : IsVarint [7] 7 := isVarint_varintBytes 7
  have length : IsVarint [119] 119 := isVarint_varintBytes 119
  have parts : HasParts evenPacket 0x80 5 7 (119 :: List.replicate 119 1) :=
    ⟨[5], [7], rfl, source, sequence⟩
  refine (receiver_safe_iff silentOpus silentOpus_succeeds (sampleAudio 0) evenPacket []
    (List.cons_ne_nil _ _) (by decide +kernel)).mpr ?_
  rw [if_neg (by decide)]
  exact ⟨by decide +kernel, 0x80, 5, 7, _, parts, by decide, .inr (.inr ⟨rfl, [119], 119,
    List.replicate 119 1, rfl, length, List.cons_ne_nil _ _, by decide +kernel, .inl (by decide +kernel)⟩)⟩

/-- The samples of five bytes are subtracted from the six bytes that are left. -/
theorem receiver_unsafe : ¬ ∀ (audio : Audio Unit) (p stale : List UInt8), p ≠ [] → p.length < 2 ^ 31 →
    ReceivesSafely silentOpus audio p stale := by
  intro safe
  obtain ⟨-, inside⟩ := safe (sampleAudio 0) samplePacket [] (by decide) (by decide)
  have negative : -114 ∈ cursors silentOpus (sampleAudio 0).decoder (samplePacket ++ [])
      samplePacket.length := by decide +kernel
  exact absurd (inside (by decide) _ negative) (by decide)

end Mumble

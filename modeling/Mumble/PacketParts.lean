import Mumble.TunnelProofs
import Mumble.VarintReads

/-! The parts of a voice packet, and what of the memory behind it they leave
unread. -/
namespace Mumble
open CExec

section Varint
variable {b0 : UInt8} {memory : List UInt8} {size n : Int} {result value : UInt64}

/-- A call on memory that starts with a form has read this one. -/
theorem VarintForm.found {front back : List UInt8} {read : UInt64} (form : VarintForm front read)
    (some : size ≠ 0) (two : front.length = 2 → 2 ≤ size)
    (run : varintDecode (front ++ back) size result = .ok (n, value)) :
    ∃ front' back', front ++ back = front' ++ back' ∧ n = front'.length ∧ VarintForm front' value ∧
      size ≠ 0 ∧ (n = 2 → 2 ≤ size) := by
  rw [form.isVarint.read back size result some two] at run
  cases run
  exact ⟨front, back, rfl, rfl, form, some, fun count => two (Int.ofNat_inj.mp count)⟩

/-- A call that finds a value has read a form at the front of the memory. -/
theorem exists_varint_form (run : varintDecode memory size result = .ok (n, value)) (positive : 0 < n) :
    ∃ front back, memory = front ++ back ∧ n = front.length ∧ VarintForm front value ∧ size ≠ 0 ∧
      (n = 2 → 2 ≤ size) := by
  have some : size ≠ 0 := by
    rintro rfl
    cases run
    cases positive
  cases memory with
  | nil =>
    rw [varintDecode, varintDecodeRec, if_neg some] at run
    cases run
  | cons b0 rest =>
    have plain : ¬ Negative b0 := fun negative => by
      cases (varintDecodeRec_endless negative some _ rest result).symm.trans run
    have long (two : formLength b0 = 2) : 2 ≤ size := by
      by_contra short
      cases (varintDecode_cut_two two plain some (Int.not_le.mp short)).symm.trans run
      cases positive
    have whole : formLength b0 ≤ rest.length + 1 := by
      by_contra cut
      cases (varintDecode_cut long plain some (Nat.lt_of_not_le cut)).symm.trans run
    obtain ⟨front, back, read, split, length, form⟩ := exists_form plain whole
    rw [split] at run ⊢
    exact form.found some (fun two => long (length.symm.trans two)) run

theorem exists_varint (run : varintDecode memory size result = .ok (n, value)) (positive : 0 < n) :
    ∃ front back, memory = front ++ back ∧ n = front.length ∧ IsVarint front value ∧ size ≠ 0 ∧
      (n = 2 → 2 ≤ size) := by
  obtain ⟨front, back, split, count, form, rest⟩ := exists_varint_form run positive
  exact ⟨front, back, split, count, form.isVarint, rest⟩

theorem IsVarint.positive {bytes : List UInt8} (varint : IsVarint bytes value) : 0 < (bytes.length : Int) :=
  Int.natCast_pos.mpr (List.length_pos_iff.mpr varint.nonempty)

/-- Two varints at the front of the same bytes are the same. -/
theorem IsVarint.unique {a b x y : List UInt8} {v w : UInt64} (first : IsVarint a v)
    (second : IsVarint b w) (same : a ++ x = b ++ y) : a = b ∧ x = y ∧ v = w := by
  have read := first.decode x (a.length + b.length) 0 (by omega)
  rw [same, second.decode y (a.length + b.length) 0 (by omega)] at read
  have length : a.length = b.length := by
    have count : (b.length : Int) = a.length := congrArg Prod.fst (Except.ok.inj read)
    omega
  obtain ⟨front, back⟩ := List.append_inj same length
  exact ⟨front, back, (congrArg Prod.snd (Except.ok.inj read)).symm⟩

/-- A varint within the bytes in front of `stale`. -/
theorem exists_varint_inside {p stale : List UInt8}
    (run : varintDecode (p ++ stale) size result = .ok (n, value)) (positive : 0 < n)
    (inside : n ≤ p.length) :
    ∃ front back, p = front ++ back ∧ n = front.length ∧ IsVarint front value := by
  obtain ⟨front, rest, split, rfl, varint, -⟩ := exists_varint run positive
  have first : front <+: p := List.prefix_of_prefix_length_le (split ▸ List.prefix_append front rest)
    (List.prefix_append p stale) (Int.ofNat_le.mp inside)
  obtain ⟨back, rfl⟩ := first
  exact ⟨front, back, rfl, rfl, varint⟩

/-- What the encoder writes is one varint, whose value may have lost its sign. -/
theorem isVarint_varintBytes (source : UInt64) :
    IsVarint (varintBytes source) (.ofNat (signExtended source.toNat)) := by
  have width := varintBytes_length source
  have run := varintDecode_bytes source [] (varintBytes source).length 0 (Int.le_refl _)
  have positive : 0 < ((varintBytes source).length : Int) := by
    rw [width]
    simp only [varintEncodeSize, varintRangeSize]
    repeat' split
    all_goals decide
  obtain ⟨front, back, split, count, varint, -⟩ := exists_varint run positive
  rw [List.append_nil] at split
  have whole : varintBytes source = front := by
    rw [split, List.length_append] at count
    rw [split, List.length_eq_zero_iff.mp (show back.length = 0 by omega), List.append_nil]
  rw [whole]
  exact varint

end Varint

/-- A packet's first byte, the varints of its source and its sequence number, and the rest. -/
def HasParts (p : List UInt8) (b : UInt8) (source sequence : UInt64) (body : List UInt8) : Prop :=
  ∃ s q, p = b :: (s ++ (q ++ body)) ∧ IsVarint s source ∧ IsVarint q sequence

/-- What the decoder reads off the parts. -/
def headerOf (b : UInt8) (source sequence : UInt64) : AudioPacket :=
  ⟨audioType b, ⟨[], 0, 0⟩, ⟨0, 0, 0⟩, sequence, source, (audioTarget b).toUInt64⟩

section Header
variable {p stale body : List UInt8} {b : UInt8} {source sequence : UInt64}

theorem decodeHeader_parts (parts : HasParts p b source sequence body)
    (voice : audioType b ≠ audioPing) (stale : List UInt8) :
    decodeHeader (p ++ stale) p.length = .ok (headerOf b source sequence, body ++ stale, body.length) := by
  obtain ⟨s, q, rfl, isSource, isSequence⟩ := parts
  have length : ((b :: (s ++ (q ++ body))).length : Int) - 1 = (s ++ (q ++ body)).length := by
    rw [List.length_cons]
    omega
  have length' : ((s ++ (q ++ body)).length : Int) - s.length = (q ++ body).length := by
    rw [List.length_append]
    omega
  have length'' : ((q ++ body).length : Int) - q.length = body.length := by
    rw [List.length_append]
    omega
  refine decodeHeader_eq_ok.mpr ⟨b, s.length, source, q.length, sequence, rfl, voice, ?_,
    isSource.positive, ?_, isSequence.positive, rfl, ?_, ?_⟩
  · rw [length, List.cons_append, List.drop_one, List.tail_cons, List.append_assoc]
    exact isSource.decode _ _ _ (by rw [List.length_append]; omega)
  · rw [length, length', List.cons_append, List.drop_one, List.tail_cons, Int.toNat_natCast,
      List.append_assoc, List.drop_left, List.append_assoc]
    exact isSequence.decode _ _ _ (by rw [List.length_append]; omega)
  · rw [List.cons_append, List.drop_one, List.tail_cons, Int.toNat_natCast, Int.toNat_natCast,
      List.append_assoc, List.drop_left, List.append_assoc, List.drop_left]
  · rw [length, length', length'']

/-- A header that is read within the packet has parts. -/
theorem parts_of_decodeHeader (nonempty : p ≠ [])
    (header : decodeHeader (p ++ stale) p.length = .ok (audio, rest, left))
    (inside : ∀ n source, varintDecode ((p ++ stale).drop 1) (p.length - 1) 0 = .ok (n, source) →
      0 ≤ (p.length : Int) - 1 - n) (inside' : 0 ≤ left) :
    ∃ b source sequence body, HasParts p b source sequence body ∧ p.head? = some b ∧
      audioType b ≠ audioPing ∧ audio = headerOf b source sequence ∧ rest = body ++ stale ∧
      left = body.length := by
  obtain ⟨b, n, source, m, sequence, first, voice, source_ok, some_source, sequence_ok, some_sequence, rfl,
    rfl, rfl⟩ := decodeHeader_eq_ok.mp header
  cases p with
  | nil => exact absurd rfl nonempty
  | cons b' p =>
    cases first
    have bound := inside n source source_ok
    have length : ((b :: p).length : Int) - 1 = p.length := by
      rw [List.length_cons]
      omega
    rw [length] at source_ok sequence_ok bound inside'
    simp only [List.cons_append, List.drop_one, List.tail_cons] at source_ok sequence_ok
    obtain ⟨s, back, rfl, rfl, isSource⟩ := exists_varint_inside source_ok some_source (by omega)
    rw [Int.toNat_natCast, List.append_assoc, List.drop_left] at sequence_ok
    rw [List.length_append] at inside' bound
    obtain ⟨q, body, rfl, rfl, isSequence⟩ := exists_varint_inside sequence_ok some_sequence (by omega)
    refine ⟨b, source, sequence, body, ⟨s, q, rfl, isSource, isSequence⟩, rfl, voice, rfl, ?_, ?_⟩
    · rw [List.cons_append, List.drop_one, List.tail_cons, Int.toNat_natCast, Int.toNat_natCast,
        List.append_assoc, List.drop_left, List.append_assoc, List.drop_left]
    · simp only [List.length_cons, List.length_append]
      omega

end Header

/-- The number of bytes that the varint in front of an Opus payload announces. -/
def opusLength (value : UInt64) : Nat := (if value &&& 0x2000 ≠ 0 then value &&& 0x1FFF else value).toNat

section Opus
variable {ω : Type} (api : OpusApi ω)

def pcmRoom (codec : ω) (data : List UInt8) : Int :=
  toInt (toSize (2 * api.getNbSamples codec data (toInt data.length)))

/-- What the call of `opus_decode` for a payload gives. -/
def decodeCall (codec : ω) (data : List UInt8) : Int × ω × List UInt16 :=
  api.decode codec data (toInt data.length) (pcmRoom api codec data)

def samplesOf (codec : ω) (data : List UInt8) : Int := (decodeCall api codec data).1

/-- There is memory, and `opus_decode` succeeds on any payload that is not empty. -/
structure OpusApi.Succeeds : Prop where
  malloc : ∀ n, api.malloc n = true
  samples : ∀ codec data, data ≠ [] → 0 < samplesOf api codec data
  pcm : ∀ codec data, data ≠ [] →
    2 * (decodeCall api codec data).2.2.length ≤ toSize (pcmRoom api codec data)

variable {api} {k data body stale : List UInt8} {value : UInt64} {codec : ω}

theorem mumbleCodecOpusDecode_framed (succeeds : api.Succeeds) (isLength : IsVarint k value)
    (some : data ≠ []) (length : opusLength value = data.length) (small : (k ++ data).length < 2 ^ 31)
    (codec : ω) (stale : List UInt8) :
    ∃ frame, mumbleCodecOpusDecode api codec (k ++ data ++ stale) (k ++ data).length = .ok frame ∧
      frame.ret = samplesOf api codec data ∧ frame.codec = (decodeCall api codec data).2.1 ∧
      frame.termination = decide (value &&& 0x2000 ≠ 0) := by
  have read := isLength.decode (data ++ stale) (k ++ data).length 0 (by rw [List.length_append]; omega)
  have positive := List.length_pos_iff.mpr some
  have whole : toSize ((k ++ data).length : Int) = (k ++ data).length := by
    rw [toSize_natCast, Nat.mod_eq_of_lt (by omega)]
  have rest : ((k ++ data).length : Int) - k.length = data.length := by
    rw [List.length_append]
    omega
  have left : toSize (data.length : Int) = data.length := by
    rw [List.length_append] at small
    rw [toSize_natCast, Nat.mod_eq_of_lt (by omega)]
  have below : data.length < (k ++ data).length := by
    have more := isLength.positive
    rw [List.length_append]
    omega
  have copied : slice (data ++ stale) data.length = .ok data := slice_length_append data stale
  have masked : (if decide (value &&& 0x2000 ≠ 0) = true then value &&& 0x1FFF else value).toNat =
      data.length := by
    rw [← length, opusLength]
    simp only [decide_eq_true_eq]
  have room := succeeds.pcm codec data some
  have decoded := succeeds.samples codec data some
  refine ⟨⟨samplesOf api codec data, (decodeCall api codec data).2.1, (decodeCall api codec data).2.2,
    pcmRoom api codec data, decide (value &&& 0x2000 ≠ 0)⟩, ?_, rfl, rfl, rfl⟩
  rw [mumbleCodecOpusDecode, List.append_assoc, read, ok_bind]
  dsimp only
  rw [masked, require_true isLength.positive, ok_bind, require_true positive, ok_bind, whole,
    require_true below, ok_bind, rest, left, require_true rfl, ok_bind, Int.toNat_natCast, List.drop_left,
    copied, ok_bind, require_true (succeeds.malloc _), ok_bind]
  change (require (2 * (decodeCall api codec data).2.2.length ≤ toSize (pcmRoom api codec data)) _ >>= _) = _
  rw [require_true room, ok_bind]
  change (require (0 < samplesOf api codec data) _ >>= _) = _
  rw [require_true decoded]
  rfl

/-- What is decoded has been framed, and the sample count is that of its payload. -/
theorem framed_of_mumbleCodecOpusDecode (small : body.length < 2 ^ 31)
    (run : mumbleCodecOpusDecode api codec (body ++ stale) body.length = .ok frame) :
    ∃ k value data, body = k ++ data ∧ IsVarint k value ∧ data ≠ [] ∧ opusLength value = data.length ∧
      frame.ret = samplesOf api codec data ∧ frame.codec = (decodeCall api codec data).2.1 ∧
      frame.termination = decide (value &&& 0x2000 ≠ 0) := by
  obtain ⟨⟨ret, value⟩, read, run⟩ := bind_eq_ok.mp run
  obtain ⟨_, positive, run⟩ := bind_eq_ok.mp run
  obtain ⟨_, some, run⟩ := bind_eq_ok.mp run
  obtain ⟨_, below, run⟩ := bind_eq_ok.mp run
  obtain ⟨_, exact, run⟩ := bind_eq_ok.mp run
  obtain ⟨data, copied, run⟩ := bind_eq_ok.mp run
  obtain ⟨_, -, run⟩ := bind_eq_ok.mp run
  obtain ⟨_, -, run⟩ := bind_eq_ok.mp run
  obtain ⟨_, -, ended⟩ := bind_eq_ok.mp run
  replace positive := require_eq_ok.mp positive
  replace some := require_eq_ok.mp some
  replace below := require_eq_ok.mp below
  replace exact := require_eq_ok.mp exact
  have masked : (if decide (value &&& 0x2000 ≠ 0) = true then value &&& 0x1FFF else value).toNat =
      opusLength value := by
    rw [opusLength]
    simp only [decide_eq_true_eq]
  rw [masked] at some below exact copied ended
  rw [toSize_natCast] at below
  obtain ⟨front, -, -, count, isVarint, -⟩ := exists_varint read positive
  have nine := isVarint.short
  have inside : ret ≤ body.length := by
    by_contra past
    rw [exact, toSize] at below
    omega
  obtain ⟨k, data', rfl, rfl, isLength⟩ := exists_varint_inside read positive inside
  rw [List.length_append] at small exact
  have length : opusLength value = data'.length := by
    rw [exact, toSize]
    omega
  rw [Int.toNat_natCast, List.append_assoc, List.drop_left, length, slice_length_append] at copied
  cases copied
  cases ended
  rw [length] at some ⊢
  exact ⟨k, value, data, rfl, isLength, List.length_pos_iff.mp some, length, rfl, rfl, rfl⟩

/-- A payload is not decoded with anything behind it. -/
theorem untrailed_of_mumbleCodecOpusDecode {trailer : List UInt8} (small : (k ++ data ++ trailer).length < 2 ^ 31)
    (isLength : IsVarint k value) (announced : opusLength value = data.length)
    (run : mumbleCodecOpusDecode api codec (k ++ data ++ trailer ++ stale) (k ++ data ++ trailer).length =
      .ok frame) :
    trailer = [] ∧ frame.ret = samplesOf api codec data ∧ frame.codec = (decodeCall api codec data).2.1 := by
  obtain ⟨k', value', data', split, isLength', -, length, samples, after, -⟩ :=
    framed_of_mumbleCodecOpusDecode small run
  rw [List.append_assoc] at split
  obtain ⟨-, rfl, rfl⟩ := isLength.unique isLength' split
  rw [announced, List.length_append] at length
  have nothing : trailer = [] := List.length_eq_zero_iff.mp (by omega)
  rw [nothing, List.append_nil] at samples after
  exact ⟨nothing, samples, after⟩

/-- A framed payload is decoded, and the cursor is moved by its count of samples. -/
theorem decodePayload_framed (succeeds : api.Succeeds) {audio : AudioPacket} (opus : audio.codec = audioOpus)
    (isLength : IsVarint k value) (some : data ≠ []) (length : opusLength value = data.length)
    (small : (k ++ data).length < 2 ^ 31) (codec : ω) (stale : List UInt8) :
    ∃ frame : OpusFrame ω, decodePayload api codec audio (k ++ data ++ stale) (k ++ data).length =
        .ok (frame.codec, { audio with pcm := ⟨frame.pcm, 48000, frame.ret⟩ },
          (k ++ data ++ stale).drop frame.ret.toNat, (k ++ data).length - frame.ret) ∧
      0 < frame.ret ∧ frame.ret = samplesOf api codec data ∧ frame.codec = (decodeCall api codec data).2.1 := by
  obtain ⟨frame, decoded, count, after, -⟩ :=
    mumbleCodecOpusDecode_framed succeeds isLength some length small codec stale
  have positive : 0 < frame.ret := by
    rw [count]
    exact succeeds.samples codec data some
  refine ⟨frame, ?_, positive, count, after⟩
  rw [decodePayload, if_pos opus, decoded, ok_bind, require_true positive]
  rfl

/-- What has been decoded of an Opus packet is a frame. -/
theorem frame_of_decodePayload {audio : AudioPacket} (opus : audio.codec = audioOpus)
    (run : decodePayload api codec audio buf len = .ok (codec', audio', rest, left)) :
    ∃ frame, mumbleCodecOpusDecode api codec buf len = .ok frame ∧ 0 < frame.ret ∧ codec' = frame.codec ∧
      audio' = { audio with pcm := ⟨frame.pcm, 48000, frame.ret⟩ } ∧ rest = buf.drop frame.ret.toNat ∧
      left = len - frame.ret := by
  rw [decodePayload, if_pos opus] at run
  obtain ⟨frame, decoded, run⟩ := bind_eq_ok.mp run
  obtain ⟨_, positive, run⟩ := bind_eq_ok.mp run
  cases run
  exact ⟨frame, decoded, require_eq_ok.mp positive, rfl, rfl, rfl, rfl⟩

end Opus

end Mumble

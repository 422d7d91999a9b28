import Mumble.ClientSystem
import Mumble.NetworkProofs
import Mumble.EncoderProofs
import Mumble.Lib.Contract

/-! Only `uv_udp_ssl.c` calls `abort`: when it has no buffer left, and when a packet is
too long for one. What else can stop does so in another way. -/
namespace Mumble
open CExec

-- an execution is not evaluated to see what is said of it
attribute [local irreducible] Avoids

/-- The execution may stop, but not by `abort`. -/
abbrev Unaborted {α : Type} (run : Run α) : Prop := Avoids .aborted run fun _ => True

section Decoding
variable {ω : Type} {api : OpusApi ω}

theorem varintDecodeRec_unaborted (depth : Nat) (buf : List UInt8) (size : Int) (result : UInt64) :
    Unaborted (varintDecodeRec depth buf size result) := by
  induction depth generalizing buf size result with
  | zero => exact .error (by decide)
  | succ depth ih =>
    unfold varintDecodeRec
    split
    · exact .ok trivial
    refine .load (by decide) fun b0 _ => ?_
    split
    · exact .ok trivial
    split
    · split
      · exact .ok trivial
      · exact .load (by decide) fun b1 _ => .ok trivial
    split
    · split
      · exact .load (by decide) fun b1 _ => .load (by decide) fun b2 _ => .load (by decide) fun b3 _ =>
          .load (by decide) fun b4 _ => .ok trivial
      split
      · exact .load (by decide) fun b1 _ => .load (by decide) fun b2 _ => .load (by decide) fun b3 _ =>
          .load (by decide) fun b4 _ => .load (by decide) fun b5 _ => .load (by decide) fun b6 _ =>
          .load (by decide) fun b7 _ => .load (by decide) fun b8 _ => .ok trivial
      split
      · refine (ih _ _ _).bind fun again _ => ?_
        dsimp only
        split
        · exact .ok trivial
        · exact .ok trivial
      split
      · exact .ok trivial
      · exact .ok trivial
    split
    · exact .load (by decide) fun b1 _ => .load (by decide) fun b2 _ =>
        .load (by decide) fun b3 _ => .ok trivial
    split
    · exact .load (by decide) fun b1 _ => .load (by decide) fun b2 _ => .ok trivial
    · exact .ok trivial

theorem varintDecode_unaborted (buf : List UInt8) (size : Int) (result : UInt64) :
    Unaborted (varintDecode buf size result) :=
  varintDecodeRec_unaborted _ buf size result

theorem decodeHeader_unaborted (buf : List UInt8) (len : Int) : Unaborted (decodeHeader buf len) := by
  refine .load (by decide) fun b _ => .require (by decide) fun _ => ?_
  refine (varintDecode_unaborted _ _ _).bind fun source _ => .require (by decide) fun _ => ?_
  exact (varintDecode_unaborted _ _ _).bind fun seq _ => .require (by decide) fun _ => .ok trivial

theorem mumbleCodecOpusDecode_unaborted (codec : ω) (buffer : List UInt8) (len : Int) :
    Unaborted (mumbleCodecOpusDecode api codec buffer len) := by
  refine (varintDecode_unaborted _ _ _).bind fun length _ => ?_
  refine .require (by decide) fun _ => .require (by decide) fun _ => .require (by decide) fun _ =>
    .require (by decide) fun _ => ?_
  refine .slice (by decide) fun _ => .require (by decide) fun _ => .require (by decide) fun _ => ?_
  exact .require (by decide) fun _ => .ok trivial

theorem decodePayload_unaborted (opus : ω) (audio : AudioPacket) (buf : List UInt8) (len : Int) :
    Unaborted (decodePayload api opus audio buf len) := by
  unfold decodePayload
  split
  · exact (mumbleCodecOpusDecode_unaborted _ _ _).bind fun frame _ => .require (by decide) fun _ => .ok trivial
  · exact .ok trivial

theorem decodePosition_unaborted (audio : AudioPacket) (buf : List UInt8) (len : Int) :
    Unaborted (decodePosition audio buf len) := by
  unfold decodePosition
  split
  · exact .require (by decide) fun _ => .slice (by decide) fun _ => .ok trivial
  · exact .ok trivial

theorem mumbleAudioDecoderDecode_unaborted (decoder : AudioDecoder ω) (buf : List UInt8) (len : Int) :
    Unaborted (mumbleAudioDecoderDecode api decoder buf len) := by
  refine .require (by decide) fun _ => (decodeHeader_unaborted _ _).bind fun header _ => ?_
  dsimp only
  split
  · exact .ok trivial
  · refine (decodePayload_unaborted _ _ _ _).bind fun payload _ => ?_
    exact (decodePosition_unaborted _ _ _).bind fun audio _ => .ok trivial

/-- What a decoded packet changes of the audio. -/
theorem decode_unaborted (audio : Audio ω) (buf : List UInt8) (len : Int) :
    Avoids .aborted (audio.decode api buf len) fun after =>
      ∃ decoder heard, after = { audio with decoder, heard } := by
  refine (mumbleAudioDecoderDecode_unaborted _ _ _).bind fun decoded _ => ?_
  dsimp only
  split
  · exact .ok ⟨_, _, rfl⟩
  · refine .ok ?_
    unfold decoderCb
    split
    · exact ⟨_, _, rfl⟩
    · exact ⟨_, _, rfl⟩

end Decoding

section Writing
variable {aes : Aes}

theorem loadBlock_unaborted (p : List UInt8) :
    Avoids .aborted (loadBlock p) fun _ => 16 ≤ p.length := by
  unfold loadBlock
  split
  next size =>
    rw [List.length_take] at size
    exact .ok (by omega)
  next => exact .error (by decide)

/-- The blocks are read from the front of the input. -/
theorem ocb2Blocks_unaborted (step : Block → Ocb2 → Block × Ocb2) (count : Nat) (in_ : List UInt8)
    (s : Ocb2) :
    Avoids .aborted (ocb2Blocks step count in_ s) fun read =>
      count * 16 + read.2.1.length = in_.length := by
  induction count generalizing in_ s with
  | zero => exact .ok (Nat.zero_add _)
  | succ count ih =>
    refine (loadBlock_unaborted in_).bind fun block whole => ?_
    refine (ih _ _).bind fun read (behind : count * 16 + read.2.1.length = _) => .ok ?_
    have cut := Nat.sub_add_cancel whole
    rw [List.length_drop] at behind
    rw [← cut, ← behind, Nat.succ_mul]
    exact Nat.add_right_comm _ _ _

theorem ocb2EncryptBlockFinal_unaborted (ctx : OcbAes) (in_ : List UInt8) (inl : UInt8) (s : Ocb2) :
    Avoids .aborted (ocb2EncryptBlockFinal aes ctx in_ inl s) fun _ => inl.toNat ≤ in_.length := by
  rw [ocb2EncryptBlockFinal]
  refine Avoids.bind (?_ : Unaborted _) fun out _ => .slice (by decide) fun inside => .ok inside
  exact .slice (by decide) fun _ => .slice (by decide) fun _ => .ok trivial

/-- A message that is longer than its buffer is not encrypted. -/
theorem ocb2AesEncrypt_unaborted (ctx : OcbAes) (in_ : List UInt8) (len : Nat) :
    Avoids .aborted (ocb2AesEncrypt aes ctx in_ len) fun _ => len ≤ in_.length := by
  have count : ((len : Int).tdiv 16).toNat = len / 16 := by
    rw [Int.tdiv_eq_ediv_of_nonneg (Int.natCast_nonneg _)]
    omega
  have rest : (len : Int) - (len / 16 : Nat) * 16 = (len % 16 : Nat) := by omega
  have small : (uchar (len % 16 : Nat)).toNat = len % 16 := by
    rw [uchar, BitVec.ofInt_natCast, UInt8.toNat, BitVec.toNat_ofNat]
    omega
  unfold ocb2AesEncrypt
  rw [count]
  refine (ocb2Blocks_unaborted _ _ _ _).bind fun read (behind : _ = in_.length) => ?_
  rw [rest]
  refine (ocb2EncryptBlockFinal_unaborted _ _ _ _).bind fun last (inside : _ ≤ read.2.1.length) => .ok ?_
  rw [small] at inside
  omega

theorem encryptOcb_eq (conn : UdpSsl) (source : List UInt8) {len : Nat} (fits : len ≤ 1020) :
    encryptOcb aes conn source len = (do
      let (_, dest, tag) ← ocb2AesEncrypt aes conn.cipher.nextEnc source len
      .ok (len, { conn with cipher := conn.cipher.nextEnc }, dest, tag)) := by
  have short : toInt (len : Int) = len := toInt_of_small (by omega) (by omega)
  rw [encryptOcb, short]
  rfl

/-- A write within a connection that has a buffer, of a packet that fits. -/
theorem udpSslWrite_unaborted (trySend : List UInt8 → Int) {conn : UdpSsl} (ready : Ready conn)
    (buf : List UInt8) {len : Nat} (fits : len ≤ 1020) :
    Avoids .aborted (udpSslWrite aes trySend conn buf len) fun sent => len ≤ buf.length ∧ sent =
      ({ conn with cipher := conn.cipher.nextEnc },
        datagramOf (aes conn.cipher.key) conn.cipher.nextEnc.encIv (buf.take len)) := by
  by_cases inside : len ≤ buf.length
  · have size : (buf.take len).length = len := List.length_take_of_le inside
    have run := udpSslWrite_run aes trySend ready.free ready.size (size.trans_le fits) (buf.drop len)
    rw [List.take_append_drop, size] at run
    rw [run]
    exact .require (by decide) fun _ => .ok ⟨inside, rfl⟩
  · obtain ⟨base, pool, acquired, -⟩ := bufferPoolAcquire_free ready.free
    rw [udpSslWrite, require_true fits, ok_bind, acquired]
    dsimp only
    rw [encryptOcb_eq _ _ fits, bind_assoc]
    exact (ocb2AesEncrypt_unaborted _ _ _).bind fun _ whole => absurd whole inside

end Writing

theorem writeBuf_unaborted (values : List UInt8) (s : WriteBuf) :
    Avoids .aborted (values.foldlM writeBuf s) fun t =>
      t.buf.length = s.buf.length ∧ t.written = s.written + values.length := by
  induction values generalizing s with
  | nil => exact .ok ⟨rfl, (Int.add_zero _).symm⟩
  | cons value values ih =>
    rw [List.foldlM_cons, writeBuf]
    split
    · refine (ih _).mono fun t kept => ⟨?_, ?_⟩
      · rw [kept.1, List.length_set]
      · simp only [kept.2, List.length_cons]
        omega
    · exact .error (by decide)

/-- The count that is written fits the buffer, which keeps its length. -/
theorem varintEncode_unaborted (source : UInt64) (buf : List UInt8) (size written : Int) :
    Avoids .aborted (varintEncode source buf size written) fun encoded =>
      encoded.2.1.length = buf.length ∧
        (encoded.1 = 0 → encoded.2.2 = (varintBytes source).length) := by
  unfold varintEncode
  split
  · exact .ok ⟨rfl, nofun⟩
  · rw [if_neg (show ¬ source < 0 by simp), varintWrite_eq]
    refine (writeBuf_unaborted _ _).bind fun s ⟨length, written⟩ => .ok ⟨length, fun _ => ?_⟩
    rw [written]
    exact Int.zero_add _

section Loops
variable {σ : Type} {cb : σ → List UInt8 → Nat → Bool → Run σ} {holds : σ → Prop}

theorem writeLoop_unaborted
    (keeps : ∀ state buf size final, holds state → Avoids .aborted (cb state buf size final) holds)
    (final : Bool) (rounds : Nat) (buffer : MumbleBuffer) {state : σ} (incoming : List UInt8) (left : Nat)
    (initially : holds state) :
    Avoids .aborted (writeLoop cb final rounds buffer state incoming left) fun written =>
      holds written.2 := by
  induction rounds generalizing buffer state incoming left with
  | zero => exact .error (by decide)
  | succ rounds ih =>
    unfold writeLoop
    split
    · refine .slice (by decide) fun _ => ?_
      unfold MumbleBuffer.copy
      split
      · rw [ok_bind]
        split
        · exact (keeps _ _ _ _ initially).bind fun state kept => ih _ _ _ kept
        · exact ih _ _ _ initially
      · exact .error (by decide)
    · exact .ok initially

theorem mumbleBufferWrite_unaborted
    (keeps : ∀ state buf size final, holds state → Avoids .aborted (cb state buf size final) holds)
    (buffer : MumbleBuffer) {state : σ} (buf : List UInt8) (size : Nat) (final : Bool)
    (initially : holds state) :
    Avoids .aborted (mumbleBufferWrite cb buffer state buf size final) fun written => holds written.2 := by
  have nested (depth : Nat) : ∀ (buffer : MumbleBuffer) (state : σ) (buf : List UInt8) (size : Nat)
      (final : Bool), holds state →
      Avoids .aborted (mumbleBufferWriteRec cb depth buffer state buf size final) fun written =>
        holds written.2 := by
    induction depth with
    | zero => exact fun _ _ _ _ _ _ => .error (by decide)
    | succ depth ih =>
      intro buffer state buf size final initially
      refine (writeLoop_unaborted keeps final _ buffer buf size initially).bind fun written kept => ?_
      dsimp only
      split
      · exact ih _ _ _ _ _ kept
      · exact .ok kept
  exact nested 2 buffer state buf size final initially

end Loops

section Speaking
variable {ω τ : Type} {api : OpusEncoderApi ω} {holds : τ → Prop}

/-- What the codec hands on fits its second output buffer. -/
theorem onEncoderFrame_unaborted {cb : τ → List UInt8 → Nat → Bool → Run τ} {width : Nat}
    (small : width < 2 ^ 31)
    (keeps : ∀ state buf size final, holds state → size ≤ width →
      Avoids .aborted (cb state buf size final) holds)
    {codec : CodecOpusEncoder ω × τ} (sized : codec.1.framedOut.length = width) (initially : holds codec.2)
    (buf : List UInt8) (size : Nat) (final : Bool) :
    Avoids .aborted (onEncoderFrame api cb codec buf size final) fun after =>
      after.1.framedOut.length = width ∧ holds after.2 := by
  obtain ⟨codec, state⟩ := codec
  unfold onEncoderFrame
  refine .slice (by decide) fun _ => ?_
  generalize api.encode codec.encoder _ _ _ = output
  obtain ⟨ret, encoder, data⟩ := output
  refine .store (by decide) fun codecOut _ _ => .require (by decide) fun some => ?_
  refine (varintEncode_unaborted _ _ _ _).bind fun ⟨varintRet, framedOut, written⟩ ⟨same, count⟩ => ?_
  refine .require (by decide) fun encoded => .require (by decide) fun _ => .slice (by decide) fun inside => ?_
  refine .store (by decide) fun framed length room => ?_
  dsimp only at same count sized
  rw [List.length_take_of_le inside, same, sized, count encoded, Int.toNat_natCast] at room
  have handed : toUnsigned (toInt (written + ret)) ≤ width := by
    rw [count encoded, toInt_of_small, toUnsigned_of_small] <;> omega
  refine (keeps _ _ _ _ initially handed).bind fun state kept => .ok ⟨?_, kept⟩
  exact length.trans (same.trans sized)


/-- The header and the number of a packet take ten bytes at most. -/
theorem encoderCodecCb_unaborted {cb : τ → List UInt8 → Nat → Run τ}
    (keeps : ∀ state buf size, holds state → size ≤ 1020 → Avoids .aborted (cb state buf size) holds)
    (target : UInt64) (position : Position) {encoder : UInt32 × τ} (initially : holds encoder.2)
    (buf : List UInt8) {size : Nat} (short : size ≤ 1010) (final : Bool) :
    Avoids .aborted (encoderCodecCb api (some cb) target position encoder buf size final) fun after =>
      holds after.2 := by
  obtain ⟨sequence, state⟩ := encoder
  unfold encoderCodecCb
  dsimp only
  generalize toInt (toSize _) = encodedSize
  split
  · exact .error (by decide)
  refine .store (by decide) fun encodedData _ _ => ?_
  refine (varintEncode_unaborted _ _ _ _).bind fun ⟨ret, behind, written⟩ ⟨_, count⟩ => ?_
  refine .require (by decide) fun encoded => .require (by decide) fun _ => .slice (by decide) fun _ => ?_
  refine .store (by decide) fun _ _ _ => .require (by decide) fun _ => .store (by decide) fun packet _ _ => ?_
  have width := varintBytes_le_nine sequence.toUInt64
  have number : written = (varintBytes sequence.toUInt64).length := count encoded
  have handed : toUnsigned (toInt (1 + written + size)) ≤ 1020 := by
    rw [number, toInt_of_small, toUnsigned_of_small] <;> omega
  exact (keeps _ _ _ initially handed).bind fun state kept => .ok kept

theorem mumbleCodecOpusEncode_unaborted {cb : τ → List UInt8 → Nat → Bool → Run τ} {width : Nat}
    (small : width < 2 ^ 31)
    (keeps : ∀ state buf size final, holds state → size ≤ width →
      Avoids .aborted (cb state buf size final) holds)
    {codec : CodecOpusEncoder ω} (sized : codec.framedOut.length = width) (pcm : List UInt16)
    (pcmSize : Int) (termination : Bool) {state : τ} (initially : holds state) :
    Avoids .aborted (mumbleCodecOpusEncode api codec pcm pcmSize termination cb state) fun after =>
      after.1.framedOut.length = width ∧ holds after.2 := by
  have frame : ∀ (codec : CodecOpusEncoder ω × τ) (buf : List UInt8) (size : Nat) (final : Bool),
      codec.1.framedOut.length = width ∧ holds codec.2 →
      Avoids .aborted (onEncoderFrame api cb codec buf size final) fun after =>
        after.1.framedOut.length = width ∧ holds after.2 :=
    fun codec buf size final kept => onEncoderFrame_unaborted small keeps kept.1 kept.2 buf size final
  exact (mumbleBufferWrite_unaborted frame codec.buffer _ _ termination ⟨sized, initially⟩).bind
    fun written kept => .ok kept

theorem mumbleAudioEncoderEncode_unaborted {cb : τ → List UInt8 → Nat → Run τ} {width : Nat}
    (short : width ≤ 1010)
    (keeps : ∀ state buf size, holds state → size ≤ 1020 → Avoids .aborted (cb state buf size) holds)
    {encoder : AudioEncoder ω} (sized : encoder.opus.framedOut.length = width) (target : UInt32)
    (pcm : Pcm) (position : Option Position) {state : τ} (initially : holds state) :
    Avoids .aborted (mumbleAudioEncoderEncode api (some cb) encoder target pcm position state) fun after =>
      after.1.opus.framedOut.length = width ∧ holds after.2 := by
  have packet : ∀ (numbered : UInt32 × τ) (buf : List UInt8) (size : Nat) (final : Bool),
      holds numbered.2 → size ≤ width →
      Avoids .aborted (encoderCodecCb api (some cb) target.toUInt64 (position.getD api.unset) numbered buf
        size final) fun after => holds after.2 :=
    fun numbered buf size final kept fits =>
      encoderCodecCb_unaborted keeps _ _ kept buf (fits.trans short) final
  exact (mumbleCodecOpusEncode_unaborted (by omega) packet sized pcm.data pcm.samples false
    initially).bind fun after kept => .ok kept

end Speaking

section Messages
variable {μ : Type} {p : Protobuf μ}

theorem descriptor_unaborted (descriptors : List MessageType) (type : Nat) :
    Unaborted (descriptor p descriptors type) := by
  refine .require (by decide) fun _ => ?_
  unfold load
  split
  · exact .ok trivial
  · exact .error (by decide)

theorem unpackMessage_unaborted {σ : Type} (state : σ) (type : Int) (len : Nat) (data : List UInt8) :
    Avoids .aborted (unpackMessage p state type len data) fun unpacked => unpacked.1 = state :=
  (descriptor_unaborted _ _).bind fun _ _ => .ok rfl

theorem findType_unaborted (name : String) (count i : Nat) : Unaborted (findType p name count i) := by
  induction count generalizing i with
  | zero => exact .ok trivial
  | succ count ih =>
    refine (descriptor_unaborted _ _).bind fun entry _ => ?_
    split
    · exact .ok trivial
    · exact ih (i + 1)

theorem write_unaborted (ctx : FrameEncoder) (i : Nat) (data : List UInt8) : Unaborted (ctx.write i data) := by
  unfold FrameEncoder.write
  split
  · exact .ok trivial
  · exact .error (by decide)

theorem mumbleFrameEncode_unaborted (ctx : FrameEncoder) (message : μ) :
    Unaborted (mumbleFrameEncode p ctx message) := by
  refine Avoids.bind (?_ : Unaborted _) fun type _ => ?_
  · exact .require (by decide) fun _ => findType_unaborted _ _ _
  refine .require (by decide) fun _ => .require (by decide) fun _ => (write_unaborted _ _ _).bind fun _ _ => ?_
  exact (write_unaborted _ _ _).bind fun _ _ => (write_unaborted _ _ _).bind fun _ _ => .ok trivial

theorem ocbAesSetKeys_unaborted (ctx : OcbAes) (key encIv decIv : List UInt8) (ivlen : Int) :
    Unaborted (ocbAesSetKeys ctx key encIv decIv ivlen) := by
  refine (loadBlock_unaborted key).bind fun block _ => ?_
  split
  · exact .slice (by decide) fun _ => .slice (by decide) fun _ => .ok trivial
  · exact .error (by decide)

end Messages

/-- An attempt sends the front of its buffer. -/
theorem periodTimerCb_unaborted {aes : Aes} (trySend : List UInt8 → Int) (now : Nat)
    (time timeAgain : UInt64) (pinger : Pinger) {socket : UdpSsl} (ready : Ready socket) :
    Avoids .aborted (periodTimerCb aes trySend now time timeAgain pinger socket) fun after =>
      ∃ pingBuf size, size ≤ pingBuf.length ∧ after = ({ pinger with
          lastAttempt := ⟨time, true⟩
          replyTimer := true
          replyDue := now + pinger.timeout
          pingBuf },
        { socket with cipher := socket.cipher.nextEnc },
        datagramOf (aes socket.cipher.key) socket.cipher.nextEnc.encIv (pingBuf.take size)) := by
  refine (varintEncode_unaborted _ _ _ _).bind fun ⟨ret, rest, written⟩ ⟨_, count⟩ => ?_
  dsimp only at count
  refine .require (by decide) fun encoded => .require (by decide) fun fits => ?_
  have width : pingBufSize = 8 := rfl
  have short : toSize (written + 1) ≤ 1020 := by
    rw [count encoded, toSize_of_small] <;> omega
  refine (udpSslWrite_unaborted trySend ready _ short).bind fun sent ⟨inside, same⟩ => ?_
  rw [same]
  exact .ok ⟨_, _, inside, rfl⟩

end Mumble

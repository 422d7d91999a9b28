import Mumble.PacketParts

/-! The numbers that a voice packet carries by the format of its varints, and those that
the decoder reads off it instead. -/
namespace Mumble
open CExec

/-- The number that an encoding carries by its format. A negative number is that of
its two's complement. -/
inductive Encodes : List UInt8 → UInt64 → Prop where
  | one {b0 : UInt8} : b0.toNat < 0x80 → Encodes [b0] (.ofNat b0.toNat)
  | two {b0 b1 : UInt8} : 0x80 ≤ b0.toNat ∧ b0.toNat < 0xC0 →
      Encodes [b0, b1] (.ofNat ((b0.toNat - 0x80) * 2 ^ 8 + b1.toNat))
  | three {b0 b1 b2 : UInt8} : 0xC0 ≤ b0.toNat ∧ b0.toNat < 0xE0 →
      Encodes [b0, b1, b2] (.ofNat ((b0.toNat - 0xC0) * 2 ^ 16 + b1.toNat * 2 ^ 8 + b2.toNat))
  | four {b0 b1 b2 b3 : UInt8} : 0xE0 ≤ b0.toNat ∧ b0.toNat < 0xF0 →
      Encodes [b0, b1, b2, b3]
        (.ofNat ((b0.toNat - 0xE0) * 2 ^ 24 + b1.toNat * 2 ^ 16 + b2.toNat * 2 ^ 8 + b3.toNat))
  | five {b0 b1 b2 b3 b4 : UInt8} : 0xF0 ≤ b0.toNat ∧ b0.toNat < 0xF4 →
      Encodes [b0, b1, b2, b3, b4]
        (.ofNat (b1.toNat * 2 ^ 24 + b2.toNat * 2 ^ 16 + b3.toNat * 2 ^ 8 + b4.toNat))
  | nine {b0 b1 b2 b3 b4 b5 b6 b7 b8 : UInt8} : 0xF4 ≤ b0.toNat ∧ b0.toNat < 0xF8 →
      Encodes [b0, b1, b2, b3, b4, b5, b6, b7, b8]
        (.ofNat (2 ^ 32 * (b1.toNat * 2 ^ 24 + b2.toNat * 2 ^ 16 + b3.toNat * 2 ^ 8 + b4.toNat) +
          (b5.toNat * 2 ^ 24 + b6.toNat * 2 ^ 16 + b7.toNat * 2 ^ 8 + b8.toNat)))
  | small {b0 : UInt8} : 0xFC ≤ b0.toNat → Encodes [b0] (~~~(b0 &&& 0x03).toUInt64)
  | negative {b0 : UInt8} {e : List UInt8} {number : UInt64} : Negative b0 → Encodes e number →
      Encodes (b0 :: e) (~~~number)

/-- Bytes that start with any other form than `111110xx`, on which the decoder never
returns. -/
def Plain (bytes : List UInt8) : Prop := ∀ b0 ∈ bytes.head?, ¬ Negative b0

instance (bytes : List UInt8) : Decidable (Plain bytes) :=
  match bytes with
  | [] => isTrue fun _ member => nomatch member
  | b0 :: _ => decidable_of_iff (¬ Negative b0)
    ⟨fun plain _ member => Option.some.inj member ▸ plain, fun plain => plain b0 rfl⟩

/-- What the decoder makes of a number. -/
def readAs (number : UInt64) : UInt64 := .ofNat (signExtended number.toNat)

section Numbers
variable {n m : Nat}

theorem signExtended_small (small : n < 2 ^ 31) : signExtended n = n :=
  if_pos (by omega)

theorem signExtended_low : signExtended n % 2 ^ 32 = n % 2 ^ 32 := by
  unfold signExtended
  split <;> omega

theorem signExtended_lt (bound : n < 2 ^ 64) : signExtended n < 2 ^ 64 := by
  unfold signExtended
  split <;> omega

/-- A number below 32 bits is above those that have been extended. -/
theorem signExtended_lt_iff (bound : m < 2 ^ 32) : signExtended n < m ↔ n % 2 ^ 32 < 2 ^ 31 ∧ n < m := by
  unfold signExtended
  split <;> omega

theorem readAs_toNat (number : UInt64) : (readAs number).toNat = signExtended number.toNat := by
  rw [readAs, UInt64.toNat_ofNat', Nat.mod_eq_of_lt (signExtended_lt number.toNat_lt)]

theorem readAs_ofNat (bound : n < 2 ^ 64) : readAs (.ofNat n) = .ofNat (signExtended n) := by
  rw [readAs, UInt64.toNat_ofNat', Nat.mod_eq_of_lt bound]

theorem readAs_small (small : n < 2 ^ 31) : readAs (.ofNat n) = .ofNat n := by
  rw [readAs_ofNat (by omega), signExtended_small small]

/-- The complements of the small form have the sign that an extension gives them. -/
theorem readAs_complement (low : number.toNat < 2 ^ 31) : readAs (~~~number) = ~~~number := by
  apply UInt64.toNat_inj.mp
  rw [readAs_toNat, UInt64.toNat_not, signExtended]
  have size : UInt64.size = 2 ^ 64 := rfl
  split <;> omega

end Numbers

section Reading
variable {bytes back : List UInt8} {number : UInt64} {size : Int} {result : UInt64}

theorem Encodes.read (encodes : Encodes bytes number) (plain : Plain bytes) : IsVarint bytes (readAs number) := by
  cases encodes with
  | @one b0 tag =>
    rw [readAs_small (by omega)]
    exact isVarint_one tag
  | @two b0 b1 range =>
    have byte := b1.toNat_lt
    rw [readAs_small (by omega)]
    exact isVarint_two range
  | @three b0 b1 b2 range =>
    have byte := b1.toNat_lt
    have byte' := b2.toNat_lt
    rw [readAs_small (by omega)]
    exact isVarint_three range
  | @four b0 b1 b2 b3 range =>
    have byte := b1.toNat_lt
    have byte' := b2.toNat_lt
    have byte'' := b3.toNat_lt
    rw [readAs_small (by omega)]
    exact isVarint_four range
  | @five b0 b1 b2 b3 b4 range =>
    have bytes : b1.toNat < 256 ∧ b2.toNat < 256 ∧ b3.toNat < 256 ∧ b4.toNat < 256 :=
      ⟨b1.toNat_lt, b2.toNat_lt, b3.toNat_lt, b4.toNat_lt⟩
    rw [readAs_ofNat (by omega)]
    exact isVarint_five range
  | @nine b0 b1 b2 b3 b4 b5 b6 b7 b8 range =>
    have upper : b1.toNat < 256 ∧ b2.toNat < 256 ∧ b3.toNat < 256 ∧ b4.toNat < 256 :=
      ⟨b1.toNat_lt, b2.toNat_lt, b3.toNat_lt, b4.toNat_lt⟩
    have lower : b5.toNat < 256 ∧ b6.toNat < 256 ∧ b7.toNat < 256 ∧ b8.toNat < 256 :=
      ⟨b5.toNat_lt, b6.toNat_lt, b7.toNat_lt, b8.toNat_lt⟩
    rw [readAs_ofNat (by omega)]
    exact isVarint_nine range
  | @small b0 low =>
    have two : (b0 &&& 0x03).toUInt64.toNat < 2 ^ 31 := by
      rw [UInt8.toNat_toUInt64]
      have byte := (b0 &&& 0x03).toNat_lt
      omega
    rw [readAs_complement two]
    exact isVarint_small low
  | @negative b0 e number form encodes => exact absurd form (plain b0 rfl)

theorem Encodes.endless (encodes : Encodes bytes number) (some : size ≠ 0) (negative : ¬ Plain bytes) :
    varintDecode (bytes ++ back) size result = .error .endless := by
  cases bytes with
  | nil => cases encodes
  | cons b0 rest =>
    have form : Negative b0 := by
      by_contra other
      exact negative fun _ member => Option.some.inj member ▸ other
    exact varintDecodeRec_endless form some _ _ _

/-- An encoding that has been read is not of the negative form. -/
theorem Encodes.plain (encodes : Encodes bytes number) (some : size ≠ 0)
    (run : varintDecode (bytes ++ back) size result = .ok (n, value)) : Plain bytes := by
  by_contra negative
  cases (encodes.endless some negative).symm.trans run

theorem Encodes.nonempty (encodes : Encodes bytes number) : bytes ≠ [] := by
  rintro rfl
  cases encodes

end Reading

/-- A whole Opus packet: header, source, sequence number, length and payload, with
nothing behind them or the twelve bytes of a position. `IsNumber` says what its varints
stand for. -/
@[ext] structure PacketOf (IsNumber : List UInt8 → UInt64 → Prop) where
  header : UInt8
  source : List UInt8
  sequence : List UInt8
  length : List UInt8
  payload : List UInt8
  trailer : List UInt8
  sourceId : UInt64
  sequenceId : UInt64
  lengthId : UInt64
  opus : audioType header = audioOpus
  isSource : IsNumber source sourceId
  isSequence : IsNumber sequence sequenceId
  isLength : IsNumber length lengthId
  nonempty : payload ≠ []
  announced : opusLength lengthId = payload.length
  ends : trailer = [] ∨ trailer.length = 12

namespace PacketOf
variable {IsNumber : List UInt8 → UInt64 → Prop}

instance : DecidableEq (PacketOf IsNumber) := fun _ _ => decidable_of_iff _ PacketOf.ext_iff.symm

/-- The length and the payload. -/
def body (p : PacketOf IsNumber) : List UInt8 := p.length ++ p.payload

def bytes (p : PacketOf IsNumber) : List UInt8 :=
  p.header :: (p.source ++ (p.sequence ++ (p.body ++ p.trailer)))

theorem voice (p : PacketOf IsNumber) : audioType p.header ≠ audioPing := by
  rw [p.opus]
  decide

theorem body_lt {p : PacketOf IsNumber} (small : p.bytes.length < 2 ^ 31) :
    (p.body ++ p.trailer).length < 2 ^ 31 := by
  simp only [bytes, List.length_cons, List.length_append] at small ⊢
  omega

theorem untrailed : ([] : List UInt8) = [] ∨ ([] : List UInt8).length = 12 := .inl rfl

/-- Five bytes of payload, with a trailer of any bytes. -/
def packetWith {sourceId sequenceId : UInt64} (source sequence : List UInt8) (isSource : IsNumber source sourceId)
    (isSequence : IsNumber sequence sequenceId) (isLength : IsNumber [5] 5) (trailer : List UInt8)
    (ends : trailer = [] ∨ trailer.length = 12) : PacketOf IsNumber where
  header := 0x80
  source := source
  sequence := sequence
  length := [5]
  payload := [0x80, 2, 3, 4, 5]
  trailer := trailer
  sourceId := sourceId
  sequenceId := sequenceId
  lengthId := 5
  opus := rfl
  isSource := isSource
  isSequence := isSequence
  isLength := isLength
  nonempty := List.cons_ne_nil _ _
  announced := rfl
  ends := ends

end PacketOf

/-- An Opus packet with the numbers that its header carries. -/
abbrev VoicePacket := PacketOf Encodes

namespace VoicePacket
variable {p : VoicePacket}

/-- The sequence number that the header carries. -/
def seq (p : VoicePacket) : Nat := p.sequenceId.toNat

/-- The number that the decoder reads in its place. -/
def seen (p : VoicePacket) : Nat := signExtended p.seq

theorem readAs_lt_iff {mark : UInt32} : readAs p.sequenceId < mark.toUInt64 ↔ p.seen < mark.toNat := by
  rw [UInt64.lt_iff_toNat_lt, readAs_toNat, UInt32.toNat_toUInt64]
  rfl

/-- The decoder comes to the end of the header. -/
structure Headed (p : VoicePacket) : Prop where
  long : 8 < p.bytes.length
  source : Plain p.source
  sequence : Plain p.sequence

theorem Headed.parts (headed : p.Headed) :
    HasParts p.bytes p.header (readAs p.sourceId) (readAs p.sequenceId) (p.body ++ p.trailer) :=
  ⟨p.source, p.sequence, rfl, p.isSource.read headed.source, p.isSequence.read headed.sequence⟩

theorem Headed.decode (headed : p.Headed) : decodeHeader p.bytes p.bytes.length =
    .ok (headerOf p.header (readAs p.sourceId) (readAs p.sequenceId), p.body ++ p.trailer,
      (p.body ++ p.trailer).length) := by
  have header := decodeHeader_parts headed.parts p.voice []
  rwa [List.append_nil, List.append_nil] at header

theorem headed_of_decode (long : 8 < p.bytes.length)
    (header : decodeHeader p.bytes p.bytes.length = .ok (audio, rest, left)) : p.Headed := by
  obtain ⟨b, n, source, m, sequence, -, -, source_ok, -, sequence_ok, -⟩ := decodeHeader_eq_ok.mp header
  have behind : p.bytes.drop 1 = p.source ++ (p.sequence ++ (p.body ++ p.trailer)) := rfl
  have length : (p.bytes.length : Int) - 1 = (p.bytes.drop 1).length := by
    rw [List.length_drop]
    omega
  have positive := List.length_pos_iff.mpr p.isSource.nonempty
  have positive' := List.length_pos_iff.mpr p.isSequence.nonempty
  rw [length, behind] at source_ok sequence_ok
  have plain : Plain p.source := by
    refine p.isSource.plain ?_ source_ok
    rw [List.length_append]
    omega
  have read := (p.isSource.read plain).decode (p.sequence ++ (p.body ++ p.trailer))
    (p.source ++ (p.sequence ++ (p.body ++ p.trailer))).length 0 (by rw [List.length_append]; omega)
  cases read.symm.trans source_ok
  rw [Int.toNat_natCast, List.drop_left] at sequence_ok
  refine ⟨long, plain, p.isSequence.plain ?_ sequence_ok⟩
  simp only [List.length_append]
  omega

end VoicePacket

/-- The masks of a length do not reach the bits that an extension sets. -/
theorem opusLength_readAs {number : UInt64} (small : opusLength number < 2 ^ 31) :
    opusLength (readAs number) = opusLength number := by
  have low : (readAs number).toNat % 2 ^ 32 = number.toNat % 2 ^ 32 := by
    rw [readAs_toNat, signExtended_low]
  have flag : readAs number &&& 0x2000 = number &&& 0x2000 := by
    apply UInt64.toNat_inj.mp
    have mask : (0x2000 : UInt64).toNat = 2 ^ 13 := rfl
    rw [UInt64.toNat_and, UInt64.toNat_and, mask, Nat.and_two_pow, Nat.and_two_pow,
      Nat.testBit_eq_decide_div_mod_eq, Nat.testBit_eq_decide_div_mod_eq]
    have bit : (readAs number).toNat / 2 ^ 13 % 2 = number.toNat / 2 ^ 13 % 2 := by omega
    rw [bit]
  have count : readAs number &&& 0x1FFF = number &&& 0x1FFF := by
    apply UInt64.toNat_inj.mp
    have mask : (0x1FFF : UInt64).toNat = 2 ^ 13 - 1 := rfl
    rw [UInt64.toNat_and, UInt64.toNat_and, mask, Nat.and_two_pow_sub_one_eq_mod,
      Nat.and_two_pow_sub_one_eq_mod]
    omega
  unfold opusLength at small ⊢
  rw [flag, count]
  by_cases last : number &&& 0x2000 ≠ 0
  · rw [if_pos last, if_pos last]
  · rw [if_neg last] at small ⊢
    rw [if_neg last, readAs_toNat, signExtended_small small]

end Mumble

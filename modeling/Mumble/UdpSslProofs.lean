import Mumble.UdpSsl
import Mumble.OcbAesProofs

/-! The IV as a counter, and what `uv_udp_ssl_decrypt` and `uv_udp_ssl_write` do
with a datagram. -/
namespace Mumble
open CExec Bytes

/-- The first `len` bytes of the IV count up in little-endian order. -/
theorem incrementBytes_value {len : Nat} {iv : List UInt8} (inside : len ≤ iv.length) :
    littleEndian ((incrementBytes len iv).take len) = (littleEndian (iv.take len) + 1) % 256 ^ len := by
  induction len generalizing iv with
  | zero =>
    rw [List.take_zero, List.take_zero]
    rfl
  | succ len ih =>
    cases iv with
    | nil => cases inside
    | cons b iv =>
      have wrap := b.toNat_lt
      have rest := littleEndian_lt (iv.take len)
      rw [List.length_take, Nat.min_eq_left (Nat.le_of_succ_le_succ inside)] at rest
      have value : (b + 1).toNat = (b.toNat + 1) % 256 := UInt8.toNat_add b 1
      rw [incrementBytes]
      split
      next carry =>
        have small : b.toNat + 1 < 256 := by
          by_contra large
          apply carry
          apply UInt8.toNat_inj.mp
          rw [value]
          change _ = 0
          omega
        rw [List.take_succ_cons, List.take_succ_cons, littleEndian_cons, littleEndian_cons, value,
          Nat.mod_eq_of_lt small, Nat.pow_succ, Nat.mod_eq_of_lt (by omega)]
        omega
      next wrapped =>
        have zero : b + 1 = 0 := by
          by_contra other
          exact wrapped other
        have top : b.toNat = 255 := by
          have := congrArg UInt8.toNat zero
          rw [value] at this
          change _ = 0 at this
          omega
        have sum : 255 + 256 * littleEndian (iv.take len) + 1 =
            256 * (littleEndian (iv.take len) + 1) := by omega
        rw [List.take_succ_cons, List.take_succ_cons, littleEndian_cons, littleEndian_cons,
          ih (Nat.le_of_succ_le_succ inside), zero, top, sum, Nat.pow_succ, Nat.mul_comm (256 ^ len),
          Nat.mul_mod_mul_left]
        exact Nat.zero_add _

theorem incrementBytes_drop (len : Nat) (iv : List UInt8) :
    (incrementBytes len iv).drop len = iv.drop len := by
  induction iv generalizing len with
  | nil => cases len <;> rfl
  | cons b iv ih =>
    cases len with
    | zero => rfl
    | succ len =>
      rw [incrementBytes]
      split
      · rfl
      · exact ih len

/-- The number that the IV of a connection counts with. -/
def ivNumber (iv : Block) (len : UInt8) : Nat := littleEndian (iv.toList.take len.toNat)

/-- The bytes that the counter does not reach. -/
def ivRest (iv : Block) (len : UInt8) : List UInt8 := iv.toList.drop len.toNat

section Iv
variable {len : UInt8} (fits : len ≤ 16)

theorem iv_inj {iv iv' : Block} (number : ivNumber iv len = ivNumber iv' len)
    (rest : ivRest iv len = ivRest iv' len) : iv = iv' := by
  have size : (iv.toList.take len.toNat).length = (iv'.toList.take len.toNat).length := by
    rw [List.length_take, List.length_take, Block.toList_length, Block.toList_length]
  have counted := littleEndian_inj size number
  apply Block.toList_injective
  rw [← List.take_append_drop len.toNat iv.toList, ← List.take_append_drop len.toNat iv'.toList,
    counted]
  exact congrArg _ rest

theorem ivRest_increment (iv : Block) : ivRest (incrementIv iv len) len = ivRest iv len :=
  incrementBytes_drop len.toNat iv.toList

theorem ivRest_iterate (iv : Block) (count : Nat) :
    ivRest ((incrementIv · len)^[count] iv) len = ivRest iv len := by
  induction count with
  | zero => rfl
  | succ count ih => rw [Function.iterate_succ_apply', ivRest_increment, ih]

theorem ivNumber_lt (iv : Block) : ivNumber iv len < 256 ^ len.toNat := by
  have bound := littleEndian_lt (iv.toList.take len.toNat)
  exact bound.trans_le (Nat.pow_le_pow_right (by decide) (List.length_take_le _ _))

include fits

theorem ivNumber_increment (iv : Block) :
    ivNumber (incrementIv iv len) len = (ivNumber iv len + 1) % 256 ^ len.toNat := by
  apply incrementBytes_value
  rw [Block.toList_length]
  exact UInt8.le_iff_toNat_le.mp fits

theorem ivNumber_iterate (iv : Block) (count : Nat) :
    ivNumber ((incrementIv · len)^[count] iv) len = (ivNumber iv len + count) % 256 ^ len.toNat := by
  induction count with
  | zero => exact (Nat.mod_eq_of_lt (ivNumber_lt iv)).symm
  | succ count ih =>
    rw [Function.iterate_succ_apply', ivNumber_increment fits, ih, Nat.mod_add_mod, Nat.add_assoc]

/-- The IV comes back after a full turn of the counter and no sooner. -/
theorem iterate_incrementIv_eq_iff (iv : Block) (m n : Nat) :
    (incrementIv · len)^[m] iv = (incrementIv · len)^[n] iv ↔ m ≡ n [MOD 256 ^ len.toNat] := by
  constructor
  · intro same
    have number := congrArg (ivNumber · len) same
    simp only [ivNumber_iterate fits] at number
    exact Nat.ModEq.add_left_cancel' (ivNumber iv len) number
  · intro turns
    apply iv_inj
    · rw [ivNumber_iterate fits, ivNumber_iterate fits]
      exact turns.add_left (ivNumber iv len)
    · rw [ivRest_iterate, ivRest_iterate]

end Iv

theorem incrementIv_eq_self_iff {len : UInt8} (fits : len ≤ 16) (iv : Block) :
    incrementIv iv len = iv ↔ len = 0 := by
  have turn := iterate_incrementIv_eq_iff fits iv 1 0
  rw [Function.iterate_one, Function.iterate_zero_apply] at turn
  rw [turn]
  constructor
  · intro one
    have divides := (Nat.modEq_zero_iff_dvd.mp one)
    by_contra positive
    have some : len.toNat ≠ 0 := fun zero => positive (UInt8.toNat_inj.mp zero)
    have large := Nat.one_lt_pow some (show 1 < 256 by decide)
    exact absurd (Nat.le_of_dvd Nat.one_pos divides) (Nat.not_le_of_lt large)
  · rintro rfl
    exact Nat.modEq_one

/-- The cipher that the next datagram is encrypted with. -/
def OcbAes.nextEnc (c : OcbAes) : OcbAes := { c with encIv := incrementIv c.encIv c.ivlen }

/-- The cipher that the next datagram is decrypted with. -/
def OcbAes.nextDec (c : OcbAes) : OcbAes := { c with decIv := incrementIv c.decIv c.ivlen }

section Decrypt
variable (aes : Aes) (conn : UdpSsl)

/-- A datagram is always decrypted and delivered, whatever its header says. -/
theorem udpSslDecrypt_eq (iv t0 t1 t2 : UInt8) {body : List UInt8} (stale : List UInt8)
    (room : body.length ≤ 10240) :
    udpSslDecrypt aes conn (iv :: t0 :: t1 :: t2 :: (body ++ stale)) (body.length + 4) =
      .ok ({ conn with cipher := conn.cipher.nextDec }, if conn.cb then
        some ⟨(opened (aes conn.cipher.key) conn.cipher.nextDec.decIv body).1, body.length⟩ else none) := by
  have exact : toSize (((body.length + 4 : Nat) : Int) - 4) = body.length := by
    rw [Nat.cast_add, Nat.cast_ofNat, Int.add_sub_cancel, toSize_natCast]
    omega
  have signed : toInt ((body.length : Nat) : Int) = body.length := toInt_of_small (by omega) (by omega)
  have opening := ocb2AesDecrypt_eq aes conn.cipher.nextDec body stale
  simp only [OcbAes.nextDec] at opening
  simp only [udpSslDecrypt, load_zero, load_succ, ok_bind, List.drop_succ_cons, List.drop_zero, exact,
    signed, opening, opened_length, require_true room]
  rfl

end Decrypt

theorem exists_header {datagram : List UInt8} (header : 4 ≤ datagram.length) :
    ∃ iv t0 t1 t2 body, datagram = iv :: t0 :: t1 :: t2 :: body := by
  match datagram, header with
  | iv :: t0 :: t1 :: t2 :: body, _ => exact ⟨iv, t0, t1, t2, body, rfl⟩

/-- The first three bytes of the tag recomputed for the body of a datagram are
those in its header. -/
def TagMatches (aes : Aes) (conn : UdpSsl) (datagram : List UInt8) : Prop :=
  ∃ out tag, ocb2AesDecrypt aes conn.cipher.nextDec (datagram.drop 4) (datagram.drop 4).length =
      .ok (out, tag) ∧ tag.toList.take 3 = (datagram.drop 1).take 3

/-- A forged datagram is rejected only where nothing could have happened anyway:
no comparison of the tags ever decides. -/
theorem udpSslDecrypt_authentic_iff (aes : Aes) (conn : UdpSsl) (datagram stale : List UInt8)
    (header : 4 ≤ datagram.length) (room : datagram.length ≤ 4 + 10240) :
    (∃ after delivered,
      udpSslDecrypt aes conn (datagram ++ stale) datagram.length = .ok (after, delivered) ∧
      (delivered ≠ none → TagMatches aes conn datagram) ∧
      (¬ TagMatches aes conn datagram →
        delivered = none ∧ after.cipher.decIv = conn.cipher.decIv)) ↔
    TagMatches aes conn datagram ∨ (conn.cb = false ∧ conn.cipher.ivlen = 0) := by
  obtain ⟨iv, t0, t1, t2, body, rfl⟩ := exists_header header
  have small : body.length ≤ 10240 := by
    simp only [List.length_cons] at room
    omega
  have decrypted : udpSslDecrypt aes conn ((iv :: t0 :: t1 :: t2 :: body) ++ stale)
      (iv :: t0 :: t1 :: t2 :: body).length = _ :=
    udpSslDecrypt_eq aes conn iv t0 t1 t2 stale small
  have still := incrementIv_eq_self_iff conn.cipher.fits conn.cipher.decIv
  constructor
  · rintro ⟨after, delivered, run, -, rejects⟩
    rw [decrypted] at run
    obtain ⟨rfl, rfl⟩ : _ = after ∧ _ = delivered := by
      simpa only [Except.ok.injEq, Prod.mk.injEq] using run
    by_cases authentic : TagMatches aes conn (iv :: t0 :: t1 :: t2 :: body)
    · exact .inl authentic
    · obtain ⟨nothing, same⟩ := rejects authentic
      refine .inr ⟨?_, still.mp same⟩
      cases installed : conn.cb with
      | false => rfl
      | true => simp [installed] at nothing
  · rintro (authentic | ⟨absent, zero⟩)
    · exact ⟨_, _, decrypted, fun _ => authentic, fun forged => absurd authentic forged⟩
    · rw [if_neg (by simp [absent])] at decrypted
      exact ⟨_, _, decrypted, fun some => absurd rfl some, fun _ => ⟨rfl, still.mpr zero⟩⟩

/-- A connection with a callback, in the state that `uv_udp_ssl_init` leaves. -/
def sampleConn (iv : List UInt8) : UdpSsl where
  cipher := sampleContext iv
  cb := true
  bufferPool := bufferPoolInit [0, 1] 1024 (by decide)

theorem udpSslDecrypt_authentic_sample :
    (∃ after delivered, udpSslDecrypt identityAes (sampleConn []) ([0, 0, 0, 0, 7] ++ []) 5 =
        .ok (after, delivered) ∧
      (delivered ≠ none → TagMatches identityAes (sampleConn []) [0, 0, 0, 0, 7]) ∧
      (¬ TagMatches identityAes (sampleConn []) [0, 0, 0, 0, 7] →
        delivered = none ∧ after.cipher.decIv = (sampleConn []).cipher.decIv)) ↔
    TagMatches identityAes (sampleConn []) [0, 0, 0, 0, 7] ∨
      ((sampleConn []).cb = false ∧ (sampleConn []).cipher.ivlen = 0) :=
  udpSslDecrypt_authentic_iff identityAes (sampleConn []) [0, 0, 0, 0, 7] [] (by decide) (by decide)

/-- A datagram whose tag bytes are wrong is decrypted and delivered all the same. -/
theorem udpSslDecrypt_forged : ∃ after,
    udpSslDecrypt identityAes (sampleConn []) [0, 0xFF, 0xFF, 0xFF, 7] 5 =
      .ok (after, some ⟨[5], 1⟩) ∧
    after.cipher.decIv ≠ (sampleConn []).cipher.decIv ∧
    ¬ TagMatches identityAes (sampleConn []) [0, 0xFF, 0xFF, 0xFF, 7] := by
  refine ⟨{ sampleConn [] with cipher := (sampleConn []).cipher.nextDec }, by decide +kernel,
    by decide +kernel, ?_⟩
  have opening : ocb2AesDecrypt identityAes (sampleConn []).cipher.nextDec [7] 1 =
      .ok ([5], zeroBlock.overlay [1, 0, 0, 0, 0, 0, 0, 0, 0, 0, 0, 0, 0, 0, 0, 8]) := by
    decide +kernel
  rintro ⟨out, tag, decrypted, bytes⟩
  have same := decrypted.symm.trans opening
  obtain ⟨rfl, rfl⟩ : out = [5] ∧ tag = _ := by
    simpa only [Except.ok.injEq, Prod.mk.injEq] using same
  exact absurd bytes (by decide +kernel)

/-- A difference below zero becomes a byte that asks for more of the pad than there is. -/
theorem ocb2AesDecrypt_negative (aes : Aes) (ctx : OcbAes) (in_ : List UInt8) {short : Nat}
    (positive : 0 < short) (small : short < 4) :
    ocb2AesDecrypt aes ctx in_ (-(short : Int)) = .error .outOfBounds := by
  have none : ((-(short : Int)).tdiv 16).toNat = 0 := by
    rw [Int.neg_tdiv, Int.tdiv_eq_ediv_of_nonneg (Int.natCast_nonneg _)]
    omega
  have size : 16 < (uchar (-(short : Int) - (0 : Nat) * 16)).toNat := by
    obtain rfl | rfl | rfl : short = 1 ∨ short = 2 ∨ short = 3 := by omega
    · decide
    · decide
    · decide
  simp only [ocb2AesDecrypt, none, ocb2Blocks, ok_bind, ocb2EncryptBlockFinal, xorBlockEx]
  generalize uchar _ = inl at size
  have pad (b : Block) : slice b.toList inl.toNat = .error .outOfBounds :=
    slice_outside (by rwa [Block.toList_length])
  by_cases inside : inl.toNat ≤ in_.length
  · rw [slice_of_le inside, ok_bind, pad]
    rfl
  · rw [slice_outside (Nat.lt_of_not_le inside)]
    rfl

theorem udpSslDecrypt_short (aes : Aes) (conn : UdpSsl) (buf : List UInt8) {len : Nat}
    (some : 0 < len) (short : len < 4) : udpSslDecrypt aes conn buf len = .error .outOfBounds := by
  have signed : toInt (toSize ((len : Int) - 4)) = -((4 - len : Nat) : Int) := by
    obtain rfl | rfl | rfl : len = 1 ∨ len = 2 ∨ len = 3 := by omega
    · decide
    · decide
    · decide
  have decrypted := ocb2AesDecrypt_negative aes conn.cipher.nextDec (buf.drop 4)
    (Nat.sub_pos_of_lt short) (by omega : 4 - len < 4)
  simp only [OcbAes.nextDec] at decrypted
  rw [udpSslDecrypt]
  refine load_bind_outside fun _ _ => load_bind_outside fun _ _ => load_bind_outside fun _ _ =>
    load_bind_outside fun _ _ => ?_
  rw [signed, decrypted]
  rfl

/-- The accesses stay within their objects, and the length delivered is that of the
body, exactly when there is a whole header. -/
theorem datagram_bounded_iff (aes : Aes) (conn : UdpSsl) (datagram stale : List UInt8)
    (some : 1 ≤ datagram.length) (room : datagram.length ≤ 1024) :
    (∃ after delivered,
      udpSslDecrypt aes conn (datagram ++ stale) datagram.length = .ok (after, delivered) ∧
      ∀ p ∈ delivered, (p.len : Int) = datagram.length - 4) ↔ 4 ≤ datagram.length := by
  constructor
  · rintro ⟨after, delivered, run, -⟩
    by_contra short
    rw [udpSslDecrypt_short aes conn _ some (Nat.lt_of_not_le short)] at run
    cases run
  · intro header
    obtain ⟨iv, t0, t1, t2, body, rfl⟩ := exists_header header
    have small : body.length ≤ 10240 := by
      simp only [List.length_cons] at room
      omega
    refine ⟨_, _, udpSslDecrypt_eq aes conn iv t0 t1 t2 stale small, ?_⟩
    intro p member
    cases installed : conn.cb with
    | false => simp [installed] at member
    | true =>
      rw [if_pos (by rw [installed]), Option.mem_some_iff] at member
      subst member
      simp only [List.length_cons]
      omega

theorem datagram_bounded_sample :
    (∃ after delivered, udpSslDecrypt identityAes (sampleConn []) ([0, 0, 0, 0, 7] ++ [9]) 5 =
        .ok (after, delivered) ∧ ∀ p ∈ delivered, (p.len : Int) = (5 : Nat) - 4) ↔
      4 ≤ [(0 : UInt8), 0, 0, 0, 7].length :=
  datagram_bounded_iff identityAes (sampleConn []) [0, 0, 0, 0, 7] [9] (by decide) (by decide)

/-- A single byte, in a receive buffer with other bytes behind it. -/
theorem datagram_outside :
    udpSslDecrypt identityAes (sampleConn []) ([9] ++ List.replicate 1023 0) 1 = .error .outOfBounds ∧
      ¬ ∃ after delivered,
        udpSslDecrypt identityAes (sampleConn []) ([9] ++ List.replicate 1023 0) [(9 : UInt8)].length =
          .ok (after, delivered) ∧ ∀ p ∈ delivered, (p.len : Int) = [(9 : UInt8)].length - 4 := by
  have outside := udpSslDecrypt_short identityAes (sampleConn []) ([9] ++ List.replicate 1023 0)
    Nat.one_pos (Nat.le_of_ble_eq_true rfl)
  refine ⟨outside, ?_⟩
  rintro ⟨after, delivered, run, -⟩
  cases outside.symm.trans run

end Mumble

import Mumble.ResyncProofs

/-! What is copied when a `CryptSetup` message installs its key and its nonces,
whose lengths the server chooses. -/
namespace Mumble
open CExec

/-- The key has been copied from within its field, and both IVs, over as many bytes
as the length that is stored says, from within theirs and into their arrays. -/
structure Installed (before after : OcbAes) (key client server : List UInt8) : Prop where
  key : 16 ≤ key.length ∧ after.key.toList = key.take 16
  client : after.ivlen.toNat ≤ client.length ∧
    after.encIv = before.encIv.overlay (client.take after.ivlen.toNat)
  server : after.ivlen.toNat ≤ server.length ∧
    after.decIv = before.decIv.overlay (server.take after.ivlen.toNat)

/-- An `int` between zero and sixteen is what is left of a length. -/
theorem toInt_iv_iff (n : Nat) :
    0 ≤ toInt n ∧ toInt n ≤ 16 ↔ n % 2 ^ 32 ≤ 16 := by
  rw [toInt, Int.bmod_def]
  split <;> omega

theorem toInt_iv {n : Nat} (small : n % 2 ^ 32 ≤ 16) : (toInt n).toNat = n % 2 ^ 32 := by
  rw [toInt, Int.bmod_def]
  split <;> omega

section
variable {ctx after : OcbAes} {key client server : List UInt8} {n : Nat}

theorem ocbAesSetKeys_installs (whole : 16 ≤ key.length) (small : n % 2 ^ 32 ≤ 16)
    (inside : n % 2 ^ 32 ≤ client.length) (inside' : n % 2 ^ 32 ≤ server.length) :
    ∃ after, ocbAesSetKeys ctx key client server (toInt n) = .ok after ∧
      after.ivlen.toNat = n % 2 ^ 32 ∧ Installed ctx after key client server := by
  have stored : (UInt8.ofNat (n % 2 ^ 32)).toNat = n % 2 ^ 32 := by
    rw [UInt8.toNat_ofNat']
    omega
  have keyBytes : (zeroBlock.overlay key).bytes.toList = key.take 16 :=
    Block.toList_overlay_full zeroBlock whole
  rw [ocbAesSetKeys, loadBlock_overlay whole, ok_bind, dif_pos ((toInt_iv_iff n).mpr small)]
  simp only [toInt_iv small]
  rw [slice_of_le inside, ok_bind, slice_of_le inside', ok_bind]
  refine ⟨_, rfl, stored, ⟨whole, keyBytes⟩, ?_, ?_⟩
  · exact ⟨stored.symm ▸ inside, by rw [stored]⟩
  · exact ⟨stored.symm ▸ inside', by rw [stored]⟩

theorem ocbAesSetKeys_bounded (set : ocbAesSetKeys ctx key client server (toInt n) = .ok after) :
    16 ≤ key.length ∧ n % 2 ^ 32 ≤ 16 ∧ n % 2 ^ 32 ≤ server.length := by
  rw [ocbAesSetKeys] at set
  obtain ⟨block, loaded, set⟩ := bind_eq_ok.mp set
  have whole : 16 ≤ key.length := by
    unfold loadBlock at loaded
    split at loaded
    next size =>
      rw [List.length_take] at size
      omega
    next => cases loaded
  split at set
  next range =>
    have small := (toInt_iv_iff n).mp range
    obtain ⟨enc, -, set⟩ := bind_eq_ok.mp set
    obtain ⟨dec, read, -⟩ := bind_eq_ok.mp set
    rw [toInt_iv small] at read
    refine ⟨whole, small, ?_⟩
    by_contra short
    rw [slice_outside (Nat.lt_of_not_le short)] at read
    cases read
  next => cases set

end

/-- The copies stay within the fields and the arrays exactly when the key has its
sixteen bytes, and the client's nonce at most sixteen and no more than the server's.
The length of the client's nonce is passed on as an `unsigned`. -/
theorem key_setup_bounded_iff {ω : Type} (now : Nat) (audio : Audio ω) (timers : PingTimers)
    (key client server : List UInt8) :
    (∃ after restarted, mumbleMessageInternal now audio timers typeCryptSetup
        (some ⟨some key, some client, some server⟩) = .ok (after, restarted) ∧
      Installed audio.udp.cipher after.udp.cipher key client server) ↔
    16 ≤ key.length ∧ client.length % 2 ^ 32 ≤ 16 ∧ client.length % 2 ^ 32 ≤ server.length := by
  have handled : mumbleMessageInternal now audio timers typeCryptSetup
      (some ⟨some key, some client, some server⟩) =
      mumbleAudioEncryption now audio timers key client server client.length := by
    rw [mumbleMessageInternal, if_neg (by decide), if_pos rfl]
    rfl
  rw [handled, mumbleAudioEncryption, udpSslSetEncryption]
  constructor
  · rintro ⟨after, restarted, run, -⟩
    obtain ⟨udp, set, -⟩ := bind_eq_ok.mp run
    obtain ⟨cipher, set, -⟩ := bind_eq_ok.mp set
    exact ocbAesSetKeys_bounded set
  · rintro ⟨whole, small, inside⟩
    obtain ⟨cipher, set, -, installed⟩ := @ocbAesSetKeys_installs audio.udp.cipher key client server
      client.length whole small (Nat.mod_le _ _) inside
    rw [set]
    exact ⟨_, _, rfl, installed⟩

/-- A nonce of the server that is a byte shorter than the client's, and one of the
client that is a byte longer than its array. -/
theorem key_setup_outside :
    mumbleMessageInternal 0 (sampleAudio 0) samplePingTimers typeCryptSetup
        (some ⟨some (List.replicate 16 1), some (List.replicate 16 2), some (List.replicate 15 3)⟩) =
      .error .outOfBounds ∧
    mumbleMessageInternal 0 (sampleAudio 0) samplePingTimers typeCryptSetup
        (some ⟨some (List.replicate 16 1), some (List.replicate 17 2), some (List.replicate 17 3)⟩) =
      .error .outOfBounds := by
  refine ⟨?_, ?_⟩
  · decide +kernel
  · decide +kernel

end Mumble

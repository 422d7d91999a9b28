import Mumble.CryptSetup
import Mumble.TunnelProofs

/-! The keys after a `CryptSetup`. A message with only some of its fields, which is how
a resync is performed, stops the client. -/
namespace Mumble
open CExec

/-- The key and the nonces have sixteen bytes where they are filled. -/
structure CryptSetup.Sized (msg : CryptSetup) : Prop where
  key : ∀ data ∈ msg.key, data.length = 16
  clientNonce : ∀ data ∈ msg.clientNonce, data.length = 16
  serverNonce : ∀ data ∈ msg.serverNonce, data.length = 16

/-- All three fields are filled. -/
structure CryptSetup.Full (msg : CryptSetup) : Prop where
  key : msg.key.isSome = true
  clientNonce : msg.clientNonce.isSome = true
  serverNonce : msg.serverNonce.isSome = true

/-- What the protocol says of a message: an empty one changes nothing, one with a
single nonce replaces this one only, and a full one replaces the key and both
nonces, which no other does. -/
structure Resyncs (msg : CryptSetup) (before after : OcbAes) : Prop where
  empty : msg.key = none → msg.clientNonce = none → msg.serverNonce = none → after = before
  server : msg.key = none → msg.clientNonce = none → ∀ nonce ∈ msg.serverNonce,
    after.decIv.toList = nonce ∧ after.encIv = before.encIv ∧ after.key = before.key
  client : msg.key = none → msg.serverNonce = none → ∀ nonce ∈ msg.clientNonce,
    after.encIv.toList = nonce ∧ after.decIv = before.decIv ∧ after.key = before.key
  full : ∀ key ∈ msg.key, ∀ clientNonce ∈ msg.clientNonce, ∀ serverNonce ∈ msg.serverNonce,
    after.key.toList = key ∧ after.encIv.toList = clientNonce ∧ after.decIv.toList = serverNonce
  rest : ¬ msg.Full → after.key = before.key ∨ after.encIv = before.encIv ∨ after.decIv = before.decIv

/-- With whole keys and nonces the cipher is set to these. -/
theorem ocbAesSetKeys_full (ctx : OcbAes) {key encIv decIv : List UInt8} (keySize : key.length = 16)
    (encSize : encIv.length = 16) (decSize : decIv.length = 16) :
    ∃ after, ocbAesSetKeys ctx key encIv decIv 16 = .ok after ∧ after.key.toList = key ∧
      after.encIv.toList = encIv ∧ after.decIv.toList = decIv ∧ after.ivlen = 16 := by
  have loaded := loadBlock_overlay keySize.ge
  have sliced : ∀ bytes : List UInt8, bytes.length = 16 →
      slice bytes (16 : Int).toNat = .ok bytes := by
    intro bytes size
    have whole := slice_of_le size.ge
    rw [List.take_of_length_le size.le] at whole
    exact whole
  have written : ∀ (b : Block) (bytes : List UInt8), bytes.length = 16 →
      (b.overlay bytes).toList = bytes := by
    intro b bytes size
    rw [Block.toList_overlay_full b size.ge, List.take_of_length_le size.le]
  let after : OcbAes := {
    key := (zeroBlock.overlay key).bytes
    encIv := ctx.encIv.overlay encIv
    decIv := ctx.decIv.overlay decIv
    ivlen := 16
    fits := by decide }
  refine ⟨after, ?_, written zeroBlock key keySize, written ctx.encIv encIv encSize,
    written ctx.decIv decIv decSize, rfl⟩
  rw [ocbAesSetKeys, loaded, ok_bind, dif_pos (by decide), sliced encIv encSize, ok_bind,
    sliced decIv decSize, ok_bind]
  rfl

section
variable {ω : Type} (now : Nat) (audio : Audio ω) (timers : PingTimers) {msg : CryptSetup}

/-- A full message is handled. -/
theorem mumbleMessageInternal_full (sized : msg.Sized) (full : msg.Full) :
    ∃ after restarted, mumbleMessageInternal now audio timers typeCryptSetup (some msg) =
      .ok (after, restarted) ∧ Resyncs msg audio.udp.cipher after.udp.cipher := by
  obtain ⟨key, clientNonce, serverNonce⟩ := msg
  obtain ⟨hasKey, hasClient, hasServer⟩ := full
  obtain ⟨key, rfl⟩ := Option.isSome_iff_exists.mp hasKey
  obtain ⟨clientNonce, rfl⟩ := Option.isSome_iff_exists.mp hasClient
  obtain ⟨serverNonce, rfl⟩ := Option.isSome_iff_exists.mp hasServer
  have keySize := sized.key key rfl
  have clientSize := sized.clientNonce clientNonce rfl
  have serverSize := sized.serverNonce serverNonce rfl
  obtain ⟨cipher, set, sameKey, sameEnc, sameDec, -⟩ :=
    ocbAesSetKeys_full audio.udp.cipher keySize clientSize serverSize
  refine ⟨{ audio with udp := { audio.udp with cipher } }, mumbleUdpPingStart now timers, ?_, ?_⟩
  · have length : toInt (clientNonce.length : Int) = 16 := by
      rw [clientSize]
      decide
    have keys : udpSslSetEncryption audio.udp key clientNonce serverNonce clientNonce.length =
        .ok { audio.udp with cipher } := by
      rw [udpSslSetEncryption, length, set, ok_bind]
    rw [mumbleMessageInternal, if_neg (by decide), if_pos rfl]
    simp only [Option.isSome_some, require_true, ok_bind, Option.getD_some, mumbleAudioEncryption,
      keys]
  · refine ⟨?_, ?_, ?_, ?_, ?_⟩
    · intro lacking
      cases lacking
    · intro lacking
      cases lacking
    · intro lacking
      cases lacking
    · rintro _ ⟨⟩ _ ⟨⟩ _ ⟨⟩
      exact ⟨sameKey, sameEnc, sameDec⟩
    · intro lacking
      exact absurd ⟨rfl, rfl, rfl⟩ lacking

/-- A message that lacks a field fails an assertion. -/
theorem mumbleMessageInternal_lacking (lacking : ¬ msg.Full) :
    mumbleMessageInternal now audio timers typeCryptSetup (some msg) = .error .assertion := by
  rw [mumbleMessageInternal, if_neg (by decide), if_pos rfl]
  dsimp only
  by_cases key : msg.key.isSome = true
  · by_cases clientNonce : msg.clientNonce.isSome = true
    · have serverNonce : ¬ msg.serverNonce.isSome = true := fun serverNonce =>
        lacking ⟨key, clientNonce, serverNonce⟩
      rw [require_true key, ok_bind, require_true clientNonce, ok_bind, require_false serverNonce]
      rfl
    · rw [require_true key, ok_bind, require_false clientNonce]
      rfl
  · rw [require_false key]
    rfl

end

/-- The client handles a message as the protocol says exactly if all its fields are
filled. -/
theorem crypt_setup_iff {ω : Type} (now : Nat) (audio : Audio ω) (timers : PingTimers)
    {msg : CryptSetup} (sized : msg.Sized) :
    (∃ after restarted, mumbleMessageInternal now audio timers typeCryptSetup (some msg) =
      .ok (after, restarted) ∧ Resyncs msg audio.udp.cipher after.udp.cipher) ↔ msg.Full := by
  constructor
  · rintro ⟨after, restarted, handled, -⟩
    by_contra lacking
    rw [mumbleMessageInternal_lacking now audio timers lacking] at handled
    cases handled
  · intro full
    exact mumbleMessageInternal_full now audio timers sized full

/-- The message that sets the key and both nonces. -/
def wholeSetup : CryptSetup :=
  ⟨some (List.replicate 16 1), some (List.replicate 16 2), some (List.replicate 16 3)⟩

def samplePingTimers : PingTimers := ⟨none, 0, 5000, 1000, [0x20, 0, 0, 0, 0, 0, 0, 0]⟩

theorem wholeSetup_sized : wholeSetup.Sized := by
  constructor <;> (rintro _ ⟨⟩; rfl)

theorem crypt_setup_sample :
    ∃ after restarted, mumbleMessageInternal 0 (sampleAudio 0) samplePingTimers typeCryptSetup
        (some wholeSetup) = .ok (after, restarted) ∧
      Resyncs wholeSetup (sampleAudio 0).udp.cipher after.udp.cipher :=
  (crypt_setup_iff 0 (sampleAudio 0) samplePingTimers wholeSetup_sized).mpr ⟨rfl, rfl, rfl⟩

/-- The message that gives the client a new nonce of the server. -/
def serverResync : CryptSetup := ⟨none, none, some (List.replicate 16 1)⟩

/-- A resync that the server sends stops the client. -/
theorem crypt_setup_resync : serverResync.Sized ∧
    mumbleMessageInternal 0 (sampleAudio 0) samplePingTimers typeCryptSetup (some serverResync) =
      .error .assertion ∧
    ¬ ∃ after restarted, mumbleMessageInternal 0 (sampleAudio 0) samplePingTimers typeCryptSetup
        (some serverResync) = .ok (after, restarted) ∧
      Resyncs serverResync (sampleAudio 0).udp.cipher after.udp.cipher := by
  have stopped : mumbleMessageInternal 0 (sampleAudio 0) samplePingTimers typeCryptSetup
      (some serverResync) = .error .assertion := rfl
  refine ⟨⟨?_, ?_, ?_⟩, stopped, ?_⟩
  · rintro _ ⟨⟩
  · rintro _ ⟨⟩
  · rintro _ ⟨⟩
    rfl
  · rintro ⟨after, restarted, handled, -⟩
    rw [stopped] at handled
    cases handled

end Mumble

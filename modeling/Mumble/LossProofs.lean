import Mumble.NetworkProofs

/-! What a lost datagram does to the ones after it. The receiver counts the
datagrams it gets and not the ones that were sent, so it decrypts with the wrong
IV until the losses make up whole turns of the counter. -/
namespace Mumble
open CExec OffsetCodebook Lockstep

/-- Distinct values can be sent to distinct values by one permutation. -/
theorem exists_perm_map {l l' : List α} (distinct : l.Nodup) (distinct' : l'.Nodup)
    (length : l.length = l'.length) : ∃ σ : Equiv.Perm α, l.map σ = l' := by
  obtain ⟨σ, maps⟩ := Equiv.Perm.exists_extending_pair l.get (l'.get ∘ Fin.cast length)
    distinct.injective_get (distinct'.injective_get.comp (Fin.cast_injective length))
  refine ⟨σ, List.ext_get (by rw [List.length_map, length]) fun i inside inside' => ?_⟩
  have value := maps ⟨i, length ▸ inside'⟩
  simpa using value

theorem exists_perm_four {a b c d a' b' c' d' : α} (hb : b ∉ [a]) (hc : c ∉ [a, b])
    (hd : d ∉ [a, b, c]) (hb' : b' ∉ [a']) (hc' : c' ∉ [a', b']) (hd' : d' ∉ [a', b', c']) :
    ∃ σ : Equiv.Perm α, σ a = a' ∧ σ b = b' ∧ σ c = c' ∧ σ d = d' := by
  have distinct {a b c d : α} (hb : b ∉ [a]) (hc : c ∉ [a, b]) (hd : d ∉ [a, b, c]) :
      [a, b, c, d].Nodup := by
    simp only [List.mem_cons, List.not_mem_nil, or_false, not_or] at hb hc hd
    simp [Ne.symm hb, Ne.symm hc.1, Ne.symm hc.2, Ne.symm hd.1, Ne.symm hd.2.1, Ne.symm hd.2.2]
  obtain ⟨σ, values⟩ := exists_perm_map (distinct hb hc hd) (distinct hb' hc' hd') rfl
  refine ⟨σ, ?_⟩
  simpa using values

/-- The blocks that differ in their first byte. -/
def probe (c : Fin 256) : Block := zeroBlock.overlay [.ofFin c]

theorem probe_byte (c : Fin 256) : (probe c).byte 0 = .ofFin c := by
  rw [probe, Block.byte_overlay]
  rfl

theorem probe_injective : Function.Injective probe := by
  intro c d same
  have bytes := congrArg (Block.byte · 0) same
  simp only [probe_byte] at bytes
  exact congrArg UInt8.toFin bytes

/-- Fewer than 256 blocks leave a value of an injective family free. -/
theorem exists_probe {f : Fin 256 → Block} (injective : f.Injective) (taken : List Block)
    (few : taken.length < 256) : ∃ c, f c ∉ taken := by
  by_contra all
  push Not at all
  have distinct : (List.ofFn f).Nodup := List.nodup_ofFn.mpr injective
  have inside : List.ofFn f ⊆ taken := by
    intro b member
    obtain ⟨c, rfl⟩ := List.mem_ofFn.mp member
    exact all c
  have count := (distinct.subperm inside).length_le
  rw [List.length_ofFn] at count
  omega

section Distinguish
variable {E : Equiv.Perm Block} {iv : Block} {p : List UInt8}

/-- The first full block of a ciphertext. -/
theorem sealed_take (full : 16 ≤ p.length) : (sealed E iv p).1.take 16 =
    (E (doubleBlock (E iv) + zeroBlock.overlay p) + doubleBlock (E iv)).toList := by
  obtain ⟨count, more⟩ : ∃ count, p.length / 16 = count + 1 := ⟨p.length / 16 - 1, by omega⟩
  obtain ⟨rest, first⟩ : ∃ rest, (sealed E iv p).1 =
      flat (run (sealBlock E doubleBlock) (blocks (count + 1) p) ⟨E iv, 0⟩).1 ++ rest :=
    ⟨_, by rw [← more]; rfl⟩
  rw [first, blocks, run_cons, flat_cons, List.append_assoc, List.take_left' (Block.toList_length _)]
  rfl

theorem sealed_short (short : p.length < 16) :
    (sealed E iv p).1 = mask (E (bitLength p.length + doubleBlock (E iv))) p :=
  congrArg Prod.fst (@sealed_split E iv [] _ _ p short rfl)

/-- Four values of a permutation of the blocks, chosen for two offsets `u` and `v`
and a block `b` that is added to both. -/
theorem exists_cipher {iv iv' : Block} (distinct : iv ≠ iv') (b : Block) :
    ∃ u v y, ∀ z, z ∉ [probe u, probe v, probe y] → ∃ E : Equiv.Perm Block,
      E iv = probe u ∧ E iv' = probe v ∧ E (doubleBlock (probe u) + b) = probe y ∧
        E (doubleBlock (probe v) + b) = z := by
  have shift : Function.Injective fun c => doubleBlock (probe c) + b := by
    intro c d same
    exact probe_injective (doubleBlock_injective (add_right_cancel same))
  obtain ⟨cu, hu⟩ := exists_probe shift [iv, iv'] (by simp)
  obtain ⟨cv, hv⟩ := exists_probe shift [iv, iv', doubleBlock (probe cu) + b] (by simp)
  obtain ⟨cy, hy⟩ := exists_probe probe_injective [probe cu, probe cv] (by simp)
  have apart : probe cv ∉ [probe cu] := by
    intro same
    apply hv
    rw [List.mem_singleton.mp same]
    exact List.mem_cons_of_mem _ (List.mem_cons_of_mem _ (List.mem_singleton_self _))
  refine ⟨cu, cv, cy, fun z hz => ?_⟩
  exact exists_perm_four (fun same => distinct (List.mem_singleton.mp same).symm) hu hv apart hy hz

/-- Under two IVs some cipher encrypts a payload that is not empty differently. -/
theorem exists_sealed_ne {iv iv' : Block} (distinct : iv ≠ iv') (some : p ≠ []) :
    ∃ E, (sealed E iv p).1 ≠ (sealed E iv' p).1 := by
  by_cases full : 16 ≤ p.length
  · obtain ⟨u, v, y, choose⟩ := exists_cipher distinct (zeroBlock.overlay p)
    obtain ⟨c, free⟩ := exists_probe probe_injective
      [probe y + doubleBlock (probe u) + doubleBlock (probe v), probe u, probe v, probe y] (by simp)
    obtain ⟨E, first, second, third, fourth⟩ := choose (probe c) (List.not_mem_of_not_mem_cons free)
    refine ⟨E, fun same => List.ne_of_not_mem_cons free ?_⟩
    have heads := congrArg (List.take 16) same
    rw [sealed_take full, sealed_take full, first, second, third, fourth] at heads
    rw [Block.toList_injective heads, add_twice]
  · have short : p.length < 16 := Nat.lt_of_not_le full
    obtain ⟨u, v, y, choose⟩ := exists_cipher distinct (bitLength p.length)
    obtain ⟨c, free⟩ := exists_probe probe_injective [probe y, probe u, probe v, probe y] (by simp)
    obtain ⟨E, first, second, third, fourth⟩ := choose (probe c) (List.not_mem_of_not_mem_cons free)
    refine ⟨E, fun same => List.ne_of_not_mem_cons free ?_⟩
    rw [sealed_short short, sealed_short short, add_comm, first, third, add_comm, second, fourth] at same
    have heads := congrArg (·[0]?) same
    have byte (pad : Block) := mask_getElem? pad p 0
    cases p with
    | nil => exact absurd rfl some
    | cons b p =>
      simp only [Fin.val_zero] at byte
      rw [byte, byte, probe_byte, probe_byte] at heads
      have bytes := (UInt8.xor_right_inj b).mp (Option.some.inj heads)
      have chosen : y = c := congrArg UInt8.toFin bytes
      rw [chosen]

end Distinguish

section Ends
variable {aes : Aes} {conn : UdpSsl}

theorem udpSslWriteAll_eq (ready : Ready conn) {payloads : List (List UInt8)}
    (sizes : ∀ payload ∈ payloads, payload.length ≤ 1020) :
    ∃ after, udpSslWriteAll aes conn payloads = .ok (after,
      wrapFrom (incrementIv · conn.cipher.ivlen) (datagramOf (aes conn.cipher.key))
        conn.cipher.encIv payloads) := by
  induction payloads generalizing conn with
  | nil => exact ⟨conn, rfl⟩
  | cons payload payloads ih =>
    have written : udpSslWrite aes accept conn payload payload.length = _ :=
      udpSslWrite_eq ready (sizes payload List.mem_cons_self)
    obtain ⟨after, rest⟩ := ih (ready.cipher conn.cipher.nextEnc) fun p member =>
      sizes p (List.mem_cons_of_mem _ member)
    refine ⟨after, ?_⟩
    rw [udpSslWriteAll, written, ok_bind]
    dsimp only
    rw [rest]
    rfl

theorem udpSslReceiveAll_eq (ready : Ready conn) (stale : Nat → List UInt8)
    {datagrams : List (List UInt8)}
    (sizes : ∀ d ∈ datagrams, 4 ≤ d.length ∧ d.length ≤ 1024) :
    ∃ after, udpSslReceiveAll aes stale conn datagrams = .ok (after,
      (unwrapFrom (incrementIv · conn.cipher.ivlen) (payloadOf (aes conn.cipher.key))
        conn.cipher.decIv datagrams).map plaintextOf) := by
  induction datagrams generalizing conn with
  | nil => exact ⟨conn, rfl⟩
  | cons datagram datagrams ih =>
    obtain ⟨header, room⟩ := sizes datagram List.mem_cons_self
    have received : udpSslReceive aes conn datagram (stale datagrams.length) = _ :=
      udpSslReceive_eq ready _ header room
    obtain ⟨after, rest⟩ := ih (ready.cipher conn.cipher.nextDec) fun d member =>
      sizes d (List.mem_cons_of_mem _ member)
    refine ⟨after, ?_⟩
    rw [udpSslReceiveAll, received, ok_bind]
    dsimp only
    rw [rest]
    rfl

end Ends

/-- A sender and a receiver with the same key and counter. -/
structure Paired (a b : UdpSsl) : Prop where
  sender : Ready a
  receiver : Ready b
  key : a.cipher.key = b.cipher.key
  iv : a.cipher.encIv = b.cipher.decIv
  ivlen : a.cipher.ivlen = b.cipher.ivlen

/-- Every delivered datagram comes out as the payload it was written for. -/
def Recovers (aes : Aes) (a b : UdpSsl) (stale : Nat → List UInt8)
    (sent : List (List UInt8 × Bool)) : Prop :=
  transmit aes a b stale sent =
    .ok ((survivors (sent.map (·.2)) (sent.map (·.1))).map plaintextOf)

/-- The number of datagrams lost among some. -/
def lost (sent : List (List UInt8 × Bool)) : Nat := sent.countP (!·.2)

section Loss
variable {a b : UdpSsl} {sent : List (List UInt8 × Bool)} {stale : Nat → List UInt8}

theorem survivors_subset (marks : List Bool) (l : List α) : survivors marks l ⊆ l := by
  intro x member
  obtain ⟨pair, kept, rfl⟩ := List.mem_map.mp member
  exact (List.of_mem_zip (List.mem_filter.mp kept).1).1

theorem wrapFrom_sizes (E : Equiv.Perm Block) (next : Block → Block) (iv : Block)
    {payloads : List (List UInt8)} (sizes : ∀ payload ∈ payloads, payload.length ≤ 1020) :
    ∀ d ∈ wrapFrom next (datagramOf E) iv payloads, 4 ≤ d.length ∧ d.length ≤ 1024 := by
  induction payloads generalizing iv with
  | nil => exact fun _ member => absurd member List.not_mem_nil
  | cons payload payloads ih =>
    have first := sizes payload List.mem_cons_self
    intro d member
    rcases List.mem_cons.mp member with rfl | rest
    · rw [datagramOf_length]
      omega
    · exact ih (next iv) (fun p inside => sizes p (List.mem_cons_of_mem _ inside)) d rest

theorem plaintextOf_injective : Function.Injective plaintextOf := fun _ _ same =>
  congrArg Plaintext.buff same

/-- For one cipher: a delivered payload comes out right exactly when the counter
of its place among the delivered ones decrypts what the counter of its place
among all encrypted. -/
theorem recovers_iff (aes : Aes) (paired : Paired a b)
    (sizes : ∀ payload ∈ sent.map (·.1), payload.length ≤ 1020) :
    Recovers aes a b stale sent ↔
      ∀ before payload after, sent = before ++ (payload, true) :: after →
        payloadOf (aes a.cipher.key)
            ((incrementIv · a.cipher.ivlen)^[before.countP (·.2) + 1] a.cipher.encIv)
            (datagramOf (aes a.cipher.key)
              ((incrementIv · a.cipher.ivlen)^[before.length + 1] a.cipher.encIv) payload) =
          payload := by
  obtain ⟨_, writing⟩ : ∃ after, udpSslWriteAll aes a (sent.map (·.1)) = .ok (after, _) :=
    udpSslWriteAll_eq paired.sender sizes
  have wire := wrapFrom_sizes (aes a.cipher.key) (incrementIv · a.cipher.ivlen) a.cipher.encIv sizes
  obtain ⟨_, receiving⟩ : ∃ after, udpSslReceiveAll aes stale b _ = .ok (after, _) :=
    udpSslReceiveAll_eq paired.receiver stale fun d member =>
      wire d (survivors_subset (sent.map (·.2)) _ member)
  rw [← paired.key, ← paired.iv, ← paired.ivlen] at receiving
  rw [Recovers, transmit, writing, ok_bind]
  dsimp only
  rw [receiving, ok_bind, Except.ok.injEq, plaintextOf_injective.list_map.eq_iff,
    unwrapFrom_survivors_iff]

/-- The two places of a datagram meet on one IV when whole turns are lost. -/
theorem places_agree_iff (cipher : OcbAes) (before : List (List UInt8 × Bool)) (iv : Block) :
    (incrementIv · cipher.ivlen)^[before.countP (·.2) + 1] iv =
      (incrementIv · cipher.ivlen)^[before.length + 1] iv ↔
    256 ^ cipher.ivlen.toNat ∣ lost before := by
  have count : before.length = before.countP (·.2) + lost before := by
    simpa [lost] using before.length_eq_countP_add_countP (·.2)
  rw [iterate_incrementIv_eq_iff cipher.fits, Nat.modEq_iff_dvd' (by omega)]
  have difference : before.length + 1 - (before.countP (·.2) + 1) = lost before := by omega
  rw [difference]

theorem payloadOf_nil (E : Equiv.Perm Block) (iv iv' : Block) :
    payloadOf E iv (datagramOf E iv' []) = [] := by
  apply List.length_eq_zero_iff.mp
  rw [payloadOf, opened_length, List.length_drop, datagramOf_length]
  rfl

/-- The receiver recovers from losses under every cipher exactly when each
delivered payload is empty or comes after whole turns of lost datagrams. -/
theorem loss_recovery_iff (paired : Paired a b) (stale : Nat → List UInt8)
    (sizes : ∀ payload ∈ sent.map (·.1), payload.length ≤ 1020) :
    (∀ aes, Recovers aes a b stale sent) ↔
      ∀ before payload after, sent = before ++ (payload, true) :: after →
        payload = [] ∨ 256 ^ a.cipher.ivlen.toNat ∣ lost before := by
  constructor
  · intro recovers before payload after split
    by_contra neither
    obtain ⟨some, turns⟩ := not_or.mp neither
    have distinct := fun same => turns ((places_agree_iff a.cipher before a.cipher.encIv).mp same)
    obtain ⟨E, different⟩ := exists_sealed_ne distinct some
    have right := (recovers_iff (fun _ => E) paired sizes).mp (recovers fun _ => E) before payload after
      split
    rw [payloadOf, datagramOf_drop] at right
    apply different
    have again := sealed_opened E
      ((incrementIv · a.cipher.ivlen)^[before.countP (·.2) + 1] a.cipher.encIv)
      (sealed E ((incrementIv · a.cipher.ivlen)^[before.length + 1] a.cipher.encIv) payload).1
    rw [← again]
    exact congrArg (fun p => (sealed E _ p).1) right.symm
  · intro harmless aes
    refine (recovers_iff aes paired sizes).mpr fun before payload after split => ?_
    rcases harmless before payload after split with rfl | turns
    · exact payloadOf_nil _ _ _
    · rw [(places_agree_iff a.cipher before a.cipher.encIv).mpr turns]
      exact payloadOf_datagramOf _ _ payload

end Loss

theorem loss_recovery_sample :
    (∀ aes, Recovers aes (sampleConn [1]) (sampleConn [1]) (fun _ => []) [([7], true), ([8], false)]) ↔
      ∀ before payload after,
        [([7], true), ([8], false)] = before ++ (payload, true) :: after →
          payload = [] ∨ 256 ^ 16 ∣ lost before :=
  loss_recovery_iff ⟨sampleConn_ready [1], sampleConn_ready [1], rfl, rfl, rfl⟩ (fun _ => []) (by
    intro payload member
    fin_cases member <;> decide)

/-- After one lost datagram the next one comes out as something else. -/
theorem loss_not_recovered :
    ¬ Recovers identityAes (sampleConn [1]) (sampleConn [1]) (fun _ => [])
      [([7], false), ([8], true)] := by
  have received : transmit identityAes (sampleConn [1]) (sampleConn [1]) (fun _ => [])
      [([7], false), ([8], true)] = .ok [⟨[10], 1⟩] := by
    decide +kernel
  intro recovers
  rw [Recovers, received] at recovers
  exact absurd recovers (by decide)

end Mumble

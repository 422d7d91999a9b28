import Mumble.ClientEffects
import Mumble.NonceProofs
import Mumble.Lib.History

/-! What the datagrams of a whole client are encrypted with: the pings and the voice
share the counter of the keys that came last, and nothing is sent before any keys. -/
namespace Mumble
open CExec History ClientParts

/-- The payload and the datagram of what goes out encrypted. -/
def Incident.emission : Incident μ → Option Emission
  | .voice packet datagram => some ⟨packet, datagram⟩
  | .ping packet datagram => some ⟨packet, datagram⟩
  | _ => none

/-- The cipher behind an incident, for the one before it. -/
def Incident.cipher (incident : Incident μ) (before : Option OcbAes) : Option OcbAes :=
  match incident with
  | .keys cipher => some cipher
  | .voice _ _ => before.map OcbAes.nextEnc
  | .ping _ _ => before.map OcbAes.nextEnc
  | _ => before

/-- The keys of a log, with the counter where its datagrams have left it. -/
def cipherOf (log : List (Nat × Incident μ)) : Option OcbAes :=
  log.foldl (fun before entry => entry.2.cipher before) none

def emissions (log : List (Nat × Incident μ)) : List Emission :=
  log.filterMap fun entry => entry.2.emission

@[simp] theorem cipherOf_concat (log : List (Nat × Incident μ)) (entry : Nat × Incident μ) :
    cipherOf (log ++ [entry]) = entry.2.cipher (cipherOf log) := by
  rw [cipherOf, List.foldl_append]
  rfl

/-- The same key and the same counter for what is sent. -/
def OcbAes.Sends (cipher other : OcbAes) : Prop := ∃ decIv, cipher = { other with decIv }

/-- A datagram is sealed with the cipher before it. -/
def SealedAfter (aes : Aes) (before : List (Nat × Incident μ)) (entry : Nat × Incident μ) : Prop :=
  ∀ emission, entry.2.emission = some emission → ∃ cipher, cipherOf before = some cipher ∧
    emission.datagram = datagramOf (aes cipher.key) cipher.nextEnc.encIv emission.payload

/-- All that the datagrams of a client rest on. -/
structure Ciphered {μ ω ε α : Type} (aes : Aes) (s : ClientParts μ ω ε α) : Prop where
  sealed : Each (SealedAfter aes) s.log
  current : ∀ cipher, cipherOf s.log = some cipher → s.audio.udp.cipher.Sends cipher
  silent : cipherOf s.log = none → s.timers.periodDue = none ∧ s.audio.pinger.connected = false ∧
    s.audio.pinger.lastAttempt.waiting = false

section Effects
variable {μ ω ε α : Type} {lib : Libraries μ ω ε} {s : ClientParts μ ω ε α}

/-- Incidents that no datagram or key is noted by. -/
theorem Ciphered.record (ciphered : Ciphered lib.aes s) {incident : Incident μ}
    (plain : incident.emission = none) (kept : ∀ before, incident.cipher before = before) :
    Ciphered lib.aes (s.record incident) := by
  have same : cipherOf (s.record incident).log = cipherOf s.log := by
    rw [ClientParts.record, cipherOf_concat, kept]
  refine ⟨ciphered.sealed.concat fun emission sent => ?_, ?_, ?_⟩
  · cases plain.symm.trans sent
  · rw [same]
    exact ciphered.current
  · rw [same]
    exact ciphered.silent

/-- A datagram that goes out under keys. -/
theorem Ciphered.emit (ciphered : Ciphered lib.aes s) {cipher : OcbAes}
    (current : cipherOf s.log = some cipher) (packet : List UInt8)
    {incident : List UInt8 → List UInt8 → Incident μ}
    (emission : ∀ datagram, (incident packet datagram).emission = some ⟨packet, datagram⟩)
    (next : ∀ datagram before, (incident packet datagram).cipher before = before.map OcbAes.nextEnc) :
    Ciphered lib.aes (s.emit lib.aes packet incident) := by
  obtain ⟨decIv, same⟩ := ciphered.current cipher current
  have after : cipherOf (s.emit lib.aes packet incident).log = some cipher.nextEnc := by
    change cipherOf (s.log ++ [_]) = _
    rw [cipherOf_concat, next, current]
    rfl
  refine ⟨ciphered.sealed.concat fun sent noted => ⟨cipher, current, ?_⟩, fun other found => ?_,
    fun none => absurd (after.symm.trans none) (Option.some_ne_none _)⟩
  · rw [← Option.some.inj ((emission _).symm.trans noted), ClientParts.nextDatagram, same]
    rfl
  · cases after.symm.trans found
    refine ⟨decIv, ?_⟩
    change s.audio.udp.cipher.nextEnc = _
    rw [same]
    rfl

theorem Ciphered.keyed (ciphered : Ciphered lib.aes s)
    (active : s.timers.periodDue ≠ none ∨ s.audio.pinger.connected = true ∨
      s.audio.pinger.lastAttempt.waiting = true) : ∃ cipher, cipherOf s.log = some cipher := by
  cases none : cipherOf s.log with
  | some cipher => exact ⟨cipher, rfl⟩
  | none =>
    obtain ⟨idle, unlinked, quiet⟩ := ciphered.silent none
    rcases active with due | linked | waiting
    · exact absurd idle due
    · cases unlinked.symm.trans linked
    · cases quiet.symm.trans waiting

theorem ciphered_speaks : ClientParts.Speaks lib (Ciphered (ω := ω) (ε := ε) (α := α) lib.aes) where
  supply ciphered := ciphered.record rfl fun _ => rfl
  tunnel ciphered _ _ := ciphered.record rfl fun _ => rfl
  datagram ciphered linked _ := by
    obtain ⟨cipher, current⟩ := ciphered.keyed (.inr (.inl linked))
    exact ciphered.emit current _ (fun _ => rfl) fun _ _ => rfl
  voice ciphered := ⟨ciphered.sealed, ciphered.current, ciphered.silent⟩

theorem ciphered_steady : ClientParts.Steady lib (fun _ _ => True) (Ciphered (ω := ω) (ε := ε) (α := α) lib.aes) where
  app ciphered := ⟨ciphered.sealed, ciphered.current, ciphered.silent⟩
  pingDue ciphered := ⟨ciphered.sealed, ciphered.current, ciphered.silent⟩
  control := by
    intro s message encoder _ ciphered _
    have stored : Ciphered lib.aes { s with encoder } :=
      ⟨ciphered.sealed, ciphered.current, ciphered.silent⟩
    exact stored.record rfl fun _ => rfl
  speak ciphered equipped run := ciphered_speaks.speak ciphered equipped run
  listen ciphered := ⟨ciphered.sealed, ciphered.current, ciphered.silent⟩
  pool ciphered := ⟨ciphered.sealed, ciphered.current, ciphered.silent⟩
  opened := by
    intro s ciphered
    refine ⟨ciphered.sealed, fun cipher current => ?_, ciphered.silent⟩
    obtain ⟨decIv, same⟩ := ciphered.current cipher current
    refine ⟨s.audio.udp.cipher.nextDec.decIv, ?_⟩
    change s.audio.udp.cipher.nextDec = _
    rw [same]
    rfl
  confirmed := by
    intro s ciphered waiting
    obtain ⟨cipher, current⟩ := ciphered.keyed (.inr (.inr waiting))
    have linked (pinger : UdpPing) : Ciphered lib.aes (s.setPing pinger) :=
      ⟨ciphered.sealed, ciphered.current,
        fun none => absurd (current.symm.trans none) (Option.some_ne_none _)⟩
    exact (linked _).record rfl fun _ => rfl
  rekeyed := by
    intro s key encIv decIv ivlen udp ciphered set
    have after : cipherOf (s.rekeyed udp).log = some udp.cipher := cipherOf_concat _ _
    refine ⟨ciphered.sealed.concat nofun, fun cipher current => ?_, fun none => ?_⟩
    · cases after.symm.trans current
      exact ⟨_, rfl⟩
    · exact absurd (after.symm.trans none) (Option.some_ne_none _)
  waited ciphered _ := ⟨ciphered.sealed, ciphered.current, ciphered.silent⟩
  attempted := by
    intro s time pingBuf packet ciphered due
    obtain ⟨cipher, current⟩ := ciphered.keyed (.inl (by rw [due]; exact Option.some_ne_none _))
    have begun : Ciphered lib.aes (s.attempting time pingBuf) :=
      ⟨ciphered.sealed, ciphered.current,
        fun none => absurd (current.symm.trans none) (Option.some_ne_none _)⟩
    exact begun.emit current packet (fun _ => rfl) fun _ _ => rfl
  timeout := by
    intro s ciphered _
    have lost (pinger : UdpPing) (unlinked : pinger.connected = false)
        (quiet : pinger.lastAttempt.waiting = false) : Ciphered lib.aes (s.setPing pinger) :=
      ⟨ciphered.sealed, ciphered.current, fun none => ⟨(ciphered.silent none).1, unlinked, quiet⟩⟩
    exact (lost _ rfl rfl).record rfl fun _ => rfl

end Effects

/-- No keys come in a part of a log. -/
def Keyless (log : List (Nat × Incident μ)) : Prop := ∀ entry ∈ log, ∀ cipher, entry.2 ≠ .keys cipher

theorem Keyless.front {log : List (Nat × Incident μ)} {entry : Nat × Incident μ}
    (keyless : Keyless (log ++ [entry])) : Keyless log ∧ ∀ cipher, entry.2 ≠ .keys cipher :=
  ⟨fun other member => keyless other (List.mem_append_left _ member),
    keyless entry (List.mem_append_right _ (List.mem_singleton_self _))⟩

/-- An entry without keys counts as one datagram or not at all. -/
theorem cipher_keyless {entry : Nat × Incident μ} (keyless : ∀ cipher, entry.2 ≠ .keys cipher)
    (before : Option OcbAes) :
    entry.2.cipher before = before.map OcbAes.nextEnc^[(emissions [entry]).length] := by
  obtain ⟨time, incident⟩ := entry
  cases incident with
  | keys cipher => exact absurd rfl (keyless cipher)
  | voice packet datagram => rfl
  | ping packet datagram => rfl
  | _ => exact (congrFun Option.map_id _).symm

theorem emissions_concat (log : List (Nat × Incident μ)) (entry : Nat × Incident μ) :
    emissions (log ++ [entry]) = emissions log ++ emissions [entry] := List.filterMap_append

theorem cipherOf_keyless {front since : List (Nat × Incident μ)} (keyless : Keyless since) :
    cipherOf (front ++ since) = (cipherOf front).map OcbAes.nextEnc^[(emissions since).length] := by
  induction since using List.reverseRecOn with
  | nil =>
    rw [List.append_nil]
    exact (congrFun Option.map_id _).symm
  | append_singleton since entry ih =>
    obtain ⟨earlier, last⟩ := keyless.front
    rw [← List.append_assoc, cipherOf_concat, cipher_keyless last, ih earlier, Option.map_map,
      ← Function.iterate_add, emissions_concat, List.length_append, Nat.add_comm]

theorem nextEnc_iterate (cipher : OcbAes) (n : Nat) :
    (OcbAes.nextEnc^[n] cipher) = { cipher with encIv := (incrementIv · cipher.ivlen)^[n] cipher.encIv } := by
  induction n with
  | zero => rfl
  | succ n ih =>
    rw [Function.iterate_succ_apply', ih, Function.iterate_succ_apply']
    rfl

/-- The IV of the datagram after `n` others. -/
def ivAfter (cipher : OcbAes) (n : Nat) : Block := (incrementIv · cipher.ivlen)^[n + 1] cipher.encIv

theorem nextEnc_turn (cipher : OcbAes) (n : Nat) : (OcbAes.nextEnc^[n] cipher).key = cipher.key ∧
    (OcbAes.nextEnc^[n] cipher).nextEnc.encIv = ivAfter cipher n := by
  rw [← Function.iterate_succ_apply' OcbAes.nextEnc, nextEnc_iterate, nextEnc_iterate]
  exact ⟨rfl, rfl⟩

/-- All datagrams are sealed in turn under the keys that have come last. -/
structure SealedInTurn (aes : Aes) (log : List (Nat × Incident μ)) : Prop where
  unkeyed : ∀ {front rest}, log = front ++ rest → Keyless front → emissions front = []
  keyed : ∀ {front start cipher since rest}, log = front ++ (start, .keys cipher) :: since ++ rest →
    Keyless since →
    List.Forall₂ (EncryptedUnder aes cipher) ((List.range (emissions since).length).map (ivAfter cipher))
      (emissions since)
  distinct : ∀ {front start cipher since rest},
    log = front ++ (start, .keys cipher) :: since ++ rest → Keyless since →
    (emissions since).length ≤ 256 ^ cipher.ivlen.toNat →
    ((List.range (emissions since).length).map (ivAfter cipher)).Nodup

section Turns
variable {aes : Aes} {log front since : List (Nat × Incident μ)} {start : Nat} {cipher : OcbAes}

theorem unkeyed_silent (each : Each (SealedAfter aes) front) (keyless : Keyless front) :
    emissions front = [] := by
  induction front using List.reverseRecOn with
  | nil => rfl
  | append_singleton front entry ih =>
    obtain ⟨earlier, -⟩ := keyless.front
    have before : cipherOf front = none := by
      have none := @cipherOf_keyless _ [] front earlier
      rwa [List.nil_append] at none
    rw [emissions_concat, ih each.front earlier, List.nil_append]
    cases sent : entry.2.emission with
    | none => exact List.filterMap_cons_none sent
    | some emission =>
      obtain ⟨cipher, found, -⟩ := each.last emission sent
      cases before.symm.trans found

theorem keyed_sealed (each : Each (SealedAfter aes) (front ++ (start, .keys cipher) :: since))
    (keyless : Keyless since) :
    List.Forall₂ (EncryptedUnder aes cipher) ((List.range (emissions since).length).map (ivAfter cipher))
      (emissions since) := by
  induction since using List.reverseRecOn with
  | nil => exact .nil
  | append_singleton since entry ih =>
    obtain ⟨earlier, last⟩ := keyless.front
    rw [← List.cons_append, ← List.append_assoc] at each
    have before : cipherOf (front ++ (start, .keys cipher) :: since) =
        some (OcbAes.nextEnc^[(emissions since).length] cipher) := by
      rw [List.append_cons, cipherOf_keyless earlier, cipherOf_concat]
      rfl
    rw [emissions_concat]
    cases sent : entry.2.emission with
    | none =>
      have nothing : emissions [entry] = [] := List.filterMap_cons_none sent
      rw [nothing, List.append_nil]
      exact ih each.front earlier
    | some emission =>
      have single : emissions [entry] = [emission] := List.filterMap_cons_some sent
      obtain ⟨current, found, same⟩ := each.last emission sent
      cases before.symm.trans found
      have encrypted : EncryptedUnder aes cipher (ivAfter cipher (emissions since).length) emission := by
        have sealing := encryptedUnder_datagramOf aes cipher
          (ivAfter cipher (emissions since).length) emission.payload
        obtain ⟨key, iv⟩ := nextEnc_turn cipher (emissions since).length
        rw [key, iv] at same
        rwa [← same] at sealing
      rw [single, List.length_append, List.length_singleton, List.range_succ, List.map_append]
      exact List.rel_append (ih each.front earlier) (.cons encrypted .nil)

theorem ivAfter_distinct (fits : n ≤ 256 ^ cipher.ivlen.toNat) :
    ((List.range n).map (ivAfter cipher)).Nodup := by
  refine List.Nodup.map_on (fun i small j small' same => ?_) List.nodup_range
  rw [List.mem_range] at small small'
  have turns := (iterate_incrementIv_eq_iff cipher.fits cipher.encIv (i + 1) (j + 1)).mp same
  exact Nat.ModEq.eq_of_lt_of_lt (Nat.ModEq.add_right_cancel' 1 turns) (small.trans_le fits)
    (small'.trans_le fits)

/-- In every run of a client, nothing is sent by UDP before the server has set keys,
and the datagrams between two settings, pings and voice together, are encrypted under
one IV after the other. Less than a full turn of the counter repeats none. -/
theorem client_datagrams {μ ω ε α : Type} (lib : Libraries μ ω ε) (application : Application μ α)
    {memory : ClientMemory ω ε α} {now : Nat} {client final : MumbleClient μ ω ε α}
    (init : mumbleClientInit memory now = .ok client) {events : List (Carrier × ClientEvent μ)}
    (run : client.Reaches lib application events final) : SealedInTurn lib.aes final.state.log := by
  have fresh := mumbleClientInit_fresh init
  have initially : Ciphered lib.aes client.state := by
    have empty := fresh.log
    refine ⟨empty ▸ .nil, fun cipher found => ?_, fun _ => ?_⟩
    · rw [empty] at found
      cases found
    · rw [fresh.timers, fresh.pinger]
      exact ⟨rfl, rfl, rfl⟩
  have sealed := (ciphered_steady.reaches (fresh.kept initially) fresh.spare run).holds.sealed
  refine ⟨?_, ?_, ?_⟩
  · rintro front rest split keyless
    exact unkeyed_silent (Each.front (split ▸ sealed)) keyless
  · rintro front start cipher since rest split keyless
    exact keyed_sealed (Each.front (split ▸ sealed)) keyless
  · intro front start cipher since rest _ _ fits
    exact ivAfter_distinct fits

end Turns

theorem client_datagrams_sample : ∃ client final, mumbleClientInit sampleMemory 0 = .ok client ∧
    client.Reaches sampleLibraries answeringApplication sampleEvents final ∧
    final.state.log.map (fun entry => entry.2.label) = ["keys", "ping", "confirmed", "spoke", "voice"] ∧
    SealedInTurn identityAes final.state.log := by
  obtain ⟨client, final, init, run, labels⟩ := sample_run
  exact ⟨client, final, init, run, labels, client_datagrams sampleLibraries answeringApplication init run⟩

end Mumble

import Mumble.ClientEffects
import Mumble.Lib.History

/-! Which way the voice of a client goes. It is sent by UDP as long as the last thing
known of the link is a reply, and that is never long ago. -/
namespace Mumble
open CExec History ClientParts

def Incident.link (incident : Incident μ) (before : Bool) : Bool :=
  match incident with
  | .confirmed => true
  | .lost => false
  | _ => before

/-- Whether the last that a log says about the link is a reply. -/
def linkOf (log : List (Nat × Incident μ)) : Bool :=
  log.foldl (fun before entry => entry.2.link before) false

def Incident.refreshes : Incident μ → Bool
  | .confirmed => true
  | .keys _ => true
  | _ => false

/-- The time of the last reply or, if it is later, of the last keys. -/
def refreshOf (log : List (Nat × Incident μ)) : Option Nat :=
  log.foldl (fun before entry => if entry.2.refreshes then some entry.1 else before) none

@[simp] theorem linkOf_concat (log : List (Nat × Incident μ)) (entry : Nat × Incident μ) :
    linkOf (log ++ [entry]) = entry.2.link (linkOf log) := by
  rw [linkOf, List.foldl_append]
  rfl

@[simp] theorem refreshOf_concat (log : List (Nat × Incident μ)) (entry : Nat × Incident μ) :
    refreshOf (log ++ [entry]) = if entry.2.refreshes then some entry.1 else refreshOf log := by
  rw [refreshOf, List.foldl_append]
  rfl

/-- The way that a packet has gone is the one that the log before it asks for. -/
def WentAfter (before : List (Nat × Incident μ)) (entry : Nat × Incident μ) : Prop :=
  match entry.2 with
  | .voice _ _ => linkOf before = true ∧ ∃ refresh, refreshOf before = some refresh ∧
      refresh ≤ entry.1 ∧ entry.1 ≤ refresh + 6000
  | .tunnel _ _ => linkOf before = false
  | _ => True

/-- The pinger of a client. A link that is confirmed has a ping due within a period of
the last refresh, or is waiting for the reply to one that was. -/
structure Timely {μ ω ε α : Type} (s : ClientParts μ ω ε α) : Prop where
  went : Each WentAfter s.log
  linked : linkOf s.log = s.audio.pinger.connected
  pingPeriod : s.timers.pingPeriod = 5000
  timeout : s.timers.timeout = 1000
  armed : s.audio.pinger.lastAttempt.waiting = s.audio.pinger.replyTimer
  idle : s.timers.periodDue = none →
    s.audio.pinger.lastAttempt.waiting = false ∧ s.audio.pinger.connected = false
  ahead : ∀ due, s.timers.periodDue = some due → s.now ≤ due ∧ due ≤ s.now + 5000
  replyAhead : s.audio.pinger.lastAttempt.waiting = true →
    s.now ≤ s.timers.replyDue ∧ s.timers.replyDue ≤ s.now + 1000
  fresh : s.audio.pinger.connected = true → ∃ refresh, refreshOf s.log = some refresh ∧
    refresh ≤ s.now ∧
      (s.audio.pinger.lastAttempt.waiting = false →
        ∀ due, s.timers.periodDue = some due → due ≤ refresh + 5000) ∧
      (s.audio.pinger.lastAttempt.waiting = true → s.timers.replyDue ≤ refresh + 6000 ∧
        ∀ due, s.timers.periodDue = some due → due ≤ refresh + 5000 ∨ s.timers.replyDue < due)

section Effects
variable {μ ω ε α : Type} {lib : Libraries μ ω ε} {s : ClientParts μ ω ε α}

/-- Nothing else of a client matters here. -/
theorem Timely.of_eq (timely : Timely s) {t : ClientParts μ ω ε α} (log : t.log = s.log)
    (now : t.now = s.now) (pinger : t.audio.pinger = s.audio.pinger) (timers : t.timers = s.timers) :
    Timely t := by
  constructor
  all_goals simp only [log, now, pinger, timers]
  · exact timely.went
  · exact timely.linked
  · exact timely.pingPeriod
  · exact timely.timeout
  · exact timely.armed
  · exact timely.idle
  · exact timely.ahead
  · exact timely.replyAhead
  · exact timely.fresh

/-- A link that is up has been refreshed within a period and a timeout. -/
theorem Timely.recent (timely : Timely s) (connected : s.audio.pinger.connected = true) :
    ∃ refresh, refreshOf s.log = some refresh ∧ refresh ≤ s.now ∧ s.now ≤ refresh + 6000 := by
  obtain ⟨refresh, last, past, quiet, waiting⟩ := timely.fresh connected
  refine ⟨refresh, last, past, ?_⟩
  cases state : s.audio.pinger.lastAttempt.waiting with
  | true =>
    have ahead := timely.replyAhead state
    have bound := (waiting state).1
    omega
  | false =>
    cases due : s.timers.periodDue with
    | none => cases (timely.idle due).2.symm.trans connected
    | some due' =>
      have ahead := timely.ahead due' due
      have bound := quiet state due' due
      omega

/-- What says nothing about the link. -/
theorem Timely.record (timely : Timely s) {incident : Incident μ} (link : ∀ before, incident.link before = before)
    (stale : incident.refreshes = false) (went : WentAfter s.log (s.now, incident)) :
    Timely (s.record incident) := by
  have same : linkOf (s.record incident).log = linkOf s.log := by
    rw [ClientParts.record, linkOf_concat, link]
  have last : refreshOf (s.record incident).log = refreshOf s.log := by
    rw [ClientParts.record, refreshOf_concat, if_neg (Bool.eq_false_iff.mp stale)]
  refine ⟨timely.went.concat went, same.trans timely.linked, timely.pingPeriod, timely.timeout,
    timely.armed, timely.idle, timely.ahead, timely.replyAhead, fun connected => ?_⟩
  rw [last]
  exact timely.fresh connected

theorem timely_speaks : Speaks lib (Timely (ω := ω) (ε := ε) (α := α)) where
  supply timely := timely.record (fun _ => rfl) rfl trivial
  tunnel timely unlinked _ := timely.record (fun _ => rfl) rfl (timely.linked.trans unlinked)
  datagram := by
    intro s packet timely connected _
    have went : WentAfter s.log (s.now, .voice packet (s.nextDatagram lib.aes packet)) :=
      ⟨timely.linked.trans connected, timely.recent connected⟩
    have stepped : Timely (s.setCipher s.audio.udp.cipher.nextEnc) := timely.of_eq rfl rfl rfl rfl
    exact stepped.record (fun _ => rfl) rfl went
  voice timely := timely.of_eq rfl rfl rfl rfl

theorem Timely.confirmed (timely : Timely s) (waiting : s.audio.pinger.lastAttempt.waiting = true) :
    Timely s.confirmed := by
  have link : linkOf s.confirmed.log = true := linkOf_concat _ _
  have refresh : refreshOf s.confirmed.log = some s.now := refreshOf_concat _ _
  refine ⟨timely.went.concat trivial, link, timely.pingPeriod, timely.timeout, rfl, fun none => ?_,
    timely.ahead, nofun, fun _ => ⟨s.now, refresh, Nat.le_refl _, fun _ due next => ?_, nofun⟩⟩
  · cases (timely.idle none).1.symm.trans waiting
  · exact (timely.ahead due next).2

theorem Timely.rekeyed (timely : Timely s) (udp : UdpSsl) : Timely (s.rekeyed udp) := by
  have link : linkOf (s.rekeyed udp).log = linkOf s.log := linkOf_concat _ _
  have refresh : refreshOf (s.rekeyed udp).log = some s.now := refreshOf_concat _ _
  have due' {due : Nat} (next : (s.rekeyed udp).timers.periodDue = some due) : due = s.now :=
    (Option.some.inj next).symm
  refine ⟨timely.went.concat trivial, link.trans timely.linked, timely.pingPeriod, timely.timeout,
    timely.armed, fun none => ?_, fun due next => ?_, timely.replyAhead,
    fun connected => ⟨s.now, refresh, Nat.le_refl _, fun _ due next => ?_, fun waiting => ⟨?_, ?_⟩⟩⟩
  · cases none
  · rw [due' next]
    exact ⟨Nat.le_refl _, Nat.le_add_right _ _⟩
  · rw [due' next]
    exact Nat.le_add_right _ _
  · exact (timely.replyAhead waiting).2.trans (Nat.add_le_add_left (by decide) _)
  · intro due next
    rw [due' next]
    exact .inl (Nat.le_add_right _ _)

theorem Timely.waited (timely : Timely s) {ms : Nat} (possible : s.Possible (.wait ms : ClientEvent μ)) :
    Timely { s with now := s.now + ms } := by
  have bounded : ∀ due ∈ s.pingDue.toList ++ s.pinger.deadlines, s.now + ms ≤ due := possible
  refine ⟨timely.went, timely.linked, timely.pingPeriod, timely.timeout, timely.armed, timely.idle,
    fun due next => ⟨?_, ?_⟩, fun waiting => ⟨?_, ?_⟩, fun connected => ?_⟩
  · apply bounded
    rw [Pinger.deadlines, show s.pinger.periodDue = some due from next]
    exact List.mem_append_right _ (List.mem_append_left _ (List.mem_singleton_self _))
  · have ahead := (timely.ahead due next).2
    dsimp only
    omega
  · apply bounded
    have active : s.pinger.replyTimer = true := timely.armed.symm.trans waiting
    rw [Pinger.deadlines, if_pos active]
    exact List.mem_append_right _ (List.mem_append_right _ (List.mem_singleton_self _))
  · have ahead := (timely.replyAhead waiting).2
    dsimp only
    omega
  · obtain ⟨refresh, last, past, rest⟩ := timely.fresh connected
    exact ⟨refresh, last, past.trans (Nat.le_add_right _ _), rest⟩

theorem Timely.attempting (timely : Timely s) (due : s.timers.periodDue = some s.now) (time : UInt64)
    (pingBuf : List UInt8) : Timely (s.attempting time pingBuf) := by
  have pingPeriod := timely.pingPeriod
  have timeout := timely.timeout
  have next : (s.attempting time pingBuf).timers.periodDue = some (s.now + 5000) := by
    rw [← pingPeriod]
    rfl
  have reply : (s.attempting time pingBuf).timers.replyDue = s.now + 1000 := by
    rw [← timeout]
    rfl
  refine ⟨timely.went, timely.linked, pingPeriod, timeout, rfl, fun none => ?_, fun due' armed => ?_,
    fun _ => ?_, fun connected => ?_⟩
  · cases next.symm.trans none
  · cases next.symm.trans armed
    exact ⟨Nat.le_add_right _ _, Nat.le_refl _⟩
  · rw [reply]
    exact ⟨Nat.le_add_right _ _, Nat.le_refl _⟩
  · obtain ⟨refresh, last, past, quiet, waiting⟩ := timely.fresh connected
    have recent : s.now ≤ refresh + 5000 := by
      cases state : s.audio.pinger.lastAttempt.waiting with
      | false => exact quiet state s.now due
      | true =>
        -- the timeout of the attempt before would have come first
        have ahead := (timely.replyAhead state).1
        rcases (waiting state).2 s.now due with recent | late
        · exact recent
        · omega
    refine ⟨refresh, last, past, nofun, fun _ => ⟨?_, fun due' armed => .inr ?_⟩⟩
    · rw [reply]
      omega
    · cases next.symm.trans armed
      rw [reply]
      omega

theorem Timely.lost (timely : Timely s) : Timely s.timeout := by
  have link : linkOf s.timeout.log = false := linkOf_concat _ _
  exact ⟨timely.went.concat trivial, link, timely.pingPeriod, timely.timeout, rfl,
    fun _ => ⟨rfl, rfl⟩, timely.ahead, nofun, nofun⟩

theorem timely_steady : Steady lib (fun _ _ => True) (Timely (ω := ω) (ε := ε) (α := α)) where
  app timely := timely.of_eq rfl rfl rfl rfl
  pingDue timely := timely.of_eq rfl rfl rfl rfl
  control := by
    intro s message encoder _ timely _
    have stored : Timely { s with encoder } := timely.of_eq rfl rfl rfl rfl
    exact stored.record (fun _ => rfl) rfl trivial
  speak timely equipped run := timely_speaks.speak timely equipped run
  listen timely := timely.of_eq rfl rfl rfl rfl
  pool timely := timely.of_eq rfl rfl rfl rfl
  opened timely := timely.of_eq rfl rfl rfl rfl
  confirmed timely waiting := timely.confirmed waiting
  rekeyed timely _ := timely.rekeyed _
  waited timely possible := timely.waited possible
  attempted := by
    intro s time pingBuf packet timely due
    have begun := timely.attempting due time pingBuf
    have stepped : Timely ((s.attempting time pingBuf).setCipher s.audio.udp.cipher.nextEnc) :=
      begun.of_eq rfl rfl rfl rfl
    exact stepped.record (fun _ => rfl) rfl trivial
  timeout timely _ := timely.lost

end Effects

/-- In every run, a voice packet goes by UDP if the last thing noted of the link is a
reply, and by the control connection if it is a timeout or nothing. A packet that goes
by UDP does so within six seconds of a reply or of new keys. -/
theorem client_voice_ways {μ ω ε α : Type} (lib : Libraries μ ω ε) (application : Application μ α)
    {memory : ClientMemory ω ε α} {now : Nat} {client final : MumbleClient μ ω ε α}
    (init : mumbleClientInit memory now = .ok client) {events : List (Carrier × ClientEvent μ)}
    (run : client.Reaches lib application events final) : Each WentAfter final.state.log := by
  have fresh := mumbleClientInit_fresh init
  have initially : Timely client.state := by
    constructor
    all_goals simp only [fresh.log, fresh.pinger, fresh.timers]
    · exact .nil
    · rfl
    · exact fun _ => ⟨trivial, trivial⟩
    · exact nofun
    · exact nofun
    · exact nofun
  exact (timely_steady.reaches (fresh.kept initially) fresh.spare run).holds.went

theorem client_voice_ways_sample : ∃ client final, mumbleClientInit sampleMemory 0 = .ok client ∧
    client.Reaches sampleLibraries answeringApplication sampleEvents final ∧
    final.state.log.map (fun entry => entry.2.label) = ["keys", "ping", "confirmed", "spoke", "voice"] ∧
    Each WentAfter final.state.log := by
  obtain ⟨client, final, init, run, labels⟩ := sample_run
  exact ⟨client, final, init, run, labels, client_voice_ways sampleLibraries answeringApplication init run⟩

end Mumble

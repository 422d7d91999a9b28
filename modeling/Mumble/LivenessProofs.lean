import Mumble.UdpPing
import Mumble.NetworkProofs
import Mumble.VarintProofs

/-! When the pinger says that the link is alive, a reply has confirmed it a short
time ago. -/
namespace Mumble
open CExec

def PingEvent.isStart : PingEvent → Bool
  | .start => true
  | _ => false

def PingEvent.isStop : PingEvent → Bool
  | .stop => true
  | _ => false

/-- One start and no stop. -/
structure StartedOnce (events : List PingEvent) : Prop where
  start : events.countP PingEvent.isStart ≤ 1
  unstopped : ∀ event ∈ events, event.isStop = false

theorem StartedOnce.front {events : List PingEvent} {event : PingEvent}
    (once : StartedOnce (events ++ [event])) : StartedOnce events := by
  refine ⟨?_, fun e member => once.unstopped e (List.mem_append_left _ member)⟩
  have count := once.start
  rw [List.countP_append] at count
  exact (Nat.le_add_right _ _).trans count

/-- A reply of the attempt that was outstanding is among the events, received at a
time that `when` holds of. -/
def ConfirmedWhen (aes : Aes) (initial : PingLoop) (events : List PingEvent) (when : Nat → Prop) :
    Prop :=
  ∃ front timestamp back moment, events = front ++ .reply timestamp :: back ∧
    initial.Reaches aes front moment ∧ moment.pinger.lastAttempt = ⟨timestamp, true⟩ ∧
    when moment.now

theorem ConfirmedWhen.next {aes : Aes} {initial : PingLoop} {events : List PingEvent}
    {earlier when : Nat → Prop} (confirmed : ConfirmedWhen aes initial events earlier)
    (event : PingEvent) (later : ∀ time, earlier time → when time) :
    ConfirmedWhen aes initial (events ++ [event]) when := by
  obtain ⟨front, timestamp, back, moment, split, run, outstanding, time⟩ := confirmed
  refine ⟨front, timestamp, back ++ [event], moment, ?_, run, outstanding, later _ time⟩
  rw [split, List.append_assoc, List.cons_append]

/-- The timers of a started pinger: while an attempt is outstanding the reply timer
expires before the next attempt, and no later than its timeout from now. -/
structure Timed (s : PingLoop) : Prop where
  armed : s.pinger.lastAttempt.waiting = s.pinger.replyTimer
  short : s.pinger.timeout < s.pinger.pingPeriod
  idle : s.pinger.periodDue = none →
    s.pinger.lastAttempt.waiting = false ∧ s.pinger.connected = false
  ahead : ∀ due, s.pinger.periodDue = some due → s.now ≤ due
  replyAhead : s.pinger.lastAttempt.waiting = true → s.now ≤ s.pinger.replyDue
  replyDue : s.pinger.lastAttempt.waiting = true → s.pinger.replyDue ≤ s.now + s.pinger.timeout
  apart : s.pinger.lastAttempt.waiting = true → ∀ due, s.pinger.periodDue = some due →
    s.pinger.replyDue + s.pinger.pingPeriod = due + s.pinger.timeout

/-- No attempt is outstanding when the next one is due. -/
theorem Timed.quiet {s : PingLoop} (timed : Timed s) (due : s.pinger.periodDue = some s.now) :
    s.pinger.lastAttempt.waiting = false := by
  by_contra waiting
  rw [Bool.not_eq_false] at waiting
  have apart := timed.apart waiting s.now due
  have ahead := timed.replyAhead waiting
  have short := timed.short
  omega

/-- All that a new attempt does to the pinger. Its clock reading has an encoding
that fits. -/
theorem periodTimerCb_eq {aes : Aes} {trySend : List UInt8 → Int} {now : Nat}
    {time timeAgain : UInt64} {pinger after : Pinger} {socket other : UdpSsl} {datagram : List UInt8}
    (run : periodTimerCb aes trySend now time timeAgain pinger socket = .ok (after, other, datagram)) :
    varintEncodeSize timeAgain ≤ pingBufSize - 2 ∧
      ∃ rest, rest.length = (pinger.pingBuf.drop 1).length ∧ after = { pinger with
        lastAttempt := ⟨time, true⟩
        replyTimer := true
        replyDue := now + pinger.timeout
        pingBuf := pinger.pingBuf.take 1 ++ rest } := by
  obtain ⟨⟨ret, rest, written⟩, encoded, run⟩ := bind_eq_ok.mp run
  obtain ⟨_, encodes, run⟩ := bind_eq_ok.mp run
  obtain ⟨-, -, run⟩ := bind_eq_ok.mp run
  obtain ⟨⟨_, _⟩, -, ended⟩ := bind_eq_ok.mp run
  cases ended
  obtain ⟨kept, fits⟩ := varintEncode_eq_ok encoded
  exact ⟨fits (require_eq_ok.mp encodes), rest, kept, rfl⟩

/-- The pinger once an attempt of `s` has begun. -/
def PingLoop.attempted (s : PingLoop) (time : UInt64) (pingBuf : List UInt8) : Pinger :=
  { s.pinger with
    periodDue := some (s.now + s.pinger.pingPeriod)
    lastAttempt := ⟨time, true⟩
    replyTimer := true
    replyDue := s.now + s.pinger.timeout
    pingBuf }

/-- All that an attempt does to the loop. -/
theorem period_step {aes : Aes} {s t : PingLoop} {time timeAgain : UInt64}
    {trySend : List UInt8 → Int} (run : s.step aes (.period time timeAgain trySend) = .ok t) :
    ∃ socket rest, rest.length = (s.pinger.pingBuf.drop 1).length ∧
      t = ⟨s.now, s.attempted time (s.pinger.pingBuf.take 1 ++ rest), socket⟩ := by
  obtain ⟨⟨pinger, socket, datagram⟩, called, ended⟩ := bind_eq_ok.mp run
  obtain ⟨-, rest, length, rfl⟩ := periodTimerCb_eq called
  cases ended
  exact ⟨_, rest, length, rfl⟩

section Steps
variable {aes : Aes} {initial s t : PingLoop} {events : List PingEvent} {event : PingEvent}

theorem Timed.step (timed : Timed s) (possible : s.Possible event)
    (first : event.isStart = true → s.pinger.periodDue = none) (going : event.isStop = false)
    (run : s.step aes event = .ok t) : Timed t := by
  cases event with
  | start =>
    cases run
    obtain ⟨quiet, unconfirmed⟩ := timed.idle (first rfl)
    refine ⟨timed.armed, timed.short, fun none => ?_, ?_, timed.replyAhead, timed.replyDue, ?_⟩
    · cases none
    · intro due now
      cases now
      exact Nat.le_refl _
    · intro waiting
      cases quiet.symm.trans waiting
  | stop => cases going
  | reply timestamp =>
    cases run
    simp only [mumbleUdpPingRecv]
    split
    next waiting =>
      split
      · refine ⟨rfl, timed.short, fun none => ?_, timed.ahead, ?_, ?_, ?_⟩
        · obtain ⟨quiet, -⟩ := timed.idle none
          cases quiet.symm.trans waiting
        all_goals
          intro again
          cases again
      · exact timed
    next => exact timed
  | wait ms =>
    cases run
    have bounded : ∀ due ∈ s.pinger.deadlines, s.now + ms ≤ due := possible
    refine ⟨timed.armed, timed.short, timed.idle, ?_, ?_, ?_, timed.apart⟩
    · intro due next
      apply bounded
      rw [Pinger.deadlines, show s.pinger.periodDue = some due from next]
      exact List.mem_append_left _ (List.mem_singleton_self _)
    · intro waiting
      apply bounded
      rw [Pinger.deadlines, if_pos (timed.armed.symm.trans waiting)]
      exact List.mem_append_right _ (List.mem_singleton_self _)
    · intro waiting
      have bound := timed.replyDue waiting
      dsimp only
      omega
  | period time timeAgain trySend =>
    obtain ⟨socket, rest, -, rfl⟩ := period_step run
    refine ⟨rfl, timed.short, fun none => ?_, ?_, ?_, ?_, ?_⟩
    · cases none
    · intro due next
      cases next
      exact Nat.le_add_right _ _
    · intro _
      exact Nat.le_add_right _ _
    · intro _
      exact Nat.le_refl _
    · intro _ due next
      cases next
      dsimp only [PingLoop.attempted]
      omega
  | timeout =>
    cases run
    refine ⟨rfl, timed.short, fun _ => ⟨rfl, rfl⟩, timed.ahead, ?_, ?_, ?_⟩
    all_goals
      intro waiting
      cases waiting

/-- The reply that the pinger relies on is of the current attempt or, while one is
outstanding, of the one before. -/
def Confirmed (aes : Aes) (initial : PingLoop) (events : List PingEvent) (s : PingLoop) : Prop :=
  s.pinger.connected = true → ConfirmedWhen aes initial events fun time =>
    time ≤ s.now ∧ ∀ due, s.pinger.periodDue = some due →
      due ≤ time + s.pinger.pingPeriod + if s.pinger.lastAttempt.waiting then s.pinger.pingPeriod else 0

theorem Confirmed.step (timed : Timed s) (front : initial.Reaches aes events s)
    (confirmed : Confirmed aes initial events s) (possible : s.Possible event)
    (first : event.isStart = true → s.pinger.periodDue = none) (going : event.isStop = false)
    (run : s.step aes event = .ok t) : Confirmed aes initial (events ++ [event]) t := by
  intro connected
  cases event with
  | start =>
    cases run
    obtain ⟨-, unconfirmed⟩ := timed.idle (first rfl)
    cases unconfirmed.symm.trans connected
  | stop => cases going
  | reply timestamp =>
    cases run
    simp only [mumbleUdpPingRecv] at connected ⊢
    split at connected
    next waiting =>
      rw [if_pos waiting]
      split at connected
      next same =>
        rw [if_pos same]
        refine ⟨events, timestamp, [], s, rfl, front, ?_, Nat.le_refl _, ?_⟩
        · rw [same, ← waiting]
        · intro due next
          have apart := timed.apart waiting due next
          have replyDue := timed.replyDue waiting
          have short := timed.short
          simp only [Bool.false_eq_true, if_false]
          omega
      next other =>
        rw [if_neg other]
        exact (confirmed connected).next _ fun _ kept => kept
    next quiet =>
      rw [if_neg quiet]
      exact (confirmed connected).next _ fun _ kept => kept
  | wait ms =>
    cases run
    exact (confirmed connected).next _ fun time kept => ⟨kept.1.trans (Nat.le_add_right _ _), kept.2⟩
  | period time timeAgain trySend =>
    obtain ⟨socket, rest, -, rfl⟩ := period_step run
    have due : s.pinger.periodDue = some s.now := possible
    have quiet := timed.quiet due
    refine (confirmed connected).next _ fun time kept => ⟨kept.1, ?_⟩
    intro next armed
    cases armed
    have reached := kept.2 s.now due
    rw [quiet] at reached
    simp only [PingLoop.attempted, Bool.false_eq_true, if_false, if_true] at reached ⊢
    omega
  | timeout =>
    cases run
    cases connected

end Steps

/-- A run that has not been started has no deadline for the next attempt. -/
def Counted (events : List PingEvent) (s : PingLoop) : Prop :=
  s.pinger.periodDue ≠ none → 1 ≤ events.countP PingEvent.isStart

theorem Counted.step {aes : Aes} {events : List PingEvent} {event : PingEvent} {s t : PingLoop}
    (counted : Counted events s) (going : event.isStop = false) (possible : s.Possible event)
    (run : s.step aes event = .ok t) : Counted (events ++ [event]) t := by
  intro due
  rw [List.countP_append]
  cases event with
  | start => exact Nat.le_add_left _ _
  | stop => cases going
  | reply timestamp =>
    cases run
    exact (counted due).trans (Nat.le_add_right _ _)
  | wait ms =>
    cases run
    exact (counted due).trans (Nat.le_add_right _ _)
  | period time timeAgain trySend =>
    have armed : s.pinger.periodDue = some s.now := possible
    refine (counted ?_).trans (Nat.le_add_right _ _)
    rw [armed]
    exact Option.some_ne_none _
  | timeout =>
    cases run
    exact (counted due).trans (Nat.le_add_right _ _)

theorem mumbleUdpPingInitEx_ok {timeout pingPeriod : Int} {pinger : Pinger}
    (init : mumbleUdpPingInitEx timeout pingPeriod = .ok pinger) :
    0 < timeout ∧ timeout < pingPeriod ∧ pinger = {
      connected := false, lastAttempt := ⟨0, false⟩, replyTimer := false, periodDue := none,
      replyDue := 0, pingPeriod := pingPeriod.toNat, timeout := timeout.toNat,
      pingBuf := 0x20 :: List.replicate (pingBufSize - 1) 0 } := by
  obtain ⟨_, positive, init⟩ := bind_eq_ok.mp init
  obtain ⟨_, shorter, ended⟩ := bind_eq_ok.mp init
  exact ⟨require_eq_ok.mp positive, require_eq_ok.mp shorter, (Except.ok.inj ended).symm⟩

section Runs
variable {aes : Aes} {timeout pingPeriod : Int} {pinger : Pinger} {now : Nat} {socket : UdpSsl}
  {events : List PingEvent} {final : PingLoop}

/-- All that holds in a run so far. -/
structure Lively (aes : Aes) (initial : PingLoop) (events : List PingEvent) (s : PingLoop) :
    Prop where
  timed : Timed s
  counted : Counted events s
  confirmed : Confirmed aes initial events s
  pingPeriod : s.pinger.pingPeriod = initial.pinger.pingPeriod
  timeout : s.pinger.timeout = initial.pinger.timeout

theorem intervals_step {s t : PingLoop} {event : PingEvent} (run : s.step aes event = .ok t) :
    t.pinger.pingPeriod = s.pinger.pingPeriod ∧ t.pinger.timeout = s.pinger.timeout := by
  cases event with
  | period time timeAgain trySend =>
    obtain ⟨socket, rest, -, rfl⟩ := period_step run
    exact ⟨rfl, rfl⟩
  | _ =>
    cases run
    exact ⟨rfl, rfl⟩

theorem reaches_lively (init : mumbleUdpPingInitEx timeout pingPeriod = .ok pinger)
    (once : StartedOnce events) (run : PingLoop.Reaches aes ⟨now, pinger, socket⟩ events final) :
    Lively aes ⟨now, pinger, socket⟩ events final := by
  obtain ⟨positive, shorter, rfl⟩ := mumbleUdpPingInitEx_ok init
  refine run.invariant (fun events s => StartedOnce events → Lively aes _ events s)
    ?_ ?_ once
  · intro _
    refine ⟨⟨rfl, ?_, fun _ => ⟨rfl, rfl⟩, ?_, ?_, ?_, ?_⟩, ?_, ?_, rfl, rfl⟩
    · dsimp only
      omega
    · intro due armed
      cases armed
    · intro waiting
      cases waiting
    · intro waiting
      cases waiting
    · intro waiting
      cases waiting
    · intro due
      exact absurd rfl due
    · intro connected
      cases connected
  · intro events s event t front step ih once
    obtain ⟨possible, run⟩ := step
    have before := ih once.front
    have going := once.unstopped event (List.mem_append_right _ (List.mem_singleton_self _))
    have first : event.isStart = true → s.pinger.periodDue = none := by
      intro starts
      have count := once.start
      rw [List.countP_append, List.countP_singleton, if_pos starts] at count
      by_contra due
      have earlier := before.counted due
      omega
    obtain ⟨samePeriod, sameTimeout⟩ := intervals_step run
    exact ⟨before.timed.step possible first going run, before.counted.step going possible run,
      before.confirmed.step before.timed front possible first going run,
      samePeriod.trans before.pingPeriod, sameTimeout.trans before.timeout⟩

/-- The liveness that the pinger reports is never stale: in every state of every run
the reply timer is armed exactly while an attempt is outstanding, none is when the
next one begins, and a connection has been confirmed within the last period and
timeout by a reply to the attempt outstanding at that time. -/
theorem liveness_fresh (init : mumbleUdpPingInitEx timeout pingPeriod = .ok pinger)
    (once : StartedOnce events) (run : PingLoop.Reaches aes ⟨now, pinger, socket⟩ events final) :
    (final.pinger.lastAttempt.waiting = true ↔ final.pinger.replyTimer = true) ∧
      (final.pinger.periodDue = some final.now → final.pinger.lastAttempt.waiting = false) ∧
      (final.pinger.connected = true →
        ConfirmedWhen aes ⟨now, pinger, socket⟩ events fun time =>
          time ≤ final.now ∧ (final.now : Int) ≤ time + (pingPeriod + timeout)) := by
  have lively := reaches_lively init once run
  obtain ⟨positive, shorter, rfl⟩ := mumbleUdpPingInitEx_ok init
  refine ⟨Bool.eq_iff_iff.mp lively.timed.armed, lively.timed.quiet, fun connected => ?_⟩
  obtain ⟨front, timestamp, back, moment, split, reached, outstanding, past, recent⟩ :=
    lively.confirmed connected
  refine ⟨front, timestamp, back, moment, split, reached, outstanding, past, ?_⟩
  have period := lively.pingPeriod
  have timeout := lively.timeout
  dsimp only at period timeout
  cases armed : final.pinger.periodDue with
  | none =>
    obtain ⟨-, unconfirmed⟩ := lively.timed.idle armed
    cases unconfirmed.symm.trans connected
  | some due =>
    have bound := recent due armed
    have ahead := lively.timed.ahead due armed
    split at bound
    next waiting =>
      have apart := lively.timed.apart waiting due armed
      have replyAhead := lively.timed.replyAhead waiting
      omega
    next quiet => omega

end Runs

/-- The pinger with the default intervals. -/
def samplePinger : Pinger where
  connected := false
  lastAttempt := ⟨0, false⟩
  replyTimer := false
  periodDue := none
  replyDue := 0
  pingPeriod := 5000
  timeout := 1000
  pingBuf := [0x20, 0, 0, 0, 0, 0, 0, 0]

/-- After the first ping, sent in the first millisecond. -/
def sampleAttempt : PingLoop where
  now := 0
  pinger := { samplePinger with
    lastAttempt := ⟨7, true⟩
    replyTimer := true
    periodDue := some 5000
    replyDue := 1000
    pingBuf := [0x20, 7, 0, 0, 0, 0, 0, 0] }
  socket := { sampleConn [1] with cipher := (sampleConn [1]).cipher.nextEnc }

theorem sampleAttempt_reached : PingLoop.Reaches identityAes ⟨0, samplePinger, sampleConn [1]⟩
    [.start, .period 7 7 accept] sampleAttempt := by
  have started : PingLoop.Reaches identityAes ⟨0, samplePinger, sampleConn [1]⟩ [.start] _ :=
    .single ⟨trivial, rfl⟩
  exact started.next ⟨rfl, by decide +kernel⟩

def sampleAlive : PingLoop where
  now := 0
  pinger := { sampleAttempt.pinger with
    connected := true
    lastAttempt := ⟨7, false⟩
    replyTimer := false }
  socket := sampleAttempt.socket

theorem liveness_fresh_sample :
    (sampleAlive.pinger.lastAttempt.waiting = true ↔ sampleAlive.pinger.replyTimer = true) ∧
      (sampleAlive.pinger.periodDue = some sampleAlive.now →
        sampleAlive.pinger.lastAttempt.waiting = false) ∧
      (sampleAlive.pinger.connected = true → ConfirmedWhen identityAes
        ⟨0, samplePinger, sampleConn [1]⟩ [.start, .period 7 7 accept, .reply 7]
        fun time => time ≤ sampleAlive.now ∧ (sampleAlive.now : Int) ≤ time + (5000 + 1000)) := by
  have alive : PingLoop.Reaches identityAes ⟨0, samplePinger, sampleConn [1]⟩
      [.start, .period 7 7 accept, .reply 7] sampleAlive :=
    sampleAttempt_reached.next ⟨trivial, rfl⟩
  exact liveness_fresh (show mumbleUdpPingInitEx 1000 5000 = .ok samplePinger by decide)
    ⟨by decide, by simp [PingEvent.isStop]⟩ alive

end Mumble

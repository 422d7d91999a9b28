import Mumble.LivenessProofs
import Mumble.PacketParts

/-! What a reply does to the pinger when it comes after a stop, with the next
attempt, or as the echo of the last ping. -/
namespace Mumble
open CExec Transition

theorem recv_confirms {ping : UdpPing} (waiting : ping.lastAttempt.waiting = true) :
    (mumbleUdpPingRecv ping ping.lastAttempt.timestamp).connected = true ∧
      (mumbleUdpPingRecv ping ping.lastAttempt.timestamp).lastAttempt.waiting = false := by
  rw [mumbleUdpPingRecv, if_pos waiting, if_pos rfl]
  exact ⟨rfl, rfl⟩

/-- Only the reply to the outstanding attempt does anything. -/
theorem recv_ignored_iff {ping : UdpPing} {timestamp : UInt64} :
    mumbleUdpPingRecv ping timestamp = ping ↔
      (ping.lastAttempt.waiting = true → timestamp ≠ ping.lastAttempt.timestamp) := by
  constructor
  · rintro ignored waiting rfl
    have confirmed := (recv_confirms waiting).2
    rw [ignored, waiting] at confirmed
    cases confirmed
  · intro other
    unfold mumbleUdpPingRecv
    split
    next waiting => rw [if_neg (other waiting)]
    next => rfl

section Stop
variable {aes : Aes} {stopped final : PingLoop} {events : List PingEvent}

/-- Not connected, and no timer armed. -/
structure Stopped (pinger : Pinger) : Prop where
  connected : pinger.connected = false
  periodTimer : pinger.periodDue = none
  replyTimer : pinger.replyTimer = false

/-- The pinger is stopped in every state of the run. -/
def StaysStopped (aes : Aes) (stopped : PingLoop) (events : List PingEvent) : Prop :=
  ∀ front back moment, events = front ++ back → stopped.Reaches aes front moment →
    Stopped moment.pinger

/-- Without timers a run has no attempts, and what a stop leaves outstanding stays so. -/
theorem stopped_of_unanswered (initially : Stopped stopped.pinger)
    (run : stopped.Reaches aes events final)
    (unstarted : ∀ event ∈ events, event.isStart = false)
    (unanswered : stopped.pinger.lastAttempt.waiting = true →
      .reply stopped.pinger.lastAttempt.timestamp ∉ events) :
    Stopped final.pinger ∧ final.pinger.lastAttempt = stopped.pinger.lastAttempt := by
  refine run.invariant (fun events s => (∀ event ∈ events, event.isStart = false) →
    (stopped.pinger.lastAttempt.waiting = true →
      .reply stopped.pinger.lastAttempt.timestamp ∉ events) →
    Stopped s.pinger ∧ s.pinger.lastAttempt = stopped.pinger.lastAttempt)
    (fun _ _ => ⟨initially, rfl⟩) ?_ unstarted unanswered
  intro events s event t _ step ih unstarted unanswered
  obtain ⟨possible, run⟩ := step
  have here : event ∈ events ++ [event] := List.mem_append_right _ (List.mem_singleton_self _)
  obtain ⟨off, same⟩ := ih (fun e member => unstarted e (List.mem_append_left _ member))
    fun waiting member => unanswered waiting (List.mem_append_left _ member)
  cases event with
  | start => cases unstarted _ here
  | stop =>
    cases run
    exact ⟨⟨rfl, rfl, rfl⟩, same⟩
  | reply timestamp =>
    cases run
    have ignored : mumbleUdpPingRecv s.pinger.toUdpPing timestamp = s.pinger.toUdpPing := by
      refine recv_ignored_iff.mpr fun waiting answers => ?_
      rw [same] at waiting answers
      exact unanswered waiting (answers ▸ here)
    rw [ignored]
    exact ⟨off, same⟩
  | wait ms =>
    cases run
    exact ⟨off, same⟩
  | period time timeAgain trySend =>
    have armed : s.pinger.periodDue = some s.now := possible
    cases off.periodTimer.symm.trans armed
  | timeout =>
    obtain ⟨armed, -⟩ := possible
    cases off.replyTimer.symm.trans armed

/-- A stopped pinger stays stopped until it is started again, in all of a run,
exactly when the run does not bring the reply to an attempt that was outstanding
at the stop, which does not end the attempt. -/
theorem stop_disconnects_iff {s : PingLoop} (stop : s.step aes .stop = .ok stopped)
    (unstarted : ∀ event ∈ events, event.isStart = false)
    (run : stopped.Reaches aes events final) :
    StaysStopped aes stopped events ↔
      ¬ (s.pinger.lastAttempt.waiting = true ∧ .reply s.pinger.lastAttempt.timestamp ∈ events) := by
  cases stop
  constructor
  · rintro stays ⟨waiting, member⟩
    obtain ⟨front, back, split, first⟩ := List.eq_append_cons_of_mem member
    subst split
    obtain ⟨moment, before, rest⟩ := run.split
    obtain ⟨answered, ⟨possible, reply⟩, -⟩ := rest.uncons
    have same := (stopped_of_unanswered ⟨rfl, rfl, rfl⟩ before
      (fun event member => unstarted event (List.mem_append_left _ member)) fun _ => first).2
    -- the first such reply finds the attempt as the stop has left it
    have off := stays _ back answered (List.append_cons _ _ _) (before.next ⟨possible, reply⟩)
    cases reply
    have outstanding : moment.pinger.lastAttempt = s.pinger.lastAttempt := same
    have confirmed := (recv_confirms (outstanding ▸ waiting)).1
    rw [outstanding] at confirmed
    cases off.connected.symm.trans confirmed
  · intro unanswered front back moment split before
    subst split
    refine (stopped_of_unanswered ⟨rfl, rfl, rfl⟩ before
      (fun event member => unstarted event (List.mem_append_left _ member)) ?_).1
    intro waiting member
    exact unanswered ⟨waiting, List.mem_append_left _ member⟩

end Stop

def sampleStopped : PingLoop := { sampleAttempt with pinger := mumbleUdpPingStop sampleAttempt.pinger }

theorem stop_disconnects_sample :
    StaysStopped identityAes sampleStopped [.reply 8] ↔
      ¬ (sampleAttempt.pinger.lastAttempt.waiting = true ∧
        PingEvent.reply sampleAttempt.pinger.lastAttempt.timestamp ∈ [PingEvent.reply 8]) :=
  stop_disconnects_iff rfl (by decide) (Reaches.single ⟨trivial, rfl⟩)

/-- The reply to a ping that was on its way when the pinger was stopped connects it again. -/
theorem stop_answered :
    PingLoop.Reaches identityAes ⟨0, samplePinger, sampleConn [1]⟩ [.start, .period 7 7 accept]
        sampleAttempt ∧
      sampleAttempt.step identityAes .stop = .ok sampleStopped ∧
      ¬ StaysStopped identityAes sampleStopped [.reply 7] := by
  refine ⟨sampleAttempt_reached, rfl, fun stays => ?_⟩
  have answered := stays [.reply 7] [] _ rfl (Reaches.single ⟨trivial, rfl⟩)
  cases answered.connected

section Late
variable {aes : Aes} {initial : PingLoop} {events : List PingEvent}

/-- The two readings of the wall clock by an attempt, of which the first is kept
and the second is sent. -/
def PingEvent.readings : PingEvent → Option (UInt64 × UInt64)
  | .period time timeAgain _ => some (time, timeAgain)
  | _ => none

def attemptsOf (events : List PingEvent) : List (UInt64 × UInt64) :=
  events.filterMap PingEvent.readings

/-- The wall clock never goes back. -/
def ClockOrdered (events : List PingEvent) : Prop :=
  ((attemptsOf events).flatMap fun attempt => [attempt.1, attempt.2]).Pairwise (· ≤ ·)

instance (events : List PingEvent) : Decidable (ClockOrdered events) :=
  inferInstanceAs (Decidable (List.Pairwise _ _))

/-- Wherever an attempt is outstanding in the run, a reply with the timestamp sent
by an earlier one changes nothing. -/
def LateIgnored (aes : Aes) (initial : PingLoop) (events : List PingEvent) : Prop :=
  ∀ front back moment, events = front ++ back → initial.Reaches aes front moment →
    moment.pinger.lastAttempt.waiting = true → ∀ earlier ∈ (attemptsOf front).dropLast,
      mumbleUdpPingRecv moment.pinger.toUdpPing earlier.2 = moment.pinger.toUdpPing

/-- The outstanding attempt is the last one. -/
def Outstanding (events : List PingEvent) (s : PingLoop) : Prop :=
  s.pinger.lastAttempt.waiting = true → ∃ earlier timeAgain,
    attemptsOf events = earlier ++ [(s.pinger.lastAttempt.timestamp, timeAgain)]

theorem attemptsOf_append (front back : List PingEvent) :
    attemptsOf (front ++ back) = attemptsOf front ++ attemptsOf back := List.filterMap_append

theorem attemptsOf_other {event : PingEvent} (other : event.readings = none) (events : List PingEvent) :
    attemptsOf (events ++ [event]) = attemptsOf events := by
  rw [attemptsOf_append, attemptsOf, attemptsOf, List.filterMap_cons, other, List.filterMap_nil,
    List.append_nil]

theorem Outstanding.step {event : PingEvent} {s t : PingLoop} (outstanding : Outstanding events s)
    (run : s.step aes event = .ok t) : Outstanding (events ++ [event]) t := by
  intro waiting
  cases event with
  | period time timeAgain trySend =>
    obtain ⟨socket, rest, -, rfl⟩ := period_step run
    exact ⟨attemptsOf events, timeAgain, attemptsOf_append _ _⟩
  | reply timestamp =>
    cases run
    rw [attemptsOf_other rfl]
    by_cases answers : s.pinger.lastAttempt.waiting = true ∧ timestamp = s.pinger.lastAttempt.timestamp
    · obtain ⟨earlier, rfl⟩ := answers
      cases (recv_confirms earlier).2.symm.trans waiting
    · have ignored : mumbleUdpPingRecv s.pinger.toUdpPing timestamp = s.pinger.toUdpPing :=
        recv_ignored_iff.mpr fun waiting same => answers ⟨waiting, same⟩
      rw [ignored] at waiting ⊢
      exact outstanding waiting
  | timeout =>
    cases run
    cases waiting
  | _ =>
    cases run
    rw [attemptsOf_other rfl]
    exact outstanding waiting

/-- A clock that goes on between each attempt and the next does so between any two. -/
theorem attempts_apart {attempts : List (UInt64 × UInt64)}
    (ordered : (attempts.flatMap fun attempt => [attempt.1, attempt.2]).Pairwise (· ≤ ·))
    (moves : attempts.IsChain fun earlier later => earlier.2 < later.1) :
    attempts.Pairwise fun earlier later => earlier.2 < later.1 := by
  induction attempts with
  | nil => exact .nil
  | cons first rest ih =>
    rw [List.flatMap_cons, List.pairwise_append] at ordered
    have apart := ih ordered.2.1 moves.tail
    refine .cons ?_ apart
    cases rest with
    | nil => exact fun _ member => absurd member List.not_mem_nil
    | cons second rest =>
      have next := (List.isChain_cons_cons.mp moves).1
      have within : second.1 ≤ second.2 := (List.pairwise_cons.mp ordered.2.1).1 _ List.mem_cons_self
      intro later member
      rcases List.mem_cons.mp member with rfl | member
      · exact next
      · exact UInt64.lt_trans (UInt64.lt_of_lt_of_le next within) ((List.pairwise_cons.mp apart).1 _ member)

theorem ClockOrdered.front {event : PingEvent} (ordered : ClockOrdered (events ++ [event])) :
    ClockOrdered events := by
  rw [ClockOrdered, attemptsOf_append, List.flatMap_append, List.pairwise_append] at ordered
  exact ordered.1

/-- An attempt that no earlier reply answers begins later than the last reading before it. -/
theorem attempt_apart {s t : PingLoop} {time timeAgain : UInt64} {trySend : List UInt8 → Int}
    (ordered : ClockOrdered (events ++ [.period time timeAgain trySend]))
    (run : s.step aes (.period time timeAgain trySend) = .ok t)
    (ignored : ∀ earlier ∈ attemptsOf events,
      mumbleUdpPingRecv t.pinger.toUdpPing earlier.2 = t.pinger.toUdpPing) :
    ∀ earlier ∈ attemptsOf events, earlier.2 < time := by
  intro earlier member
  rw [ClockOrdered, attemptsOf_append, List.flatMap_append, List.pairwise_append] at ordered
  have reading : earlier.2 ∈ (attemptsOf events).flatMap fun attempt => [attempt.1, attempt.2] :=
    List.mem_flatMap.mpr ⟨earlier, member, List.mem_cons_of_mem _ (List.mem_singleton_self _)⟩
  have reached := ordered.2.2 _ reading time List.mem_cons_self
  have late := ignored earlier member
  obtain ⟨socket, rest, -, rfl⟩ := period_step run
  exact UInt64.lt_of_le_of_ne reached (recv_ignored_iff.mp late rfl)

/-- No reply is late exactly when no attempt begins within the second of an earlier one. -/
theorem late_ignored_apart (initially : Outstanding [] initial)
    (run : initial.Reaches aes events final) (ordered : ClockOrdered events) :
    LateIgnored aes initial events ↔
      (attemptsOf events).Pairwise fun earlier later => earlier.2 < later.1 := by
  constructor
  · refine run.invariant (fun events _ => ClockOrdered events → LateIgnored aes initial events →
      (attemptsOf events).Pairwise fun earlier later => earlier.2 < later.1) ?_ ?_ ordered
    · exact fun _ _ => .nil
    · intro events s event t front step ih ordered ignored
      have before := ih ordered.front fun first back moment split =>
        ignored first (back ++ [event]) moment (by rw [split, List.append_assoc])
      cases event with
      | period time timeAgain trySend =>
        -- the new attempt is outstanding, and the others are all earlier ones
        have waiting : t.pinger.lastAttempt.waiting = true := by
          obtain ⟨socket, rest, -, rfl⟩ := period_step step.2
          rfl
        have late := ignored _ [] _ (List.append_nil _).symm (front.next step) waiting
        have last : attemptsOf [.period time timeAgain trySend] = [(time, timeAgain)] := rfl
        rw [attemptsOf_append, last, List.dropLast_concat] at late
        have apart := attempt_apart ordered step.2 late
        rw [attemptsOf_append, last, List.pairwise_append]
        refine ⟨before, List.pairwise_singleton _ _, fun earlier member later new => ?_⟩
        rw [List.mem_singleton.mp new]
        exact apart earlier member
      | _ =>
        rw [attemptsOf_other rfl]
        exact before
  · rintro apart front back moment rfl reached waiting earlier member
    have last : Outstanding front moment :=
      reached.invariant Outstanding initially fun _ step outstanding => outstanding.step step.2
    obtain ⟨others, timeAgain, split⟩ := last waiting
    rw [split, List.dropLast_concat] at member
    rw [attemptsOf_append, split, List.pairwise_append, List.pairwise_append] at apart
    have before := apart.1.2.2 earlier member _ (List.mem_singleton_self _)
    exact recv_ignored_iff.mpr fun _ same => UInt64.ne_of_lt before same

/-- In a run with a clock in order, every late reply is ignored exactly when the
clock has gone on whenever an attempt follows another. -/
theorem late_reply_ignored_iff {timeout pingPeriod : Int} {pinger : Pinger} {now : Nat}
    {socket : UdpSsl} (init : mumbleUdpPingInitEx timeout pingPeriod = .ok pinger)
    (run : PingLoop.Reaches aes ⟨now, pinger, socket⟩ events final) (ordered : ClockOrdered events) :
    LateIgnored aes ⟨now, pinger, socket⟩ events ↔
      (attemptsOf events).IsChain fun earlier later => earlier.2 < later.1 := by
  have initially : Outstanding [] ⟨now, pinger, socket⟩ := by
    obtain ⟨-, -, rfl⟩ := mumbleUdpPingInitEx_ok init
    intro waiting
    cases waiting
  rw [late_ignored_apart initially run ordered]
  exact ⟨List.Pairwise.isChain, attempts_apart ordered⟩

end Late

/-- The second attempt of a pinger that tries every five seconds. -/
def sampleNext : PingLoop where
  now := 5000
  pinger := { samplePinger with
    connected := true
    lastAttempt := ⟨12, true⟩
    replyTimer := true
    periodDue := some 10000
    replyDue := 6000
    pingBuf := [0x20, 12, 0, 0, 0, 0, 0, 0] }
  socket := { sampleConn [1] with cipher := (sampleConn [1]).cipher.nextEnc.nextEnc }

theorem late_reply_ignored_sample :
    LateIgnored identityAes ⟨0, samplePinger, sampleConn [1]⟩
        [.start, .period 7 7 accept, .reply 7, .wait 5000, .period 12 12 accept] ↔
      (attemptsOf [.start, .period 7 7 accept, .reply 7, .wait 5000, .period 12 12 accept]).IsChain
        fun earlier later => earlier.2 < later.1 := by
  have alive : PingLoop.Reaches identityAes ⟨0, samplePinger, sampleConn [1]⟩
      [.start, .period 7 7 accept, .reply 7] sampleAlive :=
    sampleAttempt_reached.next ⟨trivial, rfl⟩
  have waited : PingLoop.Reaches identityAes ⟨0, samplePinger, sampleConn [1]⟩
      [.start, .period 7 7 accept, .reply 7, .wait 5000] { sampleAlive with now := 5000 } :=
    alive.next ⟨by decide, rfl⟩
  have next : PingLoop.Reaches identityAes ⟨0, samplePinger, sampleConn [1]⟩
      [.start, .period 7 7 accept, .reply 7, .wait 5000, .period 12 12 accept] sampleNext :=
    waited.next ⟨rfl, by decide +kernel⟩
  exact late_reply_ignored_iff (show mumbleUdpPingInitEx 1000 5000 = .ok samplePinger by decide) next
    (by decide)

/-- A pinger that tries every two milliseconds. -/
def quickPinger : Pinger := { samplePinger with pingPeriod := 2, timeout := 1 }

/-- After its second attempt, in the second of the first. -/
def quickAgain : PingLoop where
  now := 2
  pinger := { quickPinger with
    lastAttempt := ⟨7, true⟩
    replyTimer := true
    periodDue := some 4
    replyDue := 3
    pingBuf := [0x20, 7, 0, 0, 0, 0, 0, 0] }
  socket := { sampleConn [1] with cipher := (sampleConn [1]).cipher.nextEnc.nextEnc }

/-- The reply to the first attempt, which has timed out, confirms the second. -/
theorem late_reply_confirms :
    mumbleUdpPingInitEx 1 2 = .ok quickPinger ∧
      PingLoop.Reaches identityAes ⟨0, quickPinger, sampleConn [1]⟩
        [.start, .period 7 7 accept, .wait 1, .timeout, .wait 1, .period 7 7 accept] quickAgain ∧
      ClockOrdered [.start, .period 7 7 accept, .wait 1, .timeout, .wait 1, .period 7 7 accept] ∧
      ¬ LateIgnored identityAes ⟨0, quickPinger, sampleConn [1]⟩
        [.start, .period 7 7 accept, .wait 1, .timeout, .wait 1, .period 7 7 accept] := by
  have started : PingLoop.Reaches identityAes ⟨0, quickPinger, sampleConn [1]⟩ [.start] _ :=
    .single ⟨trivial, rfl⟩
  have attempt : PingLoop.Reaches identityAes ⟨0, quickPinger, sampleConn [1]⟩
      [.start, .period 7 7 accept]
      { now := 0
        pinger := { quickAgain.pinger with periodDue := some 2, replyDue := 1 }
        socket := sampleAttempt.socket } :=
    started.next ⟨rfl, by decide +kernel⟩
  have waited : PingLoop.Reaches identityAes ⟨0, quickPinger, sampleConn [1]⟩
      [.start, .period 7 7 accept, .wait 1] _ := attempt.next ⟨by decide, rfl⟩
  have lost : PingLoop.Reaches identityAes ⟨0, quickPinger, sampleConn [1]⟩
      [.start, .period 7 7 accept, .wait 1, .timeout] _ := waited.next ⟨⟨rfl, rfl⟩, rfl⟩
  have due : PingLoop.Reaches identityAes ⟨0, quickPinger, sampleConn [1]⟩
      [.start, .period 7 7 accept, .wait 1, .timeout, .wait 1] _ := lost.next ⟨by decide, rfl⟩
  have again : PingLoop.Reaches identityAes ⟨0, quickPinger, sampleConn [1]⟩
      [.start, .period 7 7 accept, .wait 1, .timeout, .wait 1, .period 7 7 accept] quickAgain :=
    due.next ⟨rfl, by decide +kernel⟩
  refine ⟨by decide, again, by decide, fun ignored => ?_⟩
  have late := ignored _ [] _ (List.append_nil _).symm again rfl (7, 7) (by decide)
  exact absurd late (by decide)

section Echo
variable {aes : Aes} {s t : PingLoop} {events : List PingEvent}

/-- The buffer of the pinger has its full size and starts with the type of a ping. -/
def HasHeader (pinger : Pinger) : Prop :=
  ∃ rest, pinger.pingBuf = 0x20 :: rest ∧ rest.length + 1 = pingBufSize

theorem HasHeader.step {event : PingEvent} (header : HasHeader s.pinger)
    (run : s.step aes event = .ok t) : HasHeader t.pinger := by
  cases event with
  | period time timeAgain trySend =>
    obtain ⟨socket, encoded, length, rfl⟩ := period_step run
    obtain ⟨rest, same, size⟩ := header
    rw [same] at length ⊢
    exact ⟨encoded, rfl, length ▸ size⟩
  | _ =>
    cases run
    exact header

/-- The events that neither begin an attempt nor fail one. -/
def PingEvent.isQuiet : PingEvent → Bool
  | .start | .reply _ | .wait _ => true
  | .stop | .period _ _ _ | .timeout => false

/-- While an attempt can still be answered or has been. -/
structure Answerable (time : UInt64) (ping : UdpPing) : Prop where
  timestamp : ping.lastAttempt.timestamp = time
  pending : ping.lastAttempt.waiting = true ∨ ping.connected = true

theorem Answerable.recv {time timestamp : UInt64} {ping : UdpPing} (answerable : Answerable time ping) :
    Answerable time (mumbleUdpPingRecv ping timestamp) := by
  unfold mumbleUdpPingRecv
  split
  · split
    · exact ⟨answerable.timestamp, .inr rfl⟩
    · exact answerable
  · exact answerable

theorem Answerable.answered {time : UInt64} {ping : UdpPing} (answerable : Answerable time ping) :
    (mumbleUdpPingRecv ping time).connected = true ∧
      (mumbleUdpPingRecv ping time).lastAttempt.waiting = false := by
  obtain ⟨rfl, pending⟩ := answerable
  by_cases waiting : ping.lastAttempt.waiting = true
  · exact recv_confirms waiting
  · rw [recv_ignored_iff.mpr fun again => absurd again waiting]
    exact ⟨pending.resolve_left waiting, Bool.eq_false_of_not_eq_true waiting⟩

theorem Answerable.reaches {time : UInt64} (answerable : Answerable time s.pinger.toUdpPing)
    (run : s.Reaches aes events t) (quiet : ∀ event ∈ events, event.isQuiet = true) :
    Answerable time t.pinger.toUdpPing := by
  refine run.invariant (fun events t => (∀ event ∈ events, event.isQuiet = true) →
    Answerable time t.pinger.toUdpPing) (fun _ => answerable) ?_ quiet
  intro events s event t _ step ih quiet
  have before := ih fun e member => quiet e (List.mem_append_left _ member)
  have calm := quiet event (List.mem_append_right _ (List.mem_singleton_self _))
  obtain ⟨-, run⟩ := step
  cases event with
  | start =>
    cases run
    exact before
  | reply timestamp =>
    cases run
    exact before.recv
  | wait ms =>
    cases run
    exact before
  | stop => cases calm
  | period time timeAgain trySend => cases calm
  | timeout => cases calm

/-- The attempt reaches `uv_udp_ssl_write` with `plaintext`, which fills the front
of `ping_buf`, and nothing but that call can stop it. However long the echo takes
while the attempt is the last and has not failed, it confirms the link. -/
structure EchoConfirms {ω : Type} (aes : Aes) (api : OpusApi ω) (audio : Audio ω) (s : PingLoop)
    (time timeAgain : UInt64) (plaintext behind : List UInt8) : Prop where
  inside : plaintext.length + behind.length = pingBufSize
  sends : ∀ trySend socket, periodTimerCb aes trySend s.now time timeAgain
      { s.pinger with periodDue := some (s.now + s.pinger.pingPeriod) } socket =
    (udpSslWrite aes trySend socket (plaintext ++ behind) plaintext.length).map
      fun sent => (s.attempted time (plaintext ++ behind), sent)
  confirms : ∀ socket events moment stale, (∀ event ∈ events, event.isQuiet = true) →
    PingLoop.Reaches aes ⟨s.now, s.attempted time (plaintext ++ behind), socket⟩ events moment →
    ∃ after, udpCb api { audio with pinger := moment.pinger.toUdpPing } (plaintext ++ stale)
        plaintext.length = .ok after ∧
      after.pinger.connected = true ∧ after.pinger.lastAttempt.waiting = false

variable {ω : Type} {api : OpusApi ω} {audio : Audio ω} {time timeAgain : UInt64} {rest : List UInt8}

theorem varintEncodeSize_le_iff :
    varintEncodeSize timeAgain ≤ pingBufSize - 2 ↔ timeAgain < 0x100000000 := by
  have width : (pingBufSize : Int) - 2 = 6 := rfl
  have limit : (0x100000000 : UInt64).toNat = 2 ^ 32 := rfl
  rw [varintEncodeSize_ranges, UInt64.lt_iff_toNat_lt, limit, width]
  repeat' split
  all_goals omega

/-- An encoding that fits is sent behind the header. -/
theorem periodTimerCb_sends (header : s.pinger.pingBuf = 0x20 :: rest)
    (size : rest.length + 1 = pingBufSize) (fits : varintEncodeSize timeAgain ≤ pingBufSize - 2)
    (trySend : List UInt8 → Int) (socket : UdpSsl) :
    periodTimerCb aes trySend s.now time timeAgain
        { s.pinger with periodDue := some (s.now + s.pinger.pingPeriod) } socket =
      (udpSslWrite aes trySend socket
        (0x20 :: varintBytes timeAgain ++ rest.drop (varintBytes timeAgain).length)
        (0x20 :: varintBytes timeAgain : List UInt8).length).map fun sent =>
          (s.attempted time
            (0x20 :: varintBytes timeAgain ++ rest.drop (varintBytes timeAgain).length), sent) := by
  have length := varintBytes_length timeAgain
  have width : pingBufSize = 8 := rfl
  have space : (varintBytes timeAgain).length ≤ rest.length := by omega
  have sent : toSize ((varintBytes timeAgain).length + 1 : Int) =
      (0x20 :: varintBytes timeAgain : List UInt8).length := by
    rw [List.length_cons, toSize]
    omega
  have short : ((varintBytes timeAgain).length + 1 : Int) ≤ pingBufSize := by omega
  simp only [periodTimerCb, header, List.drop_succ_cons, List.drop_zero,
    varintEncode_eq timeAgain rest _ 0 fits space, ok_bind, require_true trivial, require_true short,
    sent, List.take_succ_cons, List.take_zero]
  exact bind_ok_eq_map _ _

/-- The echo brings back the clock reading, which may have lost its sign. -/
theorem udpCb_echo (fits : varintEncodeSize timeAgain ≤ pingBufSize - 2) (stale : List UInt8) :
    udpCb api audio (0x20 :: varintBytes timeAgain ++ stale)
        (0x20 :: varintBytes timeAgain : List UInt8).length =
      .ok { audio with
        pinger := mumbleUdpPingRecv audio.pinger (.ofNat (signExtended timeAgain.toNat)) } := by
  have length := varintBytes_length timeAgain
  have width : pingBufSize = 8 := rfl
  rw [udpCb_ping _ stale (by omega), varintDecode_bytes timeAgain stale _ 0 (Int.le_refl _), ok_bind]
  rw [require_true (isVarint_varintBytes timeAgain).positive, ok_bind]

/-- The echo answers the attempt if both readings are one that an `int` can hold. -/
theorem echo_answers_iff (ordered : time ≤ timeAgain) (fits : timeAgain < 0x100000000) :
    UInt64.ofNat (signExtended timeAgain.toNat) = time ↔ time = timeAgain ∧ timeAgain < 0x80000000 := by
  have bound := timeAgain.toNat_lt
  rw [UInt64.le_iff_toNat_le] at ordered
  rw [UInt64.lt_iff_toNat_lt] at fits ⊢
  rw [← UInt64.toNat_inj, ← UInt64.toNat_inj, UInt64.toNat_ofNat', signExtended]
  have small : (0x100000000 : UInt64).toNat = 2 ^ 32 := rfl
  have half : (0x80000000 : UInt64).toNat = 2 ^ 31 := rfl
  rw [small] at fits
  rw [half]
  split <;> omega

/-- A connection that sends shows what the attempt hands it. -/
theorem sends_accepted {conn : UdpSsl} {attempt : Run (Pinger × UdpSsl × List UInt8)} {begun : Pinger}
    {plaintext behind : List UInt8} (ready : Ready conn) (inside : plaintext.length ≤ 1020)
    (sends : attempt = (udpSslWrite aes accept conn (plaintext ++ behind) plaintext.length).map
      fun sent => (begun, sent)) :
    ∃ socket datagram, attempt = .ok (begun, socket, datagram) ∧
      datagram.length = plaintext.length + 4 := by
  have taken : 0 < accept (datagramOf (aes conn.cipher.key) conn.cipher.nextEnc.encIv plaintext) := by
    rw [accept, datagramOf_length]
    omega
  rw [udpSslWrite_run aes accept ready.free ready.size inside behind, require_true taken] at sends
  exact ⟨_, _, sends, datagramOf_length _ _ _⟩

theorem EchoConfirms.equal {plaintext behind : List UInt8} (header : s.pinger.pingBuf = 0x20 :: rest)
    (size : rest.length + 1 = pingBufSize) (ordered : time ≤ timeAgain)
    (echo : EchoConfirms aes api audio s time timeAgain plaintext behind) :
    time = timeAgain ∧ timeAgain < 0x80000000 := by
  have width : pingBufSize = 8 := rfl
  have inside := echo.inside
  obtain ⟨_, _, called, length⟩ := sends_accepted (sampleConn_ready [1]) (by omega)
    (echo.sends accept (sampleConn [1]))
  obtain ⟨fits, -⟩ := periodTimerCb_eq called
  have wide := varintBytes_length timeAgain
  obtain ⟨_, _, direct, directLength⟩ := sends_accepted (sampleConn_ready [1])
    (show (0x20 :: varintBytes timeAgain).length ≤ 1020 by rw [List.length_cons]; omega)
    (@periodTimerCb_sends aes s time timeAgain rest header size fits accept (sampleConn [1]))
  -- the pinger keeps the buffer and the datagram shows the length of the plaintext
  have same := Prod.mk.inj (Except.ok.inj (called.symm.trans direct))
  have buffers := congrArg (fun pinger : Pinger => pinger.pingBuf) same.1
  have datagrams := congrArg List.length (Prod.mk.inj same.2).2
  obtain ⟨rfl, -⟩ := List.append_inj buffers (by omega)
  obtain ⟨after, answered, -, quiet⟩ :=
    echo.confirms (sampleConn [1]) [] _ [] (fun _ member => absurd member List.not_mem_nil) .refl
  rw [udpCb_echo fits] at answered
  cases answered
  have answers : UInt64.ofNat (signExtended timeAgain.toNat) = time := by
    by_contra other
    dsimp only at quiet
    rw [recv_ignored_iff.mpr fun _ => other] at quiet
    cases quiet
  exact (echo_answers_iff ordered (varintEncodeSize_le_iff.mp fits)).mp answers

end Echo

end Mumble

import Mumble.Audio
import Mumble.Lib.Reaches

/-! The pinger of `udp_ping.c` with its two timers on the clock of the loop, which
counts milliseconds. The wall clock of `time` is another one, and nothing is
assumed of it. -/
namespace Mumble
open CExec

/-- The rest of `udp_ping_t`: the deadlines of the timers, of which `replyDue` only
counts while the reply timer is active, and the initial asserts make the two
intervals natural numbers. -/
structure PingTimers where
  periodDue : Option Nat
  replyDue : Nat
  pingPeriod : Nat
  timeout : Nat
  pingBuf : List UInt8
  deriving DecidableEq

structure Pinger extends UdpPing, PingTimers
  deriving DecidableEq

def defaultPingPeriod : Int := 5000

def defaultPingTimeout : Int := 1000

def pingBufSize : Nat := 8

def udpPingAttemptInit (ping : UdpPing) (time : UInt64) : UdpPing :=
  { ping with lastAttempt := ⟨time, true⟩ }

def replyTimerCb (ping : UdpPing) : UdpPing :=
  { ping with connected := false, lastAttempt := { ping.lastAttempt with waiting := false } }

/-- `now` is the time of the loop, and the wall clock is read twice. The value that
`written` holds before the call is never used. -/
def periodTimerCb (aes : Aes) (trySend : List UInt8 → Int) (now : Nat) (time timeAgain : UInt64)
    (pinger : Pinger) (socket : UdpSsl) : Run (Pinger × UdpSsl × List UInt8) := do
  let ping := udpPingAttemptInit pinger.toUdpPing time
  let (ret, rest, written) ← varintEncode timeAgain (pinger.pingBuf.drop 1) (pingBufSize - 2) 0
  require (ret = 0) .assertion
  require (written + 1 ≤ pingBufSize) .assertion
  let pingBuf := pinger.pingBuf.take 1 ++ rest
  let (socket, datagram) ← udpSslWrite aes trySend socket pingBuf (toSize (written + 1))
  let ping := { ping with replyTimer := true }
  let timers := { pinger.toPingTimers with pingBuf, replyDue := now + pinger.timeout }
  .ok ({ ping, timers with }, socket, datagram)

def mumbleUdpPingInitEx (timeout pingPeriod : Int) : Run Pinger := do
  require (0 < timeout) .assertion
  require (timeout < pingPeriod) .assertion
  .ok {
    connected := false
    lastAttempt := ⟨0, false⟩
    replyTimer := false
    periodDue := none
    replyDue := 0
    pingPeriod := pingPeriod.toNat
    timeout := timeout.toNat
    pingBuf := 0x20 :: List.replicate (pingBufSize - 1) 0 }

def mumbleUdpPingInit : Run Pinger := mumbleUdpPingInitEx defaultPingTimeout defaultPingPeriod

def mumbleUdpPingStart (now : Nat) (timers : PingTimers) : PingTimers :=
  { timers with periodDue := some now }

def mumbleUdpPingStop (pinger : Pinger) : Pinger :=
  { pinger with periodDue := none, replyTimer := false, connected := false }

/-- The loop, the pinger and the socket it writes to. -/
structure PingLoop where
  now : Nat
  pinger : Pinger
  socket : UdpSsl
  deriving DecidableEq

/-- A call of the pinger's interface, a while without events, or the expiry of a
timer. -/
inductive PingEvent where
  | start
  | stop
  | reply (timestamp : UInt64)
  | wait (ms : Nat)
  | period (time timeAgain : UInt64) (trySend : List UInt8 → Int)
  | timeout

/-- The deadlines of the active timers. -/
def Pinger.deadlines (pinger : Pinger) : List Nat :=
  pinger.periodDue.toList ++ if pinger.replyTimer then [pinger.replyDue] else []

/-- A timer expires exactly at its deadline, which time does not pass before. -/
def PingLoop.Possible (s : PingLoop) : PingEvent → Prop
  | .wait ms => ∀ due ∈ s.pinger.deadlines, s.now + ms ≤ due
  | .period _ _ _ => s.pinger.periodDue = some s.now
  | .timeout => s.pinger.replyTimer = true ∧ s.pinger.replyDue = s.now
  | _ => True

instance (s : PingLoop) : (event : PingEvent) → Decidable (s.Possible event)
  | .wait _ => inferInstanceAs (Decidable (∀ _ ∈ _, _))
  | .period _ _ _ => inferInstanceAs (Decidable (_ = _))
  | .timeout => inferInstanceAs (Decidable (_ ∧ _))
  | .start | .stop | .reply _ => inferInstanceAs (Decidable True)

/-- libuv sets a repeating timer to its next deadline, and another one to inactive,
before it calls back. -/
def PingLoop.step (aes : Aes) (s : PingLoop) : PingEvent → Run PingLoop
  | .start =>
    let timers := mumbleUdpPingStart s.now s.pinger.toPingTimers
    .ok { s with pinger := { s.pinger with toPingTimers := timers } }
  | .stop => .ok { s with pinger := mumbleUdpPingStop s.pinger }
  | .reply timestamp =>
    let ping := mumbleUdpPingRecv s.pinger.toUdpPing timestamp
    .ok { s with pinger := { s.pinger with toUdpPing := ping } }
  | .wait ms => .ok { s with now := s.now + ms }
  | .period time timeAgain trySend => do
    let pinger := { s.pinger with periodDue := some (s.now + s.pinger.pingPeriod) }
    let (pinger, socket, _) ← periodTimerCb aes trySend s.now time timeAgain pinger s.socket
    .ok { s with pinger, socket }
  | .timeout =>
    let ping := replyTimerCb { s.pinger.toUdpPing with replyTimer := false }
    .ok { s with pinger := { s.pinger with toUdpPing := ping } }

/-- The runs of the loop. -/
def PingLoop.Reaches (aes : Aes) : PingLoop → List PingEvent → PingLoop → Prop :=
  Transition.Reaches fun s event next => s.Possible event ∧ s.step aes event = .ok next

end Mumble

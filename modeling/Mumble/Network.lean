import Mumble.UdpSsl
import Mumble.Lib.Lockstep

/-! Two connections and the datagrams between them. A channel keeps the order of
its datagrams, and a reception finds the oldest one if there is any. -/
namespace Mumble
open CExec

inductive Side where
  | a
  | b
  deriving DecidableEq

def Side.other : Side → Side
  | .a => .b
  | .b => .a

/-- The connections, the datagrams each side has in flight, the payloads it has
written and what its callback has been called with. -/
structure Net where
  conn : Side → UdpSsl
  inFlight : Side → List (List UInt8)
  written : Side → List (List UInt8)
  received : Side → List Plaintext

inductive Event where
  | write (side : Side) (payload : List UInt8)
  | receive (side : Side) (stale : List UInt8)

/-- A socket that takes every datagram whole. -/
def accept (datagram : List UInt8) : Int := datagram.length

section
variable (aes : Aes)

def Net.step (net : Net) : Event → Run Net
  | .write side payload => do
    let (conn, datagram) ← udpSslWrite aes accept (net.conn side) payload payload.length
    .ok { net with
      conn := Function.update net.conn side conn
      inFlight := Function.update net.inFlight side (net.inFlight side ++ [datagram])
      written := Function.update net.written side (net.written side ++ [payload]) }
  | .receive side stale =>
    match net.inFlight side.other with
    | [] => .ok net
    | datagram :: rest => do
      let (conn, delivered) ← udpSslReceive aes (net.conn side) datagram stale
      .ok { net with
        conn := Function.update net.conn side conn
        inFlight := Function.update net.inFlight side.other rest
        received := Function.update net.received side (net.received side ++ delivered.toList) }

def Net.run : Net → List Event → Run Net
  | net, [] => .ok net
  | net, event :: events => do
    let net ← net.step aes event
    net.run events

/-- The datagrams of one write after another. -/
def udpSslWriteAll (conn : UdpSsl) : List (List UInt8) → Run (UdpSsl × List (List UInt8))
  | [] => .ok (conn, [])
  | payload :: payloads => do
    let (conn, datagram) ← udpSslWrite aes accept conn payload payload.length
    let (conn, datagrams) ← udpSslWriteAll conn payloads
    .ok (conn, datagram :: datagrams)

/-- What the callback is called with over one reception after another. The rest
of the receive buffer can be different each time. -/
def udpSslReceiveAll (stale : Nat → List UInt8) (conn : UdpSsl) :
    List (List UInt8) → Run (UdpSsl × List Plaintext)
  | [] => .ok (conn, [])
  | datagram :: datagrams => do
    let (conn, delivered) ← udpSslReceive aes conn datagram (stale datagrams.length)
    let (conn, plaintexts) ← udpSslReceiveAll stale conn datagrams
    .ok (conn, delivered.toList ++ plaintexts)

/-- One side writes all payloads, the network delivers the datagrams of the
marked ones in order, and the other side receives these. -/
def transmit (a b : UdpSsl) (stale : Nat → List UInt8) (sent : List (List UInt8 × Bool)) :
    Run (List Plaintext) := do
  let (_, wire) ← udpSslWriteAll aes a (sent.map (·.1))
  let (_, plaintexts) ← udpSslReceiveAll aes stale b (Lockstep.survivors (sent.map (·.2)) wire)
  .ok plaintexts

end

end Mumble

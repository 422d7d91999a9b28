import Mumble.Network
import Mumble.UdpSslProofs
import Mumble.Lib.Lockstep

/-! Two connections in lockstep: over a channel without loss the decrypting
counter is behind the encrypting one by the datagrams in flight. -/
namespace Mumble
open CExec Bytes Lockstep

/-- What a connection needs to take part: a callback, a free buffer, and buffers
of the size that `uv_udp_ssl_init` asks for. -/
structure Ready (conn : UdpSsl) : Prop where
  callback : conn.cb = true
  free : conn.bufferPool.inUse < conn.bufferPool.buffers.length
  size : 1024 ≤ conn.bufferPool.size

/-- The datagram of a payload: the header and the ciphertext. -/
def datagramOf (E : Equiv.Perm Block) (iv : Block) (payload : List UInt8) : List UInt8 :=
  let (ciphertext, tag) := sealed E iv payload
  iv.toList.take 1 ++ tag.toList.take 3 ++ ciphertext

/-- The payload that a datagram decrypts to. -/
def payloadOf (E : Equiv.Perm Block) (iv : Block) (datagram : List UInt8) : List UInt8 :=
  (opened E iv (datagram.drop 4)).1

/-- What the callback gets for a payload. -/
def plaintextOf (payload : List UInt8) : Plaintext := ⟨payload, payload.length⟩

section Datagram
variable (E : Equiv.Perm Block) (iv : Block) (payload : List UInt8)

theorem header_length (tag : Block) : (iv.toList.take 1 ++ tag.toList.take 3).length = 4 := by
  rw [List.length_append, List.length_take, List.length_take, Block.toList_length,
    Block.toList_length]
  rfl

theorem datagramOf_drop : (datagramOf E iv payload).drop 4 = (sealed E iv payload).1 :=
  List.drop_left' (header_length iv _)

theorem datagramOf_length : (datagramOf E iv payload).length = payload.length + 4 := by
  change (_ ++ (sealed E iv payload).1).length = _
  rw [List.length_append, header_length, sealed_length, Nat.add_comm]

theorem payloadOf_datagramOf : payloadOf E iv (datagramOf E iv payload) = payload := by
  rw [payloadOf, datagramOf_drop, opened_sealed]

end Datagram

section Ends
variable {aes : Aes} {conn : UdpSsl}

/-- A write sends the datagram of its payload and steps the encrypting counter,
whatever stands behind the payload, and stops if libuv takes nothing. -/
theorem udpSslWrite_run (aes : Aes) (trySend : List UInt8 → Int)
    (free : conn.bufferPool.inUse < conn.bufferPool.buffers.length)
    (large : 1024 ≤ conn.bufferPool.size) {payload : List UInt8} (size : payload.length ≤ 1020)
    (behind : List UInt8) :
    udpSslWrite aes trySend conn (payload ++ behind) payload.length = (do
      require (0 < trySend (datagramOf (aes conn.cipher.key) conn.cipher.nextEnc.encIv payload))
        .assertion
      .ok ({ conn with cipher := conn.cipher.nextEnc },
        datagramOf (aes conn.cipher.key) conn.cipher.nextEnc.encIv payload)) := by
  obtain ⟨base, pool, acquired, same, -, -, released⟩ := bufferPoolAcquire_free free
  have signed : toInt (payload.length : Int) = payload.length := toInt_of_small (by omega) (by omega)
  have encrypted : encryptOcb aes { conn with bufferPool := pool } (payload ++ behind)
      payload.length =
      .ok (payload.length, { conn with cipher := conn.cipher.nextEnc, bufferPool := pool },
        sealed (aes conn.cipher.key) conn.cipher.nextEnc.encIv payload) := by
    have sealing := ocb2AesEncrypt_eq aes conn.cipher.nextEnc payload behind
    simp only [OcbAes.nextEnc] at sealing
    simp only [encryptOcb, signed, sealing, ok_bind]
    rfl
  have room : 4 + (sealed (aes conn.cipher.key) conn.cipher.nextEnc.encIv payload).1.length ≤
      pool.size := by
    rw [sealed_length, same]
    omega
  let datagram := datagramOf (aes conn.cipher.key) conn.cipher.nextEnc.encIv payload
  have length : datagram.length = payload.length + 4 := datagramOf_length _ _ payload
  have whole : toSize ((payload.length : Int) + 4) = datagram.length := by
    rw [length, toSize]
    omega
  simp only [udpSslWrite, require_true size, acquired, encrypted, ok_bind, require_true room, whole]
  change (do
    require (0 < trySend (datagram.take datagram.length)) .assertion
    let bufferPool ← bufferPoolRelease pool base
    .ok ({ conn with cipher := conn.cipher.nextEnc, bufferPool },
      datagram.take datagram.length) : Run _) = _
  rw [List.take_length, released]
  rfl

theorem udpSslWrite_eq (ready : Ready conn) {payload : List UInt8} (size : payload.length ≤ 1020) :
    udpSslWrite aes accept conn payload payload.length =
      .ok ({ conn with cipher := conn.cipher.nextEnc },
        datagramOf (aes conn.cipher.key) conn.cipher.nextEnc.encIv payload) := by
  have run := udpSslWrite_run aes accept ready.free ready.size size []
  have taken : 0 < accept (datagramOf (aes conn.cipher.key) conn.cipher.nextEnc.encIv payload) := by
    rw [accept, datagramOf_length]
    omega
  rwa [List.append_nil, require_true taken, ok_bind] at run

theorem udpSslReceive_eq (ready : Ready conn) {datagram : List UInt8} (stale : List UInt8)
    (header : 4 ≤ datagram.length) (room : datagram.length ≤ 1024) :
    udpSslReceive aes conn datagram stale =
      .ok ({ conn with cipher := conn.cipher.nextDec },
        some (plaintextOf (payloadOf (aes conn.cipher.key) conn.cipher.nextDec.decIv datagram))) := by
  obtain ⟨iv, t0, t1, t2, body, rfl⟩ := exists_header header
  obtain ⟨base, pool, acquired, same, -, -, released⟩ := bufferPoolAcquire_free ready.free
  have small : body.length ≤ 1020 := by
    simp only [List.length_cons] at room
    omega
  have whole : (iv :: t0 :: t1 :: t2 :: body).take pool.size = iv :: t0 :: t1 :: t2 :: body :=
    List.take_of_length_le (room.trans (same ▸ ready.size))
  have some : (0 : Int) < (iv :: t0 :: t1 :: t2 :: body).length := Int.natCast_pos.mpr (by simp)
  have read : toSize ((iv :: t0 :: t1 :: t2 :: body).length : Int) = body.length + 4 := by
    rw [toSize_natCast]
    simp only [List.length_cons]
    omega
  have plaintext : plaintextOf (payloadOf (aes conn.cipher.key) conn.cipher.nextDec.decIv
      (iv :: t0 :: t1 :: t2 :: body)) =
      ⟨(opened (aes conn.cipher.key) conn.cipher.nextDec.decIv body).1, body.length⟩ := by
    simp only [plaintextOf, payloadOf, List.drop_succ_cons, List.drop_zero, opened_length]
  have decrypted := udpSslDecrypt_eq aes { conn with bufferPool := pool } iv t0 t1 t2 stale
     (show body.length ≤ 10240 by omega)
  rw [if_pos ready.callback] at decrypted
  simp only [udpSslReceive, allocCb, acquired, ok_bind, whole, recvCb, if_pos some, read,
    List.cons_append, decrypted, released, plaintext]

end Ends

theorem Ready.cipher (ready : Ready conn) (cipher : OcbAes) : Ready { conn with cipher } :=
  ⟨ready.callback, ready.free, ready.size⟩

/-- One direction of the traffic: the receiver shares the key and the length of
the counter, and is behind by the datagrams on the wire. -/
structure Direction (aes : Aes) (sender receiver : UdpSsl) (wire written : List (List UInt8))
    (received : List Plaintext) : Prop where
  key : receiver.cipher.key = sender.cipher.key
  ivlen : receiver.cipher.ivlen = sender.cipher.ivlen
  sizes : ∀ payload ∈ written, payload.length ≤ 1020
  inStep : ∃ payloads, received = payloads.map plaintextOf ∧
    InStep (incrementIv · sender.cipher.ivlen) (datagramOf (aes sender.cipher.key))
      sender.cipher.encIv receiver.cipher.decIv wire written payloads

section Directions
variable {aes : Aes} {sender receiver : UdpSsl} {wire written : List (List UInt8)}
  {received : List Plaintext}

theorem Direction.write (direction : Direction aes sender receiver wire written received)
    {payload : List UInt8} (size : payload.length ≤ 1020) :
    Direction aes { sender with cipher := sender.cipher.nextEnc } receiver
      (wire ++ [datagramOf (aes sender.cipher.key) sender.cipher.nextEnc.encIv payload])
      (written ++ [payload]) received := by
  obtain ⟨payloads, delivered, inStep⟩ := direction.inStep
  refine ⟨direction.key, direction.ivlen, ?_, payloads, delivered, inStep.write payload⟩
  intro p member
  rcases List.mem_append.mp member with old | new
  · exact direction.sizes p old
  · rw [List.mem_singleton.mp new]
    exact size

/-- The receiver may write in the other direction. -/
theorem Direction.writeBack (direction : Direction aes sender receiver wire written received) :
    Direction aes sender { receiver with cipher := receiver.cipher.nextEnc } wire written received :=
  ⟨direction.key, direction.ivlen, direction.sizes, direction.inStep⟩

/-- The oldest datagram of the wire decrypts to the oldest payload in flight. -/
theorem Direction.read {datagram : List UInt8}
    (direction : Direction aes sender receiver (datagram :: wire) written received) :
    4 ≤ datagram.length ∧ datagram.length ≤ 1024 ∧
      Direction aes sender { receiver with cipher := receiver.cipher.nextDec } wire written
        (received ++ [plaintextOf (payloadOf (aes receiver.cipher.key) receiver.cipher.nextDec.decIv
          datagram)]) := by
  obtain ⟨payloads, delivered, inStep⟩ := direction.inStep
  obtain ⟨payload, shape, decrypted, inStep⟩ :=
    inStep.read (payloadOf_datagramOf (aes sender.cipher.key))
  have member : payload ∈ written := by
    obtain ⟨pending, rfl, -, -⟩ := inStep
    simp
  have counter : receiver.cipher.nextDec.decIv =
      incrementIv receiver.cipher.decIv sender.cipher.ivlen := by
    rw [← direction.ivlen]
    rfl
  have length := datagramOf_length (aes sender.cipher.key)
    (incrementIv receiver.cipher.decIv sender.cipher.ivlen) payload
  have size := direction.sizes payload member
  rw [← shape] at length
  refine ⟨by omega, by omega, direction.key, direction.ivlen, direction.sizes, payloads ++ [payload],
    ?_, ?_⟩
  · rw [counter, direction.key, decrypted, delivered, List.map_append]
    rfl
  · exact counter ▸ inStep

/-- The sender may receive from the other direction. -/
theorem Direction.readBack (direction : Direction aes sender receiver wire written received) :
    Direction aes { sender with cipher := sender.cipher.nextDec } receiver wire written received :=
  ⟨direction.key, direction.ivlen, direction.sizes, direction.inStep⟩

end Directions

theorem Side.other_ne (side : Side) : side.other ≠ side := by
  cases side <;> decide

theorem Side.eq_other {side other : Side} (distinct : side ≠ other) : other = side.other := by
  cases side <;> cases other <;> first | rfl | exact absurd rfl distinct

@[simp] theorem Side.other_other (side : Side) : side.other.other = side := by
  cases side <;> rfl

/-- Both directions at once. -/
structure Linked (aes : Aes) (net : Net) : Prop where
  ready : ∀ side, Ready (net.conn side)
  direction : ∀ side, Direction aes (net.conn side.other) (net.conn side) (net.inFlight side.other)
    (net.written side.other) (net.received side)

/-- Two connections before any traffic. -/
structure Net.Start (net : Net) : Prop where
  ready : ∀ side, Ready (net.conn side)
  key : (net.conn .a).cipher.key = (net.conn .b).cipher.key
  ivlen : (net.conn .a).cipher.ivlen = (net.conn .b).cipher.ivlen
  ivs : ∀ side, (net.conn side.other).cipher.encIv = (net.conn side).cipher.decIv
  quiet : ∀ side, net.inFlight side = [] ∧ net.written side = [] ∧ net.received side = []

/-- The payloads that the events have a side write. -/
def writtenBy (side : Side) (events : List Event) : List (List UInt8) :=
  events.filterMap fun
    | .write writer payload => if writer = side then some payload else none
    | .receive _ _ => none

/-- The payloads that `uv_udp_ssl_write` accepts. -/
def Event.Fits : Event → Prop
  | .write _ payload => payload.length ≤ 1020
  | .receive _ _ => True

section Runs
variable {aes : Aes} {net : Net}

theorem Linked.start (start : net.Start) : Linked aes net := by
  refine ⟨start.ready, fun side => ?_⟩
  obtain ⟨wire, written, -⟩ := start.quiet side.other
  obtain ⟨-, -, received⟩ := start.quiet side
  rw [wire, written, received]
  refine ⟨?_, ?_, fun _ member => absurd member List.not_mem_nil, [], rfl, ?_⟩
  · cases side with
    | a => exact start.key
    | b => exact start.key.symm
  · cases side with
    | a => exact start.ivlen
    | b => exact start.ivlen.symm
  · rw [start.ivs side]
    exact InStep.start _

/-- A side stays ready whatever its IVs become. -/
theorem Linked.ready_cipher (linked : Linked aes net) (side : Side) (cipher : OcbAes) (other : Side) :
    Ready (Function.update net.conn side { net.conn side with cipher } other) := by
  by_cases own : other = side
  · subst own
    rw [Function.update_self]
    exact (linked.ready other).cipher cipher
  · rw [Function.update_of_ne own]
    exact linked.ready other

theorem Linked.write (linked : Linked aes net) (side : Side) {payload : List UInt8}
    (size : payload.length ≤ 1020) :
    ∃ after, net.step aes (.write side payload) = .ok after ∧ Linked aes after ∧
      after.written = Function.update net.written side (net.written side ++ [payload]) := by
  refine ⟨_, by rw [Net.step, udpSslWrite_eq (linked.ready side) size, ok_bind], ⟨?_, ?_⟩, rfl⟩
  · exact linked.ready_cipher side _
  · intro receiver
    by_cases own : receiver = side
    · subst own
      simp only [Function.update_self, Function.update_of_ne receiver.other_ne]
      exact (linked.direction receiver).writeBack
    · obtain rfl := Side.eq_other own
      simp only [Function.update_self, Function.update_of_ne own]
      exact (linked.direction receiver).write size

theorem Linked.receive (linked : Linked aes net) (side : Side) (stale : List UInt8) :
    ∃ after, net.step aes (.receive side stale) = .ok after ∧ Linked aes after ∧
      after.written = net.written := by
  cases wire : net.inFlight side.other with
  | nil => exact ⟨net, by rw [Net.step, wire], linked, rfl⟩
  | cons datagram rest =>
    have direction := linked.direction side
    rw [wire] at direction
    obtain ⟨header, room, direction⟩ := direction.read
    have received : udpSslReceive aes (net.conn side) datagram stale = _ :=
      udpSslReceive_eq (linked.ready side) stale header room
    have step : net.step aes (.receive side stale) = .ok { net with
        conn := Function.update net.conn side
          { net.conn side with cipher := (net.conn side).cipher.nextDec }
        inFlight := Function.update net.inFlight side.other rest
        received := Function.update net.received side (net.received side ++
          [plaintextOf (payloadOf (aes (net.conn side).cipher.key)
            (net.conn side).cipher.nextDec.decIv datagram)]) } := by
      rw [Net.step, wire]
      dsimp only
      rw [received]
      rfl
    refine ⟨_, step, ⟨?_, ?_⟩, rfl⟩
    · exact linked.ready_cipher side _
    · intro receiver
      by_cases own : receiver = side
      · subst own
        simp only [Function.update_self, Function.update_of_ne receiver.other_ne]
        exact direction
      · obtain rfl := Side.eq_other own
        simp only [Side.other_other, Function.update_self, Function.update_of_ne own,
          Function.update_of_ne receiver.other_ne]
        exact (linked.direction receiver).readBack

theorem Linked.step (linked : Linked aes net) {event : Event} (fits : event.Fits) :
    ∃ after, net.step aes event = .ok after ∧ Linked aes after ∧
      ∀ side, after.written side = net.written side ++ writtenBy side [event] := by
  cases event with
  | write writer payload =>
    obtain ⟨after, step, linked, written⟩ := linked.write writer fits
    refine ⟨after, step, linked, fun side => ?_⟩
    rw [written]
    by_cases own : side = writer
    · subst own
      simp [writtenBy]
    · rw [Function.update_of_ne own]
      simp [writtenBy, Ne.symm own]
  | receive reader stale =>
    obtain ⟨after, step, linked, written⟩ := linked.receive reader stale
    refine ⟨after, step, linked, fun side => ?_⟩
    rw [written]
    exact (List.append_nil _).symm

theorem Linked.run (linked : Linked aes net) {events : List Event}
    (fits : ∀ event ∈ events, event.Fits) :
    ∃ final, net.run aes events = .ok final ∧ Linked aes final ∧
      ∀ side, final.written side = net.written side ++ writtenBy side events := by
  induction events generalizing net with
  | nil => exact ⟨net, rfl, linked, fun _ => (List.append_nil _).symm⟩
  | cons event events ih =>
    obtain ⟨after, step, linked, first⟩ := linked.step (fits event List.mem_cons_self)
    obtain ⟨final, run, linked, rest⟩ := ih linked fun e member => fits e (List.mem_cons_of_mem _ member)
    refine ⟨final, by rw [Net.run, step, ok_bind, run], linked, fun side => ?_⟩
    rw [rest, first, List.append_assoc, ← List.singleton_append (l := events)]
    exact congrArg _ (List.filterMap_append ..).symm

end Runs

/-- The state of the traffic after some events: each callback has been called with
the payloads the other side wrote, in order and up to those in flight, and each
decrypting counter is behind the other side's encrypting one by as many. -/
structure InLockstep (events : List Event) (net : Net) : Prop where
  received : ∀ side, ∃ delivered pending, writtenBy side.other events = delivered ++ pending ∧
    net.received side = delivered.map plaintextOf ∧
    pending.length = (net.inFlight side.other).length
  ivlen : ∀ side, (net.conn side).cipher.ivlen = (net.conn side.other).cipher.ivlen
  counter : ∀ side, (ivNumber (net.conn side).cipher.decIv (net.conn side).cipher.ivlen : Int) =
    (ivNumber (net.conn side.other).cipher.encIv (net.conn side).cipher.ivlen -
      (net.inFlight side.other).length) % 256 ^ (net.conn side).cipher.ivlen.toNat
  rest : ∀ side, ivRest (net.conn side).cipher.decIv (net.conn side).cipher.ivlen =
    ivRest (net.conn side.other).cipher.encIv (net.conn side).cipher.ivlen

/-- Every interleaving of writes and receptions runs through and keeps the two
sides in lockstep. -/
theorem net_lockstep (aes : Aes) {net : Net} (start : net.Start) {events : List Event}
    (fits : ∀ event ∈ events, event.Fits) :
    ∃ final, net.run aes events = .ok final ∧ InLockstep events final := by
  have linked : Linked aes net := .start start
  obtain ⟨final, run, linked, written⟩ := linked.run fits
  refine ⟨final, run, ?_, fun side => (linked.direction side).ivlen, ?_, ?_⟩
  · intro side
    obtain ⟨-, quiet, -⟩ := start.quiet side.other
    obtain ⟨delivered, received, pending, split, wire, -⟩ := (linked.direction side).inStep
    rw [written, quiet, List.nil_append] at split
    exact ⟨delivered, pending, split, received, by rw [wire, wrapFrom_length]⟩
  · intro side
    obtain ⟨_, -, inStep⟩ := (linked.direction side).inStep
    have bound := @ivNumber_lt (final.conn side).cipher.ivlen (final.conn side).cipher.decIv
    have ahead := ivNumber_iterate (final.conn side).cipher.fits (final.conn side).cipher.decIv
      (final.inFlight side.other).length
    rw [inStep.wire_length.1, ← (linked.direction side).ivlen, ahead]
    push_cast
    rw [Int.emod_sub_emod, Int.add_sub_cancel, Int.emod_eq_of_lt (Int.natCast_nonneg _)]
    exact_mod_cast bound
  · intro side
    obtain ⟨_, -, inStep⟩ := (linked.direction side).inStep
    rw [inStep.wire_length.1, (linked.direction side).ivlen, ivRest_iterate]

/-- Two connections of `uv_udp_ssl_init` with the same IV for both directions. -/
def sampleNet : Net where
  conn := fun _ => sampleConn [1]
  inFlight := fun _ => []
  written := fun _ => []
  received := fun _ => []

theorem sampleConn_ready (iv : List UInt8) : Ready (sampleConn iv) :=
  ⟨rfl, Nat.two_pos, Nat.le_refl 1024⟩

theorem net_lockstep_sample :
    ∃ final, sampleNet.run identityAes [.write .a [7], .write .b [], .receive .b [], .receive .b []] =
      .ok final ∧ InLockstep [.write .a [7], .write .b [], .receive .b [], .receive .b []] final :=
  net_lockstep identityAes
    ⟨fun _ => sampleConn_ready [1], rfl, rfl, fun _ => rfl, fun _ => ⟨rfl, rfl, rfl⟩⟩ (by
      intro event member
      fin_cases member <;> simp [Event.Fits])

end Mumble

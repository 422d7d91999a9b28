import Mumble.NetworkProofs

/-! The IVs that a connection encrypts under over a whole run of writes and
receptions, among them the writes that its callback makes during a reception. -/
namespace Mumble
open CExec Bytes Lockstep

/-- A call of `uv_udp_ssl_write`. The rest of the caller's buffer is `behind` the
payload, and `trySend` is what libuv answers. -/
structure WriteCall where
  payload : List UInt8
  behind : List UInt8
  trySend : List UInt8 → Int

/-- A payload and the datagram it was sent in. -/
structure Emission where
  payload : List UInt8
  datagram : List UInt8
  deriving DecidableEq

/-- A write, or a reception of `nread` bytes into `buf` with the writes that the
callback makes if it is called. -/
inductive Traffic where
  | write (call : WriteCall)
  | receive (buf : List UInt8) (nread : Int) (nested : List WriteCall)

section
variable (aes : Aes)

def UdpSsl.writes (conn : UdpSsl) : List WriteCall → Run (UdpSsl × List Emission)
  | [] => .ok (conn, [])
  | call :: calls => do
    let (conn, datagram) ← udpSslWrite aes call.trySend conn (call.payload ++ call.behind)
      call.payload.length
    let (conn, sent) ← conn.writes calls
    .ok (conn, ⟨call.payload, datagram⟩ :: sent)

/-- A reception is `alloc_cb` and `recv_cb`, where the callback comes last before
the buffer is given back. -/
def UdpSsl.step (conn : UdpSsl) : Traffic → Run (UdpSsl × List Emission)
  | .write call => conn.writes aes [call]
  | .receive buf nread nested => do
    let (base, conn) ← allocCb conn
    let (conn, delivered) ←
      (if 0 < nread then udpSslDecrypt aes conn buf (toSize nread) else .ok (conn, none))
    let (conn, sent) ← conn.writes aes (if delivered.isSome then nested else [])
    let bufferPool ← bufferPoolRelease conn.bufferPool base
    .ok ({ conn with bufferPool }, sent)

def UdpSsl.run (conn : UdpSsl) : List Traffic → Run (UdpSsl × List Emission)
  | [] => .ok (conn, [])
  | event :: events => do
    let (conn, first) ← conn.step aes event
    let (conn, rest) ← conn.run events
    .ok (conn, first ++ rest)

end

def WriteCall.Fits (call : WriteCall) : Prop := call.payload.length ≤ 1020

def Traffic.Fits : Traffic → Prop
  | .write call => call.Fits
  | .receive _ _ nested => ∀ call ∈ nested, call.Fits

/-- A callback that writes nothing leaves a reception as it is. -/
theorem step_receive_nil (aes : Aes) (conn : UdpSsl) (buf : List UInt8) (nread : Int) :
    conn.step aes (.receive buf nread []) = (do
      let (base, conn) ← allocCb conn
      let (conn, _) ← recvCb aes conn base buf nread
      .ok (conn, [])) := by
  rw [UdpSsl.step]
  cases allocCb conn with
  | error fault => rfl
  | ok allocated =>
    obtain ⟨base, held⟩ := allocated
    simp only [ok_bind, recvCb, ite_self, UdpSsl.writes]
    split
    · cases udpSslDecrypt aes held buf (toSize nread) with
      | error fault => rfl
      | ok decrypted =>
        rw [ok_bind, ok_bind]
        cases bufferPoolRelease decrypted.1.bufferPool base with
        | error fault => rfl
        | ok pool => rfl
    · rw [ok_bind]
      cases bufferPoolRelease held.bufferPool base with
      | error fault => rfl
      | ok pool => rfl

/-- What a part of a run may change: the buffers are those of before, the
encrypting counter has stepped once for each datagram, and the datagrams are
those of the counters in between. -/
structure Advanced (aes : Aes) (conn after : UdpSsl) (sent : List Emission) : Prop where
  key : after.cipher.key = conn.cipher.key
  ivlen : after.cipher.ivlen = conn.cipher.ivlen
  bufferPool : after.bufferPool = conn.bufferPool
  encIv : after.cipher.encIv = (incrementIv · conn.cipher.ivlen)^[sent.length] conn.cipher.encIv
  sent : sent.map (·.datagram) = wrapFrom (incrementIv · conn.cipher.ivlen)
    (datagramOf (aes conn.cipher.key)) conn.cipher.encIv (sent.map (·.payload))

section Runs
variable {aes : Aes} {conn middle after : UdpSsl} {first sent : List Emission}

theorem Advanced.refl : Advanced aes conn conn [] :=
  ⟨rfl, rfl, rfl, rfl, rfl⟩

theorem Advanced.trans (before : Advanced aes conn middle first)
    (next : Advanced aes middle after sent) : Advanced aes conn after (first ++ sent) := by
  refine ⟨next.key.trans before.key, next.ivlen.trans before.ivlen,
    next.bufferPool.trans before.bufferPool, ?_, ?_⟩
  · rw [next.encIv, before.encIv, before.ivlen, ← Function.iterate_add_apply, List.length_append,
      Nat.add_comm]
  · rw [List.map_append, List.map_append, before.sent, next.sent, wrapFrom_append, before.key,
      before.ivlen, before.encIv, List.length_map]

theorem write_advanced (free : conn.bufferPool.inUse < conn.bufferPool.buffers.length)
    (large : 1024 ≤ conn.bufferPool.size) {call : WriteCall} (size : call.Fits)
    {datagram : List UInt8} (run : udpSslWrite aes call.trySend conn (call.payload ++ call.behind)
      call.payload.length = .ok (after, datagram)) :
    Advanced aes conn after [⟨call.payload, datagram⟩] := by
  rw [udpSslWrite_run aes call.trySend free large size call.behind] at run
  obtain ⟨-, -, wrote⟩ := bind_eq_ok.mp run
  cases wrote
  exact ⟨rfl, rfl, rfl, rfl, rfl⟩

theorem writes_advanced (free : conn.bufferPool.inUse < conn.bufferPool.buffers.length)
    (large : 1024 ≤ conn.bufferPool.size) {calls : List WriteCall} (size : ∀ call ∈ calls, call.Fits)
    (run : conn.writes aes calls = .ok (after, sent)) : Advanced aes conn after sent := by
  induction calls generalizing conn sent with
  | nil =>
    cases run
    exact .refl
  | cons call calls ih =>
    obtain ⟨⟨written, datagram⟩, wrote, run⟩ := bind_eq_ok.mp run
    obtain ⟨⟨final, rest⟩, others, run⟩ := bind_eq_ok.mp run
    cases run
    have head := write_advanced free large (size call List.mem_cons_self) wrote
    rw [← head.bufferPool] at free large
    exact head.trans (ih free large (fun c member => size c (List.mem_cons_of_mem _ member)) others)

/-- A datagram that arrives changes nothing that a write reads. -/
theorem udpSslDecrypt_advanced {buf : List UInt8} {len : Nat} {delivered : Option Plaintext}
    (run : udpSslDecrypt aes conn buf len = .ok (after, delivered)) : Advanced aes conn after [] := by
  obtain ⟨-, -, run⟩ := bind_eq_ok.mp run
  obtain ⟨-, -, run⟩ := bind_eq_ok.mp run
  obtain ⟨-, -, run⟩ := bind_eq_ok.mp run
  obtain ⟨-, -, run⟩ := bind_eq_ok.mp run
  obtain ⟨⟨_, _⟩, -, opened⟩ := bind_eq_ok.mp run
  obtain ⟨-, -, finished⟩ := bind_eq_ok.mp opened
  cases finished
  exact ⟨rfl, rfl, rfl, rfl, rfl⟩

theorem step_advanced (free : conn.bufferPool.inUse + 1 < conn.bufferPool.buffers.length)
    (large : 1024 ≤ conn.bufferPool.size) {event : Traffic} (size : event.Fits)
    (run : conn.step aes event = .ok (after, sent)) : Advanced aes conn after sent := by
  cases event with
  | write call =>
    refine writes_advanced (Nat.lt_of_succ_lt free) large ?_ run
    intro other member
    rw [List.mem_singleton.mp member]
    exact size
  | receive buf nread nested =>
    obtain ⟨base, pool, acquired, same, used, count, released⟩ :=
      bufferPoolAcquire_free (Nat.lt_of_succ_lt free)
    have allocated : allocCb conn = .ok (base, { conn with bufferPool := pool }) := by
      rw [allocCb, acquired]
    rw [UdpSsl.step, allocated, ok_bind] at run
    obtain ⟨⟨read, delivered⟩, received, run⟩ := bind_eq_ok.mp run
    obtain ⟨⟨written, emitted⟩, wrote, run⟩ := bind_eq_ok.mp run
    obtain ⟨final, gaveBack, run⟩ := bind_eq_ok.mp run
    cases run
    have opening : Advanced aes { conn with bufferPool := pool } read [] := by
      split at received
      · exact udpSslDecrypt_advanced received
      · cases received
        exact .refl
    have writing : Advanced aes read written sent := by
      refine writes_advanced ?_ ?_ ?_ wrote
      · rw [opening.bufferPool, used, count]
        exact free
      · rw [opening.bufferPool, same]
        exact large
      · intro call member
        split at member
        · exact size call member
        · cases member
    have both := opening.trans writing
    have restored : final = conn.bufferPool := by
      rw [both.bufferPool, released] at gaveBack
      exact (Except.ok.inj gaveBack).symm
    exact ⟨both.key, both.ivlen, restored, both.encIv, both.sent⟩

theorem run_advanced (free : conn.bufferPool.inUse + 1 < conn.bufferPool.buffers.length)
    (large : 1024 ≤ conn.bufferPool.size) {events : List Traffic}
    (size : ∀ event ∈ events, event.Fits) (run : conn.run aes events = .ok (after, sent)) :
    Advanced aes conn after sent := by
  induction events generalizing conn sent with
  | nil =>
    cases run
    exact .refl
  | cons event events ih =>
    obtain ⟨⟨stepped, first⟩, step, run⟩ := bind_eq_ok.mp run
    obtain ⟨⟨final, rest⟩, others, run⟩ := bind_eq_ok.mp run
    cases run
    have head := step_advanced free large (size event List.mem_cons_self) step
    rw [← head.bufferPool] at free large
    exact head.trans (ih free large (fun e member => size e (List.mem_cons_of_mem _ member)) others)

end Runs

/-- The ciphertext of the payload under `iv`, behind the lowest byte of the IV and
three bytes of the tag. -/
def EncryptedUnder (aes : Aes) (cipher : OcbAes) (iv : Block) (emission : Emission) : Prop :=
  ∃ ciphertext tag, ocb2AesEncrypt aes { cipher with encIv := iv } emission.payload
      emission.payload.length = .ok (0, ciphertext, tag) ∧
    emission.datagram = iv.toList.take 1 ++ tag.toList.take 3 ++ ciphertext

theorem encryptedUnder_datagramOf (aes : Aes) (cipher : OcbAes) (iv : Block)
    (payload : List UInt8) :
    EncryptedUnder aes cipher iv ⟨payload, datagramOf (aes cipher.key) iv payload⟩ := by
  have sealing := ocb2AesEncrypt_eq aes { cipher with encIv := iv } payload []
  rw [List.append_nil] at sealing
  exact ⟨_, _, sealing, rfl⟩

section Keys
variable {before conn : UdpSsl} {key encIv decIv : List UInt8} {ivlen : Nat}
  (set : udpSslSetEncryption before key encIv decIv ivlen = .ok conn) (fits : ivlen ≤ 16)
include set fits

/-- New keys give the counter its length and its first number, and leave the bytes
that it does not reach. -/
theorem setEncryption_counter : conn.cipher.ivlen.toNat = ivlen ∧
    ivNumber conn.cipher.encIv conn.cipher.ivlen = littleEndian (encIv.take ivlen) ∧
    ivRest conn.cipher.encIv conn.cipher.ivlen = before.cipher.encIv.toList.drop ivlen ∧
    conn.bufferPool = before.bufferPool := by
  have signed : toInt (ivlen : Int) = ivlen := toInt_of_small (by omega) (by omega)
  obtain ⟨cipher, keys, rfl⟩ : ∃ cipher, ocbAesSetKeys before.cipher key encIv decIv ivlen =
      .ok cipher ∧ { before with cipher } = conn := by
    rw [udpSslSetEncryption, signed] at set
    obtain ⟨cipher, keys, same⟩ := bind_eq_ok.mp set
    exact ⟨cipher, keys, Except.ok.inj same⟩
  obtain ⟨loaded, -, keys⟩ := bind_eq_ok.mp keys
  rw [dif_pos ⟨Int.natCast_nonneg _, by exact_mod_cast fits⟩] at keys
  obtain ⟨enc, copied, keys⟩ := bind_eq_ok.mp keys
  rw [Int.toNat_natCast] at copied
  obtain ⟨dec, -, ended⟩ := bind_eq_ok.mp keys
  obtain ⟨rfl, inside⟩ : enc = encIv.take ivlen ∧ ivlen ≤ encIv.length := by
    unfold slice at copied
    split at copied
    · next inside => exact ⟨(Except.ok.inj copied).symm, inside⟩
    · cases copied
  obtain rfl := Except.ok.inj ended
  have count : (UInt8.ofNat (ivlen : Int).toNat).toNat = ivlen := by
    rw [UInt8.toNat_ofNat', Int.toNat_natCast]
    omega
  have size : (encIv.take ivlen).length = ivlen := List.length_take_of_le inside
  have bytes := before.cipher.encIv.toList_overlay (encIv.take ivlen)
  rw [List.take_of_length_le (size.trans_le fits), size] at bytes
  refine ⟨count, ?_, ?_, rfl⟩
  · rw [ivNumber, count, bytes, List.take_left' size]
  · rw [ivRest, count, bytes, List.drop_left' size]

end Keys

/-- The write of each place in any run is encrypted under the IV of that place. The
IVs count up from the first number, no two of a full turn are the same, and a
write that libuv takes after a run goes on with the next one. -/
structure CountsUp (aes : Aes) (conn : UdpSsl) (first ivlen : Nat) (kept : List UInt8)
    (iv : Nat → Block) : Prop where
  number : ∀ k, littleEndian ((iv k).toList.take ivlen) = (first + k) % 256 ^ ivlen
  rest : ∀ k, (iv k).toList.drop ivlen = kept
  distinct : ∀ i j, i < j → j < i + 256 ^ ivlen → iv i ≠ iv j
  sent : ∀ events final sent, (∀ event ∈ events, Traffic.Fits event) →
    conn.run aes events = .ok (final, sent) → ∀ k emission, sent[k]? = some emission →
      EncryptedUnder aes conn.cipher (iv (k + 1)) emission
  next : ∀ events final sent, (∀ event ∈ events, Traffic.Fits event) →
    conn.run aes events = .ok (final, sent) → ∀ call : WriteCall, call.Fits →
      (∀ datagram, 0 < call.trySend datagram) →
        ∃ after emission, final.writes aes [call] = .ok (after, [emission]) ∧
          emission.payload = call.payload ∧
          EncryptedUnder aes conn.cipher (iv (sent.length + 1)) emission

/-- Once keys are set no IV of the sending side is used twice within a full turn of
its counter, whatever is received in between. -/
theorem nonces_count_up (aes : Aes) {before conn : UdpSsl} {key encIv decIv : List UInt8}
    {ivlen : Nat} (set : udpSslSetEncryption before key encIv decIv ivlen = .ok conn)
    (fits : ivlen ≤ 16) (free : before.bufferPool.inUse + 1 < before.bufferPool.buffers.length)
    (large : 1024 ≤ before.bufferPool.size) :
    ∃ iv, CountsUp aes conn (littleEndian (encIv.take ivlen)) ivlen
      (before.cipher.encIv.toList.drop ivlen) iv := by
  obtain ⟨count, number, rest, pool⟩ := setEncryption_counter set fits
  rw [← pool] at free large
  refine ⟨fun k => (incrementIv · conn.cipher.ivlen)^[k] conn.cipher.encIv, ?_, ?_, ?_, ?_, ?_⟩
  · intro k
    have value := ivNumber_iterate conn.cipher.fits conn.cipher.encIv k
    rw [number] at value
    rwa [ivNumber, count] at value
  · intro k
    have kept := @ivRest_iterate conn.cipher.ivlen conn.cipher.encIv k
    rw [rest] at kept
    rwa [ivRest, count] at kept
  · intro i j later turn same
    have turns := (iterate_incrementIv_eq_iff conn.cipher.fits conn.cipher.encIv i j).mp same
    rw [count] at turns
    have divides := (Nat.modEq_iff_dvd' later.le).mp turns
    have reach := Nat.le_of_dvd (Nat.sub_pos_of_lt later) divides
    omega
  · intro events final sent size run k emission found
    have advanced := run_advanced free large size run
    have place := congrArg (·[k]?) advanced.sent
    simp only [wrapFrom_getElem?, List.getElem?_map, found, Option.map_some,
      Option.some.injEq] at place
    have encrypted := encryptedUnder_datagramOf aes conn.cipher
      ((incrementIv · conn.cipher.ivlen)^[k + 1] conn.cipher.encIv) emission.payload
    rwa [← place] at encrypted
  · intro events final sent size run call short taken
    have advanced := run_advanced free large size run
    rw [← advanced.bufferPool] at free large
    have written := udpSslWrite_run aes call.trySend (Nat.lt_of_succ_lt free) large short call.behind
    have next : final.cipher.nextEnc.encIv =
        (incrementIv · conn.cipher.ivlen)^[sent.length + 1] conn.cipher.encIv := by
      change incrementIv final.cipher.encIv final.cipher.ivlen = _
      rw [advanced.ivlen, advanced.encIv, Function.iterate_succ_apply']
    rw [require_true (taken _), ok_bind, next, advanced.key] at written
    refine ⟨{ final with cipher := final.cipher.nextEnc }, ⟨call.payload, _⟩, ?_, rfl,
      encryptedUnder_datagramOf aes conn.cipher _ call.payload⟩
    rw [UdpSsl.writes, written]
    rfl

theorem nonces_count_up_sample : ∃ iv, CountsUp identityAes
    { sampleConn [1] with cipher := { sampleContext [1] with ivlen := 1, fits := by decide } }
    (littleEndian ([1].take 1)) 1 ((sampleConn [9]).cipher.encIv.toList.drop 1) iv :=
  nonces_count_up identityAes
    (show udpSslSetEncryption (sampleConn [9]) (List.replicate 16 0) [1] [1] 1 = _ by decide +kernel)
    (by decide) (by decide) (by decide)

end Mumble

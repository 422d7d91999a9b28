import Mumble.OcbAes
import Mumble.BufferPool

/-! The encrypted UDP connection of `uv_udp_ssl.c`. The kernel and libuv are
parameters: what the rest of a receive buffer holds, and what
`uv_udp_try_send` returns. -/
namespace Mumble
open CExec

/-- The loop of `increment_iv`: a byte that wraps carries into the next one. -/
def incrementBytes : Nat → List UInt8 → List UInt8
  | 0, iv => iv
  | _ + 1, [] => []
  | len + 1, b :: iv => if b + 1 ≠ 0 then (b + 1) :: iv else (b + 1) :: incrementBytes len iv

@[simp] theorem incrementBytes_length (len : Nat) (iv : List UInt8) :
    (incrementBytes len iv).length = iv.length := by
  induction iv generalizing len with
  | nil => cases len <;> rfl
  | cons b iv ih =>
    cases len with
    | zero => rfl
    | succ len =>
      rw [incrementBytes]
      split
      · rfl
      · rw [List.length_cons, ih, List.length_cons]

def incrementIv (iv : Block) (len : UInt8) : Block :=
  .ofList (incrementBytes len.toNat iv.toList) (by
    rw [incrementBytes_length]
    exact Vector.length_toList)

/-- `cb` is whether a callback is installed. -/
structure UdpSsl where
  cipher : OcbAes
  cb : Bool
  bufferPool : BufferPool
  deriving DecidableEq

/-- What the callback is called with: the bytes written to `out`, which has more behind
them, and the length. -/
structure Plaintext where
  buff : List UInt8
  len : Nat
  deriving DecidableEq

def udpSslSetCb (conn : UdpSsl) : UdpSsl := { conn with cb := true }

def udpSslSetEncryption (conn : UdpSsl) (key encIv decIv : List UInt8) (ivlen : Nat) : Run UdpSsl := do
  let cipher ← ocbAesSetKeys conn.cipher key encIv decIv (toInt ivlen)
  .ok { conn with cipher }

section
variable (aes : Aes)

/-- `buf` is the receive buffer, of which the datagram fills the first `len` bytes. -/
def udpSslDecrypt (conn : UdpSsl) (buf : List UInt8) (len : Nat) : Run (UdpSsl × Option Plaintext) := do
  let cipher := { conn.cipher with decIv := incrementIv conn.cipher.decIv conn.cipher.ivlen }
  -- the IV byte and the tag of the header are read and not used again
  let _iv ← load buf 0
  let _tag0 ← load buf 1
  let _tag1 ← load buf 2
  let _tag2 ← load buf 3
  let (out, _intag) ← ocb2AesDecrypt aes cipher (buf.drop 4) (toInt (toSize (len - 4)))
  require (out.length ≤ 10240) .outOfBounds
  .ok ({ conn with cipher }, if conn.cb then some ⟨out, toSize (len - 4)⟩ else none)

def allocCb (conn : UdpSsl) : Run (Nat × UdpSsl) :=
  match bufferPoolAcquire conn.bufferPool with
  | (none, _) => .error .aborted
  | (some base, bufferPool) => .ok (base, { conn with bufferPool })

def recvCb (conn : UdpSsl) (base : Nat) (buf : List UInt8) (nread : Int) :
    Run (UdpSsl × Option Plaintext) := do
  let (conn, delivered) ← if 0 < nread then udpSslDecrypt aes conn buf (toSize nread) else .ok (conn, none)
  let bufferPool ← bufferPoolRelease conn.bufferPool base
  .ok ({ conn with bufferPool }, delivered)

/-- One datagram through libuv: a buffer is allocated, takes as much of the
datagram as it holds, and keeps `stale` bytes behind it. -/
def udpSslReceive (conn : UdpSsl) (datagram stale : List UInt8) : Run (UdpSsl × Option Plaintext) := do
  let (base, conn) ← allocCb conn
  let data := datagram.take conn.bufferPool.size
  recvCb aes conn base (data ++ stale) data.length

/-- The `int` returned, the connection, the bytes of `dest` and the tag. -/
def encryptOcb (conn : UdpSsl) (source : List UInt8) (len : Nat) :
    Run (Int × UdpSsl × List UInt8 × Block) := do
  let cipher := { conn.cipher with encIv := incrementIv conn.cipher.encIv conn.cipher.ivlen }
  let (_, dest, tag) ← ocb2AesEncrypt aes cipher source (toInt len)
  .ok (toInt len, { conn with cipher }, dest, tag)

/-- `trySend` is what `uv_udp_try_send` returns for a datagram. -/
def udpSslWrite (trySend : List UInt8 → Int) (conn : UdpSsl) (buf : List UInt8) (len : Nat) :
    Run (UdpSsl × List UInt8) := do
  require (len ≤ 1020) .aborted
  match bufferPoolAcquire conn.bufferPool with
  | (none, _) => .error .aborted
  | (some base, bufferPool) => do
    let (outSize, conn, dest, tag) ← encryptOcb aes { conn with bufferPool } buf len
    require (4 + dest.length ≤ bufferPool.size) .outOfBounds
    -- `base[0]` is `enc_iv[0]`, and `base[1]` to `base[3]` are `tag[0]` to `tag[2]`
    let header := conn.cipher.encIv.toList.take 1 ++ tag.toList.take 3
    let sendBuffer := (header ++ dest).take (toSize (outSize + 4))
    require (0 < trySend sendBuffer) .assertion
    let bufferPool ← bufferPoolRelease conn.bufferPool base
    .ok ({ conn with bufferPool }, sendBuffer)

end

end Mumble

import Mumble.BufferPool
import Mumble.Lib.Reaches

/-! The TLS connection of `uv_tcp_ssl.c`. OpenSSL, libuv and the application are
parameters. The rest of OpenSSL's state does not see how a write to the network
went, so that each call lists the data it writes there. -/
namespace Mumble
open CExec

/-- What a call of OpenSSL returns, the state it leaves and the pieces it writes to
the write BIO. -/
structure SslCall (σ : Type) where
  ssl : σ
  ret : Int
  output : List (List UInt8)

/-- The calls of OpenSSL, and `BIO_write` on the read BIO. `SSL_read` also yields the
bytes it leaves in a buffer of the given size. -/
structure SslApi (σ : Type) where
  inInit : σ → Bool
  isInitFinished : σ → Bool
  bioWrite : σ → List UInt8 → σ × Int
  read : σ → Nat → SslCall σ × List UInt8
  doHandshake : σ → SslCall σ
  write : σ → List UInt8 → SslCall σ
  getError : σ → Int → Int

/-- The callbacks that are installed. All they can change is a state, and the last
component is the data of their calls of `mumble_uv_ssl_write`, in order. -/
structure SslCallbacks (α : Type) where
  cb : Option (α → List UInt8 → Int → α × List (List UInt8))
  connectCb : Option (α → Int → α × List (List UInt8))

structure UvTcpSsl (σ α : Type) where
  ssl : σ
  app : α
  bufferPool : BufferPool
  deriving DecidableEq

def mumbleConnected : Int := 0

def mumbleFailed : Int := 1

section
variable {σ α : Type} (api : SslApi σ) (callbacks : SslCallbacks α) (tryWrite : List UInt8 → Int)
  (rounds : Nat)

/-- The asserts on what libuv and OpenSSL return stop with `aborted`, which keeps
`assertion` for those on the buffer pool. -/
def uvSslWbioCb (socket : UvTcpSsl σ α) (argp : List UInt8) : Run (UvTcpSsl σ α) :=
  match bufferPoolAcquire socket.bufferPool with
  | (none, _) => .error .assertion
  | (some arg, bufferPool) => do
    require (argp.length ≤ bufferPool.size) .outOfBounds
    require (tryWrite argp = argp.length) .aborted
    let bufferPool ← bufferPoolRelease bufferPool arg
    .ok { socket with bufferPool }

/-- A call of OpenSSL together with the calls of the write BIO's callback. -/
def callSsl (socket : UvTcpSsl σ α) (call : SslCall σ) : Run (UvTcpSsl σ α) :=
  call.output.foldlM (uvSslWbioCb tryWrite) { socket with ssl := call.ssl }

def mumbleUvSslWrite (socket : UvTcpSsl σ α) (buf : List UInt8) : Run (UvTcpSsl σ α) := do
  let call := api.write socket.ssl buf
  let socket ← callSsl tryWrite socket call
  require (1 < call.ret) .aborted
  .ok socket

/-- What an application's callback does. -/
def runCallback (socket : UvTcpSsl σ α) (result : α × List (List UInt8)) : Run (UvTcpSsl σ α) :=
  result.2.foldlM (mumbleUvSslWrite api tryWrite) { socket with app := result.1 }

/-- Whether to retry. The errors of a read are only printed. -/
def uvSslDoRead (socket : UvTcpSsl σ α) : Run (Bool × UvTcpSsl σ α) :=
  match bufferPoolAcquire socket.bufferPool with
  | (none, _) => .error .assertion
  | (some buf, bufferPool) => do
    let (call, data) := api.read socket.ssl bufferPool.size
    let socket ← callSsl tryWrite { socket with bufferPool } call
    let socket ← (match callbacks.cb with
      | some cb =>
        if 0 < call.ret then runCallback api tryWrite socket (cb socket.app data call.ret)
        else .ok socket
      | none => .ok socket)
    let bufferPool ← bufferPoolRelease socket.bufferPool buf
    .ok (decide (0 < call.ret), { socket with bufferPool })

/-- `rounds` bounds the rounds of the loop. -/
def uvSslRead : Nat → UvTcpSsl σ α → Run (UvTcpSsl σ α)
  | 0, _ => .error .endless
  | rounds + 1, socket => do
    let (retry, socket) ← uvSslDoRead api callbacks tryWrite socket
    if retry then uvSslRead rounds socket else .ok socket

/-- The errors 0 and 1 are `SSL_ERROR_NONE` and `SSL_ERROR_SSL`. -/
def uvSslHandshake (socket : UvTcpSsl σ α) : Run (UvTcpSsl σ α) := do
  let call := api.doHandshake socket.ssl
  let socket ← callSsl tryWrite socket call
  let req := api.getError socket.ssl call.ret
  match callbacks.connectCb with
  | some cb =>
    if req = 0 then runCallback api tryWrite socket (cb socket.app mumbleConnected)
    else if req = 1 then runCallback api tryWrite socket (cb socket.app mumbleFailed)
    else .ok socket
  | none => .ok socket

/-- The callback of the read BIO after a write. On other operations it does nothing. -/
def uvSslRbioCb (socket : UvTcpSsl σ α) : Run (UvTcpSsl σ α) :=
  if api.inInit socket.ssl then uvSslHandshake api callbacks tryWrite socket
  else if api.isInitFinished socket.ssl then uvSslRead api callbacks tryWrite rounds socket
  else .error .aborted

def defaultAllocCb (socket : UvTcpSsl σ α) : Run (Nat × UvTcpSsl σ α) :=
  match bufferPoolAcquire socket.bufferPool with
  | (none, _) => .error .assertion
  | (some base, bufferPool) => .ok (base, { socket with bufferPool })

/-- A socket always has a read BIO, whose callback returns what it is given. -/
def uvSslReadCb (socket : UvTcpSsl σ α) (base : Nat) (buf : List UInt8) (nread : Int) :
    Run (UvTcpSsl σ α) :=
  if 0 < nread then do
    let data ← slice buf (toInt nread).toNat
    let (ssl, ret) := api.bioWrite socket.ssl data
    let socket ← uvSslRbioCb api callbacks tryWrite rounds { socket with ssl }
    require (ret = nread) .aborted
    let bufferPool ← bufferPoolRelease socket.bufferPool base
    .ok { socket with bufferPool }
  else .ok socket

def uvSslConnectCb (socket : UvTcpSsl σ α) (status : Int) : Run (UvTcpSsl σ α) := do
  require (status = 0) .aborted
  uvSslHandshake api callbacks tryWrite socket

end

/-- A read of libuv, which leaves `nread` bytes in `buf` or none, or a write of the
application. -/
inductive TcpEvent where
  | read (buf : List UInt8) (nread : Int) (tryWrite : List UInt8 → Int)
  | write (buf : List UInt8) (tryWrite : List UInt8 → Int)

def UvTcpSsl.step {σ α : Type} (api : SslApi σ) (callbacks : SslCallbacks α) (rounds : Nat)
    (socket : UvTcpSsl σ α) : TcpEvent → Run (UvTcpSsl σ α)
  | .read buf nread tryWrite => do
    let (base, socket) ← defaultAllocCb socket
    uvSslReadCb api callbacks tryWrite rounds socket base buf nread
  | .write buf tryWrite => mumbleUvSslWrite api tryWrite socket buf

/-- The runs of events that all return. -/
def UvTcpSsl.Reaches {σ α : Type} (api : SslApi σ) (callbacks : SslCallbacks α) (rounds : Nat) :
    UvTcpSsl σ α → List TcpEvent → UvTcpSsl σ α → Prop :=
  Transition.Reaches fun socket event next => socket.step api callbacks rounds event = .ok next

end Mumble

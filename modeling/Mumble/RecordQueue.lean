import Mumble.UvTcpSsl

/-! OpenSSL as a queue of records. What the peer sends is known from the start, and
the bytes that have arrived say which of its records are complete. -/
namespace Mumble
open CExec

/-- The data of a record, which fills at most the largest plaintext of TLS. -/
structure ApplicationData where
  bytes : List UInt8
  nonempty : bytes ≠ []
  fits : bytes.length ≤ 16384
  deriving DecidableEq

/-- A record of a header and `size` bytes on the network. -/
inductive Record where
  | handshake (size : Nat)
  | application (size : Nat) (data : ApplicationData)
  deriving DecidableEq

def Record.size : Record → Nat
  | .handshake size => 5 + size
  | .application size _ => 5 + size

def Record.isHandshake : Record → Bool
  | .handshake _ => true
  | .application _ _ => false

/-- The data of the application records, in order. -/
def applicationData (records : List Record) : List (List UInt8) :=
  records.filterMap fun
    | .handshake _ => none
    | .application _ data => some data.bytes

/-- The records that the first bytes complete, the others, and the bytes that are
left for these. -/
def settle : List Record → Nat → List Record × List Record × Nat
  | [], bytes => ([], [], bytes)
  | record :: records, bytes =>
    if record.size ≤ bytes then
      let (complete, coming, arrived) := settle records (bytes - record.size)
      (record :: complete, coming, arrived)
    else ([], record :: records, bytes)

/-- The records that are not complete with the bytes of theirs that have arrived, the
complete ones that have not been consumed, and the flag of `SSL_in_init`. -/
structure RecordQueue where
  coming : List Record
  arrived : Nat
  queue : List Record
  inInit : Bool
  deriving DecidableEq

/-- The first application record of a queue and the queue without it. -/
def takeApplication : List Record → Option (ApplicationData × List Record)
  | [] => none
  | .application _ data :: records => some (data, records)
  | .handshake size :: records => do
    let (data, rest) ← takeApplication records
    some (data, .handshake size :: rest)

def RecordQueue.write (q : RecordQueue) (data : List UInt8) : RecordQueue :=
  let (complete, coming, arrived) := settle q.coming (q.arrived + data.length)
  { q with coming, arrived, queue := q.queue ++ complete }

/-- The flag is cleared once no handshake record is to come. -/
def RecordQueue.handshake (q : RecordQueue) : RecordQueue :=
  { q with
    queue := q.queue.filter fun record => !record.isHandshake
    inInit := q.inInit && q.coming.any Record.isHandshake }

/-- A buffer too small for the data of a record leaves the rest of it in the queue. -/
def RecordQueue.read (q : RecordQueue) (size : Nat) : SslCall RecordQueue × List UInt8 :=
  match takeApplication q.queue with
  | none => (⟨q, -1, []⟩, [])
  | some (data, queue) =>
    if small : data.bytes.length ≤ size then (⟨{ q with queue }, data.bytes.length, []⟩, data.bytes)
    else
      let rest : ApplicationData := {
        bytes := data.bytes.drop size
        nonempty := by rw [Ne, List.drop_eq_nil_iff]; exact small
        fits := by
          rw [List.length_drop]
          exact (Nat.sub_le _ _).trans data.fits }
      (⟨{ q with queue := .application 0 rest :: queue }, size, []⟩, data.bytes.take size)

/-- The records that are sent to the peer do not matter here: `flight` are those of a
handshake, and `wrap` those of some data. -/
def recordSsl (flight : RecordQueue → List (List UInt8))
    (wrap : List UInt8 → List (List UInt8)) : SslApi RecordQueue where
  inInit := RecordQueue.inInit
  isInitFinished := fun q => !q.inInit
  bioWrite := fun q data => (q.write data, data.length)
  read := RecordQueue.read
  doHandshake := fun q => ⟨q.handshake, if q.handshake.inInit then -1 else 1, flight q⟩
  write := fun q buf => ⟨q, buf.length, wrap buf⟩
  -- `SSL_ERROR_NONE` and `SSL_ERROR_WANT_READ`
  getError := fun _ ret => if 0 < ret then 0 else 2

/-- A callback that also notes down what it is given to read. -/
def note {α : Type} (cb : α → List UInt8 → Int → α × List (List UInt8))
    (state : α × List (List UInt8)) (buf : List UInt8) (size : Int) :
    (α × List (List UInt8)) × List (List UInt8) :=
  let (app, writes) := cb state.1 buf size
  ((app, state.2 ++ [buf.take size.toNat]), writes)

def noting {α : Type} (cb : α → List UInt8 → Int → α × List (List UInt8))
    (connectCb : Option (α → Int → α × List (List UInt8))) :
    SslCallbacks (α × List (List UInt8)) where
  cb := some (note cb)
  connectCb := connectCb.map fun connected state status =>
    let (app, writes) := connected state.1 status
    ((app, state.2), writes)

end Mumble

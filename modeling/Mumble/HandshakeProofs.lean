import Mumble.RecordQueue
import Mumble.Lib.Contract

/-! Application data that arrives together with the end of the handshake is left
unread. -/
namespace Mumble
open CExec

/-- The records that the first bytes of a script complete. -/
def complete (script : List Record) (bytes : Nat) : List Record := (settle script bytes).1

/-- The records that they do not complete. -/
def outstanding (script : List Record) (bytes : Nat) : List Record := (settle script bytes).2.1

/-- The bytes left for these. -/
def leftOver (script : List Record) (bytes : Nat) : Nat := (settle script bytes).2.2

section Settle
variable {record : Record} {records : List Record} {n : Nat}

theorem settle_whole (whole : record.size ≤ n) : settle (record :: records) n =
    (record :: complete records (n - record.size), outstanding records (n - record.size),
      leftOver records (n - record.size)) := by
  rw [settle, if_pos whole]
  rfl

theorem settle_part (part : ¬ record.size ≤ n) :
    settle (record :: records) n = ([], record :: records, n) := by
  rw [settle, if_neg part]

/-- Bytes that arrive in two portions complete the same records. -/
theorem settle_add (script : List Record) (n m : Nat) : settle script (n + m) =
    (complete script n ++ complete (outstanding script n) (leftOver script n + m),
      outstanding (outstanding script n) (leftOver script n + m),
      leftOver (outstanding script n) (leftOver script n + m)) := by
  induction script generalizing n with
  | nil => rfl
  | cons record records ih =>
    by_cases whole : record.size ≤ n
    · have rest : n + m - record.size = n - record.size + m := by omega
      have first := @settle_whole record records n whole
      have later := ih (n - record.size)
      rw [settle_whole (whole.trans (Nat.le_add_right n m)), rest]
      unfold complete outstanding leftOver at later ⊢
      rw [first, later]
      rfl
    · unfold complete outstanding leftOver
      rw [settle_part whole]
      rfl

theorem complete_append (script : List Record) (n : Nat) :
    complete script n ++ outstanding script n = script := by
  induction script generalizing n with
  | nil => rfl
  | cons record records ih =>
    unfold complete outstanding
    by_cases whole : record.size ≤ n
    · rw [settle_whole whole, List.cons_append, ih]
    · rw [settle_part whole, List.nil_append]

theorem settle_zero (script : List Record) : settle script 0 = ([], script, 0) := by
  cases script with
  | nil => rfl
  | cons record records =>
    apply settle_part
    cases record <;> exact Nat.not_le_of_lt (Nat.lt_add_right _ (by decide))

end Settle

@[simp] theorem applicationData_append (first rest : List Record) :
    applicationData (first ++ rest) = applicationData first ++ applicationData rest :=
  List.filterMap_append ..

/-- The records that are consumed by a handshake carry no data. -/
theorem applicationData_filter (records : List Record) :
    applicationData (records.filter fun record => !record.isHandshake) = applicationData records := by
  induction records with
  | nil => rfl
  | cons record records ih =>
    cases record with
    | handshake size => exact ih
    | application size data => exact congrArg (data.bytes :: ·) ih

section Calls
variable {σ α : Type} {tryWrite : List UInt8 → Int} {socket : UvTcpSsl σ α}

/-- A part of the code that comes to an end, with OpenSSL in this state, the callbacks
in that one, and buffers of this size. -/
def Leaves (ssl : σ) (app : α) (size : Nat) (run : Run (UvTcpSsl σ α)) : Prop :=
  Avoids .endless run fun after =>
    after.ssl = ssl ∧ after.app = app ∧ after.bufferPool.size = size

theorem bufferPoolRelease_size (pool : BufferPool) (buf : Nat) :
    Avoids .endless (bufferPoolRelease pool buf) fun after => after.size = pool.size := by
  unfold bufferPoolRelease
  split
  · split
    · exact .ok rfl
    · exact .error (by decide)
  · exact .ok rfl

theorem uvSslWbioCb_leaves (argp : List UInt8) : Leaves socket.ssl socket.app socket.bufferPool.size
    (uvSslWbioCb tryWrite socket argp) := by
  rw [uvSslWbioCb]
  rcases bufferPoolAcquire_cases socket.bufferPool with exhausted | ⟨arg, held, acquired, size⟩
  · rw [exhausted]
    exact .error (by decide)
  · rw [acquired]
    refine .require (by decide) fun _ => .require (by decide) fun _ => ?_
    exact (bufferPoolRelease_size held arg).bind fun after same => .ok ⟨rfl, rfl, same.trans size⟩

theorem callSsl_leaves (call : SslCall σ) : Leaves call.ssl socket.app socket.bufferPool.size
    (callSsl tryWrite socket call) := by
  refine .foldlM (fun other argp _ same => ?_) ⟨rfl, rfl, rfl⟩
  obtain ⟨ssl, app, size⟩ := same
  rw [← ssl, ← app, ← size]
  exact uvSslWbioCb_leaves argp

end Calls

section Queue
variable {α : Type} {flight : RecordQueue → List (List UInt8)} {wrap : List UInt8 → List (List UInt8)}
  {tryWrite : List UInt8 → Int} {socket : UvTcpSsl RecordQueue α}

/-- What is written to the peer leaves the records from it alone. -/
theorem mumbleUvSslWrite_leaves (buf : List UInt8) :
    Leaves socket.ssl socket.app socket.bufferPool.size
      (mumbleUvSslWrite (recordSsl flight wrap) tryWrite socket buf) :=
  (callSsl_leaves _).bind fun _ same => .require (by decide) fun _ => .ok same

theorem runCallback_leaves (result : α × List (List UInt8)) :
    Leaves socket.ssl result.1 socket.bufferPool.size
      (runCallback (recordSsl flight wrap) tryWrite socket result) := by
  refine .foldlM (fun other buf _ same => ?_) ⟨rfl, rfl, rfl⟩
  obtain ⟨ssl, app, size⟩ := same
  rw [← ssl, ← app, ← size]
  exact mumbleUvSslWrite_leaves buf

variable {cb : α → List UInt8 → Int → α × List (List UInt8)}
  {connectCb : Option (α → Int → α × List (List UInt8))}
  {reader : UvTcpSsl RecordQueue (α × List (List UInt8))}

theorem uvSslDoRead_leaves (call : SslCall RecordQueue) (data : List UInt8)
    (read : reader.ssl.read reader.bufferPool.size = (call, data)) :
    Avoids .endless (uvSslDoRead (recordSsl flight wrap) (noting cb connectCb) tryWrite reader)
      fun after => after.1 = decide (0 < call.ret) ∧ after.2.ssl = call.ssl ∧
        after.2.app.2 = reader.app.2 ++ (if 0 < call.ret then [data.take call.ret.toNat] else []) ∧
        after.2.bufferPool.size = reader.bufferPool.size := by
  rw [uvSslDoRead]
  rcases bufferPoolAcquire_cases reader.bufferPool with exhausted | ⟨arg, held, acquired, size⟩
  · rw [exhausted]
    exact .error (by decide)
  rw [acquired]
  rw [← size] at read ⊢
  change Avoids _ (do
    let socket ← callSsl tryWrite { reader with bufferPool := held } (reader.ssl.read held.size).1
    let socket ← (if 0 < (reader.ssl.read held.size).1.ret then
        runCallback (recordSsl flight wrap) tryWrite socket
          (note cb socket.app (reader.ssl.read held.size).2 (reader.ssl.read held.size).1.ret)
      else .ok socket)
    let bufferPool ← bufferPoolRelease socket.bufferPool arg
    .ok (decide (0 < (reader.ssl.read held.size).1.ret), { socket with bufferPool })) _
  rw [read]
  refine (callSsl_leaves call).bind fun other same => ?_
  obtain ⟨ssl, app, kept⟩ := same
  split
  next positive =>
    refine (runCallback_leaves _).bind fun after same => ?_
    obtain ⟨sameSsl, noted, same⟩ := same
    refine (bufferPoolRelease_size _ _).bind fun pool released => .ok ?_
    refine ⟨rfl, sameSsl.trans ssl, ?_, released.trans (same.trans kept)⟩
    rw [noted]
    exact congrArg (fun state => state.2 ++ _) app
  next none =>
    refine (bufferPoolRelease_size _ _).bind fun pool released => .ok ?_
    refine ⟨rfl, ssl, ?_, released.trans kept⟩
    rw [List.append_nil]
    exact congrArg Prod.snd app

theorem read_empty {q : RecordQueue} (empty : q.queue = []) (size : Nat) :
    q.read size = (⟨q, -1, []⟩, []) := by
  rw [RecordQueue.read, empty]
  rfl

theorem read_next {q : RecordQueue} {size : Nat} {data : ApplicationData} {rest : List Record}
    {large : Nat} (first : q.queue = .application size data :: rest) (room : 16384 ≤ large) :
    q.read large = (⟨{ q with queue := rest }, data.bytes.length, []⟩, data.bytes) := by
  rw [RecordQueue.read, first]
  exact dif_pos (data.fits.trans room)

/-- With enough rounds all complete records are read. -/
theorem uvSslRead_leaves {rounds : Nat} (queue : List Record)
    (first : reader.ssl.queue = queue) (clean : ∀ record ∈ queue, record.isHandshake = false)
    (enough : queue.length < rounds) (room : 16384 ≤ reader.bufferPool.size) :
    Avoids .endless (uvSslRead (recordSsl flight wrap) (noting cb connectCb) tryWrite rounds reader)
      fun after => after.ssl = { reader.ssl with queue := [] } ∧
        after.app.2 = reader.app.2 ++ applicationData queue ∧
        after.bufferPool.size = reader.bufferPool.size := by
  induction queue generalizing rounds reader with
  | nil =>
    cases rounds with
    | zero => cases enough
    | succ rounds =>
      refine (uvSslDoRead_leaves _ _ (read_empty first _)).bind ?_
      rintro ⟨retry, after⟩ ⟨stop, ssl, log, size⟩
      obtain rfl : retry = false := stop
      refine .ok ⟨?_, log, size⟩
      rw [ssl, ← first]
  | cons record queue ih =>
    cases rounds with
    | zero => cases enough
    | succ rounds =>
      cases record with
      | handshake size => cases clean _ List.mem_cons_self
      | application size data =>
        refine (uvSslDoRead_leaves _ _ (read_next first room)).bind ?_
        rintro ⟨retry, after⟩ ⟨again, ssl, log, kept⟩
        have positive : (0 : Int) < data.bytes.length :=
          Int.natCast_pos.mpr (List.length_pos_iff.mpr data.nonempty)
        dsimp only at again ssl log kept ⊢
        rw [if_pos positive, Int.toNat_natCast, List.take_length] at log
        rw [again, if_pos (decide_eq_true positive)]
        have queued : after.ssl.queue = queue := by rw [ssl]
        rw [← kept] at room
        have next := ih queued (fun other member => clean other (List.mem_cons_of_mem _ member))
          (Nat.lt_of_succ_lt_succ enough) room
        refine next.mono fun last rest => ?_
        obtain ⟨sslRest, logRest, sizeRest⟩ := rest
        refine ⟨?_, ?_, sizeRest.trans kept⟩
        · rw [sslRest, ssl]
        · rw [logRest, log, List.append_assoc]
          rfl

theorem uvSslHandshake_leaves :
    Avoids .endless (uvSslHandshake (recordSsl flight wrap) (noting cb connectCb) tryWrite reader)
      fun after => after.ssl = reader.ssl.handshake ∧ after.app.2 = reader.app.2 ∧
        after.bufferPool.size = reader.bufferPool.size := by
  refine (callSsl_leaves _).bind fun other same => ?_
  obtain ⟨ssl, app, size⟩ := same
  rw [← app, ← size]
  have called : ∀ result : (α × List (List UInt8)) × List (List UInt8), result.1.2 = other.app.2 →
      Avoids .endless (runCallback (recordSsl flight wrap) tryWrite other result)
        fun after => after.ssl = reader.ssl.handshake ∧ after.app.2 = other.app.2 ∧
          after.bufferPool.size = other.bufferPool.size := by
    intro result kept
    refine (runCallback_leaves result).mono fun after ended => ?_
    obtain ⟨sslAfter, appAfter, sizeAfter⟩ := ended
    exact ⟨sslAfter.trans ssl, (congrArg Prod.snd appAfter).trans kept, sizeAfter⟩
  cases connectCb with
  | none => exact .ok ⟨ssl, rfl, rfl⟩
  | some connected =>
    dsimp only [noting, Option.map_some]
    split
    · exact called _ rfl
    · split
      · exact called _ rfl
      · exact .ok ⟨ssl, rfl, rfl⟩

end Queue

/-- The state of a connection after the first `n` bytes of the script. -/
structure Tracks {α : Type} (script : List Record) (n : Nat)
    (socket : UvTcpSsl RecordQueue (α × List (List UInt8))) : Prop where
  coming : socket.ssl.coming = outstanding script n
  arrived : socket.ssl.arrived = leftOver script n
  clean : ∀ record ∈ socket.ssl.queue, record.isHandshake = false
  count : socket.ssl.queue.length ≤ (complete script n).length
  inInit : socket.ssl.inInit = (outstanding script n).any Record.isHandshake
  silent : socket.ssl.inInit = true → socket.app.2 = []
  log : socket.app.2 ++ applicationData socket.ssl.queue = applicationData (complete script n)
  room : 16384 ≤ socket.bufferPool.size

/-- The handshake is unfinished, or `cb` has been given the data of every complete
record. -/
def AllRead {α : Type} (script : List Record) (n : Nat)
    (socket : UvTcpSsl RecordQueue (α × List (List UInt8))) : Prop :=
  socket.ssl.inInit = true ∨ socket.app.2 = applicationData (complete script n)

/-- The bytes from `before` to `after` complete the last handshake record, and an
application record is complete then. -/
def Straddles (script : List Record) (before after : Nat) : Prop :=
  (outstanding script before).any Record.isHandshake = true ∧
    (outstanding script after).any Record.isHandshake = false ∧
    applicationData (complete script after) ≠ []

section Runs
variable {α : Type} {flight : RecordQueue → List (List UInt8)} {wrap : List UInt8 → List (List UInt8)}
  {tryWrite : List UInt8 → Int} {cb : α → List UInt8 → Int → α × List (List UInt8)}
  {connectCb : Option (α → Int → α × List (List UInt8))} {rounds n : Nat} {script : List Record}
  {socket reader : UvTcpSsl RecordQueue (α × List (List UInt8))}

/-- The queue after some more bytes: the records that they complete join it. -/
structure Grown (script : List Record) (n m : Nat) (before q : RecordQueue) : Prop where
  coming : q.coming = outstanding script (n + m)
  arrived : q.arrived = leftOver script (n + m)
  inInit : q.inInit = before.inInit
  queue : ∃ new, q.queue = before.queue ++ new ∧
    complete script (n + m) = complete script n ++ new ∧
    new ++ outstanding script (n + m) = outstanding script n

theorem Tracks.write (tracks : Tracks script n socket) (data : List UInt8) :
    Grown script n data.length socket.ssl (socket.ssl.write data) := by
  have sum := settle_add script n data.length
  have rest : outstanding script (n + data.length) = _ := congrArg (·.2.1) sum
  rw [RecordQueue.write, tracks.coming, tracks.arrived]
  refine ⟨rest.symm, (congrArg (·.2.2) sum).symm, rfl, _, rfl, congrArg (·.1) sum, ?_⟩
  rw [rest]
  exact complete_append _ _

variable (reader) in
theorem uvSslRbioCb_init (init : reader.ssl.inInit = true) :
    uvSslRbioCb (recordSsl flight wrap) (noting cb connectCb) tryWrite rounds reader =
      uvSslHandshake (recordSsl flight wrap) (noting cb connectCb) tryWrite reader :=
  if_pos init

variable (reader) in
theorem uvSslRbioCb_finished (finished : reader.ssl.inInit = false) :
    uvSslRbioCb (recordSsl flight wrap) (noting cb connectCb) tryWrite rounds reader =
      uvSslRead (recordSsl flight wrap) (noting cb connectCb) tryWrite rounds reader := by
  have other : ¬ (recordSsl flight wrap).inInit reader.ssl = true := by
    change ¬ reader.ssl.inInit = true
    rw [finished]
    exact Bool.false_ne_true
  have done : (recordSsl flight wrap).isInitFinished reader.ssl = true := by
    change (!reader.ssl.inInit) = true
    rw [finished]
    rfl
  rw [uvSslRbioCb, if_neg other, if_pos done]

theorem Tracks.pending (tracks : Tracks script n socket) {m : Nat} {q : RecordQueue}
    (grown : Grown script n m socket.ssl q) :
    socket.app.2 ++ applicationData q.queue = applicationData (complete script (n + m)) := by
  obtain ⟨new, queue, completed, -⟩ := grown.queue
  rw [queue, completed, applicationData_append, applicationData_append, ← List.append_assoc,
    tracks.log]

theorem Tracks.grown_count (tracks : Tracks script n socket) {m : Nat} {q : RecordQueue}
    (grown : Grown script n m socket.ssl q) : q.queue.length ≤ (complete script (n + m)).length := by
  obtain ⟨new, queue, completed, -⟩ := grown.queue
  rw [queue, completed, List.length_append, List.length_append]
  exact Nat.add_le_add_right tracks.count _

/-- No handshake record comes after the last one. -/
theorem Tracks.grown_clean (tracks : Tracks script n socket) {m : Nat} {q : RecordQueue}
    (grown : Grown script n m socket.ssl q) (finished : socket.ssl.inInit = false) :
    (∀ record ∈ q.queue, record.isHandshake = false) ∧
      ∀ record ∈ outstanding script (n + m), record.isHandshake = false := by
  obtain ⟨new, queue, -, split⟩ := grown.queue
  have none : ∀ record ∈ new ++ outstanding script (n + m), record.isHandshake = false := by
    rw [split]
    intro record member
    exact Bool.not_eq_true _ ▸ List.any_eq_false.mp (tracks.inInit.symm.trans finished) record member
  refine ⟨fun record member => ?_, fun record member => none record (List.mem_append_right _ member)⟩
  rw [queue] at member
  rcases List.mem_append.mp member with old | added
  · exact tracks.clean record old
  · exact none record (List.mem_append_left _ added)

/-- A chunk that arrives before the handshake has finished goes to the handshake. -/
theorem Tracks.handshakes (tracks : Tracks script n socket) (init : socket.ssl.inInit = true)
    {m : Nat} {q : RecordQueue} (grown : Grown script n m socket.ssl q) :
    Avoids .endless (uvSslHandshake (recordSsl flight wrap) (noting cb connectCb) tryWrite
        { socket with ssl := q })
      fun after => Tracks script (n + m) after ∧
        (AllRead script (n + m) after ↔ ¬ Straddles script n (n + m)) := by
  refine uvSslHandshake_leaves.mono fun after ended => ?_
  obtain ⟨ssl, log, size⟩ := ended
  have quiet : after.app.2 = [] := log.trans (tracks.silent init)
  have before := tracks.inInit.symm.trans init
  have flag : after.ssl.inInit = (outstanding script (n + m)).any Record.isHandshake := by
    rw [ssl, RecordQueue.handshake, grown.inInit, init, Bool.true_and, grown.coming]
  refine ⟨⟨?_, ?_, ?_, ?_, flag, fun _ => quiet, ?_, ?_⟩, ?_⟩
  · rw [ssl]
    exact grown.coming
  · rw [ssl]
    exact grown.arrived
  · rw [ssl]
    intro record member
    have kept := (List.mem_filter.mp member).2
    rwa [Bool.not_eq_true'] at kept
  · rw [ssl]
    exact (List.length_filter_le _ _).trans (tracks.grown_count grown)
  · rw [ssl, RecordQueue.handshake, applicationData_filter, log]
    exact tracks.pending grown
  · rw [size]
    exact tracks.room
  · rw [AllRead, Straddles, quiet, flag, before]
    constructor
    · rintro (unfinished | nothing) ⟨-, finished, some⟩
      · cases unfinished.symm.trans finished
      · exact some nothing.symm
    · intro apart
      by_contra unread
      obtain ⟨finished, some⟩ := not_or.mp unread
      exact apart ⟨rfl, Bool.not_eq_true _ ▸ finished, Ne.symm some⟩

/-- After the handshake, everything that is complete is read. -/
theorem Tracks.reads (tracks : Tracks script n socket) (finished : socket.ssl.inInit = false)
    (enough : script.length < rounds) {m : Nat} {q : RecordQueue}
    (grown : Grown script n m socket.ssl q) :
    Avoids .endless (uvSslRead (recordSsl flight wrap) (noting cb connectCb) tryWrite rounds
        { socket with ssl := q })
      fun after => Tracks script (n + m) after ∧
        (AllRead script (n + m) after ↔ ¬ Straddles script n (n + m)) := by
  obtain ⟨clean, none⟩ := tracks.grown_clean grown finished
  have short : q.queue.length < rounds := by
    have all := congrArg List.length (complete_append script (n + m))
    rw [List.length_append] at all
    have count := tracks.grown_count grown
    omega
  have reads := @uvSslRead_leaves _ flight wrap tryWrite cb connectCb { socket with ssl := q } rounds
    _ rfl clean short tracks.room
  refine reads.mono fun after ended => ?_
  obtain ⟨ssl, log, size⟩ := ended
  have read : after.app.2 = applicationData (complete script (n + m)) :=
    log.trans (tracks.pending grown)
  have flag : after.ssl.inInit = false := by
    rw [ssl]
    exact grown.inInit.trans finished
  refine ⟨⟨?_, ?_, ?_, ?_, ?_, ?_, ?_, ?_⟩, ?_⟩
  · rw [ssl]
    exact grown.coming
  · rw [ssl]
    exact grown.arrived
  · rw [ssl]
    intro record member
    cases member
  · rw [ssl]
    exact Nat.zero_le _
  · rw [flag]
    symm
    rw [List.any_eq_false]
    intro record member
    rw [none record member]
    exact Bool.false_ne_true
  · intro again
    cases flag.symm.trans again
  · rw [ssl, read]
    exact List.append_nil _
  · rw [size]
    exact tracks.room
  · refine ⟨fun _ straddles => ?_, fun _ => .inr read⟩
    cases (tracks.inInit.symm.trans finished).symm.trans straddles.1

/-- The callback of the read BIO keeps track, and reads everything unless the chunk
straddles the end of the handshake. -/
theorem Tracks.handled (tracks : Tracks script n socket) (enough : script.length < rounds)
    (data : List UInt8) :
    Avoids .endless (uvSslRbioCb (recordSsl flight wrap) (noting cb connectCb) tryWrite rounds
        { socket with ssl := socket.ssl.write data })
      fun after => Tracks script (n + data.length) after ∧
        (AllRead script (n + data.length) after ↔ ¬ Straddles script n (n + data.length)) := by
  have grown := tracks.write data
  cases init : socket.ssl.inInit with
  | true =>
    rw [uvSslRbioCb_init { socket with ssl := socket.ssl.write data } (grown.inInit.trans init)]
    exact tracks.handshakes init grown
  | false =>
    rw [uvSslRbioCb_finished { socket with ssl := socket.ssl.write data } (grown.inInit.trans init)]
    exact tracks.reads init enough grown

/-- Only the state of OpenSSL, what has been noted and the size of the buffers count. -/
theorem Tracks.congr (tracks : Tracks script n socket) (ssl : reader.ssl = socket.ssl)
    (log : reader.app.2 = socket.app.2) (room : 16384 ≤ reader.bufferPool.size) :
    Tracks script n reader := by
  obtain ⟨coming, arrived, clean, count, inInit, silent, all, -⟩ := tracks
  rw [← ssl] at coming arrived clean count inInit silent all
  rw [← log] at silent all
  exact ⟨coming, arrived, clean, count, inInit, silent, all, room⟩

theorem Tracks.read (tracks : Tracks script n socket) (enough : script.length < rounds)
    (buf : List UInt8) {nread : Int} (positive : 0 < nread) :
    Avoids .endless (socket.step (recordSsl flight wrap) (noting cb connectCb) rounds
        (.read buf nread tryWrite))
      fun after => Tracks script (n + nread.toNat) after ∧
        (AllRead script (n + nread.toNat) after ↔ ¬ Straddles script n (n + nread.toNat)) := by
  rw [UvTcpSsl.step, defaultAllocCb]
  rcases bufferPoolAcquire_cases socket.bufferPool with exhausted | ⟨base, held, acquired, size⟩
  · rw [exhausted]
    exact .error (by decide)
  have room : 16384 ≤ held.size := size ▸ tracks.room
  have holding : Tracks script n ⟨socket.ssl, socket.app, held⟩ := tracks.congr rfl rfl room
  rw [acquired]
  dsimp only
  rw [ok_bind, uvSslReadCb, if_pos positive]
  refine .slice (by decide) fun _ => ?_
  refine (holding.handled enough _).bind fun after kept => ?_
  obtain ⟨tracks, reads⟩ := kept
  refine .require (by decide) fun whole => ?_
  have count : nread.toNat = (buf.take (toInt nread).toNat).length := by
    have length := congrArg Int.toNat whole
    exact length.symm
  rw [count]
  refine (bufferPoolRelease_size _ _).bind fun pool same => .ok ⟨?_, reads⟩
  exact tracks.congr rfl rfl (same ▸ tracks.room)

end Runs

/-- The bytes that come with an event. -/
def TcpEvent.bytes : TcpEvent → Nat
  | .read _ nread _ => nread.toNat
  | .write _ _ => 0

def bytesOf (events : List TcpEvent) : Nat := (events.map TcpEvent.bytes).sum

section Script
variable {α : Type} {flight : RecordQueue → List (List UInt8)} {wrap : List UInt8 → List (List UInt8)}
  {tryWrite : List UInt8 → Int} {cb : α → List UInt8 → Int → α × List (List UInt8)}
  {connectCb : Option (α → Int → α × List (List UInt8))} {rounds n : Nat} {script : List Record}
  {socket : UvTcpSsl RecordQueue (α × List (List UInt8))}

theorem Tracks.step (tracks : Tracks script n socket) (enough : script.length < rounds)
    (event : TcpEvent) :
    Avoids .endless (socket.step (recordSsl flight wrap) (noting cb connectCb) rounds event)
      fun after => Tracks script (n + event.bytes) after := by
  cases event with
  | read buf nread tryWrite =>
    by_cases positive : 0 < nread
    · exact (tracks.read enough buf positive).mono fun _ kept => kept.1
    · have nothing : n + (TcpEvent.read buf nread tryWrite).bytes = n := by
        rw [TcpEvent.bytes, Int.toNat_of_nonpos (Int.not_lt.mp positive), Nat.add_zero]
      rw [nothing, UvTcpSsl.step, defaultAllocCb]
      rcases bufferPoolAcquire_cases socket.bufferPool with
        exhausted | ⟨base, held, acquired, size⟩
      · rw [exhausted]
        exact .error (by decide)
      · rw [acquired]
        dsimp only
        rw [ok_bind, uvSslReadCb, if_neg positive]
        exact .ok (tracks.congr rfl rfl (size ▸ tracks.room))
  | write buf tryWrite =>
    refine (mumbleUvSslWrite_leaves buf).mono fun after same => ?_
    obtain ⟨ssl, app, size⟩ := same
    exact tracks.congr ssl (congrArg Prod.snd app) (size ▸ tracks.room)

/-- The connection callback begins the handshake, which has nothing to consume yet. -/
theorem connect_tracks {app : α} {bufferPool : BufferPool} (room : 16384 ≤ bufferPool.size) :
    Avoids .endless (uvSslConnectCb (recordSsl flight wrap) (noting cb connectCb) tryWrite
        ⟨⟨script, 0, [], true⟩, (app, []), bufferPool⟩ 0)
      fun connected => Tracks script 0 connected := by
  refine .require (by decide) fun _ => uvSslHandshake_leaves.mono fun connected ended => ?_
  obtain ⟨ssl, log, size⟩ := ended
  have coming : outstanding script 0 = script := congrArg (·.2.1) (settle_zero script)
  have arrived : leftOver script 0 = 0 := congrArg (·.2.2) (settle_zero script)
  have nothing : complete script 0 = [] := congrArg (·.1) (settle_zero script)
  refine ⟨?_, ?_, ?_, ?_, ?_, fun _ => log, ?_, ?_⟩
  · rw [ssl, coming]
    rfl
  · rw [ssl, arrived]
    rfl
  · rw [ssl]
    intro record member
    cases member
  · rw [ssl]
    exact Nat.zero_le _
  · rw [ssl, coming]
    rfl
  · rw [ssl, log, nothing]
    rfl
  · rw [size]
    exact room

theorem reaches_tracks (enough : script.length < rounds)
    {connected : UvTcpSsl RecordQueue (α × List (List UInt8))} (start : Tracks script 0 connected)
    {events : List TcpEvent} (run : connected.Reaches (recordSsl flight wrap) (noting cb connectCb)
      rounds events socket) : Tracks script (bytesOf events) socket := by
  refine run.invariant (fun events socket => Tracks script (bytesOf events) socket) start ?_
  intro events socket event next _ stepped tracks
  have total : bytesOf (events ++ [event]) = bytesOf events + event.bytes := by
    rw [bytesOf, List.map_append, List.sum_append]
    exact congrArg _ (Nat.add_zero _)
  rw [total]
  exact (tracks.step enough event).result stepped

end Script

/-- After a chunk the handshake is unfinished or all complete application records have
been read, exactly if the chunk does not contain the end of the handshake while an
application record is complete. No chunk is read for ever. -/
theorem application_data_read_iff {α : Type} (flight : RecordQueue → List (List UInt8))
    (wrap : List UInt8 → List (List UInt8)) (cb : α → List UInt8 → Int → α × List (List UInt8))
    (connectCb : Option (α → Int → α × List (List UInt8))) {rounds : Nat} {script : List Record}
    (enough : script.length < rounds) (app : α) {bufferPool : BufferPool}
    (room : 16384 ≤ bufferPool.size) {tryWrite : List UInt8 → Int}
    {connected socket : UvTcpSsl RecordQueue (α × List (List UInt8))}
    (connect : uvSslConnectCb (recordSsl flight wrap) (noting cb connectCb) tryWrite
      ⟨⟨script, 0, [], true⟩, (app, []), bufferPool⟩ 0 = .ok connected) {events : List TcpEvent}
    (run : connected.Reaches (recordSsl flight wrap) (noting cb connectCb) rounds events socket)
    (buf : List UInt8) {nread : Int} (positive : 0 < nread) (tryWriteNext : List UInt8 → Int) :
    socket.step (recordSsl flight wrap) (noting cb connectCb) rounds
        (.read buf nread tryWriteNext) ≠ .error .endless ∧
    ∀ after, socket.step (recordSsl flight wrap) (noting cb connectCb) rounds
        (.read buf nread tryWriteNext) = .ok after →
      (AllRead script (bytesOf events + nread.toNat) after ↔
        ¬ Straddles script (bytesOf events) (bytesOf events + nread.toNat)) := by
  have start := (connect_tracks room).result connect
  have tracks := reaches_tracks enough start run
  have read := @Tracks.read _ flight wrap tryWriteNext cb connectCb _ _ _ _ tracks enough buf _ positive
  exact ⟨read.ne, fun after stepped => (read.result stepped).2⟩

/-- A handshake of one record, and one byte of data. -/
def sampleScript : List Record :=
  [.handshake 1, .application 1 ⟨[7], by decide, by decide⟩]

def noReply : SslApi RecordQueue := recordSsl (fun _ => []) (fun buf => [buf])

def sampleNoting : SslCallbacks (Unit × List (List UInt8)) := noting (fun _ _ _ => ((), [])) none

def sampleSocket (ssl : RecordQueue) (log : List (List UInt8)) :
    UvTcpSsl RecordQueue (Unit × List (List UInt8)) where
  ssl := ssl
  app := ((), log)
  bufferPool := bufferPoolInit [0, 1, 2, 3] 16384 (by decide)

/-- The connection before the handshake. -/
def sampleStart : UvTcpSsl RecordQueue (Unit × List (List UInt8)) :=
  sampleSocket ⟨sampleScript, 0, [], true⟩ []

def chunkOf (n : Nat) : TcpEvent := .read (List.replicate n 0) n fun data => data.length

theorem sampleStart_connects : uvSslConnectCb noReply sampleNoting (fun data => data.length)
    sampleStart 0 = .ok sampleStart := by decide +kernel

/-- In two chunks, the data is read. -/
theorem application_data_read_sample :
    sampleStart.step noReply sampleNoting 3 (chunkOf 6) =
      .ok (sampleSocket ⟨sampleScript.drop 1, 0, [], false⟩ []) ∧
    (sampleSocket ⟨sampleScript.drop 1, 0, [], false⟩ []).step noReply sampleNoting 3 (chunkOf 6) =
      .ok (sampleSocket ⟨[], 0, [], false⟩ [[7]]) ∧
    AllRead sampleScript 12 (sampleSocket ⟨[], 0, [], false⟩ [[7]]) := by
  have first : sampleStart.step noReply sampleNoting 3 (chunkOf 6) =
      .ok (sampleSocket ⟨sampleScript.drop 1, 0, [], false⟩ []) := by decide +kernel
  have second : (sampleSocket ⟨sampleScript.drop 1, 0, [], false⟩ []).step noReply sampleNoting 3
      (chunkOf 6) = .ok (sampleSocket ⟨[], 0, [], false⟩ [[7]]) := by decide +kernel
  have apart : ¬ Straddles sampleScript 6 12 := by
    unfold Straddles
    decide +kernel
  refine ⟨first, second, ?_⟩
  exact ((application_data_read_iff _ _ _ none (by decide) () (Nat.le_refl 16384)
    sampleStart_connects (.single first) (List.replicate 6 0) (show (0 : Int) < 6 by decide) _).2 _
    second).mpr apart

/-- When the last record of the handshake comes with a record of data, this one is not
read. -/
theorem application_data_unread :
    uvSslConnectCb noReply sampleNoting (fun data => data.length) sampleStart 0 = .ok sampleStart ∧
    sampleStart.step noReply sampleNoting 3 (chunkOf 12) =
      .ok (sampleSocket ⟨[], 0, sampleScript.drop 1, false⟩ []) ∧
    ¬ AllRead sampleScript 12 (sampleSocket ⟨[], 0, sampleScript.drop 1, false⟩ []) := by
  refine ⟨sampleStart_connects, by decide +kernel, ?_⟩
  unfold AllRead
  decide +kernel

end Mumble

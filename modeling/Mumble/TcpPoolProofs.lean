import Mumble.UvTcpSsl
import Mumble.Lib.Contract

/-! The buffers of a TLS connection over whole runs. Everything nested in a read of
data gives its buffers back, and a read without data keeps its own. -/
namespace Mumble
open CExec

/-- The buffers are those of before when a part of the code returns, and it does not
stop for want of one. -/
def KeepsPool {σ α : Type} (pool : BufferPool) (run : Run (UvTcpSsl σ α)) : Prop :=
  Avoids .assertion run fun after => after.bufferPool = pool

section
variable {σ α : Type} {api : SslApi σ} {callbacks : SslCallbacks α} {tryWrite : List UInt8 → Int}
  {rounds : Nat} {socket : UvTcpSsl σ α}

theorem uvSslWbioCb_keeps (free : socket.bufferPool.inUse < socket.bufferPool.buffers.length)
    (argp : List UInt8) : KeepsPool socket.bufferPool (uvSslWbioCb tryWrite socket argp) := by
  obtain ⟨base, held, acquired, -, -, -, released⟩ := bufferPoolAcquire_free free
  rw [uvSslWbioCb, acquired]
  refine .require (by decide) fun _ => .require (by decide) fun _ => ?_
  rw [released]
  exact .ok rfl

theorem callSsl_keeps (free : socket.bufferPool.inUse < socket.bufferPool.buffers.length)
    (call : SslCall σ) : KeepsPool socket.bufferPool (callSsl tryWrite socket call) := by
  refine .foldlM (fun other argp _ same => ?_) rfl
  rw [← same] at free ⊢
  exact uvSslWbioCb_keeps free argp

theorem mumbleUvSslWrite_keeps (free : socket.bufferPool.inUse < socket.bufferPool.buffers.length)
    (buf : List UInt8) : KeepsPool socket.bufferPool (mumbleUvSslWrite api tryWrite socket buf) := by
  refine (callSsl_keeps free _).bind fun other same => ?_
  exact .require (by decide) fun _ => .ok same

theorem runCallback_keeps (free : socket.bufferPool.inUse < socket.bufferPool.buffers.length)
    (result : α × List (List UInt8)) :
    KeepsPool socket.bufferPool (runCallback api tryWrite socket result) := by
  refine .foldlM (fun other buf _ same => ?_) rfl
  rw [← same] at free ⊢
  exact mumbleUvSslWrite_keeps free buf

theorem uvSslDoRead_keeps
    (free : socket.bufferPool.inUse + 1 < socket.bufferPool.buffers.length) :
    Avoids .assertion (uvSslDoRead api callbacks tryWrite socket)
      fun after => after.2.bufferPool = socket.bufferPool := by
  obtain ⟨base, held, acquired, -, used, count, released⟩ :=
    bufferPoolAcquire_free (Nat.lt_of_succ_lt free)
  rw [← used, ← count] at free
  rw [uvSslDoRead, acquired]
  have called : KeepsPool held (callSsl tryWrite { socket with bufferPool := held }
      (api.read socket.ssl held.size).1) := callSsl_keeps free _
  refine called.bind fun other same => ?_
  refine Avoids.bind (?_ : KeepsPool held _) fun after kept => ?_
  · cases callbacks.cb with
    | none => exact .ok same
    | some cb =>
      dsimp only
      split
      · rw [← same] at free ⊢
        exact runCallback_keeps free _
      · exact .ok same
  · rw [kept, released]
    exact .ok rfl

theorem uvSslRead_keeps (free : socket.bufferPool.inUse + 1 < socket.bufferPool.buffers.length) :
    KeepsPool socket.bufferPool (uvSslRead api callbacks tryWrite rounds socket) := by
  induction rounds generalizing socket with
  | zero => exact .error (by decide)
  | succ rounds ih =>
    refine (uvSslDoRead_keeps free).bind fun after same => ?_
    dsimp only
    split
    · rw [← same] at free ⊢
      exact ih free
    · exact .ok same

theorem uvSslHandshake_keeps (free : socket.bufferPool.inUse < socket.bufferPool.buffers.length) :
    KeepsPool socket.bufferPool (uvSslHandshake api callbacks tryWrite socket) := by
  refine (callSsl_keeps free _).bind fun other same => ?_
  rw [← same] at free ⊢
  cases callbacks.connectCb with
  | none => exact .ok rfl
  | some cb =>
    dsimp only
    split
    · exact runCallback_keeps free _
    · split
      · exact runCallback_keeps free _
      · exact .ok rfl

theorem uvSslRbioCb_keeps (free : socket.bufferPool.inUse + 1 < socket.bufferPool.buffers.length) :
    KeepsPool socket.bufferPool (uvSslRbioCb api callbacks tryWrite rounds socket) := by
  rw [uvSslRbioCb]
  split
  · exact uvSslHandshake_keeps (Nat.lt_of_succ_lt free)
  · split
    · exact uvSslRead_keeps free
    · exact .error (by decide)

end

/-- A read that has found data, or no read at all. -/
def TcpEvent.HasData : TcpEvent → Prop
  | .read _ nread _ => 0 < nread
  | .write _ _ => True

/-- As many buffers are in use after the event as before it, and it does not stop for
want of one. -/
def Balanced {σ α : Type} (api : SslApi σ) (callbacks : SslCallbacks α) (rounds : Nat)
    (socket : UvTcpSsl σ α) (event : TcpEvent) : Prop :=
  Avoids .assertion (socket.step api callbacks rounds event)
    fun after => after.bufferPool.inUse = socket.bufferPool.inUse

section
variable {σ α : Type} {api : SslApi σ} {callbacks : SslCallbacks α} {rounds : Nat}
  {socket : UvTcpSsl σ α} {event : TcpEvent}

variable (api callbacks rounds) in
theorem step_keeps (free : socket.bufferPool.inUse + 2 < socket.bufferPool.buffers.length)
    (data : event.HasData) :
    KeepsPool socket.bufferPool (socket.step api callbacks rounds event) := by
  have one : socket.bufferPool.inUse < socket.bufferPool.buffers.length := by omega
  cases event with
  | write buf tryWrite => exact mumbleUvSslWrite_keeps one buf
  | read buf nread tryWrite =>
    obtain ⟨base, held, acquired, -, used, count, released⟩ := bufferPoolAcquire_free one
    have allocated : defaultAllocCb socket = .ok (base, { socket with bufferPool := held }) := by
      rw [defaultAllocCb, acquired]
    have found : 0 < nread := data
    rw [UvTcpSsl.step, allocated, ok_bind]
    dsimp only
    rw [uvSslReadCb, if_pos found]
    refine .slice (by decide) fun _ => ?_
    have nested : held.inUse + 1 < held.buffers.length := by omega
    refine (@uvSslRbioCb_keeps _ _ _ _ _ _ ⟨_, _, held⟩ nested).bind fun after kept =>
      .require (by decide) fun _ => ?_
    rw [kept, released]
    exact .ok rfl

/-- The buffer of a read without data stays in use. -/
theorem step_leaks (none : ¬ event.HasData) : ¬ Balanced api callbacks rounds socket event := by
  cases event with
  | write buf tryWrite => exact absurd trivial none
  | read buf nread tryWrite =>
    have empty : ¬ 0 < nread := none
    intro balanced
    by_cases free : socket.bufferPool.inUse < socket.bufferPool.buffers.length
    · obtain ⟨base, held, acquired, -, used, -, -⟩ := bufferPoolAcquire_free free
      have ended : socket.step api callbacks rounds (.read buf nread tryWrite) =
          .ok { socket with bufferPool := held } := by
        simp only [UvTcpSsl.step, defaultAllocCb, acquired, ok_bind, uvSslReadCb, if_neg empty]
      have kept : Avoids .assertion _ fun after : UvTcpSsl σ α =>
        after.bufferPool.inUse = socket.bufferPool.inUse := balanced
      have same := kept.result ended
      dsimp only at same
      omega
    · have acquired : bufferPoolAcquire socket.bufferPool = _ := dif_neg free
      apply Avoids.ne balanced
      rw [UvTcpSsl.step, defaultAllocCb, acquired]
      rfl

end

/-- Every event of a run leaves the pool as full as it was exactly if no read of it
comes without data. -/
theorem tcp_pool_balanced_iff {σ α : Type} (api : SslApi σ) (callbacks : SslCallbacks α)
    (rounds : Nat) {start : UvTcpSsl σ α}
    (idle : start.bufferPool.inUse + 3 ≤ start.bufferPool.buffers.length) (events : List TcpEvent) :
    (∀ front event back socket, events = front ++ event :: back →
      start.Reaches api callbacks rounds front socket →
      Balanced api callbacks rounds socket event) ↔
    ∀ front event back socket, events = front ++ event :: back →
      start.Reaches api callbacks rounds front socket → event.HasData := by
  constructor
  · intro balanced front event back socket split run
    by_contra none
    exact step_leaks none (balanced front event back socket split run)
  · intro data front event back socket split run
    have pool : ∀ rest, events = front ++ rest → socket.bufferPool = start.bufferPool := by
      refine run.invariant (fun front socket =>
        ∀ rest, events = front ++ rest → socket.bufferPool = start.bufferPool) (fun _ _ => rfl) ?_
      intro front socket event next reached stepped same rest split
      rw [List.append_assoc] at split
      have before := same _ split
      have kept := step_keeps api callbacks rounds (by rw [before]; omega)
        (data front event rest socket split reached)
      exact (kept.result stepped).trans before
    have same := pool _ split
    have kept := step_keeps api callbacks rounds (by rw [same]; omega)
      (data front event back socket split run)
    exact kept.mono fun after restored => congrArg BufferPool.inUse restored

/-- OpenSSL after a handshake, on a connection where nothing arrives. -/
def idleSsl : SslApi Unit where
  inInit := fun _ => false
  isInitFinished := fun _ => true
  bioWrite := fun _ data => ((), data.length)
  read := fun _ _ => (⟨(), -1, []⟩, [])
  doHandshake := fun _ => ⟨(), 1, []⟩
  write := fun _ buf => ⟨(), buf.length, [buf]⟩
  getError := fun _ ret => if 0 < ret then 0 else 2

def noCallbacks : SslCallbacks Unit := ⟨none, none⟩

theorem fourBuffers_distinct : [0, 1, 2, 3].Nodup := by decide

/-- A socket as `mumble_uv_ssl_init` leaves it, with some of its buffers in use. -/
def idleSocket (used : Fin 5) : UvTcpSsl Unit Unit where
  ssl := ()
  app := ()
  bufferPool := ⟨[0, 1, 2, 3], used, 16384, fourBuffers_distinct, Nat.le_of_lt_succ used.isLt⟩

/-- A read that would block. -/
def wouldBlock : TcpEvent := .read [] 0 fun data => data.length

def oneByte : TcpEvent := .read [7] 1 fun data => data.length

theorem tcp_pool_balanced_sample : Balanced idleSsl noCallbacks 1 (idleSocket 0) oneByte := by
  refine (tcp_pool_balanced_iff idleSsl noCallbacks 1 (by decide) [oneByte]).mpr ?_
    [] oneByte [] _ rfl .refl
  intro front event back socket split _
  have member : event ∈ [oneByte] := by
    rw [split]
    exact List.mem_append_right _ List.mem_cons_self
  rw [List.mem_singleton.mp member]
  exact Int.one_pos

/-- Each read that would block loses a buffer, and the fifth finds none. -/
theorem tcp_pool_exhausted :
    (¬ ∀ front event back socket, [wouldBlock] = front ++ event :: back →
      (idleSocket 0).Reaches idleSsl noCallbacks 1 front socket →
      Balanced idleSsl noCallbacks 1 socket event) ∧
    (idleSocket 0).Reaches idleSsl noCallbacks 1 [wouldBlock, wouldBlock, wouldBlock, wouldBlock]
      (idleSocket 4) ∧
    (idleSocket 4).step idleSsl noCallbacks 1 wouldBlock = .error .assertion := by
  have loses : ∀ used : Fin 4, (idleSocket used.castSucc).step idleSsl noCallbacks 1 wouldBlock =
      .ok (idleSocket used.succ) := by decide
  refine ⟨fun balanced => ?_, ?_, by decide⟩
  · have none : ¬ wouldBlock.HasData := Int.lt_irrefl 0
    exact step_leaks none (balanced [] wouldBlock [] _ rfl .refl)
  · exact .next (.next (.next (.single (loses 0)) (loses 1)) (loses 2)) (loses 3)

end Mumble

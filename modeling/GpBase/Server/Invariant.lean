import GpBase.Conn.Interest
import GpBase.Server.Model

/-!
# Who holds a connection

The holders of a connection are its entry in `server->connections`, the queued
tasks that name it and the frames between a `conn_ref_inc` and its
`conn_ref_dec`. `Inv` adds to the count what the loop relies on: which state goes
with an entry, which handlers epoll knows and which connections a round of the
loop still has to look at.
-/

namespace GpBase.Server

open GpBase.Lib GpBase.Buffer GpBase.Event GpBase.Conn GpBase.Loop

namespace ServerState

variable (s : ServerState)

/-- 1 if the connection has an entry in `server->connections`. -/
def entry (c : Nat) : Nat :=
  match s.conns c with
  | some r => if s.connections r.handler.fd = some c then 1 else 0
  | none => 0

/-- The queued tasks that name the connection. -/
def queued (c : Nat) : Nat := s.pendingList.countP (·.conn = c)

/-- The active frames that hold the connection. -/
def frames (c : Nat) : Nat := s.code.count (.connRefDec c)

def holders (c : Nat) : Nat := s.entry c + s.queued c + s.frames c

/-- A connection that is being closed still has its `close_callback` to come. -/
def Closing (c : Nat) : Prop := .closeCallback c ∈ s.code

/-- The connection whose `handle_event` is running, with the callbacks left. -/
def current : Option (Nat × List EventCallback) :=
  match s.phase with
  | .events (some (.conn c, callbacks)) _ => some (c, callbacks)
  | _ => none

/-- The handlers whose `handle_event` is still to come. -/
def active : List Source :=
  match s.phase with
  | .events _ active => active
  | _ => []

/-- The queued tasks that `do_pending_functors` runs before the next poll, without
the one it is at. -/
def walked : List Task :=
  match s.phase with
  | .timers => []
  | .events _ _ => s.pendingList
  | .pending reached => (s.pendingList.take reached).tail

end ServerState

/-- The task that destroys a connection. -/
def destroyTask (c : Nat) : Task := { pendingFunc := .destroyConn, conn := c }

/-- What holds of one connection; the tasks `walk` are run before the next poll. -/
structure ConnInv (s : ServerState) (walk : List Task) (c : Nat) (r : Connection) : Prop where
  ref : r.ref = s.holders c
  live : r.live = true ↔ 0 < s.holders c
  destructs : s.destructs.count c = if r.live then 0 else 1
  entry : s.connections r.handler.fd = some c ↔ r.state ≠ .disconnected ∨ s.Closing c
  closing : s.Closing c → r.state = .disconnected
  follows : r.live = true → Follows s.interest r.handler c
  /-- an open connection is registered -/
  watched : r.state ≠ .disconnected →
    r.handler.index = .added ∧ r.handler.events &&& kreadEvent = kreadEvent
  /-- a closed one that is registered is destroyed before the next poll -/
  leftover : r.state = .disconnected → r.handler.index = .added → destroyTask c ∈ walk
  inputBuffer : r.inputBuffer.WF
  outputBuffer : r.outputBuffer.WF
  destroy : destroyTask c ∈ s.pendingList → r.state = .disconnected
  active : .conn c ∈ s.active → r.state ≠ .disconnected
  suffix : ∀ callbacks, s.current = some (c, callbacks) → callbacks <:+ handleEvent r.revents
  /-- the end of `handle_event` finds its connection alive -/
  kept : ∀ callbacks, s.current = some (c, callbacks) → r.state = .disconnected →
    s.Closing c ∨ destroyTask c ∈ s.pendingList
  /-- a callback that closes the connection is the first one to do so -/
  unclosed : ∀ callbacks, s.current = some (c, callbacks) →
    (.close ∈ callbacks ∨ .read ∈ callbacks ∧ hungUp r.revents = false) →
    r.state ≠ .disconnected

/-- Nothing is known of an allocation that has not been made. -/
structure Unborn (s : ServerState) (c : Nat) : Prop where
  queued : s.queued c = 0
  frames : s.frames c = 0
  destructs : s.destructs.count c = 0
  closing : ¬ s.Closing c
  active : .conn c ∉ s.active
  current : ∀ callbacks, s.current ≠ some (c, callbacks)

/-- A `close_callback` to come is inside the frame of `connection_handler_close`. -/
def CodeInv : List Stmt → Prop
  | [] => True
  | .closeCallback c :: rest => .connRefDec c ∈ rest ∧ .closeCallback c ∉ rest ∧ CodeInv rest
  | .handlerRemove _ :: _ => False
  | .callback :: rest | .connRefDec _ :: rest => CodeInv rest

/-- What the tasks in the pending list run. -/
def Queueable : PendingFunc → Prop
  | .forceClose | .destroyConn | .user => True
  | .createConn | .shutdown | .removeConn => False

structure Inv (s : ServerState) (walk : List Task) : Prop where
  conn : ∀ c r, s.conns c = some r → ConnInv s walk c r
  unborn : ∀ c, s.conns c = none → Unborn s c
  entries : ∀ fd c, s.connections fd = some c → ∃ r, s.conns c = some r ∧ r.handler.fd = fd
  registered : ∀ fd c, s.interest fd = some c →
    ∃ r, s.conns c = some r ∧ r.live = true ∧ r.handler.fd = fd
  distinct : ∀ c c' r r', s.conns c = some r → s.conns c' = some r' → r.live = true →
    r'.live = true → r.handler.fd = r'.handler.fd → c = c'
  code : CodeInv s.code
  tasks : ∀ t ∈ s.pendingList, Queueable t.pendingFunc
  once : s.active.Nodup ∧ ∀ c callbacks, s.current = some (c, callbacks) → .conn c ∉ s.active

section Frames

variable {s s' : ServerState} {walk walk' : List Task} {c c' : Nat} {r r' : Connection}

theorem ServerState.conn_eq (known : s.conns c = some r) (alive : r.live = true) :
    s.conn c = .ok r := by
  simp [ServerState.conn, known, alive]

theorem ServerState.entry_eq (known : s.conns c = some r) :
    s.entry c = if s.connections r.handler.fd = some c then 1 else 0 := by
  simp [ServerState.entry, known]

/-- A step leaves alone what the loop keeps for the connection `c`. -/
structure SameFor (s s' : ServerState) (c : Nat) : Prop where
  conns : s'.conns c = s.conns c
  queued : s'.queued c = s.queued c
  frames : s'.frames c = s.frames c
  destructs : s'.destructs.count c = s.destructs.count c
  closing : s'.Closing c ↔ s.Closing c
  destroy : destroyTask c ∈ s'.pendingList ↔ destroyTask c ∈ s.pendingList
  active : .conn c ∈ s'.active → .conn c ∈ s.active
  current : ∀ callbacks, s'.current = some (c, callbacks) → s.current = some (c, callbacks)

theorem SameFor.holders (same : SameFor s s' c) (known : s.conns c = some r)
    (entry : s'.connections r.handler.fd = some c ↔ s.connections r.handler.fd = some c) :
    s'.holders c = s.holders c := by
  rw [ServerState.holders, ServerState.holders, same.queued, same.frames,
    ServerState.entry_eq known, ServerState.entry_eq (same.conns.trans known)]
  simp only [entry]

theorem ConnInv.of_same (inv : ConnInv s walk c r) (known : s.conns c = some r)
    (same : SameFor s s' c)
    (entry : s'.connections r.handler.fd = some c ↔ s.connections r.handler.fd = some c)
    (interest : r.live = true → s'.interest r.handler.fd = s.interest r.handler.fd)
    (walks : destroyTask c ∈ walk → destroyTask c ∈ walk') : ConnInv s' walk' c r where
  ref := by rw [same.holders known entry, inv.ref]
  live := by rw [same.holders known entry, inv.live]
  destructs := by rw [same.destructs, inv.destructs]
  entry := by rw [entry, inv.entry, same.closing]
  closing closing := inv.closing (same.closing.mp closing)
  follows alive := by
    rw [Follows, interest alive]
    exact inv.follows alive
  watched := inv.watched
  leftover state added := walks (inv.leftover state added)
  inputBuffer := inv.inputBuffer
  outputBuffer := inv.outputBuffer
  destroy task := inv.destroy (same.destroy.mp task)
  active active := inv.active (same.active active)
  suffix callbacks here := inv.suffix callbacks (same.current callbacks here)
  kept callbacks here state := by
    rw [same.closing, same.destroy]
    exact inv.kept callbacks (same.current callbacks here) state
  unclosed callbacks here := inv.unclosed callbacks (same.current callbacks here)

theorem Unborn.of_same (unborn : Unborn s c) (same : SameFor s s' c) : Unborn s' c where
  queued := same.queued.trans unborn.queued
  frames := same.frames.trans unborn.frames
  destructs := same.destructs.trans unborn.destructs
  closing closing := unborn.closing (same.closing.mp closing)
  active active := unborn.active (same.active active)
  current callbacks here := unborn.current callbacks (same.current callbacks here)

/-- A connection that is open, being closed or named by a task is alive. -/
theorem ConnInv.alive_of_open (inv : ConnInv s walk c r) (known : s.conns c = some r)
    (state : r.state ≠ .disconnected ∨ s.Closing c) : r.live = true := by
  rw [inv.live, ServerState.holders, ServerState.entry_eq known, if_pos (inv.entry.mpr state)]
  omega

theorem ConnInv.alive_of_task (inv : ConnInv s walk c r) {t : Task} (task : t ∈ s.pendingList)
    (named : t.conn = c) : r.live = true := by
  have : 0 < s.queued c := List.countP_pos_iff.mpr ⟨t, task, by simpa using named⟩
  rw [inv.live, ServerState.holders]
  omega

/-- The connection of a task is known and alive. -/
theorem Inv.of_task (inv : Inv s walk) {t : Task} (task : t ∈ s.pendingList) :
    ∃ r, s.conns t.conn = some r ∧ r.live = true := by
  cases known : s.conns t.conn with
  | none =>
      have queued := (inv.unborn _ known).queued
      rw [ServerState.queued, List.countP_eq_zero] at queued
      exact absurd (decide_eq_true rfl) (queued t task)
  | some r => exact ⟨r, rfl, (inv.conn _ r known).alive_of_task task rfl⟩

theorem ConnInv.alive_of_frame (inv : ConnInv s walk c r) (frame : .connRefDec c ∈ s.code) :
    r.live = true := by
  have : 0 < s.frames c := List.count_pos_iff.mpr frame
  rw [inv.live, ServerState.holders]
  omega

/-- Two live connections have different fds. -/
theorem Inv.fd_ne (inv : Inv s walk) (known : s.conns c = some r) (alive : r.live = true)
    (known' : s.conns c' = some r') (alive' : r'.live = true) (other : c' ≠ c) :
    r'.handler.fd ≠ r.handler.fd :=
  fun same => other (inv.distinct c' c r' r known' known alive' alive same)

theorem Inv.mono (inv : Inv s walk) (more : ∀ c, destroyTask c ∈ walk → destroyTask c ∈ walk') :
    Inv s walk' where
  conn c r known := (inv.conn c r known).of_same known
    ⟨rfl, rfl, rfl, rfl, Iff.rfl, Iff.rfl, id, fun _ h => h⟩ Iff.rfl (fun _ => rfl) (more c)
  unborn := inv.unborn
  entries := inv.entries
  registered := inv.registered
  distinct := inv.distinct
  code := inv.code
  tasks := inv.tasks
  once := inv.once

end Frames

end GpBase.Server

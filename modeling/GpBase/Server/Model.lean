import GpBase.Lib.Run
import GpBase.Loop.Model

/-!
# A plain server on one loop

Translation of `gp_server.c`, of the connection functions in `gp_conn.c` that
count references and of the part of `gp_loop_run` that calls them. The loop
thread is the only one. It stops wherever it needs something from outside: the
events reported by `epoll_wait`, the outcome of `accept4`, `readv` or `write`, or
what the application does in a callback. `code` is what it has left to do in the
calls it is in, the innermost one first; a function that calls back pushes what
follows the call before it makes it.

A connection is known by the number of its allocation, which is never used
again; following a pointer to one that has been freed is a fault.
-/

namespace GpBase.Server

open GpBase.Lib GpBase.Buffer GpBase.Event GpBase.Conn GpBase.Loop

/-- A connection, `live` until it is freed. -/
structure Connection extends ConnRec where
  handler : Handler
  /-- `handler._revents` -/
  revents : Mask
  inputBuffer : GpBuffer
  outputBuffer : GpBuffer
  /-- bytes accepted by the kernel so far -/
  accepted : List UInt8
  /-- `shutdown(fd, SHUT_WR)` has been called -/
  shutdownWr : Bool

/-- `task->pending_func`. -/
inductive PendingFunc
  | createConn
  | shutdown
  | forceClose
  | removeConn
  | destroyConn
  | /-- a function of the application -/ user
  deriving DecidableEq, Repr

/-- A task that names a connection. -/
structure Task where
  pendingFunc : PendingFunc
  conn : Nat
  deriving DecidableEq, Repr

/-- What is left to do in the calls that have not returned. -/
inductive Stmt
  | /-- the application's code is running -/ callback
  | /-- the `conn_ref_dec` that ends a frame -/ connRefDec (c : Nat)
  | /-- `conn->close_callback(conn)` -/ closeCallback (c : Nat)
  | handlerRemove (c : Nat)
  deriving DecidableEq, Repr

/-- A handler of the loop. -/
inductive Source
  | acceptor
  | conn (c : Nat)
  deriving DecidableEq, Repr

/-- Where `gp_loop_run` is. -/
inductive Phase
  | /-- in `gp_loop_run_timers` -/ timers
  | /-- in the loop over `active_handler_list`: the handler whose `handle_event` is
    running, with the callbacks it has still to call, and the handlers after it -/
    events (handling : Option (Source × List EventCallback)) (active : List Source)
  | /-- in `do_pending_functors`, at the front task; `reached` is the length of the
    list when it got there, so `tmp` is not null when it is more than one -/
    pending (reached : Nat)
  deriving DecidableEq, Repr

structure ServerState where
  conns : Nat → Option Connection
  /-- `server->connections` -/
  connections : Int → Option Nat
  /-- the keys of `epoller->handlers` -/
  handlers : Int → Bool
  /-- the interest list of the kernel: `event.data.ptr` by fd -/
  interest : Int → Option Nat
  /-- the acceptor's handler is in the interest list, with its `_revents` -/
  listening : Bool
  acceptorRevents : Mask
  /-- `loop->pending_list` -/
  pendingList : List Task
  phase : Phase
  code : List Stmt
  /-- the connections given to `destruct_gp_connection` so far -/
  destructs : List Nat

namespace ServerState

variable (s : ServerState)

/-- Follow a pointer to a connection. -/
def conn (c : Nat) : Except Fault Connection :=
  match s.conns c with
  | some r => if r.live then .ok r else .error .dangling
  | none => .error .dangling

/-- Overwrite a connection. -/
def put (c : Nat) (r : Connection) : ServerState :=
  { s with conns := Function.update s.conns c (some r) }

/-- Leave `stmts` to be done before everything else. -/
def push (stmts : List Stmt) : ServerState := { s with code := stmts ++ s.code }

/-- A connection with what it touches, as the functions of `GpBase.Conn` see it. -/
def view (r : Connection) : GpConnection where
  state := r.state
  handler := r.handler
  outputBuffer := r.outputBuffer
  epoller := { handlers := s.handlers, requests := [] }
  accepted := r.accepted
  shutdownWr := r.shutdownWr

/-- Take over what such a function has done; the kernel carries out its `epoll_ctl`s. -/
def takeOver (c : Nat) (r : Connection) (o : GpConnection) : ServerState :=
  { s.put c { r with state := o.state, handler := o.handler, outputBuffer := o.outputBuffer
                     accepted := o.accepted, shutdownWr := o.shutdownWr } with
    handlers := o.epoller.handlers
    interest := o.epoller.requests.foldl (epollCtl fun _ => c) s.interest }

def onConn (c : Nat) (f : GpConnection → Except Fault GpConnection) :
    Except Fault ServerState := do
  let r ← s.conn c
  return s.takeOver c r (← f (s.view r))

/-! ## Reference counts -/

def connRefInc (c : Nat) : Except Fault ServerState := do
  let r ← s.conn c
  return s.put c { r with toConnRec := r.toConnRec.connRefInc }

/-- `destruct_gp_connection`: `handler_remove`, `close(fd)` and `free`. -/
def destructGpConnection (c : Nat) (r : Connection) : ServerState :=
  let s := s.takeOver c r (s.view r).handlerRemove
  { s with interest := Function.update s.interest r.handler.fd none
           destructs := s.destructs ++ [c] }

def connRefDec (c : Nat) : Except Fault ServerState := do
  let r ← s.conn c
  let r := { r with toConnRec := r.toConnRec.connRefDec }
  return if r.live then s.put c r else s.destructGpConnection c r

/-! ## Tasks and what they run -/

/-- `gp_queue_in_loop` on the loop thread. -/
def gpQueueInLoop (t : Task) : Except Fault ServerState := do
  let s ← s.connRefInc t.conn
  return { s with pendingList := s.pendingList ++ [t] }

def connectionHandlerClose (c : Nat) : Except Fault ServerState := do
  let s ← s.connRefInc c
  let s ← (s.push [.closeCallback c, .connRefDec c]).onConn c fun o =>
    .ok (GpConnection.disableAll { o with state := .disconnected })
  return s.push [.callback]

def connectionEstablished (c : Nat) : Except Fault ServerState := do
  let s ← s.onConn c fun o => .ok (GpConnection.enableReading { o with state := .connected })
  return s.push [.callback]

def handlerRemove (c : Nat) : Except Fault ServerState :=
  s.onConn c fun o => .ok o.handlerRemove

def connectionDestroyed (c : Nat) : Except Fault ServerState := do
  let r ← s.conn c
  if r.state = .connected then
    let s ← (s.push [.handlerRemove c]).onConn c fun o =>
      .ok (GpConnection.disableAll { o with state := .disconnected })
    return s.push [.callback]
  else s.handlerRemove c

/-- `run_in_loop_shutdown`. -/
def runInLoopShutdown (c : Nat) : Except Fault ServerState :=
  s.onConn c fun o => .ok o.runInLoopShutdown

/-- `queue_in_loop_force_close`. -/
def queueInLoopForceClose (c : Nat) : Except Fault ServerState := do
  let r ← s.conn c
  if r.state = .connected ∨ r.state = .disconnecting then s.connectionHandlerClose c
  else return s

/-- `task->pending_func(task)`. -/
def pendingFunc (t : Task) : Except Fault ServerState :=
  match t.pendingFunc with
  | .createConn => s.connectionEstablished t.conn
  | .shutdown => s.runInLoopShutdown t.conn
  | .forceClose => s.queueInLoopForceClose t.conn
  | .removeConn => s.gpQueueInLoop { pendingFunc := .destroyConn, conn := t.conn }
  | .destroyConn => s.connectionDestroyed t.conn
  | .user => return s.push [.callback]

/-- `gp_run_in_loop` on the loop thread. -/
def gpRunInLoop (t : Task) : Except Fault ServerState := do
  let s ← s.connRefInc t.conn
  (s.push [.connRefDec t.conn]).pendingFunc t

/-- `remove_conn`, the `close_callback` of every connection. -/
def removeConn (c : Nat) : Except Fault ServerState := do
  let r ← s.conn c
  -- `dictDelete`
  let s := { s with connections := Function.update s.connections r.handler.fd none }
  let s ← s.connRefDec c
  s.gpRunInLoop { pendingFunc := .removeConn, conn := c }

/-! ## Calls of the application -/

def connSend (junk : Nat → UInt8) (c : Nat) (msg : List UInt8) (w : WriteResult) :
    Except Fault ServerState := do
  let r ← s.conn c
  if r.state = .connected then s.onConn c fun o => o.connSendInLoop junk w msg
  else return s

def connShutdown (c : Nat) : Except Fault ServerState := do
  let r ← s.conn c
  if r.state = .connected then
    let s ← s.onConn c fun o => .ok { o with state := .disconnecting }
    s.gpRunInLoop { pendingFunc := .shutdown, conn := c }
  else return s

def connForceClose (c : Nat) : Except Fault ServerState := do
  let r ← s.conn c
  if r.state = .connected ∨ r.state = .disconnecting then
    let s ← s.onConn c fun o => .ok { o with state := .disconnecting }
    s.gpQueueInLoop { pendingFunc := .forceClose, conn := c }
  else return s

/-! ## Events -/

/-- `create_gp_connection`. -/
def createGpConnection (junk : Nat → UInt8) (fd : Int) : Connection where
  state := .connecting
  ref := 1
  live := true
  handler := { addToLoop := false, index := .new, fd := fd, events := 0 }
  revents := 0
  inputBuffer := .initGpBuffer junk
  outputBuffer := .initGpBuffer junk
  accepted := []
  shutdownWr := false

/-- `new_connection_callback`, with the allocation that it makes. -/
def newConnectionCallback (junk : Nat → UInt8) (c : Nat) (fd : Int) :
    Except Fault ServerState := do
  let s := s.put c (createGpConnection junk fd)
  -- `dictAdd` fails on a key that is there
  let s := { s with connections :=
    if s.connections fd = none then Function.update s.connections fd (some c)
    else s.connections }
  let s ← s.connRefInc c
  (s.push [.connRefDec c]).gpRunInLoop { pendingFunc := .createConn, conn := c }

/-- `connection_handler_read`: `n` is a `size_t`, so what is not positive is zero. -/
def connectionHandlerRead (junk : Nat → UInt8) (c : Nat) (res : ReadResult) :
    Except Fault ServerState := do
  let r ← s.conn c
  let (b, n, _) ← r.inputBuffer.bufferReadFd junk res 0
  let s := s.put c { r with inputBuffer := b }
  if 0 < n then
    let s ← s.connRefInc c
    return s.push [.callback, .connRefDec c]
  else s.connectionHandlerClose c

def connectionHandlerWrite (c : Nat) (w : WriteResult) : Except Fault ServerState :=
  s.onConn c fun o => o.connectionHandlerWrite w

/-- `set_revents`. -/
def setRevents (revents : Mask) : Source → Except Fault ServerState
  | .acceptor => return { s with acceptorRevents := revents }
  | .conn c => do
    let r ← s.conn c
    (s.put c { r with revents := revents }).onConn c fun o => .ok o.update

/-- `fill_active_handlers`, without the list that it makes. -/
def fillActiveHandlers (s : ServerState) : List (Source × Mask) → Except Fault ServerState
  | [] => return s
  | (source, revents) :: rest => do (← s.setRevents revents source).fillActiveHandlers rest

/-- The end of `poller_poll`. -/
def pollerPoll (reported : List (Source × Mask)) : Except Fault ServerState := do
  let s ← s.fillActiveHandlers reported
  return { s with phase := .events none (reported.map Prod.fst) }

/-- The start of `handle_event`: the acceptor has a read callback only. -/
def startEvent (active : List Source) : Source → Except Fault ServerState
  | .acceptor =>
    let callbacks := (handleEvent s.acceptorRevents).filter (· = .read)
    return { s with phase := .events (some (.acceptor, callbacks)) active }
  | .conn c => do
    let r ← s.conn c
    return { s with phase := .events (some (.conn c, handleEvent r.revents)) active }

/-- The end of `handle_event`, and the removal of the handler from the list. -/
def endEvent (active : List Source) : Source → Except Fault ServerState
  | .acceptor => return { s with phase := .events none active }
  | .conn c => do
    let _ ← s.conn c
    return { s with phase := .events none active }

/-! ## Pending tasks -/

/-- The loop of `do_pending_functors` reaches the front of the list. -/
def nextTask : Except Fault ServerState :=
  match s.pendingList with
  | [] => return { s with phase := .timers }
  | t :: rest => pendingFunc { s with phase := .pending (rest.length + 1) } t

/-- What it does after `pending_func` has returned. -/
def finishTask (reached : Nat) : Except Fault ServerState :=
  match s.pendingList with
  | [] => return s
  | t :: rest => do
    let s ← s.connRefDec t.conn
    -- `destruct_gp_pending_task`
    let s := { s with pendingList := rest }
    if 1 < reached then s.nextTask else return { s with phase := .timers }

end ServerState

/-! ## Runs -/

/-- What the application calls on a connection, from a callback or a task of its own. -/
inductive UserCall
  | connSend (c : Nat) (msg : List UInt8) (w : WriteResult)
  | connShutdown (c : Nat)
  | connForceClose (c : Nat)
  | gpQueueInLoop (c : Nat)
  | gpRunInLoop (c : Nat)
  deriving DecidableEq, Repr

def UserCall.conn : UserCall → Nat
  | .connSend c _ _ | .connShutdown c | .connForceClose c | .gpQueueInLoop c
  | .gpRunInLoop c => c

def UserCall.exec (junk : Nat → UInt8) (s : ServerState) : UserCall → Except Fault ServerState
  | .connSend c msg w => s.connSend junk c msg w
  | .connShutdown c => s.connShutdown c
  | .connForceClose c => s.connForceClose c
  | .gpQueueInLoop c => s.gpQueueInLoop { pendingFunc := .user, conn := c }
  | .gpRunInLoop c => s.gpRunInLoop { pendingFunc := .user, conn := c }

/-- What comes from outside. -/
inductive ServerEvent
  | /-- nothing is needed -/ go
  | /-- a timer fires -/ timer
  | call (u : UserCall)
  | /-- the application returns -/ ret
  | poll (reported : List (Source × Mask))
  | accept (c : Nat) (fd : Int)
  | /-- `accept4` fails, or returns 0 -/ acceptFailed
  | read (res : ReadResult)
  | write (w : WriteResult)
  deriving DecidableEq, Repr

/-- `epoll_wait` reports handlers from the interest list, each one once. -/
structure Reports (s : ServerState) (reported : List (Source × Mask)) : Prop where
  once : (reported.map Prod.fst).Nodup
  acceptor : .acceptor ∈ reported.map Prod.fst → s.listening
  conn : ∀ c, .conn c ∈ reported.map Prod.fst → ∃ fd, s.interest fd = some c

/-- `accept4` returns an fd that is not open, and the allocation is a new one. -/
structure Accepts (s : ServerState) (c : Nat) (fd : Int) : Prop where
  positive : 0 < fd
  closed : ∀ c' r, s.conns c' = some r → r.live → r.handler.fd ≠ fd
  fresh : s.conns c = none

/-- The steps of the loop thread; the outcome of a step may be a fault. -/
inductive ServerStep (junk : Nat → UInt8) :
    ServerState → ServerEvent → Except Fault ServerState → Prop
  | timer {s} : s.code = [] → s.phase = .timers →
      ServerStep junk s .timer (.ok (s.push [.callback]))
  | /-- the application uses no connection that has been freed -/
    call {s u rest r} : s.code = .callback :: rest → s.conns u.conn = some r → r.live →
      ServerStep junk s (.call u) (u.exec junk s)
  | ret {s rest} : s.code = .callback :: rest →
      ServerStep junk s .ret (.ok { s with code := rest })
  | connRefDec {s c rest} : s.code = .connRefDec c :: rest →
      ServerStep junk s .go ({ s with code := rest }.connRefDec c)
  | closeCallback {s c rest} : s.code = .closeCallback c :: rest →
      ServerStep junk s .go ({ s with code := rest }.removeConn c)
  | handlerRemove {s c rest} : s.code = .handlerRemove c :: rest →
      ServerStep junk s .go ({ s with code := rest }.handlerRemove c)
  | poll {s reported} : s.code = [] → s.phase = .timers → Reports s reported →
      ServerStep junk s (.poll reported) (s.pollerPoll reported)
  | startEvent {s source active} : s.code = [] →
      s.phase = .events none (source :: active) →
      ServerStep junk s .go (s.startEvent active source)
  | close {s c rest active} : s.code = [] →
      s.phase = .events (some (.conn c, .close :: rest)) active →
      ServerStep junk s .go
        ({ s with phase := .events (some (.conn c, rest)) active }.connectionHandlerClose c)
  | /-- `connection_handler_error` is empty -/
    error {s c rest active} : s.code = [] →
      s.phase = .events (some (.conn c, .error :: rest)) active →
      ServerStep junk s .go (.ok { s with phase := .events (some (.conn c, rest)) active })
  | read {s c rest active res} : s.code = [] →
      s.phase = .events (some (.conn c, .read :: rest)) active →
      ServerStep junk s (.read res)
        ({ s with phase := .events (some (.conn c, rest)) active }.connectionHandlerRead junk
          c res)
  | write {s c rest active w} : s.code = [] →
      s.phase = .events (some (.conn c, .write :: rest)) active →
      ServerStep junk s (.write w)
        ({ s with phase := .events (some (.conn c, rest)) active }.connectionHandlerWrite c w)
  | accept {s c fd rest active} : s.code = [] →
      s.phase = .events (some (.acceptor, .read :: rest)) active → Accepts s c fd →
      ServerStep junk s (.accept c fd)
        ({ s with phase := .events (some (.acceptor, rest)) active }.newConnectionCallback junk
          c fd)
  | /-- `close` on the listening socket -/
    acceptFailed {s rest active} : s.code = [] →
      s.phase = .events (some (.acceptor, .read :: rest)) active →
      ServerStep junk s .acceptFailed
        (.ok { s with phase := .events (some (.acceptor, rest)) active, listening := false })
  | endEvent {s source active} : s.code = [] →
      s.phase = .events (some (source, [])) active →
      ServerStep junk s .go (s.endEvent active source)
  | doPendingFunctors {s} : s.code = [] → s.phase = .events none [] →
      ServerStep junk s .go s.nextTask
  | finishTask {s reached} : s.code = [] → s.phase = .pending reached →
      ServerStep junk s .go (s.finishTask reached)

/-- A server that listens and has accepted nothing yet. -/
def started : ServerState where
  conns := fun _ => none
  connections := fun _ => none
  handlers := fun _ => false
  interest := fun _ => none
  listening := true
  acceptorRevents := 0
  pendingList := []
  phase := .timers
  code := []
  destructs := []

/-- The runs of a plain server on one loop. -/
def serverSys (junk : Nat → UInt8) : TSys ServerState ServerEvent where
  init s := s = started
  step s ev t := ServerStep junk s ev (.ok t)

end GpBase.Server

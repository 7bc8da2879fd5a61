import GpBase.Loop.Model

/-!
# Deferred and inline execution of a pending task

Translation of `create_gp_pending_task`, `gp_run_in_loop`, `gp_queue_in_loop` and
the body of the loop in `do_pending_functors`, for tasks whose pointers may be
null: a result of `none` is an access through a null pointer. What a
`pending_func` does with the program is arbitrary (`Body`).

The tasks of connections are run once on either path, and the reference that the
path itself takes is given back. The task of `start_server` has no connection:
`gp_run_in_loop` runs it well on the loop thread and crashes in
`gp_queue_in_loop` on every other. The functions on the queue are those of
`GpBase.Loop.Model`, whose tasks are the same without what a `pending_func` needs.
-/

namespace GpBase.Loop.Deferred

/-- `task->pending_func`: the functions given to `create_gp_pending_task`. -/
inductive PendingFunc
  | runInLoopTrans
  | runInLoopShutdown
  | queueInLoopForceClose
  | queueInLoopDestroyConn
  | runInLoopRemoveConn
  | runInLoopCreateConn
  | runInLoopServerStart
  deriving DecidableEq, Repr

/-- A task; `id` is the address of its allocation, `none` the null pointer. -/
structure Task where
  id : Nat
  type : TaskType
  pendingFunc : PendingFunc
  server : Option Nat
  conn : Option Nat
  msg : List UInt8
  deriving DecidableEq, Repr

/-- `create_gp_pending_task`. -/
def createGpPendingTask (id : Nat) (type : TaskType) (func : PendingFunc)
    (server conn : Option Nat) (msg : List UInt8) : Task :=
  ⟨id, type, func, server, conn, msg⟩

/-- The calls of `create_gp_pending_task` in `gp_conn.c` and `gp_server.c`. -/
inductive Created : Task → Prop
  | connSend (id c : Nat) (data : List UInt8) :
      Created (createGpPendingTask id .trans .runInLoopTrans none (some c) data)
  | connShutdown (id c : Nat) :
      Created (createGpPendingTask id .conn .runInLoopShutdown none (some c) [])
  | connForceClose (id c : Nat) :
      Created (createGpPendingTask id .conn .queueInLoopForceClose none (some c) [])
  | runInLoopRemoveConn (id c : Nat) :
      Created (createGpPendingTask id .conn .queueInLoopDestroyConn none (some c) [])
  | removeConn (id c : Nat) :
      Created (createGpPendingTask id .removeConn .runInLoopRemoveConn none (some c) [])
  | newConnection (id c : Nat) :
      Created (createGpPendingTask id .conn .runInLoopCreateConn none (some c) [])
  | startServer (id server : Nat) :
      Created (createGpPendingTask id .serverStart .runInLoopServerStart (some server) none [])

/-- The loop, the connections and whatever else a `pending_func` works on. -/
structure World (ω : Type) where
  pendingList : List Task
  callingPendingFunctors : Bool
  /-- the counter of the eventfd -/
  wakeupFd : Nat
  conns : Nat → ConnRec
  rest : ω

variable {ω : Type}

/-- What the functions of `PendingFunc` do once they have followed their pointers. -/
abbrev Body (ω : Type) := Task → World ω → World ω

namespace World

variable (w : World ω)

def onConn (f : ConnRec → ConnRec) : Option Nat → Option (World ω)
  | none => none
  | some c => some { w with conns := Function.update w.conns c (f (w.conns c)) }

/-- `conn_ref_inc(&task->conn)`. -/
def connRefInc (t : Task) : Option (World ω) := w.onConn .connRefInc t.conn

/-- `conn_ref_dec(&task->conn)`. -/
def connRefDec (t : Task) : Option (World ω) := w.onConn .connRefDec t.conn

/-- `wakeup`. -/
def wakeup : World ω :=
  { w with wakeupFd := if w.wakeupFd < 2 ^ 64 - 2 then w.wakeupFd + 1 else w.wakeupFd }

/-- `destruct_gp_pending_task`: the node is taken off the list when it is on it. -/
def destructGpPendingTask (t : Task) : World ω :=
  { w with pendingList := w.pendingList.erase t }

end World

/-- What a path returns: the world it leaves, and the worlds in which it has called
`pending_func`. -/
structure Ran (ω : Type) where
  world : World ω
  calls : List (World ω)

/-- `task->pending_func(task)`: all but `run_in_loop_server_start` follow
`task->conn`, and that one follows `task->server`. -/
def pendingFunc (body : Body ω) (w : World ω) (t : Task) : Option (Ran ω) :=
  match t.pendingFunc with
  | .runInLoopServerStart => t.server.map fun _ => ⟨body t w, [w]⟩
  | _ => t.conn.map fun _ => ⟨body t w, [w]⟩

def gpQueueInLoop (isInLoopThread : Bool) (w : World ω) (t : Task) : Option (Ran ω) := do
  let w ← w.connRefInc t
  let w := { w with pendingList := w.pendingList ++ [t] }
  return ⟨if !isInLoopThread || w.callingPendingFunctors then w.wakeup else w, []⟩

def gpRunInLoop (isInLoopThread : Bool) (body : Body ω) (w : World ω) (t : Task) :
    Option (Ran ω) :=
  if isInLoopThread then do
    let r ← match t.type with
      | .trans | .conn | .removeConn => do
        let w ← w.connRefInc t
        let r ← pendingFunc body w t
        let w ← r.world.connRefDec t
        pure ⟨w, r.calls⟩
      | .serverStart => pendingFunc body w t
    return ⟨r.world.destructGpPendingTask t, r.calls⟩
  else gpQueueInLoop false w t

/-- What `do_pending_functors` does with one task of the list; that a pass comes to
each task once and in order is shown in `GpBase.Loop.Order`. -/
def drain (body : Body ω) (w : World ω) (t : Task) : Option (Ran ω) := do
  let r ← match t.type with
    | .trans | .conn | .removeConn => do
      let r ← pendingFunc body w t
      let w ← r.world.connRefDec t
      pure ⟨w, r.calls⟩
    | .serverStart => pendingFunc body w t
  return ⟨r.world.destructGpPendingTask t, r.calls⟩

/-! ## The two paths -/

/-- By how much the `ref` of `c` differs between two moments. -/
def refChange (w w' : World ω) (c : Nat) : Int := (w'.conns c).ref - (w.conns c).ref

/-- Run inline from `w`, or queued at `w` and drained at some `later` moment: there
is one call of `pending_func`, no null pointer is followed, and every `ref` changes
by what the function itself has done to it. -/
structure Agrees (t : Task) (body : Body ω) (w : World ω) : Prop where
  inline : ∃ called w', gpRunInLoop true body w t = some ⟨w', [called]⟩ ∧
    ∀ c, refChange w w' c = refChange called (body t called) c
  deferred : ∀ isInLoopThread later, ∃ queued w',
    gpQueueInLoop isInLoopThread w t = some ⟨queued, []⟩ ∧
    drain body later t = some ⟨w', [later]⟩ ∧
    ∀ c, refChange w queued c + refChange later w' c = refChange later (body t later) c

/-- Taking a reference of `held` and giving it back later leaves what happened in
between, and what the function did. -/
theorem refChange_balanced {w taken called : World ω} {held : Nat} (f : World ω → World ω)
    (inc : taken.conns = Function.update w.conns held (w.conns held).connRefInc) {w' : World ω}
    (dec : w'.conns =
      Function.update (f called).conns held ((f called).conns held).connRefDec) (c : Nat) :
    refChange w taken c + refChange called w' c = refChange called (f called) c := by
  unfold refChange
  rw [inc, dec]
  by_cases other : c = held
  · subst other
    rw [Function.update_self, Function.update_self]
    simp only [ConnRec.connRefInc, ConnRec.connRefDec]
    omega
  · rw [Function.update_of_ne other, Function.update_of_ne other]
    omega

/-- The tasks that name a connection. -/
structure OfConn (t : Task) (c : Nat) : Prop where
  conn : t.conn = some c
  type : t.type ≠ .serverStart
  func : t.pendingFunc ≠ .runInLoopServerStart

theorem Created.ofConn {t : Task} (created : Created t) (type : t.type ≠ .serverStart) :
    ∃ c, OfConn t c := by
  cases created with
  | startServer id server => exact absurd rfl type
  | connSend id c data => exact ⟨c, rfl, type, nofun⟩
  | connShutdown id c => exact ⟨c, rfl, type, nofun⟩
  | connForceClose id c => exact ⟨c, rfl, type, nofun⟩
  | runInLoopRemoveConn id c => exact ⟨c, rfl, type, nofun⟩
  | removeConn id c => exact ⟨c, rfl, type, nofun⟩
  | newConnection id c => exact ⟨c, rfl, type, nofun⟩

section OfConn

variable {t : Task} {c : Nat} (named : OfConn t c) (body : Body ω) (w : World ω)

include named

theorem OfConn.pendingFunc : pendingFunc body w t = some ⟨body t w, [w]⟩ := by
  unfold Deferred.pendingFunc
  rw [named.conn]
  cases func : t.pendingFunc with
  | runInLoopServerStart => exact absurd func named.func
  | _ => rfl

theorem OfConn.drain :
    ∃ w', drain body w t = some ⟨w', [w]⟩ ∧
      w'.conns = Function.update (body t w).conns c ((body t w).conns c).connRefDec := by
  unfold Deferred.drain World.connRefDec
  rw [named.pendingFunc, named.conn]
  cases type : t.type with
  | serverStart => exact absurd type named.type
  | _ => exact ⟨_, rfl, rfl⟩

theorem OfConn.gpQueueInLoop (isInLoopThread : Bool) :
    ∃ queued, gpQueueInLoop isInLoopThread w t = some ⟨queued, []⟩ ∧
      queued.conns = Function.update w.conns c (w.conns c).connRefInc := by
  unfold Deferred.gpQueueInLoop World.connRefInc
  rw [named.conn]
  refine ⟨_, rfl, ?_⟩
  dsimp only
  split <;> rfl

/-- Inline, the task is run as it would be drained at once. -/
theorem OfConn.gpRunInLoop :
    ∃ taken w', gpRunInLoop true body w t = some ⟨w', [taken]⟩ ∧
      taken.conns = Function.update w.conns c (w.conns c).connRefInc ∧
      w'.conns =
        Function.update (body t taken).conns c ((body t taken).conns c).connRefDec := by
  unfold Deferred.gpRunInLoop World.connRefInc World.connRefDec
  rw [if_pos rfl, named.conn]
  cases type : t.type with
  | serverStart => exact absurd type named.type
  | _ =>
      simp only [World.onConn, Option.bind_eq_bind, Option.bind_some, named.pendingFunc]
      exact ⟨_, _, rfl, rfl, rfl⟩

theorem OfConn.agrees : Agrees t body w := by
  constructor
  · obtain ⟨taken, w', ran, inc, dec⟩ := named.gpRunInLoop body w
    refine ⟨taken, w', ran, ?_⟩
    intro d
    rw [← refChange_balanced (body t) inc dec d]
    unfold refChange
    omega
  · intro isInLoopThread later
    obtain ⟨queued, ran, inc⟩ := named.gpQueueInLoop w isInLoopThread
    obtain ⟨w', drained, dec⟩ := named.drain body later
    exact ⟨queued, w', ran, drained, refChange_balanced (body t) inc dec⟩

end OfConn

/-- A task without a connection cannot be queued. -/
theorem gpQueueInLoop_null {t : Task} (null : t.conn = none) (isInLoopThread : Bool)
    (w : World ω) : gpQueueInLoop isInLoopThread w t = none := by
  unfold gpQueueInLoop World.connRefInc
  rw [null]
  rfl

/-- **Deferred and inline execution agree** for the tasks that name a connection,
and for no other task that the library creates. -/
theorem paths_agree {t : Task} (created : Created t) (body : Body ω) (w : World ω) :
    Agrees t body w ↔ t.type ≠ .serverStart := by
  constructor
  · rintro agrees start
    obtain ⟨queued, w', ran, _⟩ := agrees.deferred true w
    cases created with
    | startServer id server =>
        rw [gpQueueInLoop_null rfl] at ran
        cases ran
    | _ => cases start
  · intro type
    obtain ⟨c, named⟩ := created.ofConn type
    exact named.agrees body w

/-! ## The loop that the queue is part of -/

/-- The task as `GpBase.Loop.Model` has it. -/
def Task.pending (t : Task) : PendingTask := ⟨t.id, t.type, t.conn⟩

/-- The loop `l` with the queue, the flag, the eventfd and the connections of `w`. -/
def World.inLoop (w : World ω) (l : LoopState) : LoopState :=
  { l with
    loop := { l.loop with
      callingPendingFunctors := w.callingPendingFunctors
      pendingList := w.pendingList.map Task.pending
      wakeupFd := w.wakeupFd }
    conns := w.conns }

theorem Task.pending_erase (t : Task) (list : List Task)
    (unique : ∀ u ∈ list, u.id = t.id → u = t) :
    (list.erase t).map Task.pending = (list.map Task.pending).erase t.pending := by
  induction list with
  | nil => rfl
  | cons u rest ih =>
      have ih := ih fun v mem => unique v (List.mem_cons_of_mem u mem)
      by_cases same : u = t
      · subst same
        rw [List.erase_cons_head, List.map_cons, List.erase_cons_head]
      · have differ : u.pending ≠ t.pending := by
          intro equal
          exact same (unique u List.mem_cons_self (congrArg PendingTask.id equal))
        rw [List.erase_cons_tail (by simpa using same), List.map_cons, ih, List.map_cons,
          List.erase_cons_tail (by simpa using differ)]

section InLoop

variable (w : World ω) (t : Task) (l : LoopState)

/-- On the loop thread the two translations of `gp_queue_in_loop` are one function. -/
theorem gpQueueInLoop_inLoop :
    (gpQueueInLoop true w t).map (·.world.inLoop l) =
      (w.inLoop l).gpQueueInLoop t.pending := by
  unfold gpQueueInLoop World.connRefInc LoopState.gpQueueInLoop LoopState.append
  rw [show t.pending.conn = t.conn from rfl]
  cases named : t.conn with
  | none => rfl
  | some c =>
      cases calling : w.callingPendingFunctors with
      | false => simp [World.onConn, World.inLoop, LoopState.onConn, calling]
      | true =>
          simp [World.onConn, World.inLoop, LoopState.onConn, calling, World.wakeup,
            GpLoop.wakeup]

/-- On another thread it is the append and then the write to the eventfd, between which
the loop may run. -/
theorem gpQueueInLoop_outside :
    (gpQueueInLoop false w t).map (·.world.inLoop l) =
      ((w.inLoop l).outsideAppend t.pending).map LoopState.outsideWakeup := by
  unfold gpQueueInLoop World.connRefInc LoopState.outsideAppend LoopState.append
  rw [show t.pending.conn = t.conn from rfl]
  cases named : t.conn with
  | none => rfl
  | some c =>
      simp [World.onConn, World.inLoop, LoopState.onConn, World.wakeup, GpLoop.wakeup,
        LoopState.outsideWakeup]

/-- What `do_pending_functors` does after `pending_func`, up to the step to the next task. -/
theorem drain_inLoop {body : Body ω} {called : Ran ω} (ran : pendingFunc body w t = some called)
    (unique : ∀ u ∈ called.world.pendingList, u.id = t.id → u = t) (tmp : Option PendingTask) :
    (drain body w t).map (·.world.inLoop l) =
      ((called.world.inLoop l).finishTask t.pending tmp).map
        fun s => { s with phase := l.phase } := by
  have erased := t.pending_erase called.world.pendingList unique
  unfold drain LoopState.finishTask
  rw [ran, show t.pending.type = t.type from rfl, show t.pending.conn = t.conn from rfl]
  cases type : t.type with
  | serverStart => simp [World.destructGpPendingTask, World.inLoop, erased]
  | _ =>
      cases named : t.conn with
      | none => simp [World.connRefDec, World.onConn, named]
      | some c =>
          simp [World.connRefDec, World.onConn, named, World.destructGpPendingTask, World.inLoop,
            LoopState.onConn, erased]

end InLoop

/-- A loop with nothing queued and one reference to each connection. -/
def quietWorld : World Unit where
  pendingList := []
  callingPendingFunctors := false
  wakeupFd := 0
  conns := fun _ => ⟨.connected, 1, true⟩
  rest := ()

/-- The task of `conn_shutdown`, with a function that lets go of one reference. -/
theorem paths_agree_shutdown :
    Agrees (createGpPendingTask 1 .conn .runInLoopShutdown none (some 0) [])
      (fun _ w => { w with conns := fun c => (w.conns c).connRefDec }) quietWorld :=
  (paths_agree (.connShutdown 1 0) _ _).mpr (by decide)

/-- `start_server` on the loop thread calls `run_in_loop_server_start`; on another
thread it follows the null `conn` of its task. -/
theorem start_server_elsewhere :
    let t := createGpPendingTask 1 .serverStart .runInLoopServerStart (some 0) none []
    let body : Body Unit := fun _ w => w
    Created t ∧ (gpRunInLoop true body quietWorld t).map (·.calls.length) = some 1 ∧
      (gpRunInLoop false body quietWorld t).isNone ∧ ¬ Agrees t body quietWorld := by
  refine ⟨.startServer 1 0, rfl, rfl, ?_⟩
  intro agrees
  obtain ⟨queued, w', ran, _⟩ := agrees.deferred false quietWorld
  rw [gpQueueInLoop_null rfl] at ran
  cases ran

end GpBase.Loop.Deferred

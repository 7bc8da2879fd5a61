import GpBase.Conn.Model

/-!
# The event loop and its pending tasks

Translation of `gp_queue_in_loop`, `do_pending_functors`, `gp_loop_quit` and
`gp_loop_run` in `gp_loop.c` and of `conn_force_close` in `gp_conn.c`. The loop
goes through four phases a round; what callbacks do in a phase is up to the
environment. A thread outside the loop is interrupted between the append of its
task, or the flag that it sets, and its write to the eventfd. A function that follows
a null pointer has no result: the program crashes, and no run goes on from there.
-/

namespace GpBase.Loop

open GpBase.Conn

/-- `task->type`. -/
inductive TaskType
  | trans
  | conn
  | removeConn
  | serverStart
  deriving DecidableEq, Repr

/-- A task; `id` is the address of its allocation. -/
structure PendingTask where
  id : Nat
  type : TaskType
  /-- `none` is the null pointer, as in the task of `start_server` -/
  conn : Option Nat
  deriving DecidableEq, Repr

/-- The part of a connection that tasks and `conn_force_close` touch. -/
structure ConnRec where
  state : GpState
  ref : Int
  live : Bool
  deriving DecidableEq, Repr

/-- `conn_ref_inc`. -/
def ConnRec.connRefInc (c : ConnRec) : ConnRec := { c with ref := c.ref + 1 }

/-- `conn_ref_dec`: the connection is destructed when its last holder lets go. -/
def ConnRec.connRefDec (c : ConnRec) : ConnRec :=
  { c with ref := c.ref - 1, live := c.live && c.ref - 1 ≠ 0 }

structure GpLoop where
  quit : Bool
  looping : Bool
  callingPendingFunctors : Bool
  pendingList : List PendingTask
  /-- the counter of the eventfd -/
  wakeupFd : Nat
  deriving DecidableEq, Repr

/-- `wakeup`: the eventfd does not count beyond its maximum. -/
def GpLoop.wakeup (l : GpLoop) : GpLoop :=
  { l with wakeupFd := if l.wakeupFd < 2 ^ 64 - 2 then l.wakeupFd + 1 else l.wakeupFd }

/-- `handler_wakeup_read`. -/
def GpLoop.wakeupRead (l : GpLoop) : GpLoop := { l with wakeupFd := 0 }

/-- `gp_list_first`. -/
def first (list : List PendingTask) : Option PendingTask := list.head?

/-- `gp_list_next`. -/
def next (list : List PendingTask) : Option PendingTask → Option PendingTask
  | none => none
  | some t => (list.drop (list.idxOf t + 1)).head?

/-- Where `gp_loop_run` is. -/
inductive Phase
  | /-- not inside `gp_loop_run` -/ idle
  | /-- in `gp_run_timers` -/ timers
  | /-- in `poller_poll` -/ polling
  | /-- handling events; is the wakeup handler still to be handled? -/ events (wakeup : Bool)
  | /-- in `do_pending_functors`, with the two pointers of its loop -/
    pending (task tmp : Option PendingTask)
  deriving DecidableEq, Repr

/-- The loop thread is in code that may call into the library. -/
def Phase.inCallback : Phase → Bool
  | .idle | .timers | .events _ | .pending (some _) _ => true
  | .polling | .pending none _ => false

structure LoopState where
  loop : GpLoop
  conns : Nat → ConnRec
  phase : Phase
  /-- calls from outside that have appended their task and not yet called `wakeup` -/
  inFlight : Nat
  /-- calls of `gp_loop_quit` from outside that have set `quit` and not yet called `wakeup` -/
  quitting : Nat

namespace LoopState

variable (s : LoopState)

/-- Change one connection. -/
def onConn (c : Nat) (f : ConnRec → ConnRec) : LoopState :=
  { s with conns := Function.update s.conns c (f (s.conns c)) }

/-- `gp_queue_in_loop` up to its test for a wakeup: `conn_ref_inc` follows `task->conn`,
whatever the type of the task. -/
def append (t : PendingTask) : Option LoopState := do
  let s := s.onConn (← t.conn) .connRefInc
  return { s with loop := { s.loop with pendingList := s.loop.pendingList ++ [t] } }

/-- `gp_queue_in_loop` on the loop thread. -/
def gpQueueInLoop (t : PendingTask) : Option LoopState := do
  let s ← s.append t
  return if s.loop.callingPendingFunctors then { s with loop := s.loop.wakeup } else s

/-- The test that `conn_force_close` makes. -/
def closable (c : Nat) : Bool :=
  (s.conns c).state = .connected || (s.conns c).state = .disconnecting

/-- `conn_force_close` on the loop thread. -/
def connForceClose (c : Nat) (t : PendingTask) : Option LoopState :=
  if s.closable c then
    (s.onConn c fun r => { r with state := .disconnecting }).gpQueueInLoop t
  else some s

/-- The first half of a `gp_queue_in_loop` by another thread. -/
def outsideAppend (t : PendingTask) : Option LoopState := do
  let s ← s.append t
  return { s with inFlight := s.inFlight + 1 }

/-- The first half of a `conn_force_close` by another thread. -/
def outsideForceClose (c : Nat) (t : PendingTask) : Option LoopState :=
  if s.closable c then
    (s.onConn c fun r => { r with state := .disconnecting }).outsideAppend t
  else some s

/-- The second half of both. -/
def outsideWakeup : LoopState :=
  { s with loop := s.loop.wakeup, inFlight := s.inFlight - 1 }

/-- The first half of a `gp_loop_quit` by another thread. -/
def outsideQuit : LoopState :=
  { s with loop := { s.loop with quit := true }, quitting := s.quitting + 1 }

/-- Its second half. -/
def outsideQuitWakeup : LoopState :=
  { s with loop := s.loop.wakeup, quitting := s.quitting - 1 }

/-- The start of `do_pending_functors`. -/
def enterPending : LoopState :=
  let it := first s.loop.pendingList
  { s with loop := { s.loop with callingPendingFunctors := true }
           phase := .pending it (next s.loop.pendingList it) }

/-- What `do_pending_functors` does after `pending_func` has returned:
`conn_ref_dec`, `destruct_gp_pending_task` and the step to the next task. -/
def finishTask (t : PendingTask) (tmp : Option PendingTask) : Option LoopState := do
  let s ← match t.type with
    | .trans | .conn | .removeConn => t.conn.map fun c => s.onConn c .connRefDec
    | .serverStart => some s
  let list := s.loop.pendingList.erase t
  return { s with loop := { s.loop with pendingList := list }
                  phase := .pending tmp (next list tmp) }

/-- The end of `do_pending_functors` and the test of the loop. -/
def leavePending : LoopState :=
  { s with loop := { s.loop with callingPendingFunctors := false, looping := !s.loop.quit }
           phase := if s.loop.quit then .idle else .timers }

end LoopState

/-- The steps of a run. -/
inductive LoopEvent
  | run
  | queue (t : PendingTask)
  | forceClose (c : Nat) (t : PendingTask)
  | quit
  | outsideAppend (t : PendingTask)
  | outsideForceClose (c : Nat) (t : PendingTask)
  | outsideWakeup
  | outsideQuit
  | outsideQuitWakeup
  | connState (c : Nat) (st : GpState)
  | poll
  | pollReturn (wakeup : Bool)
  | wakeupRead
  | enterPending
  | finishTask
  | leavePending
  deriving DecidableEq, Repr

/-- `t` is a new allocation. -/
def Fresh (s : LoopState) (t : PendingTask) : Prop :=
  ∀ u ∈ s.loop.pendingList, u.id ≠ t.id

/-- The task that `conn_force_close(c)` allocates. -/
def Closes (t : PendingTask) (c : Nat) : Prop := t.type = .conn ∧ t.conn = some c

inductive LoopStep : LoopState → LoopEvent → LoopState → Prop
  | run {s} : s.phase = .idle →
      LoopStep s .run
        { s with loop := { s.loop with looping := true, quit := false }, phase := .timers }
  | queue {s s' t} : s.phase.inCallback → Fresh s t → s.gpQueueInLoop t = some s' →
      LoopStep s (.queue t) s'
  | forceClose {s s' c t} : s.phase.inCallback → Fresh s t → Closes t c →
      s.connForceClose c t = some s' → LoopStep s (.forceClose c t) s'
  | quit {s} : s.phase.inCallback →
      LoopStep s .quit { s with loop := { s.loop with quit := true } }
  | outsideAppend {s s' t} : Fresh s t → s.outsideAppend t = some s' →
      LoopStep s (.outsideAppend t) s'
  | outsideForceClose {s s' c t} : Fresh s t → Closes t c → s.outsideForceClose c t = some s' →
      LoopStep s (.outsideForceClose c t) s'
  | outsideWakeup {s} : 0 < s.inFlight → LoopStep s .outsideWakeup s.outsideWakeup
  | outsideQuit {s} : LoopStep s .outsideQuit s.outsideQuit
  | outsideQuitWakeup {s} : 0 < s.quitting → LoopStep s .outsideQuitWakeup s.outsideQuitWakeup
  | connState {s c st} :
      LoopStep s (.connState c st) (s.onConn c fun r => { r with state := st })
  | poll {s} : s.phase = .timers → LoopStep s .poll { s with phase := .polling }
  | /-- `epoll_wait` reports the eventfd only when it is readable -/
    pollReturn {s wakeup} : s.phase = .polling → (wakeup = true → 0 < s.loop.wakeupFd) →
      LoopStep s (.pollReturn wakeup) { s with phase := .events wakeup }
  | wakeupRead {s} : s.phase = .events true →
      LoopStep s .wakeupRead { s with loop := s.loop.wakeupRead, phase := .events false }
  | enterPending {s} : s.phase = .events false → LoopStep s .enterPending s.enterPending
  | finishTask {s s' t tmp} : s.phase = .pending (some t) tmp → s.finishTask t tmp = some s' →
      LoopStep s .finishTask s'
  | leavePending {s tmp} : s.phase = .pending none tmp →
      LoopStep s .leavePending s.leavePending

/-! ## What the functions on tasks do -/

/-- What appending a task to the queue changes. -/
structure Appends (s : LoopState) (t : PendingTask) (s' : LoopState) : Prop where
  named : t.conn.isSome
  phase : s'.phase = s.phase
  loop : s'.loop = { s.loop with pendingList := s.loop.pendingList ++ [t] }
  inFlight : s'.inFlight = s.inFlight
  quitting : s'.quitting = s.quitting

section Spec

variable {s s' : LoopState} {t : PendingTask}

theorem append_spec (appended : s.append t = some s') : Appends s t s' := by
  cases named : t.conn with
  | none =>
      rw [LoopState.append, named] at appended
      cases appended
  | some c =>
      rw [LoopState.append, named] at appended
      cases appended
      exact ⟨by rw [named]; rfl, rfl, rfl, rfl, rfl⟩

/-- A task without a connection cannot be queued. -/
theorem append_eq_none : s.append t = none ↔ t.conn = none := by
  cases named : t.conn with
  | none => exact iff_of_true (by rw [LoopState.append, named]; rfl) rfl
  | some c => exact iff_of_false (by rw [LoopState.append, named]; exact nofun) nofun

/-- On the loop thread the task is announced while pending tasks are handled. -/
theorem gpQueueInLoop_spec (called : s.gpQueueInLoop t = some s') :
    ∃ s₁, Appends s t s₁ ∧
      s' = if s.loop.callingPendingFunctors then { s₁ with loop := s₁.loop.wakeup } else s₁ := by
  obtain ⟨s₁, appended, rest⟩ := Option.bind_eq_some_iff.mp called
  obtain rfl := Option.some.inj rest
  have appends := append_spec appended
  refine ⟨s₁, appends, ?_⟩
  rw [appends.loop]

/-- The queue grows by the task; the phase and the flag `quit` stay. -/
theorem gpQueueInLoop_keeps (called : s.gpQueueInLoop t = some s') :
    s'.phase = s.phase ∧ s'.loop.pendingList = s.loop.pendingList ++ [t] ∧
      s'.loop.quit = s.loop.quit := by
  obtain ⟨s₁, appends, rfl⟩ := gpQueueInLoop_spec called
  have list : s₁.loop.pendingList = s.loop.pendingList ++ [t] := by rw [appends.loop]
  have quit : s₁.loop.quit = s.loop.quit := by rw [appends.loop]
  split
  · exact ⟨appends.phase, list, quit⟩
  · exact ⟨appends.phase, list, quit⟩

theorem gpQueueInLoop_eq_none : s.gpQueueInLoop t = none ↔ t.conn = none := by
  rw [← append_eq_none (s := s), LoopState.gpQueueInLoop]
  cases s.append t with
  | none => exact Iff.rfl
  | some s₁ => exact iff_of_false nofun nofun

theorem outsideAppend_spec (called : s.outsideAppend t = some s') :
    ∃ s₁, Appends s t s₁ ∧ s' = { s₁ with inFlight := s.inFlight + 1 } := by
  obtain ⟨s₁, appended, rest⟩ := Option.bind_eq_some_iff.mp called
  obtain rfl := Option.some.inj rest
  have appends := append_spec appended
  exact ⟨s₁, appends, by rw [appends.inFlight]⟩

theorem outsideAppend_keeps (called : s.outsideAppend t = some s') :
    s'.phase = s.phase ∧ s'.loop.pendingList = s.loop.pendingList ++ [t] ∧
      s'.loop.quit = s.loop.quit := by
  obtain ⟨s₁, appends, rfl⟩ := outsideAppend_spec called
  exact ⟨appends.phase, by rw [appends.loop], by rw [appends.loop]⟩

/-- `conn_force_close` queues its task when it finds the connection open. -/
theorem connForceClose_cases {c : Nat} (called : s.connForceClose c t = some s') :
    (s.closable c ∧
      (s.onConn c fun r => { r with state := .disconnecting }).gpQueueInLoop t = some s') ∨
      (¬ s.closable c ∧ s' = s) := by
  unfold LoopState.connForceClose at called
  split at called
  · exact .inl ⟨‹_›, called⟩
  · exact .inr ⟨‹_›, (Option.some.inj called).symm⟩

theorem outsideForceClose_cases {c : Nat} (called : s.outsideForceClose c t = some s') :
    (s.closable c ∧
      (s.onConn c fun r => { r with state := .disconnecting }).outsideAppend t = some s') ∨
      (¬ s.closable c ∧ s' = s) := by
  unfold LoopState.outsideForceClose at called
  split at called
  · exact .inl ⟨‹_›, called⟩
  · exact .inr ⟨‹_›, (Option.some.inj called).symm⟩

/-- What the end of a task changes. -/
structure Finishes (s : LoopState) (t : PendingTask) (tmp : Option PendingTask) (s' : LoopState) :
    Prop where
  loop : s'.loop = { s.loop with pendingList := s.loop.pendingList.erase t }
  phase : s'.phase = .pending tmp (next (s.loop.pendingList.erase t) tmp)
  inFlight : s'.inFlight = s.inFlight
  quitting : s'.quitting = s.quitting

theorem finishTask_spec {tmp : Option PendingTask} (finished : s.finishTask t tmp = some s') :
    Finishes s t tmp s' := by
  unfold LoopState.finishTask at finished
  cases type : t.type with
  | serverStart =>
      rw [type] at finished
      cases finished
      exact ⟨rfl, rfl, rfl, rfl⟩
  | _ =>
      cases named : t.conn with
      | none =>
          rw [type, named] at finished
          cases finished
      | some c =>
          rw [type, named] at finished
          cases finished
          exact ⟨rfl, rfl, rfl, rfl⟩

/-- A task that names its connection can be finished. -/
theorem finishTask_isSome (tmp : Option PendingTask) (named : t.conn.isSome) :
    ∃ s', s.finishTask t tmp = some s' := by
  obtain ⟨c, named⟩ := Option.isSome_iff_exists.mp named
  unfold LoopState.finishTask
  rw [named]
  cases t.type <;> exact ⟨_, rfl⟩

end Spec

end GpBase.Loop

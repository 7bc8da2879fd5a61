import GpBase.Lib.Intrusive
import GpBase.Lib.Run

/-!
# The thread pool

Translation of `gp_task_thread`, `run_task` and `destroy_task_processor` in
`gp_threadpool.c` and of `gp_tmr_wrap` in `gp_thread.c`. A critical section is one
step; `run_task` has two of them, so calls of it overlap. A worker in `gp_cv_wait`
may wake up at any time and stands at the head of its loop like any other. Tasks
have a callback, which does what it wants and may call `run_task` itself.

`tp_tasks` is modelled with its pointers: a task has one node, and `run_task` puts
it on the list whether it is there already or not. The result `none` of a step is
an access through a null pointer.
-/

namespace GpBase.Pool

open GpBase.Lib

/-- The address of a task. -/
abbrev TaskId := Nat

/-- Where a thread of the pool is. -/
inductive Worker
  | /-- in `gp_tmr_wrap`, before it has read `start` and `stop` -/ wrap (start stop : Bool)
  | /-- at the head of the loop of `gp_task_thread` -/ top
  | /-- in `task_cb`, which may be between the two sections of `run_task(calling)` -/
    running (task : TaskId) (calling : Option TaskId)
  | /-- it has left `gp_task_thread` -/ left
  deriving DecidableEq, Repr

/-- The task whose callback the worker is in. -/
def Worker.task : Worker → Option TaskId
  | .running t _ => some t
  | .wrap _ _ | .top | .left => none

/-- The task that its callback is submitting. -/
def Worker.calling : Worker → Option TaskId
  | .running _ calling => calling
  | .wrap _ _ | .top | .left => none

/-- A run of a task that `run_task` has put on the list; `owed` if that was done by a
callback, or before `tp_run` was cleared. -/
structure Submission where
  task : TaskId
  owed : Bool
  deriving DecidableEq, Repr

structure PoolState where
  tpTasks : Links TaskId
  tpRun : Bool
  taskBusy : TaskId → Nat
  workers : List Worker
  /-- the calls of `run_task` from outside that are between their two sections -/
  inFlight : List TaskId
  submitted : List Submission
  /-- the tasks whose callback was called -/
  begun : List TaskId
  /-- the tasks whose callback has returned, once for each time -/
  executed : List TaskId

namespace PoolState

variable (s : PoolState)

def withWorkers (workers : List Worker) : PoolState := { s with workers := workers }

/-- The first section of `run_task`. -/
def countRun (t : TaskId) : PoolState :=
  { s with taskBusy := Function.update s.taskBusy t (s.taskBusy t + 1) }

/-- The second section of `run_task`. -/
def appendTask (t : TaskId) (owed : Bool) : Option PoolState := do
  let l ← s.tpTasks.append t
  return { s with tpTasks := l, submitted := s.submitted ++ [⟨t, owed⟩] }

/-- `gp_task_thread` takes the task that it has found. -/
def takeTask (t : TaskId) : Option PoolState := do
  let l ← s.tpTasks.remove t
  return { s with tpTasks := l, begun := s.begun ++ [t] }

/-- The section that follows the callback. -/
def finishTask (t : TaskId) : PoolState :=
  { s with taskBusy := Function.update s.taskBusy t (s.taskBusy t - 1)
           executed := s.executed ++ [t] }

end PoolState

inductive PoolEvent
  | /-- a worker sees `start` -/ enter
  | /-- a worker sees `stop` without `start` -/ skip
  | /-- `gp_tmr_finish` sets `stop` -/ finish
  | runTask (t : TaskId)
  | appendTask (t : TaskId)
  | /-- the same two sections in a callback -/ callRunTask (t : TaskId)
  | callAppendTask (t : TaskId)
  | takeTask
  | finishTask
  | leave
  | /-- `destroy_task_processor` clears `tp_run` -/ stop
  deriving DecidableEq, Repr

/-- The steps; a worker is taken out of its place in the list and put back there. -/
inductive PoolStep : PoolState → PoolEvent → Option PoolState → Prop
  | enter {s pre post stop} : s.workers = pre ++ .wrap true stop :: post →
      PoolStep s .enter (some (s.withWorkers (pre ++ .top :: post)))
  | skip {s pre post} : s.workers = pre ++ .wrap false true :: post →
      PoolStep s .skip (some (s.withWorkers (pre ++ .left :: post)))
  | finish {s pre post start stop} : s.tpRun = false →
      s.workers = pre ++ .wrap start stop :: post →
      PoolStep s .finish (some (s.withWorkers (pre ++ .wrap start true :: post)))
  | runTask {s t} :
      PoolStep s (.runTask t) (some { s.countRun t with inFlight := t :: s.inFlight })
  | appendTask {s t} : t ∈ s.inFlight →
      PoolStep s (.appendTask t)
        ({ s with inFlight := s.inFlight.erase t }.appendTask t s.tpRun)
  | callRunTask {s pre post task t} : s.workers = pre ++ .running task none :: post →
      PoolStep s (.callRunTask t)
        (some ((s.countRun t).withWorkers (pre ++ .running task (some t) :: post)))
  | callAppendTask {s pre post task t} : s.workers = pre ++ .running task (some t) :: post →
      PoolStep s (.callAppendTask t)
        ((s.withWorkers (pre ++ .running task none :: post)).appendTask t true)
  | takeTask {s pre post t} : s.workers = pre ++ .top :: post →
      s.tpTasks.first = some (some t) →
      PoolStep s .takeTask
        ((s.withWorkers (pre ++ .running t none :: post)).takeTask t)
  | /-- `gp_list_first` finds a null pointer in the head of the list -/
    takeNull {s pre post} : s.workers = pre ++ .top :: post → s.tpTasks.first = none →
      PoolStep s .takeTask none
  | finishTask {s pre post t} : s.workers = pre ++ .running t none :: post →
      PoolStep s .finishTask (some ((s.withWorkers (pre ++ .top :: post)).finishTask t))
  | leave {s pre post} : s.workers = pre ++ .top :: post → s.tpTasks.first = some none →
      s.tpRun = false →
      PoolStep s .leave (some (s.withWorkers (pre ++ .left :: post)))
  | stop {s} : s.tpRun = true → PoolStep s .stop (some { s with tpRun := false })

/-- A pool that `create_task_processor` has made, with `n` threads that have been told
to start. -/
def createTaskProcessor (n : Nat) : PoolState where
  tpTasks := .empty
  tpRun := true
  taskBusy := fun _ => 0
  workers := List.replicate n (.wrap true false)
  inFlight := []
  submitted := []
  begun := []
  executed := []

def poolSys (n : Nat) : TSys PoolState PoolEvent where
  init s := s = createTaskProcessor n
  step s ev t := PoolStep s ev (some t)

/-- `run_task` does not put a task on the list whose node is on it still; the test is
`gp_list_active`. -/
def Unqueued (s : PoolState) : PoolEvent → Prop
  | .appendTask t | .callAppendTask t => s.tpTasks.next (.node t) = none
  | _ => True

instance (s : PoolState) : DecidablePred (Unqueued s)
  | .appendTask t | .callAppendTask t =>
    inferInstanceAs (Decidable (s.tpTasks.next (.node t) = none))
  | .enter | .skip | .finish | .runTask _ | .callRunTask _ | .takeTask | .finishTask | .leave
  | .stop => inferInstanceAs (Decidable True)

/-! ## A pool with one worker -/

/-- The step that a pool with one worker takes on an event. -/
def PoolState.exec (s : PoolState) (ev : PoolEvent) : Option PoolState :=
  match ev, s.workers with
  | .runTask t, _ => some { s.countRun t with inFlight := t :: s.inFlight }
  | .appendTask t, _ =>
    if t ∈ s.inFlight then { s with inFlight := s.inFlight.erase t }.appendTask t s.tpRun else none
  | .stop, _ => if s.tpRun = true then some { s with tpRun := false } else none
  | .enter, [.wrap true _] => some (s.withWorkers [.top])
  | .callRunTask t, [.running task none] =>
    some ((s.countRun t).withWorkers [.running task (some t)])
  | .callAppendTask u, [.running task (some t)] =>
    if u = t then (s.withWorkers [.running task none]).appendTask t true else none
  | .takeTask, [.top] =>
    match s.tpTasks.first with
    | some (some t) => (s.withWorkers [.running t none]).takeTask t
    | _ => none
  | .finishTask, [.running t none] => some ((s.withWorkers [.top]).finishTask t)
  | .leave, [.top] =>
    if s.tpTasks.first = some none ∧ s.tpRun = false then some (s.withWorkers [.left]) else none
  | _, _ => none

theorem PoolState.exec_step {s s' : PoolState} {ev : PoolEvent} (ran : s.exec ev = some s') :
    PoolStep s ev (some s') := by
  unfold PoolState.exec at ran
  split at ran
  case h_1 t => exact ran ▸ .runTask
  case h_2 t =>
    split at ran
    · rename_i flying
      exact ran ▸ .appendTask flying
    · cases ran
  case h_3 =>
    split at ran
    · rename_i open'
      exact ran ▸ .stop open'
    · cases ran
  case h_4 stop place =>
    have place' : s.workers = [] ++ .wrap true stop :: [] := place
    exact ran ▸ .enter place'
  case h_5 t task place =>
    have place' : s.workers = [] ++ .running task none :: [] := place
    exact ran ▸ .callRunTask place'
  case h_6 u task t place =>
    split at ran
    · rename_i same
      subst same
      have place' : s.workers = [] ++ .running task (some u) :: [] := place
      exact ran ▸ .callAppendTask place'
    · cases ran
  case h_7 place =>
    split at ran
    · rename_i t found
      have place' : s.workers = [] ++ .top :: [] := place
      exact ran ▸ .takeTask place' found
    · cases ran
  case h_8 t place =>
    have place' : s.workers = [] ++ .running t none :: [] := place
    exact ran ▸ .finishTask place'
  case h_9 place =>
    split at ran
    · rename_i ready
      have place' : s.workers = [] ++ .top :: [] := place
      exact ran ▸ .leave place' ready.1 ready.2
    · cases ran
  case h_10 => cases ran

end GpBase.Pool

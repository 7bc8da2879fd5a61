import GpBase.Lib.Intrusive
import GpBase.Lib.Run
import GpBase.Pool.Model

/-!
# The locks of the thread pool

`gp_task_thread`, `run_task`, `wait_task`, `destroy_task` and the section of
`destroy_task_processor` with each `gp_mtx_lock`, `gp_mtx_unlock` and `gp_cv_wait` a
step of its own. A thread is a worker, a client, or a worker whose callback has called
one of the functions of a client. Locking a mutex that is not free is no step; a thread
in `gp_cv_wait` may wake up at any time and then has to lock the mutex again.
-/

namespace GpBase.Pool

open GpBase.Lib

inductive Mutex
  | tpMtx
  | taskMtx (t : TaskId)
  deriving DecidableEq, Repr

/-- Where `gp_task_thread` is. -/
inductive WorkerPc
  | /-- before `gp_mtx_lock(&tp_mtx)` -/ lockPool
  | /-- before `gp_list_first` -/ look
  | /-- before `gp_mtx_lock(&task->task_mtx)` -/ lockTask (t : TaskId)
  | /-- before `gp_list_remove` -/ remove (t : TaskId)
  | /-- before `gp_mtx_unlock(&tp_mtx)` -/ unlockPool (t : TaskId)
  | callback (t : TaskId)
  | /-- before the second `gp_mtx_lock(&task->task_mtx)` -/ relockTask (t : TaskId)
  | /-- before `task_busy--` -/ count (t : TaskId)
  | /-- in `gp_cv_wait(&tp_sched_cv)` -/ sleep
  | /-- before the last `gp_mtx_unlock(&tp_mtx)` -/ leave
  | left
  deriving DecidableEq, Repr

/-- Where a call of a client's function is. -/
inductive CallPc
  | runLock (t : TaskId)
  | /-- before `task_busy++` -/ runCount (t : TaskId)
  | runLockPool (t : TaskId)
  | /-- before `gp_list_append` -/ runAppend (t : TaskId)
  | waitLock (t : TaskId)
  | /-- before the test of `task_busy` -/ waitTest (t : TaskId)
  | waitSleep (t : TaskId)
  | /-- before the second `gp_mtx_lock` of `wait_task` -/ waitRelock (t : TaskId)
  | destroyLock (t : TaskId)
  | destroyTest (t : TaskId)
  | destroySleep (t : TaskId)
  | destroyUnlock (t : TaskId)
  | /-- before `free(task)` -/ destroyFree (t : TaskId)
  | stopLock
  | /-- before `tp_run = 0` -/ stopClear
  deriving DecidableEq, Repr

/-- A thread: `worker` is `none` for a client, `call` the call that it is in. -/
structure Thread where
  worker : Option WorkerPc
  call : Option CallPc
  deriving DecidableEq, Repr

/-- The mutexes that are locked at a point of the code. -/
@[simp] def WorkerPc.holds : WorkerPc → List Mutex
  | .look | .lockTask _ | .unlockPool _ | .leave => [.tpMtx]
  | .remove t => [.tpMtx, .taskMtx t]
  | .count t => [.taskMtx t]
  | .lockPool | .callback _ | .relockTask _ | .sleep | .left => []

/-- The mutex that `gp_mtx_lock` is about to be called on. -/
@[simp] def WorkerPc.wants : WorkerPc → Option Mutex
  | .lockPool => some .tpMtx
  | .lockTask t | .relockTask t => some (.taskMtx t)
  | .look | .remove _ | .unlockPool _ | .callback _ | .count _ | .sleep | .leave | .left => none

@[simp] def CallPc.holds : CallPc → List Mutex
  | .runCount t | .waitTest t | .waitRelock t | .destroyTest t | .destroyUnlock t => [.taskMtx t]
  | .runAppend _ | .stopClear => [.tpMtx]
  | .runLock _ | .runLockPool _ | .waitLock _ | .waitSleep _ | .destroyLock _ | .destroySleep _
  | .destroyFree _ | .stopLock => []

@[simp] def CallPc.wants : CallPc → Option Mutex
  | .runLock t | .waitLock t | .waitRelock t | .destroyLock t => some (.taskMtx t)
  | .runLockPool _ | .stopLock => some .tpMtx
  | .runCount _ | .runAppend _ | .waitTest _ | .waitSleep _ | .destroyTest _ | .destroySleep _
  | .destroyUnlock _ | .destroyFree _ | .stopClear => none

/-- The task that `gp_task_thread` still uses. -/
def WorkerPc.task : WorkerPc → Option TaskId
  | .lockTask t | .remove t | .unlockPool t | .callback t | .relockTask t | .count t => some t
  | .lockPool | .look | .sleep | .leave | .left => none

/-- A worker is in a callback while a call is under way. -/
@[simp] def Thread.holds (th : Thread) : List Mutex :=
  match th.call with
  | some pc => pc.holds
  | none => (th.worker.map WorkerPc.holds).getD []

@[simp] def Thread.wants (th : Thread) : Option Mutex :=
  match th.call with
  | some pc => pc.wants
  | none => th.worker.bind WorkerPc.wants

/-- Is the thread in code that may call a client's function? -/
def Thread.free (th : Thread) : Bool :=
  match th.call, th.worker with
  | none, none => true
  | none, some (.callback _) => true
  | none, some _ => false
  | some _, _ => false

structure LockState (ι : Type) where
  owner : Mutex → Option ι
  threads : ι → Thread
  tpTasks : Links TaskId
  tpRun : Bool
  taskBusy : TaskId → Nat
  /-- `destroy_task` has been called -/
  doomed : TaskId → Bool
  freed : TaskId → Bool

variable {ι : Type} [DecidableEq ι]

namespace LockState

variable (s : LockState ι) (i : ι)

def move (th : Thread) : LockState ι :=
  { s with threads := Function.update s.threads i th }

/-- `gp_mtx_lock`. -/
def lock (m : Mutex) (th : Thread) : Option (LockState ι) :=
  if s.owner m = none then some { s.move i th with owner := Function.update s.owner m (some i) }
  else none

/-- `gp_mtx_unlock`. -/
def unlock (m : Mutex) (th : Thread) : LockState ι :=
  { s.move i th with owner := Function.update s.owner m none }

@[simp] theorem move_self (th : Thread) : (s.move i th).threads i = th :=
  Function.update_self ..

@[simp] theorem unlock_self (m : Mutex) (th : Thread) : (s.unlock i m th).threads i = th :=
  Function.update_self ..

def setBusy (t : TaskId) (n : Nat) : LockState ι :=
  { s with taskBusy := Function.update s.taskBusy t n }

/-- A step of `gp_task_thread`. -/
def goWorker : WorkerPc → Option (LockState ι)
  | .lockPool => s.lock i .tpMtx ⟨some .look, none⟩
  | .look =>
    match s.tpTasks.first with
    | none => none
    | some (some t) => some (s.move i ⟨some (.lockTask t), none⟩)
    | some none =>
      if s.tpRun then some (s.unlock i .tpMtx ⟨some .sleep, none⟩)
      else some (s.move i ⟨some .leave, none⟩)
  | .lockTask t => s.lock i (.taskMtx t) ⟨some (.remove t), none⟩
  | .remove t => (s.tpTasks.remove t).map fun l =>
    { s with tpTasks := l }.unlock i (.taskMtx t) ⟨some (.unlockPool t), none⟩
  | .unlockPool t => some (s.unlock i .tpMtx ⟨some (.callback t), none⟩)
  | .callback t => some (s.move i ⟨some (.relockTask t), none⟩)
  | .relockTask t => s.lock i (.taskMtx t) ⟨some (.count t), none⟩
  | .count t =>
    some ((s.setBusy t (s.taskBusy t - 1)).unlock i (.taskMtx t) ⟨some .lockPool, none⟩)
  | .sleep => some (s.move i ⟨some .lockPool, none⟩)
  | .leave => some (s.unlock i .tpMtx ⟨some .left, none⟩)
  | .left => none

/-- A step of a call in a thread that is otherwise at `worker`. -/
def goCall (worker : Option WorkerPc) : CallPc → Option (LockState ι)
  | .runLock t => s.lock i (.taskMtx t) ⟨worker, some (.runCount t)⟩
  | .runCount t =>
    some ((s.setBusy t (s.taskBusy t + 1)).unlock i (.taskMtx t) ⟨worker, some (.runLockPool t)⟩)
  | .runLockPool t => s.lock i .tpMtx ⟨worker, some (.runAppend t)⟩
  | .runAppend t => (s.tpTasks.append t).map fun l =>
    { s with tpTasks := l }.unlock i .tpMtx ⟨worker, none⟩
  | .waitLock t => s.lock i (.taskMtx t) ⟨worker, some (.waitTest t)⟩
  | .waitTest t =>
    if s.taskBusy t ≠ 0 then some (s.unlock i (.taskMtx t) ⟨worker, some (.waitSleep t)⟩)
    else some (s.move i ⟨worker, some (.waitRelock t)⟩)
  | .waitSleep t => some (s.move i ⟨worker, some (.waitLock t)⟩)
  -- the call ends with `gp_mtx_lock` where the others have `gp_mtx_unlock`
  | .waitRelock t => s.lock i (.taskMtx t) ⟨worker, none⟩
  | .destroyLock t => s.lock i (.taskMtx t) ⟨worker, some (.destroyTest t)⟩
  | .destroyTest t =>
    if s.taskBusy t ≠ 0 then some (s.unlock i (.taskMtx t) ⟨worker, some (.destroySleep t)⟩)
    else some (s.move i ⟨worker, some (.destroyUnlock t)⟩)
  | .destroySleep t => some (s.move i ⟨worker, some (.destroyLock t)⟩)
  | .destroyUnlock t => some (s.unlock i (.taskMtx t) ⟨worker, some (.destroyFree t)⟩)
  | .destroyFree t =>
    some ({ s with freed := Function.update s.freed t true }.move i ⟨worker, none⟩)
  | .stopLock => s.lock i .tpMtx ⟨worker, some .stopClear⟩
  | .stopClear => some ({ s with tpRun := false }.unlock i .tpMtx ⟨worker, none⟩)

def go : Option (LockState ι) :=
  match s.threads i with
  | ⟨worker, some pc⟩ => s.goCall i worker pc
  | ⟨some pc, none⟩ => s.goWorker i pc
  | ⟨none, none⟩ => none

/-- Begin a call. -/
def beginCall (pc : CallPc) : LockState ι := s.move i ⟨(s.threads i).worker, some pc⟩

end LockState

/-- What a thread does next: go on, or call a function of a client. -/
inductive Choice
  | go
  | runTask (t : TaskId)
  | waitTask (t : TaskId)
  | destroyTask (t : TaskId)
  | destroyTaskProcessor
  deriving DecidableEq, Repr

/-- A task is not run again after its `destroy_task` begins. -/
def LockState.exec (s : LockState ι) : ι × Choice → Option (LockState ι)
  | (i, .go) => s.go i
  | (i, .runTask t) =>
    if (s.threads i).free ∧ s.doomed t = false then some (s.beginCall i (.runLock t)) else none
  | (i, .waitTask t) => if (s.threads i).free then some (s.beginCall i (.waitLock t)) else none
  | (i, .destroyTask t) =>
    if (s.threads i).free then
      some ({ s with doomed := Function.update s.doomed t true }.beginCall i (.destroyLock t))
    else none
  | (i, .destroyTaskProcessor) =>
    if (s.threads i).free then some (s.beginCall i .stopLock) else none

/-- A pool that is in use: workers before their first lock, and clients. -/
def lockSys (ι : Type) [DecidableEq ι] : TSys (LockState ι) (ι × Choice) where
  init s := s.owner = (fun _ => none) ∧ s.tpTasks = .empty ∧ s.taskBusy = (fun _ => 0) ∧
    s.doomed = (fun _ => false) ∧ s.freed = (fun _ => false) ∧ s.tpRun = true ∧
    ∀ i, s.threads i = ⟨none, none⟩ ∨ s.threads i = ⟨some .lockPool, none⟩
  step s a t := s.exec a = some t

/-- No `wait_task` finds its task idle, and no `destroy_task` does so while a `run_task` of
the task is before its first lock. -/
def Disciplined (s : LockState ι) : ι × Choice → Prop
  | (i, .go) =>
    (∀ t, (s.threads i).call = some (.waitTest t) → s.taskBusy t ≠ 0) ∧
    ∀ t, (s.threads i).call = some (.destroyTest t) → s.taskBusy t = 0 →
      ∀ j, (s.threads j).call ≠ some (.runLock t)
  | _ => True

/-- Thread `i` is about to lock a mutex that thread `j` has locked. -/
def LockState.WaitsFor (s : LockState ι) (i j : ι) : Prop :=
  ∃ m, (s.threads i).wants = some m ∧ s.owner m = some j

end GpBase.Pool

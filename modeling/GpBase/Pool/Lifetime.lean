import Mathlib.Algebra.Order.BigOperators.Group.Finset
import GpBase.Lib.Pending
import GpBase.Pool.LockOrder

/-!
# The lifetime of tasks

`task_busy` counts the runs of a task between `run_task` and the end of its callback, so
when `destroy_task` gets past its loop the task is not queued and no worker uses it, and
this stays so.
-/

namespace GpBase.Pool

open GpBase.Lib

variable {ι : Type} [DecidableEq ι]

/-! ## Runs of tasks -/

section Counts

variable {s t : LockState ι} {i : ι} {n : TaskId → Nat}

/-- The runs of task `t` that are neither queued nor over. -/
@[simp] def WorkerPc.runs (t : TaskId) : WorkerPc → Nat
  | .unlockPool u | .callback u | .relockTask u | .count u => if u = t then 1 else 0
  | .lockPool | .look | .lockTask _ | .remove _ | .sleep | .leave | .left => 0

@[simp] def CallPc.runs (t : TaskId) : CallPc → Nat
  | .runLockPool u | .runAppend u => if u = t then 1 else 0
  | _ => 0

@[simp] def Thread.runs (th : Thread) (t : TaskId) : Nat :=
  (th.worker.map (WorkerPc.runs t)).getD 0 + (th.call.map (CallPc.runs t)).getD 0

/-- The worker has found task `t` and not yet taken it. -/
@[simp] def Thread.found (th : Thread) (t : TaskId) : Prop :=
  th.worker = some (.lockTask t) ∨ th.worker = some (.remove t)

/-- `task_busy` counts the runs, of which `n` are queued, and what a worker has found is
still there. -/
structure Counted [Fintype ι] (s : LockState ι) (n : TaskId → Nat) : Prop where
  queued : Pending s.tpTasks n
  found : ∀ i t, (s.threads i).found t → s.tpTasks.next .head = some (.node t)
  busy : ∀ t, s.taskBusy t = n t + ∑ i, (s.threads i).runs t

theorem sum_runs [Fintype ι] (threads : ι → Thread) (i : ι) (th : Thread) (u : TaskId) :
    ∑ j, (Function.update threads i th j).runs u + (threads i).runs u =
      ∑ j, (threads j).runs u + th.runs u := by
  have split : ∀ f : ι → Thread, ∑ j, (f j).runs u =
      (f i).runs u + ∑ j ∈ Finset.univ.erase i, (f j).runs u := by
    intro f
    exact (Finset.add_sum_erase _ _ (Finset.mem_univ i)).symm
  have rest : ∑ j ∈ Finset.univ.erase i, (Function.update threads i th j).runs u =
      ∑ j ∈ Finset.univ.erase i, (threads j).runs u := by
    refine Finset.sum_congr rfl ?_
    intro j mem
    rw [Function.update_of_ne (Finset.ne_of_mem_erase mem)]
  rw [split, split threads, rest, Function.update_self]
  omega

/-- What has to be shown of a step. -/
theorem Counted.update [Fintype ι] (h : Counted s n) {n' : TaskId → Nat} {th : Thread}
    (threads : t.threads = Function.update s.threads i th) (queued : Pending t.tpTasks n')
    (front : ∀ j u, j ≠ i → (s.threads j).found u → t.tpTasks.next .head = some (.node u))
    (found : ∀ u, th.found u → t.tpTasks.next .head = some (.node u))
    (busy : ∀ u, t.taskBusy u + n u + (s.threads i).runs u = s.taskBusy u + n' u + th.runs u) :
    Counted t n' := by
  refine ⟨queued, ?_, ?_⟩
  · intro j u here
    rw [threads] at here
    by_cases same : j = i
    · rw [same, Function.update_self] at here
      exact found u here
    · rw [Function.update_of_ne same] at here
      exact front j u same here
  · intro u
    rw [threads]
    have := sum_runs s.threads i th u
    have := h.busy u
    have := busy u
    omega

/-- A step that changes neither the list nor `task_busy`. -/
theorem Counted.quiet [Fintype ι] (h : Counted s n) {th : Thread}
    (threads : t.threads = Function.update s.threads i th) (list : t.tpTasks = s.tpTasks)
    (count : t.taskBusy = s.taskBusy) (runs : ∀ u, th.runs u = (s.threads i).runs u)
    (found : ∀ u, th.found u → s.tpTasks.next .head = some (.node u)) : Counted t n := by
  refine h.update threads (list ▸ h.queued) ?_ ?_ ?_
  · intro j u _
    rw [list]
    exact h.found j u
  · rwa [list]
  · intro u
    rw [count, runs]

theorem Counted.lock [Fintype ι] (h : Counted s n) {m : Mutex} {th : Thread}
    (locked : s.lock i m th = some t) (runs : ∀ u, th.runs u = (s.threads i).runs u)
    (found : ∀ u, th.found u → s.tpTasks.next .head = some (.node u)) : Counted t n := by
  obtain ⟨_, rfl⟩ := lock_eq_some locked
  exact h.quiet rfl rfl rfl runs found

omit [DecidableEq ι] in
/-- Code in which a call is under way has found nothing. -/
theorem not_found {worker : Option WorkerPc} (outer : Thread.free ⟨worker, none⟩ = true)
    (call : Option CallPc) (u : TaskId) : ¬ Thread.found ⟨worker, call⟩ u := by
  rintro (here | here)
  · cases here
    cases outer
  · cases here
    cases outer

omit [DecidableEq ι] in
/-- A worker that has found a task has locked the pool. -/
theorem found_holds {th : Thread} {u : TaskId} (idle : th.call = none) (found : th.found u) :
    .tpMtx ∈ th.holds := by
  obtain ⟨worker, call⟩ := th
  cases idle
  rcases found with here | here
  · cases here
    simp
  · cases here
    simp

omit [DecidableEq ι] in
/-- While one thread has locked the pool, no other one has found a task. -/
theorem Guarded.unfound (guarded : Guarded s) (held : .tpMtx ∈ (s.threads i).holds) {j : ι}
    (apart : j ≠ i) (u : TaskId) : ¬ (s.threads j).found u := by
  intro found
  have idle : (s.threads j).call = none := by
    by_contra calling
    exact not_found (guarded.outer j calling) none u found
  have mine := (guarded.owned .tpMtx i).mpr held
  have theirs := (guarded.owned .tpMtx j).mpr (found_holds idle found)
  rw [mine] at theirs
  exact apart (Option.some.inj theirs).symm

/-- The first task is taken off the list. -/
theorem Counted.remove [Fintype ι] (h : Counted s n) (guarded : Guarded s) {u : TaskId}
    (here : s.threads i = ⟨some (.remove u), none⟩) {l : Links TaskId}
    (removed : s.tpTasks.remove u = some l) :
    Counted ({ s with tpTasks := l }.unlock i (.taskMtx u) ⟨some (.unlockPool u), none⟩)
      (Function.update n u (n u - 1)) := by
  have front := h.found i u (.inr (by rw [here]))
  have pos := h.queued.pos front
  refine h.update rfl (h.queued.remove front removed) ?_ ?_ ?_
  · intro j v apart found
    exact absurd found (guarded.unfound (by simp [here]) apart v)
  · -- the worker that removes it has not found another one
    intro v found
    rcases found with here | here <;> cases here
  · intro v
    show s.taskBusy v + n v + _ = s.taskBusy v + Function.update n u (n u - 1) v + _
    rw [here, Function.update_apply]
    by_cases same : v = u
    · subst same
      simp only [if_pos, Thread.runs, WorkerPc.runs, Option.map_some, Option.map_none,
        Option.getD_some, Option.getD_none]
      omega
    · simp [same, Ne.symm same]

/-- A task is put on the list, whether it is on it already or not. -/
theorem Counted.append [Fintype ι] (h : Counted s n) (guarded : Guarded s) {u : TaskId}
    {worker : Option WorkerPc} (here : s.threads i = ⟨worker, some (.runAppend u)⟩)
    (outer : Thread.free ⟨worker, none⟩ = true) {l : Links TaskId}
    (appended : s.tpTasks.append u = some l) :
    Counted ({ s with tpTasks := l }.unlock i .tpMtx ⟨worker, none⟩)
      (Function.update n u (n u + 1)) := by
  refine h.update rfl (h.queued.append appended) ?_ ?_ ?_
  · intro j v apart found
    exact absurd found (guarded.unfound (by simp [here]) apart v)
  · intro v found
    exact absurd found (not_found outer none v)
  · intro v
    show s.taskBusy v + n v + _ = s.taskBusy v + Function.update n u (n u + 1) v + _
    rw [here, Function.update_apply]
    by_cases same : v = u
    · subst same
      simp only [if_pos, Thread.runs, CallPc.runs, Option.map_some, Option.map_none,
        Option.getD_some, Option.getD_none]
      omega
    · simp [same, Ne.symm same]

theorem Counted.goWorker [Fintype ι] (h : Counted s n) (guarded : Guarded s) {pc : WorkerPc}
    (here : s.threads i = ⟨some pc, none⟩) (stepped : s.goWorker i pc = some t) :
    ∃ n', Counted t n' := by
  cases pc with
  | lockPool | relockTask v => exact ⟨n, h.lock stepped (by simp [here]) (by simp)⟩
  | lockTask v =>
      refine ⟨n, h.lock stepped (by simp [here]) ?_⟩
      rintro u (found | found)
      · cases found
      · cases found
        exact h.found i v (.inl (by rw [here]))
  | look =>
      simp only [LockState.goWorker] at stepped
      split at stepped
      · cases stepped
      · rename_i v first
        cases stepped
        refine ⟨n, h.quiet rfl rfl rfl (by simp [here]) ?_⟩
        rintro u (found | found)
        · cases found
          exact next_of_first first
        · cases found
      · split at stepped
        · cases stepped
          exact ⟨n, h.quiet rfl rfl rfl (by simp [here]) (by simp)⟩
        · cases stepped
          exact ⟨n, h.quiet rfl rfl rfl (by simp [here]) (by simp)⟩
  | remove v =>
      obtain ⟨l, removed, rfl⟩ := Option.map_eq_some_iff.mp stepped
      exact ⟨_, h.remove guarded here removed⟩
  | unlockPool v | callback v | sleep | leave =>
      cases stepped
      exact ⟨n, h.quiet rfl rfl rfl (by simp [here]) (by simp)⟩
  | count v =>
      cases stepped
      have one : (s.threads i).runs v = 1 := by simp [here]
      -- this run is one of those that are counted, so the subtraction does not wrap
      have counted : 1 ≤ s.taskBusy v := by
        have := Finset.single_le_sum (f := fun j => (s.threads j).runs v)
          (fun _ _ => Nat.zero_le _) (Finset.mem_univ i)
        have := h.busy v
        simp only [one] at *
        omega
      refine ⟨n, h.update rfl h.queued (fun j u _ => h.found j u) (by simp) ?_⟩
      intro u
      show Function.update s.taskBusy v (s.taskBusy v - 1) u + _ + _ = _
      rw [Function.update_apply]
      by_cases same : u = v
      · subst same
        rw [if_pos rfl, one]
        simp only [Thread.runs, WorkerPc.runs, Option.map_some, Option.map_none, Option.getD_some,
          Option.getD_none]
        omega
      · rw [if_neg same]
        simp [here, Ne.symm same]
  | left => cases stepped

theorem Counted.goCall [Fintype ι] (h : Counted s n) (guarded : Guarded s)
    {worker : Option WorkerPc} {pc : CallPc} (here : s.threads i = ⟨worker, some pc⟩)
    (outer : Thread.free ⟨worker, none⟩ = true) (stepped : s.goCall i worker pc = some t) :
    ∃ n', Counted t n' := by
  -- a call is made by code that has found no task
  have nothing : ∀ call u, Thread.found ⟨worker, call⟩ u →
      s.tpTasks.next .head = some (.node u) :=
    fun call u found => absurd found (not_found outer call u)
  cases pc with
  | runLock u | runLockPool u | waitLock u | waitRelock u | destroyLock u | stopLock =>
      exact ⟨n, h.lock stepped (by simp [here]) (nothing _)⟩
  | runCount u =>
      cases stepped
      refine ⟨n, h.update rfl h.queued (fun j v _ => h.found j v) (nothing _) ?_⟩
      intro v
      show Function.update s.taskBusy u (s.taskBusy u + 1) v + _ + _ = _
      rw [Function.update_apply, here]
      by_cases same : v = u
      · subst same
        simp only [if_pos, Thread.runs, CallPc.runs, Option.map_some, Option.getD_some]
        omega
      · simp [same, Ne.symm same]
  | runAppend u =>
      obtain ⟨l, appended, rfl⟩ := Option.map_eq_some_iff.mp stepped
      exact ⟨_, h.append guarded here outer appended⟩
  | waitTest u | destroyTest u =>
      simp only [LockState.goCall] at stepped
      split at stepped
      · cases stepped
        exact ⟨n, h.quiet rfl rfl rfl (by simp [here]) (nothing _)⟩
      · cases stepped
        exact ⟨n, h.quiet rfl rfl rfl (by simp [here]) (nothing _)⟩
  | waitSleep u | destroySleep u | destroyUnlock u | destroyFree u | stopClear =>
      cases stepped
      exact ⟨n, h.quiet rfl rfl rfl (by simp [here]) (nothing _)⟩

theorem Counted.step [Fintype ι] (h : Counted s n) (guarded : Guarded s) {c : Choice}
    (stepped : s.exec (i, c) = some t) : ∃ n', Counted t n' := by
  rcases exec_cases stepped with ⟨rfl, worker, pc, here, gone⟩ | ⟨rfl, pc, here, gone⟩ |
    ⟨pc, d, free, begins, rfl⟩
  · have outer := guarded.outer i
    rw [here] at outer
    exact h.goCall guarded here (outer nofun) gone
  · exact h.goWorker guarded here gone
  · refine ⟨n, h.quiet rfl rfl rfl ?_ ?_⟩
    · have idle := free_call free
      intro u
      cases begins <;> simp [idle]
    · intro u found
      exact absurd found (not_found (free_worker free) _ u)

end Counts

/-! ## The end of `destroy_task` -/

section Ends

variable {s t : LockState ι} {i : ι}

/-- The thread is in `destroy_task`, not past its loop. -/
@[simp] def Thread.destroys (th : Thread) (t : TaskId) : Prop :=
  th.call = some (.destroyLock t) ∨ th.call = some (.destroyTest t) ∨
    th.call = some (.destroySleep t)

/-- The thread is past the loop of `destroy_task`. -/
@[simp] def Thread.ends (th : Thread) (t : TaskId) : Prop :=
  th.call = some (.destroyUnlock t) ∨ th.call = some (.destroyFree t)

/-- The thread is in `run_task` and has not counted the run yet. -/
@[simp] def Thread.starts (th : Thread) (t : TaskId) : Prop :=
  th.call = some (.runLock t) ∨ th.call = some (.runCount t)

/-- No run of the task is under way and none can begin. -/
def Quiet (s : LockState ι) (t : TaskId) : Prop :=
  s.doomed t = true ∧ s.taskBusy t = 0 ∧ ∀ i, ¬ (s.threads i).starts t

/-- A `destroy_task` that is past its loop has found its task idle for good. -/
structure Ended (s : LockState ι) : Prop where
  doomed : ∀ i t, (s.threads i).destroys t → s.doomed t = true
  quiet : ∀ i t, (s.threads i).ends t → Quiet s t
  freed : ∀ t, s.freed t = true → Quiet s t

/-- What has to be shown of a step. -/
theorem Ended.update (h : Ended s) {th : Thread}
    (threads : t.threads = Function.update s.threads i th)
    (doomed : ∀ u, s.doomed u = true → t.doomed u = true)
    (freed : ∀ u, t.freed u = true → Quiet s u)
    (busy : ∀ u, Quiet s u → t.taskBusy u = 0)
    (starts : ∀ u, Quiet s u → ¬ th.starts u)
    (destroys : ∀ u, th.destroys u → t.doomed u = true)
    (ends : ∀ u, th.ends u → Quiet s u) : Ended t := by
  -- a quiet task stays quiet: nobody is about to count a run of it
  have keeps : ∀ u, Quiet s u → Quiet t u := by
    intro u quiet
    refine ⟨doomed u quiet.1, busy u quiet, ?_⟩
    intro j
    rw [threads]
    by_cases same : j = i
    · rw [same, Function.update_self]
      exact starts u quiet
    · rw [Function.update_of_ne same]
      exact quiet.2.2 j
  refine ⟨?_, ?_, fun u free => keeps u (freed u free)⟩
  · intro j u here
    rw [threads] at here
    by_cases same : j = i
    · rw [same, Function.update_self] at here
      exact destroys u here
    · rw [Function.update_of_ne same] at here
      exact doomed u (h.doomed j u here)
  · intro j u here
    rw [threads] at here
    by_cases same : j = i
    · rw [same, Function.update_self] at here
      exact keeps u (ends u here)
    · rw [Function.update_of_ne same] at here
      exact keeps u (h.quiet j u here)

/-- A step that changes neither what is freed nor what is doomed, and makes no idle task
busy. -/
theorem Ended.keep (h : Ended s) {th : Thread}
    (threads : t.threads = Function.update s.threads i th) (doomed : t.doomed = s.doomed)
    (freed : t.freed = s.freed) (busy : ∀ u, Quiet s u → t.taskBusy u = 0)
    (starts : ∀ u, th.starts u → (s.threads i).starts u)
    (destroys : ∀ u, th.destroys u → (s.threads i).destroys u)
    (ends : ∀ u, th.ends u → (s.threads i).ends u) : Ended t := by
  refine h.update threads (fun u => ?_) (fun u => ?_) busy (fun u quiet here => ?_)
    (fun u here => ?_) (fun u here => ?_)
  · rw [doomed]
    exact id
  · rw [freed]
    exact h.freed u
  · exact quiet.2.2 i (starts u here)
  · rw [doomed]
    exact h.doomed i u (destroys u here)
  · exact h.quiet i u (ends u here)

theorem Ended.lock (h : Ended s) {m : Mutex} {th : Thread} (locked : s.lock i m th = some t)
    (starts : ∀ u, th.starts u → (s.threads i).starts u)
    (destroys : ∀ u, th.destroys u → (s.threads i).destroys u)
    (ends : ∀ u, th.ends u → (s.threads i).ends u) : Ended t := by
  obtain ⟨_, rfl⟩ := lock_eq_some locked
  exact h.keep rfl rfl rfl (fun _ quiet => quiet.2.1) starts destroys ends

theorem Ended.goWorker (h : Ended s) {pc : WorkerPc} (stepped : s.goWorker i pc = some t) :
    Ended t := by
  cases pc with
  | lockPool | lockTask u | relockTask u =>
      exact h.lock stepped (by simp) (by simp) (by simp)
  | look =>
      simp only [LockState.goWorker] at stepped
      split at stepped
      · cases stepped
      · cases stepped
        exact h.keep rfl rfl rfl (fun _ quiet => quiet.2.1) (by simp) (by simp) (by simp)
      · split at stepped
        · cases stepped
          exact h.keep rfl rfl rfl (fun _ quiet => quiet.2.1) (by simp) (by simp) (by simp)
        · cases stepped
          exact h.keep rfl rfl rfl (fun _ quiet => quiet.2.1) (by simp) (by simp) (by simp)
  | remove u =>
      obtain ⟨l, _, rfl⟩ := Option.map_eq_some_iff.mp stepped
      exact h.keep rfl rfl rfl (fun _ quiet => quiet.2.1) (by simp) (by simp) (by simp)
  | unlockPool u | callback u | sleep | leave =>
      cases stepped
      exact h.keep rfl rfl rfl (fun _ quiet => quiet.2.1) (by simp) (by simp) (by simp)
  | count u =>
      cases stepped
      refine h.keep rfl rfl rfl ?_ (by simp) (by simp) (by simp)
      intro v quiet
      show Function.update s.taskBusy u (s.taskBusy u - 1) v = 0
      have idle := quiet.2.1
      rw [Function.update_apply]
      split
      · rename_i same
        rw [← same, idle]
      · exact idle
  | left => cases stepped

omit [DecidableEq ι] in
/-- `destroy_task` gets past its loop: no thread is between the first lock of `run_task`
and the count, since the mutex is locked here. -/
theorem quiet_of_destroyTest (h : Ended s) (guarded : Guarded s) {worker : Option WorkerPc}
    {u : TaskId} (here : s.threads i = ⟨worker, some (.destroyTest u)⟩) (idle : s.taskBusy u = 0)
    (none : ∀ j, (s.threads j).call ≠ some (.runLock u)) : Quiet s u := by
  refine ⟨h.doomed i u (by simp [here]), idle, ?_⟩
  rintro j (first | counting)
  · exact none j first
  · have mine := (guarded.owned (.taskMtx u) i).mpr (by simp [here])
    have theirs := (guarded.owned (.taskMtx u) j).mpr (by simp [counting])
    rw [mine] at theirs
    cases Option.some.inj theirs
    rw [here] at counting
    cases counting

theorem Ended.goCall (h : Ended s) (guarded : Guarded s) {worker : Option WorkerPc} {pc : CallPc}
    (here : s.threads i = ⟨worker, some pc⟩)
    (none : ∀ u, pc = .destroyTest u → s.taskBusy u = 0 →
      ∀ j, (s.threads j).call ≠ some (.runLock u))
    (stepped : s.goCall i worker pc = some t) : Ended t := by
  cases pc with
  | runLock u =>
      exact h.lock stepped (by simp [here]) (by simp) (by simp)
  | destroyLock u =>
      exact h.lock stepped (by simp) (by simp [here]) (by simp)
  | runLockPool u | waitLock u | waitRelock u | stopLock =>
      exact h.lock stepped (by simp) (by simp) (by simp)
  | runCount u =>
      cases stepped
      refine h.keep rfl rfl rfl ?_ (by simp) (by simp) (by simp)
      intro v quiet
      show Function.update s.taskBusy u (s.taskBusy u + 1) v = 0
      rw [Function.update_of_ne]
      · exact quiet.2.1
      · rintro rfl
        exact quiet.2.2 i (by simp [here])
  | runAppend u =>
      obtain ⟨l, _, rfl⟩ := Option.map_eq_some_iff.mp stepped
      exact h.keep rfl rfl rfl (fun _ quiet => quiet.2.1) (by simp) (by simp) (by simp)
  | waitTest u =>
      simp only [LockState.goCall] at stepped
      split at stepped
      · cases stepped
        exact h.keep rfl rfl rfl (fun _ quiet => quiet.2.1) (by simp) (by simp) (by simp)
      · cases stepped
        exact h.keep rfl rfl rfl (fun _ quiet => quiet.2.1) (by simp) (by simp) (by simp)
  | destroyTest u =>
      simp only [LockState.goCall] at stepped
      split at stepped
      · cases stepped
        exact h.keep rfl rfl rfl (fun _ quiet => quiet.2.1) (by simp) (by simp [here]) (by simp)
      · rename_i idle
        cases stepped
        have quiet := quiet_of_destroyTest h guarded here (not_not.mp idle)
          (none u rfl (not_not.mp idle))
        refine h.update rfl (fun _ => id) h.freed (fun _ quiet => quiet.2.1) (by simp) (by simp) ?_
        rintro v (past | past)
        · cases past
          exact quiet
        · cases past
  | waitSleep u | stopClear =>
      cases stepped
      exact h.keep rfl rfl rfl (fun _ quiet => quiet.2.1) (by simp) (by simp) (by simp)
  | destroySleep u =>
      cases stepped
      exact h.keep rfl rfl rfl (fun _ quiet => quiet.2.1) (by simp) (by simp [here]) (by simp)
  | destroyUnlock u =>
      cases stepped
      exact h.keep rfl rfl rfl (fun _ quiet => quiet.2.1) (by simp) (by simp) (by simp [here])
  | destroyFree u =>
      cases stepped
      refine h.update rfl (fun _ => id) ?_ (fun _ quiet => quiet.2.1) (by simp) (by simp) (by simp)
      intro v freed
      replace freed : Function.update s.freed u true v = true := freed
      by_cases same : v = u
      · rw [same]
        exact h.quiet i u (by simp [here])
      · rw [Function.update_of_ne same] at freed
        exact h.freed v freed

theorem Ended.begin (h : Ended s) {pc : CallPc} {d : TaskId → Bool} (begins : Begins s pc d) :
    Ended ({ s with doomed := d }.beginCall i pc) := by
  cases begins with
  | run fresh =>
      refine h.update rfl (fun _ => id) h.freed (fun _ quiet => quiet.2.1) ?_ (by simp) (by simp)
      rintro v quiet (first | counting)
      · cases first
        rw [quiet.1] at fresh
        cases fresh
      · cases counting
  | wait | stop =>
      exact h.keep rfl rfl rfl (fun _ quiet => quiet.2.1) (by simp) (by simp) (by simp)
  | destroy =>
      rename_i u
      have mono : ∀ v, s.doomed v = true → Function.update s.doomed u true v = true := by
        intro v doomed
        rw [Function.update_apply, doomed, ite_self]
      refine h.update rfl mono h.freed (fun _ quiet => quiet.2.1) (by simp) ?_ (by simp)
      rintro v (first | test | sleep)
      · cases first
        exact Function.update_self ..
      · cases test
      · cases sleep

theorem Ended.step (h : Ended s) (guarded : Guarded s) {c : Choice}
    (disciplined : Disciplined s (i, c)) (stepped : s.exec (i, c) = some t) : Ended t := by
  rcases exec_cases stepped with ⟨rfl, worker, pc, here, gone⟩ | ⟨rfl, pc, here, gone⟩ |
    ⟨pc, d, _, begins, rfl⟩
  · refine h.goCall guarded here ?_ gone
    rintro u rfl
    exact disciplined.2 u (by rw [here])
  · exact h.goWorker gone
  · exact h.begin begins

end Ends

/-! ## Whole runs -/

section Runs

variable [Fintype ι] {steps : List (ι × Choice)} {s : LockState ι}

theorem run_invariant (run : ((lockSys ι).restrict Disciplined).Run steps s) :
    Guarded s ∧ (∃ n, Counted s n) ∧ Ended s := by
  refine run.invariant (I := fun _ s => Guarded s ∧ (∃ n, Counted s n) ∧ Ended s) ?_ ?_
  · rintro s ⟨owner, list, busy, doomed, freed, _, threads⟩
    have idle : ∀ i, (s.threads i).call = none ∧ (s.threads i).holds = [] ∧
        (∀ u, (s.threads i).runs u = 0) ∧ ∀ u, ¬ (s.threads i).found u := by
      intro i
      rcases threads i with here | here <;> simp [here]
    refine ⟨⟨?_, ?_, ?_⟩, ⟨fun _ => 0, list ▸ pending_empty, ?_, ?_⟩, ?_, ?_, ?_⟩
    · intro m i
      rw [owner, (idle i).2.1]
      simp
    · intro i calling
      exact absurd (idle i).1 calling
    · intro i u call
      rw [(idle i).1] at call
      cases call
    · intro i u found
      exact absurd found ((idle i).2.2.2 u)
    · intro u
      rw [busy, Finset.sum_eq_zero fun i _ => (idle i).2.2.1 u]
      rfl
    · intro i u here
      simp [(idle i).1] at here
    · intro i u here
      simp [(idle i).1] at here
    · intro u here
      rw [freed] at here
      cases here
  · rintro steps s ⟨i, c⟩ t _ ⟨guarded, ⟨n, counted⟩, ended⟩ ⟨disciplined, stepped⟩
    exact ⟨(guarded.step disciplined stepped).1, counted.step guarded stepped,
      ended.step guarded disciplined stepped⟩

omit [DecidableEq ι] in
/-- A task whose `task_busy` is zero is on no list, and no worker uses it. -/
theorem Counted.idle {n : TaskId → Nat} (h : Counted s n) {u : TaskId}
    (idle : s.taskBusy u = 0) :
    s.tpTasks.Off u ∧ ∀ i pc, (s.threads i).worker = some pc → pc.task ≠ some u := by
  have total := h.busy u
  rw [idle] at total
  have off := h.queued.off u (by omega)
  have none : ∑ i, (s.threads i).runs u = 0 := by omega
  refine ⟨off, ?_⟩
  intro i pc here uses
  have mine := Finset.sum_eq_zero_iff.mp none i (Finset.mem_univ i)
  have unfound : ¬ (s.threads i).found u :=
    fun found => (off.unreached .head).1 (h.found i u found)
  cases pc with
  | lockTask v | remove v =>
      cases uses
      exact unfound (by simp [here])
  | unlockPool v | callback v | relockTask v | count v =>
      cases uses
      simp [here] at mine
  | lockPool | look | sleep | leave | left => cases uses

/-- **Locks and lifetimes.** In every run in which no `wait_task` finds its task idle, and
no `destroy_task` does so while a `run_task` of the task is before its first lock: no
thread asks for a mutex that it has locked, the threads do not wait for each other in a
cycle, and from the moment when `destroy_task` is about to free its task the task is not
on the list, no pointer of the list leads to it and no worker uses it. -/
theorem locks_disciplined (run : ((lockSys ι).restrict Disciplined).Run steps s) :
    (∀ i m, (s.threads i).wants = some m → s.owner m ≠ some i) ∧
    (∀ i, ¬ Relation.TransGen s.WaitsFor i i) ∧
    ∀ t, s.freed t = true ∨ (∃ i, (s.threads i).call = some (.destroyFree t)) →
      s.tpTasks.Off t ∧ ∀ i pc, (s.threads i).worker = some pc → pc.task ≠ some t := by
  obtain ⟨guarded, ⟨n, counted⟩, ended⟩ := run_invariant run
  refine ⟨?_, guarded.no_cycle, ?_⟩
  · intro i m wants owner
    exact guarded.no_cycle i (.single ⟨m, wants, owner⟩)
  · rintro t (freed | ⟨i, here⟩)
    · exact counted.idle (ended.freed t freed).2.1
    · exact counted.idle (ended.quiet i t (.inr here)).2.1

/-- A step that meets the condition, as far as this can be seen from where the thread is. -/
def execDisciplined (s : LockState ι) (a : ι × Choice) : Option (LockState ι) :=
  match (s.threads a.1).call with
  | some (.waitTest t) => if s.taskBusy t ≠ 0 then s.exec a else none
  | some (.destroyTest t) =>
    if ∀ j, (s.threads j).call ≠ some (.runLock t) then s.exec a else none
  | _ => s.exec a

theorem execDisciplined_step (s : LockState ι) (a : ι × Choice) (t : LockState ι)
    (ran : execDisciplined s a = some t) : ((lockSys ι).restrict Disciplined).step s a t := by
  obtain ⟨i, c⟩ := a
  unfold execDisciplined at ran
  split at ran
  · rename_i u here
    obtain ⟨busy, ran⟩ := Option.ite_none_right_eq_some.mp ran
    refine ⟨?_, ran⟩
    cases c with
    | go =>
        refine ⟨?_, ?_⟩
        · intro v call
          cases here.symm.trans call
          exact busy
        · intro v call
          cases here.symm.trans call
    | _ => trivial
  · rename_i u here
    obtain ⟨quiet, ran⟩ := Option.ite_none_right_eq_some.mp ran
    refine ⟨?_, ran⟩
    cases c with
    | go =>
        refine ⟨?_, ?_⟩
        · intro v call
          cases here.symm.trans call
        · intro v call _
          cases here.symm.trans call
          exact quiet
    | _ => trivial
  · rename_i notWait notDestroy
    refine ⟨?_, ran⟩
    cases c with
    | go => exact ⟨fun v call => absurd call (notWait v), fun v call => absurd call (notDestroy v)⟩
    | _ => trivial

/-- A pool with one worker and one client. -/
def workerAndClient : LockState Bool where
  owner _ := none
  threads i := if i then ⟨some .lockPool, none⟩ else ⟨none, none⟩
  tpTasks := .empty
  tpRun := true
  taskBusy _ := 0
  doomed _ := false
  freed _ := false

theorem workerAndClient_init : (lockSys Bool).init workerAndClient := by
  refine ⟨rfl, rfl, rfl, rfl, rfl, rfl, ?_⟩
  intro i
  cases i
  · exact .inl rfl
  · exact .inr rfl

/-- The client runs a task and destroys it when the worker is done with it. -/
theorem locks_disciplined_destroy :
    ∃ steps s, ((lockSys Bool).restrict Disciplined).Run steps s ∧
      (s.threads false).call = some (.destroyFree 0) ∧ s.tpTasks.Off 0 ∧
      ¬ Relation.TransGen s.WaitsFor true true := by
  let steps : List (Bool × Choice) :=
    (false, .runTask 0) :: List.replicate 4 (false, .go) ++ List.replicate 8 (true, .go) ++
      (false, .destroyTask 0) :: List.replicate 3 (false, .go)
  have ran : ((steps.foldlM execDisciplined workerAndClient).map fun s =>
      (s.threads false).call) = some (some (.destroyFree 0)) := by
    decide +kernel
  obtain ⟨s, ran, here⟩ := Option.map_eq_some_iff.mp ran
  have run := TSys.Run.exec (M := (lockSys Bool).restrict Disciplined) execDisciplined_step
    (.init workerAndClient_init) ran
  obtain ⟨_, noCycle, lifetime⟩ := locks_disciplined run
  exact ⟨_, s, run, here, (lifetime 0 (.inr ⟨false, here⟩)).1, noCycle true⟩

/-- A client waits for a task that is idle: it locks `task_mtx` and asks for it again. -/
theorem wait_task_locks_twice :
    ∃ steps s, (lockSys Bool).Run steps s ∧ (s.threads false).wants = some (.taskMtx 0) ∧
      s.owner (.taskMtx 0) = some false := by
  let steps : List (Bool × Choice) := [(false, .waitTask 0), (false, .go), (false, .go)]
  have ran : ((steps.foldlM LockState.exec workerAndClient).map fun s =>
      ((s.threads false).wants, s.owner (.taskMtx 0))) =
        some (some (.taskMtx 0), some false) := by
    decide +kernel
  obtain ⟨s, ran, facts⟩ := Option.map_eq_some_iff.mp ran
  obtain ⟨wants, owner⟩ := Prod.mk.inj facts
  have run := TSys.Run.exec (M := lockSys Bool) (fun _ _ _ ran => ran)
    (.init workerAndClient_init) ran
  exact ⟨_, s, run, wants, owner⟩

end Runs

end GpBase.Pool

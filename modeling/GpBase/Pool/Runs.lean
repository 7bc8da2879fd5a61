import Mathlib.Data.List.Perm.Basic
import GpBase.Pool.Model

/-!
# Runs of tasks

As long as `run_task` finds the node of its task off the list, the pointers of
`tp_tasks` spell out a queue: what was submitted is what was begun, in this order,
followed by the queue, and `task_busy` counts the runs that have not ended. A task
put on the list a second time takes the tasks behind it off the list.
-/

namespace GpBase.Pool

open GpBase.Lib

/-- The tasks whose callbacks are being executed. -/
def running (workers : List Worker) : List TaskId := workers.filterMap Worker.task

/-- The tasks that callbacks are submitting. -/
def calling (workers : List Worker) : List TaskId := workers.filterMap Worker.calling

section Place

variable (pre post : List Worker) (w : Worker)

theorem running_place :
    (running (pre ++ w :: post)).Perm (w.task.toList ++ running (pre ++ post)) := by
  unfold running
  cases task : w.task with
  | none => simp [List.filterMap_append, task]
  | some t => simp [List.filterMap_append, task, List.perm_middle]

theorem calling_place :
    (calling (pre ++ w :: post)).Perm (w.calling.toList ++ calling (pre ++ post)) := by
  unfold calling
  cases task : w.calling with
  | none => simp [List.filterMap_append, task]
  | some t => simp [List.filterMap_append, task, List.perm_middle]

end Place

/-- The invariant, with the queue that the pointers spell out. -/
structure Sound (s : PoolState) (queue : List TaskId) : Prop where
  rep : Rep s.tpTasks queue
  order : s.submitted.map Submission.task = s.begun ++ queue
  ran : (s.executed ++ running s.workers).Perm s.begun
  busy : ∀ t, s.taskBusy t = s.inFlight.count t + (calling s.workers).count t + queue.count t +
    (running s.workers).count t

section Steps

variable {s : PoolState} {queue : List TaskId} {pre post : List Worker} {w w' : Worker}
  {t task : TaskId}

/-- A worker moves outside of callbacks. -/
theorem Sound.move (h : Sound s queue) (place : s.workers = pre ++ w :: post)
    (idle : w.task = none ∧ w.calling = none) (idle' : w'.task = none ∧ w'.calling = none) :
    Sound (s.withWorkers (pre ++ w' :: post)) queue := by
  have running_eq : (running (pre ++ w' :: post)).Perm (running s.workers) := by
    refine (running_place pre post w').trans (.trans ?_ (place ▸ running_place pre post w).symm)
    rw [idle.1, idle'.1]
  have calling_eq : (calling (pre ++ w' :: post)).Perm (calling s.workers) := by
    refine (calling_place pre post w').trans (.trans ?_ (place ▸ calling_place pre post w).symm)
    rw [idle.2, idle'.2]
  refine ⟨h.rep, h.order, (running_eq.append_left _).trans h.ran, ?_⟩
  intro t
  show s.taskBusy t = _
  rw [h.busy t]
  show _ = s.inFlight.count t + (calling (pre ++ w' :: post)).count t + queue.count t +
    (running (pre ++ w' :: post)).count t
  rw [running_eq.count_eq, calling_eq.count_eq]

theorem Sound.runTask (h : Sound s queue) :
    Sound { s.countRun t with inFlight := t :: s.inFlight } queue := by
  refine ⟨h.rep, h.order, h.ran, ?_⟩
  intro u
  have busy := h.busy u
  show Function.update s.taskBusy t (s.taskBusy t + 1) u = (t :: s.inFlight).count u +
    (calling s.workers).count u + queue.count u + (running s.workers).count u
  rw [Function.update_apply, List.count_cons]
  split
  · rename_i same
    subst same
    rw [if_pos (beq_self_eq_true u)]
    omega
  · rename_i apart
    rw [if_neg (by simpa using Ne.symm apart)]
    exact busy

/-- A task whose node is off the list goes to the end of the queue. -/
theorem Sound.appendTask (h : Sound s queue) (owed : Bool) {inFlight : List TaskId}
    {workers : List Worker} (ran : (running workers).Perm (running s.workers))
    (taken : ∀ u, inFlight.count u + (calling workers).count u + (if t = u then 1 else 0) =
      s.inFlight.count u + (calling s.workers).count u)
    (unqueued : s.tpTasks.next (.node t) = none) :
    ∃ l, s.tpTasks.append t = some l ∧
      Sound { s with tpTasks := l, submitted := s.submitted ++ [⟨t, owed⟩]
                     inFlight := inFlight, workers := workers } (queue ++ [t]) := by
  -- a null `next` says that the task is not queued, so the list stays a list
  obtain ⟨l, appended, rep⟩ := h.rep.append (h.rep.not_mem unqueued)
  refine ⟨l, appended, rep, ?_, (ran.append_left _).trans h.ran, ?_⟩
  · show List.map Submission.task (s.submitted ++ [⟨t, owed⟩]) = s.begun ++ (queue ++ [t])
    rw [List.map_append, h.order, List.append_assoc]
    rfl
  · intro u
    show s.taskBusy u = inFlight.count u + (calling workers).count u + (queue ++ [t]).count u +
      (running workers).count u
    have busy := h.busy u
    have taken := taken u
    rw [ran.count_eq, List.count_append, List.count_singleton]
    by_cases same : t = u
    · simp only [same, beq_self_eq_true, if_true] at taken ⊢
      omega
    · simp only [beq_eq_false_iff_ne.mpr same, if_neg same, Bool.false_eq_true, if_false] at taken ⊢
      omega

/-- A callback begins a call of `run_task`. -/
theorem Sound.callRunTask (h : Sound s queue)
    (place : s.workers = pre ++ .running task none :: post) :
    Sound ((s.countRun t).withWorkers (pre ++ .running task (some t) :: post)) queue := by
  have run : (running (pre ++ .running task (some t) :: post)).Perm (running s.workers) :=
    (running_place ..).trans (place ▸ running_place pre post (.running task none)).symm
  have call := calling_place pre post (.running task (some t))
  have before : (calling s.workers).Perm (calling (pre ++ post)) :=
    place ▸ calling_place pre post (.running task none)
  refine ⟨h.rep, h.order, (run.append_left _).trans h.ran, ?_⟩
  intro u
  have busy := h.busy u
  show Function.update s.taskBusy t (s.taskBusy t + 1) u = s.inFlight.count u +
    (calling (pre ++ .running task (some t) :: post)).count u + queue.count u +
    (running (pre ++ .running task (some t) :: post)).count u
  rw [run.count_eq, call.count_eq, Function.update_apply]
  rw [before.count_eq] at busy
  by_cases same : u = t
  · subst same
    rw [if_pos rfl, busy]
    simp [Worker.calling]
    omega
  · rw [if_neg same, busy]
    simp [Worker.calling, Ne.symm same]

/-- The first task of the queue is taken. -/
theorem Sound.takeTask (h : Sound s queue) (place : s.workers = pre ++ .top :: post)
    (found : s.tpTasks.first = some (some t)) :
    ∃ l rest, s.tpTasks.remove t = some l ∧ queue = t :: rest ∧
      Sound { s with tpTasks := l, begun := s.begun ++ [t]
                     workers := pre ++ .running t none :: post } rest := by
  rw [h.rep.first, Option.some.injEq] at found
  obtain ⟨rest, rfl⟩ := List.head?_eq_some_iff.mp found
  -- the pointers spell out the queue, and its head is what the worker sees
  obtain ⟨l, removed, rep⟩ := h.rep.remove
  have run := running_place pre post (.running t none)
  have before : (running s.workers).Perm (running (pre ++ post)) :=
    place ▸ running_place pre post .top
  have call : (calling (pre ++ .running t none :: post)).Perm (calling s.workers) :=
    (calling_place ..).trans (place ▸ calling_place pre post .top).symm
  refine ⟨l, rest, removed, rfl, rep, ?_, ?_, ?_⟩
  · show s.submitted.map Submission.task = s.begun ++ [t] ++ rest
    rw [h.order, List.append_assoc]
    rfl
  · show (s.executed ++ running (pre ++ .running t none :: post)).Perm (s.begun ++ [t])
    have ran := (before.append_left s.executed).symm.trans h.ran
    refine (run.append_left _).trans ?_
    exact List.perm_middle.trans ((ran.cons t).trans (List.perm_append_singleton t s.begun).symm)
  · intro u
    have busy := h.busy u
    show s.taskBusy u = s.inFlight.count u +
      (calling (pre ++ .running t none :: post)).count u + rest.count u +
      (running (pre ++ .running t none :: post)).count u
    rw [before.count_eq, List.count_cons] at busy
    rw [run.count_eq, call.count_eq, busy, List.count_append]
    simp only [Worker.task, Option.toList_some, List.count_singleton]
    omega

/-- A callback has returned. -/
theorem Sound.finishTask (h : Sound s queue)
    (place : s.workers = pre ++ .running t none :: post) :
    Sound ((s.withWorkers (pre ++ .top :: post)).finishTask t) queue := by
  have run : (running (pre ++ .top :: post)).Perm (running (pre ++ post)) := running_place ..
  have before : (running s.workers).Perm (t :: running (pre ++ post)) :=
    place ▸ running_place pre post (.running t none)
  have call : (calling (pre ++ .top :: post)).Perm (calling s.workers) :=
    (calling_place ..).trans (place ▸ calling_place pre post (.running t none)).symm
  refine ⟨h.rep, h.order, ?_, ?_⟩
  · show (s.executed ++ [t] ++ running (pre ++ .top :: post)).Perm s.begun
    rw [List.append_assoc]
    refine List.Perm.trans ?_ ((before.append_left s.executed).symm.trans h.ran)
    exact (run.cons t).append_left _
  · intro u
    have busy := h.busy u
    show Function.update s.taskBusy t (s.taskBusy t - 1) u = s.inFlight.count u +
      (calling (pre ++ .top :: post)).count u + queue.count u +
      (running (pre ++ .top :: post)).count u
    rw [before.count_eq, List.count_cons] at busy
    rw [run.count_eq, call.count_eq, Function.update_apply]
    by_cases same : u = t
    · subst same
      rw [if_pos rfl, busy]
      simp
    · rw [if_neg same, busy]
      simp [Ne.symm same]

/-- A call from outside comes to its end. -/
theorem count_inFlight (flying : t ∈ s.inFlight) (workers : List Worker) (u : TaskId) :
    (s.inFlight.erase t).count u + (calling workers).count u + (if t = u then 1 else 0) =
      s.inFlight.count u + (calling workers).count u := by
  rw [List.count_erase]
  by_cases same : t = u
  · subst same
    have := List.count_pos_iff.mpr flying
    simp only [beq_self_eq_true, if_true]
    omega
  · simp only [beq_eq_false_iff_ne.mpr same, if_neg same, Bool.false_eq_true, if_false]
    omega

/-- A call in a callback comes to its end. -/
theorem count_calling (place : s.workers = pre ++ .running task (some t) :: post)
    (inFlight : List TaskId) :
    (running (pre ++ .running task none :: post)).Perm (running s.workers) ∧
      ∀ u, inFlight.count u + (calling (pre ++ .running task none :: post)).count u +
          (if t = u then 1 else 0) = inFlight.count u + (calling s.workers).count u := by
  have call : (calling (pre ++ .running task none :: post)).Perm (calling (pre ++ post)) :=
    calling_place ..
  have before : (calling s.workers).Perm (t :: calling (pre ++ post)) :=
    place ▸ calling_place pre post (.running task (some t))
  constructor
  · exact (running_place ..).trans (place ▸ running_place pre post (.running task (some t))).symm
  · intro u
    rw [call.count_eq, before.count_eq, List.count_cons]
    simp only [beq_iff_eq]
    omega

/-- Every step returns and keeps the invariant. -/
theorem Sound.step (h : Sound s queue) {ev : PoolEvent} {r : Option PoolState}
    (unqueued : Unqueued s ev) (stepped : PoolStep s ev r) :
    ∃ s' queue', r = some s' ∧ Sound s' queue' := by
  cases stepped with
  | enter place => exact ⟨_, queue, rfl, h.move place ⟨rfl, rfl⟩ ⟨rfl, rfl⟩⟩
  | skip place => exact ⟨_, queue, rfl, h.move place ⟨rfl, rfl⟩ ⟨rfl, rfl⟩⟩
  | finish _ place => exact ⟨_, queue, rfl, h.move place ⟨rfl, rfl⟩ ⟨rfl, rfl⟩⟩
  | leave place _ _ => exact ⟨_, queue, rfl, h.move place ⟨rfl, rfl⟩ ⟨rfl, rfl⟩⟩
  | runTask => exact ⟨_, queue, rfl, h.runTask⟩
  | callRunTask place => exact ⟨_, queue, rfl, h.callRunTask place⟩
  | finishTask place => exact ⟨_, queue, rfl, h.finishTask place⟩
  | stop _ => exact ⟨_, queue, rfl, h.rep, h.order, h.ran, h.busy⟩
  | takeNull _ null =>
      -- a sound list has no null pointer to follow
      rw [h.rep.first] at null
      cases null
  | takeTask place found =>
      obtain ⟨l, rest, removed, _, h'⟩ := h.takeTask place found
      refine ⟨_, rest, ?_, h'⟩
      show (s.tpTasks.remove _ >>= _) = _
      rw [removed]
      rfl
  | appendTask flying =>
      obtain ⟨l, appended, h'⟩ :=
        h.appendTask s.tpRun (.refl _) (count_inFlight flying s.workers) unqueued
      refine ⟨_, _, ?_, h'⟩
      show (s.tpTasks.append _ >>= _) = _
      rw [appended]
      rfl
  | callAppendTask place =>
      obtain ⟨run, taken⟩ := count_calling place s.inFlight
      obtain ⟨l, appended, h'⟩ := h.appendTask true run taken unqueued
      refine ⟨_, _, ?_, h'⟩
      show (s.tpTasks.append _ >>= _) = _
      rw [appended]
      rfl

end Steps

/-! ## Whole runs -/

section Runs

variable {n : Nat} {events : List PoolEvent} {s : PoolState}

theorem sound_createTaskProcessor (n : Nat) : Sound (createTaskProcessor n) [] := by
  have idle : ∀ f : Worker → Option TaskId, f (.wrap true false) = none →
      (List.replicate n (.wrap true false)).filterMap f = [] := by
    intro f none
    rw [List.filterMap_eq_nil_iff]
    intro w mem
    rw [List.eq_of_mem_replicate mem, none]
  have run : running (createTaskProcessor n).workers = [] := idle _ rfl
  have call : calling (createTaskProcessor n).workers = [] := idle _ rfl
  refine ⟨rep_empty, rfl, by rw [run]; exact .nil, ?_⟩
  intro t
  rw [run, call]
  rfl

theorem run_sound (run : ((poolSys n).restrict Unqueued).Run events s) :
    ∃ queue, Sound s queue := by
  refine run.invariant (I := fun _ s => ∃ queue, Sound s queue) ?_ ?_
  · rintro s rfl
    exact ⟨[], sound_createTaskProcessor n⟩
  · rintro events s ev t _ ⟨queue, h⟩ ⟨unqueued, stepped⟩
    obtain ⟨s', queue', same, h'⟩ := h.step unqueued stepped
    cases same
    exact ⟨queue', h'⟩

/-- **No run is lost.** In every run in which `run_task` never puts a task on the list
that is on it still, no step follows a null pointer; and when the list is empty and no
worker is in a callback, the callback of each task has been executed once for each call
of `run_task` that has put it on the list, and `task_busy` counts the calls that have
not come to that yet: it is zero when none is under way. -/
theorem no_run_lost (run : ((poolSys n).restrict Unqueued).Run events s) :
    (∀ ev r, Unqueued s ev → PoolStep s ev r → r ≠ none) ∧
    (s.tpTasks.first = some none → running s.workers = [] → ∀ t,
      s.executed.count t = (s.submitted.map Submission.task).count t ∧
      s.taskBusy t = s.inFlight.count t) := by
  obtain ⟨queue, h⟩ := run_sound run
  constructor
  · intro ev r unqueued stepped
    obtain ⟨s', _, rfl, _⟩ := h.step unqueued stepped
    nofun
  · intro empty idle t
    rw [h.rep.first, Option.some.injEq] at empty
    obtain rfl := List.head?_eq_none_iff.mp empty
    have ran := h.ran
    have busy := h.busy t
    rw [idle, List.append_nil] at ran
    -- only a worker in a callback can be in a call
    have quiet : calling s.workers = [] := by
      rw [calling, List.filterMap_eq_nil_iff]
      intro w mem
      have := List.filterMap_eq_nil_iff.mp idle w mem
      cases w with
      | running task calling => cases this
      | wrap start stop => rfl
      | top => rfl
      | left => rfl
    constructor
    · rw [h.order, List.append_nil, ran.count_eq]
    · rw [busy, idle, quiet]
      rfl

/-- A step of a pool with one worker that finds its task off the list. -/
def execUnqueued (s : PoolState) (ev : PoolEvent) : Option PoolState :=
  if Unqueued s ev then s.exec ev else none

theorem execUnqueued_step (s : PoolState) (ev : PoolEvent) (t : PoolState)
    (ran : execUnqueued s ev = some t) : ((poolSys n).restrict Unqueued).step s ev t := by
  unfold execUnqueued at ran
  split at ran
  · rename_i unqueued
    exact ⟨unqueued, PoolState.exec_step ran⟩
  · cases ran

/-- A task is run again while its first run is being executed. -/
theorem no_run_lost_again :
    ∃ events s, ((poolSys 1).restrict Unqueued).Run events s ∧ s.executed = [0, 0] ∧
      s.executed.count 0 = (s.submitted.map Submission.task).count 0 ∧
      s.taskBusy 0 = s.inFlight.count 0 := by
  let events : List PoolEvent := [.enter, .runTask 0, .appendTask 0, .takeTask, .runTask 0,
    .appendTask 0, .finishTask, .takeTask, .finishTask]
  have ran : ((events.foldlM execUnqueued (createTaskProcessor 1)).map fun s =>
      (s.executed, s.tpTasks.first, running s.workers)) = some ([0, 0], some none, []) := by
    decide +kernel
  obtain ⟨s, ran, facts⟩ := Option.map_eq_some_iff.mp ran
  obtain ⟨executed, empty, idle⟩ : s.executed = [0, 0] ∧ s.tpTasks.first = some none ∧
      running s.workers = [] := by simpa using facts
  have run := TSys.Run.exec (M := (poolSys 1).restrict Unqueued) execUnqueued_step (.init rfl) ran
  exact ⟨_, s, run, executed, (no_run_lost run).2 empty idle 0⟩

/-- Three tasks are queued, and the second one is run again: the worker takes the first
two and finds the list empty. The third task is never executed. -/
theorem queued_again_loses_runs :
    ∃ events s, (poolSys 1).Run events s ∧ s.tpTasks.first = some none ∧
      running s.workers = [] ∧ s.inFlight = [] ∧
      (s.submitted.map Submission.task).count 2 = 1 ∧ s.executed.count 2 = 0 ∧ s.taskBusy 2 = 1 ∧
      (s.submitted.map Submission.task).count 1 = 2 ∧ s.executed.count 1 = 1 := by
  let events : List PoolEvent := [.enter, .runTask 0, .appendTask 0, .runTask 1, .appendTask 1,
    .runTask 2, .appendTask 2, .runTask 1, .appendTask 1, .takeTask, .finishTask, .takeTask,
    .finishTask]
  have ran : ((events.foldlM PoolState.exec (createTaskProcessor 1)).map fun s =>
      ((s.tpTasks.first, running s.workers, s.inFlight),
        s.submitted.map Submission.task, s.executed, s.taskBusy 2)) =
      some ((some none, [], []), [0, 1, 2, 1], [0, 1], 1) := by
    decide +kernel
  obtain ⟨s, ran, facts⟩ := Option.map_eq_some_iff.mp ran
  obtain ⟨empty, idle, outside, submitted, executed, busy⟩ : s.tpTasks.first = some none ∧
      running s.workers = [] ∧ s.inFlight = [] ∧ s.submitted.map Submission.task = [0, 1, 2, 1] ∧
      s.executed = [0, 1] ∧ s.taskBusy 2 = 1 := by simpa [and_assoc] using facts
  have run := TSys.Run.exec (M := poolSys 1) (fun _ _ _ => PoolState.exec_step) (.init rfl) ran
  refine ⟨_, s, run, empty, idle, outside, ?_, ?_, busy, ?_, ?_⟩
  · rw [submitted]
    rfl
  · rw [executed]
    rfl
  · rw [submitted]
    rfl
  · rw [executed]
    rfl

end Runs

end GpBase.Pool

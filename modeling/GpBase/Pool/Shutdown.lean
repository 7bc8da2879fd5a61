import GpBase.Pool.Runs

/-!
# Shutdown

A worker leaves only when it finds the list empty after `tp_run` was cleared, and a
callback runs in a worker that looks at the list again. So what is left on the list when
all workers have left was put there by a call from outside after `tp_run` was cleared.
-/

namespace GpBase.Pool

open GpBase.Lib

/-- The invariant: a run that is owed and has not begun is seen by a worker. -/
structure Draining (s : PoolState) : Prop where
  staffed : s.workers ≠ []
  started : ∀ stop, .wrap false stop ∉ s.workers
  early : s.tpRun = true → .left ∉ s.workers
  owed : ∀ r ∈ s.submitted.drop s.begun.length, r.owed = true → ∃ w ∈ s.workers, w ≠ .left

section Steps

variable {s s' : PoolState} {queue : List TaskId} {pre post : List Worker} {w w' : Worker}

/-- A worker that stays sees what is on the list. -/
theorem Draining.move (h : Draining s) (place : s.workers = pre ++ w :: post)
    (workers : s'.workers = pre ++ w' :: post) (run : s'.tpRun = s.tpRun)
    (started : ∀ stop, w' ≠ .wrap false stop) (stays : w' ≠ .left) : Draining s' := by
  have others : ∀ v, v ∈ pre ++ w' :: post → v = w' ∨ v ∈ s.workers := by
    intro v mem
    rw [place]
    rcases List.mem_append.mp mem with left | right
    · exact .inr (List.mem_append_left _ left)
    · refine (List.mem_cons.mp right).imp_right ?_
      exact fun behind => List.mem_append_right _ (List.mem_cons_of_mem _ behind)
  refine ⟨?_, ?_, ?_, ?_⟩
  · rw [workers]
    simp
  · intro stop mem
    rw [workers] at mem
    rcases others _ mem with same | old
    · exact started stop same.symm
    · exact h.started stop old
  · intro running mem
    rw [workers] at mem
    rcases others _ mem with same | old
    · exact stays same.symm
    · exact h.early (run ▸ running) old
  · intro r _ _
    exact ⟨w', workers ▸ List.mem_append_right _ List.mem_cons_self, stays⟩

/-- A step of `run_task` that has returned. -/
theorem appendTask_eq_some {t : TaskId} {owed : Bool} (returned : s.appendTask t owed = some s') :
    ∃ l, s' = { s with tpTasks := l, submitted := s.submitted ++ [⟨t, owed⟩] } := by
  obtain ⟨l, _, same⟩ := Option.bind_eq_some_iff.mp returned
  cases same
  exact ⟨l, rfl⟩

theorem takeTask_eq_some {t : TaskId} (returned : s.takeTask t = some s') :
    ∃ l, s' = { s with tpTasks := l, begun := s.begun ++ [t] } := by
  obtain ⟨l, _, same⟩ := Option.bind_eq_some_iff.mp returned
  cases same
  exact ⟨l, rfl⟩

/-- What a call from outside appends is owed only while no worker can leave. -/
theorem Draining.appendTask (h : Draining s) (t : TaskId) (l : Links TaskId)
    (inFlight : List TaskId) :
    Draining { s with tpTasks := l, inFlight := inFlight
                      submitted := s.submitted ++ [⟨t, s.tpRun⟩] } := by
  refine ⟨h.staffed, h.started, h.early, ?_⟩
  intro r mem owed
  rw [List.drop_append] at mem
  rcases List.mem_append.mp mem with old | new
  · exact h.owed r old owed
  · obtain rfl := List.mem_singleton.mp (List.mem_of_mem_drop new)
    obtain ⟨w, mem⟩ := List.exists_mem_of_ne_nil _ h.staffed
    refine ⟨w, mem, ?_⟩
    rintro rfl
    exact h.early owed mem

/-- A worker leaves an empty list. -/
theorem Draining.leave (h : Draining s) (sound : Sound s queue)
    (place : s.workers = pre ++ .top :: post) (empty : s.tpTasks.first = some none)
    (cleared : s.tpRun = false) : Draining (s.withWorkers (pre ++ .left :: post)) := by
  rw [sound.rep.first, Option.some.injEq] at empty
  obtain rfl := List.head?_eq_none_iff.mp empty
  have all : s.submitted.length = s.begun.length := by
    have := congrArg List.length sound.order
    rwa [List.length_map, List.append_nil] at this
  refine ⟨by simp [PoolState.withWorkers], ?_, ?_, ?_⟩
  · intro stop mem
    apply h.started stop
    rw [place]
    simpa [PoolState.withWorkers] using mem
  · intro running
    rw [show s.tpRun = true from running] at cleared
    cases cleared
  · intro r mem
    have : r ∈ s.submitted.drop s.begun.length := mem
    rw [← all, List.drop_length] at this
    cases this

theorem Draining.step (h : Draining s) (sound : Sound s queue) {ev : PoolEvent}
    (stepped : PoolStep s ev (some s')) : Draining s' := by
  generalize result : some s' = r at stepped
  cases stepped with
  | enter place =>
      cases result
      exact h.move place rfl rfl nofun nofun
  | skip place =>
      -- every worker was told to start before the pool could be used
      exact absurd (place ▸ List.mem_append_right _ List.mem_cons_self) (h.started true)
  | finish cleared place =>
      cases result
      refine h.move place rfl rfl ?_ nofun
      rintro stop ⟨⟩
      exact absurd (place ▸ List.mem_append_right _ List.mem_cons_self) (h.started _)
  | runTask =>
      cases result
      exact ⟨h.staffed, h.started, h.early, h.owed⟩
  | stop _ =>
      cases result
      exact ⟨h.staffed, h.started, nofun, h.owed⟩
  | callRunTask place =>
      cases result
      exact h.move place rfl rfl nofun nofun
  | finishTask place =>
      cases result
      exact h.move place rfl rfl nofun nofun
  | takeTask place found =>
      obtain ⟨l, rfl⟩ := takeTask_eq_some result.symm
      exact h.move place rfl rfl nofun nofun
  | takeNull _ _ => cases result
  | callAppendTask place =>
      obtain ⟨l, rfl⟩ := appendTask_eq_some result.symm
      exact h.move place rfl rfl nofun nofun
  | appendTask flying =>
      obtain ⟨l, rfl⟩ := appendTask_eq_some result.symm
      exact h.appendTask _ l _
  | leave place empty cleared =>
      cases result
      exact h.leave sound place empty cleared

end Steps

/-! ## Whole runs -/

section Runs

variable {n : Nat} {events : List PoolEvent} {s : PoolState}

theorem run_draining (staffed : 0 < n) (run : ((poolSys n).restrict Unqueued).Run events s) :
    (∃ queue, Sound s queue) ∧ Draining s := by
  refine run.invariant (I := fun _ s => (∃ queue, Sound s queue) ∧ Draining s) ?_ ?_
  · rintro s rfl
    have fresh : ∀ w ∈ (createTaskProcessor n).workers, w = .wrap true false :=
      fun w mem => List.eq_of_mem_replicate mem
    refine ⟨⟨[], sound_createTaskProcessor n⟩, ?_, ?_, ?_, nofun⟩
    · exact List.ne_nil_of_length_pos (by rwa [createTaskProcessor, List.length_replicate])
    · intro stop mem
      cases fresh _ mem
    · intro _ mem
      cases fresh _ mem
  · rintro events s ev t _ ⟨⟨queue, sound⟩, h⟩ ⟨unqueued, stepped⟩
    refine ⟨?_, h.step sound stepped⟩
    obtain ⟨s', queue', same, sound'⟩ := sound.step unqueued stepped
    cases same
    exact ⟨queue', sound'⟩

/-- **Shutdown drains the pool.** When all workers have left `gp_task_thread`, the
callbacks that were called are those of the first submissions, one each and in this order,
they have all returned, and what was submitted before `tp_run` was cleared or by a
callback is among them. -/
theorem shutdown_drains (staffed : 0 < n) (run : ((poolSys n).restrict Unqueued).Run events s)
    (left : ∀ w ∈ s.workers, w = .left) :
    s.begun <+: s.submitted.map Submission.task ∧ s.executed.Perm s.begun ∧
      ∀ k r, s.submitted[k]? = some r → r.owed = true → k < s.begun.length := by
  obtain ⟨⟨queue, sound⟩, h⟩ := run_draining staffed run
  have idle : running s.workers = [] := by
    rw [running, List.filterMap_eq_nil_iff]
    intro w mem
    rw [left w mem]
    rfl
  refine ⟨⟨queue, sound.order.symm⟩, ?_, ?_⟩
  · have ran := sound.ran
    rwa [idle, List.append_nil] at ran
  · intro k r found owed
    by_contra late
    have mem : r ∈ s.submitted.drop s.begun.length := by
      rw [List.mem_iff_getElem?]
      refine ⟨k - s.begun.length, ?_⟩
      rw [List.getElem?_drop, Nat.add_sub_cancel' (Nat.le_of_not_lt late), found]
    obtain ⟨w, here, stays⟩ := h.owed r mem owed
    exact stays (left w here)

/-- A task is queued, the pool is told to stop, and the callback of the task queues
another one: both are executed before the worker leaves. -/
theorem shutdown_drains_two :
    ∃ events s, ((poolSys 1).restrict Unqueued).Run events s ∧ s.workers = [.left] ∧
      s.submitted = [⟨0, true⟩, ⟨1, true⟩] ∧ s.executed = [0, 1] ∧ s.executed.Perm s.begun := by
  let events : List PoolEvent := [.enter, .runTask 0, .appendTask 0, .stop, .takeTask,
    .callRunTask 1, .callAppendTask 1, .finishTask, .takeTask, .finishTask, .leave]
  have ran : ((events.foldlM execUnqueued (createTaskProcessor 1)).map fun s =>
      (s.workers, s.submitted, s.executed)) =
        some ([.left], [⟨0, true⟩, ⟨1, true⟩], [0, 1]) := by
    decide +kernel
  obtain ⟨s, ran, facts⟩ := Option.map_eq_some_iff.mp ran
  obtain ⟨workers, submitted, executed⟩ : s.workers = [.left] ∧
      s.submitted = [⟨0, true⟩, ⟨1, true⟩] ∧ s.executed = [0, 1] := by simpa using facts
  have run := TSys.Run.exec (M := (poolSys 1).restrict Unqueued) execUnqueued_step (.init rfl) ran
  have left : ∀ w ∈ s.workers, w = .left := by
    rw [workers]
    simp
  exact ⟨_, s, run, workers, submitted, executed, (shutdown_drains Nat.one_pos run left).2.1⟩

end Runs

end GpBase.Pool

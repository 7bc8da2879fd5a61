import Mathlib.Algebra.BigOperators.Group.List.Basic
import Mathlib.Algebra.GroupWithZero.Nat
import GpBase.Pool.Shutdown

/-!
# Sleeping workers

The pool with the condition variable `tp_sched_cv`: a worker in `gp_cv_wait` stays there until
`gp_cv_signal` in `run_task` or `gp_cv_wake` in `destroy_task_processor` wakes it up, or nothing
does. To whoever does not look at who sleeps, this is the pool in which every worker at the
head of its loop may go on.

A signal is sent for each task, and wakes one worker; while a worker sleeps, there are at
least as many workers at the head of the loop as there are tasks on the list. So no wakeup is
lost: left alone, the pool comes to rest, and at rest nothing is left to be executed.
-/

namespace GpBase.Pool

open GpBase.Lib

/-- A thread of the pool: asleep, it is in `gp_cv_wait(&gp_tp->tp_sched_cv)`. -/
inductive Place
  | awake (w : Worker)
  | asleep
  deriving DecidableEq, Repr

namespace Place

/-- What is seen of a thread that may wake up at any time. -/
@[simp] def worker : Place → Worker
  | awake w => w
  | asleep => .top

/-- `gp_cv_wake` wakes up all of them. -/
@[simp] def woken : Place → Place
  | awake w => .awake w
  | asleep => .awake .top

end Place

/-- `gp_cv_signal` wakes up one of the threads that sleep. -/
inductive Signal : List Place → List Place → Prop
  | none {places : List Place} : .asleep ∉ places → Signal places places
  | one {pre post : List Place} : Signal (pre ++ .asleep :: post) (pre ++ .awake .top :: post)

/-- The pool, and where its threads are; `rest.workers` is not used. -/
structure SleepState where
  rest : PoolState
  places : List Place

inductive SleepEvent
  | pool (ev : PoolEvent)
  | /-- a worker calls `gp_cv_wait` -/ sleep
  | /-- a spurious wakeup -/ wake
  deriving DecidableEq, Repr

namespace SleepState

variable (s : SleepState)

/-- The pool without its sleep. -/
def view : PoolState := s.rest.withWorkers (s.places.map Place.worker)

def put (places : List Place) : SleepState := { s with places := places }

end SleepState

/-- The steps of `PoolStep`, with the wakeups that they cause. -/
inductive SleepStep : SleepState → SleepEvent → Option SleepState → Prop
  | enter {s pre post stop} : s.places = pre ++ .awake (.wrap true stop) :: post →
      SleepStep s (.pool .enter) (some (s.put (pre ++ .awake .top :: post)))
  | skip {s pre post} : s.places = pre ++ .awake (.wrap false true) :: post →
      SleepStep s (.pool .skip) (some (s.put (pre ++ .awake .left :: post)))
  | finish {s pre post start stop} : s.rest.tpRun = false →
      s.places = pre ++ .awake (.wrap start stop) :: post →
      SleepStep s (.pool .finish) (some (s.put (pre ++ .awake (.wrap start true) :: post)))
  | runTask {s t} :
      SleepStep s (.pool (.runTask t))
        (some ⟨{ s.rest.countRun t with inFlight := t :: s.rest.inFlight }, s.places⟩)
  | appendTask {s t places} : t ∈ s.rest.inFlight → Signal s.places places →
      SleepStep s (.pool (.appendTask t))
        (({ s.rest with inFlight := s.rest.inFlight.erase t }.appendTask t s.rest.tpRun).map
          (⟨·, places⟩))
  | callRunTask {s pre post task t} : s.places = pre ++ .awake (.running task none) :: post →
      SleepStep s (.pool (.callRunTask t))
        (some ⟨s.rest.countRun t, pre ++ .awake (.running task (some t)) :: post⟩)
  | callAppendTask {s pre post task t places} :
      s.places = pre ++ .awake (.running task (some t)) :: post →
      Signal (pre ++ .awake (.running task none) :: post) places →
      SleepStep s (.pool (.callAppendTask t)) ((s.rest.appendTask t true).map (⟨·, places⟩))
  | takeTask {s pre post t} : s.places = pre ++ .awake .top :: post →
      s.rest.tpTasks.first = some (some t) →
      SleepStep s (.pool .takeTask)
        ((s.rest.takeTask t).map (⟨·, pre ++ .awake (.running t none) :: post⟩))
  | takeNull {s pre post} : s.places = pre ++ .awake .top :: post →
      s.rest.tpTasks.first = none → SleepStep s (.pool .takeTask) none
  | finishTask {s pre post t} : s.places = pre ++ .awake (.running t none) :: post →
      SleepStep s (.pool .finishTask)
        (some ⟨s.rest.finishTask t, pre ++ .awake .top :: post⟩)
  | leave {s pre post} : s.places = pre ++ .awake .top :: post →
      s.rest.tpTasks.first = some none → s.rest.tpRun = false →
      SleepStep s (.pool .leave) (some (s.put (pre ++ .awake .left :: post)))
  | stop {s} : s.rest.tpRun = true →
      SleepStep s (.pool .stop) (some ⟨{ s.rest with tpRun := false }, s.places.map Place.woken⟩)
  | sleep {s pre post} : s.places = pre ++ .awake .top :: post →
      s.rest.tpTasks.first = some none → s.rest.tpRun = true →
      SleepStep s .sleep (some (s.put (pre ++ .asleep :: post)))
  | wake {s pre post} : s.places = pre ++ .asleep :: post →
      SleepStep s .wake (some (s.put (pre ++ .awake .top :: post)))

/-- A pool of `n` threads that have been told to start. -/
def sleepSys (n : Nat) : TSys SleepState SleepEvent where
  init s := s = ⟨createTaskProcessor n, List.replicate n (.awake (.wrap true false))⟩
  step s ev t := SleepStep s ev (some t)

/-- `run_task` finds the node of its task off the list. -/
def UnqueuedIn (s : SleepState) : SleepEvent → Prop
  | .pool ev => Unqueued s.view ev
  | .sleep | .wake => True

/-! ## Sleep is not seen -/

section View

variable {s t : SleepState} {pre post : List Place}

theorem view_place {p : Place} (place : s.places = pre ++ p :: post) :
    s.view.workers = pre.map Place.worker ++ p.worker :: post.map Place.worker := by
  show s.places.map Place.worker = _
  rw [place, List.map_append, List.map_cons]

theorem view_mk (rest : PoolState) (p : Place) :
    SleepState.view ⟨rest, pre ++ p :: post⟩ =
      rest.withWorkers (pre.map Place.worker ++ p.worker :: post.map Place.worker) := by
  show rest.withWorkers ((pre ++ p :: post).map Place.worker) = _
  rw [List.map_append, List.map_cons]

theorem seen_at (rest : PoolState) (p : Place) {ev : PoolEvent}
    (step : PoolStep s.view ev (some (rest.withWorkers
      (pre.map Place.worker ++ p.worker :: post.map Place.worker)))) :
    PoolStep s.view ev (Option.map SleepState.view (some ⟨rest, pre ++ p :: post⟩)) := by
  rwa [Option.map_some, view_mk]

theorem map_view (r : Option PoolState) (places : List Place) :
    (r.map fun rest => SleepState.mk rest places).map SleepState.view =
      r.map fun rest => rest.withWorkers (places.map Place.worker) := by
  rw [Option.map_map]
  rfl

theorem Signal.workers {places places' : List Place} (signal : Signal places places') :
    places'.map Place.worker = places.map Place.worker := by
  cases signal with
  | none _ => rfl
  | one => simp

theorem woken_workers (places : List Place) :
    (places.map Place.woken).map Place.worker = places.map Place.worker := by
  rw [List.map_map]
  refine List.map_congr_left fun p _ => ?_
  cases p with
  | awake w => rfl
  | asleep => rfl

theorem appendTask_withWorkers (rest : PoolState) (workers : List Worker) (t : TaskId)
    (owed : Bool) :
    (rest.withWorkers workers).appendTask t owed =
      (rest.appendTask t owed).map (·.withWorkers workers) := by
  unfold PoolState.appendTask
  show (rest.tpTasks.append t >>= _) = _
  cases rest.tpTasks.append t with
  | none => rfl
  | some l => rfl

theorem takeTask_withWorkers (rest : PoolState) (workers : List Worker) (t : TaskId) :
    (rest.withWorkers workers).takeTask t = (rest.takeTask t).map (·.withWorkers workers) := by
  unfold PoolState.takeTask
  show (rest.tpTasks.remove t >>= _) = _
  cases rest.tpTasks.remove t with
  | none => rfl
  | some l => rfl

/-- Every step but sleep and spurious wakeups is a step of the pool. -/
theorem SleepStep.view {ev : PoolEvent} {r : Option SleepState}
    (stepped : SleepStep s (.pool ev) r) : PoolStep s.view ev (r.map SleepState.view) := by
  cases stepped with
  | enter place => exact seen_at s.rest _ (.enter (view_place place))
  | skip place => exact seen_at s.rest _ (.skip (view_place place))
  | finish cleared place => exact seen_at s.rest _ (.finish cleared (view_place place))
  | runTask => exact .runTask
  | appendTask flying signal =>
      rw [map_view, signal.workers, ← appendTask_withWorkers]
      exact .appendTask flying
  | callRunTask place => exact seen_at (s.rest.countRun _) _ (.callRunTask (view_place place))
  | callAppendTask place signal =>
      rw [map_view, signal.workers, List.map_append, List.map_cons, ← appendTask_withWorkers]
      exact .callAppendTask (view_place place)
  | takeTask place found =>
      rw [map_view, List.map_append, List.map_cons, ← takeTask_withWorkers]
      exact .takeTask (view_place place) found
  | takeNull place null => exact .takeNull (view_place place) null
  | finishTask place => exact seen_at (s.rest.finishTask _) _ (.finishTask (view_place place))
  | leave place empty cleared => exact seen_at s.rest _ (.leave (view_place place) empty cleared)
  | stop running =>
      have step : PoolStep s.view .stop _ := .stop running
      rw [Option.map_some]
      show PoolStep s.view .stop (some ({ s.rest with tpRun := false }.withWorkers _))
      rw [woken_workers]
      exact step

/-- Sleep and spurious wakeups are not seen. -/
theorem SleepStep.unseen {ev : SleepEvent} (stepped : SleepStep s ev (some t))
    (quiet : ev = .sleep ∨ ev = .wake) : t.view = s.view := by
  generalize result : some t = r at stepped
  cases stepped with
  | sleep place _ _ =>
      cases result
      show SleepState.view ⟨s.rest, _⟩ = _
      rw [view_mk, SleepState.view, place, List.map_append]
      rfl
  | wake place =>
      cases result
      show SleepState.view ⟨s.rest, _⟩ = _
      rw [view_mk, SleepState.view, place, List.map_append]
      rfl
  | _ => simp at quiet

end View

/-- What is seen of a step. -/
def SleepEvent.seen : SleepEvent → Option PoolEvent
  | .pool ev => some ev
  | .sleep | .wake => none

section Runs

variable {n : Nat} {events : List SleepEvent} {s : SleepState}

/-- Seen from outside, a run of the pool with its sleep is a run of the pool. -/
theorem seen_run (run : ((sleepSys n).restrict UnqueuedIn).Run events s) :
    ((poolSys n).restrict Unqueued).Run (events.filterMap SleepEvent.seen) s.view := by
  induction run with
  | init fresh =>
      obtain rfl := fresh
      refine .init ?_
      show (createTaskProcessor n).withWorkers _ = createTaskProcessor n
      rw [List.map_replicate]
      rfl
  | @step events s t ev _ stepped ih =>
      obtain ⟨unqueued, stepped⟩ := stepped
      rw [List.filterMap_append]
      cases ev with
      | pool ev => exact ih.step ⟨unqueued, stepped.view⟩
      | sleep =>
          rw [stepped.unseen (.inl rfl)]
          exact (List.append_nil _).symm ▸ ih
      | wake =>
          rw [stepped.unseen (.inr rfl)]
          exact (List.append_nil _).symm ▸ ih

end Runs

/-! ## No wakeup is lost -/

/-- While a worker sleeps, the pool has not been stopped, and there are at least as many
workers at the head of the loop as runs that have not begun. -/
def Alert (s : SleepState) : Prop :=
  .asleep ∈ s.places → s.rest.tpRun = true ∧
    s.rest.submitted.length ≤ s.rest.begun.length + s.places.count (.awake .top)

section Steps

variable {s t : SleepState} {pre post : List Place} {w w' : Worker} {rest : PoolState}

/-- A worker that is awake goes on. -/
theorem Alert.move (h : Alert s) (place : s.places = pre ++ .awake w :: post)
    (goes : rest.tpRun = s.rest.tpRun) (same : rest.submitted = s.rest.submitted)
    (covers : s.rest.begun.length + [w].count .top ≤ rest.begun.length + [w'].count .top) :
    Alert ⟨rest, pre ++ .awake w' :: post⟩ := by
  intro sleeps
  have before : .asleep ∈ s.places := by
    rw [place]
    simpa using sleeps
  obtain ⟨running, enough⟩ := h before
  refine ⟨goes.trans running, ?_⟩
  show rest.submitted.length ≤ rest.begun.length + _
  rw [place] at enough
  simp only [List.count_append, List.count_cons, List.count_nil, beq_iff_eq,
    Place.awake.injEq] at enough covers ⊢
  rw [same]
  omega

/-- One task more, and one signal. -/
theorem Alert.signal (h : Alert s) {places : List Place} (signal : Signal s.places places)
    (goes : rest.tpRun = s.rest.tpRun) (one : rest.submitted.length = s.rest.submitted.length + 1)
    (same : rest.begun = s.rest.begun) : Alert ⟨rest, places⟩ := by
  intro sleeps
  obtain ⟨old, at_⟩ : ∃ old, s.places = old := ⟨_, rfl⟩
  rw [at_] at signal
  cases signal with
  | none awake => exact absurd sleeps awake
  | @one pre post =>
      obtain ⟨running, enough⟩ := h (by simp [at_])
      refine ⟨goes.trans running, ?_⟩
      show rest.submitted.length ≤ rest.begun.length + _
      rw [at_] at enough
      simp only [List.count_append, List.count_cons, reduceCtorEq, beq_iff_eq, if_false,
        if_true] at enough ⊢
      rw [same]
      omega

theorem woken_not_asleep (places : List Place) : .asleep ∉ places.map Place.woken := by
  intro mem
  obtain ⟨p, _, woken⟩ := List.mem_map.mp mem
  cases p with
  | awake w => cases woken
  | asleep => cases woken

theorem Alert.step (h : Alert s) {queue : List TaskId} (sound : Sound s.view queue)
    {ev : SleepEvent} (stepped : SleepStep s ev (some t)) : Alert t := by
  have order := congrArg List.length sound.order
  rw [List.length_map, List.length_append] at order
  generalize result : some t = r at stepped
  cases stepped with
  | enter place =>
      cases result
      exact h.move place rfl rfl (Nat.le_succ _)
  | skip place =>
      cases result
      exact h.move place rfl rfl (Nat.le_refl _)
  | finish _ place =>
      cases result
      exact h.move place rfl rfl (Nat.le_refl _)
  | runTask =>
      cases result
      exact h
  | callRunTask place =>
      cases result
      exact h.move place rfl rfl (Nat.le_refl _)
  | finishTask place =>
      cases result
      exact h.move place rfl rfl (Nat.le_succ _)
  | takeNull _ _ => cases result
  | takeTask place found =>
      obtain ⟨rest, taken, rfl⟩ := Option.map_eq_some_iff.mp result.symm
      obtain ⟨l, rfl⟩ := takeTask_eq_some taken
      refine h.move place rfl rfl ?_
      show _ ≤ (s.rest.begun ++ _).length + _
      rw [List.length_append]
      exact Nat.le_refl _
  | appendTask _ signal =>
      obtain ⟨rest, appended, rfl⟩ := Option.map_eq_some_iff.mp result.symm
      obtain ⟨l, rfl⟩ := appendTask_eq_some appended
      exact h.signal signal rfl List.length_append rfl
  | callAppendTask place signal =>
      obtain ⟨rest, appended, rfl⟩ := Option.map_eq_some_iff.mp result.symm
      obtain ⟨l, rfl⟩ := appendTask_eq_some appended
      refine Alert.signal (s := ⟨s.rest, _⟩) (h.move place rfl rfl ?_) signal rfl
        List.length_append rfl
      exact Nat.le_refl _
  | leave place _ cleared =>
      cases result
      intro sleeps
      -- nobody sleeps when the pool has been stopped
      have before : .asleep ∈ s.places := by
        rw [place]
        simpa [SleepState.put] using sleeps
      rw [(h before).1] at cleared
      cases cleared
  | stop _ =>
      cases result
      exact fun sleeps => absurd sleeps (woken_not_asleep s.places)
  | sleep place empty running =>
      cases result
      intro _
      have none : queue.head? = none := Option.some.inj (sound.rep.first.symm.trans empty)
      obtain rfl := List.head?_eq_none_iff.mp none
      -- what was submitted has begun
      have all : s.rest.submitted.length = s.rest.begun.length := order
      exact ⟨running, all ▸ Nat.le_add_right _ _⟩
  | wake place =>
      cases result
      intro _
      obtain ⟨running, enough⟩ := h (by simp [place])
      refine ⟨running, Nat.le_trans enough ?_⟩
      rw [place]
      show _ ≤ s.rest.begun.length + List.count _ (_ ++ Place.awake .top :: _)
      simp only [List.count_append, List.count_cons, reduceCtorEq, beq_iff_eq, if_false, if_true]
      omega

end Steps

/-! ## Coming to rest -/

/-- The steps that a worker takes by itself. -/
def Own : SleepEvent → Prop
  | .pool .enter | .pool .skip | .pool .takeTask | .pool (.callAppendTask _)
  | .pool .finishTask | .pool .leave | .sleep => True
  | .pool .finish | .pool (.runTask _) | .pool (.appendTask _) | .pool (.callRunTask _)
  | .pool .stop | .wake => False

/-- The steps that a thread is good for, apart from the tasks that it takes: a signal costs
one, a task three. -/
def Place.weight : Place → Nat
  | .awake (.wrap _ _) => 2
  | .awake .top => 1
  | .awake (.running _ none) => 2
  | .awake (.running _ (some _)) => 7
  | .awake .left | .asleep => 0

/-- A bound on the steps that the workers take by themselves. -/
def SleepState.work (s : SleepState) : Nat :=
  3 * (s.rest.submitted.length - s.rest.begun.length) + (s.places.map Place.weight).sum

section Rest

variable {s t : SleepState} {pre post : List Place}

theorem weight_place (pre post : List Place) (p : Place) :
    ((pre ++ p :: post).map Place.weight).sum =
      p.weight + ((pre ++ post).map Place.weight).sum := by
  simp only [List.map_append, List.map_cons, List.sum_append, List.sum_cons]
  omega

theorem Signal.weight {places places' : List Place} (signal : Signal places places') :
    (places'.map Place.weight).sum ≤ (places.map Place.weight).sum + 1 := by
  cases signal with
  | none _ => exact Nat.le_succ _
  | one =>
      rw [weight_place, weight_place]
      show 1 + _ ≤ 0 + _ + 1
      omega

theorem signal_total (places : List Place) : ∃ places', Signal places places' := by
  by_cases sleeps : Place.asleep ∈ places
  · obtain ⟨pre, post, rfl⟩ := List.append_of_mem sleeps
    exact ⟨_, .one⟩
  · exact ⟨_, .none sleeps⟩

/-- Every step of a worker is one less to take. -/
theorem work_step {queue : List TaskId} (sound : Sound s.view queue) {ev : SleepEvent}
    (own : Own ev) (stepped : SleepStep s ev (some t)) : t.work < s.work := by
  have order := congrArg List.length sound.order
  rw [List.length_map, List.length_append] at order
  generalize result : some t = r at stepped
  unfold SleepState.work
  cases stepped with
  | enter place | skip place | leave place _ _ | sleep place _ _ | finishTask place =>
      cases result
      rw [place]
      show 3 * (s.rest.submitted.length - s.rest.begun.length) +
        ((_ ++ _ :: _).map Place.weight).sum < _
      rw [weight_place, weight_place]
      simp only [Place.weight]
      omega
  | takeNull _ _ => cases result
  | takeTask place found =>
      obtain ⟨rest, taken, rfl⟩ := Option.map_eq_some_iff.mp result.symm
      obtain ⟨l, rfl⟩ := takeTask_eq_some taken
      have head : queue.head? = some _ := Option.some.inj (sound.rep.first.symm.trans found)
      obtain ⟨behind, rfl⟩ := List.head?_eq_some_iff.mp head
      -- one run fewer has not begun
      have before : s.rest.submitted.length = s.rest.begun.length + (behind.length + 1) := order
      rw [place]
      show 3 * (s.rest.submitted.length - (s.rest.begun ++ _).length) +
        ((_ ++ _ :: _).map Place.weight).sum < _
      rw [weight_place, weight_place, List.length_append, List.length_singleton]
      simp only [Place.weight]
      omega
  | callAppendTask place signal =>
      obtain ⟨rest, appended, rfl⟩ := Option.map_eq_some_iff.mp result.symm
      obtain ⟨l, rfl⟩ := appendTask_eq_some appended
      have woken := signal.weight
      rw [weight_place] at woken
      rw [place, weight_place]
      show 3 * ((s.rest.submitted ++ _).length - s.rest.begun.length) + _ < _
      rw [List.length_append, List.length_singleton]
      simp only [Place.weight] at woken ⊢
      omega
  | finish _ _ | runTask | appendTask _ _ | callRunTask _ | stop _ | wake _ => cases own

/-- A thread that can do nothing sleeps or has left. -/
theorem rest_place {queue : List TaskId} (sound : Sound s.view queue) (draining : Draining s.view)
    (stuck : ∀ ev r, Own ev → ¬ SleepStep s ev r) {p : Place} (mem : p ∈ s.places) :
    p = .asleep ∨ p = .awake .left := by
  obtain ⟨pre, post, place⟩ := List.append_of_mem mem
  cases p with
  | asleep => exact .inl rfl
  | awake w =>
      cases w with
      | left => exact .inr rfl
      | wrap start stop =>
          cases start with
          | true => exact absurd (.enter place) (stuck (.pool .enter) _ trivial)
          | false =>
              exact absurd (List.mem_map_of_mem mem) (draining.started stop)
      | running task calling =>
          cases calling with
          | none => exact absurd (.finishTask place) (stuck (.pool .finishTask) _ trivial)
          | some t =>
              obtain ⟨places, signal⟩ :=
                signal_total (pre ++ .awake (.running task none) :: post)
              exact absurd (.callAppendTask place signal) (stuck (.pool (.callAppendTask t)) _ trivial)
      | top =>
          have first : s.rest.tpTasks.first = some queue.head? := sound.rep.first
          cases queue with
          | cons t rest =>
              exact absurd (.takeTask place first) (stuck (.pool .takeTask) _ trivial)
          | nil =>
              cases running : s.rest.tpRun with
              | true => exact absurd (.sleep place first running) (stuck .sleep _ trivial)
              | false =>
                  exact absurd (.leave place first running) (stuck (.pool .leave) _ trivial)

end Rest

section Runs

variable {n : Nat} {events : List SleepEvent} {s : SleepState}

theorem run_alert (run : ((sleepSys n).restrict UnqueuedIn).Run events s) : Alert s := by
  refine run.invariant (I := fun _ s => Alert s) ?_ ?_
  · rintro s rfl sleeps
    cases List.eq_of_mem_replicate sleeps
  · intro events s ev t before alert step
    obtain ⟨queue, sound⟩ := run_sound (seen_run before)
    exact alert.step sound step.2

/-- **No wakeup is lost.** In every run of the pool with its condition variable, in which
`run_task` finds the node of its task off the list, what is seen is a run of the pool in
which every worker may go on at any time; and while some worker sleeps in `gp_cv_wait`, the
pool has not been stopped, and for every task on the list there is a worker at the head of
its loop that nobody has to wake up. -/
theorem no_wakeup_lost (run : ((sleepSys n).restrict UnqueuedIn).Run events s) :
    ((poolSys n).restrict Unqueued).Run (events.filterMap SleepEvent.seen) s.view ∧
      (.asleep ∈ s.places → s.rest.tpRun = true ∧ ∃ queue, Rep s.rest.tpTasks queue ∧
        queue.length ≤ s.places.count (.awake .top)) := by
  have seen := seen_run run
  refine ⟨seen, fun sleeps => ?_⟩
  obtain ⟨running, enough⟩ := run_alert run sleeps
  obtain ⟨queue, sound⟩ := run_sound seen
  have order := congrArg List.length sound.order
  rw [List.length_map, List.length_append] at order
  have same : s.rest.submitted.length = s.rest.begun.length + queue.length := order
  exact ⟨running, queue, sound.rep, by omega⟩

/-- Both workers sleep, a task is queued, and one of them wakes up. -/
theorem no_wakeup_lost_two :
    ∃ events s, ((sleepSys 2).restrict UnqueuedIn).Run events s ∧
      s.places = [.awake .top, .asleep] ∧ s.rest.tpRun = true ∧
      ∃ queue, Rep s.rest.tpTasks queue ∧ queue.length ≤ 1 := by
  let M := (sleepSys 2).restrict UnqueuedIn
  have run₀ : M.Run [] _ := .init rfl
  have run₁ : M.Run _ _ := .step run₀ ⟨by exact trivial, @SleepStep.enter _ [] _ _ rfl⟩
  have run₂ : M.Run _ _ := .step run₁ ⟨by exact trivial, @SleepStep.enter _ [_] _ _ rfl⟩
  have run₃ : M.Run _ _ := .step run₂ ⟨by exact trivial, @SleepStep.sleep _ [] _ rfl rfl rfl⟩
  have run₄ : M.Run _ _ := .step run₃ ⟨by exact trivial, @SleepStep.sleep _ [_] _ rfl rfl rfl⟩
  have run₅ : M.Run _ _ := .step run₄ ⟨by exact trivial, @SleepStep.runTask _ 0⟩
  have run₆ : M.Run _ _ := .step run₅ ⟨by exact rfl,
    @SleepStep.appendTask _ 0 [.awake .top, .asleep] List.mem_cons_self (@Signal.one [] _)⟩
  obtain ⟨_, covered⟩ := no_wakeup_lost run₆
  exact ⟨_, _, run₆, rfl, covered (List.mem_cons_of_mem _ List.mem_cons_self)⟩

/-- **The pool comes to rest.** From any state of such a run on, the workers by themselves
take at most `work` steps, none of which needs a spurious wakeup; and when they can take no
more, either all of them sleep and every run that was submitted has been executed, or all of
them have left, what has begun has been executed and nothing that is owed has not. -/
theorem pool_rests (staffed : 0 < n) (run : ((sleepSys n).restrict UnqueuedIn).Run events s) :
    (∀ more t, ((((sleepSys n).restrict UnqueuedIn).restrict fun _ => Own).starting s).Run more t →
      more.length ≤ s.work) ∧
    ((∀ ev r, Own ev → ¬ SleepStep s ev r) →
      ((∀ p ∈ s.places, p = .asleep) ∧
        s.rest.executed.Perm (s.rest.submitted.map Submission.task)) ∨
      ((∀ p ∈ s.places, p = .awake .left) ∧ s.rest.executed.Perm s.rest.begun ∧
        ∀ r ∈ s.rest.submitted.drop s.rest.begun.length, r.owed = false)) := by
  constructor
  · intro more t rest
    have bounded := rest.rank (μ := SleepState.work) (n := s.work)
      (I := fun t => ∃ events, ((sleepSys n).restrict UnqueuedIn).Run events t) ?_ ?_
    · omega
    · rintro _ rfl
      exact ⟨⟨events, run⟩, Nat.le_refl _⟩
    · rintro u ev v ⟨before, run⟩ ⟨own, step⟩
      obtain ⟨queue, sound⟩ := run_sound (seen_run run)
      exact ⟨⟨_, run.step step⟩, work_step sound own step.2⟩
  · intro stuck
    obtain ⟨⟨queue, sound⟩, draining⟩ := run_draining staffed (seen_run run)
    have idle : running s.view.workers = [] := by
      rw [running, List.filterMap_eq_nil_iff]
      intro w mem
      obtain ⟨p, here, rfl⟩ := List.mem_map.mp mem
      rcases rest_place sound draining stuck here with rfl | rfl
      · rfl
      · rfl
    have ran := sound.ran
    rw [idle, List.append_nil] at ran
    by_cases sleeps : Place.asleep ∈ s.places
    · obtain ⟨running, enough⟩ := run_alert run sleeps
      have all : ∀ p ∈ s.places, p = .asleep := by
        intro p mem
        rcases rest_place sound draining stuck mem with asleep | left
        · exact asleep
        · exact absurd (List.mem_map.mpr ⟨p, mem, by rw [left]; rfl⟩) (draining.early running)
      refine .inl ⟨all, ?_⟩
      have none : s.places.count (.awake .top) = 0 := by
        rw [List.count_eq_zero]
        intro mem
        cases all _ mem
      have order := sound.order
      have length := congrArg List.length order
      rw [List.length_map, List.length_append] at length
      have same : s.rest.submitted.length = s.rest.begun.length + queue.length := length
      obtain rfl : queue = [] := List.eq_nil_of_length_eq_zero (by omega)
      rw [List.append_nil] at order
      show s.view.executed.Perm (s.view.submitted.map Submission.task)
      rw [order]
      exact ran
    · have all : ∀ p ∈ s.places, p = .awake .left := by
        intro p mem
        rcases rest_place sound draining stuck mem with rfl | left
        · exact absurd mem sleeps
        · exact left
      refine .inr ⟨all, ran, fun r mem => ?_⟩
      rw [Bool.eq_false_iff]
      intro owed
      -- nobody is there to run what is owed
      obtain ⟨w, mem, stays⟩ := draining.owed r mem owed
      obtain ⟨p, here, rfl⟩ := List.mem_map.mp mem
      rw [all p here] at stays
      exact stays rfl

theorem asleep_ne {pre post : List Place} {w : Worker} :
    [Place.asleep] ≠ pre ++ .awake w :: post := by
  intro same
  have mem : Place.awake w ∈ [Place.asleep] := by
    rw [same]
    exact List.mem_append_right _ List.mem_cons_self
  cases List.mem_singleton.mp mem

/-- A single worker that sleeps does nothing by itself. -/
theorem asleep_rests {s : SleepState} (place : s.places = [.asleep]) {ev : SleepEvent}
    {r : Option SleepState} (own : Own ev) : ¬ SleepStep s ev r := by
  intro step
  cases step with
  | enter here => exact asleep_ne (place.symm.trans here)
  | skip here => exact asleep_ne (place.symm.trans here)
  | finish _ here => exact asleep_ne (place.symm.trans here)
  | callRunTask here => exact asleep_ne (place.symm.trans here)
  | callAppendTask here _ => exact asleep_ne (place.symm.trans here)
  | takeTask here _ => exact asleep_ne (place.symm.trans here)
  | takeNull here _ => exact asleep_ne (place.symm.trans here)
  | finishTask here => exact asleep_ne (place.symm.trans here)
  | leave here _ _ => exact asleep_ne (place.symm.trans here)
  | sleep here _ _ => exact asleep_ne (place.symm.trans here)
  | appendTask _ _ => exact own.elim
  | runTask => exact own.elim
  | stop _ => exact own.elim
  | wake _ => exact own.elim

/-- The only worker sleeps and is woken up for a task; it executes it and sleeps again. -/
theorem pool_rests_one :
    ∃ events more s t, ((sleepSys 1).restrict UnqueuedIn).Run events s ∧
      ((((sleepSys 1).restrict UnqueuedIn).restrict fun _ => Own).starting s).Run more t ∧
      more.length ≤ s.work ∧ s.work = 4 ∧
      (∀ p ∈ t.places, p = .asleep) ∧ t.rest.executed.Perm [0] := by
  let M := (sleepSys 1).restrict UnqueuedIn
  have run₀ : M.Run [] _ := .init rfl
  have run₁ : M.Run _ _ := .step run₀ ⟨by exact trivial, @SleepStep.enter _ [] _ _ rfl⟩
  have run₂ : M.Run _ _ := .step run₁ ⟨by exact trivial, @SleepStep.sleep _ [] _ rfl rfl rfl⟩
  have run₃ : M.Run _ _ := .step run₂ ⟨by exact trivial, @SleepStep.runTask _ 0⟩
  have run₄ : M.Run _ _ := .step run₃ ⟨by exact rfl,
    @SleepStep.appendTask _ 0 [.awake .top] List.mem_cons_self (@Signal.one [] [])⟩
  have start : ∀ {events s}, M.Run events s → ((M.restrict fun _ => Own).starting s).Run [] s :=
    fun _ => .init rfl
  have rest₁ := (start run₄).step
    ⟨by exact trivial, by exact trivial, @SleepStep.takeTask _ [] [] 0 rfl rfl⟩
  have rest₂ := rest₁.step
    ⟨by exact trivial, by exact trivial, @SleepStep.finishTask _ [] [] 0 rfl⟩
  have rest₃ := rest₂.step
    ⟨by exact trivial, by exact trivial, @SleepStep.sleep _ [] [] rfl rfl rfl⟩
  have bounded := (pool_rests Nat.one_pos run₄).1 _ _ rest₃
  obtain ⟨sleeps, executed⟩ | ⟨left, _⟩ :=
    (pool_rests Nat.one_pos (run₄.followed rest₃)).2 fun _ _ own => asleep_rests rfl own
  · exact ⟨_, _, _, _, run₄, rest₃, bounded, rfl, sleeps, executed⟩
  · cases left _ List.mem_cons_self

end Runs

end GpBase.Pool

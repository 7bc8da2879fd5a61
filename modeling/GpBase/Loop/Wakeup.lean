import GpBase.Lib.Run
import GpBase.Loop.Model

/-!
# No wakeup is lost

A task that is queued while the loop handles events is run before the next
poll, and a task queued by a pending task or from outside is announced through
the eventfd. A task queued on the loop thread from a timer callback, or before
`gp_loop_run`, is not announced: the poll that follows at once can block on it.
-/

namespace GpBase.Loop

open GpBase.Lib GpBase.Conn

/-- A loop made by `create_gp_loop`. -/
def loopSys : TSys LoopState LoopEvent where
  init s :=
    s.loop = ⟨false, false, false, [], 0⟩ ∧ s.phase = .idle ∧ s.inFlight = 0 ∧ s.quitting = 0
  step := LoopStep

/-- The phases in which `do_pending_functors` still comes before the next poll,
or announces what it leaves behind. -/
def Phase.servesPending : Phase → Bool
  | .events _ | .pending _ _ => true
  | .idle | .timers | .polling => false

/-- The steps that cannot lose a wakeup: the loop thread queues tasks while it
handles events or pending tasks, or when the eventfd is written already, and no
thread is halfway through `gp_queue_in_loop` when a poll begins. -/
def Announced (s : LoopState) : LoopEvent → Prop
  | .queue _ => s.phase.servesPending = true ∨ 0 < s.loop.wakeupFd
  | .forceClose c _ =>
    s.closable c = true → s.phase.servesPending = true ∨ 0 < s.loop.wakeupFd
  | .poll => s.inFlight = 0
  | _ => True

/-- The eventfd has been written and not read, or is about to be written. -/
def Awake (s : LoopState) : Prop := 0 < s.loop.wakeupFd ∨ 0 < s.inFlight

def Phase.isPending : Phase → Bool
  | .pending _ _ => true
  | .idle | .timers | .polling | .events _ => false

/-- The queued tasks that will not have been run when the next poll begins. -/
def leftBehind (s : LoopState) : List PendingTask :=
  match s.phase with
  | .events _ => []
  | .pending (some _) (some _) => []
  -- the pass stops after its current task
  | .pending (some _) none => s.loop.pendingList.tail
  | .idle | .timers | .polling | .pending none _ => s.loop.pendingList

theorem leftBehind_events {s : LoopState} {w : Bool} (handling : s.phase = .events w) :
    leftBehind s = [] := by
  rw [leftBehind, handling]

theorem Phase.eq_events {p : Phase} (serving : p.servesPending = true)
    (notPending : p.isPending = false) : ∃ w, p = .events w := by
  cases p with
  | events w => exact ⟨w, rfl⟩
  | pending it tmp => cases notPending
  | idle => cases serving
  | timers => cases serving
  | polling => cases serving

/-! ## The front of the queue -/

/-- A pass works on the front of the queue, with the task behind it saved. -/
def AtFront (s : LoopState) : Prop :=
  ∀ t tmp, s.phase = .pending (some t) tmp →
    ∃ rest, s.loop.pendingList = t :: rest ∧ ∀ u, tmp = some u → rest.head? = some u

theorem AtFront.of_not_pending {s : LoopState} (outside : s.phase.isPending = false) :
    AtFront s := by
  intro t tmp running
  rw [running] at outside
  cases outside

/-- Tasks may be added behind. -/
theorem AtFront.grow {s s' : LoopState} (front : AtFront s) (phase : s'.phase = s.phase)
    {added : List PendingTask} (list : s'.loop.pendingList = s.loop.pendingList ++ added) :
    AtFront s' := by
  intro t tmp running
  obtain ⟨rest, shape, second⟩ := front t tmp (phase ▸ running)
  refine ⟨rest ++ added, by rw [list, shape, List.cons_append], ?_⟩
  intro u hu
  rw [List.head?_append, second u hu, Option.some_or]

theorem atFront_enterPending (s : LoopState) : AtFront s.enterPending := by
  intro t tmp running
  obtain ⟨head, second⟩ : first s.loop.pendingList = some t ∧
      next s.loop.pendingList (some t) = tmp := by
    have := Phase.pending.inj running
    exact ⟨this.1, this.1 ▸ this.2⟩
  cases list : s.loop.pendingList with
  | nil => simp [first, list] at head
  | cons t' rest =>
      obtain rfl : t' = t := by simpa [first, list] using head
      refine ⟨rest, list, ?_⟩
      intro u hu
      simpa [next, list, hu] using second

/-- The task that has been run leaves the queue. -/
theorem Finishes.list {s s' : LoopState} {t : PendingTask} {tmp : Option PendingTask}
    {rest : List PendingTask} (finishes : Finishes s t tmp s')
    (shape : s.loop.pendingList = t :: rest) : s'.loop.pendingList = rest := by
  rw [finishes.loop]
  show List.erase _ t = rest
  rw [shape, List.erase_cons_head]

theorem Finishes.phase_eq {s s' : LoopState} {t : PendingTask} {tmp : Option PendingTask}
    {rest : List PendingTask} (finishes : Finishes s t tmp s')
    (shape : s.loop.pendingList = t :: rest) : s'.phase = .pending tmp (next rest tmp) := by
  rw [finishes.phase, shape, List.erase_cons_head]

/-- After a task, the pass goes on with the task behind it or ends. -/
theorem AtFront.finishTask {s s' : LoopState} {t : PendingTask} {tmp : Option PendingTask}
    (front : AtFront s) (running : s.phase = .pending (some t) tmp)
    (finishes : Finishes s t tmp s') : AtFront s' := by
  obtain ⟨rest, shape, second⟩ := front t tmp running
  intro t' tmp' running'
  rw [finishes.phase_eq shape] at running'
  obtain ⟨rfl, rfl⟩ := Phase.pending.inj running'
  cases rest with
  | nil => simp at second
  | cons u rest =>
      obtain rfl : u = t' := by simpa using second
      exact ⟨rest, finishes.list shape, fun v hv => by simpa [next] using hv⟩

/-! ## The invariant -/

/-- The invariant: a pass works on the front of the queue, and what it leaves
behind has been announced. -/
structure Served (s : LoopState) : Prop where
  flag : s.loop.callingPendingFunctors = s.phase.isPending
  front : ∀ t tmp, s.phase = .pending (some t) tmp →
    ∃ rest, s.loop.pendingList = t :: rest ∧ ∀ u, tmp = some u → rest.head? = some u
  awake : leftBehind s ≠ [] → Awake s

/-! ## Steps inside a phase -/

theorem wakeup_pos (l : GpLoop) : 0 < l.wakeup.wakeupFd := by
  unfold GpLoop.wakeup
  split
  · simp
  · simp only
    omega

/-- Appending to the queue can only add to what is left behind. -/
theorem leftBehind_append {s s' : LoopState} (served : Served s) (phase : s'.phase = s.phase)
    {added : List PendingTask} (list : s'.loop.pendingList = s.loop.pendingList ++ added) :
    leftBehind s' = [] ∨ leftBehind s' = leftBehind s ++ added := by
  unfold leftBehind
  rw [phase, list]
  cases hp : s.phase with
  | idle => exact .inr rfl
  | timers => exact .inr rfl
  | polling => exact .inr rfl
  | events w => exact .inl rfl
  | pending it tmp =>
      cases it with
      | none => exact .inr rfl
      | some t =>
          cases tmp with
          | none =>
              obtain ⟨rest, shape, _⟩ := served.front t none hp
              exact .inr (by rw [shape]; rfl)
          | some u => exact .inl rfl

/-- A step that stays in its phase, may append tasks and keeps the loop awake. -/
theorem Served.grow {s s' : LoopState} (served : Served s) (phase : s'.phase = s.phase)
    (calling : s'.loop.callingPendingFunctors = s.loop.callingPendingFunctors)
    (added : List PendingTask) (list : s'.loop.pendingList = s.loop.pendingList ++ added)
    (kept : Awake s → Awake s')
    (announced : added ≠ [] → leftBehind s' = [] ∨ Awake s') : Served s' where
  flag := by rw [calling, phase, served.flag]
  front := AtFront.grow served.front phase list
  awake := by
    intro behind
    by_cases new : added = []
    · rcases leftBehind_append served phase list with none | same
      · exact absurd none behind
      · rw [same, new, List.append_nil] at behind
        exact kept (served.awake behind)
    · exact (announced new).resolve_left behind

/-- `gp_queue_in_loop` on the loop thread, under the condition of `Announced`. -/
theorem Served.gpQueueInLoop {s s' : LoopState} {t : PendingTask} (served : Served s)
    (announced : s.phase.servesPending = true ∨ 0 < s.loop.wakeupFd)
    (called : s.gpQueueInLoop t = some s') : Served s' := by
  obtain ⟨s₁, appends, rfl⟩ := gpQueueInLoop_spec called
  split
  · -- in `do_pending_functors`: the task is announced
    refine served.grow appends.phase (by rw [appends.loop]; rfl) [t] (by rw [appends.loop]; rfl)
      ?_ ?_
    · intro _
      exact .inl (wakeup_pos _)
    · intro _
      exact .inr (.inl (wakeup_pos _))
  · rename_i silent
    have written : s₁.loop.wakeupFd = s.loop.wakeupFd := by rw [appends.loop]
    refine served.grow appends.phase (by rw [appends.loop]) [t] (by rw [appends.loop]) ?_ ?_
    · unfold Awake
      rw [written, appends.inFlight]
      exact id
    intro _
    rcases announced with serving | before
    · -- only the events phase is left, which leaves nothing behind
      have notPending : s.phase.isPending = false := by
        rw [← served.flag]
        exact Bool.eq_false_iff.mpr silent
      obtain ⟨w, handling⟩ := Phase.eq_events serving notPending
      exact .inl (leftBehind_events (appends.phase.trans handling))
    · exact .inr (.inl (written ▸ before))

theorem Served.onConn {s : LoopState} (served : Served s) (c : Nat) (f : ConnRec → ConnRec) :
    Served (s.onConn c f) :=
  served.grow rfl rfl [] (List.append_nil _).symm id fun h => absurd rfl h

theorem Served.outsideAppend {s s' : LoopState} {t : PendingTask} (served : Served s)
    (called : s.outsideAppend t = some s') : Served s' := by
  obtain ⟨s₁, appends, rfl⟩ := outsideAppend_spec called
  have awake : Awake { s₁ with inFlight := s.inFlight + 1 } := .inr (Nat.succ_pos _)
  exact served.grow appends.phase (by rw [appends.loop]) [t] (by rw [appends.loop])
    (fun _ => awake) fun _ => .inr awake

theorem Served.awaken {s s' : LoopState} (served : Served s) (phase : s'.phase = s.phase)
    (calling : s'.loop.callingPendingFunctors = s.loop.callingPendingFunctors)
    (list : s'.loop.pendingList = s.loop.pendingList) (awake : Awake s') : Served s' :=
  served.grow phase calling [] (by rw [list, List.append_nil]) (fun _ => awake)
    fun h => absurd rfl h

/-! ## Steps from phase to phase -/

theorem Served.enterPending {s : LoopState} : Served s.enterPending where
  flag := rfl
  front := atFront_enterPending s
  awake := by
    -- everything that is queued will be run
    intro behind
    exfalso
    apply behind
    cases list : s.loop.pendingList with
    | nil => simp [leftBehind, LoopState.enterPending, list, first]
    | cons t rest =>
        cases rest with
        | nil => simp [leftBehind, LoopState.enterPending, list, first, next]
        | cons u rest => simp [leftBehind, LoopState.enterPending, list, first, next]

theorem Served.finishTask {s s' : LoopState} {t : PendingTask} {tmp : Option PendingTask}
    (served : Served s) (running : s.phase = .pending (some t) tmp)
    (finishes : Finishes s t tmp s') : Served s' := by
  obtain ⟨rest, shape, second⟩ := served.front t tmp running
  have phase := finishes.phase_eq shape
  have awake : Awake s → Awake s' := by
    unfold Awake
    rw [finishes.loop, finishes.inFlight]
    exact id
  constructor
  · rw [phase, finishes.loop]
    have flag := served.flag
    rw [running] at flag
    exact flag
  · exact AtFront.finishTask served.front running finishes
  · intro behind
    apply awake
    apply served.awake
    rw [leftBehind, running]
    rw [leftBehind, phase, finishes.list shape] at behind
    cases tmp with
    | none => simpa [shape] using behind
    | some u =>
        -- the pass goes on and has just looked behind `u`: nothing is left behind
        exfalso
        apply behind
        obtain ⟨rest', rfl⟩ := List.head?_eq_some_iff.mp (second u rfl)
        cases rest' with
        | nil => simp [next]
        | cons v rest' => simp [next]

theorem Served.leavePending {s : LoopState} {tmp : Option PendingTask} (served : Served s)
    (done : s.phase = .pending none tmp) : Served s.leavePending := by
  have awake : s.loop.pendingList ≠ [] → Awake s := by
    have := served.awake
    rwa [leftBehind, done] at this
  unfold LoopState.leavePending
  constructor
  · by_cases quit : s.loop.quit = true <;> simp [quit, Phase.isPending]
  · intro t tmp' running
    by_cases quit : s.loop.quit = true <;> simp [quit] at running
  · intro behind
    apply awake
    by_cases quit : s.loop.quit = true <;> simpa [leftBehind, quit] using behind

/-- A move between two phases outside `do_pending_functors`. -/
theorem Served.move {s s' : LoopState} (served : Served s)
    (calling : s'.loop.callingPendingFunctors = s.loop.callingPendingFunctors)
    (outside : s.phase.isPending = false) (outside' : s'.phase.isPending = false)
    (awake : leftBehind s' ≠ [] → Awake s') : Served s' where
  flag := by rw [calling, served.flag, outside, outside']
  front := AtFront.of_not_pending outside'
  awake := awake

/-! ## Whole runs -/

theorem Served.step {s s' : LoopState} {ev : LoopEvent} (served : Served s)
    (announced : Announced s ev) (stepped : LoopStep s ev s') : Served s' := by
  cases stepped with
  | run idle =>
      refine served.move rfl (by rw [idle]; rfl) rfl ?_
      intro behind
      apply served.awake
      rw [leftBehind, idle]
      exact behind
  | queue _ _ called => exact served.gpQueueInLoop announced called
  | forceClose _ _ _ called =>
      obtain ⟨closable, queued⟩ | ⟨_, rfl⟩ := connForceClose_cases called
      · exact (served.onConn _ _).gpQueueInLoop (announced closable) queued
      · exact served
  | quit _ => exact served.grow rfl rfl [] (List.append_nil _).symm id fun h => absurd rfl h
  | outsideAppend _ called => exact served.outsideAppend called
  | outsideForceClose _ _ called =>
      obtain ⟨_, appended⟩ | ⟨_, rfl⟩ := outsideForceClose_cases called
      · exact (served.onConn _ _).outsideAppend appended
      · exact served
  | outsideWakeup _ => exact served.awaken rfl rfl rfl (.inl (wakeup_pos _))
  | outsideQuit => exact served.grow rfl rfl [] (List.append_nil _).symm id fun h => absurd rfl h
  | outsideQuitWakeup _ => exact served.awaken rfl rfl rfl (.inl (wakeup_pos _))
  | connState => exact served.onConn _ _
  | poll timers =>
      refine served.move rfl (by rw [timers]; rfl) rfl ?_
      intro behind
      apply served.awake
      rw [leftBehind, timers]
      exact behind
  | pollReturn polling _ => exact served.move rfl (by rw [polling]; rfl) rfl (absurd rfl)
  | wakeupRead handling => exact served.move rfl (by rw [handling]; rfl) rfl (absurd rfl)
  | enterPending _ => exact .enterPending
  | finishTask running finished => exact served.finishTask running (finishTask_spec finished)
  | leavePending done => exact served.leavePending done

/-- **No lost wakeup.** In every run in which the loop thread queues tasks only
while it handles events or pending tasks (or with the eventfd already written),
a poll that is entered with tasks queued finds the eventfd written and unread. -/
theorem poll_announced {events : List LoopEvent} {s s' : LoopState}
    (run : (loopSys.restrict Announced).Run events s)
    (entered : (loopSys.restrict Announced).step s .poll s')
    (queued : s'.loop.pendingList ≠ []) : 0 < s'.loop.wakeupFd := by
  have served : Served s := by
    refine run.invariant (I := fun _ s => Served s) ?_ ?_
    · rintro s ⟨fresh, idle, _⟩
      refine ⟨by rw [fresh, idle]; rfl, ?_, ?_⟩
      · intro t tmp running
        rw [idle] at running
        cases running
      · intro behind
        rw [leftBehind, idle, fresh] at behind
        exact absurd rfl behind
    · rintro events s ev t _ served ⟨announced, stepped⟩
      exact served.step announced stepped
  obtain ⟨noneHalfway, stepped⟩ := entered
  cases stepped with
  | poll timers =>
      have awake : Awake s := served.awake (by rw [leftBehind, timers]; exact queued)
      rcases awake with written | halfway
      · exact written
      · rw [show s.inFlight = 0 from noneHalfway] at halfway
        exact absurd halfway (Nat.lt_irrefl 0)

/-- A fresh loop, with connection 0 established. -/
def freshLoop : LoopState where
  loop := ⟨false, false, false, [], 0⟩
  conns := fun _ => ⟨.connected, 1, true⟩
  phase := .idle
  inFlight := 0
  quitting := 0

/-- A task of connection 0. -/
def someTask : PendingTask := ⟨1, .conn, some 0⟩

/-- A task queued from outside is announced to the poll. -/
theorem poll_announced_outside :
    ∃ s s', (loopSys.restrict Announced).Run [.run, .outsideAppend someTask, .outsideWakeup] s ∧
      (loopSys.restrict Announced).step s .poll s' ∧ s'.loop.pendingList ≠ [] ∧
      0 < s'.loop.wakeupFd := by
  let M := loopSys.restrict Announced
  let s₁ : LoopState :=
    { freshLoop with loop := { freshLoop.loop with looping := true }, phase := .timers }
  let s₂ : LoopState := { s₁.onConn 0 .connRefInc with
    loop := { s₁.loop with pendingList := [someTask] }, inFlight := 1 }
  let s₃ := s₂.outsideWakeup
  have run₀ : M.Run [] freshLoop := .init ⟨rfl, rfl, rfl, rfl⟩
  have run₁ : M.Run [.run] s₁ := .step run₀ ⟨trivial, .run rfl⟩
  have run₂ : M.Run [.run, .outsideAppend someTask] s₂ :=
    .step run₁ ⟨trivial, .outsideAppend (by intro u hu; cases hu) rfl⟩
  have run₃ : M.Run [.run, .outsideAppend someTask, .outsideWakeup] s₃ :=
    .step run₂ ⟨trivial, .outsideWakeup Nat.one_pos⟩
  have entered : M.step s₃ .poll { s₃ with phase := .polling } := ⟨rfl, .poll rfl⟩
  have queued : s₃.loop.pendingList ≠ [] := by decide
  exact ⟨s₃, _, run₃, entered, queued, poll_announced run₃ entered queued⟩

/-- A timer callback that closes a connection: the poll is entered with the task
queued and the eventfd silent. -/
theorem poll_blocks_on_timer_task :
    ∃ s s', loopSys.Run [.run, .forceClose 0 someTask] s ∧ loopSys.step s .poll s' ∧
      s'.loop.pendingList ≠ [] ∧ s'.loop.wakeupFd = 0 := by
  let s₁ : LoopState :=
    { freshLoop with loop := { freshLoop.loop with looping := true }, phase := .timers }
  let s₂ : LoopState :=
    { (s₁.onConn 0 fun r => { r with state := .disconnecting }).onConn 0 .connRefInc with
      loop := { s₁.loop with pendingList := [someTask] } }
  have run₀ : loopSys.Run [] freshLoop := .init ⟨rfl, rfl, rfl, rfl⟩
  have run₁ : loopSys.Run [.run] s₁ := .step run₀ (.run rfl)
  have run₂ : loopSys.Run [.run, .forceClose 0 someTask] s₂ :=
    .step run₁ (.forceClose rfl (by intro u hu; cases hu) ⟨rfl, rfl⟩ rfl)
  exact ⟨_, _, run₂, .poll rfl, by decide, by decide⟩

end GpBase.Loop

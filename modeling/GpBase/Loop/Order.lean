import GpBase.Loop.Wakeup

/-!
# Pending tasks run once and in order

A journal beside the loop records which tasks were queued and which were run. In
every run of the loop thread in which each task names a connection, the tasks run so
far, followed by those that still wait, are the tasks queued so far; a pass runs at
least what was queued when it began, and what it leaves behind keeps its order for the
next pass. A task without a connection, such as that of `start_server`, is lost with
the program: `gp_queue_in_loop` follows its null pointer.
-/

namespace GpBase.Loop

open GpBase.Lib

/-- The steps that the loop thread itself takes. -/
def LoopEvent.onLoopThread : LoopEvent → Bool
  | .outsideAppend _ | .outsideForceClose _ _ | .outsideWakeup | .outsideQuit
  | .outsideQuitWakeup => false
  | _ => true

/-- The tasks that a step passes to `gp_queue_in_loop`. -/
def queuedBy (s : LoopState) : LoopEvent → List PendingTask
  | .queue t => [t]
  | .forceClose c t => if s.closable c then [t] else []
  | _ => []

/-- The task whose `pending_func` is called as `do_pending_functors` comes to it,
where `after` is the phase that the step ends in. -/
def begunBy (ev : LoopEvent) (after : Phase) : List PendingTask :=
  match ev, after with
  | .enterPending, .pending (some t) _ => [t]
  | .finishTask, .pending (some t) _ => [t]
  | _, _ => []

structure Journal where
  state : LoopState
  queued : List PendingTask
  executed : List PendingTask
  /-- how many tasks had been queued when the last pass began -/
  due : Nat
  /-- a null pointer has been followed -/
  crashed : Bool

/-- What is written down about a step. -/
def Journal.record (j : Journal) (ev : LoopEvent) (after : LoopState) : Journal where
  state := after
  queued := j.queued ++ queuedBy j.state ev
  executed := j.executed ++ begunBy ev after.phase
  due := if ev = .enterPending then j.queued.length else j.due
  crashed := j.crashed

/-- What is written down about a call of `gp_queue_in_loop` that crashes. -/
def Journal.crash (j : Journal) (t : PendingTask) : Journal :=
  { j with queued := j.queued ++ [t], crashed := true }

inductive JournalStep : Journal → LoopEvent → Journal → Prop
  | own {j ev after} : j.crashed = false → ev.onLoopThread → LoopStep j.state ev after →
      JournalStep j ev (j.record ev after)
  | crash {j t} : j.crashed = false → j.state.phase.inCallback → Fresh j.state t →
      j.state.gpQueueInLoop t = none → JournalStep j (.queue t) (j.crash t)

/-- A loop made by `create_gp_loop`, with nothing written down. -/
def journalSys : TSys Journal LoopEvent where
  init j := loopSys.init j.state ∧ j.queued = [] ∧ j.executed = [] ∧ j.due = 0 ∧
    j.crashed = false
  step := JournalStep

/-- The queued tasks whose `pending_func` has not been called; the running task
stays on the list until it has returned. -/
def waiting (s : LoopState) : List PendingTask :=
  match s.phase with
  | .pending (some _) _ => s.loop.pendingList.tail
  | _ => s.loop.pendingList

/-- At any moment the tasks whose `pending_func` was called, followed by those that wait, are
the tasks that were queued. When a pass has come to its end it has run all that was queued
before it began; of the tasks queued during it, it has run the first ones, and the others are
what the list holds, in their order. -/
def Journal.Ordered (j : Journal) : Prop :=
  j.executed ++ waiting j.state = j.queued ∧
    ∀ tmp, j.state.phase = .pending none tmp →
      j.due ≤ j.executed.length ∧
      j.queued.drop j.due = j.executed.drop j.due ++ j.state.loop.pendingList

theorem waiting_idle {s : LoopState} (outside : s.phase.isPending = false) :
    waiting s = s.loop.pendingList := by
  unfold waiting
  split
  · rename_i running
    rw [running] at outside
    cases outside
  · rfl

theorem waiting_grow {s s' : LoopState} (front : AtFront s) (phase : s'.phase = s.phase)
    {added : List PendingTask} (list : s'.loop.pendingList = s.loop.pendingList ++ added) :
    waiting s' = waiting s ++ added := by
  unfold waiting
  rw [phase, list]
  split
  · rename_i t tmp running
    obtain ⟨rest, shape, _⟩ := front t tmp running
    rw [shape]
    rfl
  · rfl

/-- The invariant: nothing is lost, repeated or overtaken, and once a pass has no
task saved it has run all that was queued when it began. -/
structure InOrder (j : Journal) : Prop where
  front : AtFront j.state
  order : j.executed ++ waiting j.state = j.queued
  early : j.due ≤ j.queued.length
  done : ∀ it tmp, j.state.phase = .pending it tmp → it = none ∨ tmp = none →
    j.due ≤ j.executed.length

/-! ## Steps -/

/-- A step inside a phase, which may queue tasks. -/
theorem InOrder.grow {j j' : Journal} (inv : InOrder j)
    (phase : j'.state.phase = j.state.phase) {added : List PendingTask}
    (list : j'.state.loop.pendingList = j.state.loop.pendingList ++ added)
    (queued : j'.queued = j.queued ++ added) (executed : j'.executed = j.executed)
    (due : j'.due = j.due) : InOrder j' where
  front := inv.front.grow phase list
  order := by
    rw [executed, waiting_grow inv.front phase list, ← List.append_assoc, inv.order, queued]
  early := by
    rw [due, queued, List.length_append]
    exact inv.early.trans (Nat.le_add_right _ _)
  done := by
    rw [phase, due, executed]
    exact inv.done

/-- A move between two phases outside `do_pending_functors`, and the end of it. -/
theorem InOrder.move {j j' : Journal} (inv : InOrder j)
    (idle : waiting j.state = j.state.loop.pendingList)
    (outside : j'.state.phase.isPending = false)
    (list : j'.state.loop.pendingList = j.state.loop.pendingList)
    (queued : j'.queued = j.queued) (executed : j'.executed = j.executed)
    (due : j'.due = j.due) : InOrder j' where
  front := .of_not_pending outside
  order := by rw [executed, waiting_idle outside, list, ← idle, inv.order, queued]
  early := by
    rw [due, queued]
    exact inv.early
  done := by
    intro it tmp running
    rw [running] at outside
    cases outside

theorem InOrder.enterPending {j j' : Journal} (inv : InOrder j) {w : Bool}
    (handling : j.state.phase = .events w) (state : j'.state = j.state.enterPending)
    (queued : j'.queued = j.queued)
    (executed : j'.executed = j.executed ++ begunBy .enterPending j'.state.phase)
    (due : j'.due = j.queued.length) : InOrder j' := by
  have before : j.executed ++ j.state.loop.pendingList = j.queued := by
    rw [← inv.order, waiting_idle (by rw [handling]; rfl)]
  have phase : j'.state.phase = .pending (first j.state.loop.pendingList)
      (next j.state.loop.pendingList (first j.state.loop.pendingList)) := by
    rw [state]
    rfl
  have list : j'.state.loop.pendingList = j.state.loop.pendingList := by
    rw [state]
    rfl
  have order : j'.executed ++ waiting j'.state = j'.queued := by
    rw [executed, queued, ← before, waiting, phase, list]
    cases j.state.loop.pendingList with
    | nil => simp [first, begunBy]
    | cons t rest => simp [first, begunBy]
  refine ⟨state ▸ atFront_enterPending _, order, by rw [due, queued], ?_⟩
  -- without a second task, all that was queued has been begun
  intro it tmp running last
  rw [phase] at running
  obtain ⟨rfl, rfl⟩ := Phase.pending.inj running
  rw [due, executed, phase, ← before]
  cases list' : j.state.loop.pendingList with
  | nil => simp [first, begunBy]
  | cons t rest =>
      cases rest with
      | nil => simp [first, begunBy]
      | cons u rest => simp [list', first, next] at last

theorem InOrder.finishTask {j j' : Journal} (inv : InOrder j) {t : PendingTask}
    {tmp : Option PendingTask} (running : j.state.phase = .pending (some t) tmp)
    (finishes : Finishes j.state t tmp j'.state) (queued : j'.queued = j.queued)
    (executed : j'.executed = j.executed ++ begunBy .finishTask j'.state.phase)
    (due : j'.due = j.due) : InOrder j' := by
  obtain ⟨rest, shape, second⟩ := inv.front t tmp running
  have before : j.executed ++ rest = j.queued := by
    rw [← inv.order, waiting, running, shape]
    rfl
  have phase := finishes.phase_eq shape
  have list := finishes.list shape
  refine ⟨inv.front.finishTask running finishes, ?_, ?_, ?_⟩
  · rw [executed, queued, ← before, waiting, phase, list]
    cases tmp with
    | none => simp [begunBy]
    | some u =>
        obtain ⟨rest', rfl⟩ := List.head?_eq_some_iff.mp (second u rfl)
        simp [begunBy]
  · rw [due, queued]
    exact inv.early
  · intro it tmp' running' last
    rw [phase] at running'
    obtain ⟨rfl, rfl⟩ := Phase.pending.inj running'
    rw [due, executed, phase]
    cases tmp with
    | none =>
        have done := inv.done _ _ running (.inr rfl)
        simpa [begunBy] using done
    | some u =>
        -- `u` was the last one queued
        obtain ⟨rest', rfl⟩ := List.head?_eq_some_iff.mp (second u rfl)
        obtain rfl : rest' = [] := by simpa [next] using last
        have early := inv.early
        rw [← before] at early
        exact early

/-- The queue grows by what the call queues. -/
theorem connForceClose_grow {s s' : LoopState} {c : Nat} {t : PendingTask}
    (called : s.connForceClose c t = some s') :
    s'.phase = s.phase ∧
      s'.loop.pendingList = s.loop.pendingList ++ queuedBy s (.forceClose c t) := by
  simp only [queuedBy]
  obtain ⟨closable, queued⟩ | ⟨closed, rfl⟩ := connForceClose_cases called
  · rw [if_pos closable]
    obtain ⟨phase, list, _⟩ := gpQueueInLoop_keeps queued
    exact ⟨phase, list⟩
  · rw [if_neg closed]
    exact ⟨rfl, (List.append_nil _).symm⟩

theorem InOrder.step {j : Journal} {ev : LoopEvent} {after : LoopState} (inv : InOrder j)
    (own : ev.onLoopThread) (stepped : LoopStep j.state ev after) :
    InOrder (j.record ev after) := by
  have queued : j.queued ++ [] = j.queued := List.append_nil _
  have executed : j.executed ++ [] = j.executed := List.append_nil _
  cases stepped with
  | outsideAppend _ _ => cases own
  | outsideForceClose _ _ _ => cases own
  | outsideWakeup _ => cases own
  | outsideQuit => cases own
  | outsideQuitWakeup _ => cases own
  | run idle => exact inv.move (waiting_idle (by rw [idle]; rfl)) rfl rfl queued executed rfl
  | poll timers => exact inv.move (waiting_idle (by rw [timers]; rfl)) rfl rfl queued executed rfl
  | pollReturn polling _ =>
      exact inv.move (waiting_idle (by rw [polling]; rfl)) rfl rfl queued executed rfl
  | wakeupRead handling =>
      exact inv.move (waiting_idle (by rw [handling]; rfl)) rfl rfl queued executed rfl
  | leavePending done =>
      have idle : waiting j.state = j.state.loop.pendingList := by rw [waiting, done]
      have outside : j.state.leavePending.phase.isPending = false := by
        unfold LoopState.leavePending
        by_cases quit : j.state.loop.quit = true <;> simp [quit, Phase.isPending]
      exact inv.move idle outside rfl queued executed rfl
  | queue _ _ called =>
      obtain ⟨phase, list, _⟩ := gpQueueInLoop_keeps called
      exact inv.grow phase list rfl executed rfl
  | forceClose _ _ _ called =>
      obtain ⟨phase, list⟩ := connForceClose_grow called
      exact inv.grow phase list rfl executed rfl
  | quit _ => exact inv.grow rfl (List.append_nil _).symm rfl executed rfl
  | connState => exact inv.grow rfl (List.append_nil _).symm rfl executed rfl
  | enterPending handling => exact inv.enterPending handling rfl queued rfl rfl
  | finishTask running finished =>
      exact inv.finishTask running (finishTask_spec finished) queued rfl rfl

/-- A task that the loop thread has queued names a connection. -/
theorem conn_of_queue {s s' : LoopState} {t : PendingTask} (stepped : LoopStep s (.queue t) s') :
    t.conn ≠ none := by
  cases stepped with
  | queue _ _ called =>
      obtain ⟨_, appends, _⟩ := gpQueueInLoop_spec called
      exact Option.ne_none_iff_isSome.mpr appends.named

/-! ## Whole runs -/

theorem InOrder.ordered {j : Journal} (inv : InOrder j) : j.Ordered := by
  refine ⟨inv.order, ?_⟩
  intro tmp ended
  have due := inv.done none tmp ended (.inl rfl)
  refine ⟨due, ?_⟩
  have order := inv.order
  rw [waiting, ended] at order
  rw [← order, List.drop_append_of_le_length due]

/-- Until the program crashes all is in order; when it has crashed, over a task without a
connection, that task is missing. -/
def Recorded (events : List LoopEvent) (j : Journal) : Prop :=
  (j.crashed = false ∧ InOrder j ∧ ∀ t, LoopEvent.queue t ∈ events → t.conn ≠ none) ∨
    (j.crashed = true ∧ (∃ t, LoopEvent.queue t ∈ events ∧ t.conn = none) ∧
      (j.executed ++ waiting j.state).length < j.queued.length)

theorem Recorded.step {events : List LoopEvent} {j j' : Journal} {ev : LoopEvent}
    (recorded : Recorded events j) (stepped : JournalStep j ev j') :
    Recorded (events ++ [ev]) j' := by
  obtain ⟨running, inv, named⟩ | ⟨crashed, _⟩ := recorded
  · cases stepped with
    | own _ own stepped =>
        refine .inl ⟨running, inv.step own stepped, ?_⟩
        intro t mem
        rcases List.mem_append.mp mem with before | last
        · exact named t before
        · obtain rfl := List.mem_singleton.mp last
          exact conn_of_queue stepped
    | @crash t _ _ _ failed =>
        refine .inr ⟨rfl, ⟨t, by simp, gpQueueInLoop_eq_none.mp failed⟩, ?_⟩
        show (j.executed ++ waiting j.state).length < (j.queued ++ [t]).length
        rw [inv.order, List.length_append]
        exact Nat.lt_succ_self _
  · -- the run has ended
    cases stepped with
    | own running => exact absurd (running.symm.trans crashed) Bool.false_ne_true
    | crash running => exact absurd (running.symm.trans crashed) Bool.false_ne_true

theorem recorded_run {events : List LoopEvent} {j : Journal} (run : journalSys.Run events j) :
    Recorded events j := by
  refine run.invariant (I := Recorded) ?_ fun _ _ _ _ _ recorded => recorded.step
  rintro ⟨state, queued, executed, due, crashed⟩ ⟨⟨fresh, idle, _⟩, rfl, rfl, rfl, rfl⟩
  have outside : state.phase.isPending = false := by
    rw [idle]
    rfl
  refine .inl ⟨rfl, ⟨.of_not_pending outside, ?_, Nat.le_refl 0, fun _ _ _ _ => Nat.le_refl 0⟩,
    fun t mem => absurd mem List.not_mem_nil⟩
  show [] ++ waiting state = []
  rw [waiting_idle outside, fresh]
  rfl

/-- **Once and in order.** In every run, the tasks run once and in the order in which they
were queued, up to this moment, if and only if each task passed to `gp_queue_in_loop` has
named a connection. -/
theorem tasks_in_order_iff {events : List LoopEvent} {j : Journal}
    (run : journalSys.Run events j) :
    j.Ordered ↔ ∀ t, LoopEvent.queue t ∈ events → t.conn ≠ none := by
  obtain ⟨_, inv, named⟩ | ⟨_, ⟨t, mem, null⟩, missing⟩ := recorded_run run
  · exact iff_of_true inv.ordered named
  · refine iff_of_false ?_ fun named => named t mem null
    rintro ⟨order, _⟩
    rw [order] at missing
    exact Nat.lt_irrefl _ missing

/-- The journal of a fresh loop. -/
def freshJournal : Journal := ⟨freshLoop, [], [], 0, false⟩

/-- A task that a running task queues. -/
def laterTask : PendingTask := ⟨2, .conn, some 0⟩

/-- A pass with one task, which queues another: the second one stays. -/
theorem tasks_in_order_left :
    ∃ events j tmp, journalSys.Run events j ∧ j.state.phase = .pending none tmp ∧
      j.executed = [someTask] ∧ j.state.loop.pendingList = [laterTask] ∧ j.Ordered := by
  let s₁ : LoopState :=
    { freshLoop with loop := { freshLoop.loop with looping := true }, phase := .timers }
  let s₂ : LoopState := { s₁ with phase := .polling }
  let s₃ : LoopState := { s₂ with phase := .events false }
  let s₄ : LoopState :=
    { s₃.onConn 0 .connRefInc with loop := { s₃.loop with pendingList := [someTask] } }
  let s₅ := s₄.enterPending
  let s₆ : LoopState := { s₅.onConn 0 .connRefInc with
    loop := GpLoop.wakeup { s₅.loop with pendingList := [someTask, laterTask] } }
  let s₇ : LoopState := { s₆.onConn 0 .connRefDec with
    loop := { s₆.loop with pendingList := [laterTask] }, phase := .pending none none }
  let j₁ := freshJournal.record .run s₁
  let j₂ := j₁.record .poll s₂
  let j₃ := j₂.record (.pollReturn false) s₃
  let j₄ := j₃.record (.queue someTask) s₄
  let j₅ := j₄.record .enterPending s₅
  let j₆ := j₅.record (.queue laterTask) s₆
  have run₀ : journalSys.Run [] freshJournal := .init ⟨⟨rfl, rfl, rfl, rfl⟩, rfl, rfl, rfl, rfl⟩
  have run₁ : journalSys.Run _ j₁ := .step run₀ (.own rfl rfl (.run rfl))
  have run₂ : journalSys.Run _ j₂ := .step run₁ (.own rfl rfl (.poll rfl))
  have run₃ : journalSys.Run _ j₃ := .step run₂ (.own rfl rfl (.pollReturn rfl (by decide)))
  have run₄ : journalSys.Run _ j₄ :=
    .step run₃ (.own rfl rfl (.queue rfl (by intro u hu; cases hu) rfl))
  have run₅ : journalSys.Run _ j₅ := .step run₄ (.own rfl rfl (.enterPending rfl))
  have fresh : Fresh s₅ laterTask := by
    intro u hu
    obtain rfl : u = someTask := List.mem_singleton.mp hu
    decide
  have run₆ : journalSys.Run _ j₆ := .step run₅ (.own rfl rfl (.queue rfl fresh rfl))
  have run₇ : journalSys.Run _ (j₆.record .finishTask s₇) :=
    .step run₆ (.own rfl rfl (.finishTask rfl rfl))
  refine ⟨_, _, none, run₇, rfl, rfl, rfl, (tasks_in_order_iff run₇).mpr ?_⟩
  intro t mem
  simp only [List.nil_append, List.cons_append, List.mem_cons, reduceCtorEq, false_or,
    LoopEvent.queue.injEq, List.not_mem_nil, or_false] at mem
  rcases mem with rfl | rfl
  · exact Option.some_ne_none 0
  · exact Option.some_ne_none 0

/-- The task of `start_server`. -/
def startTask : PendingTask := ⟨1, .serverStart, none⟩

/-- `gp_queue_in_loop` crashes over the task of `start_server`, and it is never run. -/
theorem start_task_crashes :
    ∃ j, journalSys.Run [.queue startTask] j ∧ j.crashed = true ∧ j.queued = [startTask] ∧
      j.executed = [] ∧ ¬ j.Ordered := by
  have run₀ : journalSys.Run [] freshJournal := .init ⟨⟨rfl, rfl, rfl, rfl⟩, rfl, rfl, rfl, rfl⟩
  have run₁ : journalSys.Run [.queue startTask] (freshJournal.crash startTask) :=
    .step run₀ (.crash rfl rfl (by intro u hu; cases hu) rfl)
  refine ⟨_, run₁, rfl, rfl, rfl, ?_⟩
  rintro ⟨order, _⟩
  cases order

end GpBase.Loop

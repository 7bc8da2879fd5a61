import Mathlib.Data.List.Count
import GpBase.Loop.Wakeup

/-!
# The loop stops when it is told to

`gp_loop_quit` sets a flag that `gp_loop_run` reads once a round, and then writes to
the eventfd when it is called from another thread; in between the loop may enter the
poll and wait there. Called while events or pending tasks are handled it needs no
wakeup: the flag is read before the next poll. Called from a timer callback it does:
the poll that follows at once can block with the flag set. Once the flag is set and no
call from outside has still to write, the loop runs through the rest of its round
without waiting for anything and returns, whatever the other threads and the callbacks
do in the meantime.
-/

namespace GpBase.Loop

open GpBase.Lib GpBase.Conn

/-- No timer callback calls `gp_loop_quit`. -/
def QuitHeard (s : LoopState) : LoopEvent → Prop
  | .quit => s.phase ≠ .timers
  | _ => True

/-- The steps of the loop itself that wait for nothing: in `epoll_wait` the eventfd
has to be readable. -/
def LoopEvent.own : LoopEvent → Bool
  | .poll | .pollReturn true | .wakeupRead | .enterPending | .finishTask | .leavePending => true
  | _ => false

/-- The calls that may queue a task. -/
def LoopEvent.queues : LoopEvent → Bool
  | .queue _ | .forceClose _ _ | .outsideAppend _ | .outsideForceClose _ _ => true
  | _ => false

/-- How many steps of its own the loop can take to the end of its round. -/
def LoopState.toGo (s : LoopState) : Nat :=
  match s.phase with
  | .idle => 0
  | .timers => s.loop.pendingList.length + 5
  | .polling => s.loop.pendingList.length + 4
  | .events true => s.loop.pendingList.length + 3
  | .events false => s.loop.pendingList.length + 2
  | .pending (some _) _ => s.loop.pendingList.length + 1
  | .pending none _ => 1

/-- A poll is still to come in this round, or is going on. -/
def Phase.beforePoll : Phase → Bool
  | .timers | .polling => true
  | .idle | .events _ | .pending _ _ => false

/-- The eventfd is readable, or a `gp_loop_quit` from outside is about to write to it. -/
def Roused (s : LoopState) : Prop := 0 < s.loop.wakeupFd ∨ 0 < s.quitting

/-- The invariant: a pass works on the front of the queue, whose tasks name their
connections, the flag `looping` says whether `gp_loop_run` has returned, and a poll that
could miss that the loop is to stop is or will be ended. -/
structure Heard (s : LoopState) : Prop where
  front : AtFront s
  named : ∀ t ∈ s.loop.pendingList, t.conn.isSome
  looping : s.loop.looping = true ↔ s.phase ≠ .idle
  roused : s.loop.quit = true → s.phase.beforePoll = true → Roused s

/-! ## Steps inside a phase -/

/-- A step that stays in its phase and may append a task. -/
theorem Heard.grow {s s' : LoopState} (heard : Heard s) (phase : s'.phase = s.phase)
    (looping : s'.loop.looping = s.loop.looping) (added : List PendingTask)
    (list : s'.loop.pendingList = s.loop.pendingList ++ added)
    (named : ∀ t ∈ added, t.conn.isSome)
    (roused : s'.loop.quit = true → s.phase.beforePoll = true →
      (s.loop.quit = true → Roused s) → Roused s') : Heard s' where
  front := heard.front.grow phase list
  named := by
    intro t mem
    rw [list] at mem
    rcases List.mem_append.mp mem with old | new
    · exact heard.named t old
    · exact named t new
  looping := by rw [looping, phase, heard.looping]
  roused := by
    intro set before
    rw [phase] at before
    exact roused set before fun already => heard.roused already before

/-- A step that stays in its phase and leaves the queue alone. -/
theorem Heard.stay {s s' : LoopState} (heard : Heard s) (phase : s'.phase = s.phase)
    (looping : s'.loop.looping = s.loop.looping)
    (list : s'.loop.pendingList = s.loop.pendingList)
    (roused : s'.loop.quit = true → s.phase.beforePoll = true →
      (s.loop.quit = true → Roused s) → Roused s') : Heard s' :=
  heard.grow phase looping [] (by rw [list, List.append_nil]) nofun roused

/-- A call that queues a task: it may also write to the eventfd, and sets no flag. -/
theorem Heard.queued {s s₁ s' : LoopState} {t : PendingTask} (heard : Heard s)
    (appends : Appends s t s₁) (phase : s'.phase = s₁.phase)
    (list : s'.loop.pendingList = s₁.loop.pendingList)
    (looping : s'.loop.looping = s₁.loop.looping) (quit : s'.loop.quit = s₁.loop.quit)
    (quitting : s'.quitting = s₁.quitting)
    (written : s'.loop.wakeupFd = s₁.loop.wakeupFd ∨ 0 < s'.loop.wakeupFd) : Heard s' := by
  refine heard.grow (phase.trans appends.phase) (by rw [looping, appends.loop]) [t]
    (by rw [list, appends.loop]) (by simpa using appends.named) ?_
  intro set _ roused
  rw [quit, appends.loop] at set
  rcases written with same | written
  · rcases roused set with readable | halfway
    · refine .inl ?_
      rw [same, appends.loop]
      exact readable
    · refine .inr ?_
      rw [quitting, appends.quitting]
      exact halfway
  · exact .inl written

theorem Heard.gpQueueInLoop {s s' : LoopState} {t : PendingTask} (heard : Heard s)
    (called : s.gpQueueInLoop t = some s') : Heard s' := by
  obtain ⟨s₁, appends, rfl⟩ := gpQueueInLoop_spec called
  split
  · exact heard.queued appends rfl rfl rfl rfl rfl (.inr (wakeup_pos _))
  · exact heard.queued appends rfl rfl rfl rfl rfl (.inl rfl)

theorem Heard.onConn {s : LoopState} (heard : Heard s) (c : Nat) (f : ConnRec → ConnRec) :
    Heard (s.onConn c f) :=
  heard.stay rfl rfl rfl fun set _ roused => roused set

theorem Heard.outsideAppend {s s' : LoopState} {t : PendingTask} (heard : Heard s)
    (called : s.outsideAppend t = some s') : Heard s' := by
  obtain ⟨s₁, appends, rfl⟩ := outsideAppend_spec called
  exact heard.queued appends rfl rfl rfl rfl rfl (.inl rfl)

/-! ## Steps from phase to phase -/

/-- A move of a running loop to a phase behind the poll, which takes no task but one that
has been run from the queue. -/
theorem Heard.move {s s' : LoopState} (heard : Heard s) (running : s.phase ≠ .idle)
    (front : AtFront s') (list : s'.loop.pendingList ⊆ s.loop.pendingList)
    (looping : s'.loop.looping = s.loop.looping)
    (running' : s'.phase ≠ .idle) (after : s'.phase.beforePoll = false) : Heard s' where
  front := front
  named := fun t mem => heard.named t (list mem)
  looping := by
    rw [looping, heard.looping]
    exact ⟨fun _ => running', fun _ => running⟩
  roused := by
    intro _ before
    rw [after] at before
    cases before

theorem Heard.leavePending {s : LoopState} (heard : Heard s) : Heard s.leavePending := by
  unfold LoopState.leavePending
  cases quit : s.loop.quit with
  | true =>
      refine ⟨AtFront.of_not_pending rfl, heard.named, by simp, ?_⟩
      intro _ before
      cases before
  | false =>
      refine ⟨AtFront.of_not_pending rfl, heard.named, by simp, ?_⟩
      intro set
      exact absurd (quit.symm.trans set) (by simp)

theorem Heard.step {s s' : LoopState} {ev : LoopEvent} (heard : Heard s)
    (allowed : QuitHeard s ev) (stepped : LoopStep s ev s') : Heard s' := by
  cases stepped with
  | run idle =>
      refine ⟨AtFront.of_not_pending rfl, heard.named, by simp, ?_⟩
      intro set
      exact absurd set (by simp)
  | queue _ _ called => exact heard.gpQueueInLoop called
  | forceClose _ _ _ called =>
      obtain ⟨_, queued⟩ | ⟨_, rfl⟩ := connForceClose_cases called
      · exact (heard.onConn _ _).gpQueueInLoop queued
      · exact heard
  | quit callback =>
      refine heard.stay rfl rfl rfl ?_
      intro _ before
      -- of the phases before the poll only the timers call back
      exfalso
      cases phase : s.phase with
      | timers => exact allowed phase
      | polling =>
          rw [phase] at callback
          cases callback
      | idle =>
          rw [phase] at before
          cases before
      | events w =>
          rw [phase] at before
          cases before
      | pending it tmp =>
          rw [phase] at before
          cases before
  | outsideAppend _ called => exact heard.outsideAppend called
  | outsideForceClose _ _ called =>
      obtain ⟨_, appended⟩ | ⟨_, rfl⟩ := outsideForceClose_cases called
      · exact (heard.onConn _ _).outsideAppend appended
      · exact heard
  | outsideWakeup _ => exact heard.stay rfl rfl rfl fun _ _ _ => .inl (wakeup_pos _)
  | outsideQuit => exact heard.stay rfl rfl rfl fun _ _ _ => .inr (Nat.succ_pos _)
  | outsideQuitWakeup _ => exact heard.stay rfl rfl rfl fun _ _ _ => .inl (wakeup_pos _)
  | connState => exact heard.onConn _ _
  | poll timers =>
      refine ⟨AtFront.of_not_pending rfl, heard.named, ?_, ?_⟩
      · show s.loop.looping = true ↔ _
        rw [heard.looping, timers]
        simp
      · intro set _
        apply heard.roused set
        rw [timers]
        rfl
  | pollReturn polling _ =>
      exact heard.move (by rw [polling]; simp) (AtFront.of_not_pending rfl)
        (List.Subset.refl _) rfl (by simp) rfl
  | wakeupRead handling =>
      exact heard.move (by rw [handling]; simp) (AtFront.of_not_pending rfl)
        (List.Subset.refl _) rfl (by simp) rfl
  | enterPending handled =>
      exact heard.move (by rw [handled]; simp) (atFront_enterPending s)
        (List.Subset.refl _) rfl (by simp [LoopState.enterPending]) rfl
  | @finishTask _ t tmp running finished =>
      have finishes := finishTask_spec finished
      refine heard.move (by rw [running]; simp) (heard.front.finishTask running finishes) ?_
        (by rw [finishes.loop]) (by rw [finishes.phase]; simp) (by rw [finishes.phase]; rfl)
      rw [finishes.loop]
      exact List.erase_subset
  | leavePending _ => exact heard.leavePending

theorem run_heard {events : List LoopEvent} {s : LoopState}
    (run : (loopSys.restrict QuitHeard).Run events s) : Heard s := by
  refine run.invariant (I := fun _ s => Heard s) ?_ ?_
  · rintro s ⟨fresh, idle, _⟩
    refine ⟨AtFront.of_not_pending (by rw [idle]; rfl), ?_, ?_, ?_⟩
    · rw [fresh]
      exact nofun
    · rw [fresh, idle]
      simp
    · rw [fresh]
      intro set
      cases set
  · rintro _ s ev t _ heard ⟨allowed, stepped⟩
    exact heard.step allowed stepped

/-! ## The rest of the round -/

/-- Only `gp_loop_run` takes the flag back. -/
theorem quit_kept {s s' : LoopState} {ev : LoopEvent} (set : s.loop.quit = true)
    (notRun : ev ≠ .run) (stepped : LoopStep s ev s') : s'.loop.quit = true := by
  cases stepped with
  | run _ => exact absurd rfl notRun
  | queue _ _ called =>
      obtain ⟨_, _, kept⟩ := gpQueueInLoop_keeps called
      exact kept.trans set
  | forceClose _ _ _ called =>
      obtain ⟨_, queued⟩ | ⟨_, rfl⟩ := connForceClose_cases called
      · obtain ⟨_, _, kept⟩ := gpQueueInLoop_keeps queued
        exact kept.trans set
      · exact set
  | quit _ => rfl
  | outsideAppend _ called =>
      obtain ⟨_, _, kept⟩ := outsideAppend_keeps called
      exact kept.trans set
  | outsideForceClose _ _ called =>
      obtain ⟨_, appended⟩ | ⟨_, rfl⟩ := outsideForceClose_cases called
      · obtain ⟨_, _, kept⟩ := outsideAppend_keeps appended
        exact kept.trans set
      · exact set
  | outsideQuit => rfl
  | finishTask _ finished =>
      rw [(finishTask_spec finished).loop]
      exact set
  | outsideWakeup _ => exact set
  | outsideQuitWakeup _ => exact set
  | connState => exact set
  | poll _ => exact set
  | pollReturn _ _ => exact set
  | wakeupRead _ => exact set
  | enterPending _ => exact set
  | leavePending _ => exact set

/-- A task more in the queue is a step more at most. -/
theorem toGo_append {s s' : LoopState} (added : List PendingTask) (phase : s'.phase = s.phase)
    (list : s'.loop.pendingList = s.loop.pendingList ++ added) :
    s'.toGo ≤ s.toGo + added.length := by
  unfold LoopState.toGo
  rw [phase, list, List.length_append]
  split <;> omega

/-- With the flag set, each own step of the loop is a step to the end, and nothing but a
queued task puts the end off. -/
theorem toGo_step {s s' : LoopState} {ev : LoopEvent} (heard : Heard s)
    (set : s.loop.quit = true) (notRun : ev ≠ .run) (stepped : LoopStep s ev s') :
    s'.toGo + ev.own.toNat ≤ s.toGo + ev.queues.toNat := by
  cases stepped with
  | run _ => exact absurd rfl notRun
  | queue _ _ called =>
      obtain ⟨phase, list, _⟩ := gpQueueInLoop_keeps called
      exact toGo_append _ phase list
  | forceClose _ _ _ called =>
      obtain ⟨_, queued⟩ | ⟨_, rfl⟩ := connForceClose_cases called
      · obtain ⟨phase, list, _⟩ := gpQueueInLoop_keeps queued
        exact toGo_append (s := s) _ phase list
      · exact Nat.le_succ _
  | quit _ => exact Nat.le_refl _
  | outsideAppend _ called =>
      obtain ⟨phase, list, _⟩ := outsideAppend_keeps called
      exact toGo_append _ phase list
  | outsideForceClose _ _ called =>
      obtain ⟨_, appended⟩ | ⟨_, rfl⟩ := outsideForceClose_cases called
      · obtain ⟨phase, list, _⟩ := outsideAppend_keeps appended
        exact toGo_append (s := s) _ phase list
      · exact Nat.le_succ _
  | outsideWakeup _ => exact Nat.le_refl _
  | outsideQuit => exact Nat.le_refl _
  | outsideQuitWakeup _ => exact Nat.le_refl _
  | connState => exact Nat.le_refl _
  | poll timers =>
      have before : s.toGo = s.loop.pendingList.length + 5 := by rw [LoopState.toGo, timers]
      rw [before]
      exact Nat.le_refl _
  | @pollReturn wakeup polling _ =>
      have before : s.toGo = s.loop.pendingList.length + 4 := by rw [LoopState.toGo, polling]
      rw [before]
      cases wakeup with
      | true => exact Nat.le_refl _
      | false =>
          show s.loop.pendingList.length + 2 ≤ _
          omega
  | wakeupRead handling =>
      have before : s.toGo = s.loop.pendingList.length + 3 := by rw [LoopState.toGo, handling]
      rw [before]
      exact Nat.le_refl _
  | enterPending handled =>
      have before : s.toGo = s.loop.pendingList.length + 2 := by rw [LoopState.toGo, handled]
      rw [before]
      show s.enterPending.toGo + 1 ≤ _
      unfold LoopState.toGo LoopState.enterPending
      dsimp only
      cases first s.loop.pendingList with
      | none =>
          show 1 + 1 ≤ _
          omega
      | some t => exact Nat.le_refl _
  | @finishTask _ t tmp running finished =>
      have finishes := finishTask_spec finished
      obtain ⟨rest, shape, _⟩ := heard.front t tmp running
      have before : s.toGo = rest.length + 2 := by
        rw [LoopState.toGo, running, shape]
        rfl
      rw [before]
      show s'.toGo + 1 ≤ _
      unfold LoopState.toGo
      rw [finishes.phase_eq shape, finishes.list shape]
      cases tmp with
      | none =>
          show 1 + 1 ≤ _
          omega
      | some u => exact Nat.le_refl _
  | @leavePending tmp done =>
      have before : s.toGo = 1 := by rw [LoopState.toGo, done]
      rw [before]
      unfold LoopState.leavePending LoopState.toGo
      rw [set]
      exact Nat.le_refl _

/-- A loop that is told to stop can always go on, until it has returned. -/
theorem Heard.stuck {s : LoopState} (heard : Heard s) (set : s.loop.quit = true)
    (written : s.quitting = 0)
    (stuck : ∀ ev r, ev.own = true → ¬ LoopStep s ev r) : s.phase = .idle := by
  cases phase : s.phase with
  | idle => rfl
  | timers => exact absurd (.poll phase) (stuck .poll _ rfl)
  | polling =>
      have roused : Roused s := heard.roused set (by rw [phase]; rfl)
      have readable : 0 < s.loop.wakeupFd := roused.resolve_right (by rw [written]; simp)
      exact absurd (.pollReturn phase fun _ => readable) (stuck (.pollReturn true) _ rfl)
  | events w =>
      cases w with
      | true => exact absurd (.wakeupRead phase) (stuck .wakeupRead _ rfl)
      | false => exact absurd (.enterPending phase) (stuck .enterPending _ rfl)
  | pending it tmp =>
      cases it with
      | some t =>
          obtain ⟨rest, shape, _⟩ := heard.front t tmp phase
          obtain ⟨s', finished⟩ :=
            finishTask_isSome (s := s) tmp (heard.named t (by rw [shape]; simp))
          exact absurd (.finishTask phase finished) (stuck .finishTask _ rfl)
      | none => exact absurd (.leavePending phase) (stuck .leavePending _ rfl)

/-- After its return the loop does nothing by itself. -/
theorem idle_rests {s r : LoopState} {ev : LoopEvent} (idle : s.phase = .idle)
    (own : ev.own = true) : ¬ LoopStep s ev r := by
  intro stepped
  cases stepped with
  | poll timers => simp [idle] at timers
  | pollReturn polling _ => simp [idle] at polling
  | wakeupRead handling => simp [idle] at handling
  | enterPending handled => simp [idle] at handled
  | finishTask running _ => simp [idle] at running
  | leavePending done => simp [idle] at done
  | _ => cases own

/-- **The loop stops when it is told to.** In every run in which no timer callback calls
`gp_loop_quit`, from any state with the flag set and until `gp_loop_run` is called again:
the loop takes at most `toGo` own steps more than there are tasks queued in the meantime,
and whenever no `gp_loop_quit` from outside has still to write to the eventfd, a poll finds
it readable and a loop that can take no own step has returned. -/
theorem quit_stops {events more : List LoopEvent} {s t : LoopState}
    (run : (loopSys.restrict QuitHeard).Run events s) (set : s.loop.quit = true)
    (rest : (((loopSys.restrict QuitHeard).restrict fun _ ev => ev ≠ .run).starting s).Run more t) :
    more.countP LoopEvent.own ≤ s.toGo + more.countP LoopEvent.queues ∧
    (t.quitting = 0 →
      (t.phase = .polling → 0 < t.loop.wakeupFd) ∧
      ((∀ ev r, ev.own = true → ¬ LoopStep t ev r) →
        t.phase = .idle ∧ t.loop.looping = false)) := by
  obtain ⟨heard, still, bounded⟩ : Heard t ∧ t.loop.quit = true ∧
      more.countP LoopEvent.own + t.toGo ≤ s.toGo + more.countP LoopEvent.queues := by
    refine rest.invariant (I := fun more t => Heard t ∧ t.loop.quit = true ∧
      more.countP LoopEvent.own + t.toGo ≤ s.toGo + more.countP LoopEvent.queues) ?_ ?_
    · rintro _ rfl
      exact ⟨run_heard run, set, by simp⟩
    · rintro more u ev v _ ⟨heard, still, bounded⟩ ⟨notRun, allowed, stepped⟩
      refine ⟨heard.step allowed stepped, quit_kept still notRun stepped, ?_⟩
      have less := toGo_step heard still notRun stepped
      rw [List.countP_append, List.countP_append, List.countP_singleton, List.countP_singleton]
      cases own : ev.own <;> cases queues : ev.queues <;> simp [own, queues] at less ⊢ <;> omega
  refine ⟨by omega, ?_⟩
  intro written
  refine ⟨?_, ?_⟩
  · intro polling
    have roused : Roused t := heard.roused still (by rw [polling]; rfl)
    exact roused.resolve_right (by rw [written]; simp)
  · intro stuck
    have idle := heard.stuck still written stuck
    refine ⟨idle, ?_⟩
    rw [← Bool.not_eq_true, heard.looping]
    exact fun running => running idle

/-- Another thread stops a loop that enters its poll before the eventfd is written. -/
theorem quit_stops_outside :
    ∃ s t, (loopSys.restrict QuitHeard).Run [.run, .outsideQuit] s ∧
      (((loopSys.restrict QuitHeard).restrict fun _ ev => ev ≠ .run).starting s).Run
        [.poll, .outsideQuitWakeup, .pollReturn true, .wakeupRead, .enterPending,
          .leavePending] t ∧
      5 ≤ s.toGo ∧ t.phase = .idle ∧ t.loop.looping = false := by
  let M := loopSys.restrict QuitHeard
  let s₁ : LoopState :=
    { freshLoop with loop := { freshLoop.loop with looping := true }, phase := .timers }
  let s₂ := s₁.outsideQuit
  let N := (M.restrict fun _ ev => ev ≠ .run).starting s₂
  have run₀ : M.Run [] freshLoop := .init ⟨rfl, rfl, rfl, rfl⟩
  have run₁ : M.Run [.run] s₁ := .step run₀ ⟨trivial, .run rfl⟩
  have run₂ : M.Run [.run, .outsideQuit] s₂ := .step run₁ ⟨trivial, .outsideQuit⟩
  have rest₀ : N.Run [] s₂ := .init rfl
  have rest₁ : N.Run _ _ := .step rest₀ ⟨by decide, by exact trivial, .poll rfl⟩
  have rest₂ : N.Run _ _ :=
    .step rest₁ ⟨by decide, by exact trivial, .outsideQuitWakeup Nat.one_pos⟩
  have rest₃ : N.Run _ _ :=
    .step rest₂ ⟨by decide, by exact trivial, @LoopStep.pollReturn _ true rfl fun _ => by decide⟩
  have rest₄ : N.Run _ _ := .step rest₃ ⟨by decide, by exact trivial, .wakeupRead rfl⟩
  have rest₅ : N.Run _ _ := .step rest₄ ⟨by decide, by exact trivial, .enterPending rfl⟩
  have rest₆ : N.Run _ _ := .step rest₅ ⟨by decide, by exact trivial, .leavePending rfl⟩
  obtain ⟨bounded, stops⟩ := quit_stops run₂ rfl rest₆
  exact ⟨s₂, _, run₂, rest₆, bounded, (stops rfl).2 fun ev r => idle_rests rfl⟩

/-- A timer callback that calls `gp_loop_quit`: the poll is entered with the flag set and
the eventfd silent. -/
theorem poll_blocks_on_timer_quit :
    ∃ s s', loopSys.Run [.run, .quit] s ∧ loopSys.step s .poll s' ∧
      s'.loop.quit = true ∧ s'.loop.wakeupFd = 0 := by
  let s₁ : LoopState :=
    { freshLoop with loop := { freshLoop.loop with looping := true }, phase := .timers }
  have run₀ : loopSys.Run [] freshLoop := .init ⟨rfl, rfl, rfl, rfl⟩
  have run₁ : loopSys.Run [.run] s₁ := .step run₀ (.run rfl)
  have run₂ : loopSys.Run [.run, .quit] _ := .step run₁ (.quit rfl)
  exact ⟨_, _, run₂, .poll rfl, rfl, rfl⟩

end GpBase.Loop

import GpBase.Timer.Callback

/-!
# The sleep of the loop

Translation of the timer part of `gp_loop_run` in `gp_loop.c`: run the timers, poll with
the distance to `next_timer` as the timeout, read the clock, and let handlers and pending
tasks make their calls. `gp_timer_del` does not compute `next_timer` again, so that it may
stand for a timer that is not pending any more; when the clock passes it, the timeout is
negative and the loop sleeps for ever.
-/

namespace GpBase.Timer

open GpBase.Lib GpTimerBase

/-- `polling` is set from `poller_poll` to `gp_loop_update_time`. -/
structure TimedLoop where
  base : GpTimerBase
  clock : Nat
  polling : Bool

/-- `loop->time`. -/
def TimedLoop.time (s : TimedLoop) : Nat := s.clock % 2 ^ 32

inductive LoopEvent
  | /-- made by a handler, by a pending task or before `gp_loop_run` -/
    call (c : LoopCall)
  | /-- `gp_loop_run_timers` and `poller_poll`, with what the callbacks do and the timeout -/
    poll (script : Script) (timeout : Int)
  | /-- `gp_loop_update_time` -/
    wake (advance : Nat)

/-- What `poller_poll` receives: `next_timer - loop->time` as an `int32_t`. -/
def pollTimeout (b : GpTimerBase) (time : Nat) : Int :=
  int32 (uint32 ((b.nextTimer : Int) - time))

/-- A loop that is created at tick `j₀`. The clock does not jump. -/
def loopSys (j₀ : Nat) : TSys TimedLoop LoopEvent where
  init s := s = ⟨createGpTimerBase (j₀ % 2 ^ 32), j₀, false⟩
  step s ev t :=
    match ev with
    | .call c => s.polling = false ∧ c.Legal s.time s.base ∧
        ∃ b, c.exec s.time s.base = .ok b ∧ t = { s with base := b }
    | .poll script timeout => s.polling = false ∧ ∃ fuel rounds b passes,
        gpRunTimers fuel (script.callback s.time) s.time s.base rounds = .ok (b, passes) ∧
          timeout = pollTimeout b s.time ∧ t = { s with base := b, polling := true }
    | .wake advance => s.polling = true ∧ advance < 2 ^ 31 ∧
        t = { s with clock := s.clock + advance, polling := false }

/-- The timer is on a list of the wheel. -/
def IsPending (b : GpTimerBase) (id : TimerId) (t : GpTimerList) : Prop :=
  b.timers id = some t ∧ t.node ≠ none

/-- Without timer `id` no timer is pending, or one that expires no later than it does. -/
def LeavesEarliest (b : GpTimerBase) (id : TimerId) : Prop :=
  ∀ t, IsPending b id t → (∀ id' t', IsPending b id' t' → id' = id) ∨
    ∃ id' t', id' ≠ id ∧ IsPending b id' t' ∧
      uint32 ((t'.expires : Int) - b.timerJiffies) ≤ uint32 ((t.expires : Int) - b.timerJiffies)

/-- No stop takes away the one timer that expires first while others are pending, and
callbacks spare the walks that they are called from. -/
def Careful (s : TimedLoop) : LoopEvent → Prop
  | .call (.stop id) => LeavesEarliest s.base id
  | .poll script _ => script.Sparing s.time
  | _ => True

/-! ## Pending timers -/

section Waiting

variable {b : GpTimerBase} {J T : Nat} {rate : TimerId → Option Nat} {P : Pending}
  {cover : List TimerId} {id : TimerId} {t : GpTimerList}

theorem Ready.due_of_pending (r : Ready b J rate P cover) (pending : IsPending b id t) :
    ∃ E, P.due id = some E ∧ t.expires = E % 2 ^ 32 ∧ J ≤ E := by
  obtain ⟨live, node⟩ := pending
  have armed := r.placed.armed id t live
  cases due : P.due id with
  | none =>
      rw [due] at armed
      exact absurd armed node
  | some E =>
      rw [due] at armed
      exact ⟨E, rfl, armed.1, (r.due_le due).1⟩

theorem Ready.pending_of_due (r : Ready b J rate P cover) {E : Nat} (due : P.due id = some E) :
    ∃ t, IsPending b id t := by
  obtain ⟨t, l, i, live, node, _⟩ := r.placed.armed_of_due due
  exact ⟨t, live, by rw [node]; simp⟩

/-- Stopping another timer than the first leaves `next_timer` right. -/
theorem Ready.earliest_disarm (r : Ready b J rate P cover) {v : Nat} (earliest : Earliest P v)
    (close : ∀ x E, P.due x = some E → E < J + 2 ^ 32) (leaves : LeavesEarliest b id) :
    Earliest (P.disarm id) v := by
  intro x E due first
  rw [Pending.disarm_due] at due first
  have apart : x ≠ id := by
    rintro rfl
    rw [Function.update_self] at due
    cases due
  rw [Function.update_of_ne apart] at due
  have others : ∀ y E', y ≠ id → P.due y = some E' → E ≤ E' := by
    intro y E' other due'
    exact first y E' (by rw [Function.update_of_ne other]; exact due')
  refine earliest x E due ?_
  intro y E' due'
  by_cases same : y = id
  · subst same
    obtain ⟨t, pending⟩ := r.pending_of_due due'
    obtain ⟨E₁, due₁, expires₁, low₁⟩ := r.due_of_pending pending
    rw [due'] at due₁
    cases due₁
    rcases leaves t pending with alone | ⟨z, t', other, pending', before⟩
    · obtain ⟨t', pending'⟩ := r.pending_of_due due
      exact absurd (alone x t' pending') apart
    · obtain ⟨E₂, due₂, expires₂, low₂⟩ := r.due_of_pending pending'
      have le := others z E₂ other due₂
      have close₁ := close y E' due'
      have close₂ := close z E₂ due₂
      rw [expires₁, expires₂, r.jiffies] at before
      unfold uint32 at before
      omega
  · exact others y E' same due'

/-- A legal call returns, and keeps `next_timer` right if it is careful. -/
theorem Waiting.call (w : Waiting J T b) (reach : J ≤ T + 1) (close : T < J + 2 ^ 31)
    {c : LoopCall} (legal : c.Legal (T % 2 ^ 32) b) :
    ∃ b', c.exec (T % 2 ^ 32) b = .ok b' ∧
      ((∀ id, c = .stop id → LeavesEarliest b id) → Waiting J T b') := by
  obtain ⟨rate, P, cover, r, earliest, near⟩ := w
  obtain ⟨b', rate', P', cover', executed, called⟩ :=
    r.placed.call r.jiffies (fun _ _ _ _ place => place) reach close legal
  refine ⟨b', executed, ?_⟩
  intro leaves
  have ready : Ready b' J rate' P' cover' := ⟨called.placed, called.jiffies⟩
  refine ⟨rate', P', cover', ready, ?_, ?_⟩
  · cases c with
    | stop id =>
        have wide : ∀ x E, P.due x = some E → E < J + 2 ^ 32 := by
          intro x E due
          have := near x E due
          omega
        have kept := r.earliest_disarm earliest wide (leaves id rfl)
        obtain ⟨_, _, same⟩ := called.stopped rfl
        intro x E due first
        rw [same]
        rw [called.due_eq] at due first
        exact kept x E due first
    | start id interval repeatFlag =>
        exact ready.refreshed (LoopCall.exec_refreshed (T := T) executed (by simp [LoopCall.deadline]))
    | mod id expires interval repeatFlag =>
        exact ready.refreshed (LoopCall.exec_refreshed (T := T) executed (by simp [LoopCall.deadline]))
  · exact called.near legal near

/-- The timeout when the timers have been run: the distance to the first expiry. -/
theorem Waiting.timeout (w : Waiting (T + 1) T b) (pending : IsPending b id t) :
    0 ≤ pollTimeout b (T % 2 ^ 32) ∧
      pollTimeout b (T % 2 ^ 32) ≤ uint32 ((t.expires : Int) - (T % 2 ^ 32 : Nat)) := by
  classical
  obtain ⟨rate, P, cover, r, earliest, near⟩ := w
  obtain ⟨E, due, expires, low⟩ := r.due_of_pending pending
  have some : ∃ E, ∃ x, P.due x = Option.some E := ⟨E, id, due⟩
  obtain ⟨x, first⟩ := Nat.find_spec some
  have least : ∀ y E', P.due y = Option.some E' → Nat.find some ≤ E' :=
    fun y E' due' => Nat.find_min' some ⟨y, due'⟩
  have next := earliest x _ first least
  have le := least id E due
  have low₀ := (r.due_le first).1
  have high := near id E due
  generalize Nat.find some = E₀ at *
  have timeout : pollTimeout b (T % 2 ^ 32) = (E₀ : Int) - T := by
    unfold pollTimeout
    have distance : uint32 ((b.nextTimer : Int) - (T % 2 ^ 32 : Nat)) = E₀ - T := by
      rw [next, uint32]
      omega
    rw [distance, int32_of_range] <;> omega
  have distance : uint32 ((t.expires : Int) - (T % 2 ^ 32 : Nat)) = E - T := by
    rw [expires, uint32]
    omega
  rw [timeout, distance]
  omega

end Waiting

/-! ## Whole runs -/

/-- The wheel is in step with the clock. -/
structure InTime (s : TimedLoop) : Prop where
  waiting : ∃ J, Waiting J s.clock s.base ∧ J ≤ s.clock + 1 ∧ s.clock < J + 2 ^ 31 ∧
    (s.polling = true → J = s.clock + 1)

section Runs

variable {j₀ : Nat} {events : List LoopEvent} {s t : TimedLoop}

theorem InTime.start (j₀ : Nat) : InTime ⟨createGpTimerBase (j₀ % 2 ^ 32), j₀, false⟩ := by
  have ready := ready_createGpTimerBase j₀
  refine ⟨j₀, ⟨_, _, [], ready, ?_, ?_⟩, Nat.le_succ _, by dsimp only; omega, ?_⟩
  · intro id E due
    cases due
  · intro id E due
    cases due
  · intro polling
    cases polling

theorem InTime.step (h : InTime s) {ev : LoopEvent} (careful : Careful s ev)
    (step : (loopSys j₀).step s ev t) : InTime t := by
  obtain ⟨J, waiting, reach, close, polled⟩ := h.waiting
  cases ev with
  | call c =>
      obtain ⟨awake, legal, b, executed, rfl⟩ := step
      obtain ⟨b', executed', kept⟩ := waiting.call reach close legal
      have same : b = b' := by
        have := executed.symm.trans executed'
        cases this
        rfl
      subst same
      refine ⟨J, kept ?_, reach, close, ?_⟩
      · rintro id rfl
        exact careful
      · intro polling
        rw [awake] at polling
        cases polling
  | poll script timeout =>
      obtain ⟨_, fuel, rounds, b, passes, ran, _, rfl⟩ := step
      rcases waiting.run fuel rounds reach close careful with ⟨b', passes', ran', waiting'⟩ | hung
      · have same := ran.symm.trans ran'
        cases same
        exact ⟨s.clock + 1, waiting', Nat.le_refl _, by dsimp only; omega, fun _ => rfl⟩
      · have absurd := ran.symm.trans hung
        cases absurd
  | wake advance =>
      obtain ⟨polling, short, rfl⟩ := step
      obtain ⟨rate, P, cover, r, earliest, near⟩ := waiting
      have reached := polled polling
      refine ⟨J, ⟨rate, P, cover, r, earliest, ?_⟩, ?_, ?_, ?_⟩
      · intro x E due
        have := near x E due
        dsimp only
        omega
      · dsimp only
        omega
      · dsimp only
        omega
      · intro absurd
        cases absurd

theorem run_inTime (run : ((loopSys j₀).restrict Careful).Run events s) : InTime s := by
  refine run.invariant (I := fun _ s => InTime s) ?_ ?_
  · rintro s rfl
    exact InTime.start j₀
  · rintro events s ev t _ inTime ⟨careful, step⟩
    exact inTime.step careful step

/-- **The loop does not oversleep** in a run in which no stop takes away the one timer
that expires first while others are pending, and callbacks spare the walks that they are
called from: the calls and `gp_run_timers` do not fault, and the timeout that
`poller_poll` receives is not negative and at most the distance to the expiry of each
pending timer. -/
theorem never_oversleeps (run : ((loopSys j₀).restrict Careful).Run events s) :
    (s.polling = false → (∀ c : LoopCall, c.Legal s.time s.base →
        ∃ b, c.exec s.time s.base = .ok b) ∧
      ∀ script : Script, script.Sparing s.time → ∀ fuel rounds,
        (∃ r, gpRunTimers fuel (script.callback s.time) s.time s.base rounds = .ok r) ∨
          gpRunTimers fuel (script.callback s.time) s.time s.base rounds = .error .hang) ∧
      ∀ earlier script (timeout : Int), events = earlier ++ [.poll script timeout] →
        ∀ id t, IsPending s.base id t →
          0 ≤ timeout ∧ timeout ≤ uint32 ((t.expires : Int) - s.time) := by
  obtain ⟨J, waiting, reach, close, _⟩ := (run_inTime run).waiting
  refine ⟨?_, ?_⟩
  · intro _
    refine ⟨?_, ?_⟩
    · intro c legal
      obtain ⟨b, executed, _⟩ := waiting.call reach close legal
      exact ⟨b, executed⟩
    · intro script sparing fuel rounds
      refine (waiting.run fuel rounds reach close sparing).imp_left ?_
      rintro ⟨b, passes, ran, _⟩
      exact ⟨(b, passes), ran⟩
  · rintro earlier script timeout rfl id t pending
    obtain ⟨s₀, before, careful, _, fuel, rounds, b, passes, ran, received, rfl⟩ := run.snoc_inv
    obtain ⟨J₀, waiting₀, reach₀, close₀, _⟩ := (run_inTime before).waiting
    have sparing : script.Sparing (s₀.clock % 2 ^ 32) := careful
    rcases waiting₀.run fuel rounds reach₀ close₀ sparing with ⟨b', passes', ran', waiting'⟩ | hung
    · have same := ran.symm.trans ran'
      cases same
      rw [received]
      exact waiting'.timeout pending
    · have absurd := ran.symm.trans hung
      cases absurd

/-- The wheel after a call at tick 1, or the old one if it faults. -/
def afterCall (c : LoopCall) (b : GpTimerBase) : GpTimerBase :=
  match c.exec 1 b with
  | .ok b' => b'
  | .error _ => b

/-- The wheel after `gp_run_timers`, if no callback makes a call. -/
def afterRun (time : Nat) (b : GpTimerBase) : GpTimerBase :=
  match gpRunTimers 2 (Script.callback (fun _ _ => []) time) time b 5 with
  | .ok r => r.1
  | .error _ => b

/-- Two timers are started, for the ticks 3 and 10. -/
def twoTimers : GpTimerBase :=
  afterCall (.start 1 9 0) (afterCall (.start 0 2 0) (createGpTimerBase 1))

theorem twoTimers_run :
    ((loopSys 1).restrict Careful).Run [.call (.start 0 2 0), .call (.start 1 9 0)]
      ⟨twoTimers, 1, false⟩ := by
  have first : ((loopSys 1).restrict Careful).Run [.call (.start 0 2 0)]
      ⟨afterCall (.start 0 2 0) (createGpTimerBase 1), 1, false⟩ := by
    refine .step (.init rfl) ⟨trivial, rfl, ⟨rfl, by decide, by decide⟩, _, rfl, rfl⟩
  exact .step first ⟨trivial, rfl, ⟨rfl, by decide, by decide⟩, _, rfl, rfl⟩

/-- The later of two timers is stopped: the loop polls with the distance to the other. -/
theorem never_oversleeps_two :
    ∃ s t, ((loopSys 1).restrict Careful).Run [.call (.start 0 2 0), .call (.start 1 9 0),
        .call (.stop 1), .poll (fun _ _ => []) 2] s ∧
      IsPending s.base 0 t ∧ 0 ≤ (2 : Int) ∧ (2 : Int) ≤ uint32 ((t.expires : Int) - s.time) := by
  have leaves : LeavesEarliest twoTimers 1 := by
    intro t pending
    have later : twoTimers.timers 1 = some ⟨10, 9, 0, true, some (0, 10)⟩ := rfl
    obtain rfl := Option.some.inj (later.symm.trans pending.1)
    exact .inr ⟨0, ⟨3, 2, 0, true, some (0, 3)⟩, by decide, ⟨rfl, by decide⟩, by decide⟩
  have run₃ : ((loopSys 1).restrict Careful).Run [.call (.start 0 2 0), .call (.start 1 9 0),
      .call (.stop 1)] ⟨afterCall (.stop 1) twoTimers, 1, false⟩ :=
    .step twoTimers_run ⟨leaves, rfl, ⟨_, rfl⟩, _, rfl, rfl⟩
  have ran₄ : gpRunTimers 2 (Script.callback (fun _ _ => []) 1) 1 (afterCall (.stop 1) twoTimers) 5 =
      .ok (afterRun 1 (afterCall (.stop 1) twoTimers), [(1, [])]) := rfl
  have run₄ : ((loopSys 1).restrict Careful).Run [.call (.start 0 2 0), .call (.start 1 9 0),
      .call (.stop 1), .poll (fun _ _ => []) 2]
        ⟨afterRun 1 (afterCall (.stop 1) twoTimers), 1, true⟩ :=
    .step run₃ ⟨fun _ _ => trivial, rfl, 2, 5, _, _, ran₄, by decide +kernel, rfl⟩
  have pending : IsPending (afterRun 1 (afterCall (.stop 1) twoTimers)) 0
      ⟨3, 2, 0, true, some (0, 3)⟩ := ⟨rfl, by decide⟩
  exact ⟨_, _, run₄, pending, (never_oversleeps run₄).2 [_, _, _] _ 2 rfl 0 _ pending⟩

/-- The first of two timers is stopped, and the clock passes its expiry: the loop polls
with the timeout -1 while the other timer is pending. -/
theorem stop_oversleeps :
    ∃ s t, (loopSys 1).Run [.call (.start 0 2 0), .call (.start 1 9 0), .call (.stop 0),
        .poll (fun _ _ => []) 2, .wake 3, .poll (fun _ _ => []) (-1)] s ∧
      IsPending s.base 1 t ∧
      ¬ (0 ≤ (-1 : Int) ∧ (-1 : Int) ≤ uint32 ((t.expires : Int) - s.time)) := by
  have run₃ : (loopSys 1).Run [.call (.start 0 2 0), .call (.start 1 9 0), .call (.stop 0)]
      ⟨afterCall (.stop 0) twoTimers, 1, false⟩ :=
    .step twoTimers_run.of_restrict ⟨rfl, ⟨_, rfl⟩, _, rfl, rfl⟩
  have ran₄ : gpRunTimers 2 (Script.callback (fun _ _ => []) 1) 1 (afterCall (.stop 0) twoTimers) 5 =
      .ok (afterRun 1 (afterCall (.stop 0) twoTimers), [(1, [])]) := rfl
  have run₄ : (loopSys 1).Run [.call (.start 0 2 0), .call (.start 1 9 0), .call (.stop 0),
      .poll (fun _ _ => []) 2] ⟨afterRun 1 (afterCall (.stop 0) twoTimers), 1, true⟩ :=
    .step run₃ ⟨rfl, 2, 5, _, _, ran₄, by decide +kernel, rfl⟩
  have run₅ : (loopSys 1).Run [.call (.start 0 2 0), .call (.start 1 9 0), .call (.stop 0),
      .poll (fun _ _ => []) 2, .wake 3] ⟨afterRun 1 (afterCall (.stop 0) twoTimers), 4, false⟩ :=
    .step run₄ ⟨rfl, by decide, rfl⟩
  have ran₆ : gpRunTimers 2 (Script.callback (fun _ _ => []) 4) 4
      (afterRun 1 (afterCall (.stop 0) twoTimers)) 5 =
        .ok (afterRun 4 (afterRun 1 (afterCall (.stop 0) twoTimers)), [(2, []), (3, []), (4, [])]) :=
    rfl
  have run₆ : (loopSys 1).Run [.call (.start 0 2 0), .call (.start 1 9 0), .call (.stop 0),
      .poll (fun _ _ => []) 2, .wake 3, .poll (fun _ _ => []) (-1)]
        ⟨afterRun 4 (afterRun 1 (afterCall (.stop 0) twoTimers)), 4, true⟩ :=
    .step run₅ ⟨rfl, 2, 5, _, _, ran₆, by decide +kernel, rfl⟩
  exact ⟨_, _, run₆, ⟨rfl, by decide⟩, by decide⟩

end Runs

end GpBase.Timer

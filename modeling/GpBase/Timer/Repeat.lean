import GpBase.Timer.Exact

/-!
# Repeating timers

A timer that repeats is armed again inside the loop that walks its list, for one
interval after the tick that is being processed. With an interval of 256 its new slot
is the one whose list is walked, so it comes back to the end of that list: if other
timers are still to come, the walk meets it again and it fires twice. As long as no
pass walks such a list, every timer keeps its schedule.
-/

namespace GpBase.Timer

open GpBase.Lib GpTimerBase

/-! ## Histories -/

/-- A call on the wheel. -/
inductive RepeatCall
  | /-- `create_gp_timer`, `timer->loop = loop` and `gp_timer_add` -/
    start (id : TimerId) (expires : Nat) (interval repeatFlag : Int)
  | /-- the clock advances, and `gp_run_timers` is called with it -/
    run (advance : Nat)
  deriving DecidableEq, Repr

namespace RepeatCall

/-- `gp_loop_timer_start`, with the expiry that it computes. -/
def startTimer (b : GpTimerBase) (id : TimerId) (expires : Nat) (interval repeatFlag : Int) :
    Except Fault GpTimerBase := do
  let b ← (b.createGpTimer id expires interval repeatFlag).setLoop id
  b.gpTimerAdd id

/-- A timer starts at a free address, with an expiry that is not in the past and, if
it repeats, with an interval of at least one tick; the clock does not jump. -/
def Legal (s : TimerState) : RepeatCall → Prop
  | .start id expires interval repeatFlag =>
      s.base.timers id = none ∧ expires < 2 ^ 32 ∧ Ahead s.base expires ∧ interval < 2 ^ 31 ∧
        (repeatFlag = 1 → 1 ≤ interval)
  | .run advance => advance < 2 ^ 31

/-- The call returns with the wheel `b` after the passes `passes`. -/
def Returns (s : TimerState) (b : GpTimerBase) (passes : List Pass) : RepeatCall → Prop
  | .start id expires interval repeatFlag =>
      startTimer s.base id expires interval repeatFlag = .ok b ∧ passes = []
  | .run advance => ∃ fuel rounds,
      gpRunTimers fuel quiet ((s.clock + advance) % 2 ^ 32) s.base rounds = .ok (b, passes)

def advance : RepeatCall → Nat
  | .run advance => advance
  | _ => 0

/-- No pass of the call walks a list on which a timer that repeats every 256 ticks is
followed by another timer. -/
def Roomy (s : TimerState) : RepeatCall → Prop
  | .run advance => ∀ fuel rounds,
      UncrowdedPasses fuel ((s.clock + advance) % 2 ^ 32) s.base rounds
  | _ => True

end RepeatCall

/-- A wheel that is created at tick `j₀`, timers that start, and calls of
`gp_run_timers`. -/
def repeatSys (j₀ : Nat) : TSys TimerState (RepeatCall × List Pass) where
  init s := s.base = createGpTimerBase (j₀ % 2 ^ 32) ∧ s.clock = j₀
  step s a t := a.1.Legal s ∧ a.1.Returns s t.base a.2 ∧ t.clock = s.clock + a.1.advance

/-- All passes of a history, in order. -/
def passesOf (events : List (RepeatCall × List Pass)) : List Pass := events.flatMap Prod.snd

/-- The first tick that is not processed yet. -/
def nextTick (j₀ : Nat) (events : List (RepeatCall × List Pass)) : Nat :=
  j₀ + (passesOf events).length

/-- The tick, not before `J`, that an expiry stands for. -/
def firstTick (J expires : Nat) : Nat := J + uint32 ((expires : Int) - (J % 2 ^ 32 : Nat))

theorem nextTick_snoc (j₀ : Nat) (events : List (RepeatCall × List Pass)) (c : RepeatCall)
    (passes : List Pass) :
    nextTick j₀ (events ++ [(c, passes)]) = nextTick j₀ events + passes.length := by
  simp [nextTick, passesOf, Nat.add_assoc]

/-! ## Schedules -/

/-- `D` is the first tick from `J` on of the schedule `E, E + v, E + 2 v, …`. -/
structure NextStrike (E v J D : Nat) : Prop where
  ahead : J ≤ D
  onSchedule : ∃ n, D = E + n * v
  first : ∀ n, J ≤ E + n * v → D ≤ E + n * v

theorem NextStrike.start {J E : Nat} (ahead : J ≤ E) (v : Nat) : NextStrike E v J E :=
  ⟨ahead, ⟨0, by simp⟩, fun n _ => Nat.le_add_right E (n * v)⟩

/-- One tick: a schedule that strikes goes on to its next tick, the others wait. -/
theorem NextStrike.tick {E v J D : Nat} (pos : 1 ≤ v) (next : NextStrike E v J D) :
    NextStrike E v (J + 1) (if D = J then J + v else D) := by
  obtain ⟨n, rfl⟩ := next.onSchedule
  split
  · rename_i now
    refine ⟨by omega, ⟨n + 1, by rw [Nat.succ_mul]; omega⟩, ?_⟩
    intro m later
    have before : n < m := by
      by_contra reached
      have := Nat.mul_le_mul_right v (Nat.le_of_not_lt reached)
      omega
    have := Nat.mul_le_mul_right v (Nat.succ_le_of_lt before)
    rw [Nat.succ_mul] at this
    omega
  · rename_i later
    have := next.ahead
    refine ⟨by omega, ⟨n, rfl⟩, ?_⟩
    intro m after
    exact next.first m (by omega)

/-- A schedule strikes at `J` if `J` is on it. -/
theorem NextStrike.now_iff {E v J D : Nat} (next : NextStrike E v J D) :
    D = J ↔ ∃ n, J = E + n * v := by
  constructor
  · rintro rfl
    exact next.onSchedule
  · rintro ⟨n, rfl⟩
    exact Nat.le_antisymm (next.first n (Nat.le_refl _)) next.ahead

/-- A repeating timer follows its schedule through any number of ticks. -/
theorem strikes_due {rate : TimerId → Option Nat} {id : TimerId} {E v : Nat} (pos : 1 ≤ v)
    (repeats : rate id = some v) {P : Pending} {J D : Nat} (n : Nat) (due : P.due id = some D)
    (next : NextStrike E v J D) :
    ∃ D', (P.strikes rate J n).due id = some D' ∧ NextStrike E v (J + n) D' := by
  induction n generalizing P J D with
  | zero => exact ⟨D, due, next⟩
  | succ n ih =>
      have struck : (P.strike rate J).due id = some (if D = J then J + v else D) := by
        simp only [Pending.strike, due, Option.some.injEq, repeats, Option.map_some]
        split <;> rfl
      obtain ⟨D', due', next'⟩ := ih struck (next.tick pos)
      rw [show J + 1 + n = J + (n + 1) by omega] at next'
      exact ⟨D', due', next'⟩

/-! ## Calls -/

section Calls

variable {j₀ : Nat} {events : List (RepeatCall × List Pass)} {s : TimerState}

/-- The timer repeats, and is due at the next tick of its schedule. -/
def Scheduled (rate : TimerId → Option Nat) (P : Pending) (J : Nat) (id : TimerId) (E v : Nat) :
    Prop :=
  rate id = some v ∧ 1 ≤ v ∧ ∃ D, P.due id = some D ∧ NextStrike E v J D

/-- The passes from tick `J` on fire the timer at the ticks of its schedule, once at
each, and at no other. -/
def KeepsTo (id : TimerId) (E v J : Nat) (passes : List Pass) : Prop :=
  ∀ k tick fired, passes[k]? = some (tick, fired) → tick = (J + k) % 2 ^ 32 ∧
    ((∃ n, J + k = E + n * v) → fired.count id = 1) ∧
    ((∀ n, J + k ≠ E + n * v) → fired.count id = 0)

theorem Scheduled.strikes {rate : TimerId → Option Nat} {P : Pending} {J : Nat} {id : TimerId}
    {E v : Nat} (scheduled : Scheduled rate P J id E v) (n : Nat) :
    Scheduled rate (P.strikes rate J n) (J + n) id E v := by
  obtain ⟨repeats, pos, D, due, next⟩ := scheduled
  exact ⟨repeats, pos, strikes_due pos repeats n due next⟩

theorem Scheduled.keepsTo {rate : TimerId → Option Nat} {P : Pending} {J : Nat} {id : TimerId}
    {E v : Nat} {passes : List Pass} (scheduled : Scheduled rate P J id E v)
    (struck : StruckPasses rate P J passes) : KeepsTo id E v J passes := by
  intro k tick fired here
  obtain ⟨now, count⟩ := struck k tick fired here
  obtain ⟨_, _, D, due, next⟩ := scheduled.strikes k
  refine ⟨now, ?_, ?_⟩
  · intro onSchedule
    rw [count id, due, if_pos (congrArg some (next.now_iff.mpr onSchedule))]
  · intro off
    rw [count id, due, if_neg]
    intro same
    obtain ⟨n, onSchedule⟩ := next.now_iff.mp (Option.some.inj same)
    exact off n onSchedule

theorem KeepsTo.append {id : TimerId} {E v J : Nat} {passes more : List Pass}
    (first : KeepsTo id E v J passes) (second : KeepsTo id E v (J + passes.length) more) :
    KeepsTo id E v J (passes ++ more) := by
  intro k tick fired here
  rcases Nat.lt_or_ge k passes.length with early | late
  · rw [List.getElem?_append_left early] at here
    exact first k tick fired here
  · rw [List.getElem?_append_right late] at here
    have := second (k - passes.length) tick fired here
    rwa [Nat.add_assoc, Nat.add_sub_cancel' late] at this

/-- `gp_loop_timer_start` arms a new timer. -/
theorem Ready.startTimer {b : GpTimerBase} {J : Nat} {rate : TimerId → Option Nat} {P : Pending}
    {cover : List TimerId} (r : Ready b J rate P cover) {id : TimerId} {expires : Nat}
    {interval repeatFlag : Int} {v : Option Nat} (free : b.timers id = none)
    (small : expires < 2 ^ 32) (pace : Paced v ⟨expires, interval, repeatFlag, true, none⟩) :
    ∃ b', RepeatCall.startTimer b id expires interval repeatFlag = .ok b' ∧
      Ready b' J (Function.update rate id v)
        ((P.setExpires id expires).arm id (firstTick J expires)) (id :: cover) := by
  obtain ⟨b₁, created, live, r₁⟩ := r.create free pace
  obtain ⟨b₂, added, r₂⟩ := r₁.add live small
  refine ⟨b₂, ?_, r₂⟩
  simp only [RepeatCall.startTimer, created, bind, Except.bind, added]

/-- The interval of a timer that repeats, as a number of ticks. -/
def rateOf (interval repeatFlag : Int) : Option Nat :=
  if repeatFlag = 1 then some interval.toNat else none

theorem paced_rateOf {interval repeatFlag : Int} (expires : Nat) (small : interval < 2 ^ 31)
    (pos : repeatFlag = 1 → 1 ≤ interval) :
    Paced (rateOf interval repeatFlag) ⟨expires, interval, repeatFlag, true, none⟩ := by
  unfold rateOf
  split
  · rename_i repeats
    have := pos repeats
    exact ⟨repeats, by simp; omega, by omega, by omega⟩
  · rename_i once
    exact once

/-! ## Whole histories -/

/-- The state keeps up with the history. -/
structure OnTime (j₀ : Nat) (events : List (RepeatCall × List Pass)) (s : TimerState) : Prop where
  clock : s.clock ≤ nextTick j₀ events ∧ nextTick j₀ events ≤ s.clock + 1
  wheel : ∃ rate P cover, Ready s.base (nextTick j₀ events) rate P cover ∧
    ∀ before later id expires interval,
      events = before ++ (.start id expires interval 1, []) :: later →
      Scheduled rate P (nextTick j₀ events) id (firstTick (nextTick j₀ before) expires)
        interval.toNat
  past : ∀ before later id expires interval,
    events = before ++ (.start id expires interval 1, []) :: later →
    KeepsTo id (firstTick (nextTick j₀ before) expires) interval.toNat (nextTick j₀ before)
      (passesOf later)

/-- Where an event of a history with one more call stands. -/
theorem snoc_cases {α : Type} {events before later : List α} {a x : α}
    (split : events ++ [a] = before ++ x :: later) :
    (before = events ∧ x = a ∧ later = []) ∨
      ∃ later', later = later' ++ [a] ∧ events = before ++ x :: later' := by
  induction later using List.reverseRecOn with
  | nil =>
      obtain ⟨rfl, last⟩ := List.append_inj' split rfl
      cases last
      exact .inl ⟨rfl, rfl, rfl⟩
  | append_singleton later' c _ =>
      rw [← List.cons_append, ← List.append_assoc] at split
      obtain ⟨rfl, last⟩ := List.append_inj' split rfl
      cases last
      exact .inr ⟨later', rfl, rfl⟩

theorem nextTick_split (j₀ : Nat) (before later : List (RepeatCall × List Pass)) (c : RepeatCall) :
    nextTick j₀ (before ++ (c, []) :: later) = nextTick j₀ before + (passesOf later).length := by
  simp [nextTick, passesOf, Nat.add_assoc]

/-- A timer starts. -/
theorem OnTime.start (f : OnTime j₀ events s) {id : TimerId} {expires : Nat}
    {interval repeatFlag : Int} (legal : RepeatCall.Legal s (.start id expires interval repeatFlag)) :
    ∃ b, RepeatCall.startTimer s.base id expires interval repeatFlag = .ok b ∧
      OnTime j₀ (events ++ [(.start id expires interval repeatFlag, [])]) ⟨b, s.clock⟩ := by
  obtain ⟨free, small, _, bound, pos⟩ := legal
  obtain ⟨rate, P, cover, r, scheduled⟩ := f.wheel
  obtain ⟨b, started, r'⟩ := r.startTimer free small (paced_rateOf expires bound pos)
  have same : nextTick j₀ (events ++ [(.start id expires interval repeatFlag, [])]) =
      nextTick j₀ events := nextTick_snoc j₀ events _ []
  refine ⟨b, started, by rw [same]; exact f.clock, ⟨_, _, _, by rw [same]; exact r', ?_⟩, ?_⟩
  · intro before later id' expires' interval' split
    rw [same]
    rcases snoc_cases split with ⟨rfl, new, _⟩ | ⟨later', _, old⟩
    · -- the new timer is due at its expiry
      cases new
      refine ⟨by simp [rateOf], ?_, _, Function.update_self .., ?_⟩
      · have := pos rfl
        omega
      · exact .start (Nat.le_add_right _ _) _
    · obtain ⟨repeats, positive, D, due, next⟩ := scheduled before later' id' expires' interval' old
      have apart : id' ≠ id := by
        rintro rfl
        rw [r.placed.freed id' free] at due
        cases due
      refine ⟨?_, positive, D, ?_, next⟩
      · rw [Function.update_of_ne apart, repeats]
      · exact (Function.update_of_ne apart ..).trans due
  · intro before later id' expires' interval' split
    rcases snoc_cases split with ⟨rfl, _, rfl⟩ | ⟨later', rfl, old⟩
    · intro k tick fired here
      simp [passesOf] at here
    · have := f.past before later' id' expires' interval' old
      simpa [passesOf] using this

/-- `gp_run_timers` is called. -/
theorem OnTime.run (f : OnTime j₀ events s) {advance : Nat} (short : advance < 2 ^ 31)
    (roomy : RepeatCall.Roomy s (.run advance)) :
    (∃ b passes, RepeatCall.Returns s b passes (.run advance)) ∧
      ∀ b passes, RepeatCall.Returns s b passes (.run advance) →
        nextTick j₀ (events ++ [(.run advance, passes)]) = s.clock + advance + 1 ∧
          OnTime j₀ (events ++ [(.run advance, passes)]) ⟨b, s.clock + advance⟩ := by
  obtain ⟨rate, P, cover, r, scheduled⟩ := f.wheel
  have ⟨low, high⟩ := f.clock
  have near : s.clock + advance < nextTick j₀ events + 2 ^ 31 := by omega
  have reach : nextTick j₀ events ≤ s.clock + advance + 1 := by omega
  refine ⟨?_, ?_⟩
  · rcases r.run (cover.length + 1) (s.clock + advance + 2 - nextTick j₀ events) near reach
      (roomy _ _) with ⟨b, passes, ran, _⟩ | ⟨few, _⟩
    · exact ⟨b, passes, _, _, ran⟩
    · omega
  · rintro b passes ⟨fuel, rounds, returned⟩
    rcases r.run fuel rounds near reach (roomy _ _) with
      ⟨b', passes', ran, length, struck, r'⟩ | ⟨_, hung⟩
    · rw [ran] at returned
      cases returned
      have next : nextTick j₀ (events ++ [(.run advance, passes)]) = s.clock + advance + 1 := by
        rw [nextTick_snoc, length, Nat.add_sub_cancel' reach]
      refine ⟨next, ?_, ⟨rate, _, cover, by rw [next]; exact r', ?_⟩, ?_⟩
      · rw [next]
        exact ⟨Nat.le_succ _, Nat.le_refl _⟩
      · intro before later id expires interval split
        rcases snoc_cases split with ⟨_, new, _⟩ | ⟨later', _, old⟩
        · cases new
        · have := (scheduled before later' id expires interval old).strikes
            (s.clock + advance + 1 - nextTick j₀ events)
          rw [Nat.add_sub_cancel' reach] at this
          rw [next]
          exact this
      · intro before later id expires interval split
        rcases snoc_cases split with ⟨_, new, _⟩ | ⟨later', rfl, old⟩
        · cases new
        · have now := (scheduled before later' id expires interval old).keepsTo struck
          rw [old, nextTick_split] at now
          have := (f.past before later' id expires interval old).append now
          simpa [passesOf] using this
    · rw [hung] at returned
      cases returned

/-- The run lemma. -/
theorem run_onTime (run : ((repeatSys j₀).restrict fun s a => a.1.Roomy s).Run events s) :
    OnTime j₀ events s := by
  refine run.invariant (I := OnTime j₀) ?_ ?_
  · rintro ⟨base, clock⟩ ⟨fresh, start⟩
    dsimp only at fresh start
    subst fresh start
    refine ⟨⟨le_refl _, Nat.le_succ _⟩, ⟨_, _, [], ready_createGpTimerBase clock, ?_⟩, ?_⟩
    · intro before later id expires interval split
      simp at split
    · intro before later id expires interval split
      simp at split
  · rintro events s ⟨c, passes⟩ ⟨b, clock⟩ _ onTime ⟨roomy, legal, returned, rfl⟩
    cases c with
    | start id expires interval repeatFlag =>
        obtain ⟨b', started, onTime'⟩ := onTime.start legal
        obtain ⟨returned, rfl⟩ := returned
        rw [started] at returned
        cases returned
        exact onTime'
    | run advance => exact ((onTime.run legal roomy).2 b passes returned).2

/-- **Repeating timers keep their schedule** in every history in which no pass walks a
list on which a timer that repeats every 256 ticks is followed by another: legal calls
return; a call of `gp_run_timers` makes a pass for every tick up to its clock; and a
timer that starts with `repeat = 1` fires once at each of the ticks `e₀`, `e₀ + interval`,
`e₀ + 2 * interval`, … and at no other, `e₀` being the tick of its first expiry. -/
theorem repeating_on_schedule
    (run : ((repeatSys j₀).restrict fun s a => a.1.Roomy s).Run events s) :
    (∀ c, c.Legal s → c.Roomy s → ∃ passes t, (repeatSys j₀).step s (c, passes) t) ∧
      (∀ earlier advance passes, events = earlier ++ [(.run advance, passes)] →
        nextTick j₀ events = s.clock + 1) ∧
      ∀ before later id expires interval,
        events = before ++ (.start id expires interval 1, []) :: later →
        KeepsTo id (firstTick (nextTick j₀ before) expires) interval.toNat (nextTick j₀ before)
          (passesOf later) := by
  have onTime := run_onTime run
  refine ⟨?_, ?_, onTime.past⟩
  · intro c legal roomy
    cases c with
    | start id expires interval repeatFlag =>
        obtain ⟨b, started, _⟩ := onTime.start legal
        exact ⟨[], ⟨b, s.clock⟩, legal, ⟨started, rfl⟩, rfl⟩
    | run advance =>
        obtain ⟨b, passes, returned⟩ := (onTime.run legal roomy).1
        exact ⟨passes, ⟨b, _⟩, legal, returned, rfl⟩
  · rintro earlier advance passes rfl
    obtain ⟨s', before, roomy, legal, returned, clock⟩ := run.snoc_inv
    have next := (((run_onTime before).run legal roomy).2 s.base passes returned).1
    rw [next, clock]
    rfl

/-- A timer with first expiry 2 and interval 3 fires at 2 and 5 in the ticks up to 6. -/
theorem repeating_on_schedule_three :
    ∃ passes s, ((repeatSys 0).restrict fun s a => a.1.Roomy s).Run
        [(.start 0 2 3 1, []), (.run 6, passes)] s ∧
      KeepsTo 0 2 3 0 passes ∧ passes.length = 7 := by
  let M := (repeatSys 0).restrict fun s a => a.1.Roomy s
  let s₀ : TimerState := ⟨createGpTimerBase 0, 0⟩
  have run₀ : M.Run [] s₀ := .init ⟨rfl, rfl⟩
  have pace : Paced (rateOf 3 1) ⟨2, 3, 1, true, none⟩ := paced_rateOf 2 (by decide) (by decide)
  have free : (createGpTimerBase (0 % 2 ^ 32)).timers 0 = none := rfl
  obtain ⟨b₁, started, r₁⟩ := (ready_createGpTimerBase 0).startTimer free (by decide) pace
  have legal₁ : RepeatCall.Legal s₀ (.start 0 2 3 1) := by
    refine ⟨rfl, ?_, ?_, ?_, ?_⟩ <;> decide
  have run₁ : M.Run [(.start 0 2 3 1, [])] ⟨b₁, 0⟩ :=
    .step run₀ ⟨trivial, legal₁, ⟨started, rfl⟩, rfl⟩
  have roomy : RepeatCall.Roomy ⟨b₁, 0⟩ (.run 6) := by
    intro fuel rounds
    refine r₁.uncrowdedPasses ?_ fuel _ rounds
    intro id
    rw [Function.update_apply]
    split <;> decide
  have legal₂ : RepeatCall.Legal ⟨b₁, 0⟩ (.run 6) := by
    show 6 < 2 ^ 31
    decide
  obtain ⟨passes, t, _, returned, clock⟩ := (repeating_on_schedule run₁).1 _ legal₂ roomy
  have run₂ : M.Run [(.start 0 2 3 1, []), (.run 6, passes)] t :=
    .step run₁ ⟨roomy, legal₂, returned, clock⟩
  obtain ⟨_, reached, keeps⟩ := repeating_on_schedule run₂
  refine ⟨passes, t, run₂, ?_, ?_⟩
  · have := keeps [] [(.run 6, passes)] 0 2 3 rfl
    rw [passesOf, List.flatMap_cons, List.flatMap_nil, List.append_nil] at this
    exact this
  · have := reached [(.start 0 2 3 1, [])] 6 passes rfl
    rw [clock] at this
    simpa [nextTick, passesOf, RepeatCall.advance] using this

/-- The wheel after a repeating timer has started that is due at tick 1. -/
def startedAtOne (b : GpTimerBase) (id : TimerId) (interval : Int) : GpTimerBase :=
  match RepeatCall.startTimer b id 1 interval 1 with
  | .ok b' => b'
  | .error _ => b

/-- Two timers due at tick 1, the first repeating every 256 ticks: it fires twice at
that tick. -/
theorem crowded_fires_twice :
    ∃ s, (repeatSys 1).Run [(.start 0 1 256 1, []), (.start 1 1 5 1, []),
        (.run 0, [(1, [0, 1, 0])])] s ∧
      [0, 1, 0].count 0 = 2 ∧ ¬ KeepsTo 0 (firstTick 1 1) 256 1 [(1, [0, 1, 0])] := by
  let b₁ := startedAtOne (createGpTimerBase 1) 0 256
  let b₂ := startedAtOne b₁ 1 5
  let s₀ : TimerState := ⟨createGpTimerBase 1, 1⟩
  let s₁ : TimerState := ⟨b₁, 1⟩
  let s₂ : TimerState := ⟨b₂, 1⟩
  have run₀ : (repeatSys 1).Run [] s₀ := .init ⟨rfl, rfl⟩
  have legal₁ : RepeatCall.Legal s₀ (.start 0 1 256 1) := by
    refine ⟨rfl, ?_, ?_, ?_, ?_⟩ <;> decide
  have run₁ : (repeatSys 1).Run [(.start 0 1 256 1, [])] s₁ :=
    .step run₀ ⟨legal₁, ⟨rfl, rfl⟩, rfl⟩
  have legal₂ : RepeatCall.Legal s₁ (.start 1 1 5 1) := by
    refine ⟨rfl, ?_, ?_, ?_, ?_⟩ <;> decide
  have run₂ : (repeatSys 1).Run [(.start 0 1 256 1, []), (.start 1 1 5 1, [])] s₂ :=
    .step run₁ ⟨legal₂, ⟨rfl, rfl⟩, rfl⟩
  have legal₃ : RepeatCall.Legal s₂ (.run 0) := by
    show 0 < 2 ^ 31
    decide
  have fired : (gpRunTimers 4 quiet 1 (startedAtOne (startedAtOne (createGpTimerBase 1) 0 256) 1 5)
      2).map Prod.snd = .ok [(1, [0, 1, 0])] := by rfl
  cases ran : gpRunTimers 4 quiet 1 (startedAtOne (startedAtOne (createGpTimerBase 1) 0 256) 1 5)
      2 with
  | error fault =>
      rw [ran] at fired
      cases fired
  | ok result =>
      rw [ran] at fired
      obtain ⟨b₃, passes⟩ := result
      cases fired
      refine ⟨⟨b₃, 1⟩, .step run₂ ⟨legal₃, ⟨4, 2, ran⟩, rfl⟩, rfl, ?_⟩
      intro keeps
      have once := (keeps 0 1 [0, 1, 0] rfl).2.1 ⟨0, rfl⟩
      cases once

end Calls

end GpBase.Timer

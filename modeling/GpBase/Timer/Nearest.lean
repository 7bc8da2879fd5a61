import GpBase.Timer.Sleep
import GpBase.Timer.Steps

/-!
# The value of `gp_next_timer`

A wheel of one-shot timers between two runs, whatever the clock does: `gp_run_timers` is
called with any `jiffies`. `gp_next_timer` gives the expiry of the pending timer that is
nearest to `timer_jiffies` in the order of the 32-bit ring, and `MAX_TVAL` when none is.
-/

namespace GpBase.Timer

open GpBase.Lib GpTimerBase

/-- A call on a wheel of one-shot timers, or `gp_run_timers`. -/
inductive WheelCall
  | op (c : TimerOp)
  | run (jiffies : Nat)
  deriving DecidableEq, Repr

/-- Timers that are used are allocated, they do not repeat, and expiries are less than
`2 ^ 31` ahead when they are added. -/
def TimerOp.OneShot (b : GpTimerBase) : TimerOp → Prop
  | .create _ _ _ repeatFlag => repeatFlag ≠ 1
  | .add id => ∃ t, b.timers id = some t ∧ Ahead b t.expires
  | .del id => ∃ t, b.timers id = some t
  | .mod id expires _ repeatFlag =>
      (∃ t, b.timers id = some t) ∧ repeatFlag ≠ 1 ∧ Ahead b expires
  | .destruct id => ∃ t, b.timers id = some t

/-- A wheel that is created at any tick, and legal calls on it. -/
def wheelSys : TSys GpTimerBase WheelCall where
  init b := ∃ j₀ < 2 ^ 32, b = createGpTimerBase j₀
  step b call b' :=
    match call with
    | .op c => c.Typed b ∧ c.OneShot b ∧ c.exec b = .ok b'
    | .run jiffies => jiffies < 2 ^ 32 ∧ ∃ fuel rounds passes,
        gpRunTimers fuel quiet jiffies b rounds = .ok (b', passes)

/-- How far an expiry is ahead of `timer_jiffies`, in the order that wraps. -/
def distance (b : GpTimerBase) (t : GpTimerList) : Nat :=
  uint32 ((t.expires : Int) - b.timerJiffies)

/-! ## A wheel without timers -/

section Empty

variable {b : GpTimerBase}

theorem searchRoot_empty (empty : ∀ l i, b.vec l i = []) (index rounds slot : Nat) :
    b.searchRoot index rounds slot = none := by
  induction rounds generalizing slot with
  | zero => rfl
  | succ rounds ih =>
      unfold searchRoot
      simp only [empty]
      split
      · rfl
      · exact ih _

theorem searchVector_empty (empty : ∀ l i, b.vec l i = []) (l index rounds slot : Nat) :
    b.searchVector l index rounds slot false maxTval = (false, maxTval, false) := by
  induction rounds generalizing slot with
  | zero => rfl
  | succ rounds ih =>
      unfold searchVector
      simp only [empty, List.foldl_nil, List.isEmpty_nil, Bool.not_true, Bool.or_false,
        Bool.false_eq_true, if_false]
      split
      · rfl
      · exact ih _

theorem searchVectors_empty (empty : ∀ l i, b.vec l i = []) (ls : List Nat) (jiffies : Nat) :
    b.searchVectors ls jiffies false maxTval = maxTval := by
  induction ls generalizing jiffies with
  | nil => rfl
  | cons l ls ih =>
      unfold searchVectors
      simp only [searchVector_empty empty, Bool.false_eq_true, if_false]
      exact ih _

theorem gpNextTimer_empty (empty : ∀ l i, b.vec l i = []) : b.gpNextTimer = maxTval := by
  unfold gpNextTimer
  simp only [searchRoot_empty empty, searchVectors_empty empty]

end Empty

/-! ## The invariant -/

/-- The wheel at tick `J`. -/
structure Turning (J : Nat) (P : Pending) (cover : List TimerId) (b : GpTimerBase) : Prop where
  wheel : Wheel b J J P cover
  small : ∀ id e, P.expires id = some e → e < 2 ^ 32
  near : ∀ id E, P.due id = some E → E < J + 2 ^ 31

section Turning

variable {b b' : GpTimerBase} {J : Nat} {P : Pending} {cover : List TimerId} {id : TimerId}

theorem Turning.start {j₀ : Nat} (word : j₀ < 2 ^ 32) :
    Turning j₀ ⟨fun _ => none, fun _ => none⟩ [] (createGpTimerBase j₀) := by
  have wheel := (ready_createGpTimerBase j₀).wheel
  rw [Nat.mod_eq_of_lt word] at wheel
  exact ⟨wheel, nofun, nofun⟩

/-- The tick that an expiry ahead stands for is near. -/
theorem near_arm {e : Nat} (near : ∀ id E, P.due id = some E → E < J + 2 ^ 31)
    (ahead : uint32 ((e : Int) - (J % 2 ^ 32 : Nat)) < 2 ^ 31) (id : TimerId) :
    ∀ id' E, (P.arm id (J + uint32 ((e : Int) - (J % 2 ^ 32 : Nat)))).due id' = some E →
      E < J + 2 ^ 31 := by
  intro id' E due
  rw [Pending.arm_due, Function.update_apply] at due
  split at due
  · cases due
    omega
  · exact near id' E due

/-- `gp_run_timers` with any clock: it makes the passes up to it, or none. -/
theorem Turning.run (w : Turning J P cover b) {jiffies fuel rounds : Nat} (word : jiffies < 2 ^ 32)
    {passes : List Pass} (ran : gpRunTimers fuel quiet jiffies b rounds = .ok (b', passes)) :
    ∃ J' P', Turning J' P' cover b' := by
  by_cases behind : 0 ≤ int32 ((jiffies : Int) - b.timerJiffies)
  · -- the clock is ahead of the wheel, as far as 32 bits show it
    obtain ⟨n, ahead⟩ := Int.eq_ofNat_of_zero_le behind
    have short : n < 2 ^ 31 ∧ jiffies = (J + n) % 2 ^ 32 := by
      rw [w.wheel.jiffies, int32, Int.bmod_def] at ahead
      split at ahead <;> omega
    obtain ⟨short, rfl⟩ := short
    rcases gpRunTimers_spec fuel rounds (Nat.add_lt_add_left short J) (by omega) w.wheel with
      ⟨b₁, passes₁, ran₁, _, _, w₁⟩ | ⟨_, hung⟩
    · rw [ran] at ran₁
      cases ran₁
      refine ⟨_, _, w₁, ?_, ?_⟩
      · intro id e field
        simp only [Pending.elapse] at field
        split at field
        · cases field
        · exact w.small id e field
      · intro id E due
        simp only [Pending.elapse] at due
        split at due
        · cases due
        · have := w.near id E due
          omega
    · rw [ran] at hung
      cases hung
  · -- nothing to process
    cases rounds with
    | zero => cases ran
    | succ rounds =>
        unfold gpRunTimers at ran
        rw [if_neg behind] at ran
        cases ran
        exact ⟨J, P, w⟩

theorem near_disarm (near : ∀ id E, P.due id = some E → E < J + 2 ^ 31) (id : TimerId) :
    ∀ id' E, (P.disarm id).due id' = some E → E < J + 2 ^ 31 := by
  intro id' E due
  rw [Pending.disarm_due, Function.update_apply] at due
  split at due
  · cases due
  · exact near id' E due

/-- One call. -/
theorem Turning.call (w : Turning J P cover b) {c : TimerOp} (typed : c.Typed b)
    (legal : c.OneShot b) (executed : c.exec b = .ok b') :
    ∃ P' cover', Turning J P' cover' b' := by
  have ready := w.wheel.ready
  cases c with
  | create id expires interval repeatFlag =>
      have once : Paced none ⟨expires, interval, repeatFlag, true, none⟩ := legal
      obtain ⟨b₁, created, _, r₁⟩ := ready.create typed.1 once
      obtain rfl := Except.ok.inj (created.symm.trans executed)
      exact ⟨_, _, r₁.oneShot, small_update w.small typed.2 id, w.near⟩
  | add id =>
      obtain ⟨t, live, ahead⟩ := legal
      have field : P.expires id = some t.expires := by
        rw [← w.wheel.fields id, live]
        rfl
      obtain ⟨b₁, added, r₁⟩ := ready.add live (w.small id _ field)
      obtain rfl := Except.ok.inj (added.symm.trans executed)
      rw [Ahead, w.wheel.jiffies] at ahead
      exact ⟨_, _, r₁.wheel, w.small, near_arm w.near ahead id⟩
  | del id =>
      obtain ⟨t, live⟩ := legal
      obtain ⟨b₁, deleted, r₁⟩ := ready.del live
      obtain rfl := Except.ok.inj (deleted.symm.trans executed)
      exact ⟨_, _, r₁.wheel, w.small, near_disarm w.near id⟩
  | mod id expires interval repeatFlag =>
      obtain ⟨⟨t, live⟩, once, ahead⟩ := legal
      have once' : Paced none ⟨expires, interval, repeatFlag, t.hasLoop, none⟩ := once
      obtain ⟨b₁, modified, r₁⟩ := ready.mod live typed once'
      obtain rfl := Except.ok.inj (modified.symm.trans executed)
      rw [Ahead, w.wheel.jiffies] at ahead
      exact ⟨_, _, r₁.oneShot, small_update w.small typed id,
        near_arm (P := P.setExpires id expires) w.near ahead id⟩
  | destruct id =>
      obtain ⟨t, live⟩ := legal
      obtain ⟨b₁, removed, p₁, jiffies₁, _⟩ := ready.placed.remove live
      have freed := p₁.free (Function.update_self ..)
      simp only [TimerOp.exec, destructGpTimer, removed, bind, Except.bind, pure, Except.pure,
        Except.ok.injEq] at executed
      subst executed
      refine ⟨_, _, freed.wheel (jiffies₁.trans ready.jiffies), ?_, near_disarm w.near id⟩
      intro id' e field
      simp only [Pending.free, Pending.disarm, Function.update_apply] at field
      split at field
      · cases field
      · exact w.small id' e field

/-- The distance of a pending timer is that of its deadline. -/
theorem Turning.distance_eq (w : Turning J P cover b) {t : GpTimerList} {E : Nat}
    (due : P.due id = some E) (expires : t.expires = E % 2 ^ 32) : distance b t = E - J := by
  have low := (w.wheel.ready.due_le due).1
  have high := w.near id E due
  -- both are less than `2 ^ 31` ahead, so the wrapped difference is the true one
  rw [distance, expires, w.wheel.jiffies]
  unfold uint32
  omega

/-- `gp_next_timer` on such a wheel. -/
theorem Turning.gpNextTimer (w : Turning J P cover b) :
    (∃ id t, IsPending b id t ∧ b.gpNextTimer = t.expires ∧
        ∀ id' t', IsPending b id' t' → distance b t ≤ distance b t') ∨
      (∀ id t, ¬ IsPending b id t) ∧ b.gpNextTimer = maxTval := by
  have ready := w.wheel.ready
  by_cases some_due : ∃ E id, P.due id = some E
  · -- the least deadline
    classical
    obtain ⟨id, due⟩ := Nat.find_spec some_due
    have least : ∀ id' E', P.due id' = some E' → Nat.find some_due ≤ E' :=
      fun id' E' due' => Nat.find_min' some_due ⟨id', due'⟩
    obtain ⟨t, pending⟩ := ready.pending_of_due due
    obtain ⟨E, due', expires, _⟩ := ready.due_of_pending pending
    obtain rfl := Option.some.inj (due.symm.trans due')
    refine .inl ⟨id, t, pending, ?_, ?_⟩
    · rw [expires]
      exact ready.gpNextTimer_spec id _ due least
    · intro id' t' pending'
      obtain ⟨E', due', expires', _⟩ := ready.due_of_pending pending'
      rw [w.distance_eq due expires, w.distance_eq due' expires']
      exact Nat.sub_le_sub_right (least id' E' due') J
  · -- no deadline: every list is empty
    have idle : ∀ id t, ¬ IsPending b id t := by
      intro id t pending
      obtain ⟨E, due, _⟩ := ready.due_of_pending pending
      exact some_due ⟨E, id, due⟩
    refine .inr ⟨idle, gpNextTimer_empty ?_⟩
    intro l i
    refine List.eq_nil_iff_forall_not_mem.mpr ?_
    intro id mem
    obtain ⟨t, live, node⟩ := (w.wheel.linked l i id).mp mem
    exact idle id t ⟨live, by rw [node]; exact Option.some_ne_none _⟩

end Turning

/-! ## Whole histories -/

section Histories

variable {calls : List WheelCall} {b : GpTimerBase}

theorem run_turning (run : wheelSys.Run calls b) : ∃ J P cover, Turning J P cover b := by
  refine run.invariant (I := fun _ b => ∃ J P cover, Turning J P cover b) ?_ ?_
  · rintro b ⟨j₀, word, rfl⟩
    exact ⟨j₀, _, _, Turning.start word⟩
  · rintro calls b call b' _ ⟨J, P, cover, turning⟩ stepped
    cases call with
    | op c =>
        obtain ⟨typed, legal, executed⟩ := stepped
        exact ⟨J, turning.call typed legal executed⟩
    | run jiffies =>
        obtain ⟨word, fuel, rounds, passes, ran⟩ := stepped
        obtain ⟨J', P', turning'⟩ := turning.run word ran
        exact ⟨J', P', cover, turning'⟩

/-- **`gp_next_timer` is exact.** In every state that calls on a wheel of one-shot timers lead
to, it is the expiry of a pending timer that no other one precedes from `timer_jiffies` on,
or `MAX_TVAL` if there is none. -/
theorem next_timer_exact (run : wheelSys.Run calls b) :
    (∃ id t, IsPending b id t ∧ b.gpNextTimer = t.expires ∧
        ∀ id' t', IsPending b id' t' → distance b t ≤ distance b t') ∨
      (∀ id t, ¬ IsPending b id t) ∧ b.gpNextTimer = maxTval := by
  obtain ⟨J, P, cover, turning⟩ := run_turning run
  exact turning.gpNextTimer

/-- Two ticks before the counter wraps a timer is created that is due behind the wrap. -/
def aboutToWrap : GpTimerBase :=
  (createGpTimerBase (2 ^ 32 - 2)).setTimer 0 ⟨700, 0, 0, true, none⟩

/-- Once it is added, it waits in `tv2`. -/
theorem next_timer_exact_wrap :
    wheelSys.Run [.op (.create 0 700 0 0), .op (.add 0)] (TimerOp.after aboutToWrap (.add 0)) ∧
      (TimerOp.after aboutToWrap (.add 0)).gpNextTimer = 700 := by
  have created : TimerOp.exec (createGpTimerBase (2 ^ 32 - 2)) (.create 0 700 0 0) =
      .ok aboutToWrap := by
    simp [TimerOp.exec, createGpTimer, setLoop, GpTimerBase.timer, setTimer, aboutToWrap, bind,
      Except.bind, pure, Except.pure]
  have fresh : wheelSys.Run [] (createGpTimerBase (2 ^ 32 - 2)) := .init ⟨_, by decide, rfl⟩
  have run₁ : wheelSys.Run [.op (.create 0 700 0 0)] aboutToWrap :=
    .step fresh ⟨⟨rfl, by decide⟩, Int.zero_ne_one, created⟩
  have run₂ : wheelSys.Run [.op (.create 0 700 0 0), .op (.add 0)]
      (TimerOp.after aboutToWrap (.add 0)) :=
    .step run₁ ⟨trivial, ⟨⟨700, 0, 0, true, none⟩, rfl, by decide⟩, rfl⟩
  have timers : (TimerOp.after aboutToWrap (.add 0)).timers =
      Function.update (Function.update (fun _ => none) 0 (some ⟨700, 0, 0, true, none⟩)) 0
        (some ⟨700, 0, 0, true, some (1, 2)⟩) := rfl
  refine ⟨run₂, ?_⟩
  rcases next_timer_exact run₂ with ⟨id, t, ⟨live, _⟩, next, _⟩ | ⟨idle, _⟩
  · rw [timers, Function.update_idem, Function.update_apply] at live
    split at live
    · cases live
      exact next
    · cases live
  · exact absurd ⟨rfl, by decide⟩ (idle 0 ⟨700, 0, 0, true, some (1, 2)⟩)

end Histories

end GpBase.Timer

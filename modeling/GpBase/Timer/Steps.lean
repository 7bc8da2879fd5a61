import GpBase.Lib.Run
import GpBase.Timer.Linked
import GpBase.Timer.Pass

/-!
# The wheel under any calls

Every step that the code takes on a wheel, whoever takes it: calls from outside or from a
callback, the heads of passes, and what `gp_run_timers` does with a timer whose callback
has returned. No promise of the callers enters; the lists stay lists.
-/

namespace GpBase.Timer

open GpBase.Lib GpTimerBase

section Moved

variable {b b' : GpTimerBase} {y : TimerId}

/-- The body of `cascade`. -/
theorem Linked.cascadeOne (linked : Linked b) (cascaded : cascadeOne b y = .ok b') :
    Moved y b b' := by
  obtain ⟨b₁, removed, cascaded⟩ := bind_eq_ok cascaded
  obtain ⟨moved₁, t, _, live₁⟩ := linked.remove removed
  simp only [GpTimerBase.timer, live₁, bind, Except.bind] at cascaded
  split at cascaded
  · cases cascaded
  · exact moved₁.trans linked (moved₁.linked.internalAdd live₁ rfl cascaded).1

/-- What `gp_run_timers` does with a timer after its callback. -/
theorem Linked.expire {log log' : List TimerId} (linked : Linked b)
    (expired : expireOne quiet (b, log) y = .ok (b', log')) : Moved y b b' ∧ log' = log ++ [y] := by
  obtain ⟨_, ⟨⟩, expired⟩ := bind_eq_ok expired
  obtain ⟨b₁, deleted, expired⟩ := bind_eq_ok expired
  obtain ⟨moved₁, t, _, live₁⟩ := linked.remove deleted
  obtain ⟨t', read, expired⟩ := bind_eq_ok expired
  obtain rfl : { t with node := none } = t' := by
    rw [GpTimerBase.timer, live₁] at read
    exact Except.ok.inj read
  dsimp only at expired
  split at expired
  · -- a repeated timer is added again, any other one is destructed
    obtain ⟨b₂, settled, expired⟩ := bind_eq_ok expired
    cases expired
    exact ⟨(moved₁.trans linked (moved₁.linked.assign live₁ rfl rfl settled).1).updateNext, rfl⟩
  · obtain ⟨b₂, settled, expired⟩ := bind_eq_ok expired
    cases expired
    exact ⟨(moved₁.trans linked (moved₁.linked.destruct settled)).updateNext, rfl⟩

end Moved

/-! ## Calls -/

/-- A call about one timer, from anywhere. -/
inductive TimerOp
  | /-- `create_gp_timer`, and the timer gets its loop -/
    create (id : TimerId) (expires : Nat) (interval repeatFlag : Int)
  | add (id : TimerId)
  | del (id : TimerId)
  | mod (id : TimerId) (expires : Nat) (interval repeatFlag : Int)
  | destruct (id : TimerId)
  deriving DecidableEq, Repr

namespace TimerOp

/-- The timer that the call is about. -/
def timer : TimerOp → TimerId
  | create id _ _ _ => id
  | add id => id
  | del id => id
  | mod id _ _ _ => id
  | destruct id => id

def exec (b : GpTimerBase) : TimerOp → Except Fault GpTimerBase
  | create id expires interval repeatFlag =>
      (b.createGpTimer id expires interval repeatFlag).setLoop id
  | add id => b.gpTimerAdd id
  | del id => b.gpTimerDel id
  | mod id expires interval repeatFlag => b.gpTimerMod id expires interval repeatFlag
  | destruct id => b.destructGpTimer id

/-- The wheel after the call, or the old one if it faults. -/
def after (b : GpTimerBase) (c : TimerOp) : GpTimerBase :=
  match c.exec b with
  | .ok b' => b'
  | .error _ => b

/-- A timer is created at a free address, and expiries are `uint32_t`. -/
def Typed (b : GpTimerBase) : TimerOp → Prop
  | create id expires _ _ => b.timers id = none ∧ expires < 2 ^ 32
  | mod _ expires _ _ => expires < 2 ^ 32
  | _ => True

end TimerOp

section Calls

variable {b b' : GpTimerBase}

/-- A call is about its timer. -/
theorem Linked.call (linked : Linked b) {c : TimerOp} (typed : c.Typed b)
    (executed : c.exec b = .ok b') : Moved c.timer b b' := by
  cases c with
  | create id expires interval repeatFlag =>
      have created : (b.createGpTimer id expires interval repeatFlag).setLoop id =
          .ok (b.setTimer id ⟨expires, interval, repeatFlag, true, none⟩) := by
        simp [createGpTimer, setLoop, GpTimerBase.timer, setTimer, bind, Except.bind, pure,
          Except.pure]
      obtain rfl := Except.ok.inj (created.symm.trans executed)
      have unlinked : ∀ t, b.timers id = some t → t.node = none := by
        intro t live
        cases typed.1.symm.trans live
      refine linked.moved unlinked (linked.record unlinked ?_ rfl rfl) rfl rfl
      rintro _ ⟨⟩
      rfl
  | add id => exact (linked.add executed).1
  | del id => exact (linked.remove executed).1
  | mod id expires interval repeatFlag => exact (linked.mod executed).1
  | destruct id => exact linked.destruct executed

end Calls

/-! ## Steps -/

/-- A step of the code: a call from anywhere, the head of a pass of `gp_run_timers`, or what
it does with a timer whose callback has returned. -/
inductive WheelEvent
  | call (c : TimerOp)
  | head (fuel : Nat)
  | expire (id : TimerId)
  deriving DecidableEq, Repr

/-- The wheel `b₀`, and steps in any order. -/
def wheelSteps (b₀ : GpTimerBase) : TSys GpTimerBase WheelEvent where
  init b := b = b₀
  step b ev b' :=
    match ev with
    | .call c => c.Typed b ∧ c.exec b = .ok b'
    | .head fuel => ∃ b₁, b.passHead fuel = .ok b₁ ∧
        b' = { b₁ with timerJiffies := uint32 (b₁.timerJiffies + 1) }
    | .expire id => ∃ log log', expireOne quiet (b, log) id = .ok (b', log')

/-- The calls of a callback. -/
def runOps : GpTimerBase → List TimerOp → Except Fault GpTimerBase
  | b, [] => .ok b
  | b, c :: calls => do
    let b ← c.exec b
    runOps b calls

/-- The calls that the callbacks make, each in the state it is called in. -/
abbrev OpScript := TimerId → GpTimerBase → List TimerOp

def OpScript.callback (script : OpScript) (id : TimerId) (b : GpTimerBase) :
    Except Fault GpTimerBase :=
  runOps b (script id b)

def TypedOps : GpTimerBase → List TimerOp → Prop
  | _, [] => True
  | b, c :: calls => c.Typed b ∧ ∀ b', c.exec b = .ok b' → TypedOps b' calls

section Steps

variable {b b' b₀ : GpTimerBase} {events : List WheelEvent}

/-- What every round of a loop keeps. -/
theorem foreachLoop_keeps {σ : Type} {wheel : σ → GpTimerBase}
    {body : σ → TimerId → Except Fault σ} {Q : σ → Prop}
    (step : ∀ s id s', Q s → body s id = .ok s' → Q s') {l i fuel : Nat} {s s' : σ}
    {it tmp : Option TimerId} (start : Q s)
    (ran : foreachLoop wheel body l i fuel s it tmp = .ok s') : Q s' := by
  induction fuel generalizing s it tmp with
  | zero => cases ran
  | succ fuel ih =>
      cases it with
      | none =>
          cases ran
          exact start
      | some id =>
          obtain ⟨s₁, done, ran⟩ := bind_eq_ok ran
          obtain ⟨tmp', _, ran⟩ := bind_eq_ok ran
          exact ih (step s id s₁ start done) ran

theorem Linked.cascade (linked : Linked b) {fuel l i : Nat}
    (cascaded : b.cascade fuel l i = .ok b') : Linked b' := by
  obtain ⟨_, _, ran⟩ := bind_eq_ok cascaded
  exact foreachLoop_keeps (fun _ _ _ keeps done => (keeps.cascadeOne done).linked) linked ran

theorem Linked.cascades (linked : Linked b) {fuel : Nat} {ns : List Nat}
    (cascaded : cascades fuel b ns = .ok b') : Linked b' := by
  induction ns generalizing b with
  | nil =>
      cases cascaded
      exact linked
  | cons n ns ih =>
      obtain ⟨b₁, first, cascaded⟩ := bind_eq_ok cascaded
      have linked₁ := linked.cascade first
      split at cascaded
      · exact ih linked₁ cascaded
      · cases cascaded
        exact linked₁

theorem Linked.passHead (linked : Linked b) {fuel : Nat} (headed : b.passHead fuel = .ok b') :
    Linked b' := by
  unfold GpTimerBase.passHead at headed
  split at headed
  · exact linked.cascades headed
  · cases headed
    exact linked

/-- The run lemma: whatever is called, the lists stay lists. -/
theorem run_linked (linked : Linked b₀) (run : (wheelSteps b₀).Run events b) : Linked b := by
  refine run.invariant (I := fun _ b => Linked b) ?_ ?_
  · rintro b rfl
    exact linked
  · intro events b ev b' _ linked stepped
    cases ev with
    | call c => exact (linked.call stepped.1 stepped.2).linked
    | head fuel =>
        obtain ⟨b₁, headed, rfl⟩ := stepped
        -- the head changes lists through cascades only, and then the tick is counted
        have linked₁ := linked.passHead headed
        exact ⟨linked₁.linked, linked₁.nodup⟩
    | expire id =>
        obtain ⟨log, log', expired⟩ := stepped
        exact (linked.expire expired).1.linked

/-! ## `gp_run_timers` takes steps -/

theorem runOps_steps {calls : List TimerOp} (run : (wheelSteps b₀).Run events b)
    (typed : TypedOps b calls) (ran : runOps b calls = .ok b') :
    ∃ more, (wheelSteps b₀).Run (events ++ more) b' := by
  induction calls generalizing b events with
  | nil =>
      cases ran
      exact ⟨[], by rwa [List.append_nil]⟩
  | cons c calls ih =>
      obtain ⟨b₁, executed, ran⟩ := bind_eq_ok ran
      have run₁ : (wheelSteps b₀).Run (events ++ [.call c]) b₁ := run.step ⟨typed.1, executed⟩
      obtain ⟨more, run'⟩ := ih run₁ (typed.2 b₁ executed) ran
      exact ⟨_ :: more, by rwa [List.append_cons]⟩

/-- A timer fires: its callback, and what follows it. -/
theorem expireOne_eq (callback : TimerId → GpTimerBase → Except Fault GpTimerBase)
    (s : GpTimerBase × List TimerId) (id : TimerId) :
    expireOne callback s id = (do
      let b ← callback id s.1
      expireOne quiet (b, s.2) id) := rfl

theorem pass_steps {script : OpScript} (typed : ∀ id b, TypedOps b (script id b)) {fuel : Nat}
    {fired : List TimerId} (run : (wheelSteps b₀).Run events b)
    (passed : b.pass fuel script.callback = .ok (b', fired)) :
    ∃ more, (wheelSteps b₀).Run (events ++ more) b' := by
  obtain ⟨b₁, headed, passed⟩ := bind_eq_ok passed
  obtain ⟨_, _, ran⟩ := bind_eq_ok passed
  have start : (wheelSteps b₀).Run (events ++ [.head fuel])
      { b₁ with timerJiffies := uint32 (b₁.timerJiffies + 1) } := run.step ⟨b₁, headed, rfl⟩
  refine foreachLoop_keeps (Q := fun s => ∃ more, (wheelSteps b₀).Run (events ++ more) s.1) ?_
    ⟨_, start⟩ ran
  -- one round: the calls of the callback, and what follows them
  rintro s id ⟨b₃, log⟩ ⟨more, run'⟩ fired
  rw [expireOne_eq] at fired
  obtain ⟨b₂, called, expired⟩ := bind_eq_ok fired
  obtain ⟨calls, run₂⟩ := runOps_steps run' (typed id s.1) called
  have run₃ : (wheelSteps b₀).Run ((events ++ more) ++ calls ++ [.expire id]) b₃ :=
    run₂.step ⟨_, _, expired⟩
  rw [List.append_assoc, List.append_assoc] at run₃
  exact ⟨_, run₃⟩

/-- The wheel that `gp_run_timers` leaves is reached by steps. -/
theorem gpRunTimers_steps {script : OpScript} (typed : ∀ id b, TypedOps b (script id b))
    {fuel jiffies rounds : Nat} {passes : List (Nat × List TimerId)}
    (run : (wheelSteps b₀).Run events b)
    (ran : gpRunTimers fuel script.callback jiffies b rounds = .ok (b', passes)) :
    ∃ more, (wheelSteps b₀).Run (events ++ more) b' := by
  induction rounds generalizing b events passes with
  | zero => cases ran
  | succ rounds ih =>
      unfold gpRunTimers at ran
      split at ran
      · obtain ⟨⟨b₁, fired⟩, passed, ran⟩ := bind_eq_ok ran
        obtain ⟨⟨b₂, later⟩, rest, ran⟩ := bind_eq_ok ran
        cases ran
        obtain ⟨more, run₁⟩ := pass_steps typed run passed
        obtain ⟨more', run₂⟩ := ih run₁ rest
        exact ⟨more ++ more', by rwa [List.append_assoc] at run₂⟩
      · cases ran
        exact ⟨[], by rwa [List.append_nil]⟩

end Steps

end GpBase.Timer

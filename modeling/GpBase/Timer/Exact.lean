import GpBase.Lib.Run
import GpBase.Timer.Pass

/-!
# Timers fire exactly on time

A history of calls on one wheel, with a clock that never wraps beside the 32-bit
one. `Deadlines` follows the history in the callers' terms: which timers exist and
at which tick each pending one is due. The passes that `gp_run_timers` makes are
those that the deadlines ask for.
-/

namespace GpBase.Timer

open GpBase.Lib GpTimerBase

/-! ## Histories -/

/-- A call on the wheel, for one-shot timers. -/
inductive TimerCall
  | /-- `create_gp_timer`, and the timer gets its loop -/
    create (id : TimerId) (expires : Nat) (interval : Int)
  | add (id : TimerId)
  | del (id : TimerId)
  | mod (id : TimerId) (expires : Nat) (interval : Int)
  | /-- the clock advances, and `gp_run_timers` is called with it -/
    run (advance : Nat)
  deriving DecidableEq, Repr

/-- The call is about timer `id`. -/
def TimerCall.names (id : TimerId) : TimerCall → Prop
  | .create id' _ _ => id' = id
  | .add id' => id' = id
  | .del id' => id' = id
  | .mod id' _ _ => id' = id
  | .run _ => False

/-- The value of `timer_jiffies` at the head of a pass, and who fired. -/
abbrev Pass := Nat × List TimerId

structure TimerState where
  base : GpTimerBase
  clock : Nat

/-- An expiry less than `2 ^ 31` ticks ahead. -/
def Ahead (b : GpTimerBase) (expires : Nat) : Prop :=
  uint32 ((expires : Int) - b.timerJiffies) < 2 ^ 31

instance (b : GpTimerBase) (expires : Nat) : Decidable (Ahead b expires) :=
  inferInstanceAs (Decidable (_ < _))

/-- What callers promise: timers they use are allocated, expiries are `uint32_t`
and ahead when they are added, and the clock does not jump. -/
def Legal (s : TimerState) : TimerCall → Prop
  | .create id expires _ => s.base.timers id = none ∧ expires < 2 ^ 32
  | .add id => ∃ t, s.base.timers id = some t ∧ Ahead s.base t.expires
  | .del id => ∃ t, s.base.timers id = some t
  | .mod id expires _ =>
      (∃ t, s.base.timers id = some t) ∧ expires < 2 ^ 32 ∧ Ahead s.base expires
  | .run advance => advance < 2 ^ 31

/-- The call returns with the wheel `b` after the passes `passes`. -/
def Returns (s : TimerState) (b : GpTimerBase) (passes : List Pass) : TimerCall → Prop
  | .create id expires interval =>
      (s.base.createGpTimer id expires interval 0).setLoop id = .ok b ∧ passes = []
  | .add id => s.base.gpTimerAdd id = .ok b ∧ passes = []
  | .del id => s.base.gpTimerDel id = .ok b ∧ passes = []
  | .mod id expires interval => s.base.gpTimerMod id expires interval 0 = .ok b ∧ passes = []
  | .run advance => ∃ fuel rounds,
      gpRunTimers fuel quiet ((s.clock + advance) % 2 ^ 32) s.base rounds = .ok (b, passes)

/-- The clock after a call. -/
def TimerCall.advance : TimerCall → Nat
  | .run advance => advance
  | _ => 0

/-- A wheel that is created at tick `j₀`, and legal calls on it. -/
def timerSys (j₀ : Nat) : TSys TimerState (TimerCall × List Pass) where
  init s := s.base = createGpTimerBase (j₀ % 2 ^ 32) ∧ s.clock = j₀
  step s a t := Legal s a.1 ∧ Returns s t.base a.2 a.1 ∧ t.clock = s.clock + a.1.advance

/-! ## Deadlines -/

/-- The clock, the first tick that is not processed yet, and the timers. -/
structure Deadlines where
  clock : Nat
  next : Nat
  timers : Pending

namespace Deadlines

/-- The tick, not before `next`, whose low 32 bits are `expires`. -/
def tickOf (d : Deadlines) (expires : Nat) : Nat :=
  d.next + uint32 ((expires : Int) - (d.next % 2 ^ 32 : Nat))

def call (d : Deadlines) : TimerCall → Deadlines
  | .create id expires _ => { d with timers := d.timers.setExpires id expires }
  | .add id =>
      match d.timers.expires id with
      | some expires => { d with timers := d.timers.arm id (d.tickOf expires) }
      | none => d
  | .del id => { d with timers := d.timers.disarm id }
  | .mod id expires _ =>
      { d with timers := (d.timers.setExpires id expires).arm id (d.tickOf expires) }
  | .run advance =>
      let clock := d.clock + advance
      { clock := clock, next := clock + 1, timers := d.timers.elapse (clock + 1) }

/-- The deadlines after a history. -/
def after (j₀ : Nat) (events : List (TimerCall × List Pass)) : Deadlines :=
  events.foldl (fun d a => d.call a.1) ⟨j₀, j₀, fun _ => none, fun _ => none⟩

/-- Calls do not go back in time. -/
theorem next_le_call (d : Deadlines) (close : d.next ≤ d.clock + 1) (c : TimerCall) :
    d.next ≤ (d.call c).next := by
  cases c with
  | add id =>
      unfold call
      dsimp only
      split <;> exact le_refl _
  | run advance =>
      show d.next ≤ d.clock + advance + 1
      omega
  | _ => exact le_refl _

theorem after_snoc (j₀ : Nat) (events : List (TimerCall × List Pass))
    (a : TimerCall × List Pass) : after j₀ (events ++ [a]) = (after j₀ events).call a.1 := by
  simp [after]

end Deadlines

/-- The values of `timer_jiffies` at the passes in which the timer fired. -/
def firings (id : TimerId) (events : List (TimerCall × List Pass)) : List Nat :=
  (events.flatMap Prod.snd).flatMap fun pass => List.replicate (pass.2.count id) pass.1

/-! ## Calls between runs -/

section Calls

variable {b : GpTimerBase} {J : Nat} {rate : TimerId → Option Nat} {P : Pending}
  {cover : List TimerId} {id : TimerId} {t : GpTimerList}

theorem Ready.widen (r : Ready b J rate P cover) (id : TimerId) :
    Ready b J rate P (id :: cover) :=
  ⟨{ r.placed with
    covered := fun id' pending => List.mem_cons_of_mem id (r.placed.covered id' pending) },
    r.jiffies⟩

/-- A new timer is idle. -/
theorem Ready.create (r : Ready b J rate P cover) (free : b.timers id = none) {expires : Nat}
    {interval repeatFlag : Int} {v : Option Nat}
    (pace : Paced v ⟨expires, interval, repeatFlag, true, none⟩) :
    ∃ b', (b.createGpTimer id expires interval repeatFlag).setLoop id = .ok b' ∧
      b'.timers id = some ⟨expires, interval, repeatFlag, true, none⟩ ∧
      Ready b' J (Function.update rate id v) (P.setExpires id expires) cover := by
  obtain ⟨b', created, live, p, jiffies, _⟩ := r.placed.create free pace
  exact ⟨b', created, live, p, jiffies.trans r.jiffies⟩

/-- The tick that an expiry stands for. -/
theorem tickOf_spec {J e E : Nat} (small : e < 2 ^ 32)
    (tick : E = J + uint32 ((e : Int) - (J % 2 ^ 32 : Nat))) :
    e = E % 2 ^ 32 ∧ J ≤ E ∧ E < J + 2 ^ 32 := by
  unfold uint32 at tick
  omega

/-- `gp_timer_add` arms a timer. -/
theorem Ready.add (r : Ready b J rate P cover) (live : b.timers id = some t)
    (small : t.expires < 2 ^ 32) :
    ∃ b', b.gpTimerAdd id = .ok b' ∧
      Ready b' J rate (P.arm id (J + uint32 ((t.expires : Int) - (J % 2 ^ 32 : Nat))))
        (id :: cover) := by
  obtain ⟨expires, low, high⟩ := tickOf_spec small rfl
  obtain ⟨b₂, _, _, added, p₂, jiffies₂, _⟩ := (r.widen id).placed.add r.jiffies live expires low
    high (fun l i place => place) List.mem_cons_self
  exact ⟨b₂, added, p₂, jiffies₂⟩

/-- `gp_timer_mod` arms a timer with its new expiry. -/
theorem Ready.mod (r : Ready b J rate P cover) (live : b.timers id = some t) {expires : Nat}
    {interval repeatFlag : Int} {v : Option Nat} (small : expires < 2 ^ 32)
    (pace : Paced v ⟨expires, interval, repeatFlag, t.hasLoop, none⟩) :
    ∃ b', b.gpTimerMod id expires interval repeatFlag = .ok b' ∧
      Ready b' J (Function.update rate id v) ((P.setExpires id expires).arm id
        (J + uint32 ((expires : Int) - (J % 2 ^ 32 : Nat)))) (id :: cover) := by
  obtain ⟨same, low, high⟩ := tickOf_spec small rfl
  generalize J + uint32 ((expires : Int) - (J % 2 ^ 32 : Nat)) = E at *
  subst same
  obtain ⟨b₁, _, _, modified, p₁, jiffies₁, _⟩ := (r.widen id).placed.mod r.jiffies live pace low
    high (fun l i place => place) List.mem_cons_self
  exact ⟨b₁, modified, p₁, jiffies₁⟩

/-- `gp_timer_del` disarms a timer. -/
theorem Ready.del (r : Ready b J rate P cover) (live : b.timers id = some t) :
    ∃ b', b.gpTimerDel id = .ok b' ∧ Ready b' J rate (P.disarm id) cover := by
  obtain ⟨b₁, deleted, p₁, jiffies₁, _⟩ := r.placed.remove live
  exact ⟨b₁, deleted, p₁, jiffies₁.trans r.jiffies⟩

/-- A call that keeps the timers one-shot. -/
theorem Ready.oneShot (r : Ready b J (Function.update (fun _ => none) id none) P cover) :
    Wheel b J J P cover := by
  rw [Function.update_eq_self_iff.mpr rfl] at r
  exact r.wheel

end Calls

/-! ## Whole histories -/

/-- The state keeps up with the deadlines. -/
structure Follows (d : Deadlines) (s : TimerState) : Prop where
  clock : s.clock = d.clock
  next : d.clock ≤ d.next ∧ d.next ≤ d.clock + 1
  small : ∀ id expires, d.timers.expires id = some expires → expires < 2 ^ 32
  wheel : ∃ cover, Wheel s.base d.next d.next d.timers cover

section Follows

variable {d d' : Deadlines} {s : TimerState} {id : TimerId}

theorem Follows.start (j₀ : Nat) :
    Follows (Deadlines.after j₀ []) ⟨createGpTimerBase (j₀ % 2 ^ 32), j₀⟩ := by
  refine ⟨rfl, ⟨le_refl j₀, Nat.le_succ j₀⟩, ?_, [], (ready_createGpTimerBase j₀).wheel⟩
  intro id expires h
  cases h

/-- What a call leads to: it returns, and however it returns, the state keeps up
and the passes were exact. -/
def Kept (d d' : Deadlines) (clock : Nat) (returns : GpTimerBase → List Pass → Prop) : Prop :=
  (∃ b passes, returns b passes) ∧
    ∀ b passes, returns b passes →
      Follows d' ⟨b, clock⟩ ∧ passes.length = d'.next - d.next ∧
        ExactPasses d.timers.due d.next passes

/-- A call that makes no pass. -/
theorem Kept.of_ok {m : Except Fault GpTimerBase} {b' : GpTimerBase} {clock : Nat}
    (made : m = .ok b') (same : d'.next = d.next) (follows : Follows d' ⟨b', clock⟩) :
    Kept d d' clock fun b passes => m = .ok b ∧ passes = [] := by
  refine ⟨⟨b', [], made, rfl⟩, ?_⟩
  rintro b passes ⟨returned, rfl⟩
  rw [made] at returned
  cases returned
  refine ⟨follows, by simp [same], ?_⟩
  intro k tick fired h
  simp at h

/-- A `uint32_t` is stored in a timer. -/
theorem small_update {expires : TimerId → Option Nat} {e : Nat}
    (small : ∀ id e, expires id = some e → e < 2 ^ 32) (new : e < 2 ^ 32) (id : TimerId) :
    ∀ id' e', Function.update expires id (some e) id' = some e' → e' < 2 ^ 32 := by
  intro id' e' h
  rw [Function.update_apply] at h
  split at h
  · cases h
    exact new
  · exact small id' e' h

theorem Follows.run (f : Follows d s) {advance : Nat} (short : advance < 2 ^ 31) :
    Kept d (d.call (.run advance)) (s.clock + advance) fun b passes =>
      Returns s b passes (.run advance) := by
  obtain ⟨cover, w⟩ := f.wheel
  have near : s.clock + advance < d.next + 2 ^ 31 := by
    have := f.next
    have := f.clock
    omega
  have reach : d.next ≤ s.clock + advance + 1 := by
    have := f.next
    have := f.clock
    omega
  refine ⟨?_, ?_⟩
  · -- fuel for every timer on the wheel, and a round for every tick
    rcases gpRunTimers_spec (cover.length + 1) (s.clock + advance + 2 - d.next) near reach w with
      ⟨b, passes, ran, _⟩ | ⟨few, _⟩
    · exact ⟨b, passes, _, _, ran⟩
    · omega
  · rintro b passes ⟨fuel, rounds, returned⟩
    rcases gpRunTimers_spec fuel rounds near reach w with
      ⟨b', passes', ran, length, exact, w'⟩ | ⟨_, hung⟩
    · rw [ran] at returned
      cases returned
      rw [f.clock] at length w' ⊢
      refine ⟨⟨rfl, ⟨Nat.le_succ _, le_refl _⟩, ?_, cover, w'⟩, length, exact⟩
      intro id e h
      simp only [Deadlines.call, Pending.elapse] at h
      split at h
      · cases h
      · exact f.small id e h
    · rw [hung] at returned
      cases returned

/-- One call. -/
theorem Follows.call (f : Follows d s) {c : TimerCall} (legal : Legal s c) :
    Kept d (d.call c) (s.clock + c.advance) fun b passes => Returns s b passes c := by
  obtain ⟨cover, w⟩ := f.wheel
  cases c with
  | create id expires interval =>
      have once : Paced none ⟨expires, interval, 0, true, none⟩ := Int.zero_ne_one
      obtain ⟨b', created, _, r'⟩ := w.ready.create legal.1 once
      exact .of_ok created rfl
        ⟨f.clock, f.next, small_update f.small legal.2 id, cover, r'.oneShot⟩
  | add id =>
      obtain ⟨t, live, _⟩ := legal
      have field : d.timers.expires id = some t.expires := by rw [← w.fields id, live]; rfl
      obtain ⟨b', added, r'⟩ := w.ready.add live (f.small id _ field)
      refine .of_ok added ?_ ?_
      · simp only [Deadlines.call, field]
      · simp only [Deadlines.call, field]
        exact ⟨f.clock, f.next, f.small, _, r'.wheel⟩
  | del id =>
      obtain ⟨t, live⟩ := legal
      obtain ⟨b', deleted, r'⟩ := w.ready.del live
      exact .of_ok deleted rfl ⟨f.clock, f.next, f.small, cover, r'.wheel⟩
  | mod id expires interval =>
      obtain ⟨⟨t, live⟩, small, _⟩ := legal
      have once : Paced none ⟨expires, interval, 0, t.hasLoop, none⟩ := Int.zero_ne_one
      obtain ⟨b', modified, r'⟩ := w.ready.mod live small once
      exact .of_ok modified rfl
        ⟨f.clock, f.next, small_update f.small small id, _, r'.oneShot⟩
  | run advance => exact f.run legal

end Follows

section Histories

variable {j₀ : Nat} {events : List (TimerCall × List Pass)} {s : TimerState} {id : TimerId}

/-- The run lemma: every history is followed by its deadlines. -/
theorem run_follows (run : (timerSys j₀).Run events s) : Follows (Deadlines.after j₀ events) s := by
  refine run.invariant (I := fun events s => Follows (Deadlines.after j₀ events) s) ?_ ?_
  · rintro ⟨base, clock⟩ ⟨fresh, start⟩
    dsimp only at fresh start
    subst fresh start
    exact Follows.start clock
  · rintro events s ⟨c, passes⟩ ⟨b, clock⟩ _ follows ⟨legal, returned, rfl⟩
    rw [Deadlines.after_snoc]
    exact ((follows.call legal).2 b passes returned).1

theorem firings_append (id : TimerId) (events later : List (TimerCall × List Pass)) :
    firings id (events ++ later) = firings id events ++ firings id later := by
  simp [firings]

theorem ExactPasses.cons {due : TimerId → Option Nat} {J : Nat} {pass : Pass} {passes : List Pass}
    (exact : ExactPasses due J (pass :: passes)) :
    (pass.1 = J % 2 ^ 32 ∧ ∀ id, pass.2.count id = if due id = some J then 1 else 0) ∧
      ExactPasses due (J + 1) passes := by
  refine ⟨exact 0 pass.1 pass.2 rfl, ?_⟩
  intro k tick fired h
  have := exact (k + 1) tick fired h
  rwa [show J + (k + 1) = J + 1 + k by omega] at this

/-- Exact passes fire a pending timer if they cover its deadline. -/
theorem ExactPasses.firings_eq {due : TimerId → Option Nat} {J : Nat} {passes : List Pass}
    (exact : ExactPasses due J passes) (c : TimerCall) :
    firings id [(c, passes)] = match due id with
      | some E => if J ≤ E ∧ E < J + passes.length then [E % 2 ^ 32] else []
      | none => [] := by
  have flat : firings id [(c, passes)] =
      passes.flatMap fun pass => List.replicate (pass.2.count id) pass.1 := by
    simp [firings]
  rw [flat]
  clear flat
  induction passes generalizing J with
  | nil =>
      cases due id with
      | none => rfl
      | some E =>
          simp only [List.flatMap_nil, List.length_nil]
          rw [if_neg (by omega)]
  | cons pass passes ih =>
      obtain ⟨⟨tick, count⟩, rest⟩ := exact.cons
      rw [List.flatMap_cons, ih rest, tick, count]
      cases due id with
      | none => rfl
      | some E =>
          simp only [Option.some.injEq, List.length_cons]
          -- the first pass fires it, or the later ones do
          by_cases now : E = J
          · rw [if_pos now, if_neg (by omega), if_pos (by omega), now]
            rfl
          · rw [if_neg now, List.replicate_zero, List.nil_append]
            congr 1
            rw [eq_iff_iff]
            omega

/-- A call about other timers leaves a deadline alone, until it has passed. -/
theorem Deadlines.call_due {d : Deadlines} {c : TimerCall} (other : ¬ c.names id)
    (ahead : ∀ E, d.timers.due id = some E → d.next ≤ E) :
    (d.call c).timers.due id =
      if (d.timers.due id).any (· < (d.call c).next) then none else d.timers.due id := by
  -- only a run moves `next`
  have waiting : (d.timers.due id).any (· < d.next) = false := by
    cases due : d.timers.due id with
    | none => rfl
    | some E => simpa using ahead E due
  cases c with
  | create id' expires interval =>
      show d.timers.due id = if (d.timers.due id).any (· < d.next) then none else d.timers.due id
      rw [waiting]
      rfl
  | add id' =>
      have apart : id ≠ id' := fun same => other same.symm
      have next : (d.call (.add id')).next = d.next := by
        unfold Deadlines.call
        dsimp only
        split <;> rfl
      have due : (d.call (.add id')).timers.due id = d.timers.due id := by
        unfold Deadlines.call
        dsimp only
        split
        · exact Function.update_of_ne apart ..
        · rfl
      rw [next, due, waiting]
      rfl
  | del id' =>
      have apart : id ≠ id' := fun same => other same.symm
      have due : (d.call (.del id')).timers.due id = d.timers.due id :=
        Function.update_of_ne apart ..
      show _ = if (d.timers.due id).any (· < d.next) then none else d.timers.due id
      rw [due, waiting]
      rfl
  | mod id' expires interval =>
      have apart : id ≠ id' := fun same => other same.symm
      have due : (d.call (.mod id' expires interval)).timers.due id = d.timers.due id :=
        Function.update_of_ne apart ..
      show _ = if (d.timers.due id).any (· < d.next) then none else d.timers.due id
      rw [due, waiting]
      rfl
  | run advance => rfl

/-- While no call names a timer, it fires at its deadline and at no other tick. -/
theorem fires_once {before later : List (TimerCall × List Pass)}
    (run : (timerSys j₀).Run (before ++ later) s) (untouched : ∀ a ∈ later, ¬ a.1.names id) :
    match (Deadlines.after j₀ before).timers.due id with
    | some E =>
        if E < (Deadlines.after j₀ (before ++ later)).next then
          (Deadlines.after j₀ (before ++ later)).timers.due id = none ∧
            firings id later = [E % 2 ^ 32]
        else
          (Deadlines.after j₀ (before ++ later)).timers.due id = some E ∧ firings id later = []
    | none =>
        (Deadlines.after j₀ (before ++ later)).timers.due id = none ∧ firings id later = [] := by
  induction later using List.reverseRecOn generalizing s with
  | nil =>
      rw [List.append_nil] at run ⊢
      obtain ⟨cover, w⟩ := (run_follows run).wheel
      cases due : (Deadlines.after j₀ before).timers.due id with
      | none => exact ⟨rfl, rfl⟩
      | some E =>
          have := (w.ready.due_le due).1
          simp only
          rw [if_neg (by omega)]
          exact ⟨trivial, rfl⟩
  | append_singleton later a ih =>
      rw [← List.append_assoc] at run ⊢
      obtain ⟨s', run', legal, returned, _⟩ := run.snoc_inv
      have past := ih run' fun a mem => untouched a (List.mem_append_left _ mem)
      have other : ¬ a.1.names id := untouched a (by simp)
      have follows := run_follows run'
      obtain ⟨cover, w⟩ := follows.wheel
      obtain ⟨_, length, exact⟩ := (follows.call legal).2 _ _ returned
      have fresh : firings id (later ++ [a]) = firings id later ++ _ :=
        (firings_append id later [a]).trans (congrArg _ (exact.firings_eq a.1))
      rw [Deadlines.after_snoc, Deadlines.call_due other fun E due => (w.ready.due_le due).1, fresh,
        length]
      generalize Deadlines.after j₀ (before ++ later) = d at *
      have onward := d.next_le_call follows.next.2 a.1
      cases due : (Deadlines.after j₀ before).timers.due id with
      | none =>
          rw [due] at past
          simp [past.1, past.2]
      | some E =>
          rw [due] at past
          simp only at past ⊢
          -- fired before this call, in it, or not yet
          by_cases fired : E < d.next
          · rw [if_pos fired] at past
            rw [if_pos (by omega), past.1, past.2]
            simp
          · rw [if_neg fired] at past
            simp only [past.1, past.2, List.nil_append, Option.any_some, decide_eq_true_eq]
            by_cases now : E < (d.call a.1).next
            · rw [if_pos now, if_pos now, if_pos (by omega)]
              exact ⟨rfl, rfl⟩
            · rw [if_neg now, if_neg now, if_neg (by omega)]
              exact ⟨rfl, rfl⟩

/-- **Exactly once, exactly on time.** In every history of legal calls: every
further legal call returns; a timer that is pending with deadline `E`, and that no
later call names, fires once when the wheel has come past `E`, in the pass with
`timer_jiffies` equal to its `expires`, and not before; an idle one does not fire. -/
theorem timers_exact (run : (timerSys j₀).Run events s) :
    (∀ c, Legal s c → ∃ passes t, (timerSys j₀).step s (c, passes) t) ∧
      s.base.timerJiffies = (Deadlines.after j₀ events).next % 2 ^ 32 ∧
      ∀ before later id, events = before ++ later → (∀ a ∈ later, ¬ a.1.names id) →
        (∀ E, (Deadlines.after j₀ before).timers.due id = some E →
          (Deadlines.after j₀ before).timers.expires id = some (E % 2 ^ 32) ∧
            firings id later =
              if E < (Deadlines.after j₀ events).next then [E % 2 ^ 32] else []) ∧
        ((Deadlines.after j₀ before).timers.due id = none → firings id later = []) := by
  have follows := run_follows run
  refine ⟨?_, ?_, ?_⟩
  · intro c legal
    obtain ⟨b, passes, returned⟩ := (follows.call legal).1
    exact ⟨passes, ⟨b, _⟩, legal, returned, rfl⟩
  · obtain ⟨cover, w⟩ := follows.wheel
    exact w.jiffies
  · rintro before later id rfl untouched
    have outcome := fires_once run untouched
    refine ⟨?_, ?_⟩
    · intro E due
      rw [due] at outcome
      simp only at outcome
      refine ⟨?_, ?_⟩
      · obtain ⟨s', run'⟩ := run.of_append
        obtain ⟨cover, w⟩ := (run_follows run').wheel
        exact (w.ready.due_le due).2
      · split
        · rename_i fired
          rw [if_pos fired] at outcome
          exact outcome.2
        · rename_i waiting
          rw [if_neg waiting] at outcome
          exact outcome.2
    · intro idle
      rw [idle] at outcome
      exact outcome.2

/-- A timer set two ticks before the counter wraps fires five ticks later. -/
theorem timers_exact_wrap :
    ∃ passes s, (timerSys (2 ^ 32 - 2)).Run
        [(.create 0 3 0, []), (.add 0, []), (.run 10, passes)] s ∧
      firings 0 [(.run 10, passes)] = [3] := by
  let M := timerSys (2 ^ 32 - 2)
  let s₀ : TimerState := ⟨createGpTimerBase (2 ^ 32 - 2), 2 ^ 32 - 2⟩
  let s₁ : TimerState := ⟨s₀.base.setTimer 0 ⟨3, 0, 0, true, none⟩, s₀.clock⟩
  have run₀ : M.Run [] s₀ := .init ⟨rfl, rfl⟩
  have created : (s₀.base.createGpTimer 0 3 0 0).setLoop 0 = .ok s₁.base := by
    simp [createGpTimer, setLoop, GpTimerBase.timer, setTimer, bind, Except.bind, pure,
      Except.pure, s₀, s₁]
  have run₁ : M.Run [(.create 0 3 0, [])] s₁ :=
    .step run₀ ⟨⟨rfl, by decide⟩, ⟨created, rfl⟩, rfl⟩
  have legal₂ : Legal s₁ (.add 0) := ⟨⟨3, 0, 0, true, none⟩, rfl, by decide⟩
  obtain ⟨b₂, passes₂, returned₂, rfl⟩ := ((run_follows run₁).call legal₂).1
  have run₂ : M.Run [(.create 0 3 0, []), (.add 0, [])] ⟨b₂, s₁.clock⟩ :=
    .step run₁ ⟨legal₂, ⟨returned₂, rfl⟩, rfl⟩
  have legal₃ : Legal ⟨b₂, s₁.clock⟩ (.run 10) := by
    show 10 < 2 ^ 31
    decide
  obtain ⟨b₃, passes, returned₃⟩ := ((run_follows run₂).call legal₃).1
  have run₃ : M.Run [(.create 0 3 0, []), (.add 0, []), (.run 10, passes)]
      ⟨b₃, s₁.clock + 10⟩ := .step run₂ ⟨legal₃, returned₃, rfl⟩
  obtain ⟨_, _, exact⟩ := timers_exact run₃
  have fired := (exact [(.create 0 3 0, []), (.add 0, [])] [(.run 10, passes)] 0 rfl
    (by simp [TimerCall.names])).1 (2 ^ 32 + 3) (by rfl)
  exact ⟨passes, _, run₃, fired.2⟩

end Histories

end GpBase.Timer

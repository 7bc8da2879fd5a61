import GpBase.Timer.Sleep

/-!
# Callbacks that stop timers

`gp_run_timers` taken round by round: each round calls one callback, which stops any
timers, itself among them, and goes on with the timer it had saved; the rounds from the
head of a pass to its end are the `pass` of `GpBase.Timer.Model`. A run in which no
callback stops the saved timer, and none that repeats stops itself, fires every due timer
that was not stopped and no timer that was. A saved timer that is stopped fires all the
same, and the walk ends there; a timer that repeats is armed again after its own stop.
-/

namespace GpBase.Timer

open GpBase.Lib GpTimerBase

section Round

variable {b : GpTimerBase} {J T : Nat} {rate : TimerId → Option Nat} {P : Pending}
  {cover stops : List TimerId} {id : TimerId} {rest : List TimerId}

/-- The calls of a callback that stops the timers `stops`, one after another. -/
def stopCalls (stops : List TimerId) : List LoopCall := stops.map .stop

/-- A callback that makes these calls. -/
def stopCallback (time : Nat) (stops : List TimerId) (_ : TimerId) (b : GpTimerBase) :
    Except Fault GpTimerBase :=
  runCalls time b (stopCalls stops)

/-- Stopped timers are taken off their lists and keep their fields. -/
theorem Walking.stopAll (w : Walking J T rate P cover b) (time : Nat)
    (legal : ∀ x ∈ stops, ∃ t, b.timers x = some t) :
    ∃ b' P', runCalls time b (stopCalls stops) = .ok b' ∧ Walking J T rate P' cover b' ∧
      (∀ x, P'.due x = if x ∈ stops then none else P.due x) ∧ P'.expires = P.expires ∧
      ∀ l i, b'.vec l i = (b.vec l i).filter (· ∉ stops) := by
  induction stops generalizing b P with
  | nil => exact ⟨b, P, rfl, w, by simp, rfl, by simp⟩
  | cons y stops ih =>
      obtain ⟨t, live⟩ := legal y List.mem_cons_self
      obtain ⟨b₁, removed, w₁, live₁, vec₁⟩ := w.remove live
      have legal₁ : ∀ x ∈ stops, ∃ t, b₁.timers x = some t := by
        intro x mem
        obtain ⟨u, allocated⟩ := legal x (List.mem_cons_of_mem _ mem)
        have field := w₁.placed.fields x
        rw [show (P.disarm y).expires x = P.expires x from rfl, ← w.placed.fields x, allocated]
          at field
        obtain ⟨u', allocated', _⟩ := Option.map_eq_some_iff.mp field
        exact ⟨u', allocated'⟩
      obtain ⟨b', P', ran, w', due, expires, vec⟩ := ih w₁ legal₁
      refine ⟨b', P', ?_, w', ?_, expires, ?_⟩
      · simp only [stopCalls, List.map_cons, runCalls, LoopCall.exec, gpTimerDel, removed, bind,
          Except.bind]
        exact ran
      · intro x
        rw [due, Pending.disarm_due, Function.update_apply]
        by_cases here : x = y <;> simp [here]
      · intro l i
        rw [vec, vec₁, (w.placed.nodup l i).erase_eq_filter, List.filter_filter]
        congr 1
        funext x
        by_cases here : x = y <;> simp [here]

/-- A round of the walk: the callback of the first timer stops timers, and a timer that
repeats does not stop itself. -/
theorem Walking.round (w : Walking J T rate P cover b)
    (list : b.vec 0 (J % tvrSize) = id :: rest) (reach : J ≤ T) (time : Nat)
    (log : List TimerId) (legal : ∀ x ∈ stops, ∃ t, b.timers x = some t)
    (own : id ∈ stops → rate id = none) :
    ∃ b' P' cover', expireOne (stopCallback time stops) (b, log) id = .ok (b', log ++ [id]) ∧
      Walking J T rate P' cover' b' ∧
      (∀ x, x ≠ id → P'.due x = if x ∈ stops then none else P.due x) ∧
      (id ∈ stops → P'.due id = none) ∧ P'.due id ≠ some J ∧
      (b'.vec 0 (J % tvrSize) = rest.filter (· ∉ stops) ∨
        b'.vec 0 (J % tvrSize) = rest.filter (· ∉ stops) ++ [id]) := by
  obtain ⟨E, _, field, now⟩ := w.fires (list ▸ List.mem_cons_self)
  obtain ⟨b₁, P₁, called, w₁, due₁, expires₁, vec₁⟩ := w.stopAll time legal
  have called' : stopCallback time stops id (b, log).1 = .ok b₁ := called
  obtain ⟨b', P', cover', next, ran, w', due', once, later, list'⟩ :=
    w₁.expired called' reach (expires₁ ▸ field) now
  have erased : (b₁.vec 0 (J % tvrSize)).erase id = rest.filter (· ∉ stops) := by
    have nodup := w.placed.nodup 0 (J % tvrSize)
    rw [list, List.nodup_cons] at nodup
    have absent : id ∉ rest.filter (· ∉ stops) := fun mem => nodup.1 (List.mem_of_mem_filter mem)
    rw [vec₁, list, List.filter_cons]
    split
    · exact List.erase_cons_head ..
    · exact List.erase_of_not_mem absent
  rw [erased] at list'
  refine ⟨_, P', cover', ran, w'.updateNext, ?_, ?_, ?_, list'⟩
  · intro x apart
    rw [due', Function.update_of_ne apart, due₁]
  · intro stopped
    rw [due', Function.update_self]
    exact once (own stopped)
  · rw [due', Function.update_self]
    exact later

end Round

/-! ## Rounds -/

/-- A loop between two ticks, or inside one: `walk` holds the slot that `gp_run_timers`
walks and its pointers `timer` and `tmp`. -/
structure TickLoop where
  base : GpTimerBase
  clock : Nat
  walk : Option (Nat × Option TimerId × Option TimerId)
  /-- the timers on the list when the tick began -/
  due : List TimerId
  /-- the timers whose callback was called in this tick -/
  fired : List TimerId
  /-- the timers that were stopped, and neither started nor modified since -/
  stopped : List TimerId

/-- `loop->time`. -/
def TickLoop.time (s : TickLoop) : Nat := s.clock % 2 ^ 32

/-- The guard of the loop in `gp_run_timers`. -/
def TickLoop.behindTime (s : TickLoop) : Prop := 0 ≤ int32 ((s.time : Int) - s.base.timerJiffies)

instance (s : TickLoop) : Decidable s.behindTime :=
  inferInstanceAs (Decidable (0 ≤ int32 ((s.time : Int) - s.base.timerJiffies)))

inductive TickEvent
  | /-- made outside of `gp_run_timers` -/
    call (c : LoopCall)
  | /-- `gp_loop_update_time` -/
    wake (advance : Nat)
  | /-- the head of a pass -/
    tick (fuel : Nat)
  | /-- a callback is called and stops timers -/
    fire (stops : List TimerId)
  | /-- the end of a pass -/
    leave
  deriving DecidableEq, Repr

/-- The stopped timers after a call. -/
def LoopCall.stopped (before : List TimerId) : LoopCall → List TimerId
  | .stop id => id :: before
  | .start id _ _ | .mod id _ _ _ => before.filter (· ≠ id)

/-- The wheel and the pointers when the walk of a tick begins. -/
def TickLoop.enter (s : TickLoop) (b : GpTimerBase) (tmp : Option TimerId) : TickLoop :=
  let i := s.base.timerJiffies &&& tvrMask
  { s with base := { b with timerJiffies := uint32 (b.timerJiffies + 1) }
           walk := some (i, (b.vec 0 i).head?, tmp), due := b.vec 0 i, fired := [] }

inductive TickStep : TickLoop → TickEvent → TickLoop → Prop
  | call {s c b} : s.walk = none → c.Legal s.time s.base → c.exec s.time s.base = .ok b →
      TickStep s (.call c) { s with base := b, stopped := c.stopped s.stopped }
  | wake {s advance} : s.walk = none → ¬ s.behindTime → advance < 2 ^ 31 →
      TickStep s (.wake advance) { s with clock := s.clock + advance }
  | tick {s fuel b tmp} : s.walk = none → s.behindTime → s.base.passHead fuel = .ok b →
      b.listNext 0 (s.base.timerJiffies &&& tvrMask)
        (b.vec 0 (s.base.timerJiffies &&& tvrMask)).head? = .ok tmp →
      TickStep s (.tick fuel) (s.enter b tmp)
  | /-- the timers that a callback stops are allocated -/
    fire {s stops i id tmp tmp' b fired} : s.walk = some (i, some id, tmp) →
      (∀ x ∈ stops, ∃ t, s.base.timers x = some t) →
      expireOne (stopCallback s.time stops) (s.base, s.fired) id = .ok (b, fired) →
      b.listNext 0 i tmp = .ok tmp' →
      TickStep s (.fire stops)
        { s with base := b, walk := some (i, tmp, tmp'), fired := fired
                 stopped := stops ++ s.stopped }
  | leave {s i tmp} : s.walk = some (i, none, tmp) →
      TickStep s .leave { s with walk := none }

/-- A loop that is created at tick `j₀`. -/
def tickSys (j₀ : Nat) : TSys TickLoop TickEvent where
  init s := s = ⟨createGpTimerBase (j₀ % 2 ^ 32), j₀, none, [], [], []⟩
  step := TickStep

/-! ## Rounds and passes -/

/-- The rounds in which the timers are called back by `callback`. -/
def CalledBack (callback : TimerId → GpTimerBase → Except Fault GpTimerBase) (s : TickLoop) :
    TickEvent → Prop
  | .fire stops => ∀ i id tmp, s.walk = some (i, some id, tmp) →
      stopCallback s.time stops id s.base = callback id s.base
  | _ => False

/-- What is left of the loop in `gp_run_timers` comes to the same from each round on. -/
theorem rounds_foreachLoop {j₀ i : Nat}
    {callback : TimerId → GpTimerBase → Except Fault GpTimerBase} {s t : TickLoop}
    {rounds : List TickEvent} {it tmp : Option TimerId} (walking : s.walk = some (i, it, tmp))
    (run : (((tickSys j₀).restrict (CalledBack callback)).starting s).Run rounds t) :
    ∃ it' tmp', t.walk = some (i, it', tmp') ∧
      ∀ fuel, foreachLoop Prod.fst (expireOne callback) 0 i (fuel + rounds.length)
          (s.base, s.fired) it tmp =
        foreachLoop Prod.fst (expireOne callback) 0 i fuel (t.base, t.fired) it' tmp' := by
  refine run.invariant (I := fun rounds t => ∃ it' tmp', t.walk = some (i, it', tmp') ∧
      ∀ fuel, foreachLoop Prod.fst (expireOne callback) 0 i (fuel + rounds.length)
          (s.base, s.fired) it tmp =
        foreachLoop Prod.fst (expireOne callback) 0 i fuel (t.base, t.fired) it' tmp') ?_ ?_
  · rintro _ rfl
    exact ⟨it, tmp, walking, fun _ => rfl⟩
  · rintro rounds u ev v _ ⟨it', tmp', walking', same⟩ ⟨follows, stepped⟩
    cases stepped with
    | @fire stops j id saved saved' b fired here legal ran next =>
        obtain ⟨rfl, rfl, rfl⟩ : j = i ∧ some id = it' ∧ saved = tmp' := by
          rw [here] at walking'
          simpa using walking'
        refine ⟨_, _, rfl, ?_⟩
        intro fuel
        have round : expireOne callback (u.base, u.fired) id = .ok (b, fired) := by
          rw [← ran]
          unfold expireOne
          rw [follows j id saved here]
        rw [List.length_append, List.length_singleton, Nat.add_comm rounds.length, ← Nat.add_assoc,
          same, foreachLoop, round]
        show (b.listNext 0 j saved >>= _) = _
        rw [next]
        rfl
    | _ => exact follows.elim

/-- From the head of a pass to its end the rounds are one `pass`. -/
theorem rounds_pass {j₀ fuel : Nat}
    {callback : TimerId → GpTimerBase → Except Fault GpTimerBase} {s t u v : TickLoop}
    {rounds : List TickEvent} (entered : TickStep s (.tick fuel) t)
    (run : (((tickSys j₀).restrict (CalledBack callback)).starting t).Run rounds u)
    (few : rounds.length < fuel) (left : TickStep u .leave v) :
    s.base.pass fuel callback = .ok (v.base, v.fired) := by
  cases entered with
  | @tick _ b tmp outside guard headed next =>
      obtain ⟨it', tmp', walking, same⟩ := rounds_foreachLoop rfl run
      cases left with
      | leave ended =>
          obtain ⟨_, rfl, _⟩ : _ ∧ none = it' ∧ _ = tmp' := by
            rw [ended] at walking
            simpa using walking
          obtain ⟨rest, enough⟩ : ∃ rest, fuel = rest + 1 + rounds.length :=
            ⟨fuel - rounds.length - 1, by omega⟩
          have loop := same (rest + 1)
          rw [← enough] at loop
          unfold GpTimerBase.pass foreachSafe
          dsimp only
          rw [headed, ok_bind]
          show (b.listNext 0 _ (b.vec 0 _).head? >>= _) = _
          rw [next, ok_bind]
          exact loop

/-- The callback leaves the saved timer alone, and itself if its timer repeats. -/
def SparesWalk (s : TickLoop) : TickEvent → Prop
  | .fire stops => ∀ i id tmp, s.walk = some (i, some id, tmp) →
      (∀ x, tmp = some x → x ∉ stops) ∧
      (id ∈ stops → ∀ t, s.base.timers id = some t → t.repeatFlag ≠ 1)
  | _ => True

/-! ## The invariant -/

/-- A tick in progress: of the list that is walked, the timers in `left` are due and have
not fired, and those in `again` fired and are due later. -/
structure InTick (J : Nat) (P : Pending) (s : TickLoop) (it tmp : Option TimerId)
    (left again : List TimerId) : Prop where
  list : s.base.vec 0 (J % tvrSize) = left ++ again
  now : ∀ x ∈ left, P.due x = some J
  later : ∀ x ∈ again, P.due x ≠ some J
  at_first : ∀ id, it = some id →
    ∃ rest, s.base.vec 0 (J % tvrSize) = id :: rest ∧ tmp = rest.head?
  done : it = none → left = []
  counted : left = [] ∨ left.length + s.fired.length ≤ s.due.length
  missing : ∀ x ∈ s.due, x ∉ s.fired → x ∉ s.stopped → x ∈ left

/-- The invariant: no stopped timer is pending. -/
structure Heeded (J : Nat) (rate : TimerId → Option Nat) (P : Pending) (cover : List TimerId)
    (s : TickLoop) : Prop where
  reach : J ≤ s.clock + 1
  close : s.clock < J + 2 ^ 31
  near : ∀ x E, P.due x = some E → E < s.clock + 2 ^ 31
  idle : ∀ x ∈ s.stopped, P.due x = none
  between : s.walk = none → Ready s.base J rate P cover
  inside : ∀ i it tmp, s.walk = some (i, it, tmp) → i = J % tvrSize ∧ J ≤ s.clock ∧
    Walking J s.clock rate P cover s.base ∧ ∃ left again, InTick J P s it tmp left again

section Heeded

variable {J : Nat} {rate : TimerId → Option Nat} {P : Pending} {cover : List TimerId}
  {s : TickLoop}

theorem Heeded.behindTime_iff (h : Heeded J rate P cover s) (outside : s.walk = none) :
    s.behindTime ↔ J ≤ s.clock := by
  have guard := guard_eq h.reach h.close
  rw [TickLoop.behindTime, TickLoop.time, (h.between outside).jiffies, guard]
  omega

theorem Heeded.call (h : Heeded J rate P cover s) (outside : s.walk = none) {c : LoopCall}
    {b : GpTimerBase} (legal : c.Legal s.time s.base) (executed : c.exec s.time s.base = .ok b) :
    ∃ rate' P' cover',
      Heeded J rate' P' cover' { s with base := b, stopped := c.stopped s.stopped } := by
  have ready := h.between outside
  obtain ⟨b', rate', P', cover', executed', called⟩ := ready.placed.call ready.jiffies
    (fun x E l i place => place) h.reach h.close legal
  cases executed.symm.trans executed'
  refine ⟨rate', P', cover', h.reach, h.close, called.near legal h.near, ?_, ?_, ?_⟩
  · intro x stopped
    rw [called.due_eq, Function.update_apply]
    cases c with
    | stop id =>
        split
        · rfl
        · rename_i apart
          exact h.idle x ((List.mem_cons.mp stopped).resolve_left apart)
    | start id interval repeatFlag =>
        obtain ⟨mem, apart⟩ := List.mem_filter.mp stopped
        exact (if_neg (of_decide_eq_true apart)).trans (h.idle x mem)
    | mod id expires interval repeatFlag =>
        obtain ⟨mem, apart⟩ := List.mem_filter.mp stopped
        exact (if_neg (of_decide_eq_true apart)).trans (h.idle x mem)
  · intro _
    exact ⟨called.placed, called.jiffies⟩
  · intro i it tmp walking
    rw [show s.walk = some (i, it, tmp) from walking] at outside
    cases outside

theorem Heeded.wake (h : Heeded J rate P cover s) (outside : s.walk = none)
    (ready : ¬ s.behindTime) {advance : Nat} (short : advance < 2 ^ 31) :
    Heeded J rate P cover { s with clock := s.clock + advance } := by
  rw [h.behindTime_iff outside] at ready
  have reach := h.reach
  refine ⟨?_, ?_, ?_, h.idle, h.between, ?_⟩
  · show J ≤ s.clock + advance + 1
    omega
  · show s.clock + advance < J + 2 ^ 31
    omega
  · intro x E due
    have := h.near x E due
    show E < s.clock + advance + 2 ^ 31
    omega
  · intro i it tmp walking
    rw [show s.walk = some (i, it, tmp) from walking] at outside
    cases outside

/-- A tick begins: its list holds the timers that are due. -/
theorem Heeded.tick (h : Heeded J rate P cover s) (outside : s.walk = none)
    (guard : s.behindTime) {fuel : Nat} {b : GpTimerBase} (headed : s.base.passHead fuel = .ok b)
    {tmp : Option TimerId}
    (next : b.listNext 0 (s.base.timerJiffies &&& tvrMask)
      (b.vec 0 (s.base.timerJiffies &&& tvrMask)).head? = .ok tmp) :
    Heeded J rate P cover (s.enter b tmp) ∧
      ∀ x, x ∈ (s.enter b tmp).due ↔ P.due x = some J := by
  rw [h.behindTime_iff outside] at guard
  have before := h.between outside
  have slot : s.base.timerJiffies &&& tvrMask = J % tvrSize := by
    rw [before.jiffies, root_slot_eq]
  obtain ⟨r, settled⟩ : Ready b J rate P cover ∧ Settled b J P 4 := by
    rcases passHead_spec fuel before with ⟨b', headed', r, settled⟩ | ⟨_, hung⟩
    · cases headed.symm.trans headed'
      exact ⟨r, settled⟩
    · cases headed.symm.trans hung
  have due_now := r.mem_slot_iff settled
  have walking := r.walking settled h.near
  rw [slot] at next
  simp only [TickLoop.enter, slot]
  refine ⟨⟨h.reach, h.close, h.near, h.idle, nofun, ?_⟩, due_now⟩
  rintro i it tmp' ⟨⟩
  refine ⟨rfl, guard, walking, b.vec 0 (J % tvrSize), [], ?_⟩
  refine ⟨(List.append_nil _).symm, fun x mem => (due_now x).mp mem, nofun, ?_, ?_, ?_, ?_⟩
  · intro id first
    obtain ⟨rest, list⟩ := List.head?_eq_some_iff.mp first
    refine ⟨rest, list, ?_⟩
    have := r.placed.listNext list
    rw [list, List.head?_cons, this] at next
    exact (Except.ok.inj next).symm
  · exact List.head?_eq_none_iff.mp
  · exact .inr (Nat.le_refl _)
  · exact fun x mem _ _ => mem

/-- Behind the first timer of the list, what is due comes first. -/
theorem InTick.split {it tmp : Option TimerId} {left again : List TimerId}
    (h : InTick J P s it tmp left again) {id : TimerId} {rest : List TimerId}
    (list : s.base.vec 0 (J % tvrSize) = id :: rest) :
    ∃ left₀ again₀, rest = left₀ ++ again₀ ∧ (left = id :: left₀ ∨ left = [] ∧ left₀ = []) ∧
      ∀ x ∈ again₀, P.due x ≠ some J := by
  have whole := h.list
  rw [list] at whole
  cases left with
  | nil =>
      obtain rfl : id :: rest = again := whole
      exact ⟨[], rest, rfl, .inr ⟨rfl, rfl⟩, fun x mem => h.later x (List.mem_cons_of_mem _ mem)⟩
  | cons y left₀ =>
      obtain ⟨rfl, rfl⟩ := List.cons.inj whole
      exact ⟨left₀, again, rfl, .inl rfl, h.later⟩

/-- The next pointer of the walk is still on the list. -/
theorem listNext_spared {b : GpTimerBase} (w : Walking J s.clock rate P cover b)
    {id : TimerId} {rest stops : List TimerId} (spared : ∀ x, rest.head? = some x → x ∉ stops)
    (list : b.vec 0 (J % tvrSize) = rest.filter (· ∉ stops) ∨
      b.vec 0 (J % tvrSize) = rest.filter (· ∉ stops) ++ [id]) :
    ∃ tmp', b.listNext 0 (J % tvrSize) rest.head? = .ok tmp' ∧ ∀ y, rest.head? = some y →
      ∃ rest', b.vec 0 (J % tvrSize) = y :: rest' ∧ tmp' = rest'.head? := by
  cases rest with
  | nil => exact ⟨none, rfl, nofun⟩
  | cons y rest =>
      have kept : (y :: rest).filter (· ∉ stops) = y :: rest.filter (· ∉ stops) :=
        List.filter_cons_of_pos (decide_eq_true (spared y rfl))
      obtain ⟨rest', shape⟩ : ∃ rest', b.vec 0 (J % tvrSize) = y :: rest' := by
        rcases list with same | appended
        · exact ⟨_, same.trans kept⟩
        · exact ⟨_, by rw [appended, kept, List.cons_append]⟩
      refine ⟨rest'.head?, w.placed.listNext shape, ?_⟩
      rintro z ⟨⟩
      exact ⟨rest', shape, rfl⟩

/-- A round returns and keeps the invariant, if it spares the walk. -/
theorem Heeded.fire (h : Heeded J rate P cover s) {i : Nat} {id : TimerId}
    {tmp : Option TimerId} (walking : s.walk = some (i, some id, tmp)) {stops : List TimerId}
    (legal : ∀ x ∈ stops, ∃ t, s.base.timers x = some t) (spares : SparesWalk s (.fire stops)) :
    ∃ b fired tmp', expireOne (stopCallback s.time stops) (s.base, s.fired) id = .ok (b, fired) ∧
      b.listNext 0 i tmp = .ok tmp' ∧
      ∃ P' cover', Heeded J rate P' cover'
        { s with base := b, walk := some (i, tmp, tmp'), fired := fired
                 stopped := stops ++ s.stopped } := by
  obtain ⟨rfl, reach, w, left, again, tick⟩ := h.inside i (some id) tmp walking
  obtain ⟨rest, list, rfl⟩ := tick.at_first id rfl
  obtain ⟨spared, once⟩ := spares _ id _ walking
  obtain ⟨E, due, _, _⟩ := w.fires (list ▸ List.mem_cons_self)
  have own : id ∈ stops → rate id = none := by
    intro stopped
    obtain ⟨t, live⟩ := legal id stopped
    cases repeats : rate id with
    | none => rfl
    | some v =>
        have pace := (w.placed.paced id t live).1
        rw [repeats] at pace
        exact absurd pace.1 (once stopped t live)
  obtain ⟨b, P', cover', ran, w', others, stopped, later, list'⟩ :=
    w.round list reach s.time s.fired legal own
  obtain ⟨tmp', next, first'⟩ := listNext_spared w' spared list'
  refine ⟨b, _, tmp', ran, next, P', cover', h.reach, h.close, w'.near, ?_, nofun, ?_⟩
  · intro x mem
    by_cases same : x = id
    · subst same
      refine stopped ((List.mem_append.mp mem).resolve_right ?_)
      intro before
      rw [h.idle x before] at due
      cases due
    · rw [others x same]
      rcases List.mem_append.mp mem with now | before
      · exact if_pos now
      · rw [h.idle x before, ite_self]
  · rintro _ _ _ ⟨⟩
    obtain ⟨left₀, again₀, rfl, shape, after⟩ := tick.split list
    have nodup := w.placed.nodup 0 (J % tvrSize)
    rw [list, List.nodup_cons] at nodup
    have apart : ∀ x ∈ left₀ ++ again₀, x ≠ id := fun x mem same => nodup.1 (same ▸ mem)
    have kept : ∀ x ∈ (left₀ ++ again₀), x ∉ stops → P'.due x = P.due x := by
      intro x mem notStopped
      rw [others x (apart x mem), if_neg notStopped]
    obtain ⟨again', list'', after'⟩ : ∃ again',
        b.vec 0 (J % tvrSize) = left₀.filter (· ∉ stops) ++ again' ∧
          ∀ x ∈ again', x = id ∨ x ∈ again₀ ∧ x ∉ stops := by
      rw [List.filter_append, List.append_assoc] at list'
      rcases list' with same | appended
      · exact ⟨_, same, fun x mem => .inr (by simpa using mem)⟩
      · exact ⟨_, appended, fun x mem => by simpa [or_comm] using mem⟩
    refine ⟨rfl, reach, w', left₀.filter (· ∉ stops), again', list'', ?_, ?_, first', ?_, ?_, ?_⟩
    · intro x mem
      obtain ⟨here, notStopped⟩ := List.mem_filter.mp mem
      have old : x ∈ left := by
        rcases shape with rfl | ⟨_, rfl⟩
        · exact List.mem_cons_of_mem _ here
        · cases here
      rw [kept x (List.mem_append_left _ here) (of_decide_eq_true notStopped)]
      exact tick.now x old
    · intro x mem
      rcases after' x mem with rfl | ⟨here, notStopped⟩
      · exact later
      · rw [kept x (List.mem_append_right _ here) notStopped]
        exact after x here
    · intro none
      have empty := List.head?_eq_none_iff.mp none
      rw [(List.append_eq_nil_iff.mp empty).1]
      rfl
    · -- one more has fired, one less is left
      rcases shape with rfl | ⟨_, rfl⟩
      · right
        have counted := tick.counted.resolve_left (List.cons_ne_nil _ _)
        have shorter := List.length_filter_le (fun x => decide (x ∉ stops)) left₀
        rw [List.length_cons] at counted
        show _ + (s.fired ++ [id]).length ≤ s.due.length
        rw [List.length_append, List.length_singleton]
        omega
      · exact .inl rfl
    · intro x mem notFired notStopped
      obtain ⟨before, notId⟩ := not_or.mp (List.mem_append.not.mp notFired)
      obtain ⟨notNow, notBefore⟩ := not_or.mp (List.mem_append.not.mp notStopped)
      have old := tick.missing x mem before notBefore
      refine List.mem_filter.mpr ⟨?_, decide_eq_true notNow⟩
      rcases shape with rfl | ⟨rfl, _⟩
      · exact (List.mem_cons.mp old).resolve_left (fun same => notId (List.mem_singleton.mpr same))
      · cases old

/-- The end of a tick: nothing on the list is due now. -/
theorem Heeded.leave (h : Heeded J rate P cover s) {i : Nat} {tmp : Option TimerId}
    (walking : s.walk = some (i, none, tmp)) :
    Heeded (J + 1) rate P cover { s with walk := none } := by
  obtain ⟨rfl, reach, w, left, again, tick⟩ := h.inside i none tmp walking
  refine ⟨Nat.succ_le_succ reach, ?_, h.near, h.idle, ?_, nofun⟩
  · have := h.close
    show s.clock < J + 1 + 2 ^ 31
    omega
  · intro _
    refine ⟨w.placed.mono ?_, w.jiffies⟩
    rintro x E l i due mem (⟨rfl, rfl, rfl⟩ | place)
    · rw [tick.list, tick.done rfl, List.nil_append] at mem
      exact absurd due (tick.later x mem)
    · exact place

/-- The timers due at tick `J` are the pending ones whose `expires` is `timer_jiffies`. -/
theorem Ready.due_iff {b : GpTimerBase} (r : Ready b J rate P cover)
    (close : ∀ x E, P.due x = some E → E < J + 2 ^ 32) (x : TimerId) :
    P.due x = some J ↔ ∃ t, IsPending b x t ∧ t.expires = b.timerJiffies := by
  constructor
  · intro due
    obtain ⟨t, pending⟩ := r.pending_of_due due
    obtain ⟨E, due', expires, _⟩ := r.due_of_pending pending
    rw [due] at due'
    cases due'
    exact ⟨t, pending, by rw [expires, r.jiffies]⟩
  · rintro ⟨t, pending, same⟩
    obtain ⟨E, due, expires, low⟩ := r.due_of_pending pending
    have high := close x E due
    rw [expires, r.jiffies] at same
    rw [due]
    congr 1
    omega

end Heeded

section Runs

variable {j₀ : Nat} {events : List TickEvent} {s : TickLoop}

theorem run_heeded (run : ((tickSys j₀).restrict SparesWalk).Run events s) :
    ∃ J rate P cover, Heeded J rate P cover s := by
  refine run.invariant (I := fun _ s => ∃ J rate P cover, Heeded J rate P cover s) ?_ ?_
  · rintro s rfl
    have ready := ready_createGpTimerBase j₀
    refine ⟨j₀, _, _, _, Nat.le_succ j₀, ?_, ?_, nofun, fun _ => ready, nofun⟩
    · show j₀ < j₀ + 2 ^ 31
      omega
    · intro x E due
      cases due
  · rintro events s ev t _ ⟨J, rate, P, cover, h⟩ ⟨spares, stepped⟩
    cases stepped with
    | call outside legal executed => exact ⟨J, h.call outside legal executed⟩
    | wake outside ready short => exact ⟨J, rate, P, cover, h.wake outside ready short⟩
    | tick outside guard headed next =>
        exact ⟨J, rate, P, cover, (h.tick outside guard headed next).1⟩
    | fire walking legal ran next =>
        obtain ⟨b, fired, tmp', ran', next', P', cover', h'⟩ := h.fire walking legal spares
        cases ran.symm.trans ran'
        cases next.symm.trans next'
        exact ⟨J, rate, P', cover', h'⟩
    | leave walking => exact ⟨J + 1, rate, P, cover, h.leave walking⟩

/-- **Stops take effect.** In every run whose callbacks spare their walks, the callback of
a stopped timer is never called. A tick takes up the pending timers whose time has come;
when it ends, and in any case after as many rounds as there were timers, each one has
fired or been stopped. Every round returns. -/
theorem stops_take_effect (run : ((tickSys j₀).restrict SparesWalk).Run events s) :
    (∀ i id tmp, s.walk = some (i, some id, tmp) → id ∉ s.stopped) ∧
    (∀ i it tmp, s.walk = some (i, it, tmp) → it = none ∨ s.due.length ≤ s.fired.length →
      ∀ x ∈ s.due, x ∈ s.fired ∨ x ∈ s.stopped) ∧
    (∀ fuel t, TickStep s (.tick fuel) t → ∀ x,
      x ∈ t.due ↔ ∃ u, IsPending s.base x u ∧ u.expires = s.base.timerJiffies) ∧
    (∀ i id tmp stops, s.walk = some (i, some id, tmp) →
      (∀ x ∈ stops, ∃ t, s.base.timers x = some t) → SparesWalk s (.fire stops) →
      ∃ t, TickStep s (.fire stops) t) := by
  obtain ⟨J, rate, P, cover, h⟩ := run_heeded run
  refine ⟨?_, ?_, ?_, ?_⟩
  · intro i id tmp walking stopped
    obtain ⟨rfl, _, w, left, again, tick⟩ := h.inside i (some id) tmp walking
    obtain ⟨rest, list, _⟩ := tick.at_first id rfl
    obtain ⟨E, due, _⟩ := w.fires (list ▸ List.mem_cons_self)
    rw [h.idle id stopped] at due
    cases due
  · intro i it tmp walking finished x mem
    obtain ⟨_, _, _, left, again, tick⟩ := h.inside i it tmp walking
    have empty : left = [] := by
      rcases finished with ended | rounds
      · exact tick.done ended
      · rcases tick.counted with none | counted
        · exact none
        · exact List.eq_nil_of_length_eq_zero (by omega)
    by_contra missed
    obtain ⟨notFired, notStopped⟩ := not_or.mp missed
    have := tick.missing x mem notFired notStopped
    rw [empty] at this
    cases this
  · intro fuel t stepped x
    cases stepped with
    | tick outside guard headed next =>
        have close : ∀ x E, P.due x = some E → E < J + 2 ^ 32 := by
          intro x E due
          have := h.near x E due
          have := h.close
          omega
        rw [(h.tick outside guard headed next).2 x, (h.between outside).due_iff close]
  · intro i id tmp stops walking legal spares
    obtain ⟨b, fired, tmp', ran, next, _⟩ := h.fire walking legal spares
    exact ⟨_, .fire walking legal ran next⟩

/-- Three timers are started at tick 1, for tick 2. -/
def threeTimers : GpTimerBase :=
  afterCall (.start 2 1 0) (afterCall (.start 1 1 0) (afterCall (.start 0 1 0)
    (createGpTimerBase 1)))

/-- Tick 1, at which no timer is due. -/
def quietTick : TickLoop :=
  TickLoop.enter ⟨threeTimers, 1, none, [], [], []⟩ threeTimers none

/-- Tick 2 begins: the three timers are on its list. -/
def secondTick : TickLoop :=
  TickLoop.enter { quietTick with walk := none, clock := 2 } quietTick.base (some 1)

theorem start_step {b : GpTimerBase} {id : TimerId} (free : b.timers id = none)
    (started : (LoopCall.start id 1 0).exec 1 b = .ok (afterCall (.start id 1 0) b)) :
    TickStep ⟨b, 1, none, [], [], []⟩ (.call (.start id 1 0))
      ⟨afterCall (.start id 1 0) b, 1, none, [], [], []⟩ :=
  .call rfl ⟨free, by decide, by decide⟩ started

theorem secondTick_run :
    ((tickSys 1).restrict SparesWalk).Run [.call (.start 0 1 0), .call (.start 1 1 0),
      .call (.start 2 1 0), .tick 1, .leave, .wake 1, .tick 1] secondTick := by
  let M := (tickSys 1).restrict SparesWalk
  let b₁ := afterCall (.start 0 1 0) (createGpTimerBase 1)
  let b₂ := afterCall (.start 1 1 0) b₁
  have run₁ : M.Run [.call (.start 0 1 0)] ⟨b₁, 1, none, [], [], []⟩ :=
    .step (.init rfl) ⟨trivial, start_step rfl rfl⟩
  have run₂ : M.Run [.call (.start 0 1 0), .call (.start 1 1 0)] ⟨b₂, 1, none, [], [], []⟩ :=
    .step run₁ ⟨trivial, start_step rfl rfl⟩
  have run₃ : M.Run [.call (.start 0 1 0), .call (.start 1 1 0), .call (.start 2 1 0)]
      ⟨threeTimers, 1, none, [], [], []⟩ :=
    .step run₂ ⟨trivial, start_step rfl rfl⟩
  have step₄ : M.step ⟨threeTimers, 1, none, [], [], []⟩ (.tick 1) quietTick :=
    ⟨trivial, .tick rfl (by decide +kernel) rfl rfl⟩
  have ended : quietTick.walk = some (1, none, none) := rfl
  have step₅ : M.step quietTick .leave { quietTick with walk := none } := ⟨trivial, .leave ended⟩
  have step₆ : M.step { quietTick with walk := none } (.wake 1)
      { quietTick with walk := none, clock := 2 } :=
    ⟨trivial, .wake rfl (by decide +kernel) (by decide)⟩
  have step₇ : M.step { quietTick with walk := none, clock := 2 } (.tick 1) secondTick :=
    ⟨trivial, .tick rfl (by decide +kernel) rfl rfl⟩
  exact (((run₃.step step₄).step step₅).step step₆).step step₇

/-- The wheel after a round at tick 2. -/
def afterRound (stops fired : List TimerId) (id : TimerId) (b : GpTimerBase) : GpTimerBase :=
  match expireOne (stopCallback 2 stops) (b, fired) id with
  | .ok r => r.1
  | .error _ => b

/-- The first timer stops the last one: the other two fire. -/
theorem stops_take_effect_last :
    ∃ events s, ((tickSys 1).restrict SparesWalk).Run events s ∧ s.due = [0, 1, 2] ∧
      s.fired = [0, 1] ∧ s.stopped = [2] ∧ (∃ i tmp, s.walk = some (i, none, tmp)) ∧
      ∀ x ∈ s.due, x ∈ s.fired ∨ x ∈ s.stopped := by
  let b₁ := afterRound [2] [] 0 secondTick.base
  let b₂ := afterRound [] [0] 1 b₁
  let s₁ : TickLoop :=
    { secondTick with base := b₁, walk := some (2, some 1, none), fired := [0], stopped := [2] }
  let s₂ : TickLoop :=
    { s₁ with base := b₂, walk := some (2, none, none), fired := [0, 1], stopped := [2] }
  have legal : ∀ x ∈ [2], ∃ t, secondTick.base.timers x = some t := by
    intro x mem
    obtain rfl := List.mem_singleton.mp mem
    exact ⟨_, rfl⟩
  have spares : SparesWalk secondTick (.fire [2]) := by
    rintro i id tmp ⟨⟩
    exact ⟨by decide, by decide⟩
  have step₁ : TickStep secondTick (.fire [2]) s₁ := .fire rfl legal rfl rfl
  have step₂ : TickStep s₁ (.fire []) s₂ := .fire rfl nofun rfl rfl
  have spares' : SparesWalk s₁ (.fire []) := by
    intro i id tmp _
    exact ⟨fun _ _ => List.not_mem_nil, nofun⟩
  have run := (secondTick_run.step ⟨spares, step₁⟩).step ⟨spares', step₂⟩
  exact ⟨_, s₂, run, rfl, rfl, rfl, ⟨2, none, rfl⟩,
    (stops_take_effect run).2.1 2 none none rfl (.inl rfl)⟩

/-- The first timer stops the one behind it: that one is about to fire after its stop, and
then the walk ends without the last one, which nobody stopped. -/
theorem stopped_timer_fires :
    ∃ events s t, (tickSys 1).Run events s ∧
      (∃ i tmp, s.walk = some (i, some 1, tmp)) ∧ 1 ∈ s.stopped ∧
      (tickSys 1).step s (.fire []) t ∧ (∃ i tmp, t.walk = some (i, none, tmp)) ∧
      2 ∈ t.due ∧ 2 ∉ t.fired ∧ 2 ∉ t.stopped := by
  let b₁ := afterRound [1] [] 0 secondTick.base
  let b₂ := afterRound [] [0] 1 b₁
  let s₁ : TickLoop :=
    { secondTick with base := b₁, walk := some (2, some 1, none), fired := [0], stopped := [1] }
  let s₂ : TickLoop :=
    { s₁ with base := b₂, walk := some (2, none, none), fired := [0, 1], stopped := [1] }
  have legal : ∀ x ∈ [1], ∃ t, secondTick.base.timers x = some t := by
    intro x mem
    obtain rfl := List.mem_singleton.mp mem
    exact ⟨_, rfl⟩
  have step₁ : TickStep secondTick (.fire [1]) s₁ := .fire rfl legal rfl rfl
  have step₂ : TickStep s₁ (.fire []) s₂ := .fire rfl nofun rfl rfl
  exact ⟨_, s₁, s₂, secondTick_run.of_restrict.step step₁, ⟨2, none, rfl⟩, by decide, step₂,
    ⟨2, none, rfl⟩, by decide +kernel, by decide, by decide⟩

end Runs

end GpBase.Timer

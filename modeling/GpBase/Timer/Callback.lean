import GpBase.Lib.Outcome
import GpBase.Timer.Next
import GpBase.Timer.Repeat

/-!
# Callbacks that use timers

Translation of `gp_loop_timer_start`, `gp_loop_timer_stop` and `gp_loop_timer_mod` in
`gp_loop.c`. A callback is a script: the calls that it makes, in the state it is called
in. The list that a pass walks is changed by them; the walk stays on it as long as they
leave the timer behind the one that fires alone.
-/

namespace GpBase.Timer

open GpBase.Lib GpTimerBase

/-- A call that starts, stops or modifies a timer. -/
inductive LoopCall
  | start (id : TimerId) (interval repeatFlag : Int)
  | stop (id : TimerId)
  | mod (id : TimerId) (expires : Nat) (interval repeatFlag : Int)
  deriving DecidableEq, Repr

namespace LoopCall

/-- The timer that the call is about. -/
def timer : LoopCall → TimerId
  | start id _ _ => id
  | stop id => id
  | mod id _ _ _ => id

/-- `gp_loop_timer_start`, `gp_loop_timer_stop` and `gp_loop_timer_mod`, `time` being
`loop->time`. -/
def exec (time : Nat) (b : GpTimerBase) : LoopCall → Except Fault GpTimerBase
  | start id interval repeatFlag =>
      RepeatCall.startTimer b id (uint32 (time + interval)) interval repeatFlag
  | stop id => b.gpTimerDel id
  | mod id expires interval repeatFlag => b.gpTimerMod id expires interval repeatFlag

/-- A timer starts at a free address, the others are allocated; intervals are at least 1,
and a timer is modified to expire after `loop->time`, less than `2 ^ 31` ticks later. -/
def Legal (time : Nat) (b : GpTimerBase) : LoopCall → Prop
  | start id interval _ => b.timers id = none ∧ 1 ≤ interval ∧ interval < 2 ^ 31
  | stop id => ∃ t, b.timers id = some t
  | mod id expires interval _ =>
      (∃ t, b.timers id = some t) ∧ expires < 2 ^ 32 ∧ 1 ≤ interval ∧ interval < 2 ^ 31 ∧
        1 ≤ uint32 ((expires : Int) - time) ∧ uint32 ((expires : Int) - time) < 2 ^ 31

/-- The tick at which the timer is due after the call at tick `T`. -/
def deadline (T : Nat) : LoopCall → Option Nat
  | start _ interval _ => some (T + interval.toNat)
  | stop _ => none
  | mod _ expires _ _ => some (T + uint32 ((expires : Int) - (T % 2 ^ 32 : Nat)))

end LoopCall

/-! ## One call -/

section Call

variable {b b' : GpTimerBase} {R : TimerId → Nat → Nat → Nat → Prop}
  {rate rate' : TimerId → Option Nat} {P P' : Pending} {cover cover' : List TimerId} {J T : Nat}

/-- What a call does to the wheel: timer `x` is due at `due` afterwards. -/
structure Called (J : Nat) (R : TimerId → Nat → Nat → Nat → Prop) (x : TimerId)
    (due : Option Nat) (b : GpTimerBase) (rate : TimerId → Option Nat) (P : Pending)
    (b' : GpTimerBase) (rate' : TimerId → Option Nat) (P' : Pending) (cover' : List TimerId) :
    Prop where
  placed : Placed b' R rate' P' cover'
  jiffies : b'.timerJiffies = J % 2 ^ 32
  due_eq : P'.due = Function.update P.due x due
  others : ∀ y, y ≠ x → P'.expires y = P.expires y ∧ rate' y = rate y
  stopped : due = none → P'.expires = P.expires ∧ rate' = rate ∧ b'.nextTimer = b.nextTimer
  lists : ∀ l i, b'.vec l i = (b.vec l i).erase x ∨
    b'.vec l i = (b.vec l i).erase x ++ [x] ∧ ∃ E, due = some E ∧ Place J E l i

theorem lists_of_place {x : TimerId} {E l i : Nat} (place : Place J E l i)
    (vec : ∀ l' i', b'.vec l' i' =
      if l' = l ∧ i' = i then (b.vec l i).erase x ++ [x] else (b.vec l' i').erase x) :
    ∀ l' i', b'.vec l' i' = (b.vec l' i').erase x ∨
      b'.vec l' i' = (b.vec l' i').erase x ++ [x] ∧ ∃ E', some E = some E' ∧ Place J E' l' i' := by
  intro l' i'
  rw [vec]
  split
  · rename_i same
    obtain ⟨rfl, rfl⟩ := same
    exact .inr ⟨rfl, E, rfl, place⟩
  · exact .inl rfl

theorem listNodeRemove_nextTimer {x : TimerId} (removed : b.listNodeRemove x = .ok b') :
    b'.nextTimer = b.nextTimer := by
  obtain ⟨t, _, removed⟩ := bind_eq_ok removed
  cases node : t.node with
  | none =>
      rw [node] at removed
      cases removed
      rfl
  | some place =>
      rw [node] at removed
      cases removed
      rfl

/-- A legal call returns. -/
theorem Placed.call (p : Placed b R rate P cover) (jiffies : b.timerJiffies = J % 2 ^ 32)
    (fits : ∀ x E l i, Place J E l i → R x E l i) (reach : J ≤ T + 1) (near : T < J + 2 ^ 31)
    {c : LoopCall} (legal : c.Legal (T % 2 ^ 32) b) :
    ∃ b' rate' P' cover', c.exec (T % 2 ^ 32) b = .ok b' ∧
      Called J R c.timer (c.deadline T) b rate P b' rate' P' cover' := by
  have wide : Placed b R rate P (c.timer :: cover) :=
    { p with covered := fun id pending => List.mem_cons_of_mem _ (p.covered id pending) }
  cases c with
  | start id interval repeatFlag =>
      obtain ⟨free, pos, small⟩ := legal
      have expires : uint32 ((T % 2 ^ 32 : Nat) + interval) = (T + interval.toNat) % 2 ^ 32 := by
        unfold uint32
        omega
      have pace : Paced (rateOf interval repeatFlag)
          ⟨(T + interval.toNat) % 2 ^ 32, interval, repeatFlag, true, none⟩ :=
        paced_rateOf _ small fun _ => pos
      obtain ⟨b₁, created, live, p₁, jiffies₁, vec₁⟩ := wide.create free pace
      obtain ⟨b₂, l, i, added, p₂, jiffies₂, place, vec₂⟩ := p₁.add (jiffies₁.trans jiffies) live
        (E := T + interval.toNat) rfl (by omega) (by omega) (fits id _) List.mem_cons_self
      rw [vec₁] at vec₂
      refine ⟨b₂, _, _, _, ?_, p₂, jiffies₂, rfl, ?_, ?_, lists_of_place place vec₂⟩
      · simp only [LoopCall.exec, RepeatCall.startTimer, expires, created, bind, Except.bind]
        exact added
      · intro y apart
        exact ⟨Function.update_of_ne apart .., Function.update_of_ne apart ..⟩
      · intro absurd
        cases absurd
  | stop id =>
      obtain ⟨t, live⟩ := legal
      obtain ⟨b₁, deleted, p₁, jiffies₁, _, vec₁⟩ := wide.remove live
      refine ⟨b₁, _, _, _, deleted, p₁, jiffies₁.trans jiffies, rfl, fun y _ => ⟨rfl, rfl⟩, ?_,
        fun l i => .inl (vec₁ l i)⟩
      intro _
      exact ⟨rfl, rfl, listNodeRemove_nextTimer deleted⟩
  | mod id expires interval repeatFlag =>
      obtain ⟨⟨t, live⟩, word, pos, small, ahead, close⟩ := legal
      obtain ⟨E, at_E⟩ : ∃ E, E = T + uint32 ((expires : Int) - (T % 2 ^ 32 : Nat)) := ⟨_, rfl⟩
      obtain ⟨low, high, same⟩ : J ≤ E ∧ E < J + 2 ^ 32 ∧ expires = E % 2 ^ 32 := by
        unfold uint32 at at_E ahead close
        omega
      have pace : Paced (rateOf interval repeatFlag)
          ⟨E % 2 ^ 32, interval, repeatFlag, true, none⟩ := paced_rateOf _ small fun _ => pos
      rw [← (p.paced id t live).2] at pace
      obtain ⟨b₁, l, i, modified, p₁, jiffies₁, place, vec₁⟩ := wide.mod jiffies live pace low high
        (fits id E) List.mem_cons_self
      rw [← same] at modified
      refine ⟨b₁, _, _, _, modified, p₁, jiffies₁, ?_, ?_, ?_, ?_⟩
      · rw [LoopCall.deadline, ← at_E]
        rfl
      · intro y apart
        exact ⟨Function.update_of_ne apart .., Function.update_of_ne apart ..⟩
      · intro absurd
        cases absurd
      · rw [LoopCall.deadline, ← at_E]
        exact lists_of_place place vec₁

end Call

/-! ## `next_timer` -/

section Next

variable {b b' : GpTimerBase} {id : TimerId}

/-- `next_timer` has just been computed. -/
def Refreshed (b : GpTimerBase) : Prop := ∃ b₀ : GpTimerBase, b = b₀.updateNext

theorem Ready.refreshed {J : Nat} {rate : TimerId → Option Nat} {P : Pending}
    {cover : List TimerId} (r : Ready b J rate P cover) (refreshed : Refreshed b) :
    Earliest P b.nextTimer := by
  obtain ⟨b₀, rfl⟩ := refreshed
  have r₀ : Ready b₀ J rate P cover := ⟨r.placed.of_same rfl rfl, r.jiffies⟩
  exact r₀.gpNextTimer_spec

theorem gpTimerInternalAdd_refreshed (added : b.gpTimerInternalAdd id = .ok b') :
    Refreshed b' := by
  obtain ⟨t, _, added⟩ := bind_eq_ok added
  obtain ⟨b₀, _, added⟩ := bind_eq_ok added
  cases added
  exact ⟨b₀, rfl⟩

theorem gpTimerAdd_refreshed (added : b.gpTimerAdd id = .ok b') : Refreshed b' := by
  obtain ⟨b₀, _, added⟩ := bind_eq_ok added
  exact gpTimerInternalAdd_refreshed added

/-- A call that arms a timer computes `next_timer`. -/
theorem LoopCall.exec_refreshed {time T : Nat} {c : LoopCall} (executed : c.exec time b = .ok b')
    (arms : c.deadline T ≠ none) : Refreshed b' := by
  cases c with
  | start id interval repeatFlag =>
      obtain ⟨b₀, _, added⟩ := bind_eq_ok executed
      exact gpTimerAdd_refreshed added
  | stop id => exact absurd rfl arms
  | mod id expires interval repeatFlag =>
      obtain ⟨b₁, _, executed⟩ := bind_eq_ok executed
      obtain ⟨t, _, added⟩ := bind_eq_ok executed
      exact gpTimerAdd_refreshed added

theorem cascadeOne_refreshed (cascaded : cascadeOne b id = .ok b') : Refreshed b' := by
  obtain ⟨b₁, _, cascaded⟩ := bind_eq_ok cascaded
  obtain ⟨t, _, cascaded⟩ := bind_eq_ok cascaded
  split at cascaded
  · cases cascaded
  · exact gpTimerInternalAdd_refreshed cascaded

/-- A loop that does something ends with what its body does last. -/
theorem foreachLoop_last {σ : Type} {wheel : σ → GpTimerBase} {body : σ → TimerId → Except Fault σ}
    {Q : σ → Prop} (last : ∀ s id s', body s id = .ok s' → Q s') {l i fuel : Nat} {s s' : σ}
    {it tmp : Option TimerId} (ran : foreachLoop wheel body l i fuel s it tmp = .ok s') :
    s' = s ∨ Q s' := by
  induction fuel generalizing s it tmp with
  | zero => cases ran
  | succ fuel ih =>
      cases it with
      | none =>
          cases ran
          exact .inl rfl
      | some id =>
          obtain ⟨s₁, done, ran⟩ := bind_eq_ok ran
          obtain ⟨tmp', _, ran⟩ := bind_eq_ok ran
          rcases ih ran with rfl | after
          · exact .inr (last s id s' done)
          · exact .inr after

theorem cascade_refreshed {fuel l i : Nat} (cascaded : b.cascade fuel l i = .ok b') :
    b' = b ∨ Refreshed b' := by
  obtain ⟨tmp, _, ran⟩ := bind_eq_ok cascaded
  exact foreachLoop_last (fun _ _ _ done => cascadeOne_refreshed done) ran

theorem cascades_refreshed {fuel : Nat} {ns : List Nat} (cascaded : cascades fuel b ns = .ok b') :
    b' = b ∨ Refreshed b' := by
  induction ns generalizing b with
  | nil =>
      cases cascaded
      exact .inl rfl
  | cons n ns ih =>
      obtain ⟨b₁, first, cascaded⟩ := bind_eq_ok cascaded
      have once := cascade_refreshed first
      split at cascaded
      · rcases ih cascaded with rfl | after
        · exact once
        · exact .inr after
      · cases cascaded
        exact once

theorem passHead_refreshed {fuel : Nat} (headed : b.passHead fuel = .ok b') :
    b' = b ∨ Refreshed b' := by
  unfold passHead at headed
  split at headed
  · exact cascades_refreshed headed
  · cases headed
    exact .inl rfl

end Next

/-! ## Scripts -/

/-- The calls of a callback, one after another. -/
def runCalls (time : Nat) : GpTimerBase → List LoopCall → Except Fault GpTimerBase
  | b, [] => .ok b
  | b, c :: calls => do
    let b ← c.exec time b
    runCalls time b calls

/-- The calls that the callback of a timer makes. -/
abbrev Script := TimerId → GpTimerBase → List LoopCall

def Script.callback (script : Script) (time : Nat) (id : TimerId) (b : GpTimerBase) :
    Except Fault GpTimerBase :=
  runCalls time b (script id b)

/-- The timer behind the one that fires, which is at the head of the list of the tick
before `timer_jiffies`. -/
def behind (b : GpTimerBase) : Option TimerId :=
  (b.vec 0 (uint32 ((b.timerJiffies : Int) - 1) &&& tvrMask)).tail.head?

/-- The call puts no timer on the list that is walked; it does not touch the timer that
is next on it, and does not modify the one that fires. -/
def LoopCall.Spares (time : Nat) (b : GpTimerBase) (fires : TimerId) (next : Option TimerId) :
    LoopCall → Prop
  | .start _ interval _ =>
      uint32 ((uint32 (time + interval) : Int) - b.timerJiffies) ≠ tvrMask
  | .stop id => next ≠ some id
  | .mod id expires _ _ =>
      id ≠ fires ∧ next ≠ some id ∧ uint32 ((expires : Int) - b.timerJiffies) ≠ tvrMask

/-- Legal calls that spare the walk, each in the state it is made in. -/
def SparingCalls (time : Nat) (fires : TimerId) (next : Option TimerId) :
    GpTimerBase → List LoopCall → Prop
  | _, [] => True
  | b, c :: calls => c.Legal time b ∧ c.Spares time b fires next ∧
      ∀ b', c.exec time b = .ok b' → SparingCalls time fires next b' calls

/-- The callbacks spare the walks that they are called from. -/
def Script.Sparing (script : Script) (time : Nat) : Prop :=
  ∀ id b, SparingCalls time id (behind b) b (script id b)

/-! ## The walk -/

/-- A loop over a list that its body changes: it stays on the list as long as the next
timer is the first one left. -/
theorem foreachLoop_walk {σ : Type} (wheel : σ → GpTimerBase) (body : σ → TimerId → Except Fault σ)
    {l i : Nat} (I : σ → List TimerId → Prop) (Done : σ → Prop)
    (next : ∀ s id rest, I s (id :: rest) → (wheel s).listNext l i (some id) = .ok rest.head?)
    (step : ∀ s id rest, I s (id :: rest) → ∃ s' rest', body s id = .ok s' ∧
      rest'.head? = rest.head? ∧ if rest = [] then Done s' else I s' rest')
    (fuel : Nat) {s : σ} {id : TimerId} {rest : List TimerId} (start : I s (id :: rest)) :
    (∃ s', foreachLoop wheel body l i fuel s (some id) rest.head? = .ok s' ∧ Done s') ∨
      foreachLoop wheel body l i fuel s (some id) rest.head? = .error .hang := by
  induction fuel generalizing s id rest with
  | zero => exact .inr rfl
  | succ fuel ih =>
      obtain ⟨s', rest', done, head, after⟩ := step s id rest start
      cases rest with
      | nil =>
          rw [if_pos rfl] at after
          simp only [foreachLoop, done, bind, Except.bind, List.head?_nil, listNext]
          cases fuel with
          | zero => exact .inr rfl
          | succ fuel => exact .inl ⟨s', rfl, after⟩
      | cons id' rest =>
          rw [if_neg (List.cons_ne_nil id' rest)] at after
          obtain ⟨rest'', rfl⟩ := List.head?_eq_some_iff.mp head
          simp only [foreachLoop, done, bind, Except.bind, List.head?_cons, next s' id' rest'' after]
          exact ih after

section Walk

variable {b b' : GpTimerBase} {J T : Nat} {rate : TimerId → Option Nat} {P : Pending}
  {cover : List TimerId} {id : TimerId} {rest : List TimerId}

/-- Where a timer may be while the list of tick `J` is walked. -/
def Walks (J : Nat) (_ : TimerId) (E l i : Nat) : Prop :=
  (E = J ∧ l = 0 ∧ i = J % tvrSize) ∨ Place (J + 1) E l i

/-- The wheel while the list of tick `J` is walked at clock `T`. A timer of that list that
is not due now is one that repeats every 256 ticks and has fired. -/
structure Walking (J T : Nat) (rate : TimerId → Option Nat) (P : Pending) (cover : List TimerId)
    (b : GpTimerBase) : Prop where
  placed : Placed b (Walks J) rate P cover
  jiffies : b.timerJiffies = (J + 1) % 2 ^ 32
  near : ∀ x E, P.due x = some E → E < T + 2 ^ 31
  early : ∀ x ∈ b.vec 0 (J % tvrSize), ∀ E, P.due x = some E → E ≠ J →
    E = J + tvrSize ∧ rate x = some tvrSize

theorem LoopCall.deadline_range {c : LoopCall} {E : Nat}
    (legal : c.Legal (T % 2 ^ 32) b) (due : c.deadline T = some E) : T < E ∧ E < T + 2 ^ 31 := by
  cases c with
  | start id interval repeatFlag =>
      cases due
      have := legal.2
      omega
  | stop id => cases due
  | mod id expires interval repeatFlag =>
      cases due
      have := legal.2.2.2.2
      omega

/-- A timer in the slot that is walked, 256 ticks ahead. -/
theorem Place.walked {E : Nat} (place : Place (J + 1) E 0 (J % tvrSize)) : E = J + tvrSize := by
  cases place with
  | root low high slot =>
      unfold tvrSize at *
      omega
  | wheel => omega

theorem LoopCall.Spares.deadline_ne {c : LoopCall} {next : Option TimerId}
    (spares : c.Spares (T % 2 ^ 32) b id next) (legal : c.Legal (T % 2 ^ 32) b)
    (jiffies : b.timerJiffies = (J + 1) % 2 ^ 32) : c.deadline T ≠ some (J + tvrSize) := by
  intro due
  cases c with
  | start id' interval repeatFlag =>
      obtain ⟨_, pos, small⟩ := legal
      rw [LoopCall.deadline, Option.some.injEq] at due
      rw [LoopCall.Spares, jiffies] at spares
      unfold uint32 tvrSize tvrMask at *
      omega
  | stop id' => cases due
  | mod id' expires interval repeatFlag =>
      obtain ⟨_, word, _, _, ahead, close⟩ := legal
      rw [LoopCall.deadline, Option.some.injEq] at due
      have off := spares.2.2
      rw [jiffies] at off
      unfold uint32 tvrSize tvrMask at *
      omega

/-- A call sets no deadline that is `2 ^ 31` ticks away. -/
theorem Called.near {c : LoopCall} {R : TimerId → Nat → Nat → Nat → Prop} {b' : GpTimerBase}
    {rate' : TimerId → Option Nat} {P' : Pending} {cover' : List TimerId}
    (called : Called J R c.timer (c.deadline T) b rate P b' rate' P' cover')
    (legal : c.Legal (T % 2 ^ 32) b) (near : ∀ x E, P.due x = some E → E < T + 2 ^ 31) :
    ∀ x E, P'.due x = some E → E < T + 2 ^ 31 := by
  intro x E due
  rw [called.due_eq, Function.update_apply] at due
  split at due
  · exact (LoopCall.deadline_range legal due).2
  · exact near x E due

/-- A call that spares the walk only takes its timer off the list. -/
theorem Walking.call (w : Walking J T rate P cover b) (reach : J ≤ T) (close : T < J + 2 ^ 31)
    {c : LoopCall} {next : Option TimerId} (legal : c.Legal (T % 2 ^ 32) b)
    (spares : c.Spares (T % 2 ^ 32) b id next) :
    ∃ b' rate' P' cover', c.exec (T % 2 ^ 32) b = .ok b' ∧ Walking J T rate' P' cover' b' ∧
      b'.vec 0 (J % tvrSize) = (b.vec 0 (J % tvrSize)).erase c.timer ∧
      (c.timer ≠ id ∨ c.deadline T = none → P'.expires id = P.expires id ∧ rate' id = rate id) := by
  obtain ⟨b', rate', P', cover', executed, called⟩ := w.placed.call w.jiffies
    (fun x E l i place => .inr place) (by omega) (by omega) legal
  have list : b'.vec 0 (J % tvrSize) = (b.vec 0 (J % tvrSize)).erase c.timer := by
    rcases called.lists 0 (J % tvrSize) with same | ⟨_, E, due, place⟩
    · exact same
    · rw [place.walked] at due
      exact absurd due (spares.deadline_ne legal w.jiffies)
  refine ⟨b', rate', P', cover', executed,
    ⟨called.placed, called.jiffies, called.near legal w.near, ?_⟩, list, ?_⟩
  · intro x mem E due later
    rw [list] at mem
    have apart : x ≠ c.timer := by
      rintro rfl
      exact (w.placed.nodup 0 (J % tvrSize)).not_mem_erase mem
    rw [called.due_eq, Function.update_of_ne apart] at due
    rw [(called.others x apart).2]
    exact w.early x (List.mem_of_mem_erase mem) E due later
  · rintro (apart | stopped)
    · exact called.others id (Ne.symm apart)
    · obtain ⟨expires, rates, _⟩ := called.stopped stopped
      rw [expires, rates]
      exact ⟨rfl, rfl⟩

/-- The wheel while the callback of `id` is called, with `rest` behind it on the list. -/
structure Calling (J T : Nat) (id : TimerId) (rest : List TimerId) (expires : Nat)
    (r : Option Nat) (b : GpTimerBase) : Prop where
  walking : ∃ rate P cover, Walking J T rate P cover b ∧ P.expires id = some expires ∧ rate id = r
  left : ((b.vec 0 (J % tvrSize)).erase id).Sublist rest
  head : ((b.vec 0 (J % tvrSize)).erase id).head? = rest.head?

theorem head?_erase_of_ne {l : List TimerId} {x : TimerId} (apart : l.head? ≠ some x) :
    (l.erase x).head? = l.head? := by
  cases l with
  | nil => rfl
  | cons y l =>
      have ne : y ≠ x := by
        rintro rfl
        exact apart rfl
      rw [List.erase_cons_tail (by simpa using ne)]
      rfl

/-- The calls of a callback. -/
theorem Calling.runCalls (reach : J ≤ T) (close : T < J + 2 ^ 31) {expires : Nat}
    {r : Option Nat} {calls : List LoopCall} (c : Calling J T id rest expires r b)
    (sparing : SparingCalls (T % 2 ^ 32) id rest.head? b calls) :
    ∃ b', Timer.runCalls (T % 2 ^ 32) b calls = .ok b' ∧ Calling J T id rest expires r b' := by
  induction calls generalizing b with
  | nil => exact ⟨b, rfl, c⟩
  | cons call calls ih =>
      obtain ⟨legal, spares, later⟩ := sparing
      obtain ⟨⟨rate, P, cover, walking, field, repeats⟩, left, head⟩ := c
      obtain ⟨b₁, rate₁, P₁, cover₁, executed, walking₁, list, kept⟩ :=
        walking.call reach close legal spares
      have free : call.timer ≠ id ∨ call.deadline T = none := by
        cases call with
        | start x interval repeatFlag =>
            refine .inl ?_
            intro same
            subst same
            change P.expires x = some expires at field
            -- the timer that fires is allocated
            have allocated := walking.placed.fields x
            rw [legal.1, field] at allocated
            cases allocated
        | stop x => exact .inr rfl
        | mod x expires interval repeatFlag => exact .inl spares.1
      obtain ⟨field₁, repeats₁⟩ := kept free
      have apart : rest.head? ≠ some call.timer := by
        cases call with
        | start x interval repeatFlag =>
            intro first
            have mem := List.mem_of_mem_erase (List.mem_of_head? (head.trans first))
            obtain ⟨t, live, _⟩ := (walking.placed.linked _ _ x).mp mem
            rw [legal.1] at live
            cases live
        | stop x => exact spares
        | mod x expires interval repeatFlag => exact spares.2.1
      have calling₁ : Calling J T id rest expires r b₁ := by
        refine ⟨⟨rate₁, P₁, cover₁, walking₁, field₁.trans field, repeats₁.trans repeats⟩, ?_, ?_⟩
        · rw [list, List.erase_comm]
          exact (List.erase_sublist ..).trans left
        · rw [list, List.erase_comm, head?_erase_of_ne, head]
          rwa [head]
      obtain ⟨b', ran, calling'⟩ := ih calling₁ (later b₁ executed)
      refine ⟨b', ?_, calling'⟩
      simp only [Timer.runCalls, executed, bind, Except.bind]
      exact ran

/-- `gp_timer_del` in a walk. -/
theorem Walking.remove (w : Walking J T rate P cover b) {t : GpTimerList}
    (live : b.timers id = some t) :
    ∃ b', b.listNodeRemove id = .ok b' ∧ Walking J T rate (P.disarm id) cover b' ∧
      b'.timers id = some { t with node := none } ∧
      ∀ l i, b'.vec l i = (b.vec l i).erase id := by
  obtain ⟨b', removed, placed, jiffies, timers, vec⟩ := w.placed.remove live
  have others : ∀ x E, (P.disarm id).due x = some E → P.due x = some E := by
    intro x E due
    rw [Pending.disarm_due, Function.update_apply] at due
    split at due
    · cases due
    · exact due
  refine ⟨b', removed, ⟨placed, jiffies.trans w.jiffies, ?_, ?_⟩, ?_, vec⟩
  · exact fun x E due => w.near x E (others x E due)
  · intro x mem E due later
    rw [vec] at mem
    exact w.early x (List.mem_of_mem_erase mem) E (others x E due) later
  · rw [timers, Function.update_self]

/-- `destruct_gp_timer` in a walk. -/
theorem Walking.destruct (w : Walking J T rate P cover b) {t : GpTimerList}
    (live : b.timers id = some t) (idle : P.due id = none) :
    ∃ b' P', b.destructGpTimer id = .ok b' ∧ Walking J T rate P' cover b' ∧ P'.due = P.due ∧
      ∀ l i, b'.vec l i = b.vec l i := by
  obtain ⟨b₁, removed, w₁, live₁, vec₁⟩ := w.remove live
  have due : (P.disarm id).due = P.due := Function.update_eq_self_iff.mpr idle.symm
  have notOn := (w.placed.unlinked live idle).2
  refine ⟨{ b₁ with timers := Function.update b₁.timers id none }, (P.disarm id).free id, ?_,
    ⟨w₁.placed.free (due ▸ idle), w₁.jiffies, w₁.near, w₁.early⟩, due, ?_⟩
  · simp only [destructGpTimer, removed, bind, Except.bind]
    rfl
  · intro l i
    show b₁.vec l i = b.vec l i
    rw [vec₁, List.erase_of_not_mem (notOn l i)]

/-- A timer that repeats is armed again, for one interval after its expiry. -/
theorem Walking.rearm (w : Walking J T rate P cover b) (reach : J ≤ T) {t : GpTimerList}
    (live : b.timers id = some t) (idle : P.due id = none) {E v : Nat}
    (expires : t.expires = E % 2 ^ 32) (repeats : rate id = some v)
    (now : E = J ∨ E = J + tvrSize ∧ v = tvrSize) :
    ∃ b' P', (b.setTimer id { t with expires := uint32 (t.expires + t.interval) }).gpTimerAdd id =
        .ok b' ∧
      Walking J T rate P' (id :: cover) b' ∧ P'.due = Function.update P.due id (some (E + v)) ∧
      (b'.vec 0 (J % tvrSize) = b.vec 0 (J % tvrSize) ∨
        b'.vec 0 (J % tvrSize) = b.vec 0 (J % tvrSize) ++ [id]) := by
  have pace := (w.placed.paced id t live).1
  rw [repeats] at pace
  have ⟨_, interval, pos, small⟩ := pace
  have ahead : J + 1 ≤ E + v ∧ E + v < J + 1 + 2 ^ 32 ∧ E + v < T + 2 ^ 31 := by
    unfold tvrSize at now
    omega
  have next : uint32 ((t.expires : Int) + t.interval) = (E + v) % 2 ^ 32 := by
    rw [expires, interval, uint32]
    omega
  have wide : Placed b (Walks J) rate P (id :: cover) :=
    { w.placed with
      covered := fun id' pending => List.mem_cons_of_mem _ (w.placed.covered id' pending) }
  have p₁ : Placed (b.setTimer id { t with expires := (E + v) % 2 ^ 32 }) (Walks J)
      (Function.update rate id (some v)) (P.setExpires id ((E + v) % 2 ^ 32)) (id :: cover) :=
    wide.assign live idle pace
  rw [← repeats, Function.update_eq_self] at p₁
  obtain ⟨b₂, l, i, added, p₂, jiffies₂, place, vec₂⟩ := p₁.add (E := E + v) w.jiffies
    (Function.update_self ..) rfl ahead.1 ahead.2.1 (fun l i place => .inr place) List.mem_cons_self
  have notOn := (w.placed.unlinked live idle).2
  have lists : ∀ l' i', b₂.vec l' i' = if l' = l ∧ i' = i then b.vec l i ++ [id] else b.vec l' i' := by
    intro l' i'
    rw [vec₂, setTimer_vec, List.erase_of_not_mem (notOn l i), List.erase_of_not_mem (notOn l' i')]
  refine ⟨b₂, _, by rw [next]; exact added, ⟨p₂, jiffies₂, ?_, ?_⟩, rfl, ?_⟩
  · intro x E' due
    rw [Pending.arm_due, Function.update_apply] at due
    split at due
    · cases due
      exact ahead.2.2
    · exact w.near x E' due
  · intro x mem E' due later
    rw [Pending.arm_due, Function.update_apply] at due
    split at due
    · rename_i same
      subst same
      cases due
      rw [lists] at mem
      split at mem
      · rename_i here
        obtain ⟨rfl, rfl⟩ := here
        have := place.walked
        refine ⟨this, ?_⟩
        rw [repeats]
        unfold tvrSize at *
        congr 1
        omega
      · exact absurd mem (notOn _ _)
    · rename_i apart
      rw [lists] at mem
      have old : x ∈ b.vec 0 (J % tvrSize) := by
        split at mem
        · rename_i here
          obtain ⟨rfl, rfl⟩ := here
          rcases List.mem_append.mp mem with old | new
          · exact old
          · exact absurd (List.mem_singleton.mp new) apart
        · exact mem
      exact w.early x old E' due later
  · rw [lists]
    split
    · rename_i here
      obtain ⟨rfl, rfl⟩ := here
      exact .inr rfl
    · exact .inl rfl

theorem Walking.updateNext (w : Walking J T rate P cover b) :
    Walking J T rate P cover b.updateNext :=
  ⟨w.placed.of_same rfl rfl, w.jiffies, w.near, w.early⟩

/-- The wheel between two passes, with deadlines less than `2 ^ 31` ticks away. -/
def Waiting (J T : Nat) (b : GpTimerBase) : Prop :=
  ∃ rate P cover, Ready b J rate P cover ∧ Earliest P b.nextTimer ∧
    ∀ x E, P.due x = some E → E < T + 2 ^ 31

/-- At the end of a walk nothing on the list is due now. -/
theorem Walking.finish (w : Walking J T rate P cover b) (refreshed : Refreshed b)
    (later : ∀ x ∈ b.vec 0 (J % tvrSize), P.due x ≠ some J) : Waiting (J + 1) T b := by
  have ready : Ready b (J + 1) rate P cover := by
    refine ⟨w.placed.mono ?_, w.jiffies⟩
    rintro x E l i due mem (⟨rfl, rfl, rfl⟩ | place)
    · exact absurd due (later x mem)
    · exact place
  exact ⟨rate, P, cover, ready, ready.refreshed refreshed, w.near⟩

theorem behind_eq (jiffies : b.timerJiffies = (J + 1) % 2 ^ 32)
    (list : b.vec 0 (J % tvrSize) = id :: rest) : behind b = rest.head? := by
  have slot : uint32 ((b.timerJiffies : Int) - 1) &&& tvrMask = J % tvrSize := by
    have : uint32 ((b.timerJiffies : Int) - 1) = J % 2 ^ 32 := by
      rw [jiffies]
      unfold uint32
      omega
    rw [this, root_slot_eq]
  rw [behind, slot, list]
  rfl

/-- A timer on the list that is walked is due now, or repeats every 256 ticks. -/
theorem Walking.fires (w : Walking J T rate P cover b) (mem : id ∈ b.vec 0 (J % tvrSize)) :
    ∃ E, P.due id = some E ∧ P.expires id = some (E % 2 ^ 32) ∧
      (E = J ∨ E = J + tvrSize ∧ rate id = some tvrSize) := by
  obtain ⟨t, E, live, due, expires, _⟩ := w.placed.place_of_mem mem
  refine ⟨E, due, ?_, ?_⟩
  · rw [← w.placed.fields id, live, ← expires]
    rfl
  · by_cases same : E = J
    · exact .inl same
    · exact .inr (w.early id mem E due same)

/-- What `gp_run_timers` does once the callback of timer `id`, which expires at `E`, has
returned: the timer is freed, or armed again, which may put it behind the others on the
list. -/
theorem Walking.expired {callback : TimerId → GpTimerBase → Except Fault GpTimerBase}
    {s : GpTimerBase × List TimerId} (called : callback id s.1 = .ok b)
    (w : Walking J T rate P cover b) (reach : J ≤ T) {E : Nat}
    (field : P.expires id = some (E % 2 ^ 32))
    (now : E = J ∨ E = J + tvrSize ∧ rate id = some tvrSize) :
    ∃ b' P' cover' next, expireOne callback s id = .ok (b'.updateNext, s.2 ++ [id]) ∧
      Walking J T rate P' cover' b' ∧ P'.due = Function.update P.due id next ∧
      (rate id = none → next = none) ∧ next ≠ some J ∧
      (b'.vec 0 (J % tvrSize) = (b.vec 0 (J % tvrSize)).erase id ∨
        b'.vec 0 (J % tvrSize) = (b.vec 0 (J % tvrSize)).erase id ++ [id]) := by
  obtain ⟨t, live, expires⟩ := Option.map_eq_some_iff.mp ((w.placed.fields id).trans field)
  obtain ⟨b₂, deleted, w₂, live₂, vec₂⟩ := w.remove live
  have idle₂ : (P.disarm id).due id = none := Function.update_self ..
  have pace := (w.placed.paced id t live).1
  have unfold : expireOne callback s id = (do
      let b ←
        if t.repeatFlag = 1 then
          (b₂.setTimer id { t with
            expires := uint32 (t.expires + t.interval), node := none }).gpTimerAdd id
        else b₂.destructGpTimer id
      return (b.updateNext, s.2 ++ [id])) := by
    simp only [expireOne, called, bind, Except.bind, gpTimerDel, deleted, GpTimerBase.timer, live₂]
  rw [unfold]
  cases repeats : rate id with
  | none =>
      rw [repeats] at pace
      obtain ⟨b₃, P₃, destructed, w₃, due₃, vec₃⟩ := w₂.destruct live₂ idle₂
      rw [if_neg pace]
      refine ⟨b₃, P₃, cover, none, ?_, w₃, due₃, fun _ => rfl, by simp, .inl ?_⟩
      · simp only [destructed, bind, Except.bind, pure, Except.pure]
      · rw [vec₃, vec₂]
  | some v =>
      rw [repeats] at pace
      have now' : E = J ∨ E = J + tvrSize ∧ v = tvrSize := by
        refine now.imp_right ?_
        rintro ⟨early, every⟩
        rw [repeats] at every
        exact ⟨early, Option.some.inj every⟩
      obtain ⟨b₃, P₃, added, w₃, due₃, list₃⟩ := w₂.rearm reach live₂ idle₂ expires repeats now'
      rw [if_pos pace.1]
      refine ⟨b₃, P₃, id :: cover, some (E + v), ?_, w₃, ?_, ?_, ?_, ?_⟩
      · simp only [bind, Except.bind, pure, Except.pure]
        simp only at added
        rw [added]
      · rw [due₃, Pending.disarm_due, Function.update_idem]
      · intro once
        cases once
      · have := pace.2.2.1
        rw [ne_eq, Option.some.injEq]
        unfold tvrSize at now'
        omega
      · rw [vec₂] at list₃
        exact list₃

/-- The timer at the head of the list fires. -/
theorem Walking.expire {script : Script} {s : GpTimerBase × List TimerId}
    (w : Walking J T rate P cover s.1) (list : s.1.vec 0 (J % tvrSize) = id :: rest)
    (reach : J ≤ T) (close : T < J + 2 ^ 31) (sparing : script.Sparing (T % 2 ^ 32)) :
    ∃ s' rest', expireOne (script.callback (T % 2 ^ 32)) s id = .ok s' ∧
      rest'.head? = rest.head? ∧
      if rest = [] then Waiting (J + 1) T s'.1
      else (∃ rate P cover, Walking J T rate P cover s'.1) ∧ s'.1.vec 0 (J % tvrSize) = rest' := by
  obtain ⟨E, _, field, now⟩ := w.fires (list ▸ List.mem_cons_self)
  have calling : Calling J T id rest (E % 2 ^ 32) (rate id) s.1 := by
    refine ⟨⟨rate, P, cover, w, field, rfl⟩, ?_, ?_⟩
    · rw [list, List.erase_cons_head]
    · rw [list, List.erase_cons_head]
  have calls := sparing id s.1
  rw [behind_eq w.jiffies list] at calls
  obtain ⟨b₁, called, ⟨rate₁, P₁, cover₁, w₁, field₁, repeats₁⟩, left₁, head₁⟩ :=
    calling.runCalls reach close calls
  have called' : script.callback (T % 2 ^ 32) id s.1 = .ok b₁ := called
  obtain ⟨b', P', cover', next, ran, w', due', _, later, list'⟩ :=
    w₁.expired called' reach field₁ (repeats₁ ▸ now)
  by_cases last : rest = []
  · subst last
    have empty : (b₁.vec 0 (J % tvrSize)).erase id = [] := List.sublist_nil.mp left₁
    refine ⟨_, [], ran, rfl, ?_⟩
    rw [if_pos rfl]
    refine w'.updateNext.finish ⟨b', rfl⟩ ?_
    intro x mem
    -- only the timer itself can be on the list again
    have here : x ∈ b'.vec 0 (J % tvrSize) := mem
    have itself : x = id := by
      rcases list' with same | appended
      · rw [same, empty] at here
        cases here
      · rw [appended, empty] at here
        simpa using here
    rw [itself, due', Function.update_self]
    exact later
  · have some_left : (b₁.vec 0 (J % tvrSize)).erase id ≠ [] := by
      intro none
      rw [none, List.head?_nil] at head₁
      exact last (List.head?_eq_none_iff.mp head₁.symm)
    refine ⟨_, b'.vec 0 (J % tvrSize), ran, ?_, ?_⟩
    · rcases list' with same | appended
      · rw [same, head₁]
      · rw [appended, List.head?_append_of_ne_nil _ some_left, head₁]
    · rw [if_neg last]
      exact ⟨⟨_, _, _, w'.updateNext⟩, rfl⟩

/-! ## Running to a clock -/

/-- The walk of tick `J` begins. -/
theorem Ready.walking (r : Ready b J rate P cover) (settled : Settled b J P 4)
    (near : ∀ x E, P.due x = some E → E < T + 2 ^ 31) :
    Walking J T rate P cover { b with timerJiffies := uint32 (b.timerJiffies + 1) } := by
  have next : uint32 ((b.timerJiffies : Int) + 1) = (J + 1) % 2 ^ 32 := by
    rw [r.jiffies, uint32]
    omega
  have placed : Placed b (Walks J) rate P cover := by
    refine (r.await settled).mono ?_
    intro x E l i _ _ place
    unfold Awaiting at place
    split at place
    · exact .inl place
    · exact .inr place
  refine ⟨placed.of_same rfl rfl, next, near, ?_⟩
  intro x mem E due later
  rw [(r.mem_slot_iff settled x).mp mem] at due
  cases due
  exact absurd rfl later

/-- One pass, with callbacks that spare its walk. -/
theorem Waiting.pass {script : Script} (w : Waiting J T b) (reach : J ≤ T)
    (close : T < J + 2 ^ 31) (sparing : script.Sparing (T % 2 ^ 32)) (fuel : Nat) :
    (∃ b' fired, b.pass fuel (script.callback (T % 2 ^ 32)) = .ok (b', fired) ∧
        Waiting (J + 1) T b') ∨
      b.pass fuel (script.callback (T % 2 ^ 32)) = .error .hang := by
  obtain ⟨rate, P, cover, r, earliest, near⟩ := w
  have slot : b.timerJiffies &&& tvrMask = J % tvrSize := by rw [r.jiffies, root_slot_eq]
  unfold GpTimerBase.pass
  simp only [slot, bind, Except.bind]
  rcases passHead_spec fuel r with ⟨b₁, headed, r₁, settled⟩ | ⟨_, hung⟩
  · rw [headed]
    have earliest₁ : Earliest P b₁.nextTimer := by
      rcases passHead_refreshed headed with rfl | refreshed
      · exact earliest
      · exact r₁.refreshed refreshed
    have due_now := r₁.mem_slot_iff settled
    have walking := r₁.walking settled near
    unfold foreachSafe
    cases list : b₁.vec 0 (J % tvrSize) with
    | nil =>
        -- nothing is due
        have ready : Ready { b₁ with timerJiffies := uint32 (b₁.timerJiffies + 1) } (J + 1) rate P
            cover := by
          refine ⟨walking.placed.mono ?_, walking.jiffies⟩
          rintro x E l i due _ (⟨rfl, _, _⟩ | place)
          · have := (due_now x).mpr due
            rw [list] at this
            cases this
          · exact place
        simp only [list, List.head?_nil, listNext, bind, Except.bind]
        cases fuel with
        | zero => exact .inr rfl
        | succ fuel => exact .inl ⟨_, _, rfl, rate, P, cover, ready, earliest₁, near⟩
    | cons id rest =>
        have start : ∃ rate P cover, Walking J T rate P cover
            { b₁ with timerJiffies := uint32 (b₁.timerJiffies + 1) } := ⟨_, _, _, walking⟩
        have first := walking.placed.listNext (l := 0) (i := J % tvrSize) list
        simp only [list, List.head?_cons, first, bind, Except.bind]
        let I := fun (s : GpTimerBase × List TimerId) (left : List TimerId) =>
          (∃ rate P cover, Walking J T rate P cover s.1) ∧ s.1.vec 0 (J % tvrSize) = left
        have onList : ∀ s id rest, I s (id :: rest) →
            s.1.listNext 0 (J % tvrSize) (some id) = .ok rest.head? := by
          intro s id rest walk
          obtain ⟨⟨_, _, _, w⟩, list⟩ := walk
          exact w.placed.listNext list
        have fires : ∀ s id rest, I s (id :: rest) →
            ∃ s' rest', expireOne (script.callback (T % 2 ^ 32)) s id = .ok s' ∧
              rest'.head? = rest.head? ∧
              if rest = [] then Waiting (J + 1) T s'.1 else I s' rest' := by
          intro s id rest walk
          obtain ⟨⟨_, _, _, w⟩, list⟩ := walk
          exact w.expire list reach close sparing
        rcases foreachLoop_walk Prod.fst (expireOne (script.callback (T % 2 ^ 32))) (l := 0)
            (i := J % tvrSize) I (fun s => Waiting (J + 1) T s.1) onList fires fuel
            (s := ({ b₁ with timerJiffies := uint32 (b₁.timerJiffies + 1) }, []))
            ⟨start, list⟩ with ⟨⟨b', fired⟩, ran, waiting⟩ | hung
        · exact .inl ⟨b', fired, ran, waiting⟩
        · exact .inr hung
  · rw [hung]
    exact .inr rfl

/-- `gp_run_timers` to clock `T`, with callbacks that spare its walks. -/
theorem Waiting.run {script : Script} (fuel rounds : Nat) (w : Waiting J T b) (reach : J ≤ T + 1)
    (close : T < J + 2 ^ 31) (sparing : script.Sparing (T % 2 ^ 32)) :
    (∃ b' passes, gpRunTimers fuel (script.callback (T % 2 ^ 32)) (T % 2 ^ 32) b rounds =
        .ok (b', passes) ∧ Waiting (T + 1) T b') ∨
      gpRunTimers fuel (script.callback (T % 2 ^ 32)) (T % 2 ^ 32) b rounds = .error .hang := by
  induction rounds generalizing b J with
  | zero => exact .inr rfl
  | succ rounds ih =>
      have jiffies : b.timerJiffies = J % 2 ^ 32 := by
        obtain ⟨_, _, _, r, _⟩ := w
        exact r.jiffies
      unfold gpRunTimers
      rw [jiffies, guard_eq reach close]
      rcases Nat.lt_or_ge T J with past | now
      · -- the clock is reached
        obtain rfl : J = T + 1 := by omega
        rw [if_neg (by omega)]
        exact .inl ⟨b, [], rfl, w⟩
      · rw [if_pos (by omega)]
        simp only [bind, Except.bind]
        rcases w.pass now close sparing fuel with ⟨b₁, fired, passed, w₁⟩ | hung
        · rw [passed]
          rcases ih w₁ (by omega) (by omega) with ⟨b', passes, ran, w'⟩ | hung
          · simp only [ran, pure, Except.pure]
            exact .inl ⟨b', _, rfl, w'⟩
          · exact .inr (by simp only [hung])
        · exact .inr (by rw [hung])

end Walk

end GpBase.Timer

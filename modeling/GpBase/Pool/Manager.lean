import Mathlib.Algebra.Order.BigOperators.Group.Finset
import Mathlib.Data.Fintype.BigOperators
import GpBase.Lib.Run

/-!
# The thread manager

Translation of the handshake in `gp_thread.c` between the thread of a `gp_thread_manager`,
which is in `gp_tmr_wrap`, and any number of clients, which call `run`, `wait` and `finish`.
What happens between `gp_mtx_lock` and `gp_mtx_unlock`, or the next `gp_cv_wait`, is one step.
A thread in `gp_cv_wait` sleeps until `gp_cv_wake` wakes up all threads, or nothing does.

The mutex is destroyed by `finish`, so nobody may use the manager then or later; `wait` and
`finish` look at `init` first, which `finish` has cleared.
-/

namespace GpBase.Pool

open GpBase.Lib

/-- Where the manager's thread is. -/
inductive Wrapper
  | /-- before it tests `start` and `stop` -/ look
  | asleep
  | /-- out of the loop, with its copy of `start` -/ decided (start : Bool)
  | /-- in `gp_tmr_fn` -/ running
  | /-- before the section that sets `done` -/ last
  | left
  deriving DecidableEq, Repr

/-- Where a client is; the flag says that it is in `finish`. -/
inductive Client
  | idle
  | /-- before it tests `done` -/ waits (finishing : Bool)
  | asleep (finishing : Bool)
  | /-- before `destroy_gp_cv` -/ destroys
  deriving DecidableEq, Repr

@[simp] def Wrapper.woken : Wrapper → Wrapper
  | .asleep => .look
  | w => w

@[simp] def Client.woken : Client → Client
  | .asleep finishing => .waits finishing
  | c => c

/-- Is the client in `finish`? -/
@[simp] def Client.finishing : Client → Bool
  | .idle => false
  | .waits finishing | .asleep finishing => finishing
  | .destroys => true

/-- The manager; `called` and `returned` count the calls of `gp_tmr_fn` and its returns.
`timely` says that `start` was set before `stop`, `released` that some client got past its
loop, and `doomed` that `finish` was called. -/
structure Manager (ι : Type) where
  hasFn : Bool
  start : Bool
  stop : Bool
  done : Bool
  init : Bool
  wrapper : Wrapper
  clients : ι → Client
  called : Nat
  returned : Nat
  timely : Bool
  released : Bool
  doomed : Bool

inductive ManagerEvent (ι : Type)
  | run
  | wait (i : ι)
  | finish (i : ι)
  | /-- the thread tests `start` and `stop` -/ look
  | /-- the thread calls `gp_tmr_fn`, or does not -/ call
  | /-- `gp_tmr_fn` returns -/ ret
  | /-- the thread sets `done` -/ done
  | /-- a client tests `done` -/ test (i : ι)
  | destroy (i : ι)
  | /-- a spurious wakeup of the thread -/ wakeWrapper
  | /-- a spurious wakeup of a client -/ wakeClient (i : ι)
  deriving DecidableEq, Repr

namespace Manager

variable {ι : Type} [DecidableEq ι] (s : Manager ι)

/-- `init_gp_thr_manager`: without a function there is no thread. -/
def initGpThrManager (hasFn : Bool) : Manager ι where
  hasFn := hasFn
  start := false
  stop := false
  done := !hasFn
  init := true
  wrapper := if hasFn then .look else .left
  clients := fun _ => .idle
  called := 0
  returned := 0
  timely := false
  released := false
  doomed := false

def setClient (i : ι) (c : Client) : Manager ι :=
  { s with clients := Function.update s.clients i c }

/-- `gp_cv_wake`. -/
def wake : Manager ι :=
  { s with wrapper := s.wrapper.woken, clients := fun i => (s.clients i).woken }

/-- `while(!gp_tmr->done)`, and what follows it. -/
def testDone (i : ι) (finishing : Bool) : Manager ι :=
  if s.done then
    { s.setClient i (if finishing then .destroys else .idle) with released := true }
  else s.setClient i (.asleep finishing)

/-- `gp_thr_manager_wait` and `gp_thr_manager_finish`, up to the end of their first test. -/
def enter (i : ι) (finishing : Bool) : Manager ι :=
  if s.init then { s with stop := true, doomed := s.doomed || finishing }.wake.testDone i finishing
  else s

/-- One step; `none` where the thread or the client is elsewhere. -/
def exec : ManagerEvent ι → Option (Manager ι)
  | .run => some { s with start := true, timely := s.timely || !s.stop }.wake
  | .wait i => if s.clients i = .idle then some (s.enter i false) else none
  | .finish i => if s.clients i = .idle then some (s.enter i true) else none
  | .look =>
    if s.wrapper = .look then
      if !s.start && !s.stop then some { s with wrapper := .asleep }
      else some { s with wrapper := .decided s.start }
    else none
  | .call =>
    match s.wrapper with
    | .decided start =>
      if start && s.hasFn then some { s with wrapper := .running, called := s.called + 1 }
      else some { s with wrapper := .last }
    | _ => none
  | .ret =>
    if s.wrapper = .running then some { s with wrapper := .last, returned := s.returned + 1 }
    else none
  | .done =>
    if s.wrapper = .last then some { s with wrapper := .left, done := true }.wake else none
  | .test i =>
    match s.clients i with
    | .waits finishing => some (s.testDone i finishing)
    | _ => none
  | .destroy i =>
    if s.clients i = .destroys then some { s.setClient i .idle with init := false } else none
  | .wakeWrapper => if s.wrapper = .asleep then some { s with wrapper := .look } else none
  | .wakeClient i =>
    match s.clients i with
    | .asleep finishing => some (s.setClient i (.waits finishing))
    | _ => none

end Manager

section System

variable (ι : Type) [DecidableEq ι]

def managerSys (hasFn : Bool) : TSys (Manager ι) (ManagerEvent ι) where
  init s := s = .initGpThrManager hasFn
  step s ev t := s.exec ev = some t

end System

/-- `finish` is called when no other call is under way, and then no further call is begun
until it has returned, and no further `run` at all. -/
def Supervised {ι : Type} (s : Manager ι) : ManagerEvent ι → Prop
  | .run => s.doomed = false
  | .wait _ => s.init = false ∨ s.doomed = false
  | .finish _ => s.init = false ∨ (s.doomed = false ∧ ∀ j, s.clients j = .idle)
  | _ => True

/-! ## Safety -/

section Invariant

variable {ι : Type} {s t : Manager ι}

/-- Whether the function was called, for good. -/
def Outcome (s : Manager ι) : Prop :=
  (s.called = 1 ∧ s.start = true) ∨
    (s.called = 0 ∧ (s.hasFn = false ∨ (s.stop = true ∧ s.timely = false)))

/-- What is known from where the thread is. -/
def Phase (s : Manager ι) : Prop :=
  match s.wrapper with
  | .look => s.called = 0 ∧ s.returned = 0 ∧ s.done = false ∧ (s.timely = true → s.start = true)
  | .asleep => s.called = 0 ∧ s.returned = 0 ∧ s.done = false ∧ s.start = false ∧
      s.stop = false ∧ s.timely = false
  | .decided true => s.called = 0 ∧ s.returned = 0 ∧ s.done = false ∧ s.start = true
  | .decided false => s.called = 0 ∧ s.returned = 0 ∧ s.done = false ∧ s.stop = true ∧
      s.timely = false
  | .running => s.called = 1 ∧ s.returned = 0 ∧ s.done = false ∧ s.start = true
  | .last => s.called = s.returned ∧ s.done = false ∧ Outcome s
  | .left => s.called = s.returned ∧ s.done = true ∧ Outcome s

/-- What is known from where the clients are. -/
structure Attended (s : Manager ι) : Prop where
  stopped : ∀ i, s.clients i ≠ .idle → s.stop = true
  asleep : ∀ i finishing, s.clients i = .asleep finishing → s.done = false
  alone : ∀ i, (s.clients i).finishing = true →
    s.doomed = true ∧ ∀ j, j ≠ i → s.clients j = .idle
  destroys : ∀ i, s.clients i = .destroys → s.done = true
  gone : s.init = false → s.done = true ∧ s.doomed = true ∧ ∀ i, s.clients i = .idle
  released : s.released = true → s.done = true

@[simp] theorem Client.woken_finishing (c : Client) : c.woken.finishing = c.finishing := by
  cases c with
  | _ => rfl

theorem Client.woken_eq_idle {c : Client} : c.woken = .idle ↔ c = .idle := by
  cases c with
  | _ => simp

theorem Client.woken_eq_destroys {c : Client} : c.woken = .destroys ↔ c = .destroys := by
  cases c with
  | _ => simp

theorem Client.woken_ne (c : Client) (finishing : Bool) : c.woken ≠ .asleep finishing := by
  cases c with
  | _ => simp

theorem Phase.wake (h : Phase s) : Phase s.wake := by
  unfold Phase Manager.wake at *
  dsimp only
  cases place : s.wrapper with
  | asleep =>
      rw [place] at h
      obtain ⟨called, returned, done, _, _, timely⟩ := h
      exact ⟨called, returned, done, by simp [timely]⟩
  | decided start =>
      rw [place] at h
      exact h
  | look | running | last | left =>
      rw [place] at h
      exact h

theorem Wrapper.woken_ne (w : Wrapper) : w.woken ≠ .asleep := by
  cases w with
  | _ => simp

/-- `gp_thr_manager_run`, with the thread awake. -/
theorem Phase.setStart (h : Phase s) (awake : s.wrapper ≠ .asleep) :
    Phase { s with start := true, timely := s.timely || !s.stop } := by
  have outcome : Outcome s → Outcome { s with start := true, timely := s.timely || !s.stop } := by
    intro known
    rcases known with ⟨called, _⟩ | ⟨called, noFn | ⟨stop, timely⟩⟩
    · exact .inl ⟨called, rfl⟩
    · exact .inr ⟨called, .inl noFn⟩
    · exact .inr ⟨called, .inr ⟨stop, by simp [timely, stop]⟩⟩
  unfold Phase at h ⊢
  dsimp only
  cases place : s.wrapper with
  | asleep => exact absurd place awake
  | look =>
      rw [place] at h
      exact ⟨h.1, h.2.1, h.2.2.1, fun _ => rfl⟩
  | running =>
      rw [place] at h
      exact ⟨h.1, h.2.1, h.2.2.1, rfl⟩
  | last | left =>
      rw [place] at h
      exact ⟨h.1, h.2.1, outcome h.2.2⟩
  | decided start =>
      rw [place] at h
      cases start with
      | true => exact ⟨h.1, h.2.1, h.2.2.1, rfl⟩
      | false =>
          obtain ⟨called, returned, done, stop, timely⟩ := h
          exact ⟨called, returned, done, stop, by simp [timely, stop]⟩

/-- `stop` is set by `wait` and by `finish`. -/
theorem Phase.setStop (h : Phase s) (awake : s.wrapper ≠ .asleep) (finishing : Bool) :
    Phase { s with stop := true, doomed := s.doomed || finishing } := by
  have outcome : Outcome s →
      Outcome { s with stop := true, doomed := s.doomed || finishing } := by
    intro known
    exact known.imp_right fun ⟨called, why⟩ => ⟨called, why.imp_right fun late => ⟨rfl, late.2⟩⟩
  unfold Phase at h ⊢
  dsimp only
  cases place : s.wrapper with
  | asleep => exact absurd place awake
  | look | running =>
      rw [place] at h
      exact h
  | last | left =>
      rw [place] at h
      exact ⟨h.1, h.2.1, outcome h.2.2⟩
  | decided start =>
      rw [place] at h
      cases start with
      | true => exact h
      | false => exact ⟨h.1, h.2.1, h.2.2.1, rfl, h.2.2.2.2⟩

theorem Attended.wake (h : Attended s) : Attended s.wake := by
  refine ⟨?_, ?_, ?_, ?_, ?_, h.released⟩
  · intro i inside
    exact h.stopped i (mt Client.woken_eq_idle.mpr inside)
  · intro i finishing asleep
    exact absurd asleep (Client.woken_ne _ _)
  · intro i last
    obtain ⟨doomed, others⟩ := h.alone i (Client.woken_finishing _ ▸ last)
    exact ⟨doomed, fun j apart => Client.woken_eq_idle.mpr (others j apart)⟩
  · intro i destroys
    exact h.destroys i (Client.woken_eq_destroys.mp destroys)
  · intro gone
    obtain ⟨done, doomed, idle⟩ := h.gone gone
    exact ⟨done, doomed, fun i => Client.woken_eq_idle.mpr (idle i)⟩

/-- The manager that `finish` has destroyed is not in use. -/
theorem Attended.init (h : Attended s) {i : ι} (inside : s.clients i ≠ .idle) :
    s.init = true := by
  rw [← Bool.not_eq_false]
  intro gone
  exact inside ((h.gone gone).2.2 i)

theorem Attended.others (h : Attended s) {i : ι} (inside : s.clients i ≠ .idle) (j : ι)
    (apart : j ≠ i) : (s.clients j).finishing = false := by
  rw [Bool.eq_false_iff]
  intro last
  exact inside ((h.alone j last).2 i (Ne.symm apart))

/-- Nobody is in `finish` before it is called. -/
theorem Attended.early (h : Attended s) (early : s.doomed = false) (j : ι) :
    (s.clients j).finishing = false := by
  rw [Bool.eq_false_iff]
  intro last
  rw [(h.alone j last).1] at early
  cases early

theorem Attended.setStop (h : Attended s) (finishing : Bool) :
    Attended { s with stop := true, doomed := s.doomed || finishing } where
  stopped _ _ := rfl
  asleep := h.asleep
  alone i last := by
    obtain ⟨doomed, others⟩ := h.alone i last
    exact ⟨by simp [doomed], others⟩
  destroys := h.destroys
  gone gone := by
    obtain ⟨done, doomed, idle⟩ := h.gone gone
    exact ⟨done, by simp [doomed], idle⟩
  released := h.released

variable [DecidableEq ι]

theorem Phase.testDone (h : Phase s) (i : ι) (finishing : Bool) :
    Phase (s.testDone i finishing) := by
  unfold Manager.testDone
  split
  · exact h
  · exact h

/-- What the thread itself does, and what clients do. -/
theorem Phase.step (h : Phase s) {ev : ManagerEvent ι} (stepped : s.exec ev = some t) :
    Phase t := by
  cases ev with
  | run =>
      obtain rfl := Option.some.inj stepped
      exact h.wake.setStart (Wrapper.woken_ne _)
  | wait i =>
      obtain ⟨_, stepped⟩ := Option.ite_none_right_eq_some.mp stepped
      obtain rfl := Option.some.inj stepped
      unfold Manager.enter
      split
      · exact (h.wake.setStop (Wrapper.woken_ne _) false).testDone i false
      · exact h
  | finish i =>
      obtain ⟨_, stepped⟩ := Option.ite_none_right_eq_some.mp stepped
      obtain rfl := Option.some.inj stepped
      unfold Manager.enter
      split
      · exact (h.wake.setStop (Wrapper.woken_ne _) true).testDone i true
      · exact h
  | look =>
      obtain ⟨place, stepped⟩ := Option.ite_none_right_eq_some.mp stepped
      unfold Phase at h
      rw [place] at h
      obtain ⟨called, returned, done, early⟩ := h
      split at stepped
      · next waits =>
          obtain rfl := Option.some.inj stepped
          simp only [Bool.and_eq_true, Bool.not_eq_true'] at waits
          refine ⟨called, returned, done, waits.1, waits.2, ?_⟩
          rw [Bool.eq_false_iff]
          intro timely
          rw [early timely] at waits
          cases waits.1
      · next goes =>
          obtain rfl := Option.some.inj stepped
          unfold Phase
          dsimp only
          cases start : s.start with
          | true => exact ⟨called, returned, done, rfl⟩
          | false =>
              refine ⟨called, returned, done, by simpa [start] using goes, ?_⟩
              rw [Bool.eq_false_iff]
              intro timely
              rw [early timely] at start
              cases start
  | call =>
      simp only [Manager.exec] at stepped
      split at stepped
      · next start place =>
          unfold Phase at h
          rw [place] at h
          split at stepped
          · next calls =>
              obtain rfl := Option.some.inj stepped
              obtain ⟨rfl, _⟩ := Bool.and_eq_true_iff.mp calls
              exact ⟨congrArg (· + 1) h.1, h.2.1, h.2.2.1, h.2.2.2⟩
          · next skips =>
              obtain rfl := Option.some.inj stepped
              cases start with
              | true => exact ⟨h.1.trans h.2.1.symm, h.2.2.1, .inr ⟨h.1, .inl (by simpa using skips)⟩⟩
              | false => exact ⟨h.1.trans h.2.1.symm, h.2.2.1, .inr ⟨h.1, .inr h.2.2.2⟩⟩
      · cases stepped
  | ret =>
      obtain ⟨place, stepped⟩ := Option.ite_none_right_eq_some.mp stepped
      obtain rfl := Option.some.inj stepped
      unfold Phase at h
      rw [place] at h
      refine ⟨?_, h.2.2.1, .inl ⟨h.1, h.2.2.2⟩⟩
      show s.called = s.returned + 1
      rw [h.1, h.2.1]
  | done =>
      obtain ⟨place, stepped⟩ := Option.ite_none_right_eq_some.mp stepped
      obtain rfl := Option.some.inj stepped
      unfold Phase at h
      rw [place] at h
      exact ⟨h.1, rfl, h.2.2⟩
  | test i =>
      simp only [Manager.exec] at stepped
      split at stepped
      · obtain rfl := Option.some.inj stepped
        exact h.testDone i _
      · cases stepped
  | destroy i =>
      obtain ⟨_, stepped⟩ := Option.ite_none_right_eq_some.mp stepped
      obtain rfl := Option.some.inj stepped
      exact h
  | wakeWrapper =>
      obtain ⟨place, stepped⟩ := Option.ite_none_right_eq_some.mp stepped
      obtain rfl := Option.some.inj stepped
      have woken := h.wake
      unfold Phase at woken
      simp only [Manager.wake, place, Wrapper.woken] at woken
      exact woken
  | wakeClient i =>
      simp only [Manager.exec] at stepped
      split at stepped
      · obtain rfl := Option.some.inj stepped
        exact h
      · cases stepped

/-- A client goes on, while no other one is in `finish`. -/
theorem Attended.setClient (h : Attended s) {i : ι} {c : Client} (stop : s.stop = true)
    (init : s.init = true) (others : ∀ j, j ≠ i → (s.clients j).finishing = false)
    (asleep : ∀ finishing, c = .asleep finishing → s.done = false)
    (last : c.finishing = true → s.doomed = true ∧ ∀ j, j ≠ i → s.clients j = .idle)
    (destroys : c = .destroys → s.done = true) : Attended (s.setClient i c) := by
  have here : (s.setClient i c).clients i = c := Function.update_self ..
  have there : ∀ j, j ≠ i → (s.setClient i c).clients j = s.clients j :=
    fun j apart => Function.update_of_ne apart ..
  refine ⟨fun _ _ => stop, fun j finishing sleeps => ?_, fun j inside => ?_, fun j ends => ?_,
    fun gone => ?_, h.released⟩
  · by_cases same : j = i
    · subst same
      exact asleep finishing (here.symm.trans sleeps)
    · exact h.asleep j finishing ((there j same).symm.trans sleeps)
  · by_cases same : j = i
    · subst same
      rw [here] at inside
      refine ⟨(last inside).1, fun k apart => ?_⟩
      rw [there k apart]
      exact (last inside).2 k apart
    · rw [there j same, others j same] at inside
      cases inside
  · by_cases same : j = i
    · subst same
      exact destroys (here.symm.trans ends)
    · exact h.destroys j ((there j same).symm.trans ends)
  · have gone : s.init = false := gone
    rw [init] at gone
    cases gone

/-- A client looks at `done`. -/
theorem Attended.testDone (h : Attended s) {i : ι} {finishing : Bool} (stop : s.stop = true)
    (init : s.init = true) (others : ∀ j, j ≠ i → (s.clients j).finishing = false)
    (last : finishing = true → s.doomed = true ∧ ∀ j, j ≠ i → s.clients j = .idle) :
    Attended (s.testDone i finishing) := by
  unfold Manager.testDone
  by_cases done : s.done = true
  · rw [if_pos done]
    cases finishing with
    | false =>
        have set := h.setClient (c := .idle) stop init others nofun nofun nofun
        exact ⟨set.stopped, set.asleep, set.alone, set.destroys, set.gone, fun _ => done⟩
    | true =>
        have set := h.setClient (c := .destroys) stop init others nofun last fun _ => done
        exact ⟨set.stopped, set.asleep, set.alone, set.destroys, set.gone, fun _ => done⟩
  · rw [if_neg done]
    exact h.setClient stop init others (fun _ _ => by simpa using done) last nofun

theorem Attended.step (h : Attended s) {ev : ManagerEvent ι}
    (supervised : Supervised s ev) (stepped : s.exec ev = some t) : Attended t := by
  cases ev with
  | run =>
      obtain rfl := Option.some.inj stepped
      have woken := h.wake
      exact ⟨woken.stopped, woken.asleep, woken.alone, woken.destroys, woken.gone, woken.released⟩
  | wait i =>
      obtain ⟨_, stepped⟩ := Option.ite_none_right_eq_some.mp stepped
      obtain rfl := Option.some.inj stepped
      unfold Manager.enter
      split
      · next init =>
          have early : s.doomed = false := supervised.resolve_left (by simp [init])
          refine (h.setStop false).wake.testDone rfl init ?_ nofun
          exact fun j _ => (Client.woken_finishing _).trans (h.early early j)
      · exact h
  | finish i =>
      obtain ⟨_, stepped⟩ := Option.ite_none_right_eq_some.mp stepped
      obtain rfl := Option.some.inj stepped
      unfold Manager.enter
      split
      · next init =>
          obtain ⟨early, idle⟩ := supervised.resolve_left (by simp [init])
          refine (h.setStop true).wake.testDone rfl init ?_ ?_
          · exact fun j _ => (Client.woken_finishing _).trans (h.early early j)
          · exact fun _ => ⟨Bool.or_true _, fun j _ => Client.woken_eq_idle.mpr (idle j)⟩
      · exact h
  | look =>
      obtain ⟨_, stepped⟩ := Option.ite_none_right_eq_some.mp stepped
      split at stepped
      · obtain rfl := Option.some.inj stepped
        exact ⟨h.stopped, h.asleep, h.alone, h.destroys, h.gone, h.released⟩
      · obtain rfl := Option.some.inj stepped
        exact ⟨h.stopped, h.asleep, h.alone, h.destroys, h.gone, h.released⟩
  | call =>
      simp only [Manager.exec] at stepped
      split at stepped
      · split at stepped
        · obtain rfl := Option.some.inj stepped
          exact ⟨h.stopped, h.asleep, h.alone, h.destroys, h.gone, h.released⟩
        · obtain rfl := Option.some.inj stepped
          exact ⟨h.stopped, h.asleep, h.alone, h.destroys, h.gone, h.released⟩
      · cases stepped
  | ret =>
      obtain ⟨_, stepped⟩ := Option.ite_none_right_eq_some.mp stepped
      obtain rfl := Option.some.inj stepped
      exact ⟨h.stopped, h.asleep, h.alone, h.destroys, h.gone, h.released⟩
  | done =>
      obtain ⟨_, stepped⟩ := Option.ite_none_right_eq_some.mp stepped
      obtain rfl := Option.some.inj stepped
      have woken := h.wake
      exact ⟨woken.stopped, fun i _ asleep => absurd asleep (Client.woken_ne _ _), woken.alone,
        fun _ _ => rfl, fun gone => ⟨rfl, (woken.gone gone).2⟩, fun _ => rfl⟩
  | test i =>
      simp only [Manager.exec] at stepped
      split at stepped
      · next finishing place =>
          obtain rfl := Option.some.inj stepped
          have inside : s.clients i ≠ .idle := by simp [place]
          refine h.testDone (h.stopped i inside) (h.init inside) (h.others inside) ?_
          rintro rfl
          exact h.alone i (by simp [place])
      · cases stepped
  | destroy i =>
      obtain ⟨place, stepped⟩ := Option.ite_none_right_eq_some.mp stepped
      obtain rfl := Option.some.inj stepped
      obtain ⟨doomed, others⟩ := h.alone i (by simp [place])
      have idle : ∀ j, Function.update s.clients i .idle j = .idle := by
        intro j
        by_cases same : j = i
        · rw [same, Function.update_self]
        · rw [Function.update_of_ne same]
          exact others j same
      refine ⟨fun j inside => absurd (idle j) inside, fun j _ asleep => ?_, fun j last => ?_,
        fun j destroys => ?_, fun _ => ⟨h.destroys i place, doomed, idle⟩, h.released⟩
      · cases (idle j).symm.trans asleep
      · have last : (Function.update s.clients i .idle j).finishing = true := last
        rw [idle j] at last
        cases last
      · cases (idle j).symm.trans destroys
  | wakeWrapper =>
      obtain ⟨_, stepped⟩ := Option.ite_none_right_eq_some.mp stepped
      obtain rfl := Option.some.inj stepped
      exact ⟨h.stopped, h.asleep, h.alone, h.destroys, h.gone, h.released⟩
  | wakeClient i =>
      simp only [Manager.exec] at stepped
      split at stepped
      · next finishing place =>
          obtain rfl := Option.some.inj stepped
          have inside : s.clients i ≠ .idle := by simp [place]
          refine h.setClient (h.stopped i inside) (h.init inside) (h.others inside) nofun ?_ nofun
          exact fun last => h.alone i (by rw [place]; exact last)
      · cases stepped

end Invariant

section Runs

variable {ι : Type} [DecidableEq ι] {hasFn : Bool} {events : List (ManagerEvent ι)}
  {s : Manager ι}

theorem hasFn_step {t : Manager ι} {ev : ManagerEvent ι} (stepped : s.exec ev = some t) :
    t.hasFn = s.hasFn := by
  have tested : ∀ (u : Manager ι) i finishing, (u.testDone i finishing).hasFn = u.hasFn := by
    intro u i finishing
    unfold Manager.testDone
    split
    · rfl
    · rfl
  have entered : ∀ i finishing, (s.enter i finishing).hasFn = s.hasFn := by
    intro i finishing
    unfold Manager.enter
    split
    · exact tested ..
    · rfl
  unfold Manager.exec at stepped
  split at stepped
  case h_1 => exact Option.some.inj stepped ▸ rfl
  case h_2 | h_3 =>
    obtain ⟨_, stepped⟩ := Option.ite_none_right_eq_some.mp stepped
    exact Option.some.inj stepped ▸ entered ..
  case h_4 =>
    obtain ⟨_, stepped⟩ := Option.ite_none_right_eq_some.mp stepped
    split at stepped
    · exact Option.some.inj stepped ▸ rfl
    · exact Option.some.inj stepped ▸ rfl
  case h_5 =>
    split at stepped
    · split at stepped
      · exact Option.some.inj stepped ▸ rfl
      · exact Option.some.inj stepped ▸ rfl
    · cases stepped
  case h_8 =>
    split at stepped
    · exact Option.some.inj stepped ▸ tested ..
    · cases stepped
  case h_11 =>
    split at stepped
    · exact Option.some.inj stepped ▸ rfl
    · cases stepped
  all_goals
    obtain ⟨_, stepped⟩ := Option.ite_none_right_eq_some.mp stepped
    exact Option.some.inj stepped ▸ rfl

theorem run_manager (run : ((managerSys ι hasFn).restrict Supervised).Run events s) :
    Phase s ∧ Attended s ∧ s.hasFn = hasFn := by
  refine run.invariant (I := fun _ s => Phase s ∧ Attended s ∧ s.hasFn = hasFn) ?_ ?_
  · rintro s rfl
    refine ⟨?_, ⟨?_, nofun, nofun, nofun, nofun, nofun⟩, rfl⟩
    · cases hasFn with
      | false => exact ⟨rfl, rfl, .inr ⟨rfl, .inl rfl⟩⟩
      | true => exact ⟨rfl, rfl, rfl, nofun⟩
    · exact fun i inside => absurd rfl inside
  · rintro events s ev t _ ⟨phase, attended, fn⟩ ⟨supervised, stepped⟩
    exact ⟨phase.step stepped, attended.step supervised stepped, (hasFn_step stepped).trans fn⟩

/-- **The function is called once.** In every run in which `finish` is called when no other
call is under way, and nobody uses the manager after it: the function of the thread is called
at most once, and not before `run`. When a `wait` or the `finish` has got past its loop, the
thread has run its last section and the function has returned if it was called; it was called
if `run` came before the first `wait` or `finish`. When the mutex has been destroyed, the thread
has left and no client is in a call. -/
theorem function_called_once (run : ((managerSys ι hasFn).restrict Supervised).Run events s) :
    s.called ≤ 1 ∧ (s.called = 1 → s.start = true) ∧
    (s.released = true → s.wrapper = .left ∧ s.returned = s.called ∧
      (hasFn = true → s.timely = true → s.called = 1)) ∧
    (s.init = false → s.wrapper = .left ∧ ∀ i, s.clients i = .idle) := by
  obtain ⟨phase, attended, rfl⟩ := run_manager run
  have counts : s.called ≤ 1 ∧ (s.called = 1 → s.start = true) := by
    unfold Phase Outcome at phase
    split at phase
    case h_6 | h_7 =>
      obtain ⟨called, start⟩ | ⟨called, _⟩ := phase.2.2
      · exact ⟨by omega, fun _ => start⟩
      · exact ⟨by omega, fun one => by omega⟩
    case h_5 => exact ⟨by omega, fun _ => phase.2.2.2⟩
    all_goals exact ⟨by omega, fun one => by omega⟩
  -- only the last section sets `done`
  have over_ : s.done = true → s.wrapper = .left ∧ s.called = s.returned ∧ Outcome s := by
    intro done
    unfold Phase at phase
    split at phase
    case h_7 place => exact ⟨place, phase.1, phase.2.2⟩
    case h_6 => exact absurd (phase.2.1.symm.trans done) (by simp)
    all_goals exact absurd (phase.2.2.1.symm.trans done) (by simp)
  refine ⟨counts.1, counts.2, fun released => ?_, fun gone => ?_⟩
  · obtain ⟨left, same, outcome⟩ := over_ (attended.released released)
    refine ⟨left, same.symm, fun fn timely => ?_⟩
    rcases outcome with ⟨called, _⟩ | ⟨_, noFn | ⟨_, late⟩⟩
    · exact called
    · rw [fn] at noFn
      cases noFn
    · rw [timely] at late
      cases late
  · obtain ⟨done, _, idle⟩ := attended.gone gone
    exact ⟨(over_ done).1, idle⟩

/-- A client starts the thread and finishes it: it sleeps until the function has returned. -/
theorem function_called_once_finish :
    ∃ events s, ((managerSys Bool true).restrict Supervised).Run events s ∧ s.called = 1 ∧
      s.start = true ∧ s.wrapper = .left ∧ s.returned = 1 ∧ ∀ i, s.clients i = .idle := by
  let M := (managerSys Bool true).restrict Supervised
  have run₀ : M.Run [] _ := .init rfl
  have run₁ : M.Run [.look] _ := .step run₀ ⟨trivial, rfl⟩
  have run₂ : M.Run [.look, .run] _ := .step run₁ ⟨rfl, rfl⟩
  have run₃ : M.Run ([.look, .run] ++ [.finish false]) _ :=
    .step run₂ ⟨.inr ⟨rfl, fun i => by cases i <;> rfl⟩, rfl⟩
  have run₄ : M.Run (_ ++ [.look]) _ := .step run₃ ⟨trivial, rfl⟩
  have run₅ : M.Run (_ ++ [.call]) _ := .step run₄ ⟨trivial, rfl⟩
  have run₆ : M.Run (_ ++ [.ret]) _ := .step run₅ ⟨trivial, rfl⟩
  have run₇ : M.Run (_ ++ [.done]) _ := .step run₆ ⟨trivial, rfl⟩
  have run₈ : M.Run (_ ++ [.test false]) _ := .step run₇ ⟨trivial, rfl⟩
  have run₉ : M.Run (_ ++ [.destroy false]) _ := .step run₈ ⟨trivial, rfl⟩
  obtain ⟨_, started, over_, gone⟩ := function_called_once run₉
  obtain ⟨left, returned, called⟩ := over_ rfl
  have one := called rfl rfl
  exact ⟨_, _, run₉, one, started one, left, returned.trans one, (gone rfl).2⟩

/-! ## Progress -/

/-- The steps that the thread and the clients in a call take by themselves. -/
def Unaided : ManagerEvent ι → Prop
  | .look | .call | .ret | .done | .test _ | .destroy _ => True
  | .run | .wait _ | .finish _ | .wakeWrapper | .wakeClient _ => False

def Client.weight : Client → Nat
  | .idle | .asleep _ => 0
  | .waits _ => 2
  | .destroys => 1

/-- `gp_cv_wake` may cost two steps of each of `n` clients. -/
def Wrapper.weight (n : Nat) : Wrapper → Nat
  | .look => 2 * n + 4
  | .decided _ => 2 * n + 3
  | .running => 2 * n + 2
  | .last => 2 * n + 1
  | .asleep | .left => 0

variable [Fintype ι]

/-- A bound on those steps. -/
def Manager.work (s : Manager ι) : Nat :=
  s.wrapper.weight (Fintype.card ι) + ∑ i, (s.clients i).weight

theorem sum_update_lt (clients : ι → Client) {i : ι} {c : Client}
    (less : c.weight < (clients i).weight) :
    ∑ j, (Function.update clients i c j).weight < ∑ j, (clients j).weight := by
  refine Finset.sum_lt_sum (fun j _ => ?_) ⟨i, Finset.mem_univ i, ?_⟩
  · by_cases same : j = i
    · subst same
      rw [Function.update_self]
      exact less.le
    · rw [Function.update_of_ne same]
  · rw [Function.update_self]
    exact less

omit [DecidableEq ι] in
theorem sum_woken_le (clients : ι → Client) :
    ∑ i, (clients i).woken.weight ≤ 2 * Fintype.card ι := by
  have each : ∀ i, (clients i).woken.weight ≤ 2 := by
    intro i
    cases clients i with
    | _ => simp [Client.weight]
  calc ∑ i, (clients i).woken.weight ≤ ∑ _ : ι, 2 := Finset.sum_le_sum fun i _ => each i
    _ = Fintype.card ι * 2 := Finset.sum_const_nat fun _ _ => rfl
    _ = 2 * Fintype.card ι := Nat.mul_comm _ _

theorem manager_work_step {t : Manager ι} {ev : ManagerEvent ι} (unaided : Unaided ev)
    (stepped : s.exec ev = some t) : t.work < s.work := by
  unfold Manager.work
  cases ev with
  | run | wait i | finish i | wakeWrapper | wakeClient i => cases unaided
  | look =>
      obtain ⟨place, stepped⟩ := Option.ite_none_right_eq_some.mp stepped
      rw [place]
      split at stepped
      · obtain rfl := Option.some.inj stepped
        simp only [Wrapper.weight]
        omega
      · obtain rfl := Option.some.inj stepped
        simp only [Wrapper.weight]
        omega
  | call =>
      simp only [Manager.exec] at stepped
      split at stepped
      · next start place =>
          rw [place]
          split at stepped
          · obtain rfl := Option.some.inj stepped
            simp only [Wrapper.weight]
            omega
          · obtain rfl := Option.some.inj stepped
            simp only [Wrapper.weight]
            omega
      · cases stepped
  | ret =>
      obtain ⟨place, stepped⟩ := Option.ite_none_right_eq_some.mp stepped
      obtain rfl := Option.some.inj stepped
      rw [place]
      simp only [Wrapper.weight]
      omega
  | done =>
      obtain ⟨place, stepped⟩ := Option.ite_none_right_eq_some.mp stepped
      obtain rfl := Option.some.inj stepped
      have woken := sum_woken_le s.clients
      rw [place]
      simp only [Manager.wake, Wrapper.woken, Wrapper.weight]
      omega
  | test i =>
      simp only [Manager.exec] at stepped
      split at stepped
      · next finishing place =>
          obtain rfl := Option.some.inj stepped
          unfold Manager.testDone
          split
          · refine Nat.add_lt_add_left (sum_update_lt s.clients ?_) _
            rw [place]
            cases finishing with
            | false => exact Nat.two_pos
            | true => exact Nat.one_lt_two
          · refine Nat.add_lt_add_left (sum_update_lt s.clients ?_) _
            rw [place]
            exact Nat.two_pos
      · cases stepped
  | destroy i =>
      obtain ⟨place, stepped⟩ := Option.ite_none_right_eq_some.mp stepped
      obtain rfl := Option.some.inj stepped
      refine Nat.add_lt_add_left (sum_update_lt s.clients ?_) _
      rw [place]
      exact Nat.one_pos

omit [Fintype ι] in
theorem exec_call {start : Bool} (place : s.wrapper = .decided start) :
    ∃ t, s.exec .call = some t := by
  simp only [Manager.exec, place]
  split
  · exact ⟨_, rfl⟩
  · exact ⟨_, rfl⟩

/-- **Every `wait` and `finish` returns.** From any state of such a run on, the thread and the
clients take at most `work` steps by themselves, none of which needs a spurious wakeup; and
when they can take no more, no client is in a call. -/
theorem waits_end (run : ((managerSys ι hasFn).restrict Supervised).Run events s) :
    (∀ more t, (((managerSys ι hasFn).restrict fun _ => Unaided).starting s).Run more t →
      more.length ≤ s.work) ∧
    ((∀ ev t, Unaided ev → s.exec ev ≠ some t) → ∀ i, s.clients i = .idle) := by
  constructor
  · intro more t rest
    have bounded := rest.rank (μ := Manager.work) (n := s.work) (I := fun _ => True) ?_ ?_
    · omega
    · rintro _ rfl
      exact ⟨trivial, le_refl _⟩
    · rintro u ev v _ ⟨unaided, stepped⟩
      exact ⟨trivial, manager_work_step unaided stepped⟩
  · intro stuck i
    obtain ⟨phase, attended, _⟩ := run_manager run
    cases place : s.clients i with
    | idle => rfl
    | waits finishing =>
        have tests : s.exec (.test i) = some (s.testDone i finishing) := by
          simp only [Manager.exec, place]
        exact absurd tests (stuck (.test i) _ trivial)
    | destroys =>
        exact absurd (if_pos place) (stuck (.destroy i) _ trivial)
    | asleep finishing =>
        -- the thread has been told to stop, and has not stopped
        have open_ := attended.asleep i finishing place
        have stop := attended.stopped i (by simp [place])
        unfold Phase at phase
        split at phase
        case h_1 here =>
          have goes : s.exec .look = some { s with wrapper := .decided s.start } := by
            simp [Manager.exec, here, stop]
          exact absurd goes (stuck .look _ trivial)
        case h_2 =>
          rw [phase.2.2.2.2.1] at stop
          cases stop
        case h_3 here | h_4 here =>
          obtain ⟨t, calls⟩ := exec_call here
          exact absurd calls (stuck .call t trivial)
        case h_5 here => exact absurd (if_pos here) (stuck .ret _ trivial)
        case h_6 here => exact absurd (if_pos here) (stuck .done _ trivial)
        case h_7 =>
          rw [phase.2.1] at open_
          cases open_

/-- A client waits for a thread that was never told to start, and gets past its loop. -/
theorem waits_end_early :
    ∃ events more s t, ((managerSys Unit true).restrict Supervised).Run events s ∧
      (((managerSys Unit true).restrict fun _ => Unaided).starting s).Run more t ∧
      more.length ≤ s.work ∧ s.work = 6 ∧ t.released = true ∧ ∀ i, t.clients i = .idle := by
  let M := (managerSys Unit true).restrict Supervised
  let s₁ : Manager Unit := { Manager.initGpThrManager true with wrapper := .asleep }
  let s₂ := s₁.enter () false
  let N := ((managerSys Unit true).restrict fun _ => Unaided).starting s₂
  have run₀ : M.Run [] _ := .init rfl
  have run₁ : M.Run [.look] s₁ := .step run₀ ⟨trivial, rfl⟩
  have run₂ : M.Run [.look, .wait ()] s₂ := .step run₁ ⟨.inr rfl, rfl⟩
  have rest₀ : N.Run [] s₂ := .init rfl
  have rest₁ : N.Run [.look] _ := .step rest₀ ⟨trivial, rfl⟩
  have rest₂ : N.Run [.look, .call] _ := .step rest₁ ⟨trivial, rfl⟩
  have rest₃ : N.Run [.look, .call, .done] _ := .step rest₂ ⟨trivial, rfl⟩
  have rest₄ : N.Run [.look, .call, .done, .test ()] _ := .step rest₃ ⟨trivial, rfl⟩
  have bounded := (waits_end run₂).1 _ _ rest₄
  have run₃ : M.Run [.look, .wait (), .look] _ := .step run₂ ⟨trivial, rfl⟩
  have run₄ : M.Run [.look, .wait (), .look, .call] _ := .step run₃ ⟨trivial, rfl⟩
  have run₅ : M.Run [.look, .wait (), .look, .call, .done] _ := .step run₄ ⟨trivial, rfl⟩
  have run₆ : M.Run [.look, .wait (), .look, .call, .done, .test ()] _ :=
    .step run₅ ⟨trivial, rfl⟩
  have ended := (waits_end run₆).2 (by
    intro ev t unaided
    cases ev with
    | look => exact nofun
    | call => exact nofun
    | ret => exact nofun
    | done => exact nofun
    | test i => exact nofun
    | destroy i => exact nofun
    | _ => exact unaided.elim)
  exact ⟨_, _, _, _, run₂, rest₄, bounded, rfl, rfl, ended⟩

end Runs

end GpBase.Pool

import Mathlib.Logic.Relation
import GpBase.Pool.Locks

/-!
# The order of the locks

The pool lock comes before the task locks: a thread that has locked a task mutex asks
for no other one, and a thread that has locked `tp_mtx` asks for task mutexes only. The
second lock at the end of `wait_task` is the exception: the mutex it asks for is the one
it has locked.
-/

namespace GpBase.Pool

open GpBase.Lib

variable {ι : Type} [DecidableEq ι]

section Locks

variable {s t : LockState ι} {i : ι}

/-- What a step of thread `i` does to the mutexes. -/
inductive LockChange (s t : LockState ι) (i : ι) : Prop
  | keep : t.owner = s.owner → (∀ m, m ∈ (t.threads i).holds ↔ m ∈ (s.threads i).holds) →
      LockChange s t i
  | lock (m : Mutex) : s.owner m = none → t.owner = Function.update s.owner m (some i) →
      (∀ m', m' ∈ (t.threads i).holds ↔ m' = m ∨ m' ∈ (s.threads i).holds) → LockChange s t i
  | unlock (m : Mutex) : m ∈ (s.threads i).holds → t.owner = Function.update s.owner m none →
      (∀ m', m' ∈ (t.threads i).holds ↔ m' ∈ (s.threads i).holds ∧ m' ≠ m) → LockChange s t i

/-- A mutex is locked by the thread whose code has locked it. -/
def Owned (s : LockState ι) : Prop := ∀ m i, s.owner m = some i ↔ m ∈ (s.threads i).holds

theorem Owned.step (owned : Owned s) {th : Thread}
    (threads : t.threads = Function.update s.threads i th) (change : LockChange s t i) :
    Owned t := by
  have others : ∀ j, j ≠ i → t.threads j = s.threads j := by
    intro j apart
    rw [threads, Function.update_of_ne apart]
  intro m j
  cases change with
  | keep owner holds =>
      rw [owner, owned m j]
      by_cases same : j = i
      · rw [same, holds]
      · rw [others j same]
  | lock m₀ free owner holds =>
      rw [owner, Function.update_apply]
      by_cases same : j = i
      · subst same
        rw [holds]
        by_cases here : m = m₀
        · simp [here]
        · simp [here, owned m j]
      · rw [others j same, ← owned m j]
        by_cases here : m = m₀
        · subst here
          rw [if_pos rfl, free]
          simpa using Ne.symm same
        · rw [if_neg here]
  | unlock m₀ held owner holds =>
      have mine := (owned m₀ i).mpr held
      rw [owner, Function.update_apply]
      by_cases same : j = i
      · subst same
        rw [holds, ← owned m j]
        by_cases here : m = m₀
        · simp [here]
        · simp [here]
      · rw [others j same, ← owned m j]
        by_cases here : m = m₀
        · subst here
          rw [if_pos rfl, mine]
          simpa using Ne.symm same
        · rw [if_neg here]

/-- The step changes thread `i` only. -/
def Alone (s t : LockState ι) (i : ι) : Prop := ∃ th, t.threads = Function.update s.threads i th

theorem lock_eq_some {m : Mutex} {th : Thread} (locked : s.lock i m th = some t) :
    s.owner m = none ∧ t = { s.move i th with owner := Function.update s.owner m (some i) } := by
  unfold LockState.lock at locked
  split at locked
  · rename_i free
    exact ⟨free, (Option.some.inj locked).symm⟩
  · cases locked

theorem change_lock {m : Mutex} {th : Thread} (locked : s.lock i m th = some t)
    (holds : ∀ m', m' ∈ th.holds ↔ m' = m ∨ m' ∈ (s.threads i).holds) :
    Alone s t i ∧ LockChange s t i := by
  obtain ⟨free, rfl⟩ := lock_eq_some locked
  refine ⟨⟨th, rfl⟩, .lock m free rfl ?_⟩
  simpa [LockState.move] using holds

theorem change_unlock {s' : LockState ι} {m : Mutex} {th : Thread} (owner : s'.owner = s.owner)
    (threads : s'.threads = s.threads) (held : m ∈ (s.threads i).holds)
    (holds : ∀ m', m' ∈ th.holds ↔ m' ∈ (s.threads i).holds ∧ m' ≠ m) :
    Alone s (s'.unlock i m th) i ∧ LockChange s (s'.unlock i m th) i := by
  refine ⟨⟨th, by rw [← threads]; rfl⟩, .unlock m held (by rw [← owner]; rfl) ?_⟩
  simpa [LockState.unlock, LockState.move] using holds

theorem change_move {s' : LockState ι} {th : Thread} (owner : s'.owner = s.owner)
    (threads : s'.threads = s.threads) (holds : ∀ m, m ∈ th.holds ↔ m ∈ (s.threads i).holds) :
    Alone s (s'.move i th) i ∧ LockChange s (s'.move i th) i := by
  refine ⟨⟨th, by rw [← threads]; rfl⟩, .keep owner ?_⟩
  simpa [LockState.move] using holds

theorem goWorker_change {pc : WorkerPc} (here : s.threads i = ⟨some pc, none⟩)
    (stepped : s.goWorker i pc = some t) : Alone s t i ∧ LockChange s t i := by
  cases pc with
  | lockPool => exact change_lock stepped (by simp [here])
  | lockTask u =>
      exact change_lock stepped (by simp [here, or_comm])
  | relockTask u => exact change_lock stepped (by simp [here])
  | look =>
      simp only [LockState.goWorker] at stepped
      -- a list that cannot be read, a task found, an empty list while running, and the way out
      split at stepped
      · cases stepped
      · cases stepped
        exact change_move rfl rfl (by simp [here])
      · split at stepped
        · cases stepped
          exact change_unlock rfl rfl (by simp [here]) (by simp [here])
        · cases stepped
          exact change_move rfl rfl (by simp [here])
  | remove u =>
      obtain ⟨l, _, rfl⟩ := Option.map_eq_some_iff.mp stepped
      refine change_unlock rfl rfl (by simp [here]) ?_
      intro m'
      cases m' <;> simp [here]
  | unlockPool u =>
      cases stepped
      exact change_unlock rfl rfl (by simp [here]) (by simp [here])
  | callback u =>
      cases stepped
      exact change_move rfl rfl (by simp [here])
  | count u =>
      cases stepped
      exact change_unlock rfl rfl (by simp [here]) (by simp [here])
  | sleep =>
      cases stepped
      exact change_move rfl rfl (by simp [here])
  | leave =>
      cases stepped
      exact change_unlock rfl rfl (by simp [here]) (by simp [here])
  | left => cases stepped

/-- Code that may call a client's function has locked nothing. -/
theorem holds_of_free {th : Thread} (free : th.free = true) : th.holds = [] ∧ th.wants = none := by
  obtain ⟨worker, call⟩ := th
  cases call with
  | some pc => cases free
  | none =>
      cases worker with
      | none => exact ⟨rfl, rfl⟩
      | some pc =>
          cases pc with
          | callback u => exact ⟨rfl, rfl⟩
          | _ => cases free

theorem free_call {th : Thread} (free : th.free = true) : th.call = none := by
  obtain ⟨worker, call⟩ := th
  cases call with
  | some pc => cases free
  | none => rfl

theorem free_worker {th : Thread} (free : th.free = true) :
    Thread.free ⟨th.worker, none⟩ = true := by
  rw [← free_call free]
  exact free

theorem goCall_change {worker : Option WorkerPc} {pc : CallPc}
    (here : s.threads i = ⟨worker, some pc⟩) (outer : Thread.free ⟨worker, none⟩ = true)
    (going : ∀ u, pc ≠ .waitRelock u) (stepped : s.goCall i worker pc = some t) :
    Alone s t i ∧ LockChange s t i := by
  -- a call runs on a thread that had locked nothing when it began
  have nothing := (holds_of_free outer).1
  cases pc with
  | runLock u => exact change_lock stepped (by simp [here])
  | runLockPool u => exact change_lock stepped (by simp [here])
  | waitLock u => exact change_lock stepped (by simp [here])
  | destroyLock u => exact change_lock stepped (by simp [here])
  | stopLock => exact change_lock stepped (by simp [here])
  | waitRelock u => exact absurd rfl (going u)
  | runCount u =>
      cases stepped
      exact change_unlock rfl rfl (by simp [here]) (by simp [here])
  | runAppend u =>
      obtain ⟨l, _, rfl⟩ := Option.map_eq_some_iff.mp stepped
      exact change_unlock rfl rfl (by simp [here]) (by rw [nothing]; simp [here])
  | waitTest u =>
      simp only [LockState.goCall] at stepped
      split at stepped
      · cases stepped
        exact change_unlock rfl rfl (by simp [here]) (by simp [here])
      · cases stepped
        exact change_move rfl rfl (by simp [here])
  | waitSleep u =>
      cases stepped
      exact change_move rfl rfl (by simp [here])
  | destroyTest u =>
      simp only [LockState.goCall] at stepped
      split at stepped
      · cases stepped
        exact change_unlock rfl rfl (by simp [here]) (by simp [here])
      · cases stepped
        exact change_move rfl rfl (by simp [here])
  | destroySleep u =>
      cases stepped
      exact change_move rfl rfl (by simp [here])
  | destroyUnlock u =>
      cases stepped
      exact change_unlock rfl rfl (by simp [here]) (by simp [here])
  | destroyFree u =>
      cases stepped
      exact change_move rfl rfl (by rw [nothing]; simp [here])
  | stopClear =>
      cases stepped
      exact change_unlock rfl rfl (by simp [here]) (by rw [nothing]; simp [here])

/-- The calls that a thread may begin, with the tasks that are doomed from then on. -/
inductive Begins (s : LockState ι) : CallPc → (TaskId → Bool) → Prop
  | run {u : TaskId} : s.doomed u = false → Begins s (.runLock u) s.doomed
  | wait {u : TaskId} : Begins s (.waitLock u) s.doomed
  | destroy {u : TaskId} : Begins s (.destroyLock u) (Function.update s.doomed u true)
  | stop : Begins s .stopLock s.doomed

/-- A step is one of a call, one of `gp_task_thread`, or the beginning of a call. -/
theorem exec_cases {c : Choice} (stepped : s.exec (i, c) = some t) :
    (c = .go ∧ ∃ worker pc, s.threads i = ⟨worker, some pc⟩ ∧ s.goCall i worker pc = some t) ∨
    (c = .go ∧ ∃ pc, s.threads i = ⟨some pc, none⟩ ∧ s.goWorker i pc = some t) ∨
    ∃ pc d, (s.threads i).free = true ∧ Begins s pc d ∧
      t = { s with doomed := d }.beginCall i pc := by
  cases c with
  | go =>
      simp only [LockState.exec, LockState.go] at stepped
      split at stepped
      · rename_i worker pc here
        exact .inl ⟨rfl, worker, pc, here, stepped⟩
      · rename_i pc here
        exact .inr (.inl ⟨rfl, pc, here, stepped⟩)
      · cases stepped
  | runTask u =>
      simp only [LockState.exec] at stepped
      split at stepped
      · rename_i ready
        exact .inr (.inr ⟨_, _, ready.1, .run ready.2, (Option.some.inj stepped).symm⟩)
      · cases stepped
  | waitTask u =>
      simp only [LockState.exec] at stepped
      split at stepped
      · rename_i ready
        exact .inr (.inr ⟨_, _, ready, .wait, (Option.some.inj stepped).symm⟩)
      · cases stepped
  | destroyTask u =>
      simp only [LockState.exec] at stepped
      split at stepped
      · rename_i ready
        exact .inr (.inr ⟨_, _, ready, .destroy, (Option.some.inj stepped).symm⟩)
      · cases stepped
  | destroyTaskProcessor =>
      simp only [LockState.exec] at stepped
      split at stepped
      · rename_i ready
        exact .inr (.inr ⟨_, _, ready, .stop, (Option.some.inj stepped).symm⟩)
      · cases stepped

theorem lock_threads {m : Mutex} {th : Thread} (locked : s.lock i m th = some t) :
    t.threads i = th := by
  obtain ⟨_, rfl⟩ := lock_eq_some locked
  exact Function.update_self ..

theorem goWorker_call {pc : WorkerPc} (stepped : s.goWorker i pc = some t) :
    (t.threads i).call = none := by
  cases pc with
  | lockPool | lockTask u | relockTask u => rw [lock_threads stepped]
  | look =>
      simp only [LockState.goWorker] at stepped
      split at stepped
      · cases stepped
      · cases stepped
        rw [LockState.move_self]
      · split at stepped
        · cases stepped
          rw [LockState.unlock_self]
        · cases stepped
          rw [LockState.move_self]
  | remove u =>
      obtain ⟨l, _, rfl⟩ := Option.map_eq_some_iff.mp stepped
      rw [LockState.unlock_self]
  | unlockPool u | count u | leave =>
      cases stepped
      rw [LockState.unlock_self]
  | callback u | sleep =>
      cases stepped
      rw [LockState.move_self]
  | left => cases stepped

/-- A call leaves the worker where it is, and goes past the loop of `wait_task` only when
it finds the task idle. -/
theorem goCall_threads {worker : Option WorkerPc} {pc : CallPc}
    (stepped : s.goCall i worker pc = some t) :
    (t.threads i).worker = worker ∧ ∀ u, (t.threads i).call = some (.waitRelock u) →
      pc = .waitTest u ∧ s.taskBusy u = 0 := by
  cases pc with
  | runLock u | runLockPool u | waitLock u | waitRelock u | destroyLock u | stopLock =>
      rw [lock_threads stepped]
      exact ⟨rfl, nofun⟩
  | runAppend u =>
      obtain ⟨l, _, rfl⟩ := Option.map_eq_some_iff.mp stepped
      rw [LockState.unlock_self]
      exact ⟨rfl, nofun⟩
  | waitTest u =>
      simp only [LockState.goCall] at stepped
      split at stepped
      · cases stepped
        rw [LockState.unlock_self]
        exact ⟨rfl, nofun⟩
      · rename_i idle
        cases stepped
        rw [LockState.move_self]
        refine ⟨rfl, ?_⟩
        rintro v ⟨⟩
        exact ⟨rfl, not_not.mp idle⟩
  | destroyTest u =>
      simp only [LockState.goCall] at stepped
      split at stepped
      · cases stepped
        rw [LockState.unlock_self]
        exact ⟨rfl, nofun⟩
      · cases stepped
        rw [LockState.move_self]
        exact ⟨rfl, nofun⟩
  | runCount u | destroyUnlock u | stopClear =>
      cases stepped
      rw [LockState.unlock_self]
      exact ⟨rfl, nofun⟩
  | waitSleep u | destroySleep u | destroyFree u =>
      cases stepped
      rw [LockState.move_self]
      exact ⟨rfl, nofun⟩

/-- The invariant of the locks. -/
structure Guarded (s : LockState ι) : Prop where
  owned : Owned s
  outer : ∀ i, (s.threads i).call ≠ none → Thread.free ⟨(s.threads i).worker, none⟩ = true
  going : ∀ i u, (s.threads i).call ≠ some (.waitRelock u)

omit [DecidableEq ι] in
theorem Begins.holds {pc : CallPc} {d : TaskId → Bool} (begins : Begins s pc d) : pc.holds = [] := by
  cases begins <;> rfl

/-- What has to be shown of a step: that its own thread is where it may be. -/
theorem Guarded.update (h : Guarded s) (alone : Alone s t i) (change : LockChange s t i)
    (outer : (t.threads i).call ≠ none → Thread.free ⟨(t.threads i).worker, none⟩ = true)
    (going : ∀ u, (t.threads i).call ≠ some (.waitRelock u)) : Guarded t := by
  obtain ⟨th, threads⟩ := alone
  have others : ∀ j, j ≠ i → t.threads j = s.threads j := by
    intro j apart
    rw [threads, Function.update_of_ne apart]
  refine ⟨h.owned.step threads change, ?_, ?_⟩
  · intro j calling
    by_cases mine : j = i
    · rw [mine] at calling ⊢
      exact outer calling
    · rw [others j mine] at calling ⊢
      exact h.outer j calling
  · intro j u call
    by_cases mine : j = i
    · rw [mine] at call
      exact going u call
    · rw [others j mine] at call
      exact h.going j u call

theorem Guarded.step (h : Guarded s) {c : Choice} (disciplined : Disciplined s (i, c))
    (stepped : s.exec (i, c) = some t) : Guarded t ∧ Alone s t i := by
  rcases exec_cases stepped with ⟨rfl, worker, pc, here, gone⟩ | ⟨rfl, pc, here, gone⟩ |
    ⟨pc, d, free, begins, rfl⟩
  · -- a call goes on
    have outer : Thread.free ⟨worker, none⟩ = true := by
      have := h.outer i
      rw [here] at this
      exact this nofun
    have going : ∀ u, pc ≠ .waitRelock u := by
      rintro u rfl
      exact h.going i u (by rw [here])
    obtain ⟨same, past⟩ := goCall_threads gone
    obtain ⟨alone, change⟩ := goCall_change here outer going gone
    refine ⟨h.update alone change ?_ ?_, alone⟩
    · intro _
      rw [same]
      exact outer
    · intro u call
      obtain ⟨rfl, idle⟩ := past u call
      -- past the loop of `wait_task` the call would lock its own mutex again
      exact disciplined.1 u (by rw [here]) idle
  · -- the worker goes on, and it is in no call
    obtain ⟨alone, change⟩ := goWorker_change here gone
    have none := goWorker_call gone
    refine ⟨h.update alone change ?_ ?_, alone⟩
    · intro calling
      exact absurd none calling
    · intro u call
      rw [none] at call
      cases call
  · -- a call begins on a thread that has locked nothing
    obtain ⟨nothing, _⟩ := holds_of_free free
    have fresh : ∀ m, m ∈ Thread.holds ⟨(s.threads i).worker, some pc⟩ ↔
        m ∈ (s.threads i).holds := by
      intro m
      rw [nothing]
      show m ∈ pc.holds ↔ m ∈ []
      rw [begins.holds]
    obtain ⟨alone, change⟩ : Alone s (LockState.beginCall { s with doomed := d } i pc) i ∧
        LockChange s (LockState.beginCall { s with doomed := d } i pc) i :=
      change_move rfl rfl fresh
    refine ⟨h.update alone change ?_ ?_, alone⟩
    · intro _
      rw [LockState.beginCall, LockState.move_self]
      show Thread.free ⟨(s.threads i).worker, none⟩ = true
      exact free_worker free
    · intro u call
      rw [LockState.beginCall, LockState.move_self] at call
      cases call
      cases begins

/-- The order of the locks: whoever has locked a mutex asks for nothing more, or has
locked `tp_mtx` and asks for a task mutex. -/
theorem wants_of_holds {th : Thread} (going : ∀ u, th.call ≠ some (.waitRelock u)) {m : Mutex}
    (held : m ∈ th.holds) :
    th.wants = none ∨ m = .tpMtx ∧ ∃ u, th.wants = some (.taskMtx u) := by
  obtain ⟨worker, call⟩ := th
  cases call with
  | some pc =>
      cases pc with
      | waitRelock u => exact absurd rfl (going u)
      | _ => simp at held ⊢
  | none =>
      cases worker with
      | none => simp at held
      | some pc =>
          cases pc with
          -- the only place that locks one mutex while it has another
          | lockTask u => exact .inr ⟨by simpa using held, u, rfl⟩
          | _ => simp at held ⊢

/-- The place in the order of the mutex that a thread asks for. -/
def Thread.rank (th : Thread) : Nat :=
  match th.wants with
  | none => 0
  | some (.taskMtx _) => 1
  | some .tpMtx => 2

omit [DecidableEq ι] in
theorem Guarded.rank_lt (h : Guarded s) {j k : ι} (waits : s.WaitsFor j k) :
    (s.threads k).rank < (s.threads j).rank := by
  obtain ⟨m, wants, owner⟩ := waits
  have held := (h.owned m k).mp owner
  unfold Thread.rank
  rcases wants_of_holds (h.going k) held with none | ⟨rfl, u, task⟩
  · rw [none, wants]
    cases m <;> simp
  · rw [task, wants]
    simp

omit [DecidableEq ι] in
theorem Guarded.no_cycle (h : Guarded s) (j : ι) : ¬ Relation.TransGen s.WaitsFor j j := by
  have falls : ∀ k, Relation.TransGen s.WaitsFor j k → (s.threads k).rank < (s.threads j).rank := by
    intro k chain
    induction chain with
    | single waits => exact h.rank_lt waits
    | tail _ waits ih => exact Nat.lt_trans (h.rank_lt waits) ih
  intro cycle
  exact Nat.lt_irrefl _ (falls j cycle)

end Locks

end GpBase.Pool

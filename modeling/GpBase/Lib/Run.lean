import Mathlib.Data.List.Induction

/-!
# Labelled transition systems and their runs

`M.Run ls s`: the system can take the steps labelled `ls`, in this order, from
an initial state to `s`. Labels carry what the environment contributes (the
call made, the outcome of a system call), so a claim about every history is a
claim about every `ls`. Safety proofs go through `Run.invariant`, whose
predicate sees the history as well as the state; conditional ones go through
`TSys.restrict`, the same system with a side condition on each step.
-/

namespace GpBase.Lib

universe u v

/-- A labelled transition system. -/
structure TSys (σ : Type u) (α : Type v) where
  init : σ → Prop
  step : σ → α → σ → Prop

namespace TSys

variable {σ : Type u} {α : Type v} {M : TSys σ α}

/-- Finite runs, with the labels in the order in which they happened. -/
inductive Run (M : TSys σ α) : List α → σ → Prop
  | init {s : σ} : M.init s → Run M [] s
  | step {ls : List α} {s t : σ} {a : α} :
      Run M ls s → M.step s a t → Run M (ls ++ [a]) t

/-- Induction rule: what holds initially and is kept by every step from a
state where it holds, holds at the end of every run. -/
theorem Run.invariant {I : List α → σ → Prop}
    (base : ∀ s, M.init s → I [] s)
    (next : ∀ ls s a t, M.Run ls s → I ls s → M.step s a t → I (ls ++ [a]) t)
    {ls : List α} {s : σ} (run : M.Run ls s) : I ls s := by
  induction run with
  | init hs => exact base _ hs
  | step before hstep ih => exact next _ _ _ _ before ih hstep

/-- The last step of a run. -/
theorem Run.snoc_inv {ls : List α} {a : α} {t : σ} (run : M.Run (ls ++ [a]) t) :
    ∃ s, M.Run ls s ∧ M.step s a t := by
  generalize whole : ls ++ [a] = all at run
  cases run with
  | init hs => simp at whole
  | step before hstep =>
      obtain ⟨rfl, last⟩ := List.append_inj' whole rfl
      cases last
      exact ⟨_, before, hstep⟩

/-- Every run goes through what it had done before. -/
theorem Run.of_append {before later : List α} {t : σ} (run : M.Run (before ++ later) t) :
    ∃ s, M.Run before s := by
  induction later using List.reverseRecOn generalizing t with
  | nil => exact ⟨t, by simpa using run⟩
  | append_singleton later a ih =>
      rw [← List.append_assoc] at run
      obtain ⟨s, shorter, _⟩ := run.snoc_inv
      exact ih shorter

/-- Runs can be executed where steps are computed. -/
theorem Run.exec {f : σ → α → Option σ} (sound : ∀ s a t, f s a = some t → M.step s a t)
    {before later : List α} {s t : σ} (run : M.Run before s) (ran : later.foldlM f s = some t) :
    M.Run (before ++ later) t := by
  induction later generalizing before s with
  | nil =>
      cases ran
      rwa [List.append_nil]
  | cons a later ih =>
      rw [List.foldlM_cons] at ran
      obtain ⟨u, stepped, rest⟩ := Option.bind_eq_some_iff.mp ran
      rw [List.append_cons]
      exact ih (run.step (sound s a u stepped)) rest

/-- The same system, allowed only those steps that meet `ok`. -/
def restrict (M : TSys σ α) (ok : σ → α → Prop) : TSys σ α where
  init := M.init
  step s a t := ok s a ∧ M.step s a t

theorem Run.of_restrict {ok : σ → α → Prop} {ls : List α} {s : σ}
    (run : (M.restrict ok).Run ls s) : M.Run ls s := by
  induction run with
  | init hs => exact .init hs
  | step _ hstep ih => exact .step ih hstep.2

/-- A weaker condition allows more runs. -/
theorem Run.weaken {ok ok' : σ → α → Prop} (weaker : ∀ s a, ok s a → ok' s a) {ls : List α}
    {s : σ} (run : (M.restrict ok).Run ls s) : (M.restrict ok').Run ls s := by
  induction run with
  | init hs => exact .init hs
  | step _ hstep ih => exact .step ih ⟨weaker _ _ hstep.1, hstep.2⟩

/-- The same system, from a given state on. -/
def starting (M : TSys σ α) (s : σ) : TSys σ α := { M with init := (· = s) }

/-- A run goes on where it has ended, be it under a condition. -/
theorem Run.followed {ok : σ → α → Prop} {before more : List α} {s t : σ}
    (run : M.Run before s) (rest : ((M.restrict ok).starting s).Run more t) :
    M.Run (before ++ more) t := by
  induction rest with
  | init hs =>
      obtain rfl : _ = s := hs
      rwa [List.append_nil]
  | step _ hstep ih =>
      rw [← List.append_assoc]
      exact .step ih hstep.2

/-- Rule for runs that come to an end: what gets smaller with every step, from the states
where `I` holds, bounds their length. -/
theorem Run.rank {I : σ → Prop} {μ : σ → Nat} {n : Nat}
    (base : ∀ s, M.init s → I s ∧ μ s ≤ n)
    (next : ∀ s a t, I s → M.step s a t → I t ∧ μ t < μ s)
    {ls : List α} {s : σ} (run : M.Run ls s) : I s ∧ ls.length + μ s ≤ n := by
  induction run with
  | init hs =>
      obtain ⟨here, most⟩ := base _ hs
      exact ⟨here, by simpa using most⟩
  | step _ hstep ih =>
      obtain ⟨here, less⟩ := next _ _ _ ih.1 hstep
      have most := ih.2
      refine ⟨here, ?_⟩
      rw [List.length_append, List.length_singleton]
      omega

end TSys

end GpBase.Lib

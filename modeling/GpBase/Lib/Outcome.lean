import GpBase.Lib.Mem

/-!
# Outcomes of calls that may hang

`Outcome m good why`: the call `m` returns something `good`, or it hangs, and then
for the reason `why`; it has no other fault. Rules for the constructs that calls
are made of.
-/

namespace GpBase.Lib

variable {α β : Type}

def Outcome (m : Except Fault α) (good : α → Prop) (why : Prop) : Prop :=
  (∃ r, m = .ok r ∧ good r) ∨ (m = .error .hang ∧ why)

/-- A sequence that returns has returned from its first part. -/
theorem bind_eq_ok {m : Except Fault α} {next : α → Except Fault β} {b : β}
    (returned : m >>= next = .ok b) : ∃ a, m = .ok a ∧ next a = .ok b := by
  cases m with
  | error fault => cases returned
  | ok a => exact ⟨a, rfl, returned⟩

theorem ok_bind (a : α) (next : α → Except Fault β) : (.ok a >>= next) = next a := rfl

theorem Outcome.ok {good : α → Prop} {why : Prop} {r : α} (h : good r) :
    Outcome (.ok r) good why := .inl ⟨r, rfl, h⟩

theorem Outcome.hang {good : α → Prop} {why : Prop} (h : why) :
    Outcome (.error .hang) good why := .inr ⟨rfl, h⟩

/-- One call after another. -/
theorem Outcome.bind {m : Except Fault α} {next : α → Except Fault β} {good : α → Prop}
    {good' : β → Prop} {why : Prop} (first : Outcome m good why)
    (second : ∀ r, good r → Outcome (next r) good' why) : Outcome (m >>= next) good' why := by
  rcases first with ⟨r, rfl, h⟩ | ⟨rfl, h⟩
  · exact second r h
  · exact .hang h

theorem Outcome.imp {m : Except Fault α} {good good' : α → Prop} {why why' : Prop}
    (outcome : Outcome m good why) (weaker : ∀ r, good r → good' r) (reason : why → why') :
    Outcome m good' why' := by
  rcases outcome with ⟨r, rfl, h⟩ | ⟨rfl, h⟩
  · exact .ok (weaker r h)
  · exact .hang (reason h)

/-- What returns is good. -/
theorem Outcome.good_of_ok {m : Except Fault α} {good : α → Prop} {why : Prop} {r : α}
    (outcome : Outcome m good why) (returned : m = .ok r) : good r := by
  rcases outcome with ⟨r', returned', h⟩ | ⟨hung, _⟩
  · rw [returned] at returned'
    cases returned'
    exact h
  · rw [returned] at hung
    cases hung

/-- Without a reason to hang, a call returns. -/
theorem Outcome.returns {m : Except Fault α} {good : α → Prop} {why : Prop}
    (outcome : Outcome m good why) (not : ¬ why) : ∃ r, m = .ok r := by
  rcases outcome with ⟨r, returned, _⟩ | ⟨_, h⟩
  · exact ⟨r, returned⟩
  · exact absurd h not

/-! ## Calls that return what another returns -/

/-- What the first call returns, the second returns as well. -/
def Returns (m m' : Except Fault α) : Prop := ∀ r, m = .ok r → m' = .ok r

theorem Returns.refl (m : Except Fault α) : Returns m m := fun _ h => h

theorem Returns.hang (m : Except Fault α) : Returns (.error .hang) m := by
  intro r returned
  cases returned

theorem Returns.bind {m m' : Except Fault α} {next next' : α → Except Fault β}
    (first : Returns m m') (second : ∀ a, Returns (next a) (next' a)) :
    Returns (m >>= next) (m' >>= next') := by
  intro b returned
  obtain ⟨a, firstReturned, rest⟩ := bind_eq_ok returned
  rw [first a firstReturned]
  exact second a b rest

/-! ## Calls in lockstep -/

/-- The first call does what the second does and keeps a state of its own beside it, which
ends in `R`; or both have the same fault. -/
def Lockstep {σ : Type} (R : σ → Prop) (m : Except Fault (σ × α)) (m' : Except Fault α) : Prop :=
  (∃ fault, m = .error fault ∧ m' = .error fault) ∨ ∃ s a, m = .ok (s, a) ∧ m' = .ok a ∧ R s

section Lockstep

variable {σ : Type} {R : σ → Prop}

theorem Lockstep.ok {s : σ} (h : R s) (a : α) : Lockstep R (.ok (s, a)) (.ok a) :=
  .inr ⟨s, a, rfl, rfl, h⟩

/-- A call beside which the state is only kept. -/
theorem Lockstep.keep {s : σ} (h : R s) (m : Except Fault α) :
    Lockstep R (m >>= fun a => pure (s, a)) m := by
  cases m with
  | error fault => exact .inl ⟨fault, rfl, rfl⟩
  | ok a => exact .ok h a

/-- A call that leaves the state alone. -/
theorem Lockstep.shared {m : Except Fault α} {next : α → Except Fault (σ × β)}
    {next' : α → Except Fault β} (rest : ∀ a, Lockstep R (next a) (next' a)) :
    Lockstep R (m >>= next) (m >>= next') := by
  cases m with
  | error fault => exact .inl ⟨fault, rfl, rfl⟩
  | ok a => exact rest a

theorem Lockstep.bind {τ : Type} {R' : τ → Prop} {m : Except Fault (σ × α)}
    {m' : Except Fault α} {next : σ × α → Except Fault (τ × β)} {next' : α → Except Fault β}
    (first : Lockstep R m m') (rest : ∀ s a, R s → Lockstep R' (next (s, a)) (next' a)) :
    Lockstep R' (m >>= next) (m' >>= next') := by
  obtain ⟨fault, failed, failed'⟩ | ⟨s, a, returned, returned', h⟩ := first
  · rw [failed, failed']
    exact .inl ⟨fault, rfl, rfl⟩
  · rw [returned, returned']
    exact rest s a h

end Lockstep

end GpBase.Lib

import Mathlib.Algebra.Order.Ring.Int
import Mathlib.Logic.Function.Basic

/-!
# Reservation by a pair of counters

Any number of threads reserve intervals of a number line. A lane is a counter
`first`, advanced by compare-and-swap when an interval is reserved, and a counter
`second`, advanced in order when an interval is given back. How far `first` may go
is a `limit` that only grows. The steps of one reservation are atomic; between them
the other threads do theirs.
-/

namespace GpBase.Lib

/-- A pair of counters. -/
structure Lane where
  first : Int
  second : Int
  deriving DecidableEq, Repr

/-- Where a thread is in a reservation of up to `max`. -/
inductive Reservation
  | idle
  | /-- about to read `first` -/ begin (max : Int)
  | /-- read `first` -/ read (max pos : Int)
  | /-- read the limit, and took `n` of what it leaves -/ sized (max pos n : Int)
  | /-- holds the interval from `pos` to `next` -/ reserved (pos next : Int)
  | /-- used the interval, waits for its turn -/ waiting (pos next : Int)
  | /-- saw that `second` has come to `pos` -/ turn (pos next : Int)
  deriving DecidableEq, Repr

namespace Reservation

/-- The interval that is held. -/
def held : Reservation → Option (Int × Int)
  | reserved pos next => some (pos, next)
  | waiting pos next => some (pos, next)
  | turn pos next => some (pos, next)
  | _ => none

/-- What a request gets of what is available; a negative request is a huge one. -/
def grant (max avail : Int) : Int := if max < 0 ∨ avail < max then avail else max

/-- One atomic step under the limit `limit`. -/
inductive Step (limit : Int) : Lane → Reservation → Lane → Reservation → Prop
  | readFirst {l : Lane} {max : Int} : Step limit l (begin max) l (read max l.first)
  | readLimit {l : Lane} {max pos : Int} : grant max (limit - pos) ≠ 0 →
      Step limit l (read max pos) l (sized max pos (grant max (limit - pos)))
  | nothing {l : Lane} {max pos : Int} : grant max (limit - pos) = 0 →
      Step limit l (read max pos) l idle
  | swap {l : Lane} {max pos n : Int} : l.first = pos →
      Step limit l (sized max pos n) { l with first := pos + n } (reserved pos (pos + n))
  | retry {l : Lane} {max pos n : Int} : l.first ≠ pos →
      Step limit l (sized max pos n) l (begin max)
  | use {l : Lane} {pos next : Int} : Step limit l (reserved pos next) l (waiting pos next)
  | spin {l : Lane} {pos next : Int} : l.second ≠ pos →
      Step limit l (waiting pos next) l (waiting pos next)
  | await {l : Lane} {pos next : Int} : l.second = pos →
      Step limit l (waiting pos next) l (turn pos next)
  | publish {l : Lane} {pos next : Int} :
      Step limit l (turn pos next) { l with second := next } idle

/-- What a thread knows in each phase. -/
def Known (limit : Int) (l : Lane) : Reservation → Prop
  | idle => True
  | begin _ => True
  | read _ pos => pos ≤ l.first
  | sized _ pos n => pos ≤ l.first ∧ 0 < n ∧ pos + n ≤ limit
  | reserved pos next => l.second ≤ pos ∧ pos < next ∧ next ≤ l.first
  | waiting pos next => l.second ≤ pos ∧ pos < next ∧ next ≤ l.first
  | turn pos next => l.second = pos ∧ pos < next ∧ next ≤ l.first

end Reservation

open Reservation

variable {Thread : Type*}

/-- The intervals that are held lie between `lo` and `hi`, and every number there is
in exactly one of them. -/
def Tiles (held : Thread → Option (Int × Int)) (lo hi : Int) : Prop :=
  (∀ t a b, held t = some (a, b) → lo ≤ a ∧ a < b ∧ b ≤ hi) ∧
    ∀ x, lo ≤ x → x < hi → ∃! t, ∃ a b, held t = some (a, b) ∧ a ≤ x ∧ x < b

/-- The invariant of a lane. -/
structure LaneInv (limit : Int) (l : Lane) (threads : Thread → Reservation) : Prop where
  low : l.second ≤ l.first
  high : l.first ≤ limit
  known : ∀ t, Known limit l (threads t)
  apart : ∀ t t' a b a' b', t ≠ t' → (threads t).held = some (a, b) →
    (threads t').held = some (a', b') → b ≤ a' ∨ b' ≤ a
  covered : ∀ x, l.second ≤ x → x < l.first →
    ∃ t a b, (threads t).held = some (a, b) ∧ a ≤ x ∧ x < b

section Lane

variable {limit limit' : Int} {l l' : Lane} {threads : Thread → Reservation}

theorem Reservation.Known.of_held {r : Reservation} {a b : Int} (known : Known limit l r)
    (held : r.held = some (a, b)) : l.second ≤ a ∧ a < b ∧ b ≤ l.first := by
  cases r with
  | reserved pos next =>
      cases held
      exact known
  | waiting pos next =>
      cases held
      exact known
  | turn pos next =>
      cases held
      exact ⟨le_of_eq known.1, known.2⟩
  | _ => cases held

theorem LaneInv.tiles (inv : LaneInv limit l threads) :
    Tiles (fun t => (threads t).held) l.second l.first := by
  refine ⟨fun t a b held => (inv.known t).of_held held, ?_⟩
  intro x low high
  obtain ⟨t, a, b, held, left, right⟩ := inv.covered x low high
  refine ⟨t, ⟨a, b, held, left, right⟩, ?_⟩
  rintro t' ⟨a', b', held', left', right'⟩
  by_contra other
  rcases inv.apart t' t a' b' a b other held' held with h | h
  · omega
  · omega

/-- Nobody is at work on a fresh lane. -/
theorem LaneInv.start (limit : Int) (pos : Int) (room : pos ≤ limit) :
    LaneInv limit ⟨pos, pos⟩ (fun _ : Thread => idle) := by
  refine ⟨le_refl pos, room, fun _ => trivial, ?_, ?_⟩
  · intro t t' a b a' b' _ held
    cases held
  · intro x low high
    exact absurd (low.trans_lt high) (lt_irrefl pos)

/-- A thread moves on with what it holds. -/
theorem LaneInv.rephase [DecidableEq Thread] (inv : LaneInv limit l threads) {t : Thread}
    {r : Reservation} (keeps : r.held = (threads t).held) (known : Known limit l r) :
    LaneInv limit l (Function.update threads t r) := by
  have same : ∀ u, (Function.update threads t r u).held = (threads u).held := by
    intro u
    by_cases this : u = t
    · rw [this, Function.update_self, keeps]
    · rw [Function.update_of_ne this]
  refine ⟨inv.low, inv.high, ?_, ?_, ?_⟩
  · intro u
    by_cases this : u = t
    · rw [this, Function.update_self]
      exact known
    · rw [Function.update_of_ne this]
      exact inv.known u
  · intro u u' a b a' b' ne held held'
    rw [same] at held held'
    exact inv.apart u u' a b a' b' ne held held'
  · intro x low high
    obtain ⟨u, a, b, held, inside⟩ := inv.covered x low high
    exact ⟨u, a, b, (same u).trans held, inside⟩

/-- What a thread knows stays true when the lane and its limit move on. -/
theorem Reservation.Known.mono {r : Reservation} (known : Known limit l r)
    (room : limit ≤ limit') (first : l.first ≤ l'.first) (second : l'.second = l.second) :
    Known limit' l' r := by
  cases r <;> simp only [Known] at known ⊢ <;> omega

theorem LaneInv.grow (inv : LaneInv limit l threads) (room : limit ≤ limit') :
    LaneInv limit' l threads :=
  { inv with
    high := inv.high.trans room
    known := fun t => (inv.known t).mono room (le_refl _) rfl }

/-- The compare-and-swap succeeds: nobody has moved `first`, so the interval is new. -/
theorem LaneInv.swap [DecidableEq Thread] (inv : LaneInv limit l threads) {t : Thread}
    {max n : Int} (phase : threads t = sized max l.first n) :
    LaneInv limit { l with first := l.first + n }
      (Function.update threads t (reserved l.first (l.first + n))) := by
  obtain ⟨_, pos, room⟩ : l.first ≤ l.first ∧ 0 < n ∧ l.first + n ≤ limit := by
    have := inv.known t
    rwa [phase] at this
  have nothing : (threads t).held = none := by rw [phase]; rfl
  have low := inv.low
  refine ⟨by dsimp only; omega, room, ?_, ?_, ?_⟩
  · intro u
    by_cases this : u = t
    · rw [this, Function.update_self]
      exact ⟨low, by omega, le_refl _⟩
    · rw [Function.update_of_ne this]
      exact (inv.known u).mono (le_refl _) (by dsimp only; omega) rfl
  · intro u u' a b a' b' ne held held'
    by_cases first : u = t
    · have other : u' ≠ t := fun h => ne (first.trans h.symm)
      rw [first, Function.update_self] at held
      rw [Function.update_of_ne other] at held'
      cases held
      exact .inr ((inv.known u').of_held held').2.2
    · rw [Function.update_of_ne first] at held
      by_cases second : u' = t
      · rw [second, Function.update_self] at held'
        cases held'
        exact .inl ((inv.known u).of_held held).2.2
      · rw [Function.update_of_ne second] at held'
        exact inv.apart u u' a b a' b' ne held held'
  · intro x below above
    by_cases old : x < l.first
    · obtain ⟨u, a, b, held, inside⟩ := inv.covered x below old
      have other : u ≠ t := by
        rintro rfl
        rw [nothing] at held
        cases held
      exact ⟨u, a, b, by rw [Function.update_of_ne other]; exact held, inside⟩
    · refine ⟨t, l.first, l.first + n, by rw [Function.update_self]; rfl, by omega, above⟩

/-- The thread whose turn it is gives its interval back. -/
theorem LaneInv.publish [DecidableEq Thread] (inv : LaneInv limit l threads) {t : Thread}
    {pos next : Int} (phase : threads t = turn pos next) :
    LaneInv limit { l with second := next } (Function.update threads t idle) := by
  obtain ⟨rfl, proper, high⟩ : l.second = pos ∧ pos < next ∧ next ≤ l.first := by
    have := inv.known t
    rwa [phase] at this
  have own : (threads t).held = some (l.second, next) := by rw [phase]; rfl
  -- the others hold intervals behind this one
  have behind : ∀ u a b, u ≠ t → (threads u).held = some (a, b) → next ≤ a := by
    intro u a b other held
    have := (inv.known u).of_held held
    rcases inv.apart t u _ _ a b (Ne.symm other) own held with h | h
    · exact h
    · omega
  have known : ∀ u, u ≠ t → Known limit { l with second := next } (threads u) := by
    intro u other
    have old := inv.known u
    have later := behind u
    cases held : threads u with
    | reserved a b =>
        rw [held] at old later
        exact ⟨later a b other rfl, old.2⟩
    | waiting a b =>
        rw [held] at old later
        exact ⟨later a b other rfl, old.2⟩
    | turn a b =>
        rw [held] at old later
        have := later a b other rfl
        have := old.1
        omega
    | _ =>
        rw [held] at old
        exact old
  refine ⟨high, inv.high, ?_, ?_, ?_⟩
  · intro u
    by_cases this : u = t
    · rw [this, Function.update_self]
      exact trivial
    · rw [Function.update_of_ne this]
      exact known u this
  · intro u u' a b a' b' ne held held'
    by_cases first : u = t
    · rw [first, Function.update_self] at held
      cases held
    · by_cases second : u' = t
      · rw [second, Function.update_self] at held'
        cases held'
      · rw [Function.update_of_ne first] at held
        rw [Function.update_of_ne second] at held'
        exact inv.apart u u' a b a' b' ne held held'
  · intro x below above
    dsimp only at below above
    obtain ⟨u, a, b, held, left, right⟩ := inv.covered x (by omega) above
    have other : u ≠ t := by
      rintro rfl
      rw [own] at held
      cases held
      omega
    exact ⟨u, a, b, by rw [Function.update_of_ne other]; exact held, left, right⟩

/-- The step lemma. -/
theorem LaneInv.step [DecidableEq Thread] (inv : LaneInv limit l threads) {t : Thread}
    {r' : Reservation} (step : Reservation.Step limit l (threads t) l' r') :
    LaneInv limit l' (Function.update threads t r') ∧ l.second ≤ l'.second := by
  have known := inv.known t
  generalize phase : threads t = r at step known
  cases step with
  | readFirst => exact ⟨inv.rephase (by rw [phase]; rfl) (le_refl _), le_refl _⟩
  | readLimit some =>
      refine ⟨inv.rephase (by rw [phase]; rfl) ?_, le_refl _⟩
      have := inv.high
      simp only [Known, grant] at known some ⊢
      split at some
      · rw [if_pos ‹_›]
        omega
      · rw [if_neg ‹_›]
        omega
  | nothing _ => exact ⟨inv.rephase (by rw [phase]; rfl) trivial, le_refl _⟩
  | swap unmoved =>
      subst unmoved
      exact ⟨inv.swap phase, le_refl _⟩
  | retry _ => exact ⟨inv.rephase (by rw [phase]; rfl) trivial, le_refl _⟩
  | use => exact ⟨inv.rephase (by rw [phase]; rfl) known, le_refl _⟩
  | spin _ => exact ⟨inv.rephase (by rw [phase]) known, le_refl _⟩
  | await reached => exact ⟨inv.rephase (by rw [phase]; rfl) ⟨reached, known.2⟩, le_refl _⟩
  | publish =>
      refine ⟨inv.publish phase, ?_⟩
      have := known.1
      have := known.2.1
      dsimp only
      omega

end Lane

end GpBase.Lib

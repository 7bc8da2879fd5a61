import GpBase.Lib.Reserve
import GpBase.Lib.Run

/-!
# The reservation protocol of the ring

Translation of the atomic steps of `gp_ring_push` and `gp_ring_pop` in
`gp_ringbuffer.c`, for any number of threads. The counters are unbounded integers,
and memory is sequentially consistent. A push reserves `q->head` under the limit
`q->capacity + q->tail.second`, a pop reserves `q->tail` under the limit
`q->head.second`; between reserving and waiting for its turn it copies its slots.
-/

namespace GpBase.Ring

open GpBase.Lib

/-- The counters of the ring, and for each thread where it is in a push and in a
pop; it is in at most one of them. -/
structure RingState (Thread : Type*) where
  head : Lane
  tail : Lane
  pushing : Thread → Reservation
  popping : Thread → Reservation

/-- What a thread does: call with `n`, or take the next atomic step of its call. -/
inductive RingMove
  | callPush (n : Int)
  | callPop (n : Int)
  | stepPush
  | stepPop
  deriving DecidableEq, Repr

variable {Thread : Type*}

inductive RingStep [DecidableEq Thread] (capacity : Nat) :
    RingState Thread → Thread × RingMove → RingState Thread → Prop
  | callPush {s : RingState Thread} {t : Thread} {n : Int} :
      s.pushing t = .idle → s.popping t = .idle →
      RingStep capacity s (t, .callPush n)
        { s with pushing := Function.update s.pushing t (.begin n) }
  | callPop {s : RingState Thread} {t : Thread} {n : Int} :
      s.pushing t = .idle → s.popping t = .idle →
      RingStep capacity s (t, .callPop n)
        { s with popping := Function.update s.popping t (.begin n) }
  | stepPush {s : RingState Thread} {t : Thread} {head : Lane} {r : Reservation} :
      Reservation.Step (capacity + s.tail.second) s.head (s.pushing t) head r →
      RingStep capacity s (t, .stepPush)
        { s with head := head, pushing := Function.update s.pushing t r }
  | stepPop {s : RingState Thread} {t : Thread} {tail : Lane} {r : Reservation} :
      Reservation.Step s.head.second s.tail (s.popping t) tail r →
      RingStep capacity s (t, .stepPop)
        { s with tail := tail, popping := Function.update s.popping t r }

/-- A fresh ring of `capacity` objects, used by any threads. -/
def ringProtocol (Thread : Type*) [DecidableEq Thread] (capacity : Nat) :
    TSys (RingState Thread) (Thread × RingMove) where
  init s := s = ⟨⟨0, 0⟩, ⟨0, 0⟩, fun _ => .idle, fun _ => .idle⟩
  step := RingStep capacity

/-! ## Safety -/

/-- Two lanes, each the limit of the other. -/
structure RingInv (capacity : Nat) (s : RingState Thread) : Prop where
  push : LaneInv (capacity + s.tail.second) s.head s.pushing
  pop : LaneInv s.head.second s.tail s.popping

theorem RingInv.start (capacity : Nat) :
    RingInv capacity (⟨⟨0, 0⟩, ⟨0, 0⟩, fun _ => .idle, fun _ => .idle⟩ : RingState Thread) :=
  ⟨.start _ 0 (by simp), .start _ 0 (le_refl 0)⟩

variable [DecidableEq Thread]

/-- One atomic step of one thread. -/
theorem RingInv.step {capacity : Nat} {s s' : RingState Thread} {move : Thread × RingMove}
    (inv : RingInv capacity s) (step : RingStep capacity s move s') : RingInv capacity s' := by
  cases step with
  | callPush idle _ => exact ⟨inv.push.rephase (by rw [idle]; rfl) trivial, inv.pop⟩
  | callPop _ idle => exact ⟨inv.push, inv.pop.rephase (by rw [idle]; rfl) trivial⟩
  | stepPush step =>
      -- a push may publish, which gives pops more room
      obtain ⟨push, more⟩ := inv.push.step step
      exact ⟨push, inv.pop.grow more⟩
  | stepPop step =>
      obtain ⟨pop, more⟩ := inv.pop.step step
      exact ⟨inv.push.grow (by dsimp only; omega), pop⟩

/-- **Reservations never overlap.** In every interleaving the four counters are in
order, the pushes in flight tile `[head.second, head.first)` and the pops in flight
`[tail.second, tail.first)`, and no index reserved for writing is readable or shares
a slot with a readable one. -/
theorem ring_reservations {capacity : Nat} {moves : List (Thread × RingMove)}
    {s : RingState Thread} (run : (ringProtocol Thread capacity).Run moves s) :
    (s.tail.second ≤ s.tail.first ∧ s.tail.first ≤ s.head.second ∧
      s.head.second ≤ s.head.first ∧ s.head.first ≤ s.tail.second + capacity) ∧
    Tiles (fun t => (s.pushing t).held) s.head.second s.head.first ∧
    Tiles (fun t => (s.popping t).held) s.tail.second s.tail.first ∧
    ∀ t a b x y, (s.pushing t).held = some (a, b) → a ≤ x → x < b →
      s.tail.second ≤ y → y < s.head.second → x ≠ y ∧ ¬ (capacity : Int) ∣ x - y := by
  have inv : RingInv capacity s := by
    refine run.invariant (I := fun _ s => RingInv capacity s) ?_ ?_
    · intro s fresh
      rw [fresh]
      exact RingInv.start capacity
    · intro moves s move s' _ inv step
      exact inv.step step
  have room := inv.push.high
  refine ⟨⟨inv.pop.low, inv.pop.high, inv.push.low, by omega⟩, inv.push.tiles, inv.pop.tiles, ?_⟩
  intro t a b x y held left right readable published
  have inside := (inv.push.known t).of_held held
  refine ⟨by omega, ?_⟩
  -- the two indices are less than `capacity` apart
  intro same
  have := Int.le_of_dvd (by omega) same
  omega

/-- Two pushes read the same `first`; the one whose compare-and-swap comes second
has to start again. -/
theorem ring_reservations_race :
    ∃ s, (ringProtocol Bool 4).Run
        [(true, .callPush 1), (false, .callPush 2), (true, .stepPush), (false, .stepPush),
          (true, .stepPush), (false, .stepPush), (true, .stepPush), (false, .stepPush)] s ∧
      s.pushing false = .begin 2 ∧ s.head = ⟨1, 0⟩ ∧
      Tiles (fun t => (s.pushing t).held) s.head.second s.head.first := by
  let M := ringProtocol Bool 4
  have run₀ : M.Run [] _ := .init rfl
  have run₁ : M.Run [(true, .callPush 1)] _ := .step run₀ (.callPush rfl rfl)
  have run₂ : M.Run _ _ := .step run₁ (.callPush (t := false) (n := 2) rfl rfl)
  have run₃ : M.Run _ _ := .step run₂ (.stepPush (t := true) .readFirst)
  have run₄ : M.Run _ _ := .step run₃ (.stepPush (t := false) .readFirst)
  have run₅ : M.Run _ _ := .step run₄ (.stepPush (t := true) (.readLimit (by decide)))
  have run₆ : M.Run _ _ := .step run₅ (.stepPush (t := false) (.readLimit (by decide)))
  have run₇ : M.Run _ _ := .step run₆ (.stepPush (t := true) (.swap rfl))
  have run₈ : M.Run _ _ := .step run₇ (.stepPush (t := false) (.retry (by decide)))
  exact ⟨_, run₈, rfl, rfl, (ring_reservations run₈).2.1⟩

end GpBase.Ring

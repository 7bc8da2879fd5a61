import GpBase.Lib.Bits
import GpBase.Lib.Run
import GpBase.Ring.Copy

/-!
# The ring as a FIFO queue

`gp_align32pow2` returns `2 ^ k - 1` where a power of two is meant, so `mask` is
`2 ^ k - 2`: its lowest bit is clear, and the counters `2 i` and `2 i + 1` share
a slot. A ring of one object never has two live counters and is a queue; every
larger ring loses the first of two objects pushed one after the other.
-/

namespace GpBase.Ring

open GpBase.Lib

/-! ## Sizes -/

/-- `gp_align32pow2` is all ones below the top bit of its argument's predecessor. -/
theorem gpAlign32pow2_succ {x : Nat} (narrow : x < 2 ^ 32) :
    gpAlign32pow2 (x + 1) = 2 ^ x.size - 1 := by
  have start : uint32 (((x + 1 : Nat) : Int) - 1) = x := by
    unfold uint32
    omega
  unfold gpAlign32pow2
  rw [start]
  exact (Smeared.refl x).double.double.double.double.double.eq_ones narrow

/-- With room for two objects, the lowest bit of `mask` is clear. -/
theorem createGpRing_mask {α : Type*} (null : α) {count : Nat} (two : 2 ≤ count)
    (narrow : count < 2 ^ 32) :
    ∃ m, 1 ≤ m ∧ (createGpRing null count).mask = 2 * m ∧
      (createGpRing null count).size = 2 * m + 1 := by
  have big : 2 ≤ count.size := by
    rw [Nat.succ_le_iff, Nat.lt_size]
    omega
  obtain ⟨k, hk⟩ := Nat.exists_eq_add_of_le big
  have split : 2 ^ count.size = 2 * (2 * 2 ^ k) := by
    rw [hk, Nat.pow_add]
    omega
  have pos : 0 < 2 ^ k := Nat.two_pow_pos k
  refine ⟨2 * 2 ^ k - 1, by omega, ?_, ?_⟩
  · show gpAlign32pow2 (count + 1) - 1 = _
    rw [gpAlign32pow2_succ narrow]
    omega
  · show gpAlign32pow2 (count + 1) = _
    rw [gpAlign32pow2_succ narrow]
    omega

/-! ## One object at a time -/

section Slot

variable {α : Type*}

/-- One object copied into slot 0, whichever of the two loops runs. -/
theorem pushCopy_slot_zero (c : α) (ring : List α) {size : Nat} (pos : 1 ≤ size)
    (y : α) (obj : List α) : pushCopy (c :: ring) size 0 1 (y :: obj) = .ok (y :: ring) := by
  rw [pushCopy_eq (by omega)]
  split
  · rfl
  · obtain rfl : size = 1 := by omega
    rfl

theorem popCopy_slot_zero (c : α) (ring : List α) {size : Nat} (pos : 1 ≤ size)
    (y : α) (obj : List α) : popCopy (c :: ring) size 0 1 (y :: obj) = .ok (c :: obj) := by
  rw [popCopy_eq (by omega)]
  split
  · rfl
  · obtain rfl : size = 1 := by omega
    rfl

/-- A push that accepts one object into slot 0. -/
theorem gpRingPush_slot_zero {q : GpRing α} {n : Int} {h : Nat} {c y : α} {rest obj : List α}
    (head : q.head = ⟨h, h⟩) (slot : h &&& q.mask = 0) (slots : q.msgs = c :: rest)
    (pos : 1 ≤ q.size)
    (one : min (uint32 n) (uint32 (q.capacity + q.tail.second - h)) = 1) :
    q.gpRingPush n (y :: obj) =
      .ok ({ q with head := ⟨uint32 (h + 1), uint32 (h + 1)⟩, msgs := y :: rest }, 1) := by
  simp only [GpRing.gpRingPush, head, one, slot, slots, pushCopy_slot_zero c rest pos, bind,
    Except.bind]
  rw [if_neg Nat.one_ne_zero, if_neg (not_not_intro rfl)]
  rfl

/-- A pop that takes one object from slot 0. -/
theorem gpRingPop_slot_zero {q : GpRing α} {n : Int} {t : Nat} {c y : α} {rest obj : List α}
    (tail : q.tail = ⟨t, t⟩) (slot : t &&& q.mask = 0) (slots : q.msgs = c :: rest)
    (pos : 1 ≤ q.size) (one : min (uint32 n) (uint32 (q.head.second - t)) = 1) :
    q.gpRingPop n (y :: obj) =
      .ok ({ q with tail := ⟨uint32 (t + 1), uint32 (t + 1)⟩ }, c :: obj, 1) := by
  simp only [GpRing.gpRingPop, tail, one, slot, slots, popCopy_slot_zero c rest pos, bind,
    Except.bind]
  rw [if_neg Nat.one_ne_zero, if_neg (not_not_intro rfl)]
  rfl

end Slot

/-! ## Runs -/

/-- A call on the ring with what it returned: `out` is the caller's array after
a pop. -/
inductive RingEvent (α : Type*)
  | push (n : Nat) (obj : List α) (ret : Int)
  | pop (n : Nat) (obj out : List α) (ret : Int)

/-- The objects that pushes accepted. -/
def accepted {α : Type*} (events : List (RingEvent α)) : List α :=
  events.flatMap fun
    | .push _ obj ret => obj.take ret.toNat
    | .pop _ _ _ _ => []

/-- The objects that pops handed out. -/
def popped {α : Type*} (events : List (RingEvent α)) : List α :=
  events.flatMap fun
    | .push _ _ _ => []
    | .pop _ _ out ret => out.take ret.toNat

/-- A batch of `n ≥ 1` objects in an array that holds at least as many. -/
structure Batch {α : Type*} (n : Nat) (obj : List α) : Prop where
  pos : 1 ≤ n
  int : n < 2 ^ 31
  room : n ≤ obj.length

/-- Single-threaded use of a ring made by `create_gp_ring(count)`. -/
def ringSys {α : Type*} (null : α) (count : Nat) : TSys (GpRing α) (RingEvent α) where
  init q := q = createGpRing null count
  step q ev q' :=
    match ev with
    | .push n obj ret => Batch n obj ∧ q.gpRingPush n obj = .ok (q', ret)
    | .pop n obj out ret => Batch n obj ∧ q.gpRingPop n obj = .ok (q', out, ret)

/-- The ring is a queue: pops hand out the accepted objects from the first on,
at most `count` are stored, and every further call returns. -/
structure Fifo {α : Type*} (count : Nat) (events : List (RingEvent α)) (q : GpRing α) :
    Prop where
  order : popped events <+: accepted events
  stored : (accepted events).length ≤ (popped events).length + count
  pushReturns : ∀ n obj, Batch n obj → ∃ r, q.gpRingPush n obj = .ok r
  popReturns : ∀ n obj, Batch n obj → ∃ r, q.gpRingPop n obj = .ok r

section Single

variable {α : Type*} {x : α} {n : Nat} {obj : List α}

/-- The ring of one slot after `a` accepted and `p` popped objects. -/
def single (x : α) (a p : Nat) : GpRing α where
  size := 1
  mask := 0
  capacity := 1
  head := ⟨a % 2 ^ 32, a % 2 ^ 32⟩
  tail := ⟨p % 2 ^ 32, p % 2 ^ 32⟩
  msgs := [x]

theorem createGpRing_one (null : α) : createGpRing null 1 = single null 0 0 := rfl

theorem Batch.cons (batch : Batch n obj) : ∃ y rest, obj = y :: rest := by
  cases obj with
  | nil =>
      have := batch.pos
      have := batch.room
      simp at this
      omega
  | cons y rest => exact ⟨y, rest, rfl⟩

/-- The counters of a ring of one slot: the batch is cut to what `gap` leaves. -/
theorem Batch.min_uint32 (batch : Batch n obj) {gap : Nat} (small : gap ≤ 1) :
    min (uint32 n) gap = gap := by
  have := batch.pos
  have := batch.int
  unfold uint32
  omega

theorem single_push_free (a : Nat) {y : α} {rest : List α} (batch : Batch n (y :: rest)) :
    (single x a a).gpRingPush n (y :: rest) = .ok (single y (a + 1) a, 1) := by
  have free : uint32 (((1 : Nat) : Int) + (a % 2 ^ 32 : Nat) - (a % 2 ^ 32 : Nat)) = 1 := by
    unfold uint32
    omega
  have next : uint32 (((a % 2 ^ 32 : Nat) : Int) + 1) = (a + 1) % 2 ^ 32 := by
    unfold uint32
    omega
  rw [gpRingPush_slot_zero (h := a % 2 ^ 32) (c := x) rfl (Nat.and_zero _) rfl (le_refl 1)
    (by rw [show (single x a a).capacity = 1 from rfl,
      show (single x a a).tail.second = a % 2 ^ 32 from rfl, free,
      batch.min_uint32 (le_refl 1)]), next]
  rfl

theorem single_push_full (p : Nat) (batch : Batch n obj) :
    (single x (p + 1) p).gpRingPush n obj = .ok (single x (p + 1) p, 0) := by
  have full : uint32 (((1 : Nat) : Int) + (p % 2 ^ 32 : Nat) - ((p + 1) % 2 ^ 32 : Nat)) = 0 := by
    unfold uint32
    omega
  simp only [GpRing.gpRingPush, single, full, batch.min_uint32 (Nat.zero_le 1)]
  rfl

theorem single_pop_empty (a : Nat) (batch : Batch n obj) :
    (single x a a).gpRingPop n obj = .ok (single x a a, obj, 0) := by
  have empty : uint32 (((a % 2 ^ 32 : Nat) : Int) - (a % 2 ^ 32 : Nat)) = 0 := by
    unfold uint32
    omega
  simp only [GpRing.gpRingPop, single, empty, batch.min_uint32 (Nat.zero_le 1)]
  rfl

theorem single_pop_stored (p : Nat) {y : α} {rest : List α} (batch : Batch n (y :: rest)) :
    (single x (p + 1) p).gpRingPop n (y :: rest) =
      .ok (single x (p + 1) (p + 1), x :: rest, 1) := by
  have one : uint32 ((((p + 1) % 2 ^ 32 : Nat) : Int) - (p % 2 ^ 32 : Nat)) = 1 := by
    unfold uint32
    omega
  have next : uint32 (((p % 2 ^ 32 : Nat) : Int) + 1) = (p + 1) % 2 ^ 32 := by
    unfold uint32
    omega
  rw [gpRingPop_slot_zero (t := p % 2 ^ 32) (c := x) rfl (Nat.and_zero _) rfl (le_refl 1)
    (by rw [show (single x (p + 1) p).head.second = (p + 1) % 2 ^ 32 from rfl, one,
      batch.min_uint32 (le_refl 1)]), next]
  rfl

/-- What a ring of one slot is at any time: empty, or full with the one object
that was accepted and not popped. -/
def OneSlot (events : List (RingEvent α)) (q : GpRing α) : Prop :=
  ∃ x, (q = single x (popped events).length (popped events).length ∧
      accepted events = popped events) ∨
    (q = single x ((popped events).length + 1) (popped events).length ∧
      accepted events = popped events ++ [x])

theorem OneSlot.step {null : α} {events : List (RingEvent α)} {q q' : GpRing α}
    {ev : RingEvent α} (slot : OneSlot events q) (stepped : (ringSys null 1).step q ev q') :
    OneSlot (events ++ [ev]) q' := by
  obtain ⟨x, slot⟩ := slot
  cases ev with
  | push n obj ret =>
      obtain ⟨batch, pushed⟩ := stepped
      obtain ⟨y, rest, rfl⟩ := batch.cons
      rcases slot with ⟨rfl, same⟩ | ⟨rfl, one⟩
      · rw [single_push_free _ batch] at pushed
        cases pushed
        refine ⟨y, .inr ⟨?_, ?_⟩⟩
        · simp [popped]
        · simpa [accepted, popped] using same
      · rw [single_push_full _ batch] at pushed
        cases pushed
        refine ⟨x, .inr ⟨?_, ?_⟩⟩
        · simp [popped]
        · simpa [accepted, popped] using one
  | pop n obj out ret =>
      obtain ⟨batch, taken⟩ := stepped
      obtain ⟨y, rest, rfl⟩ := batch.cons
      rcases slot with ⟨rfl, same⟩ | ⟨rfl, one⟩
      · rw [single_pop_empty _ batch] at taken
        cases taken
        refine ⟨x, .inl ⟨?_, ?_⟩⟩
        · simp [popped]
        · simpa [accepted, popped] using same
      · rw [single_pop_stored _ batch] at taken
        cases taken
        refine ⟨x, .inl ⟨?_, ?_⟩⟩
        · simp [popped]
        · simpa [accepted, popped] using one

theorem OneSlot.fifo {events : List (RingEvent α)} {q : GpRing α} (slot : OneSlot events q) :
    Fifo 1 events q := by
  obtain ⟨x, ⟨rfl, same⟩ | ⟨rfl, one⟩⟩ := slot
  · refine ⟨by rw [same], by rw [same]; omega, ?_, ?_⟩
    · intro n obj batch
      obtain ⟨y, rest, rfl⟩ := batch.cons
      exact ⟨_, single_push_free _ batch⟩
    · intro n obj batch
      exact ⟨_, single_pop_empty _ batch⟩
  · refine ⟨⟨[x], one.symm⟩, by simp [one], ?_, ?_⟩
    · intro n obj batch
      exact ⟨_, single_push_full _ batch⟩
    · intro n obj batch
      obtain ⟨y, rest, rfl⟩ := batch.cons
      exact ⟨_, single_pop_stored _ batch⟩

theorem single_run_oneSlot {null : α} {events : List (RingEvent α)} {q : GpRing α}
    (run : (ringSys null 1).Run events q) : OneSlot events q := by
  refine run.invariant (I := OneSlot) ?_ ?_
  · intro q fresh
    exact ⟨null, .inl ⟨fresh.trans (createGpRing_one null), rfl⟩⟩
  · intro events q ev q' _ slot stepped
    exact slot.step stepped

end Single

/-! ## Two objects in one slot -/

/-- Two pushes of one object each and a pop, on a ring with room for two. -/
def overwrite {α : Type*} (a b : α) : List (RingEvent α) :=
  [.push 1 [a] 1, .push 1 [b] 1, .pop 1 [a] [b] 1]

theorem overwrite_run {α : Type*} (null a b : α) (count : Nat) (two : 2 ≤ count)
    (narrow : count + 1 < 2 ^ 31) : ∃ q, (ringSys null count).Run (overwrite a b) q := by
  obtain ⟨m, pos, mask, size⟩ := createGpRing_mask null two (by omega)
  obtain ⟨rest, slots⟩ : ∃ rest, (createGpRing null count).msgs = null :: rest := by
    obtain ⟨k, rfl⟩ := Nat.exists_eq_add_of_le two
    exact ⟨List.replicate (1 + k) null, by
      rw [show 2 + k = 1 + k + 1 by omega]; rfl⟩
  have low : 1 &&& (createGpRing null count).mask = 0 := by
    rw [mask, Nat.and_comm, Nat.and_one_is_mod]
    omega
  have large : 1 ≤ (createGpRing null count).size := by omega
  have one : ∀ z : α, Batch 1 [z] := fun z => ⟨le_refl 1, by decide, le_refl 1⟩
  let q₁ : GpRing α := { createGpRing null count with head := ⟨1, 1⟩, msgs := a :: rest }
  let q₂ : GpRing α := { createGpRing null count with head := ⟨2, 2⟩, msgs := b :: rest }
  let q₃ : GpRing α := { q₂ with tail := ⟨1, 1⟩ }
  have push₁ : (createGpRing null count).gpRingPush 1 [a] = .ok (q₁, 1) := by
    refine gpRingPush_slot_zero rfl (Nat.zero_and _) slots large ?_
    show min 1 (uint32 ((count : Int) + 0 - 0)) = 1
    unfold uint32
    omega
  -- counter 1 is masked to slot 0 again
  have push₂ : q₁.gpRingPush 1 [b] = .ok (q₂, 1) := by
    refine gpRingPush_slot_zero (q := q₁) (h := 1) rfl low rfl large ?_
    show min 1 (uint32 ((count : Int) + 0 - 1)) = 1
    unfold uint32
    omega
  have pop₃ : q₂.gpRingPop 1 [a] = .ok (q₃, [b], 1) :=
    gpRingPop_slot_zero (q := q₂) rfl (Nat.zero_and _) rfl large rfl
  have run₀ : (ringSys null count).Run [] (createGpRing null count) := .init rfl
  have run₁ : (ringSys null count).Run [.push 1 [a] 1] q₁ := .step run₀ ⟨one a, push₁⟩
  have run₂ : (ringSys null count).Run [.push 1 [a] 1, .push 1 [b] 1] q₂ :=
    .step run₁ ⟨one b, push₂⟩
  exact ⟨q₃, .step run₂ ⟨one a, pop₃⟩⟩

/-- The pop of `overwrite` hands out the second object. -/
theorem overwrite_not_fifo {α : Type*} {a b : α} (differ : a ≠ b) {count : Nat} {q : GpRing α} :
    ¬ Fifo count (overwrite a b) q := by
  intro fifo
  have order : [b] <+: [a, b] := fifo.order
  rw [List.cons_prefix_cons] at order
  exact differ order.1.symm

/-- **FIFO only for one slot.** A ring of `count` objects behaves as a queue in
every single-threaded run exactly when `count` is 1. -/
theorem ring_fifo_iff {α : Type*} [Nontrivial α] (null : α) {count : Nat} (pos : 1 ≤ count)
    (int : count + 1 < 2 ^ 31) :
    (∀ events q, (ringSys null count).Run events q → Fifo count events q) ↔ count = 1 := by
  constructor
  · intro queue
    by_contra more
    obtain ⟨a, b, differ⟩ := exists_pair_ne α
    obtain ⟨q, run⟩ := overwrite_run null a b count (by omega) int
    exact overwrite_not_fifo differ (queue _ q run)
  · rintro rfl events q run
    exact (single_run_oneSlot run).fifo

/-- The smallest ring that fails. -/
theorem ring_fifo_iff_two :
    (∀ events q, (ringSys 0 2).Run events q → Fifo (α := Nat) 2 events q) ↔ 2 = 1 :=
  ring_fifo_iff 0 (by decide) (by decide)

/-- A ring of two objects forgets the first of two. -/
theorem ring_two_loses :
    ∃ q, (ringSys 0 2).Run (overwrite 7 8) q ∧
      ¬ popped (overwrite 7 8) <+: accepted (overwrite 7 8) := by
  obtain ⟨q, run⟩ := overwrite_run 0 7 8 2 (by decide) (by decide)
  exact ⟨q, run, by decide⟩

end GpBase.Ring

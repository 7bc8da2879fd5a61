import GpBase.Ring.Fifo

/-!
# The slots of the ring

`create_gp_ring` allocates `count` slots, but indices run below `size`, which is all ones
from the top bit of `count` down. The two agree when `count` itself is all ones; for any
other `count` a batch that wraps around writes slot `count`, which does not exist.
-/

namespace GpBase.Ring

open GpBase.Lib

/-! ## Copies inside and outside -/

section Copy

variable {α : Type*}

theorem copyOne_outside (dst : List α) (di : Nat) (src : List α) (si : Nat)
    (target : dst.length ≤ di) (source : si < src.length) :
    copyOne dst di src si = .error .outOfBounds := by
  have one : ((src.drop si).take 1).length = 1 := by
    rw [List.length_take, List.length_drop]
    omega
  unfold copyOne
  rw [load_ok (by omega)]
  show store dst di ((src.drop si).take 1) = _
  unfold store
  rw [if_neg (by rw [one]; omega)]

/-- A run of copies that does not end inside its target. -/
theorem copyRun_outside (dst : List α) (di : Nat) (src : List α) (si k : Nat)
    (starts : di ≤ dst.length) (target : dst.length < di + k)
    (source : si + k ≤ src.length) : copyRun dst di src si k = .error .outOfBounds := by
  induction k generalizing dst di si with
  | zero => omega
  | succ k ih =>
      rw [copyRun]
      by_cases inside : di < dst.length
      · have below : si < src.length := by omega
        have same : (dst.set di (src.get ⟨si, below⟩)).length = dst.length := List.length_set
        rw [copyOne_ok inside below]
        exact ih _ (di + 1) (si + 1) (by omega) (by omega) (by omega)
      · rw [copyOne_outside dst di src si (by omega) (by omega)]
        rfl

/-- A batch that stays below `size` in one piece. -/
theorem pushCopy_straight (ring : List α) {size idx n : Nat} (obj : List α)
    (below : idx + n < size) (slots : idx + n ≤ ring.length) (room : n ≤ obj.length)
    (narrow : idx + n < 2 ^ 32) :
    ∃ ring', pushCopy ring size idx n obj = .ok ring' ∧ ring'.length = ring.length := by
  obtain ⟨ring', run, copied⟩ := copyRun_copied slots (show 0 + n ≤ obj.length by omega)
  rw [pushCopy_eq narrow, if_pos below]
  exact ⟨ring', run, copied.length⟩

theorem popCopy_straight (ring : List α) {size idx n : Nat} (obj : List α)
    (below : idx + n < size) (slots : idx + n ≤ ring.length) (room : n ≤ obj.length)
    (narrow : idx + n < 2 ^ 32) : ∃ obj', popCopy ring size idx n obj = .ok obj' := by
  obtain ⟨obj', run, _⟩ := copyRun_copied (show 0 + n ≤ obj.length by omega) slots
  rw [popCopy_eq narrow, if_pos below]
  exact ⟨obj', run⟩

/-- A batch that wraps around a ring with fewer slots than indices. -/
theorem pushCopy_wrapped (ring : List α) {size idx n : Nat} (obj : List α)
    (above : size ≤ idx + n) (start : idx ≤ ring.length) (slots : ring.length < size)
    (room : n ≤ obj.length) (narrow : idx + n < 2 ^ 32) :
    pushCopy ring size idx n obj = .error .outOfBounds := by
  unfold pushCopy
  rw [uint32_add narrow, if_neg (by omega),
    copyRun_outside ring idx obj 0 (size - idx) start (by omega) (by omega)]
  rfl

/-- A batch of at most `size` objects touches slots below `size` only. -/
theorem pushCopy_inside (ring : List α) {size idx n : Nat} (obj : List α)
    (slots : size ≤ ring.length) (start : idx ≤ size) (few : n ≤ size) (room : n ≤ obj.length)
    (narrow : idx + n < 2 ^ 32) :
    ∃ ring', pushCopy ring size idx n obj = .ok ring' ∧ ring'.length = ring.length := by
  by_cases below : idx + n < size
  · exact pushCopy_straight ring obj below (by omega) room narrow
  obtain ⟨ring₁, upper, copied₁⟩ := copyRun_copied
    (show idx + (size - idx) ≤ ring.length by omega) (show 0 + (size - idx) ≤ obj.length by omega)
  have same := copied₁.length
  obtain ⟨ring₂, lower, copied₂⟩ := copyRun_copied
    (show 0 + (n - (size - idx)) ≤ ring₁.length by omega)
    (show size - idx + (n - (size - idx)) ≤ obj.length by omega)
  refine ⟨ring₂, ?_, copied₂.length.trans same⟩
  rw [pushCopy_eq narrow, if_neg below, upper]
  exact lower

theorem popCopy_inside (ring : List α) {size idx n : Nat} (obj : List α)
    (slots : size ≤ ring.length) (start : idx ≤ size) (few : n ≤ size) (room : n ≤ obj.length)
    (narrow : idx + n < 2 ^ 32) : ∃ obj', popCopy ring size idx n obj = .ok obj' := by
  by_cases below : idx + n < size
  · exact popCopy_straight ring obj below (by omega) room narrow
  obtain ⟨obj₁, upper, copied₁⟩ := copyRun_copied
    (show 0 + (size - idx) ≤ obj.length by omega) (show idx + (size - idx) ≤ ring.length by omega)
  have same := copied₁.length
  obtain ⟨obj₂, lower, _⟩ := copyRun_copied
    (show size - idx + (n - (size - idx)) ≤ obj₁.length by omega)
    (show 0 + (n - (size - idx)) ≤ ring.length by omega)
  refine ⟨obj₂, ?_⟩
  rw [popCopy_eq narrow, if_neg below, upper]
  exact lower

end Copy

/-! ## Runs -/

/-- A call with any batch size. -/
inductive SlotEvent (α : Type*)
  | push (n : Int) (obj : List α)
  | pop (n : Int) (obj : List α)

section Runs

variable {α : Type*}

namespace GpRing

/-- How many objects a push copies. -/
def pushed (q : GpRing α) (n : Int) : Nat :=
  min (uint32 n) (uint32 (q.capacity + q.tail.second - q.head.first))

/-- How many objects a pop copies. -/
def taken (q : GpRing α) (n : Int) : Nat := min (uint32 n) (uint32 (q.head.second - q.tail.first))

/-- The caller's array has the objects that a push reads, or room for those of a pop. -/
def Room (q : GpRing α) : SlotEvent α → Prop
  | .push n obj => q.pushed n ≤ obj.length
  | .pop n obj => q.taken n ≤ obj.length

def exec (q : GpRing α) : SlotEvent α → Except Fault (GpRing α)
  | .push n obj => do return (← q.gpRingPush n obj).1
  | .pop n obj => do return (← q.gpRingPop n obj).1

/-- A push that has nothing to copy leaves the ring, and any other one copies first. -/
theorem exec_push (q : GpRing α) (n : Int) (obj : List α) :
    q.exec (.push n obj) =
      if q.pushed n = 0 then .ok q
      else (do
        let next := uint32 (q.head.first + q.pushed n)
        let msgs ← pushCopy q.msgs q.size (q.head.first &&& q.mask) (q.pushed n) obj
        if q.head.second ≠ q.head.first then .error .hang
        else .ok { q with head := ⟨next, next⟩, msgs := msgs }) := by
  show ((if q.pushed n = 0 then _ else _) >>= _) = _
  split
  · rfl
  · show ((pushCopy q.msgs q.size (q.head.first &&& q.mask) (q.pushed n) obj >>= _) >>= _) = _
    cases pushCopy q.msgs q.size (q.head.first &&& q.mask) (q.pushed n) obj with
    | error fault => rfl
    | ok msgs =>
        show ((if q.head.second ≠ q.head.first then _ else _) >>= _) = _
        split
        · rfl
        · rfl

theorem exec_pop (q : GpRing α) (n : Int) (obj : List α) :
    q.exec (.pop n obj) =
      if q.taken n = 0 then .ok q
      else (do
        let next := uint32 (q.tail.first + q.taken n)
        let _ ← popCopy q.msgs q.size (q.tail.first &&& q.mask) (q.taken n) obj
        if q.tail.second ≠ q.tail.first then .error .hang
        else .ok { q with tail := ⟨next, next⟩ }) := by
  show ((if q.taken n = 0 then _ else _) >>= _) = _
  split
  · rfl
  · show ((popCopy q.msgs q.size (q.tail.first &&& q.mask) (q.taken n) obj >>= _) >>= _) = _
    cases popCopy q.msgs q.size (q.tail.first &&& q.mask) (q.taken n) obj with
    | error fault => rfl
    | ok obj' =>
        show ((if q.tail.second ≠ q.tail.first then _ else _) >>= _) = _
        split
        · rfl
        · rfl

end GpRing

/-- Calls on a ring made by `create_gp_ring(count)`. -/
def slotSys (null : α) (count : Nat) : TSys (GpRing α) (SlotEvent α) where
  init q := q = createGpRing null count
  step q ev q' := q.Room ev ∧ q.exec ev = .ok q'

/-- No call touches a slot that is not there. -/
def Inside (q : GpRing α) : Prop := ∀ ev, q.Room ev → q.exec ev ≠ .error .outOfBounds

/-- A ring of `count` slots between two calls. -/
structure Between (count : Nat) (q : GpRing α) : Prop where
  size : q.size = gpAlign32pow2 (count + 1)
  mask : q.mask = gpAlign32pow2 (count + 1) - 1
  capacity : q.capacity = count
  slots : q.msgs.length = count
  head : q.head.second = q.head.first
  tail : q.tail.second = q.tail.first
  stored : uint32 ((q.head.first : Int) - q.tail.first) ≤ count

theorem between_create (null : α) (count : Nat) : Between count (createGpRing null count) :=
  ⟨rfl, rfl, rfl, List.length_replicate, rfl, rfl, Nat.zero_le _⟩

variable {count : Nat} {q q' : GpRing α}

theorem Between.pushed_le (h : Between count q) (n : Int) (narrow : count < 2 ^ 31) :
    q.pushed n + uint32 ((q.head.first : Int) - q.tail.first) ≤ count := by
  have stored := h.stored
  unfold GpRing.pushed
  rw [h.capacity, h.tail]
  unfold uint32 at stored ⊢
  omega

theorem Between.taken_le (h : Between count q) (n : Int) :
    q.taken n ≤ uint32 ((q.head.first : Int) - q.tail.first) := by
  unfold GpRing.taken
  rw [h.head]
  exact Nat.min_le_right _ _

/-- A push that copies something and returns. -/
theorem Between.push (h : Between count q) (narrow : count < 2 ^ 31) {n : Int} {obj : List α}
    {msgs : List α} (some : q.pushed n ≠ 0)
    (copied : pushCopy q.msgs q.size (q.head.first &&& q.mask) (q.pushed n) obj = .ok msgs)
    (same : msgs.length = q.msgs.length) :
    ∃ q', q.exec (.push n obj) = .ok q' ∧ Between count q' ∧
      q'.head.first = uint32 (q.head.first + q.pushed n) ∧ q'.tail = q.tail := by
  let next := uint32 ((q.head.first : Int) + q.pushed n)
  refine ⟨{ q with head := ⟨next, next⟩, msgs := msgs }, ?_, ?_, rfl, rfl⟩
  · -- no other producer is on its way, so the claimed slots are published at once
    have published : ¬ q.head.second ≠ q.head.first := not_not_intro h.head
    rw [GpRing.exec_push, if_neg some, copied]
    exact if_neg published
  · refine ⟨h.size, h.mask, h.capacity, same.trans h.slots, rfl, h.tail, ?_⟩
    have bound := h.pushed_le n narrow
    show uint32 ((next : Int) - q.tail.first) ≤ count
    unfold next
    unfold uint32 at bound ⊢
    omega

theorem Between.pop (h : Between count q) {n : Int} {obj obj' : List α} (some : q.taken n ≠ 0)
    (copied : popCopy q.msgs q.size (q.tail.first &&& q.mask) (q.taken n) obj = .ok obj') :
    ∃ q', q.exec (.pop n obj) = .ok q' ∧ Between count q' ∧
      q'.tail.first = uint32 (q.tail.first + q.taken n) ∧ q'.head = q.head ∧ q'.msgs = q.msgs := by
  let next := uint32 ((q.tail.first : Int) + q.taken n)
  refine ⟨{ q with tail := ⟨next, next⟩ }, ?_, ?_, rfl, rfl, rfl⟩
  · have published : ¬ q.tail.second ≠ q.tail.first := not_not_intro h.tail
    rw [GpRing.exec_pop, if_neg some, copied]
    exact if_neg published
  · refine ⟨h.size, h.mask, h.capacity, h.slots, h.head, rfl, ?_⟩
    have bound := h.taken_le n
    have stored := h.stored
    show uint32 ((q.head.first : Int) - next) ≤ count
    unfold next
    unfold uint32 at bound stored ⊢
    omega

/-! ## Rings whose count is all ones -/

/-- The index where a batch starts. -/
theorem Between.start_le (h : Between count q) (counter : Nat) :
    counter &&& q.mask ≤ q.size - 1 := by
  have below : counter &&& q.mask ≤ q.mask := Nat.and_le_right
  rw [h.mask] at below ⊢
  rw [h.size]
  exact below

/-- With as many slots as indices, a call returns and keeps the ring between calls. -/
theorem Between.exec (h : Between count q) (narrow : count < 2 ^ 31)
    (fits : gpAlign32pow2 (count + 1) = count) {ev : SlotEvent α} (room : q.Room ev) :
    ∃ q', q.exec ev = .ok q' ∧ Between count q' := by
  have size : q.size = count := h.size.trans fits
  have slots : q.size ≤ q.msgs.length := by rw [h.slots, size]
  cases ev with
  | push n obj =>
      have bound := h.pushed_le n narrow
      have start := h.start_le q.head.first
      -- with nothing to copy the call returns before it touches a slot
      by_cases copies : q.pushed n = 0
      · refine ⟨q, ?_, h⟩
        rw [GpRing.exec_push, if_pos copies]
      · obtain ⟨msgs, copied, same⟩ := pushCopy_inside q.msgs obj slots
          (show q.head.first &&& q.mask ≤ q.size by omega)
          (show q.pushed n ≤ q.size by omega) room (by omega)
        obtain ⟨q', ran, kept, _⟩ := h.push narrow copies copied same
        exact ⟨q', ran, kept⟩
  | pop n obj =>
      have bound := h.taken_le n
      have stored := h.stored
      have start := h.start_le q.tail.first
      by_cases copies : q.taken n = 0
      · refine ⟨q, ?_, h⟩
        rw [GpRing.exec_pop, if_pos copies]
      · obtain ⟨obj', copied⟩ := popCopy_inside q.msgs obj slots
          (show q.tail.first &&& q.mask ≤ q.size by omega)
          (show q.taken n ≤ q.size by omega) room (by omega)
        obtain ⟨q', ran, kept, _⟩ := h.pop copies copied
        exact ⟨q', ran, kept⟩

theorem between_run {null : α} (narrow : count < 2 ^ 31)
    (fits : gpAlign32pow2 (count + 1) = count) {events : List (SlotEvent α)}
    (run : (slotSys null count).Run events q) : Between count q := by
  refine run.invariant (I := fun _ q => Between count q) ?_ ?_
  · intro q fresh
    rw [show q = createGpRing null count from fresh]
    exact between_create null count
  · intro _ q ev q' _ between stepped
    obtain ⟨q₁, ran, kept⟩ := between.exec narrow fits stepped.1
    have same : q₁ = q' := Except.ok.inj (ran.symm.trans stepped.2)
    rwa [← same]

/-! ## Rings with indices to spare -/

/-- The size is the next power of two above `count`, less one. -/
theorem size_bounds (pos : 1 ≤ count) (narrow : count < 2 ^ 31) :
    count ≤ gpAlign32pow2 (count + 1) ∧ gpAlign32pow2 (count + 1) ≤ 2 * count - 1 := by
  rw [gpAlign32pow2_succ (by omega)]
  have above : count < 2 ^ count.size := Nat.lt_size_self count
  have positive : 0 < count.size := Nat.size_pos.mpr (by omega)
  obtain ⟨k, top⟩ := Nat.exists_eq_add_of_le' positive
  have below : 2 ^ k ≤ count := Nat.lt_size.mp (by omega)
  rw [top, Nat.pow_succ] at above ⊢
  omega

/-- Size and count agree for counts that are all ones. -/
theorem size_eq_count (pos : 1 ≤ count) (narrow : count < 2 ^ 31) :
    gpAlign32pow2 (count + 1) = count ↔ ∃ k, count + 1 = 2 ^ k := by
  constructor
  · intro fits
    rw [gpAlign32pow2_succ (by omega)] at fits
    have ones := Nat.two_pow_pos count.size
    exact ⟨count.size, by omega⟩
  · rintro ⟨k, power⟩
    obtain rfl : count = 2 ^ k - 1 := by omega
    obtain ⟨j, rfl⟩ : ∃ j, k = j + 1 := by
      apply Nat.exists_eq_add_one_of_ne_zero
      rintro rfl
      omega
    have half : 2 ^ (j + 1) = 2 * 2 ^ j := Nat.pow_succ'
    have width : (2 ^ (j + 1) - 1).size = j + 1 := by
      apply Nat.le_antisymm
      · exact Nat.size_le.mpr (by omega)
      · exact Nat.lt_size.mpr (by omega)
    rw [gpAlign32pow2_succ (by omega), width]

/-- Masking clears the lowest bit of `count` only. -/
theorem masked_count (pos : 1 ≤ count) (narrow : count < 2 ^ 31) :
    count &&& (gpAlign32pow2 (count + 1) - 1) = count / 2 * 2 := by
  have above : count < 2 ^ count.size := Nat.lt_size_self count
  have positive : 0 < count.size := Nat.size_pos.mpr (by omega)
  obtain ⟨k, top⟩ := Nat.exists_eq_add_of_le' positive
  rw [gpAlign32pow2_succ (by omega)]
  rw [top, Nat.pow_succ] at above ⊢
  rw [show 2 ^ k * 2 - 1 - 1 = (2 ^ k - 1) * 2 by omega]
  -- `size - 1` is even, so the bits above the lowest one are those of `count`
  have high : (count &&& (2 ^ k - 1) * 2) / 2 = count / 2 := by
    rw [Nat.and_div_two, Nat.mul_div_cancel _ (by omega), Nat.and_two_pow_sub_one_eq_mod]
    exact Nat.mod_eq_of_lt (by omega)
  have low : (count &&& (2 ^ k - 1) * 2) % 2 = 0 := by
    have odd : ¬ (count &&& (2 ^ k - 1) * 2) % 2 = 1 := by
      rw [Nat.and_mod_two_eq_one]
      omega
    omega
  omega

/-- A full batch in, out and in again. -/
def turn (null : α) (count : Nat) : List (SlotEvent α) :=
  [.push count (.replicate count null), .pop count (.replicate count null)]

/-- After one turn of the ring the next full batch wraps around. -/
theorem turn_run (null : α) (pos : 1 ≤ count) (narrow : count < 2 ^ 31)
    (spare : count < gpAlign32pow2 (count + 1)) :
    ∃ q, (slotSys null count).Run (turn null count) q ∧ Between count q ∧
      q.head.first = count ∧ q.tail.first = count := by
  let obj : List α := .replicate count null
  have len : obj.length = count := List.length_replicate
  have word : uint32 (count : Int) = count := by
    unfold uint32
    omega
  have fresh := between_create null count
  have run₀ : (slotSys null count).Run [] (createGpRing null count) := .init rfl
  -- the first batch fills the ring from index 0, so it does not wrap around
  have all₁ : (createGpRing null count).pushed count = count := by
    show min (uint32 (count : Int)) (uint32 ((count : Int) + 0 - 0)) = count
    rw [Int.add_zero, Int.sub_zero, Nat.min_self, word]
  have copied₁ : ∃ msgs, pushCopy (createGpRing null count).msgs (createGpRing null count).size
      (0 &&& (createGpRing null count).mask) ((createGpRing null count).pushed count) obj =
        .ok msgs ∧ msgs.length = (createGpRing null count).msgs.length := by
    rw [all₁, Nat.zero_and]
    refine pushCopy_straight _ obj ?_ ?_ (by omega) (by omega)
    · rw [Nat.zero_add]
      exact spare
    · rw [Nat.zero_add, fresh.slots]
  obtain ⟨msgs, copied₁, same⟩ := copied₁
  obtain ⟨q₁, ran₁, between₁, head₁, tail₁⟩ := fresh.push narrow (by omega) copied₁ same
  rw [all₁] at head₁
  have first₁ : q₁.head.first = count := by
    rw [head₁]
    show uint32 ((0 : Int) + count) = count
    rw [Int.zero_add, word]
  have run₁ : (slotSys null count).Run [.push count obj] q₁ := by
    refine .step run₀ ⟨?_, ran₁⟩
    show (createGpRing null count).pushed count ≤ obj.length
    omega
  have at₁ : q₁.tail.first = 0 := by
    rw [tail₁]
    rfl
  -- the pop takes all of it from index 0 again, and both counters stand at `count`
  have all₂ : q₁.taken count = count := by
    unfold GpRing.taken
    rw [between₁.head, first₁, at₁]
    show min (uint32 (count : Int)) (uint32 ((count : Int) - 0)) = count
    rw [Int.sub_zero, Nat.min_self, word]
  have copied₂ : ∃ obj', popCopy q₁.msgs q₁.size (q₁.tail.first &&& q₁.mask) (q₁.taken count) obj =
      .ok obj' := by
    rw [all₂, at₁, Nat.zero_and]
    refine popCopy_straight _ obj ?_ ?_ (by omega) (by omega)
    · rw [Nat.zero_add, between₁.size]
      exact spare
    · rw [Nat.zero_add, between₁.slots]
  obtain ⟨obj', copied₂⟩ := copied₂
  obtain ⟨q₂, ran₂, between₂, next₂, head₂, _⟩ := between₁.pop (by omega) copied₂
  rw [all₂, at₁] at next₂
  refine ⟨q₂, .step run₁ ⟨?_, ran₂⟩, between₂, ?_, ?_⟩
  · show q₁.taken count ≤ obj.length
    omega
  · rw [head₂, first₁]
  · rw [next₂]
    show uint32 ((0 : Int) + count) = count
    rw [Int.zero_add, word]

/-- The push after the turn writes a slot that is not there. -/
theorem turn_not_inside (null : α) (pos : 1 ≤ count) (narrow : count < 2 ^ 31)
    (spare : count < gpAlign32pow2 (count + 1)) (h : Between count q) (head : q.head.first = count)
    (tail : q.tail.first = count) : ¬ Inside q := by
  intro inside
  let obj : List α := .replicate count null
  have len : obj.length = count := List.length_replicate
  have all : q.pushed count = count := by
    unfold GpRing.pushed
    rw [h.capacity, h.tail, tail, head]
    unfold uint32
    omega
  have bounds := size_bounds pos narrow
  -- the batch starts at the last even index, so that it reaches past the last slot
  have start : q.head.first &&& q.mask = count / 2 * 2 := by
    rw [h.mask, head]
    exact masked_count pos narrow
  -- the copy goes up to `size` before it wraps, and there are fewer slots
  have wrapped : pushCopy q.msgs q.size (q.head.first &&& q.mask) (q.pushed count) obj =
      .error .outOfBounds := by
    rw [start, all, h.size]
    have slots := h.slots
    exact pushCopy_wrapped q.msgs obj (by omega) (by omega) (by omega) (by omega) (by omega)
  apply inside (.push count obj)
  · show q.pushed count ≤ obj.length
    omega
  · rw [GpRing.exec_push, if_neg (by omega), wrapped]
    rfl

/-- **Slots stay inside the allocation only for counts that are all ones.** On a ring made
by `create_gp_ring(count)`, no call of any sequence touches a slot at or beyond `count`
exactly when `count + 1` is a power of two. -/
theorem slots_inside_iff (null : α) {count : Nat} (pos : 1 ≤ count) (int : count < 2 ^ 31) :
    (∀ events q, (slotSys null count).Run events q → Inside q) ↔ ∃ k, count + 1 = 2 ^ k := by
  rw [← size_eq_count pos int]
  constructor
  · intro always
    by_contra differ
    have spare : count < gpAlign32pow2 (count + 1) := by
      have bounds := size_bounds pos int
      omega
    obtain ⟨q, run, between, head, tail⟩ := turn_run null pos int spare
    exact turn_not_inside null pos int spare between head tail (always _ q run)
  · intro fits events q run ev room outside
    obtain ⟨q', ran, _⟩ := (between_run int fits run).exec int fits room
    rw [ran] at outside
    cases outside

/-- The smallest ring that is safe and has more than one slot. -/
theorem slots_inside_iff_three :
    (∀ events q, (slotSys 0 3).Run events q → Inside (α := Nat) q) ↔ ∃ k, 3 + 1 = 2 ^ k :=
  slots_inside_iff 0 (by decide) (by decide)

/-- A ring of two slots: the second full batch writes slot 2. -/
theorem two_slots_overrun :
    ∃ q, (slotSys 0 2).Run (turn 0 2) q ∧ ¬ Inside (α := Nat) q := by
  have spare : 2 < gpAlign32pow2 (2 + 1) := by decide
  obtain ⟨q, run, between, head, tail⟩ := turn_run 0 (by decide) (by decide) spare
  exact ⟨q, run, turn_not_inside 0 (by decide) (by decide) spare between head tail⟩

end Runs

end GpBase.Ring

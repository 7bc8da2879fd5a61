import GpBase.Ring.Contents
import GpBase.Ring.Slots

/-!
# Calls that nobody interrupts

A thread that takes the atomic steps of its call one after the other, while the other threads
stand still, does what `gpRingPush` and `gpRingPop` do. So the calls of one thread, one after
the other, are runs of the protocol.
-/

namespace GpBase.Ring

open GpBase.Lib Reservation

section Solo

variable {Thread α : Type*} [DecidableEq Thread] {capacity : Nat} {slot : Int → Nat → Nat}
  {null : α} {moves : List (Thread × ContentsMove α)} {s : RingContents Thread α} {t : Thread}

/-- The slots after `k` objects have been copied. -/
def written (slot : Int → Nat → Nat) (pos : Int) (obj : List α) (msgs : Nat → α) :
    Nat → Nat → α
  | 0 => msgs
  | k + 1 => (obj[k]?).elim (written slot pos obj msgs k)
      (Function.update (written slot pos obj msgs k) (slot pos k))

theorem written_succ (pos : Int) {obj : List α} (msgs : Nat → α) {k : Nat} {x : α}
    (here : obj[k]? = some x) :
    written slot pos obj msgs (k + 1) =
      Function.update (written slot pos obj msgs k) (slot pos k) x := by
  rw [written, here]
  rfl

/-- The ring in a push of `t` that is in phase `r` and has copied `c` objects. -/
def inPush (s : RingContents Thread α) (t : Thread) (obj : List α) (head : Lane) (r : Reservation)
    (msgs : Nat → α) (c : Nat) (accepted : List α) : RingContents Thread α :=
  { s with
    ring := { s.ring with head := head, pushing := Function.update s.ring.pushing t r }
    msgs := msgs
    obj := Function.update s.obj t obj
    copied := Function.update s.copied t c
    accepted := accepted }

/-- The ring in a pop of `t` that has copied `out`. -/
def inPop (s : RingContents Thread α) (t : Thread) (tail : Lane) (r : Reservation)
    (out delivered : List α) : RingContents Thread α :=
  { s with
    ring := { s.ring with tail := tail, popping := Function.update s.ring.popping t r }
    out := Function.update s.out t out
    delivered := delivered }

theorem inPush_phase (obj : List α) (head : Lane) (r : Reservation) (msgs : Nat → α) (c : Nat)
    (accepted : List α) : (inPush s t obj head r msgs c accepted).ring.pushing t = r :=
  Function.update_self ..

theorem inPop_phase (tail : Lane) (r : Reservation) (out delivered : List α) :
    (inPop s t tail r out delivered).ring.popping t = r :=
  Function.update_self ..

/-- A step of the protocol that a push takes while nothing is left to copy. -/
theorem inPush_step {obj : List α} {head head' : Lane} {r r' : Reservation} {msgs : Nat → α}
    {c : Nat} {accepted : List α}
    (step : Reservation.Step (capacity + s.ring.tail.second) head r head' r')
    (all : ∀ pos next, r = .reserved pos next → (c : Int) = next - pos) :
    ContentsStep capacity slot (inPush s t obj head r msgs c accepted) (t, .stepPush)
      (inPush s t obj head' r' msgs c
        (accepted ++ obj.take (head'.first - head.first).toNat)) := by
  have base : RingStep capacity (inPush s t obj head r msgs c accepted).ring (t, .stepPush)
      (inPush s t obj head' r' msgs c accepted).ring := by
    have step : Reservation.Step
        (capacity + (inPush s t obj head r msgs c accepted).ring.tail.second)
        (inPush s t obj head r msgs c accepted).ring.head
        ((inPush s t obj head r msgs c accepted).ring.pushing t) head' r' := by
      rw [inPush_phase]
      exact step
    have moved := RingStep.stepPush step
    simp only [inPush, Function.update_idem] at moved ⊢
    exact moved
  have copied : ∀ pos next, (inPush s t obj head r msgs c accepted).ring.pushing t =
      .reserved pos next →
      ((inPush s t obj head r msgs c accepted).copied t : Int) = next - pos := by
    intro pos next phase
    rw [inPush_phase] at phase
    show ((Function.update s.copied t c t : Nat) : Int) = _
    rw [Function.update_self]
    exact all pos next phase
  have stepped : ContentsStep capacity slot _ _ _ := .stepPush base copied
  simp only [inPush, Function.update_self] at stepped ⊢
  exact stepped

theorem inPop_step {tail tail' : Lane} {r r' : Reservation} {out delivered : List α}
    (step : Reservation.Step s.ring.head.second tail r tail' r')
    (all : ∀ pos next, r = .reserved pos next → (out.length : Int) = next - pos) :
    ContentsStep capacity slot (inPop s t tail r out delivered) (t, .stepPop)
      (inPop s t tail' r' out
        (delivered ++ out.take (tail'.second - tail.second).toNat)) := by
  have base : RingStep capacity (inPop s t tail r out delivered).ring (t, .stepPop)
      (inPop s t tail' r' out delivered).ring := by
    have step : Reservation.Step (inPop s t tail r out delivered).ring.head.second
        (inPop s t tail r out delivered).ring.tail
        ((inPop s t tail r out delivered).ring.popping t) tail' r' := by
      rw [inPop_phase]
      exact step
    have moved : RingStep capacity _ _ _ := .stepPop step
    simp only [inPop, Function.update_idem] at moved ⊢
    exact moved
  have copied : ∀ pos next, (inPop s t tail r out delivered).ring.popping t =
      .reserved pos next →
      (((inPop s t tail r out delivered).out t).length : Int) = next - pos := by
    intro pos next phase
    rw [inPop_phase] at phase
    show ((Function.update s.out t out t).length : Int) = _
    rw [Function.update_self]
    exact all pos next phase
  have stepped : ContentsStep capacity slot _ _ _ := .stepPop base copied
  simp only [inPop, Function.update_self] at stepped ⊢
  exact stepped

/-- The copies of a push, one after the other. -/
theorem inPush_copies {obj : List α} {head : Lane} {pos next : Int} {msgs : Nat → α}
    {accepted : List α}
    (run : (contentsSys Thread capacity slot null).Run moves
      (inPush s t obj head (.reserved pos next) msgs 0 accepted)) {k : Nat}
    (room : k ≤ next - pos) (given : k ≤ obj.length) :
    ∃ moves', (contentsSys Thread capacity slot null).Run moves'
      (inPush s t obj head (.reserved pos next) (written slot pos obj msgs k) k accepted) := by
  induction k with
  | zero => exact ⟨moves, run⟩
  | succ k ih =>
      obtain ⟨moves', run'⟩ := ih (by omega) (by omega)
      have here : obj[k]? = some obj[k] := List.getElem?_eq_getElem given
      have copied : (inPush s t obj head (.reserved pos next) (written slot pos obj msgs k) k
          accepted).copied t = k := Function.update_self ..
      have next : ((inPush s t obj head (.reserved pos next) (written slot pos obj msgs k) k
          accepted).obj t)[(inPush s t obj head (.reserved pos next) (written slot pos obj msgs k)
          k accepted).copied t]? = some obj[k] := by
        rw [copied]
        show (Function.update s.obj t obj t)[k]? = _
        rw [Function.update_self]
        exact here
      have stepped : ContentsStep capacity slot _ (t, .copyIn) _ :=
        .copyIn (inPush_phase ..) (by rw [copied]; omega) next
      rw [copied] at stepped
      simp only [inPush, Function.update_idem, ← written_succ pos msgs here] at stepped
      exact ⟨_, .step run' stepped⟩

/-- The copies of a pop. -/
theorem inPop_copies {tail : Lane} {pos next : Int} {delivered : List α}
    (run : (contentsSys Thread capacity slot null).Run moves
      (inPop s t tail (.reserved pos next) [] delivered)) {k : Nat} (room : k ≤ next - pos) :
    ∃ moves', (contentsSys Thread capacity slot null).Run moves'
      (inPop s t tail (.reserved pos next) ((List.range k).map fun i => s.msgs (slot pos i))
        delivered) := by
  induction k with
  | zero => exact ⟨moves, run⟩
  | succ k ih =>
      obtain ⟨moves', run'⟩ := ih (by omega)
      have out : (inPop s t tail (.reserved pos next)
          ((List.range k).map fun i => s.msgs (slot pos i)) delivered).out t =
          (List.range k).map fun i => s.msgs (slot pos i) := Function.update_self ..
      have room' : (((inPop s t tail (.reserved pos next)
          ((List.range k).map fun i => s.msgs (slot pos i)) delivered).out t).length : Int) <
          next - pos := by
        rw [out, List.length_map, List.length_range]
        omega
      have stepped : ContentsStep capacity slot _ (t, .copyOut) _ :=
        .copyOut (inPop_phase ..) room'
      rw [out] at stepped
      simp only [inPop, Function.update_idem, List.length_map, List.length_range] at stepped
      rw [List.range_succ, List.map_append]
      exact ⟨_, .step run' stepped⟩

/-- **A push that nobody interrupts.** -/
theorem solo_push (run : (contentsSys Thread capacity slot null).Run moves s)
    (idle : s.ring.pushing t = .idle) (idle' : s.ring.popping t = .idle) {h : Int}
    (head : s.ring.head = ⟨h, h⟩) {n : Int} {obj : List α} (low : 0 ≤ n) (given : n ≤ obj.length)
    {k : Nat} (granted : grant n (capacity + s.ring.tail.second - h) = k) :
    ∃ moves', (contentsSys Thread capacity slot null).Run moves'
      (inPush s t obj ⟨h + k, h + k⟩ .idle (written slot h obj s.msgs k) k
        (s.accepted ++ obj.take k)) := by
  have call : ContentsStep capacity slot s (t, .callPush n obj)
      (inPush s t obj ⟨h, h⟩ (.begin n) s.msgs 0 s.accepted) := by
    have stepped : ContentsStep capacity slot s _ _ := .callPush low given (.callPush idle idle')
    rw [head] at stepped
    exact stepped
  have run₁ := run.step call
  have run₂ := run₁.step (inPush_step .readFirst (by simp))
  rw [sub_self, Int.toNat_zero, List.take_zero, List.append_nil] at run₂
  by_cases none : k = 0
  · subst none
    have run₃ := run₂.step (inPush_step (.nothing granted) (by simp))
    rw [sub_self, Int.toNat_zero, List.take_zero, List.append_nil] at run₃
    rw [List.take_zero, List.append_nil, Nat.cast_zero, add_zero]
    exact ⟨_, run₃⟩
  · have some : grant n (capacity + s.ring.tail.second - h) ≠ 0 := by omega
    have run₃ := run₂.step (inPush_step (.readLimit some) (by simp))
    rw [sub_self, Int.toNat_zero, List.take_zero, List.append_nil, granted] at run₃
    have run₄ := run₃.step (inPush_step (.swap rfl) (by simp))
    have gone : (h + (k : Int) - h).toNat = k := by omega
    dsimp only at run₄
    rw [gone] at run₄
    have enough : k ≤ obj.length := by
      have least : grant n (capacity + s.ring.tail.second - h) ≤ n := by
        unfold grant
        split <;> omega
      omega
    obtain ⟨moves₅, run₅⟩ := inPush_copies run₄ (k := k) (by omega) enough
    have run₆ := run₅.step (inPush_step .use fun pos next same => by
      cases same
      omega)
    have run₇ := run₆.step (inPush_step (.await rfl) (by simp))
    have run₈ := run₇.step (inPush_step .publish (by simp))
    simp only [sub_self, Int.toNat_zero, List.take_zero, List.append_nil] at run₈
    exact ⟨_, run₈⟩

/-- **A pop that nobody interrupts.** -/
theorem solo_pop (run : (contentsSys Thread capacity slot null).Run moves s)
    (idle : s.ring.pushing t = .idle) (idle' : s.ring.popping t = .idle) {h : Int}
    (tail : s.ring.tail = ⟨h, h⟩) {n : Int} {k : Nat}
    (granted : grant n (s.ring.head.second - h) = k) :
    ∃ moves', (contentsSys Thread capacity slot null).Run moves'
      (inPop s t ⟨h + k, h + k⟩ .idle ((List.range k).map fun i => s.msgs (slot h i))
        (s.delivered ++ (List.range k).map fun i => s.msgs (slot h i))) := by
  have call : ContentsStep capacity slot s (t, .callPop n)
      (inPop s t ⟨h, h⟩ (.begin n) [] s.delivered) := by
    have stepped : ContentsStep capacity slot s (t, .callPop n) _ := .callPop (.callPop idle idle')
    rw [tail] at stepped
    exact stepped
  have run₁ := run.step call
  have run₂ := run₁.step (inPop_step .readFirst (by simp))
  simp only [sub_self, Int.toNat_zero, List.take_zero, List.append_nil] at run₂
  by_cases none : k = 0
  · subst none
    have run₃ := run₂.step (inPop_step (.nothing granted) (by simp))
    simp only [sub_self, Int.toNat_zero, List.take_zero, List.append_nil] at run₃
    rw [List.range_zero, List.map_nil, List.append_nil, Nat.cast_zero, add_zero]
    exact ⟨_, run₃⟩
  · have some : grant n (s.ring.head.second - h) ≠ 0 := by omega
    have run₃ := run₂.step (inPop_step (.readLimit some) (by simp))
    have run₄ := run₃.step (inPop_step (.swap rfl) (by simp))
    simp only [sub_self, Int.toNat_zero, List.take_zero, List.append_nil, granted] at run₄
    obtain ⟨moves₅, run₅⟩ := inPop_copies run₄ (k := k) (by omega)
    have run₆ := run₅.step (inPop_step .use fun pos next same => by
      cases same
      rw [List.length_map, List.length_range]
      omega)
    have run₇ := run₆.step (inPop_step (.await rfl) (by simp))
    have run₈ := run₇.step (inPop_step .publish (by simp))
    simp only [sub_self, Int.toNat_zero, List.take_zero, List.append_nil] at run₈
    have gone : (h + (k : Int) - h).toNat = k := by omega
    have all : ((List.range k).map fun i => s.msgs (slot h i)).length = k := by
      rw [List.length_map, List.length_range]
    rw [gone, List.take_of_length_le (by omega)] at run₈
    exact ⟨_, run₈⟩

end Solo

/-! ## The calls of one thread -/

section Mirror

variable {α : Type*} {slot : Int → Nat → Nat} {pos : Int} {obj : List α} {msgs : Nat → α}

/-- A slot that no object of the batch goes to. -/
theorem written_other {j k : Nat} (apart : ∀ i < k, slot pos i ≠ j) :
    written slot pos obj msgs k j = msgs j := by
  induction k with
  | zero => rfl
  | succ k ih =>
      have before := ih fun i small => apart i (by omega)
      rw [written]
      cases obj[k]? with
      | none => exact before
      | some x => exact (Function.update_of_ne (apart k (by omega)).symm ..).trans before

/-- Where the slots of a batch differ, each holds its object. -/
theorem written_here {i k : Nat} {x : α} (here : obj[i]? = some x)
    (apart : ∀ a b, a < b → b < k → slot pos a ≠ slot pos b) (small : i < k) :
    written slot pos obj msgs k (slot pos i) = x := by
  induction k with
  | zero => exact absurd small (Nat.not_lt_zero _)
  | succ k ih =>
      by_cases last : i = k
      · subst last
        rw [written_succ pos msgs here, Function.update_self]
      · have before := ih (fun a b less below => apart a b less (by omega)) (by omega)
        rw [written]
        cases obj[k]? with
        | none => exact before
        | some y =>
            exact (Function.update_of_ne (apart i k (by omega) (by omega)) ..).trans before

variable {count : Nat} {q q' : GpRing α} {n : Nat} {ret : Int}

/-- What a push does that returns. -/
theorem gpRingPush_ok (pushed : q.gpRingPush n obj = .ok (q', ret)) :
    (q.pushed n = 0 ∧ q' = q ∧ ret = 0) ∨
      q.pushed n ≠ 0 ∧
        ∃ msgs, pushCopy q.msgs q.size (q.head.first &&& q.mask) (q.pushed n) obj = .ok msgs ∧
        q' = { q with head := ⟨uint32 (q.head.first + q.pushed n),
                 uint32 (q.head.first + q.pushed n)⟩, msgs := msgs } ∧
        ret = int32 (q.pushed n) := by
  unfold GpRing.gpRingPush at pushed
  change (if q.pushed n = 0 then _ else _) = _ at pushed
  split at pushed
  · next none =>
      cases pushed
      exact .inl ⟨none, rfl, rfl⟩
  · next some =>
    change (pushCopy q.msgs q.size (q.head.first &&& q.mask) (q.pushed n) obj >>= _) = _ at pushed
    cases copied : pushCopy q.msgs q.size (q.head.first &&& q.mask) (q.pushed n) obj with
    | error fault =>
        rw [copied] at pushed
        cases pushed
    | ok msgs =>
        rw [copied] at pushed
        change (if _ then _ else _) = _ at pushed
        split at pushed
        · cases pushed
        · cases pushed
          exact .inr ⟨some, msgs, rfl, rfl, rfl⟩

theorem gpRingPop_ok {out : List α} (popped : q.gpRingPop n obj = .ok (q', out, ret)) :
    (q.taken n = 0 ∧ q' = q ∧ out = obj ∧ ret = 0) ∨
      q.taken n ≠ 0 ∧ popCopy q.msgs q.size (q.tail.first &&& q.mask) (q.taken n) obj = .ok out ∧
        q' = { q with tail := ⟨uint32 (q.tail.first + q.taken n),
                 uint32 (q.tail.first + q.taken n)⟩ } ∧
        ret = int32 (q.taken n) := by
  unfold GpRing.gpRingPop at popped
  change (if q.taken n = 0 then _ else _) = _ at popped
  split at popped
  · next none =>
      cases popped
      exact .inl ⟨none, rfl, rfl, rfl⟩
  · next some =>
    change (popCopy q.msgs q.size (q.tail.first &&& q.mask) (q.taken n) obj >>= _) = _ at popped
    cases copied : popCopy q.msgs q.size (q.tail.first &&& q.mask) (q.taken n) obj with
    | error fault =>
        rw [copied] at popped
        cases popped
    | ok out' =>
        rw [copied] at popped
        change (if _ then _ else _) = _ at popped
        split at popped
        · cases popped
        · cases popped
          exact .inr ⟨some, rfl, rfl, rfl⟩

/-- The ring of the functions between two calls, and the one of the protocol. -/
structure Mirrors {Thread : Type*} (count : Nat) (q : GpRing α) (s : RingContents Thread α) :
    Prop where
  between : Between count q
  idle : ∀ t, s.ring.pushing t = .idle ∧ s.ring.popping t = .idle
  headRest : s.ring.head.second = s.ring.head.first
  tailRest : s.ring.tail.second = s.ring.tail.first
  head : q.head.first = uint32 s.ring.head.first
  tail : q.tail.first = uint32 s.ring.tail.first
  ordered : s.ring.tail.first ≤ s.ring.head.first
  room : s.ring.head.first ≤ s.ring.tail.first + count
  msgs : ∀ j < count, q.msgs[j]? = some (s.msgs j)

variable {Thread : Type*} {s : RingContents Thread α}

/-- The slots of a batch of at most `size`. -/
theorem slot_apart (h : Between count q) (fits : q.size = count) (some : 1 ≤ count) {a b : Nat}
    (less : a < b) (below : b < count) : q.slot pos a ≠ q.slot pos b := by
  have start := h.start_le (uint32 pos)
  unfold GpRing.slot
  rw [fits] at start ⊢
  rw [wrap_index (by omega) (by omega), wrap_index (by omega) below]
  split <;> split <;> omega

theorem Mirrors.pushed (h : Mirrors count q s) (narrow : count < 2 ^ 31) (int : n < 2 ^ 31) :
    grant n (count + s.ring.tail.second - s.ring.head.first) = q.pushed n := by
  have ordered := h.ordered
  have room := h.room
  unfold GpRing.pushed grant
  rw [h.between.capacity, h.between.tail, h.head, h.tail, h.tailRest]
  unfold uint32
  split <;> omega

theorem Mirrors.taken (h : Mirrors count q s) (narrow : count < 2 ^ 31) (int : n < 2 ^ 31) :
    grant n (s.ring.head.second - s.ring.tail.first) = q.taken n := by
  have ordered := h.ordered
  have room := h.room
  unfold GpRing.taken grant
  rw [h.between.head, h.head, h.tail, h.headRest]
  unfold uint32
  split <;> omega

/-- A batch in its slots. -/
theorem Mirrors.placed (h : Mirrors count q s) (fits : q.size = count) {k : Nat}
    {msgs : List α} (some : 1 ≤ count) (few : k ≤ count) (batch : k ≤ obj.length)
    (placed : Placed q.size (q.head.first &&& q.mask) k obj q.msgs msgs) :
    ∀ j < count, msgs[j]? = .some (written q.slot s.ring.head.first obj s.msgs k j) := by
  intro j small
  have slot : ∀ i, ((q.head.first &&& q.mask) + i) % q.size = q.slot s.ring.head.first i := by
    intro i
    rw [h.head]
    rfl
  by_cases hit : ∃ i < k, q.slot s.ring.head.first i = j
  · obtain ⟨i, inside, rfl⟩ := hit
    have here : obj[i]? = .some obj[i] := List.getElem?_eq_getElem (by omega)
    have put := placed.placed i inside
    rw [slot] at put
    rw [put, here, written_here here (fun a b less below => ?_) inside]
    exact slot_apart h.between fits some less (by omega)
  · have apart : ∀ i < k, q.slot s.ring.head.first i ≠ j := fun i inside same => hit ⟨i, inside, same⟩
    rw [placed.others j fun i inside => by rw [slot]; exact apart i inside, h.msgs j small,
      written_other apart]

variable [DecidableEq Thread] {moves : List (Thread × ContentsMove α)} {null : α}

/-- After a push of `k` objects. -/
theorem Mirrors.inPush (h : Mirrors count q s) {q' : GpRing α} (kept : Between count q')
    (same : q'.tail = q.tail) {k : Nat}
    (moved : q'.head.first = uint32 (s.ring.head.first + k))
    (fits : s.ring.head.first + k ≤ s.ring.tail.first + count) {msgs : Nat → α}
    (slots : ∀ j < count, q'.msgs[j]? = some (msgs j)) (t : Thread) (obj accepted : List α)
    (c : Nat) :
    Mirrors count q' (inPush s t obj ⟨s.ring.head.first + k, s.ring.head.first + k⟩ .idle msgs c
      accepted) := by
  have ordered := h.ordered
  refine ⟨kept, fun u => ?_, rfl, h.tailRest, moved, ?_, ?_, fits, slots⟩
  · refine ⟨?_, (h.idle u).2⟩
    by_cases mine : u = t
    · subst mine
      exact inPush_phase ..
    · exact (Function.update_of_ne mine ..).trans (h.idle u).1
  · rw [same]
    exact h.tail
  · show s.ring.tail.first ≤ s.ring.head.first + k
    omega

theorem Mirrors.inPop (h : Mirrors count q s) {q' : GpRing α} (kept : Between count q')
    (same : q'.head = q.head) (slots : q'.msgs = q.msgs) {k : Nat}
    (moved : q'.tail.first = uint32 (s.ring.tail.first + k))
    (stored : s.ring.tail.first + k ≤ s.ring.head.first) (t : Thread) (out delivered : List α) :
    Mirrors count q' (inPop s t ⟨s.ring.tail.first + k, s.ring.tail.first + k⟩ .idle out
      delivered) := by
  have room := h.room
  refine ⟨kept, fun u => ?_, h.headRest, rfl, ?_, moved, stored, ?_, ?_⟩
  · refine ⟨(h.idle u).1, ?_⟩
    by_cases mine : u = t
    · subst mine
      exact inPop_phase ..
    · exact (Function.update_of_ne mine ..).trans (h.idle u).2
  · rw [same]
    exact h.head
  · show s.ring.head.first ≤ s.ring.tail.first + k + count
    omega
  · rw [slots]
    exact h.msgs

/-- A push of the functions, by any thread of the protocol. -/
theorem Mirrors.push (h : Mirrors count q s) (narrow : count < 2 ^ 31)
    (fits : gpAlign32pow2 (count + 1) = count) (batch : Batch n obj)
    (pushed : q.gpRingPush n obj = .ok (q', ret)) (t : Thread)
    (run : (contentsSys Thread count q.slot null).Run moves s) :
    ∃ moves' s', (contentsSys Thread count q.slot null).Run moves' s' ∧ Mirrors count q' s' ∧
      q'.slot = q.slot ∧ s'.accepted = s.accepted ++ obj.take ret.toNat ∧
      s'.delivered = s.delivered := by
  have bound := h.between.pushed_le n narrow
  have int := batch.int
  have granted := h.pushed narrow int
  have size : q.size = count := h.between.size.trans fits
  have fewer : q.pushed n ≤ n := by
    unfold GpRing.pushed uint32
    omega
  have room : q.Room (.push n obj) := fewer.trans batch.room
  obtain ⟨q₁, ran, kept⟩ := h.between.exec narrow fits room
  have exec : q.exec (.push n obj) = .ok q' := by
    show (q.gpRingPush n obj >>= _) = _
    rw [pushed]
    rfl
  obtain rfl : q₁ = q' := Except.ok.inj (ran.symm.trans exec)
  have rest : s.ring.head = ⟨s.ring.head.first, s.ring.head.first⟩ :=
    congrArg (Lane.mk s.ring.head.first) h.headRest
  have given : (n : Int) ≤ obj.length := Int.ofNat_le.mpr batch.room
  obtain ⟨moves', run'⟩ :=
    solo_push run (h.idle t).1 (h.idle t).2 rest (Int.natCast_nonneg n) given granted
  have below : s.ring.head.first + q.pushed n ≤ s.ring.tail.first + count := by
    have least : grant n (count + s.ring.tail.second - s.ring.head.first) ≤
        count + s.ring.tail.second - s.ring.head.first ∨ n = 0 := by
      unfold grant
      omega
    have rest' := h.tailRest
    have pos := batch.pos
    omega
  obtain ⟨none, same, returned⟩ | ⟨some, msgs, copied, same, returned⟩ := gpRingPush_ok pushed
  · rw [none] at run' below
    subst same returned
    refine ⟨_, _, run', h.inPush kept rfl ?_ below h.msgs t obj _ _, rfl, rfl, rfl⟩
    rw [Nat.cast_zero, add_zero]
    exact h.head
  · have start := h.between.start_le q.head.first
    have slots : q.size ≤ q.msgs.length := by rw [h.between.slots, size]
    have inside : q.head.first &&& q.mask < q.size := by omega
    obtain ⟨ring', copied', placed⟩ := pushCopy_placed slots inside
      (show q.pushed n ≤ q.size by omega) room (by omega)
    obtain rfl : ring' = msgs := Except.ok.inj (copied'.symm.trans copied)
    have moved : uint32 (q.head.first + q.pushed n) =
        uint32 (s.ring.head.first + q.pushed n) := by
      rw [h.head]
      unfold uint32
      omega
    have back : ret.toNat = q.pushed n := by
      rw [returned, int32_of_range (by omega) (by omega), Int.toNat_natCast]
    have slots' := h.placed size (by omega) (by omega) room placed
    rw [back]
    subst same
    exact ⟨_, _, run', h.inPush kept rfl moved below slots' t obj _ _, rfl, rfl, rfl⟩

theorem Mirrors.pop (h : Mirrors count q s) (narrow : count < 2 ^ 31)
    (fits : gpAlign32pow2 (count + 1) = count) (batch : Batch n obj) {out : List α}
    (popped : q.gpRingPop n obj = .ok (q', out, ret)) (t : Thread)
    (run : (contentsSys Thread count q.slot null).Run moves s) :
    ∃ moves' s', (contentsSys Thread count q.slot null).Run moves' s' ∧ Mirrors count q' s' ∧
      q'.slot = q.slot ∧ s'.accepted = s.accepted ∧
      s'.delivered = s.delivered ++ out.take ret.toNat := by
  have bound := h.between.taken_le n
  have stored := h.between.stored
  have int := batch.int
  have granted := h.taken narrow int
  have size : q.size = count := h.between.size.trans fits
  have fewer : q.taken n ≤ n := by
    unfold GpRing.taken uint32
    omega
  have room : q.Room (.pop n obj) := fewer.trans batch.room
  obtain ⟨q₁, ran, kept⟩ := h.between.exec narrow fits room
  have exec : q.exec (.pop n obj) = .ok q' := by
    show (q.gpRingPop n obj >>= _) = _
    rw [popped]
    rfl
  obtain rfl : q₁ = q' := Except.ok.inj (ran.symm.trans exec)
  have rest : s.ring.tail = ⟨s.ring.tail.first, s.ring.tail.first⟩ :=
    congrArg (Lane.mk s.ring.tail.first) h.tailRest
  obtain ⟨moves', run'⟩ := solo_pop run (h.idle t).1 (h.idle t).2 rest granted
  have below : s.ring.tail.first + q.taken n ≤ s.ring.head.first := by
    have least : grant n (s.ring.head.second - s.ring.tail.first) ≤
        s.ring.head.second - s.ring.tail.first ∨ n = 0 := by
      unfold grant
      omega
    have rest' := h.headRest
    have pos := batch.pos
    omega
  obtain ⟨none, same, _, returned⟩ | ⟨some, copied, same, returned⟩ := gpRingPop_ok popped
  · rw [none] at run' below
    have moved : q.tail.first = uint32 (s.ring.tail.first + (0 : Nat)) := by
      rw [Nat.cast_zero, add_zero]
      exact h.tail
    subst same returned
    exact ⟨_, _, run', h.inPop kept rfl rfl moved below t _ _, rfl, rfl, rfl⟩
  · have start := h.between.start_le q.tail.first
    have slots : q.size ≤ q.msgs.length := by rw [h.between.slots, size]
    have inside : q.tail.first &&& q.mask < q.size := by omega
    obtain ⟨out', copied', taken, _⟩ := popCopy_taken slots inside
      (show q.taken n ≤ q.size by omega) room (by omega)
    obtain rfl : out' = out := Except.ok.inj (copied'.symm.trans copied)
    have moved : uint32 (q.tail.first + q.taken n) =
        uint32 (s.ring.tail.first + q.taken n) := by
      rw [h.tail]
      unfold uint32
      omega
    have back : ret.toNat = q.taken n := by
      rw [returned, int32_of_range (by omega) (by omega), Int.toNat_natCast]
    -- the objects come from the slots of the protocol
    have objects : out'.take (q.taken n) =
        (List.range (q.taken n)).map fun i => s.msgs (q.slot s.ring.tail.first i) := by
      apply List.ext_getElem?
      intro i
      by_cases small : i < q.taken n
      · have below : q.slot s.ring.tail.first i < count := by
          unfold GpRing.slot
          rw [← size]
          exact Nat.mod_lt _ (by omega)
        have slot : ((q.tail.first &&& q.mask) + i) % q.size = q.slot s.ring.tail.first i := by
          rw [h.tail]
          rfl
        rw [List.getElem?_take_of_lt small, taken i small, slot, h.msgs _ below,
          List.getElem?_map, List.getElem?_range small]
        rfl
      · rw [List.getElem?_take_eq_none (by omega), List.getElem?_eq_none]
        rw [List.length_map, List.length_range]
        omega
    rw [back, objects]
    subst same
    exact ⟨_, _, run', h.inPop kept rfl rfl moved below t _ _, rfl, rfl, rfl⟩

end Mirror

/-! ## Whole runs -/

section Runs

variable {Thread α : Type*} [DecidableEq Thread] {count : Nat} {q : GpRing α}

omit [DecidableEq Thread] in
theorem Mirrors.create (null : α) (count : Nat) :
    Mirrors count (createGpRing null count)
      (⟨⟨⟨0, 0⟩, ⟨0, 0⟩, fun _ => .idle, fun _ => .idle⟩, fun _ => null, fun _ => [],
        fun _ => 0, fun _ => [], [], []⟩ : RingContents Thread α) := by
  refine ⟨between_create null count, fun _ => ⟨rfl, rfl⟩, rfl, rfl, rfl, rfl, le_refl _, ?_, ?_⟩
  · show (0 : Int) ≤ 0 + count
    omega
  · intro j small
    exact List.getElem?_replicate_of_lt small

/-- **The functions are the protocol, call by call.** On a ring that `create_gp_ring` makes
with a count that is all ones, take any calls of `gp_ring_push` and `gp_ring_pop`, one after
the other. There is a run of the atomic steps, whichever threads make the calls, in which
pushes accept and pops return the same objects, and it ends in the same ring. -/
theorem calls_are_runs (null : α) (ones : ∃ k, count + 1 = 2 ^ k) (narrow : count < 2 ^ 31)
    {events : List (RingEvent α)} (run : (ringSys null count).Run events q)
    (caller : Nat → Thread) :
    ∃ moves s, (contentsSys Thread count (createGpRing null count).slot null).Run moves s ∧
      Mirrors count q s ∧ s.accepted = accepted events ∧ s.delivered = popped events := by
  have fits : gpAlign32pow2 (count + 1) = count := by
    obtain rfl | pos := Nat.eq_zero_or_pos count
    · rfl
    · exact (size_eq_count pos narrow).mpr ones
  have mirrored : ∃ moves s,
      (contentsSys Thread count (createGpRing null count).slot null).Run moves s ∧
      Mirrors count q s ∧ q.slot = (createGpRing null count).slot ∧
      s.accepted = accepted events ∧ s.delivered = popped events := by
    induction run with
    | init fresh =>
        cases fresh
        exact ⟨_, _, .init rfl, .create null count, rfl, rfl, rfl⟩
    | @step events q q' ev _ stepped ih =>
        obtain ⟨moves, s, run, mirrors, slot, same, same'⟩ := ih
        rw [← slot] at run
        unfold accepted at same ⊢
        unfold popped at same' ⊢
        rw [List.flatMap_append, List.flatMap_append, List.flatMap_singleton,
          List.flatMap_singleton, ← same, ← same']
        cases ev with
        | push n obj ret =>
            obtain ⟨batch, pushed⟩ := stepped
            obtain ⟨moves', s', run', mirrors', slot', more, none⟩ :=
              mirrors.push narrow fits batch pushed (caller events.length) run
            rw [slot] at run' slot'
            refine ⟨moves', s', run', mirrors', slot', more, ?_⟩
            rw [none, List.append_nil]
        | pop n obj out ret =>
            obtain ⟨batch, popped⟩ := stepped
            obtain ⟨moves', s', run', mirrors', slot', none, more⟩ :=
              mirrors.pop narrow fits batch popped (caller events.length) run
            rw [slot] at run' slot'
            refine ⟨moves', s', run', mirrors', slot', ?_, more⟩
            rw [none, List.append_nil]
  obtain ⟨moves, s, run, mirrors, _, same⟩ := mirrored
  exact ⟨moves, s, run, mirrors, same⟩

/-- A ring of three objects, the calls made by two threads in turn. -/
theorem calls_are_runs_three :
    ∃ moves s, (contentsSys Bool 3 (createGpRing 0 3).slot (0 : Nat)).Run moves s ∧
      s.accepted = [7, 8] ∧ s.delivered = [7] := by
  let full : GpRing Nat := { createGpRing 0 3 with head := ⟨2, 2⟩, msgs := [7, 8, 0] }
  let less : GpRing Nat := { full with tail := ⟨1, 1⟩ }
  have batch : Batch 2 [7, 8] := ⟨by decide, by decide, by decide⟩
  have room : Batch 1 [0] := ⟨by decide, by decide, by decide⟩
  have pushed : (createGpRing 0 3).gpRingPush (2 : Nat) [7, 8] = .ok (full, 2) := by decide +kernel
  have popped : full.gpRingPop (1 : Nat) [0] = .ok (less, [7], 1) := by decide +kernel
  have run₀ : (ringSys 0 3).Run [] (createGpRing 0 3) := .init rfl
  have run₁ : (ringSys 0 3).Run [.push 2 [7, 8] 2] full := .step run₀ ⟨batch, pushed⟩
  have run₂ : (ringSys 0 3).Run [.push 2 [7, 8] 2, .pop 1 [0] [7] 1] less :=
    .step run₁ ⟨room, popped⟩
  obtain ⟨moves, s, run, _, accepted, delivered⟩ :=
    calls_are_runs (0 : Nat) ⟨2, rfl⟩ (by decide) run₂ fun i => i % 2 == 0
  exact ⟨moves, s, run, accepted, delivered⟩

end Runs

end GpBase.Ring

import GpBase.Ring.Copy
import GpBase.Ring.Protocol

/-!
# What the threads put into the ring

The protocol of `Ring.Protocol` with the objects: between reserving and waiting for its turn a
push copies its objects into `msgs` one by one, and a pop copies them out. Any number of
threads do this at once. Where two indices of the counters that are less than `capacity` apart
have different slots, pops hand out what pushes were given, in the order of the reservations,
each object once.
-/

namespace GpBase.Ring

open GpBase.Lib

/-- The ring with its slots. A push under way has its `obj`, of which `copied` are in the
slots, and a pop has what it has copied `out`. `accepted` are the objects of the reservations
made by pushes, and `delivered` those that pops have returned, in the order in which they
published. -/
structure RingContents (Thread α : Type*) where
  ring : RingState Thread
  msgs : Nat → α
  obj : Thread → List α
  copied : Thread → Nat
  out : Thread → List α
  accepted : List α
  delivered : List α

inductive ContentsMove (α : Type*)
  | callPush (n : Int) (obj : List α)
  | callPop (n : Int)
  | stepPush
  | stepPop
  | copyIn
  | copyOut

section System

variable {Thread α : Type*} [DecidableEq Thread]

/-- The steps of `RingStep` and the copies; `slot pos i` is where object `i` of a reservation
from `pos` on goes. A thread waits for its turn when it has copied all. -/
inductive ContentsStep (capacity : Nat) (slot : Int → Nat → Nat) :
    RingContents Thread α → Thread × ContentsMove α → RingContents Thread α → Prop
  | callPush {s : RingContents Thread α} {t : Thread} {n : Int} {obj : List α}
      {ring : RingState Thread} : 0 ≤ n → n ≤ obj.length →
      RingStep capacity s.ring (t, .callPush n) ring →
      ContentsStep capacity slot s (t, .callPush n obj)
        { s with ring := ring, obj := Function.update s.obj t obj
                 copied := Function.update s.copied t 0 }
  | callPop {s : RingContents Thread α} {t : Thread} {n : Int} {ring : RingState Thread} :
      RingStep capacity s.ring (t, .callPop n) ring →
      ContentsStep capacity slot s (t, .callPop n)
        { s with ring := ring, out := Function.update s.out t [] }
  | stepPush {s : RingContents Thread α} {t : Thread} {ring : RingState Thread} :
      RingStep capacity s.ring (t, .stepPush) ring →
      (∀ pos next, s.ring.pushing t = .reserved pos next → (s.copied t : Int) = next - pos) →
      ContentsStep capacity slot s (t, .stepPush)
        { s with
          ring := ring
          accepted := s.accepted ++ (s.obj t).take (ring.head.first - s.ring.head.first).toNat }
  | stepPop {s : RingContents Thread α} {t : Thread} {ring : RingState Thread} :
      RingStep capacity s.ring (t, .stepPop) ring →
      (∀ pos next, s.ring.popping t = .reserved pos next →
        ((s.out t).length : Int) = next - pos) →
      ContentsStep capacity slot s (t, .stepPop)
        { s with
          ring := ring
          delivered := s.delivered ++
            (s.out t).take (ring.tail.second - s.ring.tail.second).toNat }
  | copyIn {s : RingContents Thread α} {t : Thread} {pos next : Int} {x : α} :
      s.ring.pushing t = .reserved pos next → s.copied t < next - pos →
      (s.obj t)[s.copied t]? = some x →
      ContentsStep capacity slot s (t, .copyIn)
        { s with msgs := Function.update s.msgs (slot pos (s.copied t)) x
                 copied := Function.update s.copied t (s.copied t + 1) }
  | copyOut {s : RingContents Thread α} {t : Thread} {pos next : Int} :
      s.ring.popping t = .reserved pos next → (s.out t).length < next - pos →
      ContentsStep capacity slot s (t, .copyOut)
        { s with out := Function.update s.out t
                   (s.out t ++ [s.msgs (slot pos (s.out t).length)]) }

variable (Thread) in
/-- A fresh ring of `capacity` objects, used by any threads. -/
def contentsSys (capacity : Nat) (slot : Int → Nat → Nat) (null : α) :
    TSys (RingContents Thread α) (Thread × ContentsMove α) where
  init s := s = ⟨⟨⟨0, 0⟩, ⟨0, 0⟩, fun _ => .idle, fun _ => .idle⟩, fun _ => null, fun _ => [],
    fun _ => 0, fun _ => [], [], []⟩
  step := ContentsStep capacity slot

end System

/-- The slot of `gp_ring_push` and `gp_ring_pop`: they start at `head & mask`, and go on from 0
behind the last one. -/
def GpRing.slot {α : Type*} (q : GpRing α) (pos : Int) (i : Nat) : Nat :=
  ((uint32 pos &&& q.mask) + i) % q.size

/-- Slots for the indices of the counters, of which `capacity` in a row are different. -/
structure Coherent (capacity : Nat) (slot : Int → Nat → Nat) : Prop where
  shift : ∀ pos i, slot pos i = slot (pos + i) 0
  apart : ∀ x y : Int, x < y → y < x + capacity → slot x 0 ≠ slot y 0

/-- Two indices of a window have different slots. -/
theorem Coherent.ne {capacity : Nat} {slot : Int → Nat → Nat} (coherent : Coherent capacity slot)
    {lo x y : Int} (left : lo ≤ x ∧ x < lo + capacity) (right : lo ≤ y ∧ y < lo + capacity)
    (differ : x ≠ y) : slot x 0 ≠ slot y 0 := by
  rcases lt_or_gt_of_ne differ with less | more
  · exact coherent.apart x y less (by omega)
  · exact (coherent.apart y x more (by omega)).symm

/-! ## The invariant -/

section Invariant

variable {Thread α : Type*} {capacity : Nat} {slot : Int → Nat → Nat}
  {s s' : RingContents Thread α} {t : Thread} {r : Reservation}

/-- The slots of a push that are written hold what was accepted. -/
structure Copying (slot : Int → Nat → Nat) (s : RingContents Thread α) (t : Thread)
    (pos next : Int) : Prop where
  source : ∀ i : Nat, i < next - pos → s.accepted[(pos + i).toNat]? = (s.obj t)[i]?
  within : s.copied t ≤ next - pos
  written : ∀ i < s.copied t, s.accepted[(pos + i).toNat]? = some (s.msgs (slot (pos + i) 0))

/-- What a thread knows of its push: it asks for no more objects than it was given. -/
def PushKnown (slot : Int → Nat → Nat) (s : RingContents Thread α) (t : Thread) :
    Reservation → Prop
  | .idle => True
  | .begin max | .read max _ => 0 ≤ max ∧ max ≤ (s.obj t).length ∧ s.copied t = 0
  | .sized max _ n => 0 ≤ max ∧ max ≤ (s.obj t).length ∧ n ≤ max ∧ s.copied t = 0
  | .reserved pos next => Copying slot s t pos next
  | .waiting pos next | .turn pos next => Copying slot s t pos next ∧ s.copied t = next - pos

/-- What a thread knows of its pop. -/
def PopKnown (s : RingContents Thread α) (t : Thread) : Reservation → Prop
  | .idle => True
  | .begin _ | .read _ _ | .sized _ _ _ => s.out t = []
  | .reserved pos next => (s.out t).length ≤ next - pos ∧
      s.out t = (s.accepted.drop pos.toNat).take (s.out t).length
  | .waiting pos next | .turn pos next => (s.out t).length = next - pos ∧
      s.out t = (s.accepted.drop pos.toNat).take (s.out t).length

/-- The slots and the copies agree with what was accepted. -/
structure Truthful (capacity : Nat) (slot : Int → Nat → Nat) (s : RingContents Thread α) :
    Prop where
  ring : RingInv capacity s.ring
  low : 0 ≤ s.ring.tail.second
  length : (s.accepted.length : Int) = s.ring.head.first
  push : ∀ t, PushKnown slot s t (s.ring.pushing t)
  pop : ∀ t, PopKnown s t (s.ring.popping t)
  published : ∀ x, s.ring.tail.second ≤ x → x < s.ring.head.second →
    s.accepted[x.toNat]? = some (s.msgs (slot x 0))
  delivered : s.delivered = s.accepted.take s.ring.tail.second.toNat

/-- What is known of a push depends on its objects and its interval. -/
theorem PushKnown.frame (known : PushKnown slot s t r) (obj : s'.obj t = s.obj t)
    (copied : s'.copied t = s.copied t)
    (agree : ∀ pos next, r.held = some (pos, next) → ∀ x, pos ≤ x → x < next →
      s'.accepted[x.toNat]? = s.accepted[x.toNat]? ∧
        s'.msgs (slot x 0) = s.msgs (slot x 0)) : PushKnown slot s' t r := by
  have copying : ∀ pos next, r.held = some (pos, next) → Copying slot s t pos next →
      Copying slot s' t pos next := by
    intro pos next held h
    have within := h.within
    refine ⟨fun i small => ?_, by rw [copied]; exact within, fun i small => ?_⟩
    · rw [(agree pos next held _ (by omega) (by omega)).1, obj]
      exact h.source i small
    · rw [copied] at small
      obtain ⟨accepted, msgs⟩ := agree pos next held (pos + i) (by omega) (by omega)
      rw [accepted, msgs]
      exact h.written i small
  cases r with
  | idle => trivial
  | begin max => rwa [PushKnown, obj, copied]
  | read max pos => rwa [PushKnown, obj, copied]
  | sized max pos n => rwa [PushKnown, obj, copied]
  | reserved pos next => exact copying pos next rfl known
  | waiting pos next => exact ⟨copying pos next rfl known.1, by rw [copied]; exact known.2⟩
  | turn pos next => exact ⟨copying pos next rfl known.1, by rw [copied]; exact known.2⟩

/-- The counters do not matter. -/
theorem PushKnown.same (known : PushKnown slot s t r) (obj : s'.obj t = s.obj t)
    (copied : s'.copied t = s.copied t) (accepted : s'.accepted = s.accepted)
    (msgs : s'.msgs = s.msgs) : PushKnown slot s' t r := by
  refine known.frame obj copied fun pos next _ x _ _ => ⟨?_, ?_⟩
  · rw [accepted]
  · rw [msgs]

/-- More is accepted. -/
theorem PopKnown.frame (known : PopKnown s t r) (out : s'.out t = s.out t) {extra : List α}
    (accepted : s'.accepted = s.accepted ++ extra)
    (inside : ∀ pos next, r.held = some (pos, next) → 0 ≤ pos ∧ next ≤ s.accepted.length) :
    PopKnown s' t r := by
  have same : ∀ pos next, r.held = some (pos, next) → (s.out t).length ≤ next - pos →
      (s'.accepted.drop pos.toNat).take (s.out t).length =
        (s.accepted.drop pos.toNat).take (s.out t).length := by
    intro pos next held few
    obtain ⟨low, high⟩ := inside pos next held
    rw [accepted, List.drop_append_of_le_length (by omega),
      List.take_append_of_le_length (by rw [List.length_drop]; omega)]
  cases r with
  | idle => trivial
  | begin max => rwa [PopKnown, out]
  | read max pos => rwa [PopKnown, out]
  | sized max pos n => rwa [PopKnown, out]
  | reserved pos next =>
      rw [PopKnown, out, same pos next rfl known.1]
      exact known
  | waiting pos next =>
      rw [PopKnown, out, same pos next rfl known.1.le]
      exact known
  | turn pos next =>
      rw [PopKnown, out, same pos next rfl known.1.le]
      exact known

/-- The counters in order. -/
theorem Truthful.order (h : Truthful capacity slot s) :
    s.ring.tail.second ≤ s.ring.tail.first ∧ s.ring.tail.first ≤ s.ring.head.second ∧
      s.ring.head.second ≤ s.ring.head.first ∧
      s.ring.head.first ≤ s.ring.tail.second + capacity := by
  have room := h.ring.push.high
  exact ⟨h.ring.pop.low, h.ring.pop.high, h.ring.push.low, by omega⟩

/-- The interval of a push is not readable yet. -/
theorem Truthful.held_push (h : Truthful capacity slot s) {pos next : Int}
    (held : (s.ring.pushing t).held = some (pos, next)) :
    s.ring.head.second ≤ pos ∧ pos < next ∧ next ≤ s.ring.head.first :=
  (h.ring.push.known t).of_held held

/-- The interval of a pop is readable. -/
theorem Truthful.held_pop (h : Truthful capacity slot s) {pos next : Int}
    (held : (s.ring.popping t).held = some (pos, next)) :
    s.ring.tail.second ≤ pos ∧ pos < next ∧ next ≤ s.ring.tail.first :=
  (h.ring.pop.known t).of_held held

/-- Every pop stays inside of what was accepted. -/
theorem Truthful.pop_inside (h : Truthful capacity slot s) {pos next : Int}
    (held : (s.ring.popping t).held = some (pos, next)) :
    0 ≤ pos ∧ next ≤ s.accepted.length := by
  have low := h.low
  have length := h.length
  obtain ⟨_, order, order', _⟩ := h.order
  obtain ⟨left, _, right⟩ := h.held_pop held
  omega

end Invariant

/-! ## One step -/

section Steps

variable {Thread α : Type*} [DecidableEq Thread] {capacity : Nat} {slot : Int → Nat → Nat}
  {s s' : RingContents Thread α} {t : Thread} {r : Reservation}

/-- A push goes on and leaves its objects where they are. -/
theorem Truthful.rephasePush (h : Truthful capacity slot s)
    (ring : RingInv capacity { s.ring with pushing := Function.update s.ring.pushing t r })
    (known : PushKnown slot s t r) :
    Truthful capacity slot
      { s with ring := { s.ring with pushing := Function.update s.ring.pushing t r } } where
  ring := ring
  low := h.low
  length := h.length
  push u := by
    show PushKnown slot _ u (Function.update s.ring.pushing t r u)
    by_cases same : u = t
    · rw [same, Function.update_self]
      exact known.same rfl rfl rfl rfl
    · rw [Function.update_of_ne same]
      exact (h.push u).same rfl rfl rfl rfl
  pop := h.pop
  published := h.published
  delivered := h.delivered

/-- A pop goes on before it publishes. -/
theorem Truthful.rephasePop (h : Truthful capacity slot s) {tail : Lane}
    (second : tail.second = s.ring.tail.second)
    (ring : RingInv capacity
      { s.ring with tail := tail, popping := Function.update s.ring.popping t r })
    (known : PopKnown s t r) :
    Truthful capacity slot
      { s with
        ring := { s.ring with tail := tail, popping := Function.update s.ring.popping t r } } where
  ring := ring
  low := second ▸ h.low
  length := h.length
  push u := (h.push u).same rfl rfl rfl rfl
  pop u := by
    show PopKnown s u (Function.update s.ring.popping t r u)
    by_cases same : u = t
    · rw [same, Function.update_self]
      exact known
    · rw [Function.update_of_ne same]
      exact h.pop u
  published x left right := h.published x (second ▸ left) right
  delivered := second ▸ h.delivered

/-- The objects of a push are accepted when it has reserved their indices. -/
theorem Truthful.acceptPush (h : Truthful capacity slot s) {n : Int} {max : Int}
    (phase : s.ring.pushing t = .sized max s.ring.head.first n)
    (ring : RingInv capacity { s.ring with
      head := { s.ring.head with first := s.ring.head.first + n }
      pushing := Function.update s.ring.pushing t
        (.reserved s.ring.head.first (s.ring.head.first + n)) }) :
    Truthful capacity slot { s with
      ring := { s.ring with
        head := { s.ring.head with first := s.ring.head.first + n }
        pushing := Function.update s.ring.pushing t
          (.reserved s.ring.head.first (s.ring.head.first + n)) }
      accepted := s.accepted ++ (s.obj t).take n.toNat } := by
  have lane := h.ring.push.known t
  rw [phase] at lane
  obtain ⟨_, pos, _⟩ : _ ∧ 0 < n ∧ _ := lane
  have mine := h.push t
  rw [phase] at mine
  obtain ⟨_, given, few, fresh⟩ := mine
  have length := h.length
  have taken : ((s.obj t).take n.toNat).length = n.toNat := by
    rw [List.length_take]
    omega
  obtain ⟨_, order, order', _⟩ := h.order
  have old : ∀ x : Int, 0 ≤ x → x < s.ring.head.first →
      (s.accepted ++ (s.obj t).take n.toNat)[x.toNat]? = s.accepted[x.toNat]? := by
    intro x low high
    rw [List.getElem?_append_left (by omega)]
  have low := h.low
  refine ⟨ring, low, ?_, fun u => ?_, fun u => ?_, fun x left right => ?_, ?_⟩
  · show ((s.accepted ++ _).length : Int) = s.ring.head.first + n
    rw [List.length_append, taken]
    omega
  · show PushKnown slot _ u (Function.update s.ring.pushing t _ u)
    by_cases same : u = t
    · subst same
      rw [Function.update_self]
      refine ⟨fun i small => ?_, ?_, fun i small => ?_⟩
      · show (s.accepted ++ (s.obj u).take n.toNat)[(s.ring.head.first + i).toNat]? = _
        rw [List.getElem?_append_right (by omega),
          show (s.ring.head.first + i).toNat - s.accepted.length = i by omega,
          List.getElem?_take_of_lt (by omega)]
      · show (s.copied u : Int) ≤ _
        omega
      · have small : i < s.copied u := small
        omega
    · rw [Function.update_of_ne same]
      refine (h.push u).frame rfl rfl fun a b held x left right => ⟨?_, rfl⟩
      obtain ⟨low', _, high'⟩ := h.held_push held
      exact old x (by omega) (by omega)
  · exact (h.pop u).frame rfl rfl fun a b held => h.pop_inside held
  · show (s.accepted ++ _)[x.toNat]? = _
    have left : s.ring.tail.second ≤ x := left
    have right : x < s.ring.head.second := right
    rw [old x (by omega) (by omega)]
    exact h.published x left right
  · show s.delivered = (s.accepted ++ _).take s.ring.tail.second.toNat
    rw [h.delivered, List.take_append_of_le_length (by omega)]

/-- A push publishes slots that hold its objects. -/
theorem Truthful.publishPush (h : Truthful capacity slot s) {pos next : Int}
    (phase : s.ring.pushing t = .turn pos next)
    (ring : RingInv capacity { s.ring with
      head := { s.ring.head with second := next }
      pushing := Function.update s.ring.pushing t .idle }) :
    Truthful capacity slot { s with
      ring := { s.ring with
        head := { s.ring.head with second := next }
        pushing := Function.update s.ring.pushing t .idle } } := by
  have lane := h.ring.push.known t
  rw [phase] at lane
  obtain ⟨reached, _, _⟩ : s.ring.head.second = pos ∧ _ ∧ _ := lane
  have mine := h.push t
  rw [phase] at mine
  obtain ⟨copying, all⟩ := mine
  refine ⟨ring, h.low, h.length, fun u => ?_, h.pop, fun x left right => ?_, h.delivered⟩
  · show PushKnown slot _ u (Function.update s.ring.pushing t _ u)
    by_cases same : u = t
    · rw [same, Function.update_self]
      trivial
    · rw [Function.update_of_ne same]
      exact (h.push u).same rfl rfl rfl rfl
  · have left : s.ring.tail.second ≤ x := left
    have right : x < next := right
    by_cases old : x < s.ring.head.second
    · exact h.published x left old
    · have written := copying.written (x - pos).toNat (by omega)
      rwa [show pos + ((x - pos).toNat : Int) = x by omega] at written

/-- A pop returns what it has copied. -/
theorem Truthful.publishPop (h : Truthful capacity slot s) {pos next : Int}
    (phase : s.ring.popping t = .turn pos next)
    (ring : RingInv capacity { s.ring with
      tail := { s.ring.tail with second := next }
      popping := Function.update s.ring.popping t .idle }) :
    Truthful capacity slot { s with
      ring := { s.ring with
        tail := { s.ring.tail with second := next }
        popping := Function.update s.ring.popping t .idle }
      delivered := s.delivered ++ (s.out t).take (next - s.ring.tail.second).toNat } := by
  have lane := h.ring.pop.known t
  rw [phase] at lane
  obtain ⟨rfl, proper, _⟩ : s.ring.tail.second = pos ∧ s.ring.tail.second < next ∧ _ := by
    obtain ⟨reached, rest⟩ := lane
    exact ⟨reached, reached ▸ rest⟩
  have mine := h.pop t
  rw [phase] at mine
  obtain ⟨all, copied⟩ := mine
  have low := h.low
  refine ⟨ring, ?_, h.length, fun u => (h.push u).same rfl rfl rfl rfl, fun u => ?_,
    fun x left right => ?_, ?_⟩
  · show 0 ≤ next
    omega
  · show PopKnown s u (Function.update s.ring.popping t _ u)
    by_cases same : u = t
    · rw [same, Function.update_self]
      trivial
    · rw [Function.update_of_ne same]
      exact h.pop u
  · have left : next ≤ x := left
    exact h.published x (by omega) right
  · show s.delivered ++ _ = s.accepted.take next.toNat
    have whole : (s.out t).take (next - s.ring.tail.second).toNat = s.out t :=
      List.take_of_length_le (by omega)
    rw [whole, h.delivered, copied, ← List.take_add]
    congr 1
    omega

/-- One object goes to its slot; the slots that are read or written meanwhile are others. -/
theorem Truthful.copyIn (coherent : Coherent capacity slot) (h : Truthful capacity slot s)
    {pos next : Int} {x : α} (phase : s.ring.pushing t = .reserved pos next)
    (room : s.copied t < next - pos) (here : (s.obj t)[s.copied t]? = some x) :
    Truthful capacity slot
      { s with msgs := Function.update s.msgs (slot pos (s.copied t)) x
               copied := Function.update s.copied t (s.copied t + 1) } := by
  have held : (s.ring.pushing t).held = some (pos, next) := by
    rw [phase]
    rfl
  have copying : Copying slot s t pos next := by
    have mine := h.push t
    rwa [phase] at mine
  obtain ⟨left, _, right⟩ := h.held_push held
  obtain ⟨order, order', _, room'⟩ := h.order
  rw [coherent.shift]
  -- every other index in use has another slot
  have others : ∀ z, s.ring.tail.second ≤ z → z < s.ring.head.first → z ≠ pos + s.copied t →
      Function.update s.msgs (slot (pos + s.copied t) 0) x (slot z 0) = s.msgs (slot z 0) := by
    intro z low high differ
    have left : s.ring.tail.second ≤ z ∧ z < s.ring.tail.second + capacity := by omega
    have right : s.ring.tail.second ≤ pos + s.copied t
        ∧ pos + s.copied t < s.ring.tail.second + capacity := by omega
    exact Function.update_of_ne (coherent.ne left right differ) ..
  refine ⟨h.ring, h.low, h.length, fun u => ?_, h.pop, fun z low high => ?_, h.delivered⟩
  · by_cases same : u = t
    · subst same
      have known : Copying slot { s with
          msgs := Function.update s.msgs (slot (pos + s.copied u) 0) x
          copied := Function.update s.copied u (s.copied u + 1) } u pos next := by
        refine ⟨copying.source, ?_, fun i small => ?_⟩
        · show ((Function.update s.copied u (s.copied u + 1) u : Nat) : Int) ≤ _
          rw [Function.update_self]
          omega
        · have small : i < Function.update s.copied u (s.copied u + 1) u := small
          rw [Function.update_self] at small
          show s.accepted[(pos + i).toNat]? = some (Function.update s.msgs _ x (slot (pos + i) 0))
          by_cases last : i = s.copied u
          · rw [last, copying.source _ room, here, Function.update_self]
          · rw [others (pos + i) (by omega) (by omega) (by omega)]
            exact copying.written i (by omega)
      show PushKnown slot _ u (s.ring.pushing u)
      rw [phase]
      exact known
    · refine (h.push u).frame rfl (Function.update_of_ne same ..) fun a b held' z low high => ?_
      obtain ⟨left', _, right'⟩ := h.held_push held'
      refine ⟨rfl, others z (by omega) (by omega) ?_⟩
      rcases h.ring.push.apart t u pos next a b (Ne.symm same) held held' with before | behind
      · omega
      · omega
  · have low : s.ring.tail.second ≤ z := low
    have high : z < s.ring.head.second := high
    show s.accepted[z.toNat]? = some (Function.update s.msgs _ x (slot z 0))
    rw [others z low (by omega) (by omega)]
    exact h.published z low high

/-- One object is copied out of a slot that was published. -/
theorem Truthful.copyOut (coherent : Coherent capacity slot) (h : Truthful capacity slot s)
    {pos next : Int} (phase : s.ring.popping t = .reserved pos next)
    (room : (s.out t).length < next - pos) :
    Truthful capacity slot
      { s with
        out := Function.update s.out t
          (s.out t ++ [s.msgs (slot pos (s.out t).length)]) } := by
  have held : (s.ring.popping t).held = some (pos, next) := by
    rw [phase]
    rfl
  have mine := h.pop t
  rw [phase] at mine
  obtain ⟨few, copied⟩ := mine
  obtain ⟨left, _, right⟩ := h.held_pop held
  obtain ⟨order, order', _, _⟩ := h.order
  have low := h.low
  have here : s.accepted[pos.toNat + (s.out t).length]? =
      some (s.msgs (slot pos (s.out t).length)) := by
    rw [coherent.shift]
    have published := h.published (pos + (s.out t).length) (by omega) (by omega)
    rwa [show (pos + (s.out t).length).toNat = pos.toNat + (s.out t).length by omega] at published
  refine ⟨h.ring, h.low, h.length, fun u => (h.push u).same rfl rfl rfl rfl, fun u => ?_,
    h.published, h.delivered⟩
  show PopKnown _ u (s.ring.popping u)
  by_cases same : u = t
  · subst same
    have known : ∀ out, out = s.out u ++ [s.msgs (slot pos (s.out u).length)] →
        out.length ≤ next - pos ∧ out = (s.accepted.drop pos.toNat).take out.length := by
      intro out more
      have one : out.length = (s.out u).length + 1 := by simp [more]
      refine ⟨by omega, ?_⟩
      rw [one, List.take_add_one, List.getElem?_drop, here, ← copied, more]
      rfl
    rw [phase]
    exact known _ (Function.update_self ..)
  · have known := h.pop u
    unfold PopKnown at known ⊢
    dsimp only
    rw [Function.update_of_ne same]
    exact known

/-- A call of `gp_ring_push` begins. -/
theorem Truthful.callPush (h : Truthful capacity slot s) {n : Int} {obj : List α}
    (low : 0 ≤ n) (given : n ≤ obj.length)
    (ring : RingInv capacity
      { s.ring with pushing := Function.update s.ring.pushing t (.begin n) }) :
    Truthful capacity slot
      { s with
        ring := { s.ring with pushing := Function.update s.ring.pushing t (.begin n) }
        obj := Function.update s.obj t obj
        copied := Function.update s.copied t 0 } := by
  refine ⟨ring, h.low, h.length, fun u => ?_, h.pop, h.published, h.delivered⟩
  show PushKnown slot _ u (Function.update s.ring.pushing t _ u)
  by_cases same : u = t
  · subst same
    rw [Function.update_self]
    refine ⟨low, ?_, Function.update_self ..⟩
    show n ≤ (Function.update s.obj u obj u).length
    rw [Function.update_self]
    exact given
  · rw [Function.update_of_ne same]
    exact (h.push u).same (Function.update_of_ne same ..) (Function.update_of_ne same ..) rfl rfl

/-- A call of `gp_ring_pop` begins. -/
theorem Truthful.callPop (h : Truthful capacity slot s) {n : Int}
    (ring : RingInv capacity
      { s.ring with popping := Function.update s.ring.popping t (.begin n) }) :
    Truthful capacity slot
      { s with
        ring := { s.ring with popping := Function.update s.ring.popping t (.begin n) }
        out := Function.update s.out t [] } := by
  refine ⟨ring, h.low, h.length, fun u => (h.push u).same rfl rfl rfl rfl, fun u => ?_,
    h.published, h.delivered⟩
  show PopKnown _ u (Function.update s.ring.popping t _ u)
  by_cases same : u = t
  · subst same
    rw [Function.update_self]
    exact Function.update_self ..
  · rw [Function.update_of_ne same]
    have known := h.pop u
    unfold PopKnown at known ⊢
    dsimp only
    rw [Function.update_of_ne same]
    exact known

omit [DecidableEq Thread] in
theorem nothing_more (s : RingContents Thread α) (t : Thread) :
    s.accepted ++ (s.obj t).take (s.ring.head.first - s.ring.head.first).toNat = s.accepted ∧
      s.delivered ++ (s.out t).take (s.ring.tail.second - s.ring.tail.second).toNat =
        s.delivered := by
  rw [Int.sub_self, Int.sub_self]
  exact ⟨List.append_nil _, List.append_nil _⟩

/-- One atomic step of a push. -/
theorem Truthful.stepPush (h : Truthful capacity slot s) {head : Lane}
    (step : Reservation.Step (capacity + s.ring.tail.second) s.ring.head (s.ring.pushing t) head r)
    (all : ∀ pos next, s.ring.pushing t = .reserved pos next → (s.copied t : Int) = next - pos) :
    Truthful capacity slot
      { s with
        ring := { s.ring with head := head, pushing := Function.update s.ring.pushing t r }
        accepted := s.accepted ++ (s.obj t).take (head.first - s.ring.head.first).toNat } := by
  have ring := h.ring.step (.stepPush step)
  have mine := h.push t
  generalize phase : s.ring.pushing t = r₀ at step mine all
  cases step with
  | readFirst =>
      rw [(nothing_more s t).1]
      exact h.rephasePush ring mine
  | readLimit some =>
      rw [(nothing_more s t).1]
      obtain ⟨least, given, fresh⟩ := mine
      refine h.rephasePush ring ⟨least, given, ?_, fresh⟩
      simp only [Reservation.grant]
      split
      · omega
      · exact le_refl _
  | nothing _ =>
      rw [(nothing_more s t).1]
      exact h.rephasePush ring trivial
  | retry _ =>
      rw [(nothing_more s t).1]
      exact h.rephasePush ring ⟨mine.1, mine.2.1, mine.2.2.2⟩
  | use =>
      rw [(nothing_more s t).1]
      exact h.rephasePush ring ⟨mine, all _ _ rfl⟩
  | spin _ =>
      rw [(nothing_more s t).1]
      exact h.rephasePush ring mine
  | await _ =>
      rw [(nothing_more s t).1]
      exact h.rephasePush ring mine
  | swap unmoved =>
      subst unmoved
      dsimp only
      rw [add_sub_cancel_left]
      exact h.acceptPush phase ring
  | publish =>
      dsimp only
      rw [(nothing_more s t).1]
      exact h.publishPush phase ring

/-- One atomic step of a pop. -/
theorem Truthful.stepPop (h : Truthful capacity slot s) {tail : Lane}
    (step : Reservation.Step s.ring.head.second s.ring.tail (s.ring.popping t) tail r)
    (all : ∀ pos next, s.ring.popping t = .reserved pos next →
      ((s.out t).length : Int) = next - pos) :
    Truthful capacity slot
      { s with
        ring := { s.ring with tail := tail, popping := Function.update s.ring.popping t r }
        delivered := s.delivered ++
          (s.out t).take (tail.second - s.ring.tail.second).toNat } := by
  have ring := h.ring.step (.stepPop step)
  have mine := h.pop t
  generalize phase : s.ring.popping t = r₀ at step mine all
  cases step with
  | readFirst =>
      rw [(nothing_more s t).2]
      exact h.rephasePop rfl ring mine
  | readLimit _ =>
      rw [(nothing_more s t).2]
      exact h.rephasePop rfl ring mine
  | nothing _ =>
      rw [(nothing_more s t).2]
      exact h.rephasePop rfl ring trivial
  | retry _ =>
      rw [(nothing_more s t).2]
      exact h.rephasePop rfl ring mine
  | use =>
      rw [(nothing_more s t).2]
      exact h.rephasePop rfl ring ⟨all _ _ rfl, mine.2⟩
  | spin _ =>
      rw [(nothing_more s t).2]
      exact h.rephasePop rfl ring mine
  | await _ =>
      rw [(nothing_more s t).2]
      exact h.rephasePop rfl ring mine
  | swap unmoved =>
      dsimp only
      rw [(nothing_more s t).2]
      have lane := h.ring.pop.known t
      rw [phase] at lane
      obtain ⟨_, pos, _⟩ : _ ∧ 0 < _ ∧ _ := lane
      have fresh : s.out t = [] := mine
      refine h.rephasePop rfl ring ⟨?_, ?_⟩
      · rw [fresh, List.length_nil]
        omega
      · rw [fresh]
        rfl
  | publish => exact h.publishPop phase ring

theorem Truthful.step (coherent : Coherent capacity slot) (h : Truthful capacity slot s)
    {move : Thread × ContentsMove α} (step : ContentsStep capacity slot s move s') :
    Truthful capacity slot s' := by
  cases step with
  | callPush low given call =>
      have ring := h.ring.step call
      cases call with
      | callPush _ _ => exact h.callPush low given ring
  | callPop call =>
      have ring := h.ring.step call
      cases call with
      | callPop _ _ => exact h.callPop ring
  | stepPush step all =>
      cases step with
      | stepPush step => exact h.stepPush step all
  | stepPop step all =>
      cases step with
      | stepPop step => exact h.stepPop step all
  | copyIn phase room here => exact h.copyIn coherent phase room here
  | copyOut phase room => exact h.copyOut coherent phase room

end Steps

/-! ## Whole runs -/

section Runs

variable {Thread α : Type*} [DecidableEq Thread] {capacity : Nat} {slot : Int → Nat → Nat}
  {null : α} {moves : List (Thread × ContentsMove α)} {s : RingContents Thread α}

end Runs

end GpBase.Ring

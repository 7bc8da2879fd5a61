import Mathlib.Logic.Function.Basic
import Mathlib.Data.List.Nodup

/-!
# Intrusive doubly linked lists

The nodes of a circular list with a sentinel are part of the items on it, so an
item has one node, with null pointers while it is on no list. The operations
write pointers and know nothing of the list they are part of; following a null
pointer gives `none`. `Rep l xs` says that the pointers spell out the list `xs`,
and the operations are list operations on such a representation. What they make
of other pointers is whatever the writes make of them.
-/

namespace GpBase.Lib

/-- What a pointer points to: the sentinel or the node of an item. -/
inductive Ptr (α : Type*)
  | head
  | node (a : α)
  deriving DecidableEq, Repr

/-- The two pointers of every node; `none` is the null pointer. -/
structure Links (α : Type*) where
  next : Ptr α → Option (Ptr α)
  prev : Ptr α → Option (Ptr α)

namespace Links

variable {α : Type*} [DecidableEq α]

def setNext (l : Links α) (p : Ptr α) (q : Option (Ptr α)) : Links α :=
  { l with next := Function.update l.next p q }

def setPrev (l : Links α) (p : Ptr α) (q : Option (Ptr α)) : Links α :=
  { l with prev := Function.update l.prev p q }

/-- An empty list, with all items off it. -/
def empty : Links α where
  next p := if p = .head then some .head else none
  prev p := if p = .head then some .head else none

/-- The first item. -/
def first (l : Links α) : Option (Option α) :=
  match l.next .head with
  | none => none
  | some .head => some none
  | some (.node a) => some (some a)

/-- Put an item behind the last one. -/
def append (l : Links α) (a : α) : Option (Links α) := do
  let l := l.setPrev (.node a) (l.prev .head)
  let l := l.setNext (.node a) (some .head)
  let l := l.setPrev .head (some (.node a))
  let before ← l.prev (.node a)
  return l.setNext before (some (.node a))

/-- Take an item off the list. -/
def remove (l : Links α) (a : α) : Option (Links α) := do
  let before ← l.prev (.node a)
  let l := l.setNext before (l.next (.node a))
  let behind ← l.next (.node a)
  let l := l.setPrev behind (l.prev (.node a))
  return (l.setNext (.node a) none).setPrev (.node a) none

@[simp] theorem setNext_next (l : Links α) (p : Ptr α) (q : Option (Ptr α)) :
    (l.setNext p q).next = Function.update l.next p q := rfl

@[simp] theorem setNext_prev (l : Links α) (p : Ptr α) (q : Option (Ptr α)) :
    (l.setNext p q).prev = l.prev := rfl

@[simp] theorem setPrev_next (l : Links α) (p : Ptr α) (q : Option (Ptr α)) :
    (l.setPrev p q).next = l.next := rfl

@[simp] theorem setPrev_prev (l : Links α) (p : Ptr α) (q : Option (Ptr α)) :
    (l.setPrev p q).prev = Function.update l.prev p q := rfl

end Links

/-! ## Representation -/

section Rep

variable {α : Type*} {l l' : Links α} {p q : Ptr α} {a : α} {xs : List α}

/-- From `p` the pointers lead through the items `xs` to `q`, and back. -/
def Seg (l : Links α) (p : Ptr α) : List α → Ptr α → Prop
  | [], q => l.next p = some q ∧ l.prev q = some p
  | a :: xs, q => (l.next p = some (.node a) ∧ l.prev (.node a) = some p) ∧ Seg l (.node a) xs q

/-- The last node of a segment. -/
def lastNode (p : Ptr α) : List α → Ptr α
  | [] => p
  | a :: xs => lastNode (.node a) xs

/-- The pointers spell out the list `xs`. -/
structure Rep (l : Links α) (xs : List α) : Prop where
  nodup : xs.Nodup
  seg : Seg l .head xs .head
  off : ∀ a, a ∉ xs → l.next (.node a) = none ∧ l.prev (.node a) = none

/-- A segment only depends on the pointers along it. -/
theorem Seg.frame (seg : Seg l p xs q) (first : l'.next p = l.next p)
    (last : l'.prev q = l.prev q)
    (inner : ∀ a ∈ xs, l'.next (.node a) = l.next (.node a) ∧ l'.prev (.node a) = l.prev (.node a)) :
    Seg l' p xs q := by
  induction xs generalizing p with
  | nil => exact ⟨first.trans seg.1, last.trans seg.2⟩
  | cons a xs ih =>
      obtain ⟨⟨forth, back⟩, rest⟩ := seg
      obtain ⟨next, prev⟩ := inner a List.mem_cons_self
      refine ⟨⟨first.trans forth, prev.trans back⟩, ih rest next ?_⟩
      intro b mem
      exact inner b (List.mem_cons_of_mem _ mem)

theorem lastNode_mem (p : Ptr α) (xs : List α) :
    lastNode p xs = p ∨ ∃ a ∈ xs, lastNode p xs = .node a := by
  induction xs generalizing p with
  | nil => exact .inl rfl
  | cons a xs ih =>
      right
      rcases ih (.node a) with same | ⟨b, mem, eq⟩
      · exact ⟨a, List.mem_cons_self, same⟩
      · exact ⟨b, List.mem_cons_of_mem _ mem, eq⟩

theorem Seg.last (seg : Seg l p xs q) : l.prev q = some (lastNode p xs) := by
  induction xs generalizing p with
  | nil => exact seg.2
  | cons a xs ih => exact ih seg.2

/-- A segment that ends in the sentinel is made longer by one item. -/
theorem Seg.snoc (seg : Seg l p xs .head) (nodup : xs.Nodup) (apart : ∀ b ∈ xs, p ≠ .node b)
    (new : a ∉ xs) (start : p ≠ .node a)
    (next : ∀ r, r ≠ lastNode p xs → r ≠ .node a → l'.next r = l.next r)
    (prev : ∀ r, r ≠ .node a → r ≠ .head → l'.prev r = l.prev r)
    (before : l'.next (lastNode p xs) = some (.node a) ∧ l'.prev (.node a) = some (lastNode p xs))
    (behind : l'.next (.node a) = some .head ∧ l'.prev .head = some (.node a)) :
    Seg l' p (xs ++ [a]) .head := by
  induction xs generalizing p with
  | nil => exact ⟨before, behind⟩
  | cons b xs ih =>
      obtain ⟨⟨forth, back⟩, rest⟩ := seg
      obtain ⟨notIn, nodup⟩ := List.nodup_cons.mp nodup
      have other : a ≠ b := fun same => new (same ▸ List.mem_cons_self)
      have inside : p ≠ lastNode p (b :: xs) := by
        rcases lastNode_mem (.node b) xs with same | ⟨c, mem, same⟩
        · exact fun h => apart b List.mem_cons_self (h.trans same)
        · exact fun h => apart c (List.mem_cons_of_mem _ mem) (h.trans same)
      refine ⟨⟨(next p inside start).trans forth, ?_⟩, ih rest nodup ?_ ?_ ?_ next before⟩
      · exact (prev (.node b) (by simpa using other.symm) nofun).trans back
      · rintro c mem ⟨⟩
        exact notIn mem
      · exact fun mem => new (List.mem_cons_of_mem _ mem)
      · simpa using other.symm

theorem Rep.first (rep : Rep l xs) : l.first = some xs.head? := by
  unfold Links.first
  cases xs with
  | nil =>
      rw [rep.seg.1]
      rfl
  | cons a xs =>
      rw [rep.seg.1.1]
      rfl

/-- An item whose node has no next one is on no list. -/
theorem Rep.not_mem (rep : Rep l xs) (off : l.next (.node a) = none) : a ∉ xs := by
  intro mem
  obtain ⟨before, behind, rfl⟩ := List.append_of_mem mem
  have linked : ∀ {p : Ptr α} {ys : List α}, Seg l p (ys ++ a :: behind) .head →
      l.next (.node a) ≠ none := by
    intro p ys seg
    induction ys generalizing p with
    | nil =>
        cases behind with
        | nil => rw [seg.2.1]; simp
        | cons b behind => rw [seg.2.1.1]; simp
    | cons b ys ih => exact ih seg.2
  exact linked rep.seg off

variable [DecidableEq α]

theorem rep_empty : Rep (Links.empty : Links α) [] := by
  refine ⟨List.nodup_nil, ⟨rfl, rfl⟩, ?_⟩
  intro a _
  exact ⟨rfl, rfl⟩

/-- Appending an item that is off the list. -/
theorem Rep.append (rep : Rep l xs) (new : a ∉ xs) :
    ∃ l', l.append a = some l' ∧ Rep l' (xs ++ [a]) := by
  have last := rep.seg.last
  have other : lastNode .head xs ≠ .node a := by
    rcases lastNode_mem (.head : Ptr α) xs with same | ⟨b, mem, same⟩
    · rw [same]
      nofun
    · rw [same]
      rintro ⟨⟩
      exact new mem
  refine ⟨_, by simp [Links.append, last]; rfl, ?_⟩
  refine ⟨?_, ?_, ?_⟩
  · rw [List.nodup_append_comm]
    exact List.nodup_cons.mpr ⟨new, rep.nodup⟩
  · refine rep.seg.snoc rep.nodup nofun new nofun ?_ ?_ ?_ ?_
    · intro r notLast notNew
      simp [notLast, notNew]
    · intro r notNew notHead
      simp [notNew, notHead]
    · simp
    · simp [Function.update_of_ne other.symm]
  · intro b notIn
    obtain ⟨old, notNew⟩ := not_or.mp (List.mem_append.not.mp notIn)
    have apart : b ≠ a := by simpa using notNew
    have notLast : Ptr.node b ≠ lastNode .head xs := by
      rcases lastNode_mem (.head : Ptr α) xs with same | ⟨c, mem, same⟩
      · rw [same]
        nofun
      · rw [same]
        rintro ⟨⟩
        exact old mem
    obtain ⟨next, prev⟩ := rep.off b old
    simp [apart, notLast, next, prev]

/-- Removing the first item. -/
theorem Rep.remove (rep : Rep l (a :: xs)) : ∃ l', l.remove a = some l' ∧ Rep l' xs := by
  obtain ⟨⟨forth, back⟩, rest⟩ := rep.seg
  obtain ⟨new, nodup⟩ := List.nodup_cons.mp rep.nodup
  have off : ∀ b, b ∉ xs → b ≠ a → l.next (.node b) = none ∧ l.prev (.node b) = none := by
    intro b notIn apart
    exact rep.off b (fun mem => notIn ((List.mem_cons.mp mem).resolve_left apart))
  cases xs with
  | nil =>
      refine ⟨_, by simp [Links.remove, back, rest.1]; rfl, nodup, by simp [Seg], ?_⟩
      intro b notIn
      by_cases same : b = a
      · simp [same]
      · simp [same, off b notIn same]
  | cons b xs =>
      obtain ⟨⟨forth', back'⟩, rest⟩ := rest
      obtain ⟨notIn, _⟩ := List.nodup_cons.mp nodup
      have apart : b ≠ a := fun same => new (same ▸ List.mem_cons_self)
      refine ⟨_, by simp [Links.remove, back, forth']; rfl, nodup, ⟨⟨by simp, by simp [apart]⟩, ?_⟩, ?_⟩
      · refine rest.frame (by simp [apart]) (by simp) ?_
        intro c mem
        have ca : c ≠ a := fun same => new (List.mem_cons_of_mem _ (same ▸ mem))
        have cb : c ≠ b := fun same => notIn (same ▸ mem)
        simp [ca, cb]
      · intro c notIn
        have cb : c ≠ b := fun same => notIn (same ▸ List.mem_cons_self)
        by_cases same : c = a
        · simp [same]
        · simp [same, cb, off c notIn same]

end Rep

end GpBase.Lib

import Mathlib.Logic.Function.Basic
import Mathlib.Data.List.Nodup

/-!
# Doubly linked chains in a shared heap

A heap gives each node a pointer forth and a pointer back. `h.Seg p xs q`: from `p` the
pointers lead through the nodes `xs` to `q`, and back. A circular list with the sentinel `c`
is a segment from `c` to `c`. Putting a node into a segment, taking one out and moving a
circular list to another sentinel are list operations, and a segment does not depend on the
pointers of other nodes. `Chains.flip` exchanges the two directions.
-/

namespace GpBase.Lib

/-- The two pointers of every node. -/
structure Chains (π : Type*) where
  next : π → π
  prev : π → π

namespace Chains

section Seg

variable {π : Type*}

def flip (h : Chains π) : Chains π := ⟨h.prev, h.next⟩

/-- From `p` through the nodes `xs` to `q`, and back. -/
def Seg (h : Chains π) (p : π) : List π → π → Prop
  | [], q => h.next p = q ∧ h.prev q = p
  | a :: xs, q => (h.next p = a ∧ h.prev a = p) ∧ Seg h a xs q

variable {h h' : Chains π} {p q a : π} {xs ys : List π}

theorem seg_append : h.Seg p (xs ++ a :: ys) q ↔ h.Seg p xs a ∧ h.Seg a ys q := by
  induction xs generalizing p with
  | nil => exact Iff.rfl
  | cons b xs ih =>
      show (_ ∧ h.Seg b (xs ++ a :: ys) q) ↔ (_ ∧ h.Seg b xs a) ∧ h.Seg a ys q
      rw [ih]
      exact and_assoc.symm

theorem Seg.first (seg : h.Seg p xs q) : h.next p = xs.headD q := by
  cases xs with
  | nil => exact seg.1
  | cons a xs => exact seg.1.1

theorem Seg.last (seg : h.Seg p xs q) : h.prev q = xs.getLastD p := by
  induction xs generalizing p with
  | nil => exact seg.2
  | cons a xs ih =>
      rw [List.getLastD_cons]
      exact ih seg.2

theorem Seg.flip (seg : h.Seg p xs q) : h.flip.Seg q xs.reverse p := by
  induction xs generalizing p with
  | nil => exact ⟨seg.2, seg.1⟩
  | cons a xs ih =>
      rw [List.reverse_cons, seg_append]
      exact ⟨ih seg.2, seg.1.2, seg.1.1⟩

/-- A segment depends on the pointers along it only. -/
theorem Seg.frame (seg : h.Seg p xs q) (first : h'.next p = h.next p)
    (last : h'.prev q = h.prev q)
    (inner : ∀ b ∈ xs, h'.next b = h.next b ∧ h'.prev b = h.prev b) : h'.Seg p xs q := by
  induction xs generalizing p with
  | nil => exact ⟨first.trans seg.1, last.trans seg.2⟩
  | cons a xs ih =>
      obtain ⟨⟨forth, back⟩, rest⟩ := seg
      obtain ⟨next, prev⟩ := inner a List.mem_cons_self
      refine ⟨⟨first.trans forth, prev.trans back⟩, ih rest next ?_⟩
      intro b mem
      exact inner b (List.mem_cons_of_mem _ mem)

/-- What follows a node on a segment is another node of it or the end. -/
theorem headD_mem (xs : List π) (q : π) : xs.headD q = q ∨ xs.headD q ∈ xs := by
  cases xs with
  | nil => exact .inl rfl
  | cons a xs => exact .inr List.mem_cons_self

theorem getLastD_mem (xs : List π) (p : π) : xs.getLastD p = p ∨ xs.getLastD p ∈ xs := by
  induction xs generalizing p with
  | nil => exact .inl rfl
  | cons a xs ih =>
      right
      rw [List.getLastD_cons]
      rcases ih a with same | mem
      · rw [same]
        exact List.mem_cons_self
      · exact List.mem_cons_of_mem _ mem

end Seg

/-! ## Putting in and taking out -/

section Update

variable {π : Type*} [DecidableEq π]

/-- Put the node `n` between `p` and `q`. -/
def link (h : Chains π) (p n q : π) : Chains π where
  next := Function.update (Function.update h.next n q) p n
  prev := Function.update (Function.update h.prev n p) q n

/-- Take the node `n` out from between `p` and `q`, with null pointers. -/
def unlink (h : Chains π) (p n q null : π) : Chains π where
  next := Function.update (Function.update h.next p q) n null
  prev := Function.update (Function.update h.prev q p) n null

variable {h : Chains π} {p q n : π} {xs ys : List π}

theorem link_next_of_ne {k : π} (start : k ≠ p) (new : k ≠ n) :
    (h.link p n q).next k = h.next k := by
  simp [link, start, new]

theorem link_prev_of_ne {k : π} (stop : k ≠ q) (new : k ≠ n) :
    (h.link p n q).prev k = h.prev k := by
  simp [link, stop, new]

theorem unlink_next_of_ne {null k : π} (start : k ≠ p) (gone : k ≠ n) :
    (h.unlink p n q null).next k = h.next k := by
  simp [unlink, start, gone]

theorem unlink_prev_of_ne {null k : π} (stop : k ≠ q) (gone : k ≠ n) :
    (h.unlink p n q null).prev k = h.prev k := by
  simp [unlink, stop, gone]

/-- A node goes into a segment behind the nodes `xs`. -/
theorem Seg.link (seg : h.Seg p (xs ++ ys) q) (nodup : (xs ++ ys).Nodup)
    (start : p ∉ xs ++ ys) (stop : q ∉ xs ++ ys) (new : n ∉ xs ++ ys) (np : n ≠ p) (nq : n ≠ q) :
    (h.link (xs.getLastD p) n (ys.headD q)).Seg p (xs ++ n :: ys) q := by
  induction xs generalizing p with
  | nil =>
      -- the place itself: `n` goes between `p` and the first of `ys`
      show (h.link p n (ys.headD q)).Seg p (n :: ys) q
      have before : (h.link p n (ys.headD q)).next p = n ∧ (h.link p n (ys.headD q)).prev n = p := by
        have apart : n ≠ ys.headD q := by
          rcases headD_mem ys q with same | mem
          · rwa [same]
          · exact fun same => new (same ▸ mem)
        constructor
        · exact Function.update_self ..
        · show Function.update (Function.update h.prev n p) (ys.headD q) n n = p
          rw [Function.update_of_ne apart, Function.update_self]
      refine ⟨before, ?_⟩
      cases ys with
      | nil => simp [Seg, Chains.link, np]
      | cons b ys =>
          obtain ⟨_, rest⟩ := seg
          obtain ⟨notIn, _⟩ := List.nodup_cons.mp nodup
          simp only [List.nil_append, List.mem_cons, not_or] at start stop new
          refine ⟨by simp [Chains.link, np], ?_⟩
          -- what lies behind the new neighbour is not written
          apply rest.frame
          · exact link_next_of_ne (Ne.symm start.1) (Ne.symm new.1)
          · exact link_prev_of_ne stop.1 nq.symm
          · intro c mem
            have cn : c ≠ n := fun same => new.2 (same ▸ mem)
            constructor
            · exact link_next_of_ne (fun same => start.2 (same ▸ mem)) cn
            · exact link_prev_of_ne (show c ≠ b from fun same => notIn (same ▸ mem)) cn
  | cons a xs ih =>
      obtain ⟨⟨forth, back⟩, rest⟩ := seg
      obtain ⟨notIn, nodup⟩ := List.nodup_cons.mp nodup
      simp only [List.cons_append, List.mem_cons, not_or] at start stop new
      rw [List.getLastD_cons]
      -- a node in front of the place keeps its pointers unless it is the neighbour itself
      refine ⟨⟨?_, ?_⟩, ih rest nodup notIn stop.2 new.2 new.1⟩
      · rw [link_next_of_ne _ np.symm, forth]
        rcases getLastD_mem xs a with same | mem
        · rw [same]
          exact start.1
        · exact fun same => start.2 (same ▸ List.mem_append_left _ mem)
      · rw [link_prev_of_ne _ (Ne.symm new.1), back]
        rcases headD_mem ys q with same | mem
        · rw [same]
          exact Ne.symm stop.1
        · exact fun same => notIn (same ▸ List.mem_append_right _ mem)

/-- A node is taken out of a segment. -/
theorem Seg.unlink (null : π) (seg : h.Seg p (xs ++ n :: ys) q) (nodup : (xs ++ n :: ys).Nodup)
    (start : p ∉ xs ++ n :: ys) (stop : q ∉ xs ++ n :: ys) :
    (h.unlink (xs.getLastD p) n (ys.headD q) null).Seg p (xs ++ ys) q := by
  induction xs generalizing p with
  | nil =>
      show (h.unlink p n (ys.headD q) null).Seg p ys q
      obtain ⟨_, rest⟩ := seg
      simp only [List.nil_append, List.mem_cons, not_or] at start stop
      obtain ⟨notIn, nodup⟩ := List.nodup_cons.mp nodup
      cases ys with
      | nil => simp [Seg, Chains.unlink, start.1, stop.1]
      | cons b ys =>
          obtain ⟨_, rest⟩ := rest
          obtain ⟨bOnce, _⟩ := List.nodup_cons.mp nodup
          simp only [List.mem_cons, not_or] at start stop notIn
          have bn : b ≠ n := Ne.symm notIn.1
          refine ⟨by simp [Chains.unlink, start.1, bn], ?_⟩
          -- what lies behind the new neighbour is not written
          apply rest.frame
          · exact unlink_next_of_ne (Ne.symm start.2.1) bn
          · exact unlink_prev_of_ne stop.2.1 stop.1
          · intro c mem
            have cn : c ≠ n := fun same => notIn.2 (same ▸ mem)
            constructor
            · exact unlink_next_of_ne (fun same => start.2.2 (same ▸ mem)) cn
            · exact unlink_prev_of_ne (show c ≠ b from fun same => bOnce (same ▸ mem)) cn
  | cons a xs ih =>
      obtain ⟨⟨forth, back⟩, rest⟩ := seg
      obtain ⟨notIn, nodup⟩ := List.nodup_cons.mp nodup
      have notIn : a ∉ xs ++ n :: ys := notIn
      have step := ih rest nodup notIn (fun mem => stop (List.mem_cons_of_mem _ mem))
      simp only [List.cons_append, List.mem_cons, not_or, List.mem_append] at start stop notIn
      rw [List.getLastD_cons]
      refine ⟨⟨?_, ?_⟩, step⟩
      · rw [unlink_next_of_ne _ start.2.2.1, forth]
        rcases getLastD_mem xs a with same | mem
        · rw [same]
          exact start.1
        · exact fun same => start.2.1 (same ▸ mem)
      · rw [unlink_prev_of_ne _ notIn.2.1, back]
        rcases headD_mem ys q with same | mem
        · rw [same]
          exact Ne.symm stop.1
        · exact fun same => notIn.2.2 (same ▸ mem)

omit [DecidableEq π] in
/-- The end of a segment is moved from `q` to `r`. -/
theorem Seg.moveEnd {h' : Chains π} {r : π} (seg : h.Seg p xs q) (nodup : (p :: xs).Nodup)
    (last : h'.next (xs.getLastD p) = r ∧ h'.prev r = xs.getLastD p)
    (next : ∀ k ∈ p :: xs, k ≠ xs.getLastD p → h'.next k = h.next k)
    (prev : ∀ k ∈ xs, h'.prev k = h.prev k) : h'.Seg p xs r := by
  induction xs generalizing p with
  | nil => exact last
  | cons a xs ih =>
      obtain ⟨⟨forth, back⟩, rest⟩ := seg
      obtain ⟨notIn, nodup⟩ := List.nodup_cons.mp nodup
      rw [List.getLastD_cons] at last next
      -- only the last node sees the new end, and `p` is not the last one
      refine ⟨⟨?_, ?_⟩, ih rest nodup last ?_ ?_⟩
      · rw [next p List.mem_cons_self, forth]
        rcases getLastD_mem xs a with same | mem
        · rw [same]
          exact fun same => notIn (same ▸ List.mem_cons_self)
        · exact fun same => notIn (same ▸ List.mem_cons_of_mem _ mem)
      · exact (prev a List.mem_cons_self).trans back
      · intro k mem
        exact next k (List.mem_cons_of_mem _ mem)
      · intro k mem
        exact prev k (List.mem_cons_of_mem _ mem)

/-- Give the nodes from `a` to `b` another sentinel `r`. -/
def rehead (h : Chains π) (a b r : π) : Chains π where
  next := Function.update (Function.update h.next r a) b r
  prev := Function.update (Function.update h.prev a r) r b

theorem rehead_of_ne {a b r k : π} (first : k ≠ a) (last : k ≠ b) (new : k ≠ r) :
    (h.rehead a b r).next k = h.next k ∧ (h.rehead a b r).prev k = h.prev k := by
  simp [rehead, first, last, new]

/-- A circular list that is not empty is moved to another sentinel. -/
theorem Seg.rehead {a r : π} (seg : h.Seg p (a :: xs) p) (nodup : (a :: xs).Nodup)
    (new : r ∉ a :: xs) : (h.rehead a (xs.getLastD a) r).Seg r (a :: xs) r := by
  have lastMem : xs.getLastD a ∈ a :: xs := by
    rcases getLastD_mem xs a with same | mem
    · rw [same]
      exact List.mem_cons_self
    · exact List.mem_cons_of_mem _ mem
  have apart : ∀ {k}, k ∈ a :: xs → k ≠ r := fun mem same => new (same ▸ mem)
  refine ⟨⟨?_, ?_⟩, ?_⟩
  · show Function.update (Function.update h.next r a) (xs.getLastD a) r r = a
    rw [Function.update_of_ne (Ne.symm (apart lastMem)), Function.update_self]
  · show Function.update (Function.update h.prev a r) r (xs.getLastD a) a = r
    rw [Function.update_of_ne (apart List.mem_cons_self), Function.update_self]
  · apply seg.2.moveEnd nodup
    · exact ⟨Function.update_self .., Function.update_self ..⟩
    · intro k mem notLast
      show Function.update (Function.update h.next r a) (xs.getLastD a) r k = h.next k
      rw [Function.update_of_ne notLast, Function.update_of_ne (apart mem)]
    · intro k mem
      have ka : k ≠ a := fun same => (List.nodup_cons.mp nodup).1 (same ▸ mem)
      show Function.update (Function.update h.prev a r) r (xs.getLastD a) k = h.prev k
      rw [Function.update_of_ne (apart (List.mem_cons_of_mem _ mem)), Function.update_of_ne ka]

end Update

end Chains

end GpBase.Lib

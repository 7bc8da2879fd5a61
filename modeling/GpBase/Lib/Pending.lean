import GpBase.Lib.Intrusive

/-!
# Items that are appended twice

`append` may be given an item that is on the list still. The pointers then spell out no
list any more, but they do not get out of hand either. Let `n a` be how often `a` was
appended and not removed: as long as only the first item is ever removed, an item with
`n a = 0` is on no list, and no pointer leads to it.

Where the first item points back to the sentinel, the next pointers lead through the
items that can still be removed. Where it does not, because it was appended again, it is
the first one for ever.
-/

namespace GpBase.Lib

section Pending

variable {α : Type*} {l l' : Links α} {n : α → Nat} {p x y : Ptr α} {a b : α} {xs : List α}

/-- The pointers of the item are null, and none leads to it. -/
structure Links.Off (l : Links α) (a : α) : Prop where
  next : l.next (.node a) = none
  prev : l.prev (.node a) = none
  unreached : ∀ p, l.next p ≠ some (.node a) ∧ l.prev p ≠ some (.node a)

/-- Only its neighbours point to the item. -/
def Links.Clean (l : Links α) (a : α) : Prop :=
  ∀ p, (l.next p = some (.node a) → l.prev (.node a) = some p) ∧
    (l.prev p = some (.node a) → l.next (.node a) = some p)

/-- The next pointers lead from `p` through the items `xs`. -/
def Chain (l : Links α) (p : Ptr α) : List α → Prop
  | [] => True
  | a :: xs => l.next p = some (.node a) ∧ Chain l (.node a) xs

/-- The items `xs` can be removed, one after the other. The last one may point to itself. -/
structure Front (l : Links α) (n : α → Nat) (xs : List α) : Prop where
  nodup : xs.Nodup
  chain : Chain l .head xs
  ends : l.next (lastNode .head xs) = some .head ∨
    ∃ a, lastNode .head xs = .node a ∧ l.next (.node a) = some (.node a) ∧ 2 ≤ n a
  front : ∀ p, l.next .head = some p → l.prev p = some .head
  last : l.prev .head = some (lastNode .head xs) ∨ ∃ b, b ∉ xs ∧ l.prev .head = some (.node b)
  clean : ∀ a ∈ xs, n a = 1 → l.Clean a

/-- The item `a` is the first one for ever. -/
structure Stuck (l : Links α) (n : α → Nat) (a : α) : Prop where
  first : l.next .head = some (.node a)
  prev : l.prev (.node a) ≠ some .head
  last : l.prev .head ≠ some .head
  pending : 2 ≤ n a ∨ 1 ≤ n a ∧ l.prev (.node a) = none

/-- The invariant of `append` and of `remove` for the first item. -/
structure Pending (l : Links α) (n : α → Nat) : Prop where
  off : ∀ a, n a = 0 → l.Off a
  mode : (∃ xs, Front l n xs) ∨ ∃ a, Stuck l n a

theorem node_ne_head (a : α) : Ptr.node a ≠ .head := nofun

theorem Chain.frame (chain : Chain l p xs) (first : l'.next p = l.next p)
    (inner : ∀ b ∈ xs, l'.next (.node b) = l.next (.node b)) : Chain l' p xs := by
  induction xs generalizing p with
  | nil => trivial
  | cons a xs ih =>
      refine ⟨first.trans chain.1, ih chain.2 (inner a List.mem_cons_self) ?_⟩
      intro b mem
      exact inner b (List.mem_cons_of_mem _ mem)

theorem chain_snoc :
    Chain l p (xs ++ [a]) ↔ Chain l p xs ∧ l.next (lastNode p xs) = some (.node a) := by
  induction xs generalizing p with
  | nil => exact ⟨fun chain => ⟨trivial, chain.1⟩, fun chain => ⟨chain.2, trivial⟩⟩
  | cons b xs ih =>
      show _ ∧ Chain l (.node b) (xs ++ [a]) ↔ (_ ∧ Chain l (.node b) xs) ∧ _
      rw [ih, and_assoc]
      rfl

theorem Chain.of_append {ys : List α} (chain : Chain l p (xs ++ ys)) : Chain l p xs := by
  induction xs generalizing p with
  | nil => trivial
  | cons b xs ih => exact ⟨chain.1, ih chain.2⟩

theorem lastNode_snoc (p : Ptr α) (xs : List α) (a : α) : lastNode p (xs ++ [a]) = .node a := by
  induction xs generalizing p with
  | nil => rfl
  | cons b xs ih => exact ih (.node b)

theorem lastNode_append_cons (p : Ptr α) (xs ys : List α) (a : α) :
    lastNode p (xs ++ a :: ys) = lastNode (.node a) ys := by
  induction xs generalizing p with
  | nil => rfl
  | cons b xs ih => exact ih (.node b)

/-- The next pointer of the last item does not matter. -/
theorem Chain.snoc_frame (chain : Chain l p (xs ++ [a])) (first : l'.next p = l.next p)
    (inner : ∀ b ∈ xs, l'.next (.node b) = l.next (.node b)) : Chain l' p (xs ++ [a]) := by
  obtain ⟨before, last⟩ := chain_snoc.mp chain
  refine chain_snoc.mpr ⟨before.frame first inner, ?_⟩
  rcases lastNode_mem p xs with same | ⟨b, mem, same⟩
  · rw [same] at last ⊢
    rwa [first]
  · rw [same] at last ⊢
    rwa [inner b mem]

/-- Where the next pointer of the sentinel leads. -/
theorem Front.first (h : Front l n xs) (next : l.next .head = some p) :
    (xs = [] ∧ p = .head) ∨ ∃ c rest, xs = c :: rest ∧ p = .node c := by
  cases xs with
  | nil =>
      refine .inl ⟨rfl, ?_⟩
      rcases h.ends with ends | ⟨a, same, _⟩
      · exact Option.some.inj (next.symm.trans ends)
      · cases same
  | cons c rest => exact .inr ⟨c, rest, rfl, Option.some.inj (next.symm.trans h.chain.1)⟩

theorem Front.last_ne (h : Front l n xs) (items : xs ≠ []) : l.prev .head ≠ some .head := by
  rcases h.last with last | ⟨b, _, last⟩
  · rw [last]
    rcases lastNode_mem (.head : Ptr α) xs with same | ⟨b, _, same⟩
    · cases xs with
      | nil => exact absurd rfl items
      | cons a xs =>
          rcases lastNode_mem (.node a) xs with other | ⟨b, _, other⟩
          · cases same.symm.trans other
          · cases same.symm.trans other
    · rw [same]
      simp
  · rw [last]
    simp

theorem next_of_first (first : l.first = some (some a)) : l.next .head = some (.node a) := by
  unfold Links.first at first
  split at first
  · cases first
  · cases first
  · rename_i b next
    cases first
    exact next

theorem Pending.pos (h : Pending l n) (next : l.next p = some (.node a)) : 1 ≤ n a := by
  by_contra none
  exact ((h.off a (by omega)).unreached p).1 next

variable [DecidableEq α]

/-! ## Appending -/

/-- What `append` writes. -/
structure Appends (l l' : Links α) (a : α) (x : Ptr α) : Prop where
  last : l.prev .head = some x
  next : l'.next = Function.update (Function.update l.next (.node a) (some .head)) x (some (.node a))
  prev : l'.prev = Function.update (Function.update l.prev (.node a) (some x)) .head (some (.node a))

theorem appends_of_append (appended : l.append a = some l') : ∃ x, Appends l l' a x := by
  unfold Links.append at appended
  obtain ⟨x, last, ⟨⟩⟩ := Option.bind_eq_some_iff.mp appended
  have last' : l.prev .head = some x := by simpa using last
  exact ⟨x, last', rfl, by simp [last']⟩

theorem Appends.next_of_ne (h : Appends l l' a x) (notLast : p ≠ x) (notNew : p ≠ .node a) :
    l'.next p = l.next p := by
  rw [h.next, Function.update_of_ne notLast, Function.update_of_ne notNew]

theorem Appends.prev_of_ne (h : Appends l l' a x) (notHead : p ≠ .head) (notNew : p ≠ .node a) :
    l'.prev p = l.prev p := by
  rw [h.prev, Function.update_of_ne notHead, Function.update_of_ne notNew]

theorem Appends.next_last (h : Appends l l' a x) : l'.next x = some (.node a) := by
  rw [h.next, Function.update_self]

theorem Appends.next_new (h : Appends l l' a x) (apart : x ≠ .node a) :
    l'.next (.node a) = some .head := by
  rw [h.next, Function.update_of_ne apart.symm, Function.update_self]

theorem Appends.prev_head (h : Appends l l' a x) : l'.prev .head = some (.node a) := by
  rw [h.prev, Function.update_self]

theorem Appends.prev_new (h : Appends l l' a x) : l'.prev (.node a) = some x := by
  rw [h.prev, Function.update_of_ne (node_ne_head a), Function.update_self]

theorem Links.Off.append (off : l.Off b) (apart : b ≠ a) (h : Appends l l' a x) : l'.Off b := by
  have other : Ptr.node b ≠ .node a := by simpa using apart
  have notLast : Ptr.node b ≠ x := by
    rintro rfl
    exact (off.unreached .head).2 h.last
  refine ⟨?_, ?_, ?_⟩
  · rw [h.next_of_ne notLast other, off.next]
  · rw [h.prev_of_ne (node_ne_head b) other, off.prev]
  · intro p
    obtain ⟨next, prev⟩ := off.unreached p
    rw [h.next, h.prev]
    simp only [Function.update_apply]
    constructor
    · split
      · simpa using apart.symm
      · split <;> simp [next]
    · split
      · simpa using apart.symm
      · split
        · simpa using notLast.symm
        · exact prev

/-- An item that was on no list is clean afterwards. -/
theorem Appends.clean_new (h : Appends l l' a x) (off : l.Off a) : l'.Clean a := by
  have notLast : x ≠ .node a := by
    rintro rfl
    exact (off.unreached .head).2 h.last
  intro p
  constructor
  · intro next
    rw [h.prev_new]
    by_cases last : p = x
    · rw [last]
    · by_cases new : p = .node a
      · rw [new, h.next_new notLast] at next
        cases next
      · rw [h.next_of_ne last new] at next
        exact absurd next (off.unreached p).1
  · intro prev
    rw [h.next_new notLast]
    by_cases head : p = .head
    · rw [head]
    · by_cases new : p = .node a
      · rw [new, h.prev_new] at prev
        exact absurd (Option.some.inj prev) notLast
      · rw [h.prev_of_ne head new] at prev
        exact absurd prev (off.unreached p).2

/-- Another item stays clean, if it is the last one only where the sentinel is behind it. -/
theorem Links.Clean.append (clean : l.Clean b) (apart : b ≠ a) (h : Appends l l' a x)
    (last : x = .node b → l.next (.node b) = some .head) : l'.Clean b := by
  have other : Ptr.node b ≠ .node a := by simpa using apart
  intro p
  constructor
  · intro next
    rw [h.prev_of_ne (node_ne_head b) other]
    by_cases atLast : p = x
    · rw [atLast, h.next_last] at next
      exact absurd (Option.some.inj next).symm other
    · by_cases new : p = .node a
      · rw [new, h.next_new (new ▸ Ne.symm atLast)] at next
        cases next
      · rw [h.next_of_ne atLast new] at next
        exact (clean p).1 next
  · intro prev
    by_cases head : p = .head
    · rw [head, h.prev_head] at prev
      exact absurd (Option.some.inj prev).symm other
    · by_cases new : p = .node a
      · rw [new, h.prev_new] at prev
        rw [new, ← Option.some.inj prev, h.next_last]
      · rw [h.prev_of_ne head new] at prev
        have next := (clean p).2 prev
        by_cases atLast : x = .node b
        · rw [last atLast] at next
          exact absurd (Option.some.inj next).symm head
        · rw [h.next_of_ne (Ne.symm atLast) other, next]

/-- The list gets longer. -/
theorem Front.append_last (front : Front l n xs) (off : n a = 0 → l.Off a)
    (h : Appends l l' a (lastNode .head xs)) (new : a ∉ xs) :
    Front l' (Function.update n a (n a + 1)) (xs ++ [a]) := by
  have notNew : lastNode .head xs ≠ .node a := by
    rcases lastNode_mem (.head : Ptr α) xs with same | ⟨b, mem, same⟩
    · rw [same]
      exact (node_ne_head a).symm
    · rw [same]
      rintro ⟨⟩
      exact new mem
  refine ⟨?_, chain_snoc.mpr ⟨?_, h.next_last⟩, ?_, ?_, ?_, ?_⟩
  · rw [List.nodup_append_comm]
    exact List.nodup_cons.mpr ⟨new, front.nodup⟩
  · rcases List.eq_nil_or_concat xs with rfl | ⟨pre, z, rfl⟩
    · trivial
    · rw [List.concat_eq_append] at *
      have nodup := List.nodup_append.mp front.nodup
      rw [lastNode_snoc] at h
      refine front.chain.snoc_frame (h.next_of_ne nofun nofun) ?_
      intro b mem
      refine h.next_of_ne ?_ ?_
      · rintro ⟨⟩
        exact nodup.2.2 z mem z (by simp) rfl
      · rintro ⟨⟩
        exact new (by simp [mem])
  · rw [lastNode_snoc]
    exact .inl (h.next_new notNew)
  · intro p next
    by_cases empty : lastNode .head xs = .head
    · rw [empty] at h
      rw [h.next_last] at next
      rw [← Option.some.inj next, h.prev_new]
    · rw [h.next_of_ne (Ne.symm empty) (node_ne_head a).symm] at next
      rcases front.first next with ⟨rfl, _⟩ | ⟨c, rest, rfl, rfl⟩
      · exact absurd rfl empty
      · rw [h.prev_of_ne (node_ne_head c)]
        · exact front.front _ next
        · rintro ⟨⟩
          exact new List.mem_cons_self
  · rw [lastNode_snoc]
    exact .inl h.prev_head
  · intro b mem once
    by_cases same : b = a
    · subst same
      rw [Function.update_self] at once
      exact h.clean_new (off (by omega))
    · rw [Function.update_of_ne same] at once
      have old : b ∈ xs := by simpa [same] using mem
      refine (front.clean b old once).append same h ?_
      intro last
      rcases front.ends with ends | ⟨c, at_last, _, twice⟩
      · rwa [last] at ends
      · cases at_last.symm.trans last
        omega

/-- The sentinel points back to an item that cannot be removed any more: the list stays as
it is. -/
theorem Front.append_lost (front : Front l n xs) (h : Appends l l' a (.node b)) (lost : b ∉ xs)
    (new : a ∉ xs) : Front l' (Function.update n a (n a + 1)) xs := by
  have item : ∀ c ∈ xs, l'.next (.node c) = l.next (.node c) ∧ c ≠ a := by
    intro c mem
    have apart : c ≠ a := fun same => new (same ▸ mem)
    refine ⟨h.next_of_ne ?_ (by simpa using apart), apart⟩
    rintro ⟨⟩
    exact lost mem
  have head : l'.next .head = l.next .head :=
    h.next_of_ne (node_ne_head b).symm (node_ne_head a).symm
  refine ⟨front.nodup, front.chain.frame head fun c mem => (item c mem).1, ?_, ?_, ?_, ?_⟩
  · rcases lastNode_mem (.head : Ptr α) xs with same | ⟨c, mem, same⟩
    · have ends := front.ends
      rw [same] at ends ⊢
      rw [head]
      exact ends.imp id fun ⟨_, impossible, _⟩ => absurd impossible (node_ne_head _).symm
    · have ends := front.ends
      rw [same] at ends ⊢
      rw [(item c mem).1]
      refine ends.imp id ?_
      rintro ⟨d, ⟨⟩, loop, twice⟩
      refine ⟨c, rfl, by rw [(item c mem).1, loop], ?_⟩
      rwa [Function.update_of_ne (item c mem).2]
  · intro p next
    rw [head] at next
    rcases front.first next with ⟨rfl, rfl⟩ | ⟨c, rest, rfl, rfl⟩
    · have := front.front _ next
      cases this.symm.trans h.last
    · rw [h.prev_of_ne (node_ne_head c) (by simpa using (item c List.mem_cons_self).2)]
      exact front.front _ next
  · exact .inr ⟨a, new, h.prev_head⟩
  · intro c mem once
    rw [Function.update_of_ne (item c mem).2] at once
    refine (front.clean c mem once).append (item c mem).2 h ?_
    rintro ⟨⟩
    exact absurd mem lost

/-- The last item is behind all others, and so is what the sentinel points back to. -/
theorem Front.last_behind {before behind : List α} (front : Front l n (before ++ a :: behind))
    (h : Appends l l' a x) : x ≠ .head ∧ ∀ b ∈ before, x ≠ .node b := by
  refine ⟨?_, ?_⟩
  · rintro rfl
    exact front.last_ne (by simp) h.last
  · rintro b mem rfl
    obtain ⟨_, nodup, apart⟩ := List.nodup_append.mp front.nodup
    rcases front.last with last | ⟨c, lost, last⟩
    · rw [lastNode_append_cons, h.last, Option.some.injEq] at last
      rcases lastNode_mem (.node a) behind with same | ⟨c, mem', same⟩
      · cases last.trans same
        exact apart a mem a List.mem_cons_self rfl
      · cases last.trans same
        exact apart b mem b (List.mem_cons_of_mem _ mem') rfl
    · cases h.last.symm.trans last
      exact lost (by simp [mem])

/-- An item behind the first one is appended again: what was behind it is lost. -/
theorem Front.append_again {c : α} {before behind : List α}
    (front : Front l n (c :: before ++ a :: behind)) (h : Appends l l' a x) (pos : 1 ≤ n a) :
    Front l' (Function.update n a (n a + 1)) (c :: before ++ [a]) := by
  obtain ⟨notHead, notBefore⟩ := front.last_behind h
  obtain ⟨nodup, _, apart⟩ := List.nodup_append.mp front.nodup
  have item : ∀ b ∈ c :: before, l'.next (.node b) = l.next (.node b) ∧ b ≠ a := by
    intro b mem
    have other : b ≠ a := apart b mem a List.mem_cons_self
    exact ⟨h.next_of_ne (notBefore b mem).symm (by simpa using other), other⟩
  have head : l'.next .head = l.next .head := h.next_of_ne notHead.symm (node_ne_head a).symm
  have chain : Chain l .head (c :: before ++ [a]) := by
    have whole := front.chain
    rw [List.append_cons] at whole
    exact whole.of_append
  refine ⟨?_, chain.snoc_frame head fun b mem => (item b mem).1, ?_, ?_, ?_, ?_⟩
  · rw [List.nodup_append_comm]
    exact List.nodup_cons.mpr ⟨fun mem => (item a mem).2 rfl, nodup⟩
  · rw [lastNode_snoc]
    by_cases self : x = .node a
    · refine .inr ⟨a, rfl, self ▸ h.next_last, ?_⟩
      rw [Function.update_self]
      omega
    · exact .inl (h.next_new self)
  · intro p next
    rw [head] at next
    cases next.symm.trans chain.1
    rw [h.prev_of_ne (node_ne_head c) (by simpa using (item c List.mem_cons_self).2)]
    exact front.front _ next
  · rw [lastNode_snoc]
    exact .inl h.prev_head
  · intro b mem once
    by_cases same : b = a
    · rw [same, Function.update_self] at once
      omega
    · rw [Function.update_of_ne same] at once
      have old : b ∈ c :: before := by simpa [same] using mem
      refine (front.clean b (List.mem_append_left _ old) once).append same h ?_
      exact fun last => absurd last (notBefore b old)

/-- The first item is appended again. -/
theorem Front.append_first {behind : List α} (front : Front l n (a :: behind))
    (h : Appends l l' a x) (pos : 1 ≤ n a) : Stuck l' (Function.update n a (n a + 1)) a := by
  have whole : Front l n ([] ++ a :: behind) := front
  obtain ⟨notHead, _⟩ := whole.last_behind h
  refine ⟨?_, ?_, ?_, .inl ?_⟩
  · rw [h.next_of_ne notHead.symm (node_ne_head a).symm, front.chain.1]
  · rw [h.prev_new]
    simpa using notHead
  · rw [h.prev_head]
    simp
  · rw [Function.update_self]
    omega

theorem Stuck.append (stuck : Stuck l n b) (h : Appends l l' a x) :
    Stuck l' (Function.update n a (n a + 1)) b := by
  have notHead : x ≠ .head := by
    rintro rfl
    exact stuck.last h.last
  refine ⟨?_, ?_, ?_, ?_⟩
  · rw [h.next_of_ne notHead.symm (node_ne_head a).symm, stuck.first]
  · by_cases same : b = a
    · rw [same, h.prev_new]
      simpa using notHead
    · rw [h.prev_of_ne (node_ne_head b) (by simpa using same)]
      exact stuck.prev
  · rw [h.prev_head]
    simp
  · by_cases same : b = a
    · subst same
      rw [Function.update_self]
      have := stuck.pending
      omega
    · rw [Function.update_of_ne same, h.prev_of_ne (node_ne_head b) (by simpa using same)]
      exact stuck.pending

theorem Pending.append (pending : Pending l n) (appended : l.append a = some l') :
    Pending l' (Function.update n a (n a + 1)) := by
  obtain ⟨x, h⟩ := appends_of_append appended
  refine ⟨?_, ?_⟩
  · intro b none
    by_cases same : b = a
    · rw [same, Function.update_self] at none
      omega
    · rw [Function.update_of_ne same] at none
      exact (pending.off b none).append same h
  · rcases pending.mode with ⟨xs, front⟩ | ⟨b, stuck⟩
    · by_cases mem : a ∈ xs
      · obtain ⟨before, behind, rfl⟩ := List.append_of_mem mem
        cases before with
        | nil => exact .inr ⟨a, front.append_first h (pending.pos front.chain.1)⟩
        | cons c before =>
            have chain := front.chain
            rw [List.append_cons] at chain
            have pos := pending.pos (chain_snoc.mp chain.of_append).2
            exact .inl ⟨_, front.append_again h pos⟩
      · rcases front.last with last | ⟨b, lost, last⟩
        · cases h.last.symm.trans last
          exact .inl ⟨_, front.append_last (pending.off a) h mem⟩
        · cases h.last.symm.trans last
          exact .inl ⟨_, front.append_lost h lost mem⟩
    · exact .inr ⟨b, stuck.append h⟩

/-! ## Removing the first item -/

/-- What `remove` writes. -/
structure Removes (l l' : Links α) (a : α) (x y : Ptr α) : Prop where
  before : l.prev (.node a) = some x
  behind : l.next (.node a) = some y
  next : l'.next = Function.update (Function.update l.next x (some y)) (.node a) none
  prev : l'.prev = Function.update (Function.update l.prev y (some x)) (.node a) none

theorem removes_of_remove (removed : l.remove a = some l') : ∃ x y, Removes l l' a x y := by
  unfold Links.remove at removed
  obtain ⟨x, before, rest⟩ := Option.bind_eq_some_iff.mp removed
  obtain ⟨y, found, ⟨⟩⟩ := Option.bind_eq_some_iff.mp rest
  have behind : l.next (.node a) = some y := by
    rw [Links.setNext_next, Function.update_apply, ite_self] at found
    exact found
  exact ⟨x, y, before, behind, by simp [behind], by simp [before]⟩

theorem Removes.next_of_ne (h : Removes l l' a x y) (notBefore : p ≠ x) (notGone : p ≠ .node a) :
    l'.next p = l.next p := by
  rw [h.next, Function.update_of_ne notGone, Function.update_of_ne notBefore]

theorem Removes.prev_of_ne (h : Removes l l' a x y) (notBehind : p ≠ y) (notGone : p ≠ .node a) :
    l'.prev p = l.prev p := by
  rw [h.prev, Function.update_of_ne notGone, Function.update_of_ne notBehind]

theorem Removes.next_before (h : Removes l l' a x y) (apart : x ≠ .node a) : l'.next x = some y := by
  rw [h.next, Function.update_of_ne apart, Function.update_self]

theorem Removes.prev_behind (h : Removes l l' a x y) (apart : y ≠ .node a) : l'.prev y = some x := by
  rw [h.prev, Function.update_of_ne apart, Function.update_self]

theorem Removes.next_gone (h : Removes l l' a x y) : l'.next (.node a) = none := by
  rw [h.next, Function.update_self]

theorem Removes.prev_gone (h : Removes l l' a x y) : l'.prev (.node a) = none := by
  rw [h.prev, Function.update_self]

theorem Links.Off.remove (off : l.Off b) (apart : b ≠ a) (h : Removes l l' a x y) : l'.Off b := by
  have other : Ptr.node b ≠ .node a := by simpa using apart
  have notBefore : Ptr.node b ≠ x := by
    rintro rfl
    exact (off.unreached _).2 h.before
  have notBehind : Ptr.node b ≠ y := by
    rintro rfl
    exact (off.unreached _).1 h.behind
  refine ⟨?_, ?_, ?_⟩
  · rw [h.next_of_ne notBefore other, off.next]
  · rw [h.prev_of_ne notBehind other, off.prev]
  · intro p
    obtain ⟨next, prev⟩ := off.unreached p
    rw [h.next, h.prev]
    simp only [Function.update_apply]
    constructor
    · split
      · simp
      · split
        · simpa using notBehind.symm
        · exact next
    · split
      · simp
      · split
        · simpa using notBefore.symm
        · exact prev

/-- A clean item is on no list when it has been removed. -/
theorem Removes.off_gone (h : Removes l l' a .head y) (clean : l.Clean a) (apart : y ≠ .node a) :
    l'.Off a := by
  refine ⟨h.next_gone, h.prev_gone, ?_⟩
  intro p
  constructor
  · intro next
    by_cases head : p = .head
    · rw [head, h.next_before (node_ne_head a).symm] at next
      exact apart (Option.some.inj next)
    · by_cases gone : p = .node a
      · rw [gone, h.next_gone] at next
        cases next
      · rw [h.next_of_ne head gone] at next
        exact head (Option.some.inj (((clean p).1 next).symm.trans h.before))
  · intro prev
    by_cases gone : p = .node a
    · rw [gone, h.prev_gone] at prev
      cases prev
    · by_cases behind : p = y
      · rw [behind, h.prev_behind apart] at prev
        cases prev
      · rw [h.prev_of_ne behind gone] at prev
        exact behind (Option.some.inj (((clean p).2 prev).symm.trans h.behind))

theorem Links.Clean.remove (clean : l.Clean b) (apart : b ≠ a) (h : Removes l l' a .head y) :
    l'.Clean b := by
  have other : Ptr.node b ≠ .node a := by simpa using apart
  intro p
  constructor
  · intro next
    by_cases gone : p = .node a
    · rw [gone, h.next_gone] at next
      cases next
    · by_cases head : p = .head
      · rw [head, h.next_before (node_ne_head a).symm, Option.some.injEq] at next
        rw [head, ← next, h.prev_behind (next ▸ other)]
      · rw [h.next_of_ne head gone] at next
        have prev := (clean p).1 next
        rw [h.prev_of_ne _ other, prev]
        rintro rfl
        exact gone (Option.some.inj (prev.symm.trans ((clean _).1 h.behind)))
  · intro prev
    rw [h.next_of_ne (node_ne_head b) other]
    by_cases gone : p = .node a
    · rw [gone, h.prev_gone] at prev
      cases prev
    · by_cases behind : p = y
      · rw [behind, h.prev_behind (behind ▸ gone)] at prev
        cases prev
      · rw [h.prev_of_ne behind gone] at prev
        exact (clean p).2 prev

theorem Front.remove (front : Front l n (a :: xs)) (h : Removes l l' a x y) (apart : y ≠ .node a) :
    Front l' (Function.update n a (n a - 1)) xs := by
  obtain ⟨notIn, nodup⟩ := List.nodup_cons.mp front.nodup
  cases h.before.symm.trans (front.front _ front.chain.1)
  have head := h.next_before (node_ne_head a).symm
  cases xs with
  | nil =>
      -- the sentinel is behind the only item
      rcases front.ends with ends | ⟨b, same, loop, _⟩
      · cases h.behind.symm.trans ends
        have back := h.prev_behind (node_ne_head a).symm
        refine ⟨List.nodup_nil, trivial, .inl head, ?_, .inl back, nofun⟩
        intro p next
        cases next.symm.trans head
        exact back
      · cases same
        cases h.behind.symm.trans loop
        exact absurd rfl apart
  | cons c xs =>
      cases h.behind.symm.trans front.chain.2.1
      have item : ∀ b ∈ c :: xs, l'.next (.node b) = l.next (.node b) ∧ b ≠ a := by
        intro b mem
        have other : b ≠ a := fun same => notIn (same ▸ mem)
        exact ⟨h.next_of_ne (node_ne_head b) (by simpa using other), other⟩
      obtain ⟨z, mem, last⟩ : ∃ z ∈ c :: xs, lastNode (.node c) xs = .node z := by
        rcases lastNode_mem (.node c) xs with same | ⟨z, mem, same⟩
        · exact ⟨c, List.mem_cons_self, same⟩
        · exact ⟨z, List.mem_cons_of_mem _ mem, same⟩
      refine ⟨nodup, ⟨head, front.chain.2.2.frame (item c List.mem_cons_self).1 ?_⟩, ?_, ?_, ?_, ?_⟩
      · intro b mem
        exact (item b (List.mem_cons_of_mem _ mem)).1
      · have ends := front.ends
        show l'.next (lastNode (.node c) xs) = _ ∨ ∃ b, lastNode (.node c) xs = _ ∧ _
        change l.next (lastNode (.node c) xs) = _ ∨ ∃ b, lastNode (.node c) xs = _ ∧ _ at ends
        rw [last] at ends ⊢
        rw [(item z mem).1]
        refine ends.imp id ?_
        rintro ⟨b, ⟨⟩, loop, twice⟩
        refine ⟨z, rfl, by rw [(item z mem).1, loop], ?_⟩
        rwa [Function.update_of_ne (item z mem).2]
      · intro p next
        cases next.symm.trans head
        exact h.prev_behind apart
      · rw [h.prev_of_ne (node_ne_head c).symm (node_ne_head a).symm]
        refine front.last.imp id ?_
        rintro ⟨b, lost, back⟩
        exact ⟨b, fun mem => lost (List.mem_cons_of_mem _ mem), back⟩
      · intro b mem once
        rw [Function.update_of_ne (item b mem).2] at once
        exact (front.clean b (List.mem_cons_of_mem _ mem) once).remove (item b mem).2 h

/-- An item that points to itself stays the first one. -/
theorem Front.remove_loop (front : Front l n (a :: xs)) (h : Removes l l' a x (.node a)) :
    2 ≤ n a ∧ Stuck l' (Function.update n a (n a - 1)) a := by
  cases h.before.symm.trans (front.front _ front.chain.1)
  have twice : 2 ≤ n a := by
    cases xs with
    | nil =>
        rcases front.ends with ends | ⟨b, same, _, twice⟩
        · cases h.behind.symm.trans ends
        · cases same
          exact twice
    | cons c xs =>
        cases h.behind.symm.trans front.chain.2.1
        exact absurd List.mem_cons_self (List.nodup_cons.mp front.nodup).1
  refine ⟨twice, h.next_before (node_ne_head a).symm, ?_, ?_, .inr ⟨?_, h.prev_gone⟩⟩
  · rw [h.prev_gone]
    nofun
  · rw [h.prev_of_ne (node_ne_head a).symm (node_ne_head a).symm]
    exact front.last_ne (by simp)
  · rw [Function.update_self]
    omega

theorem Stuck.remove (stuck : Stuck l n a) (h : Removes l l' a x y) :
    2 ≤ n a ∧ Stuck l' (Function.update n a (n a - 1)) a := by
  have twice : 2 ≤ n a := by
    rcases stuck.pending with twice | ⟨_, none⟩
    · exact twice
    · cases none.symm.trans h.before
  have notHead : x ≠ .head := by
    rintro rfl
    exact stuck.prev h.before
  refine ⟨twice, ?_, ?_, ?_, .inr ⟨?_, h.prev_gone⟩⟩
  · rw [h.next_of_ne notHead.symm (node_ne_head a).symm, stuck.first]
  · rw [h.prev_gone]
    nofun
  · by_cases behind : y = .head
    · rw [← behind, h.prev_behind (behind ▸ (node_ne_head a).symm)]
      simpa [behind] using notHead
    · rw [h.prev_of_ne (Ne.symm behind) (node_ne_head a).symm]
      exact stuck.last
  · rw [Function.update_self]
    omega

theorem Pending.remove (pending : Pending l n) (first : l.next .head = some (.node a))
    (removed : l.remove a = some l') : Pending l' (Function.update n a (n a - 1)) := by
  obtain ⟨x, y, h⟩ := removes_of_remove removed
  have keep : (n a = 1 → l'.Off a) → ∀ b, Function.update n a (n a - 1) b = 0 → l'.Off b := by
    intro gone b none
    by_cases same : b = a
    · rw [same, Function.update_self] at none
      have := pending.pos first
      exact same ▸ gone (by omega)
    · rw [Function.update_of_ne same] at none
      exact (pending.off b none).remove same h
  rcases pending.mode with ⟨xs, front⟩ | ⟨b, stuck⟩
  · obtain ⟨_, impossible⟩ | ⟨c, rest, rfl, same⟩ := front.first first
    · cases impossible
    cases same
    by_cases loop : y = .node a
    · subst loop
      obtain ⟨twice, stuck⟩ := front.remove_loop h
      exact ⟨keep fun once => by omega, .inr ⟨a, stuck⟩⟩
    · refine ⟨keep ?_, .inl ⟨rest, front.remove h loop⟩⟩
      intro once
      cases h.before.symm.trans (front.front _ front.chain.1)
      exact h.off_gone (front.clean a List.mem_cons_self once) loop
  · cases first.symm.trans stuck.first
    obtain ⟨twice, stuck⟩ := stuck.remove h
    exact ⟨keep fun once => by omega, .inr ⟨a, stuck⟩⟩

theorem pending_empty : Pending (Links.empty : Links α) fun _ => 0 := by
  refine ⟨?_, .inl ⟨[], List.nodup_nil, trivial, .inl rfl, ?_, .inl rfl, nofun⟩⟩
  · intro a _
    refine ⟨rfl, rfl, ?_⟩
    intro p
    cases p <;> simp [Links.empty]
  · intro p next
    cases next
    rfl

end Pending

end GpBase.Lib

import Mathlib.Data.List.Basic
import Mathlib.Data.List.Perm.Basic

/-!
# Association lists and tables of chains

An unordered map is a list of items whose keys are pairwise inequivalent under
a comparison `eqv` that need not be equality. What a lookup, an erasure or an
update gives does not depend on the order of the items, and for a table of
chains it can be done in the one chain that may hold the key.
-/

namespace GpBase.Lib

variable {α : Type*}

/-! ## Items selected by a predicate -/

/-- At most one item of the list satisfies `p`. -/
def Unique (p : α → Bool) (l : List α) : Prop := l.Pairwise fun a b => p a → p b → False

/-- With at most one candidate, a search finds it wherever it stands. -/
theorem Unique.find?_eq_some_iff {p : α → Bool} {l : List α} (unique : Unique p l) {a : α} :
    l.find? p = some a ↔ a ∈ l ∧ p a = true := by
  induction l with
  | nil => simp
  | cons b l ih =>
      obtain ⟨alone, rest⟩ := List.pairwise_cons.mp unique
      by_cases hb : p b = true
      · rw [List.find?_cons_of_pos hb]
        constructor
        · rintro ⟨⟩
          exact ⟨List.mem_cons_self, hb⟩
        · rintro ⟨mem, ha⟩
          rcases List.mem_cons.mp mem with rfl | later
          · rfl
          · exact (alone a later hb ha).elim
      · rw [List.find?_cons_of_neg hb, ih rest, List.mem_cons]
        constructor
        · rintro ⟨mem, ha⟩
          exact ⟨.inr mem, ha⟩
        · rintro ⟨rfl | mem, ha⟩
          · exact absurd ha hb
          · exact ⟨mem, ha⟩

theorem Unique.find?_perm {p : α → Bool} {l l' : List α} (unique : Unique p l)
    (perm : l.Perm l') : l.find? p = l'.find? p := by
  have unique' : Unique p l' :=
    (perm.pairwise_iff fun {a b} h hb ha => h ha hb).mp unique
  apply Option.ext
  intro a
  rw [unique.find?_eq_some_iff, unique'.find?_eq_some_iff, perm.mem_iff]

/-- An update of the items that are not there changes nothing. -/
theorem map_ite_of_none {p : α → Bool} {l : List α} (none : ∀ a ∈ l, p a = false) (f : α → α) :
    (l.map fun a => if p a then f a else a) = l := by
  induction l with
  | nil => rfl
  | cons b l ih =>
      have hb := none b List.mem_cons_self
      rw [List.map_cons, if_neg (by simp [hb]), ih fun a ha => none a (.tail b ha)]

/-- Changing the first candidate changes every candidate. -/
theorem Unique.modify_findIdx {p : α → Bool} {l : List α} (unique : Unique p l) (f : α → α) :
    l.modify (l.findIdx p) f = l.map fun a => if p a then f a else a := by
  induction l with
  | nil => rfl
  | cons b l ih =>
      obtain ⟨alone, rest⟩ := List.pairwise_cons.mp unique
      by_cases hb : p b = true
      · have others : ∀ a ∈ l, p a = false := by
          intro a ha
          exact Bool.eq_false_iff.mpr fun h => alone a ha hb h
        rw [List.findIdx_cons, hb, cond_true, List.modify_zero_cons, List.map_cons, if_pos hb,
          map_ite_of_none others]
      · rw [List.findIdx_cons, Bool.eq_false_iff.mpr hb, cond_false, List.modify_succ_cons,
          ih rest, List.map_cons, if_neg hb]

/-- Changing the first candidate, which stays one, changes what a search finds. -/
theorem find?_modify_findIdx {p : α → Bool} {f : α → α} {l : List α} {a : α}
    (found : l.find? p = some a) (keep : p (f a) = true) :
    (l.modify (l.findIdx p) f).find? p = some (f a) := by
  induction l with
  | nil => simp at found
  | cons b l ih =>
      by_cases hb : p b = true
      · rw [List.find?_cons_of_pos hb, Option.some.injEq] at found
        subst found
        simp [List.findIdx_cons, hb, keep]
      · rw [List.find?_cons_of_neg hb] at found
        simp [List.findIdx_cons, hb, ih found]

/-- A change of the first candidate does not disturb the search for something else. -/
theorem find?_modify_of_disjoint {p q : α → Bool} {f : α → α} {l : List α}
    (disjoint : ∀ a, p a = true → q a = false)
    (keep : ∀ a, l.find? p = some a → p (f a) = true) :
    (l.modify (l.findIdx p) f).find? q = l.find? q := by
  induction l with
  | nil => rfl
  | cons b l ih =>
      by_cases hb : p b = true
      · have first := keep b (List.find?_cons_of_pos hb)
        simp [List.findIdx_cons, hb, disjoint b hb, disjoint (f b) first]
      · rw [List.find?_cons_of_neg hb] at keep
        simp [List.findIdx_cons, hb, List.find?_cons, ih keep]

/-- A change that leaves the item as it is changes nothing. -/
theorem modify_findIdx_self {p : α → Bool} {f : α → α} {l : List α} {a : α}
    (found : l.find? p = some a) (same : f a = a) : l.modify (l.findIdx p) f = l := by
  induction l with
  | nil => rfl
  | cons b l ih =>
      by_cases hb : p b = true
      · rw [List.find?_cons_of_pos hb, Option.some.injEq] at found
        subst found
        simp [List.findIdx_cons, hb, same]
      · rw [List.find?_cons_of_neg hb] at found
        simp [List.findIdx_cons, hb, ih found]

/-- A change of the last item, when it is the only candidate. -/
theorem modify_findIdx_append {p : α → Bool} {f : α → α} {l : List α} {a : α}
    (none : l.find? p = none) (last : p a = true) :
    (l ++ [a]).modify ((l ++ [a]).findIdx p) f = l ++ [f a] := by
  induction l with
  | nil => simp [List.findIdx_cons, last]
  | cons b l ih =>
      rw [List.find?_cons] at none
      by_cases hb : p b = true
      · simp [hb] at none
      · simp only [hb] at none
        simp [List.findIdx_cons, hb, ih none]

/-- The only candidate is erased. -/
theorem Unique.find?_eraseP {p : α → Bool} {l : List α} (unique : Unique p l) :
    (l.eraseP p).find? p = none := by
  induction l with
  | nil => rfl
  | cons b l ih =>
      obtain ⟨alone, rest⟩ := List.pairwise_cons.mp unique
      by_cases hb : p b = true
      · rw [List.eraseP_cons_of_pos hb, List.find?_eq_none]
        intro a ha h
        exact alone a ha hb h
      · rw [List.eraseP_cons_of_neg hb, List.find?_cons_of_neg hb, ih rest]

/-- The hit, and the others. -/
theorem Unique.perm_cons_eraseP {p : α → Bool} {l : List α} (unique : Unique p l) {a : α}
    (found : l.find? p = some a) : l.Perm (a :: l.eraseP p) ∧ ∀ b ∈ l.eraseP p, p b = false := by
  constructor
  · induction l with
    | nil => cases found
    | cons b l ih =>
        obtain ⟨_, rest⟩ := List.pairwise_cons.mp unique
        by_cases hb : p b = true
        · rw [List.find?_cons_of_pos hb] at found
          cases found
          rw [List.eraseP_cons_of_pos hb]
        · rw [List.find?_cons_of_neg hb] at found
          rw [List.eraseP_cons_of_neg hb]
          exact ((ih rest found).cons b).trans (List.Perm.swap a b _)
  · intro b mem
    simpa using List.find?_eq_none.mp unique.find?_eraseP b mem

/-- Erasing the one hit is filtering it out. -/
theorem Unique.eraseP_eq_filter {p : α → Bool} {l : List α} (unique : Unique p l) :
    l.eraseP p = l.filter fun a => !p a := by
  induction l with
  | nil => rfl
  | cons a l ih =>
      obtain ⟨alone, rest⟩ := List.pairwise_cons.mp unique
      cases hit : p a with
      | true =>
          rw [List.eraseP_cons_of_pos hit, List.filter_cons_of_neg (by simp [hit]),
            List.filter_eq_self.mpr]
          intro b mem
          rw [Bool.not_eq_true', Bool.eq_false_iff]
          exact alone b mem hit
      | false =>
          rw [List.eraseP_cons_of_neg (by simp [hit]), List.filter_cons_of_pos (by simp [hit]),
            ih rest]

/-- An erasure does not disturb the search for something else. -/
theorem find?_eraseP_of_disjoint {p q : α → Bool} (disjoint : ∀ a, p a = true → q a = false)
    (l : List α) : (l.eraseP p).find? q = l.find? q := by
  induction l with
  | nil => rfl
  | cons b l ih =>
      by_cases hb : p b = true
      · simp [List.eraseP_cons_of_pos hb, disjoint b hb]
      · simp [List.eraseP_cons_of_neg hb, List.find?_cons, ih]

/-! ## Tables of chains -/

/-- A table seen from chain `i`: the items before it, in it and behind it. -/
theorem flatten_around {table : List (List α)} {i : Nat} {chain : List α}
    (at_i : table[i]? = some chain) :
    ∃ before behind : List α, table.flatten = before ++ chain ++ behind ∧
      (∀ chain' : List α, (table.set i chain').flatten = before ++ chain' ++ behind) ∧
      ∀ a, a ∈ before ∨ a ∈ behind → ∃ j other, j ≠ i ∧ table[j]? = some other ∧ a ∈ other := by
  induction table generalizing i with
  | nil => simp at at_i
  | cons head table ih =>
      cases i with
      | zero =>
          obtain rfl : head = chain := by simpa using at_i
          refine ⟨[], table.flatten, by simp, by simp, ?_⟩
          rintro a (mem | mem)
          · cases mem
          · obtain ⟨other, inTable, inOther⟩ := List.mem_flatten.mp mem
            obtain ⟨j, at_j⟩ := List.mem_iff_getElem?.mp inTable
            exact ⟨j + 1, other, by omega, by simpa using at_j, inOther⟩
      | succ i =>
          obtain ⟨before, behind, whole, changed, elsewhere⟩ := ih (i := i) (by simpa using at_i)
          refine ⟨head ++ before, behind, by simp [whole], ?_, ?_⟩
          · intro chain'
            simp [changed]
          · intro a mem
            by_cases first : a ∈ head
            · exact ⟨0, head, by omega, rfl, first⟩
            · have mem' : a ∈ before ∨ a ∈ behind := by
                rcases mem with mem | mem
                · exact .inl ((List.mem_append.mp mem).resolve_left first)
                · exact .inr mem
              obtain ⟨j, other, apart, at_j, inOther⟩ := elsewhere a mem'
              exact ⟨j + 1, other, by omega, by simpa using at_j, inOther⟩

section Chain

variable {table : List (List α)} {i : Nat} {chain : List α} {p : α → Bool}

/-- Only chain `i` may hold candidates. -/
def OnlyIn (p : α → Bool) (table : List (List α)) (i : Nat) : Prop :=
  ∀ j other, j ≠ i → table[j]? = some other → ∀ a ∈ other, p a = false

/-- A search of the table is a search of the chain. -/
theorem OnlyIn.find?_flatten (only : OnlyIn p table i) (at_i : table[i]? = some chain) :
    table.flatten.find? p = chain.find? p := by
  obtain ⟨before, behind, whole, _, elsewhere⟩ := flatten_around at_i
  have none : ∀ l : List α, (∀ a ∈ l, a ∈ before ∨ a ∈ behind) → l.find? p = none := by
    intro l inside
    rw [List.find?_eq_none]
    intro a ha
    obtain ⟨j, other, apart, at_j, inOther⟩ := elsewhere a (inside a ha)
    simp [only j other apart at_j a inOther]
  rw [whole, List.find?_append, List.find?_append, none before fun a ha => .inl ha,
    none behind fun a ha => .inr ha]
  simp

/-- Erasing in the chain erases in the table. -/
theorem OnlyIn.eraseP_flatten (only : OnlyIn p table i) (at_i : table[i]? = some chain) :
    (table.set i (chain.eraseP p)).flatten = table.flatten.eraseP p := by
  obtain ⟨before, behind, whole, changed, elsewhere⟩ := flatten_around at_i
  have none : ∀ a, a ∈ before ∨ a ∈ behind → ¬ p a = true := by
    intro a ha
    obtain ⟨j, other, apart, at_j, inOther⟩ := elsewhere a ha
    simp [only j other apart at_j a inOther]
  rw [whole, changed, List.append_assoc, List.append_assoc,
    List.eraseP_append_right _ fun a ha => none a (.inl ha)]
  congr 1
  by_cases some : ∃ a ∈ chain, p a = true
  · obtain ⟨a, ha, hp⟩ := some
    rw [List.eraseP_append_left hp _ ha]
  · have clean : ∀ a ∈ chain, ¬ p a = true := fun a ha hp => some ⟨a, ha, hp⟩
    rw [List.eraseP_append_right _ clean, List.eraseP_of_forall_not clean,
      List.eraseP_of_forall_not fun a ha => none a (.inr ha)]

/-- Updating in the chain updates in the table. -/
theorem OnlyIn.map_flatten (only : OnlyIn p table i) (at_i : table[i]? = some chain)
    (f : α → α) :
    (table.set i (chain.map fun a => if p a then f a else a)).flatten =
      table.flatten.map fun a => if p a then f a else a := by
  obtain ⟨before, behind, whole, changed, elsewhere⟩ := flatten_around at_i
  have none : ∀ a, a ∈ before ∨ a ∈ behind → p a = false := by
    intro a ha
    obtain ⟨j, other, apart, at_j, inOther⟩ := elsewhere a ha
    exact only j other apart at_j a inOther
  rw [whole, changed, List.map_append, List.map_append,
    map_ite_of_none fun a ha => none a (.inl ha), map_ite_of_none fun a ha => none a (.inr ha)]

/-- A new item in front of a chain is a new item of the table. -/
theorem flatten_set_cons (at_i : table[i]? = some chain) (a : α) :
    (table.set i (a :: chain)).flatten.Perm (a :: table.flatten) := by
  obtain ⟨before, behind, whole, changed, _⟩ := flatten_around at_i
  rw [whole, changed, List.append_assoc, List.append_assoc]
  exact List.perm_middle

/-- Emptying a chain takes its items out of the table. -/
theorem flatten_set_nil (at_i : table[i]? = some chain) :
    table.flatten.Perm (chain ++ (table.set i []).flatten) := by
  obtain ⟨before, behind, whole, changed, _⟩ := flatten_around at_i
  rw [whole, changed, List.append_nil, List.append_assoc]
  exact List.perm_append_comm_assoc before chain behind

end Chain

end GpBase.Lib

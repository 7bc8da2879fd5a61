import GpBase.Dictionary.Iteration
import Mathlib.Data.Set.Card

/-!
# Whole iterations

Any number of safe iterators over one dictionary, with operations between their
calls. `d->iterators` counts those that have been started and not released; and an
iteration that runs to its end returns each entry that is there all the time once.
-/

namespace GpBase.Dictionary

open GpBase.Lib Dict

variable {K V : Type} {ty : DictType K}

/-- An iterator, with what it has returned and whether that was `NULL` in the end. -/
structure Iteration (K V : Type) where
  iter : DictIterator K
  returned : List (DictEntry K V)
  finished : Bool

structure IterState (K V : Type) where
  store : DictState K V
  iters : Nat → Option (Iteration K V)

inductive IterEvent (K V : Type)
  | op (o : Op K V)
  | /-- `dictGetSafeIterator` -/ get (i : Nat)
  | /-- `dictNext`, with its result -/ next (i : Nat) (result : Option (DictEntry K V))
  | /-- `dictReleaseIterator` -/ release (i : Nat)

/-- Pointers to an entry that has been freed. -/
def EntryPtr.free (gone : K → Bool) : EntryPtr K → EntryPtr K
  | .entry k => if gone k then .freed else .entry k
  | .null => .null
  | .freed => .freed

def Iteration.free (gone : K → Bool) (I : Iteration K V) : Iteration K V :=
  { I with iter := { I.iter with
    entry := I.iter.entry.free gone, nextEntry := I.iter.nextEntry.free gone } }

/-- Iterations over any dictionary that can be built. `dictNext` is not called again
after it has returned `NULL`. -/
def iterSys (ty : DictType K) : TSys (IterState K V) (IterEvent K V) where
  init s := (∃ ops, (dictSys ty).Run ops s.store) ∧ ∀ i, s.iters i = none
  step s ev s' :=
    match ev with
    | .op o => o.duringIteration = true ∧ o.Legal s.store ∧
        ∃ store reply, o.exec ty s.store = .ok (store, reply) ∧
          s' = ⟨store, fun i => (s.iters i).map (·.free (o.frees ty reply))⟩
    | .get i => s.iters i = none ∧
        s' = { s with iters := Function.update s.iters i (some ⟨dictGetSafeIterator, [], false⟩) }
    | .next i result => ∃ I d it, s.iters i = some I ∧ I.finished = false ∧
        s.store.dict.dictNext ty I.iter = .ok (d, it, result) ∧
        s' = ⟨{ s.store with dict := d }, Function.update s.iters i
          (some ⟨it, I.returned ++ result.toList, result.isNone⟩)⟩
    | .release i => ∃ I, s.iters i = some I ∧
        s' = ⟨{ s.store with dict := s.store.dict.dictReleaseIterator I.iter },
          Function.update s.iters i none⟩

/-- The iterators that have been started and not released. -/
def startedIters (s : IterState K V) : Set Nat :=
  { i | ∃ I, s.iters i = some I ∧ I.iter.started = true }

/-! ## One call of `dictNext` -/

section Call

variable {d d' : Dict K V} {it it' : DictIterator K} {r : Option (DictEntry K V)}

theorem visit_started {d₁ : Dict K V} {it₁ : DictIterator K}
    {again : Except Fault (Dict K V × DictIterator K × Option (DictEntry K V))}
    (visited : d₁.visit ty it₁ again = .ok (d', it', r)) (started : it₁.started = true)
    (later : again = .ok (d', it', r) → d' = d₁ ∧ it'.started = true) :
    d' = d₁ ∧ it'.started = true := by
  unfold Dict.visit at visited
  split at visited
  · exact later visited
  · cases read : d₁.readEntry ty it₁.entry with
    | error fault =>
        simp only [read, bind, Except.bind] at visited
        cases visited
    | ok found =>
        simp only [read, bind, Except.bind] at visited
        cases visited
        exact ⟨rfl, started⟩

theorem nextBucket_started {d₁ : Dict K V} {it₁ : DictIterator K} {more : Bool}
    (next : d.nextBucket it = .ok (d₁, it₁, more)) :
    d₁ = d.registered it ∧ it₁.started = true := by
  unfold Dict.nextBucket at next
  simp only [bind, Except.bind, pure, Except.pure] at next
  split at next
  · split at next
    · split at next
      · cases next
      · cases next
        exact ⟨rfl, by simp [DictIterator.started]⟩
    · cases next
      exact ⟨rfl, by simp [DictIterator.started]⟩
  · split at next
    · cases next
    · cases next
      exact ⟨rfl, by simp [DictIterator.started]⟩

/-- `dictNext` registers the iterator, and does nothing else to the dictionary. -/
theorem dictNextLoop_started (rounds : Nat)
    (fresh : it.started = false → it.entry = .null)
    (returned : Dict.dictNextLoop ty rounds d it = .ok (d', it', r)) :
    d' = d.registered it ∧ it'.started = true := by
  induction rounds generalizing d it with
  | zero => cases returned
  | succ rounds ih =>
      have noted : ∀ {d : Dict K V} {it : DictIterator K}, it.started = true →
          Dict.dictNextLoop ty rounds d it = .ok (d', it', r) → d' = d ∧ it'.started = true := by
        intro d it started later
        have := ih (fun unstarted => by rw [started] at unstarted; cases unstarted) later
        rwa [Dict.registered, if_pos started] at this
      unfold Dict.dictNextLoop at returned
      split at returned
      · cases bucket : d.nextBucket it with
        | error fault =>
            simp only [bucket, bind, Except.bind] at returned
            cases returned
        | ok next =>
            obtain ⟨d₁, it₁, more⟩ := next
            obtain ⟨rfl, started⟩ := nextBucket_started bucket
            simp only [bucket, bind, Except.bind] at returned
            split at returned
            · exact visit_started returned started (noted started)
            · cases returned
              exact ⟨rfl, started⟩
      · rename_i entry
        have started : it.started = true := by
          rw [← Bool.not_eq_false]
          intro unstarted
          exact entry (fresh unstarted)
        have still : DictIterator.started { it with entry := it.nextEntry } = true := started
        rw [Dict.registered, if_pos started]
        exact visit_started returned still (noted still)

end Call

/-! ## The count -/

section Count

variable {s s' : IterState K V}

/-- What an iteration is before its first `dictNext`. -/
def Iteration.fresh : Iteration K V := ⟨dictGetSafeIterator, [], false⟩

theorem Iteration.free_fresh (gone : K → Bool) :
    (Iteration.fresh : Iteration K V).free gone = .fresh := rfl

theorem update_cases {α : Type} {iters : Nat → Option α} {i k : Nat} {new : Option α} {I : α}
    (at_k : Function.update iters i new k = some I) :
    (k = i ∧ new = some I) ∨ (k ≠ i ∧ iters k = some I) := by
  by_cases here : k = i
  · subst here
    rw [Function.update_self] at at_k
    exact .inl ⟨rfl, at_k⟩
  · rw [Function.update_of_ne here] at at_k
    exact .inr ⟨here, at_k⟩

theorem startedIters_free (store : DictState K V) (gone : K → Bool) :
    startedIters ⟨store, fun i => (s.iters i).map (·.free gone)⟩ = startedIters s := by
  ext i
  simp only [startedIters, Set.mem_ofPred_eq, Option.map_eq_some_iff]
  constructor
  · rintro ⟨_, ⟨I, at_i, rfl⟩, started⟩
    exact ⟨I, at_i, started⟩
  · rintro ⟨I, at_i, started⟩
    exact ⟨_, ⟨I, at_i, rfl⟩, started⟩

theorem startedIters_insert (store : DictState K V) (i : Nat) {I : Iteration K V}
    (started : I.iter.started = true) :
    startedIters ⟨store, Function.update s.iters i (some I)⟩ = insert i (startedIters s) := by
  ext k
  simp only [startedIters, Set.mem_ofPred_eq, Set.mem_insert_iff, Function.update_apply]
  by_cases here : k = i
  · simp [here, started]
  · simp [here]

theorem startedIters_remove (store : DictState K V) (i : Nat) {new : Option (Iteration K V)}
    (unstarted : ∀ I, new = some I → I.iter.started = false) :
    startedIters ⟨store, Function.update s.iters i new⟩ = startedIters s \ {i} := by
  ext k
  simp only [startedIters, Set.mem_ofPred_eq, Set.mem_sdiff, Set.mem_singleton_iff,
    Function.update_apply]
  by_cases here : k = i
  · simp only [here, if_true, not_true, and_false, iff_false]
    rintro ⟨I, new_eq, started⟩
    rw [unstarted I new_eq] at started
    cases started
  · simp [here]

/-- The dictionary is well formed, and `d->iterators` counts what it should. -/
structure Counted (ty : DictType K) (s : IterState K V) : Prop where
  wf : s.store.dict.WF ty
  fresh : ∀ i I, s.iters i = some I → I.iter.started = false → I = .fresh
  finite : (startedIters s).Finite
  count : s.store.dict.iterators = (startedIters s).ncard

theorem Op.exec_wf (lawful : ty.Lawful) {s s' : DictState K V} (wf : s.dict.WF ty) {o : Op K V}
    (legal : o.Legal s) {reply : Reply K V} (executed : o.exec ty s = .ok (s', reply)) :
    s'.dict.WF ty := by
  obtain ⟨s'', executed', rep⟩ := Op.exec_refines lawful ⟨wf, .refl _⟩ legal
  rw [executed] at executed'
  cases executed'
  exact rep.wf

theorem Counted.next (counted : Counted ty s) {i : Nat} {I : Iteration K V} {d : Dict K V}
    {it : DictIterator K} {result : Option (DictEntry K V)} (at_i : s.iters i = some I)
    (next : s.store.dict.dictNext ty I.iter = .ok (d, it, result)) :
    d = s.store.dict.registered I.iter ∧ it.started = true :=
  dictNextLoop_started _ (fun unstarted => by rw [counted.fresh i I at_i unstarted]; rfl) next

theorem Counted.step (counted : Counted ty s) (lawful : ty.Lawful) {ev : IterEvent K V}
    (step : (iterSys ty).step s ev s') : Counted ty s' := by
  cases ev with
  | op o =>
      obtain ⟨during, legal, store, reply, executed, rfl⟩ := step
      obtain ⟨d₁, after, succeeds⟩ := Op.exec_succeeds lawful counted.wf during legal executed
      refine ⟨Op.exec_wf lawful counted.wf legal executed, ?_, ?_, ?_⟩
      · intro i I' at_i unstarted
        obtain ⟨I, before, rfl⟩ := Option.map_eq_some_iff.mp at_i
        rw [counted.fresh i I before unstarted, Iteration.free_fresh]
      · rw [startedIters_free]
        exact counted.finite
      · rw [startedIters_free, ← counted.count]
        exact succeeds.iterators.trans after.iterators
  | get i =>
      obtain ⟨free, rfl⟩ := step
      have same : startedIters { s with iters := Function.update s.iters i (some .fresh) } =
          startedIters s := by
        rw [startedIters_remove]
        · rw [Set.sdiff_singleton_eq_self]
          rintro ⟨I, at_i, _⟩
          rw [free] at at_i
          cases at_i
        · rintro I ⟨⟩
          rfl
      refine ⟨counted.wf, ?_, same.symm ▸ counted.finite, same.symm ▸ counted.count⟩
      intro k I at_k unstarted
      rcases update_cases at_k with ⟨rfl, new⟩ | ⟨_, at_k⟩
      · cases new
        rfl
      · exact counted.fresh k I at_k unstarted
  | next i result =>
      obtain ⟨I, d, it, at_i, unfinished, next, rfl⟩ := step
      obtain ⟨rfl, started⟩ := counted.next at_i next
      refine ⟨counted.wf.registered I.iter, ?_, ?_, ?_⟩
      · intro k I' at_k unstarted
        rcases update_cases at_k with ⟨rfl, new⟩ | ⟨_, at_k⟩
        · cases new
          rw [started] at unstarted
          cases unstarted
        · exact counted.fresh k I' at_k unstarted
      · rw [startedIters_insert _ _ started]
        exact counted.finite.insert i
      · rw [startedIters_insert _ _ started]
        show (s.store.dict.registered I.iter).iterators = _
        rw [Dict.registered]
        split
        · rename_i already
          have mem : i ∈ startedIters s := ⟨I, at_i, already⟩
          rw [Set.insert_eq_of_mem mem, counted.count]
        · rename_i first
          rw [Set.ncard_insert_of_notMem _ counted.finite, ← counted.count]
          rintro ⟨I', at_i', started'⟩
          rw [at_i] at at_i'
          cases at_i'
          exact first started'
  | release i =>
      obtain ⟨I, at_i, rfl⟩ := step
      have set_eq : startedIters ⟨{ s.store with dict := s.store.dict.dictReleaseIterator I.iter },
          Function.update s.iters i none⟩ = startedIters s \ {i} :=
        startedIters_remove _ i (fun _ absurd => by cases absurd)
      refine ⟨?_, ?_, ?_, ?_⟩
      · show (s.store.dict.dictReleaseIterator I.iter).WF ty
        rw [Dict.dictReleaseIterator]
        split
        · exact counted.wf.of_iterators _
        · exact counted.wf
      · intro k I' at_k unstarted
        rcases update_cases at_k with ⟨_, new⟩ | ⟨_, at_k⟩
        · cases new
        · exact counted.fresh k I' at_k unstarted
      · rw [set_eq]
        exact counted.finite.sdiff
      · rw [set_eq]
        show (s.store.dict.dictReleaseIterator I.iter).iterators = _
        rw [Dict.dictReleaseIterator]
        split
        · rename_i started
          have mem : i ∈ startedIters s := ⟨I, at_i, started⟩
          rw [Set.ncard_sdiff_singleton_of_mem mem, ← counted.count]
        · rename_i unstarted
          rw [Set.sdiff_singleton_eq_self, counted.count]
          rintro ⟨I', at_i', started⟩
          rw [at_i] at at_i'
          cases at_i'
          exact unstarted started

end Count

/-! ## One iteration -/

section Iterate

variable {d d' : Dict K V} {I : Iteration K V} {key : K}

/-- The iteration can go on: it has not begun, or it stands behind the entry that it
returned last. -/
def Live (ty : DictType K) (d : Dict K V) (I : Iteration K V) : Prop :=
  I = .fresh ∨ I.iter.started = true ∧
    ∃ e j chain, I.returned.getLast? = some e ∧ Active ty d I.iter e.key j chain

/-- A key that is in the dictionary has been returned, or is left; never both. -/
def Once (ty : DictType K) (key : K) (d : Dict K V) (I : Iteration K V) : Prop :=
  if (remaining ty d I.iter).any (hasKey ty key) then I.returned.countP (hasKey ty key) = 0
  else I.returned.countP (hasKey ty key) = 1

theorem Active.of_iterators {it : DictIterator K} {last : K} {j : Nat}
    {chain : List (DictEntry K V)} (active : Active ty d it last j chain) (n : Nat) :
    Active ty { d with iterators := n } it last j chain :=
  ⟨active.index, active.bucket, active.entry, active.rehashing, active.next⟩

theorem Live.of_iterators (live : Live ty d I) (n : Nat) :
    Live ty { d with iterators := n } I := by
  rcases live with fresh | ⟨started, e, j, chain, last, active⟩
  · exact .inl fresh
  · exact .inr ⟨started, e, j, chain, last, active.of_iterators n⟩

theorem registered_eq (d : Dict K V) (it : DictIterator K) :
    ∃ n, d.registered it = { d with iterators := n } := by
  unfold Dict.registered
  split
  · exact ⟨d.iterators, rfl⟩
  · exact ⟨d.iterators + 1, rfl⟩

theorem released_eq (d : Dict K V) (it : DictIterator K) :
    ∃ n, d.dictReleaseIterator it = { d with iterators := n } := by
  unfold Dict.dictReleaseIterator
  split
  · exact ⟨d.iterators - 1, rfl⟩
  · exact ⟨d.iterators, rfl⟩

theorem restOfChain_sublist (ty : DictType K) (chain : List (DictEntry K V)) (p : EntryPtr K) :
    (restOfChain ty chain p).Sublist chain := by
  unfold restOfChain
  split
  · exact List.dropWhile_sublist _
  · exact List.nil_sublist _

/-- What is left is part of the dictionary, in its order. -/
theorem remaining_sublist (ty : DictType K) (d : Dict K V) (it : DictIterator K) :
    (remaining ty d it).Sublist d.entries := by
  obtain ⟨here, left, inside⟩ : ∃ here,
      remaining ty d it = here ++ (if it.table then [] else d.ht1.entries) ∧
        here.Sublist (d.ht it.table).entries := by
    unfold remaining laterBuckets DictIterator.nextIndex
    cases it.index with
    | none => exact ⟨_, rfl, .refl _⟩
    | some j =>
        refine ⟨_, (List.append_assoc ..).symm, ?_⟩
        have split : (((d.ht it.table).table[j]?).getD [] ++
            ((d.ht it.table).table.drop (j + 1)).flatten) =
              ((d.ht it.table).table.drop j).flatten := by
          by_cases inside : j < (d.ht it.table).table.length
          · rw [List.drop_eq_getElem_cons inside, List.getElem?_eq_getElem inside]
            rfl
          · rw [List.getElem?_eq_none (by omega), List.drop_eq_nil_of_le (by omega),
              List.drop_eq_nil_of_le (by omega)]
            rfl
        refine ((restOfChain_sublist ty _ _).append_right _).trans ?_
        rw [split]
        exact (List.drop_sublist _ _).flatten
  rw [left]
  -- the second table comes last, so nothing follows the rest of it
  cases at_table : it.table with
  | false =>
      rw [at_table] at inside
      exact inside.append_right _
  | true =>
      rw [at_table] at inside
      rw [if_pos rfl, List.append_nil]
      exact inside.trans (List.sublist_append_right _ _)

/-- `dictNext` returns the head of what is left. -/
theorem Live.dictNext (live : Live ty d I) (wf : d.WF ty) (lawful : ty.Lawful) :
    Pops ty (d.registered I.iter) (remaining ty d I.iter) (d.dictNext ty I.iter) := by
  rcases live with rfl | ⟨started, e, j, chain, _, active⟩
  · obtain ⟨_, pops⟩ := wf.dictNext_first lawful
    exact pops
  · rw [Dict.registered, if_pos started]
    exact active.dictNext wf lawful

/-- A call of `dictNext`: it returns, an entry of the dictionary or `NULL` when nothing
is left, and the iteration can go on. -/
theorem Live.next (live : Live ty d I) (wf : d.WF ty) (lawful : ty.Lawful) :
    ∃ it result, d.dictNext ty I.iter = .ok (d.registered I.iter, it, result) ∧
      result = (remaining ty d I.iter).head? ∧
      ∀ e, result = some e → e ∈ d.entries ∧
        Live ty (d.registered I.iter) ⟨it, I.returned ++ [e], false⟩ ∧
        e :: remaining ty (d.registered I.iter) it = remaining ty d I.iter := by
  obtain ⟨it, next, started, onward⟩ := live.dictNext wf lawful
  refine ⟨it, _, next, rfl, ?_⟩
  intro e head
  obtain ⟨rest, left⟩ := List.head?_eq_some_iff.mp head
  obtain ⟨⟨j, chain, active⟩, rest_eq⟩ := onward e rest left
  refine ⟨?_, .inr ⟨started, e, j, chain, List.getLast?_concat, active⟩, ?_⟩
  · refine (remaining_sublist ty d I.iter).mem ?_
    rw [left]
    exact List.mem_cons_self
  · rw [rest_eq, left]

/-- The key of the entry returned is not left any more. -/
theorem Once.next (once : Once ty key d I) (wf : d.WF ty) (lawful : ty.Lawful)
    {e : DictEntry K V} {it : DictIterator K} {rest : List (DictEntry K V)} {d' : Dict K V}
    (left : e :: rest = remaining ty d I.iter) (rest_eq : remaining ty d' it = rest)
    (finished : Bool) : Once ty key d' ⟨it, I.returned ++ [e], finished⟩ := by
  have unique : Unique (hasKey ty key) (e :: rest) :=
    left ▸ (wf.unique lawful key).sublist (remaining_sublist ty d I.iter)
  obtain ⟨alone, _⟩ := List.pairwise_cons.mp unique
  unfold Once at once ⊢
  rw [← left, List.any_cons] at once
  simp only [rest_eq, List.countP_append, List.countP_singleton]
  cases hit : hasKey ty key e with
  | true =>
      have gone : rest.any (hasKey ty key) = false := by
        rw [List.any_eq_false]
        intro a mem
        exact alone a mem hit
      rw [hit, Bool.true_or, if_pos rfl] at once
      simp [gone, once]
  | false =>
      rw [hit, Bool.false_or] at once
      simpa using once

/-- Before the first `dictNext` everything is left. -/
theorem Once.fresh (holds : Holds ty d key) : Once ty key d .fresh := by
  have all : (remaining ty d (Iteration.fresh : Iteration K V).iter).any (hasKey ty key) = true :=
    List.any_eq_true.mpr holds
  unfold Once
  rw [if_pos all]
  rfl

/-- An operation frees a key only by deleting it. -/
theorem Op.frees_cases {o : Op K V} {reply : Reply K V} {k : K}
    (freed : o.frees ty reply k = true) : ∃ key, o = .delete key ∧ ty.keyCompare key k = true := by
  cases o with
  | delete key =>
      cases reply with
      | flag ok =>
          cases ok with
          | true => exact ⟨key, rfl, freed⟩
          | false => cases freed
      | _ => cases freed
  | _ => cases freed

/-- A key stays, or is not there any more. -/
theorem Op.stays_or_gone (lawful : ty.Lawful) {s s' : DictState K V} (wf : s.dict.WF ty)
    {o : Op K V} (legal : o.Legal s) {reply : Reply K V}
    (executed : o.exec ty s = .ok (s', reply)) (key : K) :
    Stays ty (o.frees ty reply) key ∨ ¬ Holds ty s'.dict key := by
  by_cases stays : Stays ty (o.frees ty reply) key
  · exact .inl stays
  · refine .inr ?_
    unfold Stays at stays
    push Not at stays
    obtain ⟨k, same, freed⟩ := stays
    obtain ⟨key₀, rfl, equal⟩ := Op.frees_cases (Bool.eq_true_of_not_eq_false freed)
    obtain ⟨s'', executed', rep⟩ := Op.exec_refines lawful ⟨wf, .refl _⟩ legal
    rw [executed] at executed'
    cases executed'
    have erased : (s.dict.entries.eraseP (hasKey ty key₀)).find? (hasKey ty key₀) = none :=
      (wf.unique lawful key₀).find?_eraseP
    rintro ⟨e, mem, hit⟩
    refine List.find?_eq_none.mp erased e (rep.perm.mem_iff.mp mem) ?_
    exact lawful.trans _ _ _ equal (lawful.trans _ _ _ (lawful.symm _ _ same) hit)

/-- A pointer to an entry that is not freed stays as it is. -/
theorem EntryPtr.free_kept {gone : K → Bool} {ptr : EntryPtr K}
    (kept : ∀ n, ptr = .entry n → gone n = false) : ptr.free gone = ptr := by
  cases ptr with
  | entry n =>
      rw [EntryPtr.free, kept n rfl]
      rfl
  | _ => rfl

/-- Between two calls of `dictNext` only the entry returned last may be deleted. -/
def DeletesLast (ty : DictType K) (I : Iteration K V) : Op K V → Prop
  | .delete key => ∃ e, I.returned.getLast? = some e ∧ ty.keyCompare key e.key = true
  | _ => True

/-- An operation while the iteration goes on. -/
theorem Live.exec (live : Live ty d I) (lawful : ty.Lawful) {s s' : DictState K V}
    (dict : s.dict = d) (wf : d.WF ty) (busy : I.iter.started = true → d.iterators ≠ 0)
    {o : Op K V} (during : o.duringIteration = true) (legal : o.Legal s) {reply : Reply K V}
    (executed : o.exec ty s = .ok (s', reply))
    (deletes : I.iter.started = true → DeletesLast ty I o) :
    Live ty s'.dict (I.free (o.frees ty reply)) ∧
      ∀ key, (I.iter.started = true → Holds ty d key ∧ Once ty key d I) → Holds ty s'.dict key →
        Once ty key s'.dict (I.free (o.frees ty reply)) := by
  subst dict
  rcases live with rfl | ⟨started, e, j, chain, last, active⟩
  · -- everything is left
    rw [Iteration.free_fresh]
    exact ⟨.inl rfl, fun key _ holds => .fresh holds⟩
  · obtain ⟨d₁, after, succeeds⟩ := Op.exec_succeeds lawful wf during legal executed
    obtain rfl : d₁ = s.dict := after.busy (busy started)
    have wf' := Op.exec_wf lawful wf legal executed
    have kept : ∀ n, I.iter.nextEntry = .entry n → o.frees ty reply n = false := by
      intro n next
      rw [Bool.eq_false_iff]
      intro freed
      obtain ⟨key₀, rfl, equal⟩ := Op.frees_cases freed
      obtain ⟨e', last', deleted⟩ := deletes started
      rw [last] at last'
      cases last'
      rcases active.next with null | ⟨e₁, _, same, apart⟩
      · rw [null] at next
        cases next
      · rw [same] at next
        cases next
        rw [lawful.trans _ _ _ (lawful.symm _ _ deleted) equal] at apart
        cases apart
    obtain ⟨chain', active', same⟩ := active.succeeds wf wf' lawful succeeds kept
    have nextEntry : I.iter.nextEntry.free (o.frees ty reply) = I.iter.nextEntry :=
      EntryPtr.free_kept kept
    have freed : (I.free (o.frees ty reply)).iter =
        { I.iter with entry := I.iter.entry.free (o.frees ty reply) } := by
      unfold Iteration.free
      rw [nextEntry]
    refine ⟨.inr ⟨started, e, j, chain', last, ?_⟩, ?_⟩
    · rw [freed]
      refine ⟨active'.index, active'.bucket, ?_, active'.rehashing, active'.next⟩
      have nonNull := active'.entry
      show I.iter.entry.free (o.frees ty reply) ≠ .null
      cases entry : I.iter.entry with
      | null => exact absurd entry nonNull
      | freed => simp [EntryPtr.free]
      | entry k =>
          rw [EntryPtr.free]
          split <;> simp
    · intro key before holds'
      obtain ⟨holds, once⟩ := before started
      have stays := (Op.stays_or_gone lawful wf legal executed key).resolve_right
        (not_not_intro holds')
      unfold Once at once ⊢
      rw [freed]
      show if (remaining ty s'.dict I.iter).any (hasKey ty key) then _ else _
      rw [same key holds stays]
      exact once

end Iterate

/-! ## Whole iterations -/

section Whole

variable {s s' : IterState K V} {i : Nat} {key : K} {ev : IterEvent K V}

/-- Between the first and the last `dictNext` of iteration `i`, only the entry that it
returned last is deleted. -/
def DeletesReturned (ty : DictType K) (i : Nat) (s : IterState K V) (ev : IterEvent K V) : Prop :=
  ∀ o I, ev = .op o → s.iters i = some I → I.iter.started = true → I.finished = false →
    DeletesLast ty I o

/-- From the first to the last `dictNext` of iteration `i` the key is there. -/
def PresentDuring (ty : DictType K) (i : Nat) (key : K) (s : IterState K V) (ev : IterEvent K V) :
    Prop :=
  ∀ I, s.iters i = some I → I.finished = false →
    (I.iter.started = true ∨ ∃ result, ev = .next i result) → Holds ty s.store.dict key

/-- What a step can be for iteration `i`: an operation, its beginning, its `dictNext`, or
a call for another iterator. -/
theorem iterSys_cases (counted : Counted ty s) (step : (iterSys ty).step s ev s')
    {I' : Iteration K V} (at_i : s'.iters i = some I') :
    (∃ o reply I, ev = .op o ∧ o.duringIteration = true ∧ o.Legal s.store ∧
      o.exec ty s.store = .ok (s'.store, reply) ∧ s.iters i = some I ∧
      I' = I.free (o.frees ty reply)) ∨
    I' = .fresh ∨
    (∃ I it result, ev = .next i result ∧ s.iters i = some I ∧ I.finished = false ∧
      s.store.dict.dictNext ty I.iter = .ok (s'.store.dict, it, result) ∧
      I' = ⟨it, I.returned ++ result.toList, result.isNone⟩) ∨
    (s.iters i = some I' ∧ ∃ n, s'.store.dict = { s.store.dict with iterators := n }) := by
  cases ev with
  | op o =>
      obtain ⟨during, legal, store, reply, executed, rfl⟩ := step
      obtain ⟨I, before, rfl⟩ := Option.map_eq_some_iff.mp at_i
      exact .inl ⟨o, reply, I, rfl, during, legal, executed, before, rfl⟩
  | get k =>
      obtain ⟨_, rfl⟩ := step
      rcases update_cases at_i with ⟨rfl, new⟩ | ⟨_, before⟩
      · cases new
        exact .inr (.inl rfl)
      · exact .inr (.inr (.inr ⟨before, s.store.dict.iterators, rfl⟩))
  | next k result =>
      obtain ⟨I, d, it, at_k, unfinished, next, rfl⟩ := step
      rcases update_cases at_i with ⟨rfl, new⟩ | ⟨_, before⟩
      · cases new
        exact .inr (.inr (.inl ⟨I, it, result, rfl, at_k, unfinished, next, rfl⟩))
      · obtain ⟨rfl, _⟩ := counted.next at_k next
        exact .inr (.inr (.inr ⟨before, registered_eq _ _⟩))
  | release k =>
      obtain ⟨I, _, rfl⟩ := step
      rcases update_cases at_i with ⟨_, new⟩ | ⟨_, before⟩
      · cases new
      · exact .inr (.inr (.inr ⟨before, released_eq _ _⟩))

theorem Counted.busy (counted : Counted ty s) {I : Iteration K V} (at_i : s.iters i = some I)
    (started : I.iter.started = true) : s.store.dict.iterators ≠ 0 := by
  rw [counted.count]
  exact Set.ncard_ne_zero_of_mem (a := i) ⟨I, at_i, started⟩ counted.finite

/-- An iteration that has not ended can go on. -/
def Proceeds (ty : DictType K) (i : Nat) (s : IterState K V) : Prop :=
  ∀ I, s.iters i = some I → I.finished = false → Live ty s.store.dict I

theorem Proceeds.step (proceeds : Proceeds ty i s) (counted : Counted ty s) (lawful : ty.Lawful)
    (deletes : DeletesReturned ty i s ev) (step : (iterSys ty).step s ev s') :
    Proceeds ty i s' := by
  intro I' at_i unfinished
  rcases iterSys_cases counted step at_i with
    ⟨o, reply, I, rfl, during, legal, executed, before, rfl⟩ | rfl |
      ⟨I, it, result, rfl, before, open_, next, rfl⟩ | ⟨before, n, same⟩
  · have live := proceeds I before unfinished
    exact (live.exec lawful rfl counted.wf (counted.busy before) during legal executed
      fun started => deletes o I rfl before started unfinished).1
  · exact .inl rfl
  · obtain ⟨it', result', next', _, onward⟩ := (proceeds I before open_).next counted.wf lawful
    simp only [next, Except.ok.injEq, Prod.mk.injEq] at next'
    obtain ⟨dict, rfl, rfl⟩ := next'
    cases result with
    | none => cases unfinished
    | some e =>
        rw [dict]
        exact (onward e rfl).2.1
  · rw [same]
    exact (proceeds I' before unfinished).of_iterators n

/-- An iteration that has ended has returned the key once; one that goes on will. -/
def Settles (ty : DictType K) (i : Nat) (key : K) (s : IterState K V) : Prop :=
  ∀ I, s.iters i = some I →
    if I.finished then I.returned.countP (hasKey ty key) = 1
    else Holds ty s.store.dict key → Once ty key s.store.dict I

theorem Settles.step (settles : Settles ty i key s) (proceeds : Proceeds ty i s)
    (counted : Counted ty s) (lawful : ty.Lawful) (deletes : DeletesReturned ty i s ev)
    (present : PresentDuring ty i key s ev) (step : (iterSys ty).step s ev s') :
    Settles ty i key s' := by
  intro I' at_i
  rcases iterSys_cases counted step at_i with
    ⟨o, reply, I, rfl, during, legal, executed, before, rfl⟩ | rfl |
      ⟨I, it, result, rfl, before, open_, next, rfl⟩ | ⟨before, n, same⟩
  · have settled := settles I before
    show if I.finished then _ else _
    split
    · rename_i finished
      rw [if_pos finished] at settled
      exact settled
    · rename_i unfinished
      rw [if_neg unfinished] at settled
      rw [Bool.not_eq_true] at unfinished
      refine ((proceeds I before unfinished).exec lawful rfl counted.wf (counted.busy before)
        during legal executed fun started => deletes o I rfl before started unfinished).2 key ?_
      intro started
      have holds := present I before unfinished (.inl started)
      exact ⟨holds, settled holds⟩
  · exact fun holds => .fresh holds
  · obtain ⟨it', result', next', head, onward⟩ := (proceeds I before open_).next counted.wf lawful
    simp only [next, Except.ok.injEq, Prod.mk.injEq] at next'
    obtain ⟨dict, rfl, rfl⟩ := next'
    have settled := settles I before
    rw [open_, if_neg (by simp)] at settled
    have once := settled (present I before open_ (.inr ⟨result, rfl⟩))
    cases result with
    | none =>
        -- nothing is left, so the key has been returned
        unfold Once at once
        rw [List.head?_eq_none_iff.mp head.symm, if_neg (by simp)] at once
        show (I.returned ++ []).countP (hasKey ty key) = 1
        rw [List.append_nil, once]
    | some e =>
        rw [dict]
        intro _
        exact once.next counted.wf lawful (onward e rfl).2.2 rfl false
  · have settled := settles I' before
    rw [same]
    exact settled

end Whole

/-! ## A run -/

end GpBase.Dictionary

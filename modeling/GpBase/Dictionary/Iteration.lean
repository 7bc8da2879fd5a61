import GpBase.Lib.Outcome
import GpBase.Dictionary.Iterator

/-!
# Operations during an iteration

While `d->iterators` is not 0, no entry changes its bucket: an operation puts new keys
in front of chains, takes a deleted one out, or opens the second table. What a safe
iterator has still to return loses only the deleted key.
-/

namespace GpBase.Dictionary

open GpBase.Lib Dict

variable {K V : Type} {ty : DictType K} {d d' d₁ d₂ : Dict K V}

/-- The key is in the dictionary. -/
def Holds (ty : DictType K) (d : Dict K V) (key : K) : Prop :=
  ∃ e ∈ d.entries, ty.keyCompare key e.key = true

/-- A chain after an operation: new keys, and the old ones without those `gone`. -/
def Grown (ty : DictType K) (d : Dict K V) (gone : K → Bool)
    (chain chain' : List (DictEntry K V)) : Prop :=
  ∃ new, chain'.map (·.key) = new ++ (chain.map (·.key)).filter (fun k => !gone k) ∧
    ∀ k ∈ new, ¬ Holds ty d k

/-- The tables after an operation. -/
structure Succeeds (ty : DictType K) (gone : K → Bool) (d d' : Dict K V) : Prop where
  rehashing : d.dictIsRehashing = true → d'.dictIsRehashing = true
  iterators : d'.iterators = d.iterators
  chains : ∀ second (j : Nat) chain, (d.ht second).table[j]? = some chain →
    ∃ chain', (d'.ht second).table[j]? = some chain' ∧ Grown ty d gone chain chain'
  created : ∀ second (j : Nat) chain', (d.ht second).table[j]? = none →
    (d'.ht second).table[j]? = some chain' → ∀ e ∈ chain', ¬ Holds ty d e.key

theorem Grown.refl (chain : List (DictEntry K V)) : Grown ty d (fun _ => false) chain chain :=
  ⟨[], by simp, by simp⟩

theorem Grown.of_keys {chain chain' : List (DictEntry K V)}
    (same : chain'.map (·.key) = chain.map (·.key)) : Grown ty d (fun _ => false) chain chain' :=
  ⟨[], by simp [same], by simp⟩

theorem Succeeds.refl (d : Dict K V) : Succeeds ty (fun _ => false) d d where
  rehashing := id
  iterators := rfl
  chains := fun _ _ chain at_j => ⟨chain, at_j, .refl chain⟩
  created := by
    intro second j chain' absent at_j
    rw [absent] at at_j
    cases at_j

/-! ## Keys that stay -/

section Stays

variable {gone : K → Bool} {key : K}

/-- Every key that equals `key` stays. -/
def Stays (ty : DictType K) (gone : K → Bool) (key : K) : Prop :=
  ∀ k, ty.keyCompare key k = true → gone k = false

theorem Holds.of_equal (lawful : ty.Lawful) {k : K} (equal : ty.keyCompare key k = true)
    (holds : Holds ty d key) : Holds ty d k := by
  obtain ⟨e, mem, same⟩ := holds
  exact ⟨e, mem, lawful.trans _ _ _ (lawful.symm _ _ equal) same⟩

/-- Whether some entry has the key, read off the keys. -/
theorem any_hasKey (l : List (DictEntry K V)) :
    l.any (hasKey ty key) = (l.map (·.key)).any (ty.keyCompare key) := by
  rw [List.any_map]
  rfl

theorem any_filter_of_stays (stays : Stays ty gone key) (keys : List K) :
    (keys.filter fun k => !gone k).any (ty.keyCompare key) = keys.any (ty.keyCompare key) := by
  induction keys with
  | nil => rfl
  | cons k keys ih =>
      cases same : ty.keyCompare key k with
      | true => simp [stays k same, same]
      | false =>
          rw [List.any_cons, same, Bool.false_or, ← ih, List.filter_cons]
          split
          · rw [List.any_cons, same, Bool.false_or]
          · rfl

theorem any_new (lawful : ty.Lawful) (holds : Holds ty d key) {new : List K}
    (fresh : ∀ k ∈ new, ¬ Holds ty d k) : new.any (ty.keyCompare key) = false := by
  rw [List.any_eq_false]
  intro k mem equal
  exact fresh k mem (holds.of_equal lawful equal)

theorem Grown.any (lawful : ty.Lawful) (holds : Holds ty d key) (stays : Stays ty gone key)
    {chain chain' : List (DictEntry K V)} (grown : Grown ty d gone chain chain') :
    chain'.any (hasKey ty key) = chain.any (hasKey ty key) := by
  obtain ⟨new, keys, fresh⟩ := grown
  rw [any_hasKey, any_hasKey, keys, List.any_append, any_new lawful holds fresh, Bool.false_or,
    any_filter_of_stays stays]

/-- A key that stays is in the same buckets as before. -/
theorem Succeeds.any_drop (succeeds : Succeeds ty gone d d') (lawful : ty.Lawful)
    (holds : Holds ty d key) (stays : Stays ty gone key) (second : Bool) (k : Nat) :
    ((d'.ht second).table.drop k).flatten.any (hasKey ty key) =
      ((d.ht second).table.drop k).flatten.any (hasKey ty key) := by
  rw [Bool.eq_iff_iff]
  simp only [List.any_eq_true, List.mem_flatten]
  constructor
  · rintro ⟨e, ⟨chain', mem, inChain⟩, hit⟩
    obtain ⟨j, at_j⟩ := List.mem_iff_getElem?.mp mem
    rw [List.getElem?_drop] at at_j
    cases old : (d.ht second).table[k + j]? with
    | none =>
        exact absurd (holds.of_equal lawful hit)
          (succeeds.created second _ chain' old at_j e inChain)
    | some chain =>
        obtain ⟨chain'', at_j', grown⟩ := succeeds.chains second _ chain old
        rw [at_j] at at_j'
        cases at_j'
        have there : chain'.any (hasKey ty key) = true := List.any_eq_true.mpr ⟨e, inChain, hit⟩
        rw [grown.any lawful holds stays] at there
        obtain ⟨e', inChain', hit'⟩ := List.any_eq_true.mp there
        refine ⟨e', ⟨chain, List.mem_iff_getElem?.mpr ⟨j, ?_⟩, inChain'⟩, hit'⟩
        rw [List.getElem?_drop, old]
  · rintro ⟨e, ⟨chain, mem, inChain⟩, hit⟩
    obtain ⟨j, at_j⟩ := List.mem_iff_getElem?.mp mem
    rw [List.getElem?_drop] at at_j
    obtain ⟨chain', at_j', grown⟩ := succeeds.chains second _ chain at_j
    have there : chain.any (hasKey ty key) = true := List.any_eq_true.mpr ⟨e, inChain, hit⟩
    rw [← grown.any lawful holds stays] at there
    obtain ⟨e', inChain', hit'⟩ := List.any_eq_true.mp there
    refine ⟨e', ⟨chain', List.mem_iff_getElem?.mpr ⟨j, ?_⟩, inChain'⟩, hit'⟩
    rw [List.getElem?_drop, at_j']

theorem Succeeds.any_entries (succeeds : Succeeds ty gone d d') (lawful : ty.Lawful)
    (holds : Holds ty d key) (stays : Stays ty gone key) (second : Bool) :
    (d'.ht second).entries.any (hasKey ty key) = (d.ht second).entries.any (hasKey ty key) := by
  have := succeeds.any_drop lawful holds stays second 0
  rwa [List.drop_zero, List.drop_zero] at this

/-- A key that stays is still there. -/
theorem Succeeds.holds (succeeds : Succeeds ty gone d d') (lawful : ty.Lawful)
    (holds : Holds ty d key) (stays : Stays ty gone key) : Holds ty d' key := by
  have there : d.entries.any (hasKey ty key) = true := List.any_eq_true.mpr holds
  have first := succeeds.any_entries lawful holds stays false
  have second := succeeds.any_entries lawful holds stays true
  have same : d'.entries.any (hasKey ty key) = d.entries.any (hasKey ty key) := by
    rw [Dict.entries, Dict.entries, List.any_append, List.any_append]
    exact congrArg₂ (· || ·) first second
  rw [← same] at there
  exact List.any_eq_true.mp there

end Stays

/-! ## Iterators -/

section Iterators

variable {gone : K → Bool} {key last : K} {it : DictIterator K} {j : Nat}
  {chain : List (DictEntry K V)}

/-- The chain from an entry on, after an operation that keeps this entry. -/
theorem Grown.split {pre rest chain' : List (DictEntry K V)} {e : DictEntry K V}
    (grown : Grown ty d gone (pre ++ e :: rest) chain') (kept : gone e.key = false) :
    ∃ pre' e' rest', chain' = pre' ++ e' :: rest' ∧ e'.key = e.key ∧
      rest'.map (·.key) = (rest.map (·.key)).filter fun k => !gone k := by
  obtain ⟨new, keys, _⟩ := grown
  have parts : chain'.map (·.key) = (new ++ (pre.map (·.key)).filter fun k => !gone k) ++
      e.key :: (rest.map (·.key)).filter fun k => !gone k := by
    rw [keys]
    simp [kept]
  obtain ⟨pre', behind, rfl, _, tail⟩ := List.map_eq_append_iff.mp parts
  obtain ⟨e', rest', rfl, same, rest_eq⟩ := List.map_eq_cons_iff.mp tail
  exact ⟨pre', e', rest', rfl, same, rest_eq⟩

/-- An iterator goes on in the new chain, if its next entry stays. -/
theorem Active.succeeds (active : Active ty d it last j chain) (wf : d.WF ty) (wf' : d'.WF ty)
    (lawful : ty.Lawful) (succeeds : Succeeds ty gone d d')
    (kept : ∀ n, it.nextEntry = .entry n → gone n = false) :
    ∃ chain', Active ty d' it last j chain' ∧
      ∀ key, Holds ty d key → Stays ty gone key →
        (remaining ty d' it).any (hasKey ty key) = (remaining ty d it).any (hasKey ty key) := by
  obtain ⟨table, index, entry, nextEntry⟩ := it
  obtain ⟨rfl, at_j, nonNull, rehashing, next⟩ := active
  obtain ⟨chain', at_j', grown⟩ := succeeds.chains table j chain at_j
  -- the buckets behind the iterator, of this table and of the other one
  have later : ∀ key, Holds ty d key → Stays ty gone key →
      (laterBuckets d' ⟨table, some j, entry, nextEntry⟩).any (hasKey ty key) =
        (laterBuckets d ⟨table, some j, entry, nextEntry⟩).any (hasKey ty key) := by
    intro key holds stays
    simp only [laterBuckets, List.any_append]
    rw [succeeds.any_drop lawful holds stays table]
    congr 1
    split
    · rfl
    · exact succeeds.any_entries lawful holds stays true
  rcases next with rfl | ⟨e, mem, rfl, apart⟩
  · refine ⟨chain', ⟨rfl, at_j', nonNull, fun h => succeeds.rehashing (rehashing h), .inl rfl⟩, ?_⟩
    intro key holds stays
    exact later key holds stays
  · -- its next entry stays, so the chain can be split there before and after
    obtain ⟨pre, rest, rfl⟩ := List.append_of_mem mem
    obtain ⟨pre', e', rest', rfl, same, keys⟩ := grown.split (kept e.key rfl)
    refine ⟨_, ⟨rfl, at_j', nonNull, fun h => succeeds.rehashing (rehashing h),
      .inr ⟨e', by simp, by rw [same], by rwa [same]⟩⟩, ?_⟩
    intro key holds stays
    have before : restOfChain ty (pre ++ e :: rest) (.entry e.key) = e :: rest :=
      restOfChain_first lawful (chain_distinct wf at_j)
    have after : restOfChain ty (pre' ++ e' :: rest') (.entry e'.key) = e' :: rest' :=
      restOfChain_first lawful (chain_distinct wf' at_j')
    rw [same] at after
    have here : (e' :: rest').any (hasKey ty key) = (e :: rest).any (hasKey ty key) := by
      rw [any_hasKey, any_hasKey, List.map_cons, List.map_cons, keys, same, List.any_cons,
        List.any_cons, any_filter_of_stays stays]
    have rest_eq := later key holds stays
    simp only [remaining, at_j, at_j', Option.getD_some, before, after, List.any_append, here,
      rest_eq]

end Iterators

/-! ## The operations -/

section Operations

variable {key : K}

theorem ht_setHt (d : Dict K V) (second : Bool) (t : Dictht K V) (other : Bool) :
    (d.setHt second t).ht other = if other = second then t else d.ht other := by
  cases second <;> cases other <;> rfl

/-- One bucket of one table is changed. -/
theorem Succeeds.of_chain {gone : K → Bool} {second : Bool} {i used : Nat}
    {chain chain' : List (DictEntry K V)} (at_i : (d.ht second).table[i]? = some chain)
    (grown : Grown ty d gone chain chain')
    (others : ∀ second' j other, (second', j) ≠ (second, i) →
      (d.ht second').table[j]? = some other → Grown ty d gone other other) :
    Succeeds ty gone d (d.setHt second
      { d.ht second with table := (d.ht second).table.set i chain', used := used }) := by
  have inside := (List.getElem?_eq_some_iff.mp at_i).1
  -- every other bucket is read as before
  have bucket : ∀ second' (j : Nat), (Dict.ht (d.setHt second { d.ht second with
      table := (d.ht second).table.set i chain', used := used }) second').table[j]? =
        if (second', j) = (second, i) then some chain' else (d.ht second').table[j]? := by
    intro second' j
    rw [ht_setHt]
    by_cases same : second' = second
    · subst same
      rw [if_pos rfl]
      by_cases here : j = i
      · subst here
        rw [if_pos rfl]
        exact List.getElem?_set_self inside
      · rw [if_neg (by simp [here])]
        exact List.getElem?_set_ne (Ne.symm here)
    · rw [if_neg same, if_neg (by simp [same])]
  constructor
  · intro rehashing
    cases second <;> exact rehashing
  · cases second <;> rfl
  · intro second' j other at_j
    rw [bucket]
    split
    · rename_i same
      cases same
      rw [at_i] at at_j
      cases at_j
      exact ⟨chain', rfl, grown⟩
    · rename_i apart
      exact ⟨other, at_j, others second' j other apart at_j⟩
  · intro second' j chain'' absent at_j
    rw [bucket] at at_j
    split at at_j
    · rename_i same
      cases same
      rw [at_i] at absent
      cases absent
    · rw [absent] at at_j
      cases at_j

/-- `dictSetVal` keeps all keys. -/
theorem Succeeds.dictSetVal {ref : EntryRef} (points : Points ty d key ref) (v : V) :
    Succeeds ty (fun _ => false) d (d.dictSetVal ref v) := by
  obtain ⟨chain, at_i, _⟩ := points.entry
  rw [Dict.dictSetVal_eq at_i]
  refine .of_chain at_i (.of_keys ?_) fun _ _ other _ _ => .refl other
  apply List.ext_getElem?
  intro k
  simp only [List.getElem?_map, List.getElem?_modify]
  cases chain[k]? with
  | none => rfl
  | some e =>
      simp only [Option.map_some]
      split <;> rfl

/-- A new key goes in front of its chain. -/
theorem Succeeds.insert {second : Bool} {i : Nat} {t : Dictht K V}
    (pushed : (d.ht second).pushFront i ⟨key, none⟩ = .ok t) (absent : ¬ Holds ty d key) :
    Succeeds ty (fun _ => false) d (d.setHt second t) := by
  unfold Dictht.pushFront Dictht.chain at pushed
  cases at_i : (d.ht second).table[i]? with
  | none =>
      rw [at_i] at pushed
      cases pushed
  | some chain =>
      rw [at_i] at pushed
      cases pushed
      refine .of_chain at_i ⟨[key], by simp, ?_⟩ fun _ _ other _ _ => .refl other
      simpa using absent

/-- A table without buckets is replaced by one whose buckets are empty. -/
theorem Succeeds.opened {second : Bool} {size : Nat} {gone : K → Bool}
    (unallocated : (d.ht second).table = [])
    (rehashing : d.dictIsRehashing = true → d'.dictIsRehashing = true)
    (iterators : d'.iterators = d.iterators) (new : d'.ht second = newTable size)
    (other : d'.ht (!second) = d.ht (!second))
    (kept : ∀ chain : List (DictEntry K V), Grown ty d gone chain chain) :
    Succeeds ty gone d d' := by
  refine ⟨rehashing, iterators, ?_, ?_⟩
  · intro second' j chain at_j
    by_cases same : second' = second
    · subst same
      rw [unallocated] at at_j
      cases at_j
    · obtain rfl : second' = !second := by cases second' <;> cases second <;> simp_all
      exact ⟨chain, by rw [other]; exact at_j, kept chain⟩
  · intro second' j chain' absent at_j
    by_cases same : second' = second
    · subst same
      rw [new] at at_j
      have empty : chain' = [] :=
        List.eq_of_mem_replicate (List.mem_iff_getElem?.mpr ⟨j, at_j⟩)
      subst empty
      simp
    · obtain rfl : second' = !second := by cases second' <;> cases second <;> simp_all
      rw [other, absent] at at_j
      cases at_j

/-- `dictExpand` opens a table, or does nothing. -/
theorem Succeeds.dictExpand (wf : d.WF ty) (size : Nat) :
    Succeeds ty (fun _ => false) d (d.dictExpand size).1 := by
  unfold Dict.dictExpand
  split
  · exact .refl d
  · rename_i allowed
    split
    · exact .refl d
    · split
      · rename_i unallocated
        have empty : (d.ht false).table = [] := List.isEmpty_iff.mp unallocated
        exact .opened empty id rfl rfl rfl .refl
      · have idle : ¬ d.dictIsRehashing = true := by
          intro moving
          exact allowed (by simp [moving])
        -- without a rehash the second table is the one to open
        have closed : (d.ht true).table = [] := by
          show d.ht1.table = []
          rw [(wf.shape.not_rehashing idle).2]
          rfl
        exact .opened closed (fun _ => rfl) rfl rfl rfl .refl

theorem Succeeds.dictExpandIfNeeded (wf : d.WF ty) (canResize : Bool) :
    Succeeds ty (fun _ => false) d (d.dictExpandIfNeeded canResize).1 := by
  unfold Dict.dictExpandIfNeeded
  split
  · exact .refl d
  · split
    · exact .dictExpand wf _
    · split
      · exact .dictExpand wf _
      · exact .refl d

/-- Taking out the entry of a key. -/
theorem Succeeds.unlink {ref : EntryRef} (points : Points ty d key ref) (wf : d.WF ty)
    (lawful : ty.Lawful) : Succeeds ty (ty.keyCompare key) d (d.unlink ref) := by
  obtain ⟨chain, at_i, found⟩ := points.entry
  -- a chain that does not have the key loses nothing
  have without : ∀ other : List (DictEntry K V), (∀ e ∈ other, hasKey ty key e = false) →
      Grown ty d (ty.keyCompare key) other other := by
    intro other none
    refine ⟨[], ?_, by simp⟩
    rw [List.nil_append, List.filter_eq_self.mpr]
    intro k mem
    obtain ⟨e, inChain, rfl⟩ := List.mem_map.mp mem
    have := none e inChain
    rw [hasKey] at this
    rw [this]
    rfl
  rw [Dict.unlink_eq at_i]
  refine .of_chain at_i ?_ ?_
  · -- its own chain has the key once, so erasing one entry is filtering
    have unique : Unique (hasKey ty key) chain :=
      (wf.unique lawful key).sublist (chain_sublist_entries at_i)
    have erased : chain.eraseIdx ref.pos = chain.eraseP (hasKey ty key) := by
      rw [List.eraseP_eq_eraseIdx, found]
    refine ⟨[], ?_, by simp⟩
    rw [erased, unique.eraseP_eq_filter, List.nil_append, List.filter_map]
    rfl
  · intro second' j other apart at_j
    refine without other ?_
    by_cases same : second' = ref.second
    · subst same
      have elsewhere : j ≠ slot (ty.hashFunction key) (d.ht ref.second).sizemask := by
        rw [← points.bucket]
        rintro rfl
        exact apart rfl
      exact (wf.ht_wf ref.second).onlyIn lawful key j other elsewhere at_j
    · obtain rfl : second' = !ref.second := by
        cases h : ref.second <;> cases second' <;> simp_all
      intro e mem
      refine points.other_none wf lawful e ?_
      exact List.mem_flatten.mpr ⟨other, List.mem_iff_getElem?.mpr ⟨j, at_j⟩, mem⟩

/-- Two operations that delete nothing. -/
theorem Succeeds.trans (lawful : ty.Lawful) (first : Succeeds ty (fun _ => false) d d₁)
    (second : Succeeds ty (fun _ => false) d₁ d₂) : Succeeds ty (fun _ => false) d d₂ := by
  -- what is new to the second operation was new to the first
  have fresh : ∀ k, ¬ Holds ty d₁ k → ¬ Holds ty d k := by
    intro k absent holds
    exact absent (first.holds lawful holds fun _ _ => rfl)
  refine ⟨fun h => second.rehashing (first.rehashing h), second.iterators.trans first.iterators,
    ?_, ?_⟩
  · intro tb j chain at_j
    obtain ⟨chain₁, at_j₁, new₁, keys₁, fresh₁⟩ := first.chains tb j chain at_j
    obtain ⟨chain₂, at_j₂, new₂, keys₂, fresh₂⟩ := second.chains tb j chain₁ at_j₁
    refine ⟨chain₂, at_j₂, new₂ ++ new₁, ?_, ?_⟩
    · rw [keys₂, keys₁]
      simp
    · intro k mem
      rcases List.mem_append.mp mem with late | early
      · exact fresh k (fresh₂ k late)
      · exact fresh₁ k early
  · intro tb j chain₂ absent at_j₂ e mem
    cases at_j₁ : (d₁.ht tb).table[j]? with
    | none => exact fresh _ (second.created tb j chain₂ at_j₁ at_j₂ e mem)
    | some chain₁ =>
        obtain ⟨chain', at_j', new, keys, fresh'⟩ := second.chains tb j chain₁ at_j₁
        rw [at_j₂] at at_j'
        cases at_j'
        have inKeys : e.key ∈ new ++ chain₁.map (·.key) := by
          have := List.mem_map_of_mem (f := (·.key)) mem
          rw [keys] at this
          simpa using this
        rcases List.mem_append.mp inKeys with late | early
        · exact fresh _ (fresh' _ late)
        · obtain ⟨e₁, mem₁, same⟩ := List.mem_map.mp early
          rw [← same]
          exact first.created tb j chain₁ absent at_j₁ e₁ mem₁

theorem not_holds_of_find (absent : d.entries.find? (hasKey ty key) = none) :
    ¬ Holds ty d key := by
  rintro ⟨e, mem, equal⟩
  exact List.find?_eq_none.mp absent e mem equal

/-- A rehash step is made only while no iterator is registered. -/
structure Stepped (d d₁ : Dict K V) : Prop where
  iterators : d₁.iterators = d.iterators
  busy : d.iterators ≠ 0 → d₁ = d

theorem Stepped.refl (d : Dict K V) : Stepped d d := ⟨rfl, fun _ => rfl⟩

theorem Dict.WF.rehashStep_stepped (wf : d.WF ty) (lawful : ty.Lawful) :
    ∃ d₁, d.rehashStep ty = .ok d₁ ∧ d₁.WF ty ∧ d₁.dictSize = d.dictSize ∧ Stepped d d₁ := by
  by_cases steps : (d.dictIsRehashing && decide (d.iterators = 0)) = true
  · obtain ⟨d₁, more, rehashed, wf₁, perm, iterators⟩ := wf.dictRehash_spec lawful 1
    refine ⟨d₁, ?_, wf₁, ?_, iterators, ?_⟩
    · rw [Dict.rehashStep, if_pos steps, rehashed]
      rfl
    · rw [wf₁.dictSize_eq, wf.dictSize_eq, perm.length_eq]
    · intro busy
      simp [busy] at steps
  · exact ⟨d, by rw [Dict.rehashStep, if_neg steps], wf, rfl, .refl d⟩

/-- `dictAddRaw` after its rehash step. -/
theorem Succeeds.dictAddRaw (stepped : d.rehashStep ty = .ok d₁) (wf : d₁.WF ty)
    (lawful : ty.Lawful) (canResize : Bool) (few : d₁.dictSize < 2 ^ 61) (key : K) :
    ∃ d' ref, Points ty d' key ref ∧ Succeeds ty (fun _ => false) d₁ d' ∧
      (d.dictAddRaw ty canResize key = .ok (d', .existing (some ref)) ∨
        d.dictAddRaw ty canResize key = .ok (d', .new ref)) := by
  obtain ⟨d₂, expanded, wf₂, _, alloc⟩ := wf.dictExpandIfNeeded_spec canResize few
  have grown : Succeeds ty (fun _ => false) d₁ d₂ := by
    have := Succeeds.dictExpandIfNeeded wf canResize
    rwa [expanded] at this
  unfold Dict.dictAddRaw
  simp only [stepped, bind, Except.bind, expanded, Bool.not_true, Bool.false_eq_true, if_false]
  rcases wf₂.locate_spec lawful alloc key with ⟨ref, located, points⟩ | ⟨located, absent⟩
  · refine ⟨d₂, ref, points, grown, .inl ?_⟩
    rw [located]
    rfl
  · obtain ⟨t, idx, pushed, rfl, _, _, points⟩ := wf₂.insert_spec lawful alloc absent
    refine ⟨_, _, points, grown.trans lawful (.insert pushed (not_holds_of_find absent)), .inr ?_⟩
    rw [located]
    simp only [pushed]
    rfl

/-- `dictFind` makes its rehash step and nothing else. -/
theorem Dict.WF.dictFind_stepped (wf : d.WF ty) (lawful : ty.Lawful)
    {e : Option (DictEntry K V)} (found : d.dictFind ty key = .ok (d', e)) : Stepped d d' := by
  obtain ⟨d₁, stepped, _, _, after⟩ := wf.rehashStep_stepped lawful
  simp only [Dict.dictFind, stepped, bind, Except.bind, pure, Except.pure] at found
  split at found
  · cases found
    exact .refl d
  · cases located : d₁.locate ty key with
    | error fault =>
        rw [located] at found
        cases found
    | ok place =>
        rw [located] at found
        cases place <;> cases found <;> exact after

/-- `dictGenericDelete` after its rehash step. -/
theorem Succeeds.dictGenericDelete (wf : d.WF ty) (lawful : ty.Lawful)
    {e : Option (DictEntry K V)} (deleted : d.dictGenericDelete ty key = .ok (d', e)) :
    ∃ d₁, Stepped d d₁ ∧
      Succeeds ty (if e.isSome then ty.keyCompare key else fun _ => false) d₁ d' := by
  obtain ⟨d₁, stepped, wf₁, size, after⟩ := wf.rehashStep_stepped lawful
  by_cases none_used : d.ht0.used = 0 ∧ d.ht1.used = 0
  · rw [Dict.dictGenericDelete, if_pos none_used] at deleted
    cases deleted
    exact ⟨d, .refl d, .refl d⟩
  · have used : d₁.dictSize ≠ 0 := by
      rw [size]
      unfold Dict.dictSize
      omega
    simp only [Dict.dictGenericDelete, if_neg none_used, stepped, bind, Except.bind, pure,
      Except.pure] at deleted
    rcases wf₁.locate_spec lawful (wf₁.alloc_of_dictSize used) key with
      ⟨ref, located, points⟩ | ⟨located, _⟩
    · obtain ⟨e, pointed, _⟩ := points.deref_eq wf₁ lawful
      rw [located] at deleted
      simp only [pointed] at deleted
      cases deleted
      exact ⟨d₁, after, .unlink points wf₁ lawful⟩
    · rw [located] at deleted
      cases deleted
      exact ⟨_, after, .refl _⟩

end Operations

/-! ## The calls that may be made during an iteration -/

/-- `dictFind`, `dictAdd`, `dictReplace`, `dictResize`, `dictExpand` and `dictDelete`. -/
def Op.duringIteration : Op K V → Bool
  | .find _ | .add _ _ | .replace _ _ | .resize | .expand _ | .delete _ => true
  | _ => false

/-- The keys of the entry that the call has freed. -/
def Op.frees (ty : DictType K) : Op K V → Reply K V → K → Bool
  | .delete key, .flag true => ty.keyCompare key
  | _, _ => fun _ => false

/-- What a call does to the tables, after its rehash step. -/
theorem Op.exec_succeeds (lawful : ty.Lawful) {s s' : DictState K V} (wf : s.dict.WF ty)
    {o : Op K V} (during : o.duringIteration = true) (legal : o.Legal s) {reply : Reply K V}
    (executed : o.exec ty s = .ok (s', reply)) :
    ∃ d₁, Stepped s.dict d₁ ∧ Succeeds ty (o.frees ty reply) d₁ s'.dict := by
  have few := legal.few
  obtain ⟨d₁, stepped, wf₁, size, after⟩ := wf.rehashStep_stepped lawful
  have few₁ : d₁.dictSize < 2 ^ 61 := size ▸ few
  cases o with
  | find key =>
      obtain ⟨⟨d', e⟩, found, returned⟩ := bind_eq_ok executed
      cases returned
      exact ⟨d', wf.dictFind_stepped lawful found, .refl d'⟩
  | add key v =>
      obtain ⟨d', ref, points, succeeds, added | added⟩ :=
        Succeeds.dictAddRaw stepped wf₁ lawful s.dictCanResize few₁ key
      · simp only [Op.exec, Dict.dictAdd, added, bind, Except.bind, pure, Except.pure] at executed
        cases executed
        exact ⟨d₁, after, succeeds⟩
      · simp only [Op.exec, Dict.dictAdd, added, bind, Except.bind, pure, Except.pure] at executed
        cases executed
        exact ⟨d₁, after, succeeds.trans lawful (.dictSetVal points v)⟩
  | replace key v =>
      obtain ⟨d', ref, points, succeeds, added | added⟩ :=
        Succeeds.dictAddRaw stepped wf₁ lawful s.dictCanResize few₁ key
      · simp only [Op.exec, Dict.dictReplace, added, bind, Except.bind, pure, Except.pure]
          at executed
        cases executed
        exact ⟨d₁, after, succeeds.trans lawful (.dictSetVal points v)⟩
      · simp only [Op.exec, Dict.dictReplace, added, bind, Except.bind, pure, Except.pure]
          at executed
        cases executed
        exact ⟨d₁, after, succeeds.trans lawful (.dictSetVal points v)⟩
  | delete key =>
      obtain ⟨⟨d', ok⟩, removed, returned⟩ := bind_eq_ok executed
      obtain ⟨⟨d'', e⟩, deleted, answered⟩ := bind_eq_ok removed
      cases answered
      cases returned
      obtain ⟨d₁, after, succeeds⟩ := Succeeds.dictGenericDelete wf lawful deleted
      refine ⟨d₁, after, ?_⟩
      cases e <;> exact succeeds
  | expand size =>
      cases executed
      exact ⟨s.dict, .refl _, .dictExpand wf size⟩
  | resize =>
      cases executed
      refine ⟨s.dict, .refl _, ?_⟩
      show Succeeds ty (fun _ => false) s.dict (s.dict.dictResize s.dictCanResize).1
      unfold Dict.dictResize
      split
      · exact .refl s.dict
      · exact .dictExpand wf _
  | _ => cases during

end GpBase.Dictionary

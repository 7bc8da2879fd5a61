import GpBase.Dictionary.Invariant

/-!
# What each dictionary operation does

One lemma for each operation of `gp_dict.c`, in terms of the entries of a well
formed dictionary: it returns, keeps the invariant, and changes the entries
and answers as a map would.
-/

namespace GpBase.Dictionary

open GpBase.Lib

variable {K V : Type} {ty : DictType K} {d : Dict K V}

namespace Dict

/-! ## Resizing and rehashing -/

/-- A call of `dictRehash` during a rehash. -/
theorem Shape.dictRehash_progress (shape : d.Shape ty) {idx : Nat}
    (started : d.rehashidx = some idx) (n : Nat) :
    ∃ d' more, d.dictRehash ty n = .ok (d', more) ∧ d'.Shape ty ∧
      d'.entries.Perm d.entries ∧ d'.iterators = d.iterators ∧
      d.Progress idx (min n 1) d' more := by
  have same : { d with rehashidx := some idx } = d := by rw [← started]
  unfold Dict.dictRehash
  rw [started]
  exact rehashLoop_shape n _ (by rw [same]; exact shape)

theorem Shape.dictRehash_spec (shape : d.Shape ty) (n : Nat) :
    ∃ d' more, d.dictRehash ty n = .ok (d', more) ∧ d'.Shape ty ∧
      d'.entries.Perm d.entries ∧ d'.iterators = d.iterators := by
  cases started : d.rehashidx with
  | none =>
      refine ⟨d, false, ?_, shape, .refl _, rfl⟩
      rw [Dict.dictRehash, started]
  | some idx =>
      obtain ⟨d', more, rehashed, shape', perm, iters, _⟩ := shape.dictRehash_progress started n
      exact ⟨d', more, rehashed, shape', perm, iters⟩

theorem WF.dictRehash_spec (wf : d.WF ty) (lawful : ty.Lawful) (n : Nat) :
    ∃ d' more, d.dictRehash ty n = .ok (d', more) ∧ d'.WF ty ∧
      d'.entries.Perm d.entries ∧ d'.iterators = d.iterators := by
  obtain ⟨d', more, rehashed, shape', perm, iters⟩ := wf.shape.dictRehash_spec n
  exact ⟨d', more, rehashed, shape'.wf (distinct_perm lawful perm.symm wf.distinct), perm, iters⟩

theorem Shape.rehashStep_spec (shape : d.Shape ty) :
    ∃ d', d.rehashStep ty = .ok d' ∧ d'.Shape ty ∧ d'.entries.Perm d.entries := by
  unfold Dict.rehashStep
  split
  · obtain ⟨d', more, rehashed, shape', perm, _⟩ := shape.dictRehash_spec 1
    exact ⟨d', by rw [rehashed]; rfl, shape', perm⟩
  · exact ⟨d, rfl, shape, .refl _⟩

theorem WF.rehashStep_spec (wf : d.WF ty) (lawful : ty.Lawful) :
    ∃ d', d.rehashStep ty = .ok d' ∧ d'.WF ty ∧ d'.entries.Perm d.entries := by
  obtain ⟨d', stepped, shape', perm⟩ := wf.shape.rehashStep_spec
  exact ⟨d', stepped, shape'.wf (distinct_perm lawful perm.symm wf.distinct), perm⟩

/-- Doubling from `2 ^ k` stops at the first power that covers `size`. -/
theorem nextPowerLoop_spec (size rounds : Nat) {k top : Nat} (reach : k ≤ top) (enough : top ≤ k + rounds)
    (covered : size ≤ 2 ^ top) :
    ∃ m, k ≤ m ∧ m ≤ top ∧ nextPowerLoop size rounds (2 ^ k) = 2 ^ m ∧ size ≤ 2 ^ m := by
  induction rounds generalizing k with
  | zero =>
      obtain rfl : top = k := by omega
      exact ⟨top, le_refl _, le_refl _, rfl, covered⟩
  | succ rounds ih =>
      rw [nextPowerLoop]
      split
      · rename_i reached
        exact ⟨k, le_refl k, reach, rfl, reached⟩
      · rename_i short
        have further : k < top := by
          by_contra stop
          obtain rfl : top = k := by omega
          exact short covered
        obtain ⟨m, above, below, looped, covers⟩ := ih (k := k + 1) further (by omega)
        exact ⟨m, by omega, below, by rw [← Nat.pow_succ]; exact looped, covers⟩

/-- Table sizes are powers of two from 4 to `2 ^ 63`. -/
theorem dictNextPower_spec (size : Nat) :
    ∃ k, 2 ≤ k ∧ k ≤ 63 ∧ dictNextPower size = 2 ^ k ∧ (size < 2 ^ 63 → size ≤ 2 ^ k) := by
  unfold dictNextPower
  split
  · exact ⟨63, by omega, le_refl _, rfl, Nat.le_of_lt⟩
  · obtain ⟨m, above, below, looped, covers⟩ :=
      nextPowerLoop_spec size 64 (k := 2) (by omega) (by omega) (show size ≤ 2 ^ 63 by omega)
    exact ⟨m, above, below, looped, fun _ => covers⟩

theorem newTable_allocated {k : Nat} (low : 2 ≤ k) (high : k ≤ 63) :
    (newTable (2 ^ k) : Dictht K V).Allocated k :=
  ⟨low, high, rfl, List.length_replicate, rfl⟩

theorem newTable_entries (size : Nat) : (newTable size : Dictht K V).entries = [] := by
  simp [Dictht.entries, newTable]

theorem newTable_wf {k : Nat} (low : 2 ≤ k) (high : k ≤ 63) :
    Dictht.WF ty (newTable (2 ^ k) : Dictht K V) where
  shape := .inr ⟨k, newTable_allocated low high⟩
  used := by
    rw [newTable_entries]
    rfl
  placed := by
    intro i chain at_i e mem
    obtain rfl : chain = [] :=
      List.eq_of_mem_replicate (List.mem_iff_getElem?.mpr ⟨i, at_i⟩)
    cases mem

/-- `dictExpand` starts a rehash or allocates the first table; the entries stay
where they are. -/
theorem Shape.dictExpand_spec (shape : d.Shape ty) (size : Nat) :
    (d.dictExpand size).1.Shape ty ∧ (d.dictExpand size).1.entries = d.entries ∧
      (d.dictExpand size).1.iterators = d.iterators := by
  obtain ⟨k, low, high, power, _⟩ := dictNextPower_spec size
  unfold Dict.dictExpand
  split
  · exact ⟨shape, rfl, rfl⟩
  · rename_i allowed
    have idle : d.rehashidx = none := by
      have : d.rehashidx.isSome = false := by
        simp only [Bool.or_eq_true, not_or] at allowed
        exact Bool.eq_false_iff.mpr allowed.1
      simpa using this
    have second : d.ht1.entries = [] := by
      rw [shape.idle idle]
      rfl
    split
    · exact ⟨shape, rfl, rfl⟩
    · rename_i resized
      split
      · rename_i unallocated
        have first : d.ht0.entries = [] := by
          rw [Dictht.entries, List.isEmpty_iff.mp unallocated]
          rfl
        rw [power]
        have entries : Dict.entries { d with ht0 := newTable (2 ^ k) } = d.entries := by
          rw [Dict.entries, Dict.entries, newTable_entries, first]
        refine ⟨⟨newTable_wf low high, shape.second, shape.idle, ?_⟩, entries, rfl⟩
        intro idx started
        rw [show d.rehashidx = some idx from started] at idle
        cases idle
      · rename_i allocated
        rw [power] at resized ⊢
        have entries : Dict.entries { d with ht1 := newTable (2 ^ k), rehashidx := some 0 } =
            d.entries := by
          rw [Dict.entries, Dict.entries, newTable_entries, second]
        refine ⟨⟨shape.first, newTable_wf low high, ?_, ?_⟩, entries, rfl⟩
        · intro stopped
          cases stopped
        · rintro _ ⟨⟩
          refine ⟨?_, (newTable_allocated low high).ne_nil, Ne.symm resized, Nat.zero_le _, ?_⟩
          · intro empty
            exact allocated (List.isEmpty_iff.mpr empty)
          · intro j before
            omega

theorem WF.dictExpand_spec (wf : d.WF ty) (size : Nat) :
    (d.dictExpand size).1.WF ty ∧ (d.dictExpand size).1.entries = d.entries ∧
      (d.dictExpand size).1.iterators = d.iterators := by
  obtain ⟨shape', entries, iters⟩ := wf.shape.dictExpand_spec size
  exact ⟨shape'.wf (entries ▸ wf.distinct), entries, iters⟩

theorem Shape.dictResize_spec (shape : d.Shape ty) (canResize : Bool) :
    (d.dictResize canResize).1.Shape ty ∧ (d.dictResize canResize).1.entries = d.entries := by
  unfold Dict.dictResize
  split
  · exact ⟨shape, rfl⟩
  · obtain ⟨shape', entries, _⟩ := shape.dictExpand_spec _
    exact ⟨shape', entries⟩

theorem WF.dictResize_spec (wf : d.WF ty) (canResize : Bool) :
    (d.dictResize canResize).1.WF ty ∧ (d.dictResize canResize).1.entries = d.entries ∧
      (d.dictResize canResize).1.iterators = d.iterators := by
  unfold Dict.dictResize
  split
  · exact ⟨wf, rfl, rfl⟩
  · exact wf.dictExpand_spec _

/-- `dictExpand` on an idle dictionary to a new size succeeds. -/
theorem dictExpand_ok {size : Nat} (idle : d.rehashidx = none) (room : d.ht0.used ≤ size)
    (resized : dictNextPower size ≠ d.ht0.size) : (d.dictExpand size).2 = true := by
  unfold Dict.dictExpand
  have allowed : ¬ (d.dictIsRehashing || decide (size < d.ht0.used)) = true := by
    simp [Dict.dictIsRehashing, idle, room]
  rw [if_neg allowed, if_neg resized]
  split <;> rfl

/-- After a successful `dictExpand` the first table is allocated. -/
theorem dictExpand_allocated {size : Nat} (succeeded : (d.dictExpand size).2 = true) :
    (d.dictExpand size).1.ht0.table ≠ [] := by
  obtain ⟨k, low, high, power, _⟩ := dictNextPower_spec size
  unfold Dict.dictExpand at succeeded ⊢
  split at succeeded
  · cases succeeded
  · rename_i allowed
    rw [if_neg allowed]
    split at succeeded
    · cases succeeded
    · rename_i resized
      rw [if_neg resized]
      split
      · rw [power]
        exact (newTable_allocated low high).ne_nil
      · rename_i allocated
        intro empty
        exact allocated (List.isEmpty_iff.mpr empty)

theorem Shape.not_rehashing (shape : d.Shape ty) (idle : ¬ d.dictIsRehashing = true) :
    d.rehashidx = none ∧ d.ht1 = dictReset := by
  have : d.rehashidx = none := by simpa [Dict.dictIsRehashing] using idle
  exact ⟨this, shape.idle this⟩

/-- Before an insertion there is a table to insert into. -/
theorem Shape.dictExpandIfNeeded_spec (shape : d.Shape ty) (canResize : Bool)
    (few : d.dictSize < 2 ^ 61) :
    ∃ d', d.dictExpandIfNeeded canResize = (d', true) ∧ d'.Shape ty ∧ d'.entries = d.entries ∧
      d'.ht0.table ≠ [] := by
  have expands : ∀ size, d.rehashidx = none → d.ht0.used ≤ size →
      dictNextPower size ≠ d.ht0.size →
      ∃ d', d.dictExpand size = (d', true) ∧ d'.Shape ty ∧ d'.entries = d.entries ∧
        d'.ht0.table ≠ [] := by
    intro size idle room resized
    have succeeded := dictExpand_ok idle room resized
    obtain ⟨shape', entries, _⟩ := shape.dictExpand_spec size
    exact ⟨_, Prod.ext rfl succeeded, shape', entries, dictExpand_allocated succeeded⟩
  unfold Dict.dictExpandIfNeeded
  split
  · rename_i rehashing
    obtain ⟨idx, started⟩ := Option.isSome_iff_exists.mp rehashing
    exact ⟨d, rfl, shape, rfl, (shape.moving idx started).from_alloc⟩
  · rename_i still
    obtain ⟨idle, _⟩ := shape.not_rehashing still
    split
    · rename_i unallocated
      have fresh : d.ht0 = dictReset := by
        rcases shape.first.shape with reset | ⟨k, alloc⟩
        · exact reset
        · have := alloc.size
          have := Nat.two_pow_pos k
          omega
      refine expands initialSize idle ?_ ?_
      · rw [fresh]
        exact Nat.zero_le _
      · rw [fresh]
        show dictNextPower initialSize ≠ 0
        decide
    · rename_i allocated
      have alloc : d.ht0.table ≠ [] := by
        intro empty
        apply allocated
        rw [shape.first.size_eq, empty]
        rfl
      split
      · rename_i full
        have crowded : d.ht0.size ≤ d.ht0.used := by
          simp only [Bool.and_eq_true, decide_eq_true_eq] at full
          exact full.1
        have small : d.ht0.used < 2 ^ 61 := by
          unfold Dict.dictSize at few
          omega
        obtain ⟨k, _, _, power, covers⟩ := dictNextPower_spec (d.ht0.used * 2 % 2 ^ 64)
        have covers := covers (by omega)
        refine expands _ idle (by omega) ?_
        rw [power]
        omega
      · exact ⟨d, rfl, shape, rfl, alloc⟩

theorem WF.dictExpandIfNeeded_spec (wf : d.WF ty) (canResize : Bool)
    (few : d.dictSize < 2 ^ 61) :
    ∃ d', d.dictExpandIfNeeded canResize = (d', true) ∧ d'.WF ty ∧ d'.entries = d.entries ∧
      d'.ht0.table ≠ [] := by
  obtain ⟨d', expanded, shape', entries, alloc⟩ := wf.shape.dictExpandIfNeeded_spec canResize few
  exact ⟨d', expanded, shape'.wf (entries ▸ wf.distinct), entries, alloc⟩

/-! ## Searching -/

/-- A pointer to the entry with a key. -/
structure Points (ty : DictType K) (d : Dict K V) (key : K) (ref : EntryRef) : Prop where
  bucket : ref.idx = slot (ty.hashFunction key) (d.ht ref.second).sizemask
  entry : ∃ chain, (d.ht ref.second).table[ref.idx]? = some chain ∧
    chain.findIdx? (hasKey ty key) = some ref.pos

theorem Shape.ht_wf (shape : d.Shape ty) (second : Bool) : (d.ht second).WF ty := by
  cases second with
  | false => exact shape.first
  | true => exact shape.second

theorem WF.ht_wf (wf : d.WF ty) (second : Bool) : (d.ht second).WF ty := wf.shape.ht_wf second

/-- The table that a search looks at last, and that an insertion goes to. -/
theorem Shape.target_alloc (shape : d.Shape ty) (alloc : d.ht0.table ≠ []) :
    (d.ht d.dictIsRehashing).table ≠ [] := by
  cases rehashing : d.dictIsRehashing with
  | false => exact alloc
  | true =>
      obtain ⟨idx, started⟩ := Option.isSome_iff_exists.mp rehashing
      exact (shape.moving idx started).to_alloc

/-- Entries are in allocated tables. -/
theorem Shape.alloc_of_dictSize (shape : d.Shape ty) (some_used : d.dictSize ≠ 0) :
    d.ht0.table ≠ [] := by
  intro unallocated
  cases started : d.rehashidx with
  | some idx => exact (shape.moving idx started).from_alloc unallocated
  | none =>
      apply some_used
      rw [shape.dictSize_eq, Dict.entries, shape.idle started, Dictht.entries, unallocated]
      rfl

theorem WF.alloc_of_dictSize (wf : d.WF ty) (some_used : d.dictSize ≠ 0) : d.ht0.table ≠ [] :=
  wf.shape.alloc_of_dictSize some_used

/-- The chain of a key in one of the tables does not have the key. -/
def Missing (ty : DictType K) (d : Dict K V) (key : K) (second : Bool) : Prop :=
  ∃ chain, (d.ht second).table[slot (ty.hashFunction key) (d.ht second).sizemask]? = some chain ∧
    chain.findIdx? (hasKey ty key) = none

/-- A search ends at an entry with the key, or in a bucket of the last table searched. -/
theorem Shape.locate_spec (shape : d.Shape ty) (alloc : d.ht0.table ≠ []) (key : K) :
    (∃ ref, d.locate ty key = .ok (.found ref) ∧ Points ty d key ref) ∨
      (d.locate ty key =
          .ok (.missing (slot (ty.hashFunction key) (d.ht d.dictIsRehashing).sizemask)) ∧
        Missing ty d key false ∧ (d.dictIsRehashing = true → Missing ty d key true)) := by
  obtain ⟨chain, at_i⟩ := shape.first.chain_at alloc (ty.hashFunction key)
  unfold Dict.locate
  simp only [Dictht.chain, at_i, bind, Except.bind, pure, Except.pure]
  cases found : chain.findIdx? (hasKey ty key) with
  | some pos => exact .inl ⟨⟨false, _, pos⟩, rfl, ⟨rfl, chain, at_i, found⟩⟩
  | none =>
      have missing : Missing ty d key false := ⟨chain, at_i, found⟩
      cases rehashing : d.dictIsRehashing with
      | false => exact .inr ⟨rfl, missing, nofun⟩
      | true =>
          have alloc₁ := shape.target_alloc alloc
          rw [rehashing] at alloc₁
          obtain ⟨chain₁, at_i₁⟩ := shape.second.chain_at alloc₁ (ty.hashFunction key)
          simp only [Bool.not_true, Bool.false_eq_true, if_false, at_i₁]
          cases found₁ : chain₁.findIdx? (hasKey ty key) with
          | some pos => exact .inl ⟨⟨true, _, pos⟩, rfl, ⟨rfl, chain₁, at_i₁, found₁⟩⟩
          | none => exact .inr ⟨rfl, missing, fun _ => ⟨chain₁, at_i₁, found₁⟩⟩

/-- Only the chain of a key could have it. -/
theorem Missing.find_eq {key : K} {second : Bool} (missing : Missing ty d key second)
    (wf : (d.ht second).WF ty) (lawful : ty.Lawful) :
    (d.ht second).entries.find? (hasKey ty key) = none := by
  obtain ⟨chain, at_i, absent⟩ := missing
  rw [Dictht.entries, (wf.onlyIn lawful key).find?_flatten at_i, List.find?_eq_none]
  simpa [List.findIdx?_eq_none_iff] using absent

/-- A search ends at the entry with the key, or shows that there is none. -/
theorem WF.locate_spec (wf : d.WF ty) (lawful : ty.Lawful) (alloc : d.ht0.table ≠ []) (key : K) :
    (∃ ref, d.locate ty key = .ok (.found ref) ∧ Points ty d key ref) ∨
      (d.locate ty key =
          .ok (.missing (slot (ty.hashFunction key) (d.ht d.dictIsRehashing).sizemask)) ∧
        d.entries.find? (hasKey ty key) = none) := by
  rcases wf.shape.locate_spec alloc key with found | ⟨located, first, second⟩
  · exact .inl found
  · refine .inr ⟨located, ?_⟩
    have none₀ : d.ht0.entries.find? (hasKey ty key) = none := first.find_eq wf.first lawful
    rw [Dict.entries, List.find?_append, none₀, Option.none_or]
    cases rehashing : d.dictIsRehashing with
    | false =>
        rw [(wf.shape.not_rehashing (by simp [rehashing])).2]
        rfl
    | true => exact (second rehashing).find_eq wf.second lawful

/-! ## Changing one chain -/

theorem entries_setHt (second : Bool) (t : Dictht K V) :
    (d.setHt second t).entries =
      if second then d.ht0.entries ++ t.entries else t.entries ++ d.ht1.entries := by
  cases second <;> rfl

/-- Exchanging a non-empty chain for one with keys of the same bucket. -/
theorem Shape.setChain (shape : d.Shape ty) {second : Bool} {i used : Nat}
    {chain chain' : List (DictEntry K V)} (at_i : (d.ht second).table[i]? = some chain)
    (full : chain ≠ [])
    (belong : ∀ e ∈ chain', slot (ty.hashFunction e.key) (d.ht second).sizemask = i)
    (count : used = ((d.ht second).table.set i chain').flatten.length) {d' : Dict K V}
    (changed : d' = d.setHt second
      { d.ht second with table := (d.ht second).table.set i chain', used := used }) :
    d'.Shape ty := by
  have table := (shape.ht_wf second).setChain at_i belong count
  subst changed
  cases second with
  | false =>
      refine ⟨table, shape.second, shape.idle, ?_⟩
      intro idx started
      have moving := shape.moving idx started
      refine ⟨?_, moving.to_alloc, moving.resized, moving.bound, ?_⟩
      · intro empty
        exact moving.from_alloc (by simpa [Dict.setHt, Dict.ht] using empty)
      · intro j before
        -- the changed chain was not empty, so it is not one of the emptied ones
        have apart : i ≠ j := by
          rintro rfl
          exact full (Option.some.inj (at_i.symm.trans (moving.emptied i before)))
        show (d.ht0.table.set i chain')[j]? = some []
        rw [List.getElem?_set_ne apart]
        exact moving.emptied j before
  | true =>
      refine ⟨shape.first, table, ?_, ?_⟩
      · intro idle
        have := shape.idle idle
        rw [show d.ht true = dictReset from this] at at_i
        simp [dictReset] at at_i
      · intro idx started
        have moving := shape.moving idx started
        refine ⟨moving.from_alloc, ?_, moving.resized, moving.bound, moving.emptied⟩
        intro empty
        exact moving.to_alloc (by simpa [Dict.setHt, Dict.ht] using empty)

section Pointer

variable {key : K} {ref : EntryRef}

theorem chain_sublist_entries {second : Bool} {i : Nat} {chain : List (DictEntry K V)}
    (at_i : (d.ht second).table[i]? = some chain) : chain.Sublist d.entries := by
  have inTable : chain.Sublist (d.ht second).entries :=
    List.sublist_flatten_of_mem (List.mem_iff_getElem?.mpr ⟨i, at_i⟩)
  cases second with
  | false => exact inTable.trans (List.sublist_append_left _ _)
  | true => exact inTable.trans (List.sublist_append_right _ _)

/-- What a pointer points at is what a search for its key finds. -/
theorem Points.deref_eq (points : Points ty d key ref) (wf : d.WF ty) (lawful : ty.Lawful) :
    ∃ e, d.deref ref = some e ∧ d.entries.find? (hasKey ty key) = some e := by
  obtain ⟨chain, at_i, found⟩ := points.entry
  obtain ⟨inside, hit, _⟩ := List.findIdx?_eq_some_iff_getElem.mp found
  refine ⟨chain[ref.pos], ?_, ?_⟩
  · simp [Dict.deref, at_i, inside]
  · rw [(wf.unique lawful key).find?_eq_some_iff]
    exact ⟨(chain_sublist_entries at_i).mem (List.getElem_mem inside), hit⟩

/-- The other table has no entry with the key. -/
theorem Points.other_none (points : Points ty d key ref) (wf : d.WF ty) (lawful : ty.Lawful) :
    ∀ e ∈ (d.ht (!ref.second)).entries, hasKey ty key e = false := by
  obtain ⟨chain, at_i, found⟩ := points.entry
  obtain ⟨inside, hit, _⟩ := List.findIdx?_eq_some_iff_getElem.mp found
  have mem : chain[ref.pos] ∈ (d.ht ref.second).entries :=
    List.mem_flatten.mpr ⟨chain, List.mem_iff_getElem?.mpr ⟨_, at_i⟩, List.getElem_mem inside⟩
  have apart := (List.pairwise_append.mp (wf.unique lawful key)).2.2
  intro e other
  rw [Bool.eq_false_iff]
  intro twin
  cases second : ref.second with
  | false =>
      rw [second] at mem other
      exact apart _ mem e other hit twin
  | true =>
      rw [second] at mem other
      exact apart e other _ mem twin hit

/-- `dictSetVal` changes one bucket. -/
theorem dictSetVal_eq {chain : List (DictEntry K V)}
    (at_i : (d.ht ref.second).table[ref.idx]? = some chain) (v : V) :
    d.dictSetVal ref v = d.setHt ref.second { d.ht ref.second with
      table := (d.ht ref.second).table.set ref.idx
        (chain.modify ref.pos fun e => { e with val := some v }) } := by
  rw [Dict.dictSetVal, Dict.onChain, List.modify_eq_set, at_i, Option.getD_some]

/-- So does unlinking, which also counts the entry off. -/
theorem unlink_eq {chain : List (DictEntry K V)}
    (at_i : (d.ht ref.second).table[ref.idx]? = some chain) :
    d.unlink ref = d.setHt ref.second { d.ht ref.second with
      table := (d.ht ref.second).table.set ref.idx (chain.eraseIdx ref.pos)
      used := (d.ht ref.second).used - 1 } := by
  rw [Dict.unlink, Dict.onChain, List.modify_eq_set, at_i, Option.getD_some]
  cases ref.second <;> rfl

/-- The update that `dictSetVal` makes, on every entry. -/
def setVal (ty : DictType K) (key : K) (v : V) (e : DictEntry K V) : DictEntry K V :=
  if hasKey ty key e then { e with val := some v } else e

theorem setVal_key (v : V) (e : DictEntry K V) : (setVal ty key v e).key = e.key := by
  unfold setVal
  split <;> rfl

/-- `dictSetVal` through a pointer stores the value under the key. -/
theorem Points.dictSetVal_spec (points : Points ty d key ref) (wf : d.WF ty)
    (lawful : ty.Lawful) (v : V) :
    (d.dictSetVal ref v).WF ty ∧ (d.dictSetVal ref v).entries = d.entries.map (setVal ty key v) := by
  obtain ⟨chain, at_i, found⟩ := points.entry
  have full : chain ≠ [] := by
    rintro rfl
    cases found
  have table := wf.ht_wf ref.second
  have unique : Unique (hasKey ty key) chain :=
    (wf.unique lawful key).sublist (chain_sublist_entries at_i)
  have changed : chain.modify ref.pos (fun e => { e with val := some v }) =
      chain.map (setVal ty key v) := by
    rw [← (List.findIdx?_eq_some_iff_findIdx_eq.mp found).2, unique.modify_findIdx]
    rfl
  have result : d.dictSetVal ref v = d.setHt ref.second { d.ht ref.second with
      table := (d.ht ref.second).table.set ref.idx (chain.map (setVal ty key v)) } := by
    rw [Dict.dictSetVal_eq at_i, changed]
  have inTable : ((d.ht ref.second).table.set ref.idx (chain.map (setVal ty key v))).flatten =
      (d.ht ref.second).entries.map (setVal ty key v) := by
    have bucket := points.bucket
    rw [bucket] at at_i ⊢
    exact (table.onlyIn lawful key).map_flatten at_i _
  have entries : (d.dictSetVal ref v).entries = d.entries.map (setVal ty key v) := by
    have other := map_ite_of_none (points.other_none wf lawful) fun e => { e with val := some v }
    rw [result, entries_setHt, Dict.entries, List.map_append]
    cases second : ref.second with
    | false =>
        rw [second] at inTable other
        rw [if_neg (by simp)]
        exact congrArg₂ (· ++ ·) inTable other.symm
    | true =>
        rw [second] at inTable other
        rw [if_pos rfl]
        exact congrArg₂ (· ++ ·) other.symm inTable
  refine ⟨(wf.shape.setChain at_i full ?_ ?_ result).wf ?_, entries⟩
  · intro e mem
    obtain ⟨e₀, mem₀, rfl⟩ := List.mem_map.mp mem
    rw [setVal_key]
    exact table.placed _ chain at_i e₀ mem₀
  · rw [inTable, List.length_map, table.used]
  · rw [entries, List.pairwise_map]
    simpa only [setVal_key] using wf.distinct

/-- Unlinking through a pointer erases the key. -/
theorem Points.unlink_spec (points : Points ty d key ref) (wf : d.WF ty)
    (lawful : ty.Lawful) :
    (d.unlink ref).WF ty ∧ (d.unlink ref).entries = d.entries.eraseP (hasKey ty key) := by
  obtain ⟨chain, at_i, found⟩ := points.entry
  obtain ⟨inside, hit, _⟩ := List.findIdx?_eq_some_iff_getElem.mp found
  have full : chain ≠ [] := by
    rintro rfl
    cases found
  have table := wf.ht_wf ref.second
  have changed : chain.eraseIdx ref.pos = chain.eraseP (hasKey ty key) := by
    rw [List.eraseP_eq_eraseIdx, found]
  have result : d.unlink ref = d.setHt ref.second { d.ht ref.second with
      table := (d.ht ref.second).table.set ref.idx (chain.eraseP (hasKey ty key))
      used := (d.ht ref.second).used - 1 } := by
    rw [Dict.unlink_eq at_i, changed]
  have inTable : ((d.ht ref.second).table.set ref.idx (chain.eraseP (hasKey ty key))).flatten =
      (d.ht ref.second).entries.eraseP (hasKey ty key) := by
    have bucket := points.bucket
    rw [bucket] at at_i ⊢
    exact (table.onlyIn lawful key).eraseP_flatten at_i
  have mem : chain[ref.pos] ∈ (d.ht ref.second).entries :=
    List.mem_flatten.mpr ⟨chain, List.mem_iff_getElem?.mpr ⟨_, at_i⟩, List.getElem_mem inside⟩
  have entries : (d.unlink ref).entries = d.entries.eraseP (hasKey ty key) := by
    have other : ∀ e ∈ (d.ht (!ref.second)).entries, ¬ hasKey ty key e = true := by
      intro e elsewhere
      rw [points.other_none wf lawful e elsewhere]
      exact Bool.false_ne_true
    rw [result, entries_setHt, Dict.entries]
    cases second : ref.second with
    | false =>
        rw [second] at inTable mem
        rw [if_neg (by simp),
          List.eraseP_append_left hit _ (show _ ∈ d.ht0.entries from mem)]
        exact congrArg (· ++ _) inTable
    | true =>
        rw [second] at inTable other
        rw [if_pos rfl, List.eraseP_append_right _
          (show ∀ e ∈ d.ht0.entries, ¬ hasKey ty key e = true from other)]
        exact congrArg (_ ++ ·) inTable
  refine ⟨(wf.shape.setChain at_i full ?_ ?_ result).wf ?_, entries⟩
  · intro e left
    exact table.placed _ chain at_i e (List.mem_of_mem_eraseP left)
  · rw [inTable, table.used, List.length_eraseP_of_mem mem hit]
  · rw [entries]
    exact wf.distinct.sublist List.eraseP_sublist

end Pointer

/-! ## Insertion -/

/-- A new entry in front of its chain, in the table that receives insertions. -/
theorem Shape.insert_spec (shape : d.Shape ty) (alloc : d.ht0.table ≠ []) (key : K) :
    ∃ chain t, (d.ht d.dictIsRehashing).pushFront
          (slot (ty.hashFunction key) (d.ht d.dictIsRehashing).sizemask) ⟨key, none⟩ = .ok t ∧
      (d.setHt d.dictIsRehashing t).Shape ty ∧
      (d.setHt d.dictIsRehashing t).entries.Perm (⟨key, none⟩ :: d.entries) ∧
      t.sizemask = (d.ht d.dictIsRehashing).sizemask ∧
      t.table[slot (ty.hashFunction key) t.sizemask]? = some (⟨key, none⟩ :: chain) := by
  have target := shape.target_alloc alloc
  obtain ⟨chain, t, at_i, pushed, table, size, mask, form, perm⟩ :=
    (shape.ht_wf d.dictIsRehashing).pushFront_spec target (⟨key, none⟩ : DictEntry K V)
  refine ⟨chain, t, pushed, ?_, ?_, mask, ?_⟩
  · cases rehashing : d.dictIsRehashing with
    | false =>
        refine ⟨table, shape.second, shape.idle, ?_⟩
        intro idx started
        have : d.dictIsRehashing = true := Option.isSome_iff_exists.mpr ⟨idx, started⟩
        rw [rehashing] at this
        cases this
    | true =>
        rw [rehashing] at form size target
        obtain ⟨idx, started⟩ := Option.isSome_iff_exists.mp rehashing
        refine ⟨shape.first, table, ?_, ?_⟩
        · intro idle
          rw [show d.rehashidx = none from idle] at started
          cases started
        · intro idx started
          have moving := shape.moving idx started
          refine ⟨moving.from_alloc, ?_, ?_, moving.bound, moving.emptied⟩
          · show t.table ≠ []
            rw [form]
            simpa using target
          · show d.ht0.size ≠ t.size
            rw [size]
            exact moving.resized
  · rw [entries_setHt]
    cases rehashing : d.dictIsRehashing with
    | false =>
        rw [rehashing] at perm
        exact perm.append_right _
    | true =>
        rw [rehashing] at perm
        exact (perm.append_left _).trans List.perm_middle
  · rw [form, mask]
    exact List.getElem?_set_self (List.getElem?_eq_some_iff.mp at_i).1

theorem ht_setHt_self (second : Bool) (t : Dictht K V) : (d.setHt second t).ht second = t := by
  cases second <;> rfl

theorem WF.insert_spec (wf : d.WF ty) (lawful : ty.Lawful) (alloc : d.ht0.table ≠ []) {key : K}
    (absent : d.entries.find? (hasKey ty key) = none) :
    ∃ t idx, (d.ht d.dictIsRehashing).pushFront
          (slot (ty.hashFunction key) (d.ht d.dictIsRehashing).sizemask) ⟨key, none⟩ = .ok t ∧
      idx = slot (ty.hashFunction key) (d.ht d.dictIsRehashing).sizemask ∧
      (d.setHt d.dictIsRehashing t).WF ty ∧
      (d.setHt d.dictIsRehashing t).entries.Perm (⟨key, none⟩ :: d.entries) ∧
      Points ty (d.setHt d.dictIsRehashing t) key ⟨d.dictIsRehashing, idx, 0⟩ := by
  obtain ⟨chain, t, pushed, shape', entries, mask, at_i⟩ := wf.shape.insert_spec alloc key
  have distinct : (d.setHt d.dictIsRehashing t).entries.Pairwise
      fun a b => ty.keyCompare a.key b.key = false := by
    refine distinct_perm lawful entries.symm (List.pairwise_cons.mpr ⟨?_, wf.distinct⟩)
    intro e mem
    simpa [hasKey] using List.find?_eq_none.mp absent e mem
  refine ⟨t, _, pushed, rfl, shape'.wf distinct, entries, ?_, ?_⟩
  · show slot _ (d.ht d.dictIsRehashing).sizemask = slot _ (Dict.ht _ _).sizemask
    rw [ht_setHt_self, mask]
  · refine ⟨⟨key, none⟩ :: chain, ?_, ?_⟩
    · show (Dict.ht (d.setHt d.dictIsRehashing t) d.dictIsRehashing).table[_]? = _
      rw [ht_setHt_self, ← mask]
      exact at_i
    · have hit : hasKey ty key (⟨key, none⟩ : DictEntry K V) = true := lawful.refl key
      simp [List.findIdx?_cons, hit]

/-- `dictAddRaw` leads to the one entry with the key, old or new. -/
theorem WF.dictAddRaw_spec (wf : d.WF ty) (lawful : ty.Lawful) (canResize : Bool)
    (few : d.dictSize < 2 ^ 61) (key : K) :
    ∃ d' ref, d'.WF ty ∧ Points ty d' key ref ∧
      ((d.dictAddRaw ty canResize key = .ok (d', .existing (some ref)) ∧
          d'.entries.Perm d.entries) ∨
        (d.dictAddRaw ty canResize key = .ok (d', .new ref) ∧
          d.entries.find? (hasKey ty key) = none ∧
          d'.entries.Perm (⟨key, none⟩ :: d.entries))) := by
  obtain ⟨d₁, stepped, wf₁, perm₁⟩ := wf.rehashStep_spec lawful
  have few₁ : d₁.dictSize < 2 ^ 61 := by
    rw [wf₁.dictSize_eq, perm₁.length_eq, ← wf.dictSize_eq]
    exact few
  obtain ⟨d₂, expanded, wf₂, entries₂, alloc⟩ := wf₁.dictExpandIfNeeded_spec canResize few₁
  have perm₂ : d₂.entries.Perm d.entries := entries₂ ▸ perm₁
  unfold Dict.dictAddRaw
  simp only [stepped, bind, Except.bind, expanded, Bool.not_true, Bool.false_eq_true, if_false]
  rcases wf₂.locate_spec lawful alloc key with ⟨ref, located, points⟩ | ⟨located, absent⟩
  · refine ⟨d₂, ref, wf₂, points, .inl ⟨?_, perm₂⟩⟩
    rw [located]
    rfl
  · obtain ⟨t, idx, pushed, rfl, wf₃, perm₃, points⟩ := wf₂.insert_spec lawful alloc absent
    refine ⟨_, _, wf₃, points, .inr ⟨?_, ?_, perm₃.trans (perm₂.cons _)⟩⟩
    · rw [located]
      simp only [pushed]
      rfl
    · rw [← (wf₂.unique lawful key).find?_perm perm₂]
      exact absent

end Dict

end GpBase.Dictionary

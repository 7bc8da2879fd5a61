import GpBase.Dictionary.Map

/-!
# Safe iterators

Translation of `dictGetSafeIterator`, `dictNext` and `dictReleaseIterator` in
`gp_dict.c`. The pointers of an iterator stand for entries by their keys, which no
two entries share, until the entry is freed. What an iterator has still to return is
a list that every `dictNext` takes the head of; the other operations only put new
entries into it and take out the one that is deleted, because no rehash step is made
while an iterator is registered.
-/

namespace GpBase.Dictionary

open GpBase.Lib

variable {K V : Type}

/-- A `dictEntry *` that an iterator holds. -/
inductive EntryPtr (K : Type)
  | null
  | entry (key : K)
  | freed

/-- `dictIterator` with `safe` set; `index` is `none` for -1. -/
structure DictIterator (K : Type) where
  table : Bool
  index : Option Nat
  entry : EntryPtr K
  nextEntry : EntryPtr K

/-- `dictGetSafeIterator`. -/
def dictGetSafeIterator : DictIterator K := ⟨false, none, .null, .null⟩

/-- `dictNext` has been called: the test of `dictReleaseIterator`. -/
def DictIterator.started (it : DictIterator K) : Bool := !(it.index.isNone && !it.table)

/-- `iter->index` after its increment. -/
def DictIterator.nextIndex (it : DictIterator K) : Nat :=
  match it.index with
  | none => 0
  | some j => j + 1

/-- The pointer to the first of some entries. -/
def EntryPtr.first : List (DictEntry K V) → EntryPtr K
  | [] => .null
  | e :: _ => .entry e.key

namespace Dict

variable (ty : DictType K) (d : Dict K V)

/-- What is read through a pointer: the entry and its field `next`. -/
def readEntry : EntryPtr K → Except Fault (DictEntry K V × EntryPtr K)
  | .entry key => do
    match ← d.locate ty key with
    | .found ref =>
      let chain := ((d.ht ref.second).table[ref.idx]?).getD []
      match chain.drop ref.pos with
      | e :: rest => return (e, .first rest)
      | [] => .error .outOfBounds
    | .missing _ => .error .outOfBounds
  | _ => .error .outOfBounds

/-- The first `dictNext` counts the iterator. -/
def registered (it : DictIterator K) : Dict K V :=
  if it.started then d else { d with iterators := d.iterators + 1 }

/-- The branch of `dictNext` for `iter->entry == NULL`; the flag is false at the end. -/
def nextBucket (it : DictIterator K) : Except Fault (Dict K V × DictIterator K × Bool) :=
  let d := d.registered it
  let index := it.nextIndex
  if (d.ht it.table).size ≤ index then
    if d.dictIsRehashing && !it.table then do
      let chain ← d.ht1.chain 0
      return (d, { it with table := true, index := some 0, entry := .first chain }, true)
    else return (d, { it with index := some index }, false)
  else do
    let chain ← (d.ht it.table).chain index
    return (d, { it with index := some index, entry := .first chain }, true)

/-- The end of a round of `dictNext`: return the entry and remember its `next`, or go
`again`. -/
def visit (it : DictIterator K)
    (again : Except Fault (Dict K V × DictIterator K × Option (DictEntry K V))) :
    Except Fault (Dict K V × DictIterator K × Option (DictEntry K V)) :=
  match it.entry with
  | .null => again
  | ptr => do
    let (e, next) ← d.readEntry ty ptr
    return (d, { it with nextEntry := next }, some e)

/-- The loop of `dictNext`. -/
def dictNextLoop : Nat → Dict K V → DictIterator K →
    Except Fault (Dict K V × DictIterator K × Option (DictEntry K V))
  | 0, _, _ => .error .hang
  | rounds + 1, d, it =>
    match it.entry with
    | .null => do
      let (d, it, more) ← d.nextBucket it
      if more then d.visit ty it (dictNextLoop rounds d it) else return (d, it, none)
    | _ =>
      let it := { it with entry := it.nextEntry }
      d.visit ty it (dictNextLoop rounds d it)

/-- `dictNext`: the entry returned, or `none` for `NULL`. It looks at every bucket
once, so these rounds are enough. -/
def dictNext (it : DictIterator K) :
    Except Fault (Dict K V × DictIterator K × Option (DictEntry K V)) :=
  dictNextLoop ty (d.ht0.size + d.ht1.size + 2) d it

/-- `dictReleaseIterator`. -/
def dictReleaseIterator (it : DictIterator K) : Dict K V :=
  if it.started then { d with iterators := d.iterators - 1 } else d

end Dict

/-! ## What is left to return -/

section Remaining

variable {ty : DictType K} {d : Dict K V} {it : DictIterator K}

/-- The entries of the chain from the iterator's `nextEntry` on. -/
def restOfChain (ty : DictType K) (chain : List (DictEntry K V)) :
    EntryPtr K → List (DictEntry K V)
  | .entry n => chain.dropWhile fun e => !Dict.hasKey ty n e
  | _ => []

/-- The buckets behind the iterator, of both tables. -/
def laterBuckets (d : Dict K V) (it : DictIterator K) : List (DictEntry K V) :=
  ((d.ht it.table).table.drop it.nextIndex).flatten ++ if it.table then [] else d.ht1.entries

/-- What the iterator has still to return. -/
def remaining (ty : DictType K) (d : Dict K V) (it : DictIterator K) : List (DictEntry K V) :=
  (match it.index with
    | some j => restOfChain ty (((d.ht it.table).table[j]?).getD []) it.nextEntry
    | none => []) ++ laterBuckets d it

/-- The iterator has returned an entry with key `last` from the chain `chain`; its
`nextEntry` is another one of that chain. -/
structure Active (ty : DictType K) (d : Dict K V) (it : DictIterator K) (last : K) (j : Nat)
    (chain : List (DictEntry K V)) : Prop where
  index : it.index = some j
  bucket : (d.ht it.table).table[j]? = some chain
  entry : it.entry ≠ .null
  rehashing : it.table = true → d.dictIsRehashing = true
  next : it.nextEntry = .null ∨
    ∃ e ∈ chain, it.nextEntry = .entry e.key ∧ ty.keyCompare last e.key = false

theorem chain_distinct (wf : d.WF ty) {second : Bool} {j : Nat} {chain : List (DictEntry K V)}
    (at_j : (d.ht second).table[j]? = some chain) :
    chain.Pairwise fun a b => ty.keyCompare a.key b.key = false :=
  wf.distinct.sublist (Dict.chain_sublist_entries at_j)

/-- The pointer to an entry of a chain leads to it. -/
theorem Dict.WF.locate_at (wf : d.WF ty) (lawful : ty.Lawful) {second : Bool} {j : Nat}
    {pre rest : List (DictEntry K V)} {e : DictEntry K V}
    (at_j : (d.ht second).table[j]? = some (pre ++ e :: rest)) :
    d.locate ty e.key = .ok (.found ⟨second, j, pre.length⟩) := by
  have mem : e ∈ d.entries := (Dict.chain_sublist_entries at_j).mem (by simp)
  have used : d.dictSize ≠ 0 := by
    rw [wf.dictSize_eq]
    exact (List.length_pos_of_mem mem).ne'
  rcases wf.locate_spec lawful (wf.alloc_of_dictSize used) e.key with
    ⟨⟨second', j', pos⟩, located, points⟩ | ⟨_, absent⟩
  · have inTable : e ∈ (d.ht second).entries :=
      List.mem_flatten.mpr ⟨_, List.mem_iff_getElem?.mpr ⟨j, at_j⟩, by simp⟩
    obtain rfl : second' = second := by
      by_contra apart
      have other : (!second') = second := by
        cases second' <;> cases second <;> simp_all
      have := points.other_none wf lawful e (by simpa [other] using inTable)
      rw [Dict.hasKey, lawful.refl] at this
      cases this
    obtain rfl : j' = j :=
      points.bucket.trans ((wf.ht_wf second').placed j _ at_j e (by simp))
    obtain ⟨chain, at_j', found⟩ := points.entry
    rw [at_j] at at_j'
    cases at_j'
    have here : (pre ++ e :: rest).findIdx? (Dict.hasKey ty e.key) = some pre.length := by
      rw [List.findIdx?_append, List.findIdx?_eq_none_iff.mpr, List.findIdx?_cons]
      · simp [Dict.hasKey, lawful.refl]
      · intro e' before
        have apart := (List.pairwise_append.mp (chain_distinct wf at_j)).2.2 e' before e
          List.mem_cons_self
        rw [Dict.hasKey, Bool.eq_false_iff]
        intro same
        rw [lawful.symm _ _ same] at apart
        cases apart
    obtain rfl : pos = pre.length := Option.some.inj (found.symm.trans here)
    exact located
  · have := List.find?_eq_none.mp absent e mem
    simp [Dict.hasKey, lawful.refl] at this

theorem Dict.WF.readEntry_at (wf : d.WF ty) (lawful : ty.Lawful) {second : Bool} {j : Nat}
    {pre rest : List (DictEntry K V)} {e : DictEntry K V}
    (at_j : (d.ht second).table[j]? = some (pre ++ e :: rest)) :
    d.readEntry ty (.entry e.key) = .ok (e, .first rest) := by
  simp only [Dict.readEntry, wf.locate_at lawful at_j, bind, Except.bind, at_j, Option.getD_some,
    List.drop_left]
  rfl

/-- The rest of a chain behind an entry of it. -/
theorem restOfChain_first (lawful : ty.Lawful) {pre rest : List (DictEntry K V)}
    (distinct : (pre ++ rest).Pairwise fun a b => ty.keyCompare a.key b.key = false) :
    restOfChain ty (pre ++ rest) (.first rest) = rest := by
  cases rest with
  | nil => rfl
  | cons e rest =>
      rw [EntryPtr.first, restOfChain, List.dropWhile_append_of_pos]
      · rw [List.dropWhile_cons_of_neg]
        simp [Dict.hasKey, lawful.refl]
      · intro e' before
        have apart := (List.pairwise_append.mp distinct).2.2 e' before e List.mem_cons_self
        simp only [Dict.hasKey, Bool.not_eq_eq_eq_not, Bool.not_true, Bool.eq_false_iff]
        intro same
        rw [lawful.symm _ _ same] at apart
        cases apart

theorem registered_ht (d : Dict K V) (it : DictIterator K) (second : Bool) :
    (d.registered it).ht second = d.ht second := by
  unfold Dict.registered
  split
  · rfl
  · cases second <;> rfl

theorem registered_rehashidx (d : Dict K V) (it : DictIterator K) :
    (d.registered it).rehashidx = d.rehashidx := by
  unfold Dict.registered
  split <;> rfl

/-- `d->iterators` is not part of it. -/
theorem Dict.WF.of_iterators (wf : d.WF ty) (n : Nat) :
    Dict.WF ty { d with iterators := n } where
  first := wf.first
  second := wf.second
  distinct := wf.distinct
  idle := wf.idle
  moving idx started :=
    have moving := wf.moving idx started
    ⟨moving.from_alloc, moving.to_alloc, moving.resized, moving.bound, moving.emptied⟩

theorem Dict.WF.registered (wf : d.WF ty) (it : DictIterator K) : (d.registered it).WF ty := by
  unfold Dict.registered
  split
  · exact wf
  · exact wf.of_iterators _

/-- What a call of `dictNext` does, `left` being what the iterator has to return. -/
def Pops (ty : DictType K) (d : Dict K V) (left : List (DictEntry K V))
    (out : Except Fault (Dict K V × DictIterator K × Option (DictEntry K V))) : Prop :=
  ∃ it', out = .ok (d, it', left.head?) ∧ it'.started = true ∧
    ∀ e rest, left = e :: rest →
      (∃ j chain, Active ty d it' e.key j chain) ∧ remaining ty d it' = rest

/-- An entry of a chain is returned. -/
theorem Dict.WF.pops_at (wf : d.WF ty) (lawful : ty.Lawful) {second : Bool} {j : Nat}
    {pre rest : List (DictEntry K V)} {e : DictEntry K V}
    (at_j : (d.ht second).table[j]? = some (pre ++ e :: rest))
    (rehashing : second = true → d.dictIsRehashing = true) :
    Pops ty d (e :: rest ++ laterBuckets d ⟨second, some j, .entry e.key, .first rest⟩)
      (.ok (d, ⟨second, some j, .entry e.key, .first rest⟩, some e)) := by
  have distinct := chain_distinct wf at_j
  have split : pre ++ e :: rest = (pre ++ [e]) ++ rest := by simp
  refine ⟨_, rfl, by simp [DictIterator.started], ?_⟩
  rintro e' rest' same
  rw [List.cons_append, List.cons.injEq] at same
  obtain ⟨rfl, rfl⟩ := same
  refine ⟨⟨j, _, rfl, at_j, by simp, rehashing, ?_⟩, ?_⟩
  · cases rest with
    | nil => exact .inl rfl
    | cons e₂ rest =>
        refine .inr ⟨e₂, by simp, rfl, ?_⟩
        have behind := (List.pairwise_append.mp distinct).2.1
        exact (List.pairwise_cons.mp behind).1 e₂ List.mem_cons_self
  · rw [split] at distinct at_j
    simp only [remaining, at_j, Option.getD_some, restOfChain_first lawful distinct]

theorem laterBuckets_congr {d d' : Dict K V} (same : ∀ second, d'.ht second = d.ht second)
    (it : DictIterator K) : laterBuckets d' it = laterBuckets d it := by
  have second : d'.ht1 = d.ht1 := same true
  rw [laterBuckets, laterBuckets, same, second]

/-- A bucket is reached: its first entry is returned, or the search goes on. -/
theorem Dict.WF.pops_bucket (wf : d.WF ty) (lawful : ty.Lawful) {second : Bool} {j : Nat}
    {chain : List (DictEntry K V)} (at_j : (d.ht second).table[j]? = some chain)
    (rehashing : second = true → d.dictIsRehashing = true)
    {again : Except Fault (Dict K V × DictIterator K × Option (DictEntry K V))}
    (later : chain = [] → Pops ty d (laterBuckets d ⟨second, some j, .null, .null⟩) again) :
    Pops ty d (chain ++ laterBuckets d ⟨second, some j, .null, .null⟩)
      (d.visit ty ⟨second, some j, .first chain, .null⟩ again) := by
  cases chain with
  | nil => exact later rfl
  | cons e rest =>
      have at_head : (d.ht second).table[j]? = some ([] ++ e :: rest) := at_j
      have read := wf.readEntry_at lawful at_head
      have popped := wf.pops_at lawful at_head rehashing
      simp only [Dict.visit, EntryPtr.first, read, bind, Except.bind]
      exact popped

/-- The search for the next entry, from an exhausted chain on. -/
theorem dictNextLoop_scan (lawful : ty.Lawful) (rounds : Nat) {d : Dict K V} (wf : d.WF ty)
    (it : DictIterator K) (entry : it.entry = .null) (nextEntry : it.nextEntry = .null)
    (rehashing : it.table = true → d.dictIsRehashing = true)
    (enough : (d.ht it.table).table.length - it.nextIndex +
      (if it.table then 0 else d.ht1.table.length) < rounds) :
    Pops ty (d.registered it) (laterBuckets d it) (Dict.dictNextLoop ty rounds d it) := by
  induction rounds generalizing d it with
  | zero => omega
  | succ rounds ih =>
      obtain ⟨table, index, _, _⟩ := it
      cases entry
      cases nextEntry
      have wf₁ := wf.registered ⟨table, index, .null, .null⟩
      have hts := registered_ht d ⟨table, index, .null, .null⟩
      have started : (d.registered ⟨table, index, .null, .null⟩).dictIsRehashing =
          d.dictIsRehashing := by
        rw [Dict.dictIsRehashing, registered_rehashidx]
        rfl
      have same : laterBuckets (d.registered ⟨table, index, .null, .null⟩)
          ⟨table, index, .null, .null⟩ = laterBuckets d ⟨table, index, .null, .null⟩ :=
        laterBuckets_congr hts _
      rw [← same]
      rw [← started] at rehashing
      rw [← hts table, show d.ht1 = d.ht true from rfl, ← hts true] at enough
      simp only [Dict.dictNextLoop, Dict.nextBucket]
      generalize d.registered ⟨table, index, .null, .null⟩ = d₁ at *
      have size := (wf₁.ht_wf table).size_eq
      generalize at_index : DictIterator.nextIndex ⟨table, index, .null, .null⟩ = k at *
      have enough₁ : (d₁.ht table).table.length - k +
          (if table then 0 else (d₁.ht true).table.length) < rounds + 1 := enough
      have noted : ∀ tb k, d₁.registered ⟨tb, some k, .null, .null⟩ = d₁ := by
        intro tb k
        simp [Dict.registered, DictIterator.started]
      by_cases past : (d₁.ht table).size ≤ k
      · have none_left : (d₁.ht table).table.drop k = [] := List.drop_eq_nil_of_le (size ▸ past)
        rw [if_pos past]
        by_cases onward : (d₁.dictIsRehashing && !table) = true
        · -- the first table is exhausted, and a rehash has opened the second
          rw [if_pos onward]
          obtain ⟨moving, first⟩ : d₁.dictIsRehashing = true ∧ table = false := by
            simpa using onward
          subst first
          obtain ⟨idx, rehashidx⟩ := Option.isSome_iff_exists.mp moving
          obtain ⟨chain, chains, buckets⟩ :=
            List.exists_cons_of_ne_nil (wf₁.moving idx rehashidx).to_alloc
          have at_zero : (d₁.ht true).table[0]? = some chain := by
            show d₁.ht1.table[0]? = some chain
            rw [buckets]
            rfl
          have left : laterBuckets d₁ ⟨false, index, .null, .null⟩ =
              chain ++ laterBuckets d₁ ⟨true, some 0, .null, .null⟩ := by
            simp only [laterBuckets, at_index, none_left, List.flatten_nil, List.nil_append,
              Bool.false_eq_true, if_false, if_true, List.append_nil]
            show d₁.ht1.table.flatten = chain ++ (d₁.ht1.table.drop 1).flatten
            rw [buckets]
            rfl
          rw [left]
          have read : d₁.ht1.chain 0 = .ok chain := by
            rw [Dictht.chain, buckets]
            rfl
          simp only [read, bind, Except.bind, pure, Except.pure, if_true]
          refine wf₁.pops_bucket lawful at_zero (fun _ => moving) ?_
          rintro rfl
          have some_bucket := (List.getElem?_eq_some_iff.mp at_zero).1
          have later := ih wf₁ ⟨true, some 0, .null, .null⟩ rfl rfl (fun _ => moving) (by
            rw [if_neg (by simp)] at enough₁
            show (d₁.ht true).table.length - 1 + 0 < rounds
            omega)
          rwa [noted] at later
        · rw [if_neg onward]
          have nothing : laterBuckets d₁ ⟨table, index, .null, .null⟩ = [] := by
            simp only [laterBuckets, at_index, none_left, List.flatten_nil, List.nil_append]
            split
            · rfl
            · rename_i first
              have idle : ¬ d₁.dictIsRehashing = true := by
                intro moving
                exact onward (by simp [moving, first])
              rw [(wf₁.shape.not_rehashing idle).2]
              rfl
          rw [nothing]
          refine ⟨_, rfl, by simp [DictIterator.started], ?_⟩
          intro e rest some_left
          cases some_left
      · rw [if_neg past]
        have inside : k < (d₁.ht table).table.length := by omega
        have at_k := List.getElem?_eq_getElem inside
        have left : laterBuckets d₁ ⟨table, index, .null, .null⟩ =
            (d₁.ht table).table[k] ++ laterBuckets d₁ ⟨table, some k, .null, .null⟩ := by
          simp only [laterBuckets, at_index, List.drop_eq_getElem_cons inside, List.flatten_cons,
            List.append_assoc]
          rfl
        rw [left]
        have read : (d₁.ht table).chain k = .ok (d₁.ht table).table[k] := by
          rw [Dictht.chain, at_k]
        simp only [read, bind, Except.bind, pure, Except.pure, if_true]
        refine wf₁.pops_bucket lawful at_k rehashing ?_
        intro empty
        rw [empty]
        have later := ih wf₁ ⟨table, some k, .null, .null⟩ rfl rfl rehashing (by
          show (d₁.ht table).table.length - (k + 1) +
            (if table then 0 else (d₁.ht true).table.length) < rounds
          omega)
        rwa [noted] at later

/-- The first `dictNext` of an iterator. -/
theorem Dict.WF.dictNext_first (wf : d.WF ty) (lawful : ty.Lawful) :
    remaining ty d dictGetSafeIterator = d.entries ∧
      Pops ty { d with iterators := d.iterators + 1 } d.entries
        (d.dictNext ty dictGetSafeIterator) := by
  have all : laterBuckets d dictGetSafeIterator = d.entries := rfl
  have enough : (d.ht false).table.length - 0 + d.ht1.table.length <
      d.ht0.size + d.ht1.size + 2 := by
    have first : d.ht0.size = (d.ht false).table.length := wf.first.size_eq
    have second := wf.second.size_eq
    omega
  refine ⟨rfl, ?_⟩
  rw [← all]
  exact dictNextLoop_scan lawful _ wf dictGetSafeIterator rfl rfl (by simp [dictGetSafeIterator])
    enough

/-- A further `dictNext`. -/
theorem Active.dictNext {last : K} {j : Nat} {chain : List (DictEntry K V)}
    (active : Active ty d it last j chain) (wf : d.WF ty) (lawful : ty.Lawful) :
    Pops ty d (remaining ty d it) (d.dictNext ty it) := by
  obtain ⟨table, index, entry, nextEntry⟩ := it
  obtain ⟨rfl, at_j, nonNull, rehashing, next⟩ := active
  have sizes : (d.ht table).table.length - (j + 1) + (if table then 0 else d.ht1.table.length) <
      d.ht0.size + d.ht1.size + 1 := by
    have first : d.ht0.size = (d.ht false).table.length := wf.first.size_eq
    have second : d.ht1.size = (d.ht true).table.length := wf.second.size_eq
    have open_ : d.ht1.table.length = (d.ht true).table.length := rfl
    cases table with
    | false => simp only [Bool.false_eq_true, if_false]; omega
    | true => simp only [if_true]; omega
  have unfold : d.dictNext ty ⟨table, some j, entry, nextEntry⟩ =
      d.visit ty ⟨table, some j, nextEntry, nextEntry⟩
        (Dict.dictNextLoop ty (d.ht0.size + d.ht1.size + 1) d
          ⟨table, some j, nextEntry, nextEntry⟩) := by
    cases entry with
    | null => exact absurd rfl nonNull
    | entry key => rfl
    | freed => rfl
  rw [unfold]
  rcases next with rfl | ⟨e, mem, rfl, _⟩
  · -- the chain is exhausted
    have later := dictNextLoop_scan lawful _ wf ⟨table, some j, .null, .null⟩ rfl rfl rehashing
      sizes
    rw [Dict.registered, if_pos (by simp [DictIterator.started])] at later
    exact later
  · obtain ⟨pre, rest, rfl⟩ := List.append_of_mem mem
    have popped := wf.pops_at lawful at_j rehashing
    have rest_eq : restOfChain ty (pre ++ e :: rest) (.entry e.key) = e :: rest :=
      restOfChain_first lawful (chain_distinct wf at_j)
    have left : remaining ty d ⟨table, some j, .entry e.key, .entry e.key⟩ =
        e :: rest ++ laterBuckets d ⟨table, some j, .entry e.key, .first rest⟩ := by
      simp only [remaining, at_j, Option.getD_some, rest_eq]
      rfl
    have same : remaining ty d ⟨table, some j, entry, .entry e.key⟩ =
        remaining ty d ⟨table, some j, .entry e.key, .entry e.key⟩ := rfl
    rw [same, left]
    simp only [Dict.visit, wf.readEntry_at lawful at_j, bind, Except.bind]
    exact popped

end Remaining

end GpBase.Dictionary

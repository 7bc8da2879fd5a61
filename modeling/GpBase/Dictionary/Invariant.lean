import GpBase.Lib.Assoc
import GpBase.Dictionary.Model

/-!
# The representation invariant of the hash table

`Dict.Shape`: both tables are well formed, and a rehash has emptied the buckets in
front of `rehashidx`. `Dict.WF`: moreover, no two entries have equal keys. The
shape is kept whatever the hash function and the comparison of keys do; each
internal operation gets one lemma that says what it does to the entries.
-/

namespace GpBase.Dictionary

open GpBase.Lib

variable {K V : Type} {ty : DictType K}

/-- The comparison is an equivalence and the hash function respects it. -/
structure DictType.Lawful (ty : DictType K) : Prop where
  refl : ∀ a, ty.keyCompare a a = true
  symm : ∀ a b, ty.keyCompare a b = true → ty.keyCompare b a = true
  trans : ∀ a b c, ty.keyCompare a b = true → ty.keyCompare b c = true →
    ty.keyCompare a c = true
  hash : ∀ a b, ty.keyCompare a b = true → ty.hashFunction a = ty.hashFunction b

/-! ## One table -/

def Dictht.entries (ht : Dictht K V) : List (DictEntry K V) := ht.table.flatten

/-- An allocated table has a power of two of buckets. -/
structure Dictht.Allocated (ht : Dictht K V) (k : Nat) : Prop where
  atLeast : 2 ≤ k
  atMost : k ≤ 63
  size : ht.size = 2 ^ k
  buckets : ht.table.length = 2 ^ k
  sizemask : ht.sizemask = BitVec.ofNat 64 (2 ^ k - 1)

structure Dictht.WF (ty : DictType K) (ht : Dictht K V) : Prop where
  shape : ht = dictReset ∨ ∃ k, ht.Allocated k
  used : ht.used = ht.entries.length
  placed : ∀ i chain, ht.table[i]? = some chain →
    ∀ e ∈ chain, slot (ty.hashFunction e.key) ht.sizemask = i

theorem slot_eq_mod (hash : BitVec 64) {k : Nat} (narrow : k ≤ 63) :
    slot hash (BitVec.ofNat 64 (2 ^ k - 1)) = hash.toNat % 2 ^ k := by
  have small : 2 ^ k - 1 < 2 ^ 64 :=
    Nat.lt_of_le_of_lt (Nat.sub_le _ _) (Nat.pow_lt_pow_right (by omega) (by omega))
  rw [slot, BitVec.toNat_and, BitVec.toNat_ofNat, Nat.mod_eq_of_lt small,
    Nat.and_two_pow_sub_one_eq_mod]

theorem Dictht.WF.reset : Dictht.WF ty (dictReset : Dictht K V) where
  shape := .inl rfl
  used := rfl
  placed := by
    intro i chain at_i
    simp [dictReset] at at_i

theorem Dictht.entries_reset : (dictReset : Dictht K V).entries = [] := rfl

section Table

variable {ht : Dictht K V}

theorem Dictht.WF.allocated (wf : ht.WF ty) (alloc : ht.table ≠ []) : ∃ k, ht.Allocated k := by
  rcases wf.shape with rfl | alloc'
  · exact absurd rfl alloc
  · exact alloc'

theorem Dictht.Allocated.ne_nil {k : Nat} (alloc : ht.Allocated k) : ht.table ≠ [] := by
  intro empty
  have := alloc.buckets
  rw [empty] at this
  exact absurd this.symm (Nat.two_pow_pos k).ne'

theorem Dictht.WF.size_eq (wf : ht.WF ty) : ht.size = ht.table.length := by
  rcases wf.shape with rfl | ⟨k, alloc⟩
  · rfl
  · rw [alloc.size, alloc.buckets]

/-- Every hash has a bucket. -/
theorem Dictht.WF.chain_at (wf : ht.WF ty) (alloc : ht.table ≠ []) (hash : BitVec 64) :
    ∃ chain, ht.table[slot hash ht.sizemask]? = some chain := by
  obtain ⟨k, alloc⟩ := wf.allocated alloc
  have inside : slot hash ht.sizemask < ht.table.length := by
    rw [alloc.sizemask, slot_eq_mod hash alloc.atMost, alloc.buckets]
    exact Nat.mod_lt _ (Nat.two_pow_pos k)
  exact ⟨_, List.getElem?_eq_getElem inside⟩

/-- A key can only be in the bucket of its hash. -/
theorem Dictht.WF.onlyIn (wf : ht.WF ty) (lawful : ty.Lawful) (key : K) :
    OnlyIn (Dict.hasKey ty key) ht.table (slot (ty.hashFunction key) ht.sizemask) := by
  intro j other apart at_j e mem
  rw [Bool.eq_false_iff]
  intro equal
  apply apart
  rw [← wf.placed j other at_j e mem, lawful.hash key e.key equal]

/-- Exchanging a chain for one whose entries belong in the same bucket. -/
theorem Dictht.WF.setChain (wf : ht.WF ty) {i : Nat} {chain chain' : List (DictEntry K V)}
    (at_i : ht.table[i]? = some chain)
    (belong : ∀ e ∈ chain', slot (ty.hashFunction e.key) ht.sizemask = i) {used : Nat}
    (count : used = (ht.table.set i chain').flatten.length) :
    Dictht.WF ty { ht with table := ht.table.set i chain', used := used } where
  shape := by
    rcases wf.shape with rfl | ⟨k, alloc⟩
    · simp [dictReset] at at_i
    · exact .inr ⟨k, alloc.atLeast, alloc.atMost, alloc.size,
        by rw [List.length_set, alloc.buckets], alloc.sizemask⟩
  used := count
  placed := by
    intro j other at_j e mem
    by_cases same : j = i
    · subst same
      have inside : j < ht.table.length := (List.getElem?_eq_some_iff.mp at_i).1
      rw [List.getElem?_set_self inside] at at_j
      exact belong e (Option.some.inj at_j ▸ mem)
    · rw [List.getElem?_set_ne (Ne.symm same)] at at_j
      exact wf.placed j other at_j e mem

/-- `pushFront` adds one entry. -/
theorem Dictht.WF.pushFront_spec (wf : ht.WF ty) (alloc : ht.table ≠ []) (e : DictEntry K V) :
    ∃ chain t, ht.table[slot (ty.hashFunction e.key) ht.sizemask]? = some chain ∧
      ht.pushFront (slot (ty.hashFunction e.key) ht.sizemask) e = .ok t ∧
      t.WF ty ∧ t.size = ht.size ∧ t.sizemask = ht.sizemask ∧
      t.table = ht.table.set (slot (ty.hashFunction e.key) ht.sizemask) (e :: chain) ∧
      t.entries.Perm (e :: ht.entries) := by
  obtain ⟨chain, at_i⟩ := wf.chain_at alloc (ty.hashFunction e.key)
  have perm := flatten_set_cons at_i e
  have pushed : ht.pushFront (slot (ty.hashFunction e.key) ht.sizemask) e =
      .ok { ht with
        table := ht.table.set (slot (ty.hashFunction e.key) ht.sizemask) (e :: chain)
        used := ht.used + 1 } := by
    simp only [Dictht.pushFront, Dictht.chain, at_i, bind, Except.bind, pure, Except.pure]
  refine ⟨chain, _, at_i, pushed, ?_, rfl, rfl, rfl, perm⟩
  refine wf.setChain at_i ?_ ?_
  · intro e' mem
    rcases List.mem_cons.mp mem with rfl | old
    · rfl
    · exact wf.placed _ chain at_i e' old
  · rw [perm.length_eq, wf.used]
    rfl

end Table

/-! ## Both tables -/

def Dict.entries (d : Dict K V) : List (DictEntry K V) := d.ht0.entries ++ d.ht1.entries

/-- A rehash is under way and has emptied the buckets in front of `idx`. -/
structure Dict.Moving (d : Dict K V) (idx : Nat) : Prop where
  from_alloc : d.ht0.table ≠ []
  to_alloc : d.ht1.table ≠ []
  resized : d.ht0.size ≠ d.ht1.size
  bound : idx ≤ d.ht0.size
  emptied : ∀ j < idx, d.ht0.table[j]? = some []

structure Dict.Shape (ty : DictType K) (d : Dict K V) : Prop where
  first : d.ht0.WF ty
  second : d.ht1.WF ty
  idle : d.rehashidx = none → d.ht1 = dictReset
  moving : ∀ idx, d.rehashidx = some idx → d.Moving idx

structure Dict.WF (ty : DictType K) (d : Dict K V) : Prop where
  first : d.ht0.WF ty
  second : d.ht1.WF ty
  distinct : d.entries.Pairwise fun a b => ty.keyCompare a.key b.key = false
  idle : d.rehashidx = none → d.ht1 = dictReset
  moving : ∀ idx, d.rehashidx = some idx → d.Moving idx

section Both

variable {d : Dict K V} {idx : Nat}

theorem Dict.WF.shape (wf : d.WF ty) : d.Shape ty := ⟨wf.first, wf.second, wf.idle, wf.moving⟩

theorem Dict.Shape.wf (shape : d.Shape ty)
    (distinct : d.entries.Pairwise fun a b => ty.keyCompare a.key b.key = false) : d.WF ty :=
  ⟨shape.first, shape.second, distinct, shape.idle, shape.moving⟩

theorem Dict.Shape.create : Dict.Shape ty (dictCreate : Dict K V) where
  first := .reset
  second := .reset
  idle := fun _ => rfl
  moving := by
    intro idx started
    cases started

theorem Dict.WF.create : Dict.WF ty (dictCreate : Dict K V) := Dict.Shape.create.wf .nil

theorem Dict.Shape.dictSize_eq (shape : d.Shape ty) : d.dictSize = d.entries.length := by
  rw [Dict.dictSize, Dict.entries, List.length_append, shape.first.used, shape.second.used]

theorem Dict.WF.dictSize_eq (wf : d.WF ty) : d.dictSize = d.entries.length :=
  wf.shape.dictSize_eq

/-- Distinctness does not depend on the order of the entries. -/
theorem distinct_perm (lawful : ty.Lawful) {l l' : List (DictEntry K V)} (perm : l.Perm l')
    (distinct : l.Pairwise fun a b => ty.keyCompare a.key b.key = false) :
    l'.Pairwise fun a b => ty.keyCompare a.key b.key = false := by
  refine (perm.pairwise_iff ?_).mp distinct
  intro a b apart
  rw [Bool.eq_false_iff] at apart ⊢
  exact fun equal => apart (lawful.symm _ _ equal)

/-- At most one entry has a key. -/
theorem unique_of_distinct (lawful : ty.Lawful) {l : List (DictEntry K V)}
    (distinct : l.Pairwise fun a b => ty.keyCompare a.key b.key = false) (key : K) :
    Unique (Dict.hasKey ty key) l := by
  refine distinct.imp ?_
  intro a b apart ha hb
  have := lawful.trans a.key key b.key (lawful.symm _ _ ha) hb
  rw [this] at apart
  cases apart

theorem Dict.WF.unique (wf : d.WF ty) (lawful : ty.Lawful) (key : K) :
    Unique (Dict.hasKey ty key) d.entries := unique_of_distinct lawful wf.distinct key

/-! ## Rehashing -/

/-- A bucket goes to the second table entry by entry. -/
theorem moveBucket_spec (second : d.ht1.WF ty) (alloc : d.ht1.table ≠ [])
    (bucket : List (DictEntry K V)) :
    ∃ d', Dict.moveBucket ty d bucket = .ok d' ∧
      d'.ht0 = { d.ht0 with used := d.ht0.used - bucket.length } ∧
      d'.ht1.WF ty ∧ d'.ht1.table ≠ [] ∧ d'.ht1.size = d.ht1.size ∧
      d'.ht1.entries.Perm (bucket ++ d.ht1.entries) ∧
      d'.rehashidx = d.rehashidx ∧ d'.iterators = d.iterators := by
  induction bucket generalizing d with
  | nil => exact ⟨d, rfl, rfl, second, alloc, rfl, .refl _, rfl, rfl⟩
  | cons e es ih =>
      obtain ⟨chain, t, _, pushed, wf, size, _, table, perm⟩ := second.pushFront_spec alloc e
      have alloc' : t.table ≠ [] := by
        rw [table]
        simpa using alloc
      obtain ⟨d', moved, ht0, wf', alloc'', size', perm', idx, iters⟩ :=
        ih (d := { d with ht0 := { d.ht0 with used := d.ht0.used - 1 }, ht1 := t }) wf alloc'
      refine ⟨d', ?_, ?_, wf', alloc'', size'.trans size, ?_, idx, iters⟩
      · simp only [Dict.moveBucket, pushed, bind, Except.bind]
        exact moved
      · rw [ht0, List.length_cons, Nat.sub_sub, Nat.add_comm 1]
      · refine perm'.trans ((perm.append_left es).trans ?_)
        exact List.perm_middle

/-- The search for a bucket passes `n` empty ones and stops in time. -/
theorem skipEmpty_spec {rest : List (List (DictEntry K V))} (idx : Nat) (visits : Int)
    (some_left : ∃ chain ∈ rest, chain ≠ []) :
    ∃ n, (∀ j < n, rest[j]? = some []) ∧
      ((0 < n ∧ Dict.skipEmpty rest idx visits = .ok (.exhausted (idx + n))) ∨
        ∃ visits' bucket, rest[n]? = some bucket ∧
          Dict.skipEmpty rest idx visits = .ok (.found (idx + n) visits' bucket)) := by
  induction rest generalizing idx visits with
  | nil =>
      obtain ⟨chain, mem, _⟩ := some_left
      cases mem
  | cons chain rest ih =>
      cases chain with
      | cons e es => exact ⟨0, by simp, .inr ⟨visits, e :: es, rfl, rfl⟩⟩
      | nil =>
          by_cases spent : int32 (visits - 1) = 0
          · refine ⟨1, ?_, .inl ⟨Nat.one_pos, ?_⟩⟩
            · intro j small
              obtain rfl : j = 0 := by omega
              rfl
            · rw [Dict.skipEmpty, if_pos spent]
          · have left' : ∃ chain ∈ rest, chain ≠ [] := by
              obtain ⟨chain, mem, full⟩ := some_left
              rcases List.mem_cons.mp mem with rfl | mem
              · exact absurd rfl full
              · exact ⟨chain, mem, full⟩
            obtain ⟨n, empties, outcome⟩ := ih (idx + 1) (int32 (visits - 1)) left'
            refine ⟨n + 1, ?_, ?_⟩
            · intro j small
              cases j with
              | zero => rfl
              | succ j => exact empties j (by omega)
            · rw [Dict.skipEmpty, if_neg spent, show idx + (n + 1) = idx + 1 + n by omega]
              rcases outcome with ⟨_, stopped⟩ | ⟨visits', bucket, at_n, stopped⟩
              · exact .inl ⟨Nat.succ_pos n, stopped⟩
              · exact .inr ⟨visits', bucket, at_n, stopped⟩

/-- While entries are left in the first table, one is in a bucket from `idx` on. -/
theorem Dict.Moving.some_left {idx : Nat} (moving : d.Moving idx) (wf : d.ht0.WF ty)
    (left : d.ht0.used ≠ 0) :
    idx < d.ht0.size ∧ ∃ chain ∈ d.ht0.table.drop idx, chain ≠ [] := by
  have notAll : ¬ ∀ chain ∈ d.ht0.table, chain = [] := by
    intro all
    apply left
    rw [wf.used, Dictht.entries, List.flatten_eq_nil_iff.mpr all]
    rfl
  obtain ⟨chain, mem, full⟩ : ∃ chain ∈ d.ht0.table, chain ≠ [] := by simpa using notAll
  obtain ⟨j, at_j⟩ := List.mem_iff_getElem?.mp mem
  have behind : idx ≤ j := by
    by_contra before
    have := moving.emptied j (by omega)
    rw [at_j] at this
    exact full (Option.some.inj this)
  have inside : j < d.ht0.table.length := (List.getElem?_eq_some_iff.mp at_j).1
  refine ⟨by rw [wf.size_eq]; omega, chain, ?_, full⟩
  rw [List.mem_iff_getElem?]
  exact ⟨j - idx, by rw [List.getElem?_drop, show idx + (j - idx) = j by omega, at_j]⟩

/-- One bucket is moved: the invariant holds again with `rehashidx` behind it. -/
theorem Dict.Shape.moveBucket (shape : Dict.Shape ty { d with rehashidx := some idx }) {i : Nat}
    {bucket : List (DictEntry K V)} (behind : idx ≤ i)
    (between : ∀ j, idx ≤ j → j < i → d.ht0.table[j]? = some [])
    (at_i : d.ht0.table[i]? = some bucket) :
    ∃ d', Dict.moveBucket ty d bucket = .ok d' ∧ d'.iterators = d.iterators ∧
      ∃ d'', d'' = { d' with ht0 := { d'.ht0 with table := d'.ht0.table.set i [] } } ∧
        Dict.Shape ty { d'' with rehashidx := some (i + 1) } ∧ d''.entries.Perm d.entries ∧
        d''.ht0.size = d.ht0.size := by
  have moving := shape.moving idx rfl
  obtain ⟨d', moved, ht0, second, alloc, size, perm, _, iters⟩ :=
    moveBucket_spec (d := d) shape.second moving.to_alloc bucket
  refine ⟨d', moved, iters, _, rfl, ?_⟩
  have out : d.ht0.entries.Perm (bucket ++ (d.ht0.table.set i []).flatten) :=
    flatten_set_nil at_i
  have entries : ((d'.ht0.table.set i []).flatten ++ d'.ht1.entries).Perm d.entries := by
    rw [ht0]
    refine (perm.append_left _).trans ?_
    refine (List.perm_append_comm_assoc _ _ _).trans ?_
    rw [← List.append_assoc]
    exact out.symm.append_right _
  have inside : i < d.ht0.table.length := (List.getElem?_eq_some_iff.mp at_i).1
  refine ⟨?_, entries, by rw [ht0]⟩
  constructor
  · -- the first table: the moved bucket is empty, and as many entries are gone
    rw [ht0]
    refine shape.first.setChain at_i ?_ ?_
    · intro e mem
      cases mem
    · have count := out.length_eq
      have used : d.ht0.used = d.ht0.entries.length := shape.first.used
      rw [List.length_append] at count
      show d.ht0.used - bucket.length = (d.ht0.table.set i []).flatten.length
      omega
  · exact second
  · intro stopped
    cases stopped
  · rintro _ ⟨⟩
    have size0 : d.ht0.size = d.ht0.table.length := shape.first.size_eq
    refine ⟨?_, alloc, ?_, ?_, ?_⟩
    · rw [ht0]
      simpa using moving.from_alloc
    · rw [ht0, size]
      exact moving.resized
    · rw [ht0]
      show i + 1 ≤ d.ht0.size
      omega
    · intro j before
      rw [ht0]
      show (d.ht0.table.set i [])[j]? = some []
      rcases Nat.lt_or_ge j i with lower | upper
      · rw [List.getElem?_set_ne (by omega)]
        rcases Nat.lt_or_ge j idx with old | new
        · exact moving.emptied j old
        · exact between j new lower
      · obtain rfl : j = i := by omega
        rw [List.getElem?_set_self inside]

/-- The buckets passed over are empty too. -/
theorem Dict.Shape.advance (shape : Dict.Shape ty { d with rehashidx := some idx }) {i : Nat}
    (bound : i ≤ d.ht0.size) (between : ∀ j, idx ≤ j → j < i → d.ht0.table[j]? = some []) :
    Dict.Shape ty { d with rehashidx := some i } where
  first := shape.first
  second := shape.second
  idle := by
    intro stopped
    cases stopped
  moving := by
    rintro _ ⟨⟩
    have moving := shape.moving idx rfl
    refine ⟨moving.from_alloc, moving.to_alloc, moving.resized, bound, ?_⟩
    intro j before
    rcases Nat.lt_or_ge j idx with old | new
    · exact moving.emptied j old
    · exact between j new before

/-- How far a call of `dictRehash` from `idx` on has come: it is complete, or it has passed at
least `steps` buckets and there are more. -/
def Dict.Progress (d : Dict K V) (idx steps : Nat) (d' : Dict K V) (more : Bool) : Prop :=
  (more = false ∧ d'.rehashidx = none) ∨
    (more = true ∧ ∃ idx', d'.rehashidx = some idx' ∧ idx + steps ≤ idx' ∧
      idx' < d'.ht0.size ∧ d'.ht0.size = d.ht0.size)

/-- The end of `dictRehash` keeps the entries. -/
theorem Dict.Shape.rehashFinish (shape : Dict.Shape ty { d with rehashidx := some idx }) :
    ∃ d' more, Dict.rehashFinish { d with rehashidx := some idx } = (d', more) ∧ d'.Shape ty ∧
      d'.entries = d.entries ∧ d'.iterators = d.iterators ∧ d.Progress idx 0 d' more := by
  unfold Dict.rehashFinish
  by_cases none_left : d.ht0.used = 0
  · have empty : d.ht0.entries = [] := by
      apply List.eq_nil_of_length_eq_zero
      rw [← shape.first.used]
      exact none_left
    have entries : d.entries = d.ht1.entries := by rw [Dict.entries, empty, List.nil_append]
    rw [if_pos none_left]
    refine ⟨_, _, rfl, ⟨shape.second, .reset, fun _ => rfl, ?_⟩, ?_, rfl, .inl ⟨rfl, rfl⟩⟩
    · intro idx started
      cases started
    · rw [entries, Dict.entries, Dictht.entries_reset, List.append_nil]
  · rw [if_neg none_left]
    have left := (shape.moving idx rfl).some_left shape.first none_left
    exact ⟨_, _, rfl, shape, rfl, rfl, .inr ⟨rfl, idx, rfl, le_refl _, left.1, rfl⟩⟩

/-- The loop of `dictRehash` returns, only moves entries, and gets on. -/
theorem rehashLoop_shape (n : Nat) (visits : Int)
    (shape : Dict.Shape ty { d with rehashidx := some idx }) :
    ∃ d' more, Dict.rehashLoop ty d idx n visits = .ok (d', more) ∧ d'.Shape ty ∧
      d'.entries.Perm d.entries ∧ d'.iterators = d.iterators ∧
      d.Progress idx (min n 1) d' more := by
  induction n generalizing d idx visits with
  | zero =>
      obtain ⟨d', more, finished, shape', entries, iters, progress⟩ := shape.rehashFinish
      exact ⟨d', more, congrArg Except.ok finished, shape', .of_eq entries, iters, progress⟩
  | succ n ih =>
      have step : min (n + 1) 1 = 1 := by omega
      rw [step]
      by_cases none_left : d.ht0.used = 0
      · obtain ⟨d', more, finished, shape', entries, iters, progress⟩ := shape.rehashFinish
        refine ⟨d', more, ?_, shape', .of_eq entries, iters, ?_⟩
        · rw [Dict.rehashLoop, if_pos none_left, finished]
        · rcases progress with complete | ⟨rfl, idx', started, _, _, _⟩
          · exact .inl complete
          · -- with nothing left the call is complete
            simp only [Dict.rehashFinish, none_left, if_true, Prod.mk.injEq] at finished
            cases finished.2
      obtain ⟨inside, some_left⟩ := (shape.moving idx rfl).some_left shape.first none_left
      obtain ⟨m, empties, outcome⟩ := skipEmpty_spec idx visits some_left
      have between : ∀ j, idx ≤ j → j < idx + m → d.ht0.table[j]? = some [] := by
        intro j lower upper
        have := empties (j - idx) (by omega)
        rwa [List.getElem?_drop, show idx + (j - idx) = j by omega] at this
      rw [Dict.rehashLoop, if_neg none_left, if_neg (not_not_intro inside)]
      rcases outcome with ⟨pos, stopped⟩ | ⟨visits', bucket, at_m, stopped⟩
      · rw [stopped]
        have bound : idx + m ≤ d.ht0.size := by
          have last := between (idx + m - 1) (by omega) (by omega)
          have := (List.getElem?_eq_some_iff.mp last).1
          have size : d.ht0.size = d.ht0.table.length := shape.first.size_eq
          omega
        have shape' := shape.advance bound between
        have left := (shape'.moving (idx + m) rfl).some_left shape'.first none_left
        exact ⟨_, _, rfl, shape', .refl _, rfl,
          .inr ⟨rfl, idx + m, rfl, by omega, left.1, rfl⟩⟩
      · rw [List.getElem?_drop] at at_m
        obtain ⟨d', moved, iters, d'', form, shape'', perm, size⟩ :=
          shape.moveBucket (Nat.le_add_right idx m) between at_m
        obtain ⟨d₃, more, looped, shape₃, perm₃, iters₃, progress⟩ := ih visits' shape''
        refine ⟨d₃, more, ?_, shape₃, perm₃.trans perm, ?_, ?_⟩
        · rw [stopped]
          simp only [bind, Except.bind, moved]
          rw [← form]
          exact looped
        · rw [iters₃, form]
          exact iters
        · rcases progress with complete | ⟨rfl, idx', started, further, below, same⟩
          · exact .inl complete
          · exact .inr ⟨rfl, idx', started, by omega, below, same.trans size⟩

end Both

end GpBase.Dictionary

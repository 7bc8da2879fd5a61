import GpBase.Dictionary.Map

/-!
# The shape of the hash table

Whatever the hash function and the comparison of keys do, every operation returns and keeps
`Dict.Shape`: `used` counts the chained entries, tables have a power of two of buckets,
entries lie in the buckets of their hashes, and a rehash between two tables of different
sizes has emptied the buckets in front of `rehashidx`. That last relation is what makes the
unchecked search of `dictRehash` stop in time. A rehash makes progress with every call.
-/

namespace GpBase.Dictionary

open GpBase.Lib

variable {K V : Type} {ty : DictType K} {d : Dict K V}

namespace Dict

/-! ## Operations on one entry -/

/-- A pointer to some entry. -/
def Valid (d : Dict K V) (ref : EntryRef) : Prop :=
  ∃ chain, (d.ht ref.second).table[ref.idx]? = some chain ∧ ref.pos < chain.length

theorem Points.valid {key : K} {ref : EntryRef} (points : Points ty d key ref) : d.Valid ref := by
  obtain ⟨chain, at_i, found⟩ := points.entry
  exact ⟨chain, at_i, (List.findIdx?_eq_some_iff_getElem.mp found).1⟩

theorem flatten_set_length {table : List (List (DictEntry K V))} {i : Nat}
    {chain : List (DictEntry K V)} (at_i : table[i]? = some chain)
    (chain' : List (DictEntry K V)) :
    (table.set i chain').flatten.length + chain.length = table.flatten.length + chain'.length := by
  induction table generalizing i with
  | nil => cases at_i
  | cons head rest ih =>
      cases i with
      | zero =>
          cases at_i
          simp only [List.set_cons_zero, List.flatten_cons, List.length_append]
          omega
      | succ i =>
          have step := ih (i := i) at_i
          simp only [List.set_cons_succ, List.flatten_cons, List.length_append]
          omega

/-- `dictSetVal` changes no key and no count. -/
theorem Shape.dictSetVal (shape : d.Shape ty) {ref : EntryRef} (valid : d.Valid ref) (v : V) :
    (d.dictSetVal ref v).Shape ty := by
  obtain ⟨chain, at_i, inside⟩ := valid
  have table := shape.ht_wf ref.second
  have full : chain ≠ [] := List.ne_nil_of_length_pos (by omega)
  refine shape.setChain at_i full ?_ ?_ (Dict.dictSetVal_eq at_i v)
  · intro e mem
    obtain ⟨j, at_j⟩ := List.mem_iff_getElem?.mp mem
    rw [List.getElem?_modify] at at_j
    obtain ⟨e₀, at_j₀, same⟩ := Option.map_eq_some_iff.mp at_j
    have key : e.key = e₀.key := by
      rw [← same]
      split <;> rfl
    rw [key]
    exact table.placed _ chain at_i e₀ (List.mem_iff_getElem?.mpr ⟨j, at_j₀⟩)
  · have count := flatten_set_length at_i
      (chain.modify ref.pos fun e => { e with val := some v })
    have used : (d.ht ref.second).used = (d.ht ref.second).table.flatten.length := table.used
    rw [List.length_modify] at count
    show (d.ht ref.second).used = _
    omega

/-- Unlinking takes one entry off. -/
theorem Shape.unlink (shape : d.Shape ty) {ref : EntryRef} (valid : d.Valid ref) :
    (d.unlink ref).Shape ty := by
  obtain ⟨chain, at_i, inside⟩ := valid
  have table := shape.ht_wf ref.second
  have full : chain ≠ [] := List.ne_nil_of_length_pos (by omega)
  refine shape.setChain at_i full ?_ ?_ (Dict.unlink_eq at_i)
  · intro e mem
    exact table.placed _ chain at_i e (List.mem_of_mem_eraseIdx mem)
  · have count := flatten_set_length at_i (chain.eraseIdx ref.pos)
    have used : (d.ht ref.second).used = (d.ht ref.second).table.flatten.length := table.used
    rw [List.length_eraseIdx_of_lt inside] at count
    omega

/-- `dictAddRaw` leads to an entry, old or new. -/
theorem Shape.dictAddRaw (shape : d.Shape ty) (canResize : Bool) (few : d.dictSize < 2 ^ 61)
    (key : K) :
    ∃ d' ref, d'.Shape ty ∧ d'.Valid ref ∧
      (d.dictAddRaw ty canResize key = .ok (d', .existing (some ref)) ∨
        d.dictAddRaw ty canResize key = .ok (d', .new ref)) := by
  obtain ⟨d₁, stepped, shape₁, perm₁⟩ := shape.rehashStep_spec
  have few₁ : d₁.dictSize < 2 ^ 61 := by
    rw [shape₁.dictSize_eq, perm₁.length_eq, ← shape.dictSize_eq]
    exact few
  obtain ⟨d₂, expanded, shape₂, _, alloc⟩ := shape₁.dictExpandIfNeeded_spec canResize few₁
  unfold Dict.dictAddRaw
  simp only [stepped, bind, Except.bind, expanded, Bool.not_true, Bool.false_eq_true, if_false]
  rcases shape₂.locate_spec alloc key with ⟨ref, located, points⟩ | ⟨located, _⟩
  · refine ⟨d₂, ref, shape₂, points.valid, .inl ?_⟩
    rw [located]
    rfl
  · obtain ⟨chain, t, pushed, shape₃, _, mask, at_i⟩ := shape₂.insert_spec alloc key
    refine ⟨d₂.setHt d₂.dictIsRehashing t,
      ⟨d₂.dictIsRehashing, slot (ty.hashFunction key) (d₂.ht d₂.dictIsRehashing).sizemask, 0⟩,
      shape₃, ⟨⟨key, none⟩ :: chain, ?_, Nat.succ_pos _⟩, .inr ?_⟩
    · show (Dict.ht (d₂.setHt d₂.dictIsRehashing t) d₂.dictIsRehashing).table[_]? = _
      rw [ht_setHt_self, ← mask]
      exact at_i
    · rw [located]
      simp only [pushed]
      rfl

/-- The search of `dictFind` and `dictGenericDelete`, in a dictionary that is not empty. -/
theorem Shape.search (shape : d.Shape ty) (some_used : d.dictSize ≠ 0) (key : K) :
    ∃ d', d.rehashStep ty = .ok d' ∧ d'.Shape ty ∧
      ((∃ ref, d'.locate ty key = .ok (.found ref) ∧ d'.Valid ref) ∨
        ∃ idx, d'.locate ty key = .ok (.missing idx)) := by
  obtain ⟨d', stepped, shape', perm⟩ := shape.rehashStep_spec
  have alloc : d'.ht0.table ≠ [] := by
    apply shape'.alloc_of_dictSize
    rw [shape'.dictSize_eq, perm.length_eq, ← shape.dictSize_eq]
    exact some_used
  refine ⟨d', stepped, shape', ?_⟩
  rcases shape'.locate_spec alloc key with ⟨ref, located, points⟩ | ⟨located, _⟩
  · exact .inl ⟨ref, located, points.valid⟩
  · exact .inr ⟨_, located⟩

theorem Shape.dictGenericDelete (shape : d.Shape ty) (key : K) :
    ∃ d' e, d.dictGenericDelete ty key = .ok (d', e) ∧ d'.Shape ty := by
  unfold Dict.dictGenericDelete
  split
  · exact ⟨d, none, rfl, shape⟩
  · rename_i some_used
    have size : d.dictSize ≠ 0 := by
      unfold Dict.dictSize
      omega
    obtain ⟨d', stepped, shape', ⟨ref, located, valid⟩ | ⟨idx, located⟩⟩ := shape.search size key
    · refine ⟨d'.unlink ref, d'.deref ref, ?_, shape'.unlink valid⟩
      simp only [stepped, located, bind, Except.bind]
      rfl
    · refine ⟨d', none, ?_, shape'⟩
      simp only [stepped, located, bind, Except.bind]
      rfl

theorem Shape.dictFind (shape : d.Shape ty) (key : K) :
    ∃ d' e, d.dictFind ty key = .ok (d', e) ∧ d'.Shape ty := by
  unfold Dict.dictFind
  split
  · exact ⟨d, none, rfl, shape⟩
  · rename_i some_used
    obtain ⟨d', stepped, shape', ⟨ref, located, valid⟩ | ⟨idx, located⟩⟩ :=
      shape.search some_used key
    · refine ⟨d', d'.deref ref, ?_, shape'⟩
      simp only [stepped, located, bind, Except.bind]
      rfl
    · refine ⟨d', none, ?_, shape'⟩
      simp only [stepped, located, bind, Except.bind]
      rfl

end Dict

/-! ## Runs -/

/-- Every operation returns and keeps the shape. -/
theorem Op.exec_shape {s : DictState K V} (shape : s.dict.Shape ty) {op : Op K V}
    (legal : op.Legal s) : ∃ s' reply, op.exec ty s = .ok (s', reply) ∧ s'.dict.Shape ty := by
  have few := legal.few
  cases op with
  | add key v =>
      obtain ⟨d', ref, shape', valid, added | added⟩ := shape.dictAddRaw s.dictCanResize few key
      · refine ⟨{ s with dict := d' }, .flag false, ?_, shape'⟩
        simp only [Op.exec, Dict.dictAdd, added, bind, Except.bind, pure, Except.pure]
      · refine ⟨{ s with dict := d'.dictSetVal ref v }, .flag true, ?_, shape'.dictSetVal valid v⟩
        simp only [Op.exec, Dict.dictAdd, added, bind, Except.bind, pure, Except.pure]
  | replace key v =>
      obtain ⟨d', ref, shape', valid, added | added⟩ := shape.dictAddRaw s.dictCanResize few key
      · refine ⟨{ s with dict := d'.dictSetVal ref v }, .flag false, ?_, shape'.dictSetVal valid v⟩
        simp only [Op.exec, Dict.dictReplace, added, bind, Except.bind, pure, Except.pure]
      · refine ⟨{ s with dict := d'.dictSetVal ref v }, .flag true, ?_, shape'.dictSetVal valid v⟩
        simp only [Op.exec, Dict.dictReplace, added, bind, Except.bind, pure, Except.pure]
  | addOrFind key =>
      obtain ⟨d', ref, shape', valid, added | added⟩ := shape.dictAddRaw s.dictCanResize few key
      · refine ⟨{ s with dict := d' }, .entry (d'.deref ref), ?_, shape'⟩
        simp only [Op.exec, Dict.dictAddOrFind, added, bind, Except.bind, pure, Except.pure]
      · refine ⟨{ s with dict := d' }, .entry (d'.deref ref), ?_, shape'⟩
        simp only [Op.exec, Dict.dictAddOrFind, added, bind, Except.bind, pure, Except.pure]
  | delete key =>
      obtain ⟨d', e, deleted, shape'⟩ := shape.dictGenericDelete key
      refine ⟨{ s with dict := d' }, .flag e.isSome, ?_, shape'⟩
      simp only [Op.exec, Dict.dictDelete, deleted, bind, Except.bind, pure, Except.pure]
  | unlink key =>
      obtain ⟨d', e, deleted, shape'⟩ := shape.dictGenericDelete key
      refine ⟨{ s with dict := d' }, .entry e, ?_, shape'⟩
      simp only [Op.exec, deleted, bind, Except.bind, pure, Except.pure]
  | find key =>
      obtain ⟨d', e, found, shape'⟩ := shape.dictFind key
      refine ⟨{ s with dict := d' }, .entry e, ?_, shape'⟩
      simp only [Op.exec, found, bind, Except.bind, pure, Except.pure]
  | fetchValue key =>
      obtain ⟨d', e, found, shape'⟩ := shape.dictFind key
      refine ⟨{ s with dict := d' }, .value (e.map (·.val)), ?_, shape'⟩
      simp only [Op.exec, Dict.dictFetchValue, found, bind, Except.bind, pure, Except.pure]
  | expand size => exact ⟨_, _, rfl, (shape.dictExpand_spec size).1⟩
  | resize => exact ⟨_, _, rfl, (shape.dictResize_spec s.dictCanResize).1⟩
  | rehash n =>
      obtain ⟨d', more, rehashed, shape', _⟩ := shape.dictRehash_spec n
      refine ⟨{ s with dict := d' }, .nothing, ?_, shape'⟩
      simp only [Op.exec, rehashed, bind, Except.bind, pure, Except.pure]
  | enableResize => exact ⟨_, _, rfl, shape⟩
  | disableResize => exact ⟨_, _, rfl, shape⟩
  | empty => exact ⟨_, _, rfl, .create⟩

/-- **The shape is an invariant.** After any sequence of operations from `_dictCreate`, for
every hash function and comparison, both tables are well formed (`used` counts the entries,
sizes are powers of two from 4 on with their masks, entries lie in their buckets), and
during a rehash the sizes differ and the buckets in front of `rehashidx` are empty. Every
further operation returns: no assertion fails and no index leaves its table. -/
theorem dict_shape {ops : List (Op K V)} {s : DictState K V} (run : (dictSys ty).Run ops s) :
    s.dict.Shape ty ∧ ∀ op : Op K V, op.Legal s → ∃ s' reply, op.exec ty s = .ok (s', reply) := by
  have shape : s.dict.Shape ty := by
    refine run.invariant (I := fun _ s => s.dict.Shape ty) ?_ ?_
    · rintro s rfl
      exact .create
    · rintro ops s op s' _ shape ⟨legal, reply, executed⟩
      obtain ⟨s'', reply', executed', shape'⟩ := Op.exec_shape shape legal
      rw [executed] at executed'
      obtain ⟨rfl, _⟩ := Prod.ext_iff.mp (Except.ok.inj executed')
      exact shape'
  refine ⟨shape, ?_⟩
  intro op legal
  obtain ⟨s', reply, executed, _⟩ := Op.exec_shape shape legal
  exact ⟨s', reply, executed⟩

/-- All keys in one bucket, and no key equal to any, itself included. -/
def flatType : DictType Nat := ⟨fun _ => 7, fun _ _ => false⟩

/-- Adding a key under such a hash function, and the same key again. -/
theorem dict_shape_flat :
    ∃ s, (dictSys flatType).Run [.add 1 10] s ∧ s.dict.Shape flatType ∧
      ∃ s' reply, (Op.add 1 20).exec flatType s = .ok (s', reply) := by
  have run₀ : (dictSys flatType).Run [] (⟨dictCreate, true⟩ : DictState Nat Nat) := .init rfl
  have legal₀ : (Op.add 1 10).Legal (⟨dictCreate, true⟩ : DictState Nat Nat) := by
    show 0 < 2 ^ 61
    decide
  obtain ⟨s₁, reply, executed⟩ := (dict_shape run₀).2 _ legal₀
  have run₁ : (dictSys flatType).Run [.add 1 10] s₁ := .step run₀ ⟨legal₀, reply, executed⟩
  have legal₁ : (Op.add 1 20).Legal s₁ := by
    have size : s₁.dict.dictSize = 1 := by
      have one : (Op.add 1 10).exec flatType ⟨dictCreate, true⟩ = _ := rfl
      rw [one] at executed
      cases executed
      rfl
    show s₁.dict.dictSize < 2 ^ 61
    rw [size]
    decide
  exact ⟨s₁, run₁, (dict_shape run₁).1, (dict_shape run₁).2 _ legal₁⟩

/-! ## Progress of a rehash -/

namespace Dict

/-- At most `calls` calls of `dictRehash`, with the step budgets `n`, until one returns 0. -/
def rehashCalls (ty : DictType K) (n : Nat → Nat) : Nat → Dict K V → Except Fault (Dict K V × Bool)
  | 0, d => .ok (d, true)
  | calls + 1, d => do
    let (d, more) ← d.dictRehash ty (n calls)
    if more then rehashCalls ty n calls d else return (d, false)

/-- A rehash that is complete. -/
structure Complete (d d' : Dict K V) : Prop where
  stopped : d'.rehashidx = none
  reset : d'.ht1 = dictReset
  entries : d'.ht0.entries.Perm d.entries

theorem Shape.complete {d' : Dict K V} (shape : d'.Shape ty) (stopped : d'.rehashidx = none)
    (perm : d'.entries.Perm d.entries) : Complete d d' := by
  have reset := shape.idle stopped
  refine ⟨stopped, reset, ?_⟩
  rwa [Dict.entries, reset, Dictht.entries_reset, List.append_nil] at perm

/-- As many calls as there are buckets left complete a rehash. -/
theorem Shape.rehashCalls (shape : d.Shape ty) {idx : Nat} (started : d.rehashidx = some idx)
    {n : Nat → Nat} (pos : ∀ i, 1 ≤ n i) {calls : Nat} (enough : d.ht0.size ≤ idx + calls)
    (below : 0 < calls) :
    ∃ d', d.rehashCalls ty n calls = .ok (d', false) ∧ Complete d d' := by
  induction calls generalizing d idx with
  | zero => omega
  | succ calls ih =>
      obtain ⟨d₁, more, rehashed, shape₁, perm, _, progress⟩ :=
        shape.dictRehash_progress started (n calls)
      have step : min (n calls) 1 = 1 := Nat.min_eq_right (pos calls)
      rw [step] at progress
      rw [Dict.rehashCalls, rehashed]
      rcases progress with ⟨rfl, stopped⟩ | ⟨rfl, idx₁, started₁, further, inside, same⟩
      · exact ⟨d₁, rfl, shape₁.complete stopped perm⟩
      · -- fewer buckets are left than calls
        obtain ⟨d', ran, complete⟩ := ih shape₁ started₁ (by omega) (by omega)
        exact ⟨d', ran, complete.stopped, complete.reset, complete.entries.trans perm⟩

end Dict

/-- **Rehashing makes progress.** During a rehash each call of `dictRehash` keeps the entries
and completes the rehash or moves `rehashidx` on, still inside the first table; so calls
with any budgets complete it after at most as many of them as the table has buckets. -/
theorem rehash_progress (shape : d.Shape ty) {idx : Nat} (started : d.rehashidx = some idx) :
    (∀ n, 1 ≤ n → ∃ d' more, d.dictRehash ty n = .ok (d', more) ∧ d'.entries.Perm d.entries ∧
      ((more = false ∧ Dict.Complete d d') ∨
        (more = true ∧ ∃ idx', d'.rehashidx = some idx' ∧ idx < idx' ∧ idx' < d'.ht0.size))) ∧
    ∀ n : Nat → Nat, (∀ i, 1 ≤ n i) →
      ∃ d', d.rehashCalls ty n d.ht0.size = .ok (d', false) ∧ Dict.Complete d d' := by
  constructor
  · intro n pos
    obtain ⟨d', more, rehashed, shape', perm, _, progress⟩ := shape.dictRehash_progress started n
    have step : min n 1 = 1 := Nat.min_eq_right pos
    rw [step] at progress
    refine ⟨d', more, rehashed, perm, ?_⟩
    rcases progress with ⟨done, stopped⟩ | ⟨left, idx', started', further, inside, _⟩
    · exact .inl ⟨done, shape'.complete stopped perm⟩
    · exact .inr ⟨left, idx', started', by omega, inside⟩
  · intro n pos
    have alloc := (shape.moving idx started).from_alloc
    have some_buckets : 0 < d.ht0.size := by
      rw [shape.first.size_eq]
      exact List.length_pos_of_ne_nil alloc
    exact shape.rehashCalls started pos (by omega) some_buckets

/-- Four buckets with one entry on the way to eight. -/
def halfway : Dict Nat Nat :=
  ⟨⟨[[], [⟨1, some 10⟩], [], []], 4, 3, 1⟩, Dict.newTable 8, some 0, 0⟩

theorem halfway_shape : halfway.Shape natType where
  first :=
    { shape := .inr ⟨2, by decide, by decide, rfl, rfl, rfl⟩
      used := rfl
      placed := by
        intro i chain at_i e mem
        match i with
        | 0 | 2 | 3 =>
          cases at_i
          cases mem
        | 1 =>
          cases at_i
          obtain rfl := List.mem_singleton.mp mem
          decide
        | i + 4 => simp [halfway] at at_i }
  second := Dict.newTable_wf (k := 3) (by decide) (by decide)
  idle := nofun
  moving := by
    rintro _ ⟨⟩
    exact ⟨nofun, by decide, by decide, Nat.zero_le _, nofun⟩

theorem rehash_progress_halfway :
    (∀ n, 1 ≤ n → ∃ d' more, halfway.dictRehash natType n = .ok (d', more) ∧
      d'.entries.Perm halfway.entries ∧
      ((more = false ∧ Dict.Complete halfway d') ∨
        (more = true ∧ ∃ idx', d'.rehashidx = some idx' ∧ 0 < idx' ∧ idx' < d'.ht0.size))) ∧
    ∀ n : Nat → Nat, (∀ i, 1 ≤ n i) →
      ∃ d', halfway.rehashCalls natType n 4 = .ok (d', false) ∧ Dict.Complete halfway d' :=
  rehash_progress halfway_shape rfl

end GpBase.Dictionary

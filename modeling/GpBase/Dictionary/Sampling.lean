import Mathlib.Data.Nat.ModEq
import GpBase.Dictionary.Shape

/-!
# Sampling the dictionary

Translation of `dictGetSomeKeys`. It walks over the buckets of both tables from a random
index on, and jumps to another one behind a long row of empty buckets. Entries are handed out
as pointers; how many random numbers have been drawn tells whether the walk has jumped.
-/

namespace GpBase.Dictionary

open GpBase.Lib

variable {K V : Type}

/-! ## The function -/

/-- The variables of `dictGetSomeKeys` in its loop: `i`, `emptylen`, the entries stored, and
the number of calls of `random()`. -/
structure Sampling where
  i : Nat
  emptylen : Nat
  des : List EntryRef
  drawn : Nat
  deriving DecidableEq, Repr

namespace Dict

variable (ty : DictType K) (d : Dict K V) (random : Nat → Nat) (count : Nat)

/-- The loop over a chain, from `pos` on; the flag says that `count` entries are stored. -/
def collect (second : Bool) (i : Nat) :
    List (DictEntry K V) → Nat → List EntryRef → List EntryRef × Bool
  | [], _, des => (des, false)
  | _ :: rest, pos, des =>
    let des := des ++ [⟨second, i, pos⟩]
    if des.length = count then (des, true) else collect second i rest (pos + 1) des

/-- The larger mask of the tables in use. -/
def maxSizemask : Nat :=
  if d.dictIsRehashing ∧ d.ht0.sizemask.toNat < d.ht1.sizemask.toNat then d.ht1.sizemask.toNat
  else d.ht0.sizemask.toNat

/-- The bucket at the current index; the flag says that `count` entries are stored. -/
def sampleBucket (second : Bool) (s : Sampling) : Except Fault (Sampling × Bool) :=
  if (d.ht second).size ≤ s.i then return (s, false)
  else do
    match ← (d.ht second).chain s.i with
    | [] =>
      let emptylen := s.emptylen + 1
      if 5 ≤ emptylen ∧ count < emptylen then
        let i := random s.drawn &&& d.maxSizemask
        return ({ s with i := i, emptylen := 0, drawn := s.drawn + 1 }, false)
      else return ({ s with emptylen := emptylen }, false)
    | e :: es =>
      let (des, full) := collect count second s.i (e :: es) 0 s.des
      return ({ s with emptylen := 0, des := des }, full)

/-- One table: below `rehashidx` there is nothing in `ht[0]`. -/
def sampleTable (second : Bool) (s : Sampling) : Except Fault (Sampling × Bool) :=
  let rehashed := d.rehashidx.getD 0
  if d.dictIsRehashing && !second && s.i < rehashed then
    if d.ht1.size ≤ s.i then d.sampleBucket random count second { s with i := rehashed }
    else return (s, false)
  else d.sampleBucket random count second s

/-- The tables at the current index. -/
def sampleIndex (s : Sampling) : Except Fault (Sampling × Bool) := do
  let (s, full) ← d.sampleTable random count false s
  if full then return (s, true)
  else if d.dictIsRehashing then d.sampleTable random count true s
  else return (s, false)

/-- The loop, for at most `maxsteps` rounds. -/
def sampleLoop : Nat → Sampling → Except Fault Sampling
  | 0, s => .ok s
  | maxsteps + 1, s =>
    if s.des.length < count then do
      let (s, full) ← d.sampleIndex random count s
      if full then return s
      else sampleLoop maxsteps { s with i := (s.i + 1) &&& d.maxSizemask }
    else .ok s

/-- Rehashing work in proportion to `count`. -/
def rehashSteps : Nat → Dict K V → Except Fault (Dict K V)
  | 0, d => .ok d
  | n + 1, d =>
    if d.dictIsRehashing then do rehashSteps n (← d.rehashStep ty)
    else .ok d

/-- `dictGetSomeKeys`: what it has stored, and the number of calls of `random()`; `count` is
an `unsigned int`, and so is the product with 10. -/
def dictGetSomeKeys : Except Fault (Dict K V × List EntryRef × Nat) := do
  let count := if d.dictSize < count then d.dictSize else count
  let maxsteps := uint32 (count * 10)
  let d ← rehashSteps ty count d
  let s ← d.sampleLoop random count maxsteps ⟨random 0 &&& d.maxSizemask, 0, [], 1⟩
  return (d, s.des, s.drawn)

end Dict

/-! ## Pointers by position -/

namespace Dict

variable {ty : DictType K} {d : Dict K V} {count : Nat}

/-- The pointers to the entries of a bucket. -/
def bucketRefs (d : Dict K V) (second : Bool) (i : Nat) : List EntryRef :=
  (List.range ((d.ht second).table.getD i []).length).map fun pos => ⟨second, i, pos⟩

/-- The pointers to the entries of both tables at an index. -/
def refsAt (d : Dict K V) (i : Nat) : List EntryRef :=
  d.bucketRefs false i ++ d.bucketRefs true i

/-- The pointers that a walk over `steps` of `n` indices meets. -/
def walk (d : Dict K V) (n start steps : Nat) : List EntryRef :=
  (List.range steps).flatMap fun off => d.refsAt ((start + off) % n)

theorem mem_bucketRefs {second : Bool} {i : Nat} {ref : EntryRef} :
    ref ∈ d.bucketRefs second i ↔ ref.second = second ∧ ref.idx = i ∧ d.Valid ref := by
  obtain ⟨second', idx, pos⟩ := ref
  simp only [bucketRefs, List.mem_map, List.mem_range, EntryRef.mk.injEq, Valid]
  constructor
  · rintro ⟨p, inside, rfl, rfl, rfl⟩
    rw [List.getD_eq_getElem?_getD] at inside
    cases at_i : (d.ht second).table[i]? with
    | none => simp [at_i] at inside
    | some chain => exact ⟨rfl, rfl, chain, rfl, by simpa [at_i] using inside⟩
  · rintro ⟨rfl, rfl, chain, at_i, inside⟩
    refine ⟨pos, ?_, rfl, rfl, rfl⟩
    rw [List.getD_eq_getElem?_getD, at_i]
    exact inside

theorem bucketRefs_nodup (second : Bool) (i : Nat) : (d.bucketRefs second i).Nodup := by
  refine List.Nodup.map ?_ List.nodup_range
  intro p q same
  exact (EntryRef.mk.inj same).2.2

theorem refsAt_nodup (i : Nat) : (d.refsAt i).Nodup := by
  refine (bucketRefs_nodup false i).append (bucketRefs_nodup true i) ?_
  intro ref first second
  rw [mem_bucketRefs] at first second
  rw [first.1] at second
  cases second.1

theorem mem_refsAt {i : Nat} {ref : EntryRef} :
    ref ∈ d.refsAt i ↔ ref.idx = i ∧ d.Valid ref := by
  rw [refsAt, List.mem_append, mem_bucketRefs, mem_bucketRefs]
  constructor
  · intro either
    obtain ⟨_, at_i, valid⟩ | ⟨_, at_i, valid⟩ := either
    · exact ⟨at_i, valid⟩
    · exact ⟨at_i, valid⟩
  · intro ⟨at_i, valid⟩
    cases second : ref.second with
    | false => exact .inl ⟨rfl, at_i, valid⟩
    | true => exact .inr ⟨rfl, at_i, valid⟩

theorem walk_succ (n start steps : Nat) :
    d.walk n start (steps + 1) = d.walk n start steps ++ d.refsAt ((start + steps) % n) := by
  simp [walk, List.range_succ]

theorem mem_walk {n start steps : Nat} {ref : EntryRef} :
    ref ∈ d.walk n start steps ↔
      d.Valid ref ∧ ∃ off < steps, ref.idx = (start + off) % n := by
  simp only [walk, List.mem_flatMap, List.mem_range, mem_refsAt]
  constructor
  · intro ⟨off, inside, at_off, valid⟩
    exact ⟨valid, off, inside, at_off⟩
  · intro ⟨valid, off, inside, at_off⟩
    exact ⟨off, inside, at_off, valid⟩

/-- Within one round no pointer is met twice. -/
theorem walk_nodup {n start steps : Nat} (round : steps ≤ n) : (d.walk n start steps).Nodup := by
  induction steps with
  | zero => exact List.nodup_nil
  | succ steps ih =>
      rw [walk_succ]
      refine (ih (by omega)).append (refsAt_nodup _) ?_
      intro ref before here
      obtain ⟨_, off, inside, at_off⟩ := mem_walk.mp before
      have at_step := (mem_refsAt.mp here).1
      rw [at_off] at at_step
      -- two offsets of the same index are a multiple of `n` apart
      have same : Nat.ModEq n (start + off) (start + steps) := at_step
      have equal := (Nat.ModEq.add_left_cancel' start same).eq_of_lt_of_lt (by omega) (by omega)
      omega

/-- A round over all indices meets every pointer. -/
theorem mem_walk_round {n start : Nat} (low : start < n) {ref : EntryRef}
    (at_ : ref.idx < n) (valid : d.Valid ref) : ref ∈ d.walk n start n := by
  refine mem_walk.mpr ⟨valid, (ref.idx + (n - start)) % n, Nat.mod_lt _ (by omega), ?_⟩
  have there : start + (ref.idx + (n - start)) = ref.idx + n := by omega
  rw [Nat.add_mod_mod, there, Nat.add_mod_right, Nat.mod_eq_of_lt at_]

theorem sum_chain_lengths (table : List (List (DictEntry K V))) :
    ∀ n, table.length ≤ n →
      ((List.range n).map fun i => (table.getD i []).length).sum = table.flatten.length := by
  induction table with
  | nil => simp
  | cons chain rest ih =>
      intro n fits
      obtain ⟨m, rfl⟩ : ∃ m, n = m + 1 := ⟨n - 1, by simp at fits; omega⟩
      rw [List.range_succ_eq_map, List.map_cons, List.map_map, List.sum_cons, List.flatten_cons,
        List.length_append, ← ih m (by simpa using fits)]
      rfl

theorem walk_length (shape : d.Shape ty) {n : Nat} (fits : ∀ second, (d.ht second).size ≤ n) :
    (d.walk n 0 n).length = d.dictSize := by
  have first := (shape.ht_wf false).size_eq
  have second := (shape.ht_wf true).size_eq
  have low : d.ht0.table.length ≤ n := first ▸ fits false
  have high : d.ht1.table.length ≤ n := second ▸ fits true
  have lengths : (d.walk n 0 n).length = ((List.range n).map fun i =>
      (d.ht0.table.getD i []).length + (d.ht1.table.getD i []).length).sum := by
    rw [walk, List.length_flatMap]
    congr 1
    refine List.map_congr_left fun i mem => ?_
    rw [Nat.zero_add, Nat.mod_eq_of_lt (List.mem_range.mp mem)]
    simp [refsAt, bucketRefs, ht]
  rw [lengths, List.sum_map_add, sum_chain_lengths _ n low, sum_chain_lengths _ n high, dictSize,
    shape.first.used, shape.second.used]
  rfl

/-- A round over all indices is as long as the dictionary. -/
theorem walk_round_length (shape : d.Shape ty) {n start : Nat} (low : start < n)
    (fits : ∀ second, (d.ht second).size ≤ n) : d.dictSize ≤ (d.walk n start n).length := by
  rw [← walk_length shape fits]
  refine (List.subperm_of_subset (walk_nodup (le_refl n)) ?_).length_le
  intro ref mem
  obtain ⟨valid, off, inside, at_off⟩ := mem_walk.mp mem
  refine mem_walk_round low ?_ valid
  rw [at_off]
  exact Nat.mod_lt _ (by omega)

/-! ## One index -/

theorem collect_spec (second : Bool) (i : Nat) (chain : List (DictEntry K V)) :
    ∀ (pos : Nat) (des : List EntryRef), des.length < count →
      collect count second i chain pos des =
        (des ++ ((List.range chain.length).map fun p => ⟨second, i, pos + p⟩).take
          (count - des.length), decide (count ≤ des.length + chain.length)) := by
  induction chain with
  | nil =>
      intro pos des short
      simp [collect, short]
  | cons e rest ih =>
      intro pos des short
      rw [collect]
      have split : ((List.range (rest.length + 1)).map
          fun p => (⟨second, i, pos + p⟩ : EntryRef)) = ⟨second, i, pos⟩ ::
            (List.range rest.length).map fun p => ⟨second, i, pos + 1 + p⟩ := by
        rw [List.range_succ_eq_map, List.map_cons, List.map_map]
        refine congrArg _ (List.map_congr_left fun p _ => ?_)
        simp only [Function.comp, EntryRef.mk.injEq, true_and]
        omega
      have more : count - des.length = count - (des.length + 1) + 1 := by omega
      simp only [List.length_append, List.length_cons]
      rw [split, more, List.take_succ_cons, List.length_nil, Nat.zero_add]
      by_cases full : des.length + 1 = count
      · rw [if_pos full, full, Nat.sub_self, List.take_zero]
        simp
        omega
      · rw [if_neg full, ih _ _ (by simp; omega)]
        simp only [List.length_append, List.length_singleton, List.append_assoc,
          List.singleton_append, Prod.mk.injEq, true_and]
        congr 1
        simp only [eq_iff_iff]
        omega

/-- A row of indices without entries. -/
structure Clear (d : Dict K V) (i i' : Nat) : Prop where
  forward : i < i'
  inside : i' < d.ht0.size
  empty : ∀ p, i ≤ p → p < i' → d.refsAt p = []

/-- `rehashidx` is an index of the first table. -/
def Inside (d : Dict K V) : Prop := ∀ idx, d.rehashidx = some idx → idx < d.ht0.size

theorem bucketRefs_beyond (shape : d.Shape ty) {second : Bool} {i : Nat}
    (beyond : (d.ht second).size ≤ i) : d.bucketRefs second i = [] := by
  have none : (d.ht second).table[i]? = none := by
    rw [List.getElem?_eq_none_iff, ← (shape.ht_wf second).size_eq]
    exact beyond
  simp [bucketRefs, none]

theorem bucketRefs_emptied (shape : d.Shape ty) {idx i : Nat} (started : d.rehashidx = some idx)
    (passed : i < idx) : d.bucketRefs false i = [] := by
  have empty : (d.ht false).table[i]? = some [] := (shape.moving idx started).emptied i passed
  simp [bucketRefs, empty]

/-- What is safe to say of the variables at any time. -/
structure Safe (d : Dict K V) (count : Nat) (s : Sampling) : Prop where
  valid : ∀ ref ∈ s.des, d.Valid ref
  room : s.des.length ≤ count

theorem sampleBucket_spec (random : Nat → Nat) (shape : d.Shape ty) (second : Bool) {s : Sampling}
    (short : s.des.length < count) :
    ∃ s', d.sampleBucket random count second s =
        .ok (s', decide (count ≤ s.des.length + (d.bucketRefs second s.i).length)) ∧
      s'.des = s.des ++ (d.bucketRefs second s.i).take (count - s.des.length) ∧
      ((s'.i = s.i ∧ s'.drawn = s.drawn) ∨ s.drawn < s'.drawn) := by
  have open_ : ¬ count ≤ s.des.length := by omega
  unfold sampleBucket
  by_cases beyond : (d.ht second).size ≤ s.i
  · have none := bucketRefs_beyond shape beyond
    rw [if_pos beyond, none]
    exact ⟨s, by simp [open_]; rfl, by simp, .inl ⟨rfl, rfl⟩⟩
  have size := (shape.ht_wf second).size_eq
  have at_i := List.getElem?_eq_getElem (show s.i < (d.ht second).table.length by omega)
  rw [if_neg beyond]
  simp only [Dictht.chain, at_i, bind, Except.bind]
  have refs : d.bucketRefs second s.i = (List.range (d.ht second).table[s.i].length).map
      fun pos => ⟨second, s.i, pos⟩ := by
    simp [bucketRefs, at_i]
  rw [refs]
  cases bucket : (d.ht second).table[s.i] with
  | nil =>
      dsimp only
      split
      · refine ⟨⟨random s.drawn &&& d.maxSizemask, 0, s.des, s.drawn + 1⟩, ?_, by simp,
          .inr (Nat.lt_succ_self _)⟩
        simp [open_]
        rfl
      · refine ⟨⟨s.i, s.emptylen + 1, s.des, s.drawn⟩, ?_, by simp, .inl ⟨rfl, rfl⟩⟩
        simp [open_]
        rfl
  | cons e es =>
      dsimp only
      rw [collect_spec second s.i _ 0 s.des short]
      refine ⟨⟨s.i, 0, s.des ++ ((List.range (e :: es).length).map
        fun p => ⟨second, s.i, 0 + p⟩).take (count - s.des.length), s.drawn⟩, ?_, ?_,
        .inl ⟨rfl, rfl⟩⟩
      · rw [List.length_map, List.length_range]
        rfl
      · simp

/-- One table hands out the entries of one bucket, perhaps further on, or draws a number. -/
theorem sampleTable_spec (random : Nat → Nat) (shape : d.Shape ty) (inside : d.Inside)
    (second : Bool) {s : Sampling} (short : s.des.length < count) :
    ∃ s' i', d.sampleTable random count second s =
        .ok (s', decide (count ≤ s.des.length + (d.bucketRefs second i').length)) ∧
      (i' = s.i ∨ (second = false ∧ d.Clear s.i i')) ∧
      s'.des = s.des ++ (d.bucketRefs second i').take (count - s.des.length) ∧
      ((s'.i = i' ∧ s'.drawn = s.drawn) ∨ s.drawn < s'.drawn) := by
  have open_ : ¬ count ≤ s.des.length := by omega
  unfold sampleTable
  dsimp only
  split
  · next skip =>
      simp only [Bool.and_eq_true, Bool.not_eq_true', decide_eq_true_eq] at skip
      obtain ⟨⟨rehashing, first⟩, passed⟩ := skip
      obtain ⟨idx, started⟩ := Option.isSome_iff_exists.mp rehashing
      rw [started, Option.getD_some] at passed ⊢
      subst first
      split
      · next beyond =>
          obtain ⟨s', sampled, des, here⟩ := sampleBucket_spec random shape false
            (s := { s with i := idx }) short
          refine ⟨s', idx, sampled, .inr ⟨rfl, passed, inside idx started, ?_⟩, des, here⟩
          intro p low high
          rw [refsAt, bucketRefs_emptied shape started high,
            bucketRefs_beyond shape (show (d.ht true).size ≤ p from beyond.trans low)]
          rfl
      · have none := bucketRefs_emptied shape started passed
        refine ⟨s, s.i, ?_, .inl rfl, ?_, .inl ⟨rfl, rfl⟩⟩
        · rw [none]
          simp [open_]
          rfl
        · rw [none]
          simp
  · obtain ⟨s', sampled, des, here⟩ := sampleBucket_spec random shape second short
    exact ⟨s', s.i, sampled, .inl rfl, des, here⟩

/-- Pointers of one bucket more. -/
theorem Safe.append {s s' : Sampling} (safe : d.Safe count s) {second : Bool} {i : Nat}
    (des : s'.des = s.des ++ (d.bucketRefs second i).take (count - s.des.length)) :
    d.Safe count s' where
  valid := by
    intro ref mem
    rw [des, List.mem_append] at mem
    rcases mem with old | new
    · exact safe.valid ref old
    · exact (mem_bucketRefs.mp (List.mem_of_mem_take new)).2.2
  room := by
    have room := safe.room
    rw [des, List.length_append, List.length_take]
    omega

/-- Without a rehash there is nothing in the second table. -/
theorem bucketRefs_idle (shape : d.Shape ty) (idle : ¬ d.dictIsRehashing = true) (i : Nat) :
    d.bucketRefs true i = [] := by
  apply bucketRefs_beyond shape
  rw [show d.ht true = dictReset from shape.idle (by simpa [dictIsRehashing] using idle)]
  exact Nat.zero_le i

/-- Both tables at one index, and the flag says whether there is room left. -/
theorem sampleIndex_spec (random : Nat → Nat) (shape : d.Shape ty) (inside : d.Inside)
    {s : Sampling} (safe : d.Safe count s) (short : s.des.length < count) :
    ∃ s', d.sampleIndex random count s = .ok (s', decide (count ≤ s'.des.length)) ∧
      d.Safe count s' ∧ s.drawn ≤ s'.drawn ∧
      (s'.drawn = s.drawn → ∃ i', (i' = s.i ∨ d.Clear s.i i') ∧ s'.i = i' ∧
        s'.des = s.des ++ (d.refsAt i').take (count - s.des.length)) := by
  obtain ⟨s₁, i', first, at_i, des₁, here⟩ :=
    sampleTable_spec random shape inside false short
  have safe₁ := safe.append des₁
  have room := safe.room
  have full₁ : decide (count ≤ s.des.length + (d.bucketRefs false i').length) =
      decide (count ≤ s₁.des.length) := by
    rw [des₁, List.length_append, List.length_take]
    congr 1
    rw [eq_iff_iff]
    omega
  have where_ : i' = s.i ∨ d.Clear s.i i' := at_i.imp_right And.right
  unfold sampleIndex
  rw [first, full₁]
  simp only [bind, Except.bind]
  by_cases full : count ≤ s₁.des.length
  · refine ⟨s₁, by simp [full]; rfl, safe₁, by omega, fun same => ?_⟩
    refine ⟨i', where_, by omega, ?_⟩
    rw [des₁, List.length_append, List.length_take] at full
    rw [des₁, refsAt, List.take_append_of_le_length (by omega)]
  · rw [if_neg (by simpa using full)]
    by_cases rehashing : d.dictIsRehashing = true
    · obtain ⟨s₂, i₂, second, at_i₂, des₂, here₂⟩ :=
        sampleTable_spec random shape inside true (show s₁.des.length < count by omega)
      obtain rfl : i₂ = s₁.i := by simpa using at_i₂
      have safe₂ := safe₁.append des₂
      rw [if_pos rehashing, second]
      refine ⟨s₂, ?_, safe₂, by omega, fun same => ⟨i', where_, by omega, ?_⟩⟩
      · rw [des₂, List.length_append, List.length_take]
        congr 3
        rw [eq_iff_iff]
        omega
      · have drawn₁ : s₁.i = i' := by omega
        rw [des₁, List.length_append, List.length_take] at full
        have all : (d.bucketRefs false i').take (count - s.des.length) =
            d.bucketRefs false i' := List.take_of_length_le (by omega)
        rw [des₂, drawn₁, des₁, all, refsAt, List.take_append, all, List.length_append,
          List.append_assoc, Nat.sub_sub]
    · rw [if_neg rehashing]
      refine ⟨s₁, by simp [full]; rfl, safe₁, by omega, fun same => ?_⟩
      refine ⟨i', where_, by omega, ?_⟩
      rw [des₁, refsAt, bucketRefs_idle shape rehashing, List.append_nil]

/-! ## The walk -/

theorem sizemask_toNat {ht : Dictht K V} {k : Nat} (alloc : ht.Allocated k) :
    ht.sizemask.toNat = 2 ^ k - 1 := by
  have small : 2 ^ k < 2 ^ 64 := Nat.pow_lt_pow_right (by omega) (Nat.lt_succ_of_le alloc.atMost)
  rw [alloc.sizemask, BitVec.toNat_ofNat, Nat.mod_eq_of_lt (by omega)]

theorem maxSizemask_spec (shape : d.Shape ty) (alloc : d.ht0.table ≠ []) :
    ∃ k, d.maxSizemask = 2 ^ k - 1 ∧ ∀ second, (d.ht second).size ≤ 2 ^ k := by
  obtain ⟨k, first⟩ := shape.first.allocated alloc
  have mask₀ := sizemask_toNat first
  have pos := Nat.two_pow_pos k
  by_cases rehashing : d.dictIsRehashing = true
  · obtain ⟨idx, started⟩ := Option.isSome_iff_exists.mp rehashing
    obtain ⟨k', second⟩ := shape.second.allocated (shape.moving idx started).to_alloc
    have mask₁ := sizemask_toNat second
    have pos' := Nat.two_pow_pos k'
    have size₀ := first.size
    have size₁ := second.size
    by_cases larger : d.ht0.sizemask.toNat < d.ht1.sizemask.toNat
    · refine ⟨k', by rw [maxSizemask, if_pos ⟨rehashing, larger⟩, mask₁], fun second => ?_⟩
      cases second with
      | false =>
          show d.ht0.size ≤ _
          omega
      | true =>
          show d.ht1.size ≤ _
          omega
    · refine ⟨k, by rw [maxSizemask, if_neg (fun both => larger both.2), mask₀], fun second => ?_⟩
      cases second with
      | false =>
          show d.ht0.size ≤ _
          omega
      | true =>
          show d.ht1.size ≤ _
          omega
  · refine ⟨k, by rw [maxSizemask, if_neg (fun both => rehashing both.1), mask₀], fun second => ?_⟩
    cases second with
    | false => exact first.size.le
    | true =>
        rw [show d.ht true = dictReset from shape.idle (by simpa [dictIsRehashing] using rehashing)]
        exact Nat.zero_le _

/-- Indices without entries add nothing to a walk. -/
theorem walk_clear {n start steps len : Nat}
    (empty : ∀ off, steps ≤ off → off < steps + len → d.refsAt ((start + off) % n) = []) :
    d.walk n start (steps + len) = d.walk n start steps := by
  induction len with
  | zero => rfl
  | succ len ih =>
      rw [← Nat.add_assoc, walk_succ, empty (steps + len) (by omega) (by omega), List.append_nil]
      exact ih fun off low high => empty off low (by omega)

/-- How far a walk without a jump has come. -/
structure Straight (d : Dict K V) (n start steps : Nat) (s : Sampling) : Prop where
  round : steps ≤ n
  des : s.des = d.walk n start steps
  index : s.i = (start + steps) % n

/-- Before it has enough, a walk has not come round. -/
theorem Straight.step (shape : d.Shape ty) {n start steps : Nat} (low : start < n)
    (fits : ∀ second, (d.ht second).size ≤ n) {s : Sampling} (straight : d.Straight n start steps s)
    (short : s.des.length < d.dictSize) {i' : Nat} (at_i : i' = s.i ∨ d.Clear s.i i') :
    ∃ skipped, steps + skipped < n ∧ i' = (start + (steps + skipped)) % n ∧
      s.des = d.walk n start (steps + skipped) := by
  have all := walk_round_length shape low fits
  have unfinished : ∀ more, steps ≤ more → s.des = d.walk n start more → more < n := by
    intro more _ same
    by_contra beyond
    have := List.Sublist.length_le (show (d.walk n start n).Sublist (d.walk n start more) by
      obtain ⟨rest, rfl⟩ := Nat.exists_eq_add_of_le (not_lt.mp beyond)
      rw [walk, walk, List.range_add, List.flatMap_append]
      exact List.sublist_append_left _ _)
    rw [← same] at this
    omega
  have here := unfinished steps (le_refl _) straight.des
  obtain rfl | clear := at_i
  · exact ⟨0, here, straight.index, straight.des⟩
  · have inside : i' < n := clear.inside.trans_le (fits false)
    have forward := clear.forward
    have index := straight.index
    -- the indices skipped, as offsets of the walk
    have offsets : ∀ off, off < n - s.i → (start + (steps + off)) % n = s.i + off := by
      intro off small
      rw [← Nat.add_assoc, Nat.add_mod, ← index, Nat.add_mod_mod, Nat.mod_eq_of_lt (by omega)]
    have same : d.walk n start (steps + (i' - s.i)) = d.walk n start steps := by
      apply walk_clear
      intro off low high
      rw [show start + off = start + (steps + (off - steps)) by omega, offsets _ (by omega)]
      exact clear.empty _ (by omega) (by omega)
    have des : s.des = d.walk n start (steps + (i' - s.i)) := straight.des.trans same.symm
    refine ⟨i' - s.i, unfinished _ (by omega) des, ?_, des⟩
    rw [offsets _ (by omega)]
    omega

/-- The loop ends with pointers to entries; without a jump they differ, and one round is
enough for `count` of them. -/
theorem sampleLoop_spec (random : Nat → Nat) (shape : d.Shape ty) (inside : d.Inside)
    (enough : count ≤ d.dictSize) {k start : Nat} (mask : d.maxSizemask = 2 ^ k - 1)
    (fits : ∀ second, (d.ht second).size ≤ 2 ^ k) (low : start < 2 ^ k) (maxsteps : Nat) :
    ∀ s : Sampling, d.Safe count s →
      ∃ s', d.sampleLoop random count maxsteps s = .ok s' ∧ d.Safe count s' ∧
        s.drawn ≤ s'.drawn ∧
        ∀ steps, d.Straight (2 ^ k) start steps s → s'.drawn = s.drawn →
          s'.des.Nodup ∧ (2 ^ k ≤ steps + maxsteps → s'.des.length = count) := by
  have all := walk_round_length shape low fits
  induction maxsteps with
  | zero =>
      intro s safe
      refine ⟨s, rfl, safe, le_refl _, fun steps straight _ => ⟨?_, fun round => ?_⟩⟩
      · rw [straight.des]
        exact walk_nodup straight.round
      · obtain rfl : steps = 2 ^ k := by
          have := straight.round
          omega
        have room := safe.room
        have des := straight.des
        rw [← des] at all
        omega
  | succ maxsteps ih =>
      intro s safe
      unfold sampleLoop
      by_cases short : s.des.length < count
      · obtain ⟨s₁, stepped, safe₁, grown, here⟩ :=
          sampleIndex_spec random shape inside safe short
        rw [if_pos short, stepped]
        simp only [bind, Except.bind]
        by_cases full : count ≤ s₁.des.length
        · refine ⟨s₁, by simp [full]; rfl, safe₁, grown, fun steps straight same => ?_⟩
          obtain ⟨i', at_i, _, des⟩ := here same
          obtain ⟨skipped, round, rfl, before⟩ :=
            straight.step shape low fits (by omega) at_i
          have distinct : (d.walk (2 ^ k) start (steps + skipped + 1)).Nodup :=
            walk_nodup (by omega)
          rw [walk_succ, ← before] at distinct
          have room := safe₁.room
          refine ⟨?_, fun _ => by omega⟩
          rw [des]
          exact distinct.sublist ((List.take_sublist _ _).append_left _)
        · rw [if_neg (by simpa using full)]
          obtain ⟨s', looped, safe', grown', rest⟩ :=
            ih { s₁ with i := (s₁.i + 1) &&& d.maxSizemask } ⟨safe₁.valid, safe₁.room⟩
          refine ⟨s', looped, safe', grown.trans grown', fun steps straight same => ?_⟩
          dsimp only at grown' same rest
          obtain ⟨i', at_i, index, des⟩ := here (by omega)
          obtain ⟨skipped, round, rfl, before⟩ :=
            straight.step shape low fits (by omega) at_i
          -- there was room for the whole index
          have taken : s₁.des = s.des ++ d.refsAt ((start + (steps + skipped)) % 2 ^ k) := by
            rw [des, List.take_of_length_le]
            rw [des, List.length_append, List.length_take] at full
            omega
          have straight₁ : d.Straight (2 ^ k) start (steps + skipped + 1)
              { s₁ with i := (s₁.i + 1) &&& d.maxSizemask } := by
            refine ⟨by omega, ?_, ?_⟩
            · show s₁.des = _
              rw [walk_succ, ← before, taken]
            · show (s₁.i + 1) &&& d.maxSizemask = _
              rw [mask, Nat.and_two_pow_sub_one_eq_mod, index, Nat.mod_add_mod, Nat.add_assoc start]
          obtain ⟨distinct, filled⟩ := rest _ straight₁ (by omega)
          exact ⟨distinct, fun round' => filled (by omega)⟩
      · rw [if_neg short]
        refine ⟨s, rfl, safe, le_refl _, fun steps straight _ => ⟨?_, fun _ => ?_⟩⟩
        · rw [straight.des]
          exact walk_nodup straight.round
        · have room := safe.room
          omega

/-! ## The call -/

theorem rehashStep_inside (shape : d.Shape ty) :
    ∃ d', d.rehashStep ty = .ok d' ∧ d'.Shape ty ∧ d'.entries.Perm d.entries ∧
      d'.iterators = d.iterators ∧ (d.iterators = 0 ∨ d.Inside → d'.Inside) := by
  unfold rehashStep
  by_cases steps : (d.dictIsRehashing && d.iterators = 0) = true
  · obtain ⟨idx, started⟩ := Option.isSome_iff_exists.mp (Bool.and_eq_true _ _ ▸ steps).1
    obtain ⟨d', more, rehashed, shape', perm, iters, progress⟩ :=
      shape.dictRehash_progress started 1
    rw [if_pos steps, rehashed]
    refine ⟨d', rfl, shape', perm, iters, fun _ idx' started' => ?_⟩
    rcases progress with ⟨_, complete⟩ | ⟨_, idx'', started'', _, below, _⟩
    · rw [complete] at started'
      cases started'
    · rw [started''] at started'
      obtain rfl := Option.some.inj started'
      exact below
  · rw [if_neg steps]
    refine ⟨d, rfl, shape, .refl _, rfl, fun either => ?_⟩
    rcases either with resting | inside
    · intro idx started
      apply absurd _ steps
      simp [dictIsRehashing, started, resting]
    · exact inside

theorem rehashSteps_spec (n : Nat) :
    ∀ d : Dict K V, d.Shape ty →
      ∃ d', rehashSteps ty n d = .ok d' ∧ d'.Shape ty ∧ d'.entries.Perm d.entries ∧
        (0 < n → d.iterators = 0 ∨ d.Inside → d'.Inside) := by
  induction n with
  | zero =>
      intro d shape
      exact ⟨d, rfl, shape, .refl _, fun none => absurd none (lt_irrefl 0)⟩
  | succ n ih =>
      intro d shape
      unfold rehashSteps
      by_cases rehashing : d.dictIsRehashing = true
      · obtain ⟨d₁, stepped, shape₁, perm₁, _, inside₁⟩ := rehashStep_inside shape
        obtain ⟨d', looped, shape', perm', inside'⟩ := ih d₁ shape₁
        rw [if_pos rehashing, stepped]
        refine ⟨d', looped, shape', perm'.trans perm₁, fun _ either => ?_⟩
        cases n with
        | zero =>
            obtain rfl := Except.ok.inj looped
            exact inside₁ either
        | succ n => exact inside' (Nat.succ_pos n) (.inr (inside₁ either))
      · rw [if_neg rehashing]
        refine ⟨d, rfl, shape, .refl _, fun _ _ idx started => ?_⟩
        apply absurd _ rehashing
        simp [dictIsRehashing, started]

/-- The call is its loop, in the dictionary that the rehashing leaves. -/
theorem dictGetSomeKeys_call (shape : d.Shape ty) (rests : d.iterators = 0 ∨ d.Inside)
    (count : Nat) :
    ∃ d' : Dict K V, d'.Shape ty ∧ d'.entries.Perm d.entries ∧ d'.dictSize = d.dictSize ∧
      (0 < min count d.dictSize → d'.Inside) ∧
      ∀ random, d.dictGetSomeKeys ty random count =
        (d'.sampleLoop random (min count d.dictSize) (uint32 (min count d.dictSize * 10))
          ⟨random 0 &&& d'.maxSizemask, 0, [], 1⟩).map fun s => (d', s.des, s.drawn) := by
  have asked : (if d.dictSize < count then d.dictSize else count) = min count d.dictSize := by
    split <;> omega
  obtain ⟨d', rehashed, shape', perm, inside⟩ :=
    rehashSteps_spec (min count d.dictSize) d shape
  have size : d'.dictSize = d.dictSize := by
    rw [shape'.dictSize_eq, shape.dictSize_eq, perm.length_eq]
  refine ⟨d', shape', perm, size, fun counted => inside counted rests, fun random => ?_⟩
  unfold dictGetSomeKeys
  rw [asked]
  dsimp only
  rw [rehashed]
  simp only [bind, Except.bind]
  cases d'.sampleLoop random (min count d.dictSize) (uint32 (min count d.dictSize * 10))
      ⟨random 0 &&& d'.maxSizemask, 0, [], 1⟩ with
  | error fault => rfl
  | ok s => rfl

/-- The loop from where the call starts it. -/
theorem sampleLoop_start (random : Nat → Nat) (shape : d.Shape ty) {count : Nat}
    (inside : 0 < count → d.Inside) (room : count ≤ d.dictSize) (maxsteps : Nat) :
    ∃ s', d.sampleLoop random count maxsteps ⟨random 0 &&& d.maxSizemask, 0, [], 1⟩ = .ok s' ∧
      d.Safe count s' ∧
      (s'.drawn = 1 → s'.des.Nodup ∧ (d.maxSizemask < maxsteps → s'.des.length = count)) := by
  have safe : d.Safe count ⟨random 0 &&& d.maxSizemask, 0, [], 1⟩ := ⟨by simp, Nat.zero_le _⟩
  by_cases none : count = 0
  · -- nothing is asked for: the loop does not run
    subst none
    refine ⟨⟨random 0 &&& d.maxSizemask, 0, [], 1⟩, ?_, safe, fun _ => ⟨.nil, fun _ => rfl⟩⟩
    cases maxsteps with
    | zero => rfl
    | succ n => rw [sampleLoop, if_neg (Nat.not_lt_zero _)]
  · have alloc : d.ht0.table ≠ [] := shape.alloc_of_dictSize (by omega)
    obtain ⟨k, mask, fits⟩ := maxSizemask_spec shape alloc
    have low : random 0 &&& d.maxSizemask < 2 ^ k := by
      rw [mask, Nat.and_two_pow_sub_one_eq_mod]
      exact Nat.mod_lt _ (Nat.two_pow_pos k)
    obtain ⟨s', looped, safe', _, straight⟩ :=
      sampleLoop_spec random shape (inside (by omega)) room mask fits low maxsteps _ safe
    refine ⟨s', looped, safe', fun same => ?_⟩
    obtain ⟨distinct, filled⟩ :=
      straight 0 ⟨Nat.zero_le _, rfl, (Nat.mod_eq_of_lt low).symm⟩ same
    exact ⟨distinct, fun steps => filled (by omega)⟩

/-- **Samples are entries.** In a dictionary of the right shape, whatever `random()` returns,
`dictGetSomeKeys` neither leaves a table nor loses an entry, and what it stores are at most
`count` pointers to entries, which the rehashing it has done does not invalidate. If the walk
needs no jump, no entry is stored twice, and with at least as many steps as there are indices
it stores as many as were asked for, or all. -/
theorem dictGetSomeKeys_samples (shape : d.Shape ty) (rests : d.iterators = 0 ∨ d.Inside)
    (random : Nat → Nat) (count : Nat) :
    ∃ d' des drawn, d.dictGetSomeKeys ty random count = .ok (d', des, drawn) ∧
      d'.Shape ty ∧ d'.entries.Perm d.entries ∧
      des.length ≤ min count d.dictSize ∧ (∀ ref ∈ des, d'.Valid ref) ∧
      (drawn = 1 → des.Nodup ∧
        (d'.maxSizemask < uint32 (min count d.dictSize * 10) →
          des.length = min count d.dictSize)) := by
  obtain ⟨d', shape', perm, size, inside, call⟩ := dictGetSomeKeys_call shape rests count
  obtain ⟨s', looped, safe, straight⟩ :=
    sampleLoop_start random shape' inside (show min count d.dictSize ≤ d'.dictSize by omega)
      (uint32 (min count d.dictSize * 10))
  refine ⟨d', s'.des, s'.drawn, ?_, shape', perm, safe.room, safe.valid, straight⟩
  rw [call, looped]
  rfl

theorem dictGetSomeKeys_samples_halfway :
    ∃ d' des drawn, halfway.dictGetSomeKeys natType (fun n => n + 6) 3 = .ok (d', des, drawn) ∧
      d'.Shape natType ∧ d'.entries.Perm halfway.entries ∧
      des.length ≤ min 3 halfway.dictSize ∧ (∀ ref ∈ des, d'.Valid ref) ∧
      (drawn = 1 → des.Nodup ∧
        (d'.maxSizemask < uint32 (min 3 halfway.dictSize * 10) →
          des.length = min 3 halfway.dictSize)) :=
  dictGetSomeKeys_samples halfway_shape (.inl rfl) (fun n => n + 6) 3

end Dict

end GpBase.Dictionary

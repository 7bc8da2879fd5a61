import GpBase.Dictionary.Scan
import GpBase.Dictionary.Shape

/-!
# Scanning a dictionary at rest

Nothing is changed between the calls of `dictScan`. The cursors of a scan count the
intervals of the smaller table from 0 on; bit reversal makes their buckets a permutation
of all buckets, and inside one interval the loop over the larger table visits the buckets
that expand it. So each bucket of each table is visited once, in as many calls as the
smaller table has buckets.
-/

namespace GpBase.Dictionary

open GpBase.Lib

variable {K V : Type} {ty : DictType K}

/-- Call `dictScan` until it returns 0: the number of calls, and what `fn` was called with. -/
def scanAll (d : Dict K V) : Nat → BitVec 64 → Except Fault (Nat × List (DictEntry K V))
  | 0, _ => .error .hang
  | fuel + 1, v => do
    let (v, out) ← dictScan d v
    if v = 0 then return (1, out)
    else
      let (calls, rest) ← scanAll d fuel v
      return (calls + 1, out ++ rest)

/-! ## Buckets in the order of the scan -/

/-- Hashes of one bucket share their interval. -/
theorem interval_eq_of_slot {k : Nat} (narrow : k ≤ 63) {h v : BitVec 64}
    (same : slot h (maskOf k) = slot v (maskOf k)) :
    position h / width k = position v / width k := by
  have bits : ∀ j < k, h.getLsbD j = v.getLsbD j := by
    intro j small
    have bit := congrArg (fun n => n.testBit j) same
    simp only [slot, BitVec.testBit_toNat, BitVec.getLsbD_and, maskOf_getLsbD narrow] at bit
    simpa [small] using bit
  apply Nat.eq_of_testBit_eq
  intro i
  rw [width, Nat.testBit_div_two_pow, Nat.testBit_div_two_pow]
  by_cases inside : i < k
  · rw [position_testBit h (by omega), position_testBit v (by omega)]
    exact bits _ (by omega)
  · have high : ∀ w : BitVec 64, (position w).testBit (i + (64 - k)) = false := by
      intro w
      exact Nat.testBit_lt_two_pow (Nat.lt_of_lt_of_le (position_lt w)
        (Nat.pow_le_pow_right (by omega) (by omega)))
    rw [high, high]

/-- The bucket of the `j`-th interval of a table of `2 ^ k` buckets. -/
def bucketOf (k j : Nat) : Nat := slot (rev (BitVec.ofNat 64 (j * width k))) (maskOf k)

/-- The entries of the `j`-th interval. -/
def chainOf (ht : Dictht K V) (k j : Nat) : List (DictEntry K V) :=
  (ht.table[bucketOf k j]?).getD []

theorem interval_lt {k j : Nat} (narrow : k ≤ 63) (inside : j < 2 ^ k) :
    j * width k < 2 ^ 64 := by
  rw [← width_dvd k narrow, Nat.mul_comm (width k)]
  exact Nat.mul_lt_mul_of_pos_right inside (width_pos k)

theorem position_rev {n : Nat} (inside : n < 2 ^ 64) : position (rev (BitVec.ofNat 64 n)) = n := by
  rw [position, rev_rev, BitVec.toNat_ofNat, Nat.mod_eq_of_lt inside]

/-- The bucket that a cursor at the start of an interval points to. -/
theorem slot_eq_bucketOf {k j : Nat} (narrow : k ≤ 63) (inside : j < 2 ^ k) {v : BitVec 64}
    (start : position v = j * width k) : slot v (maskOf k) = bucketOf k j := by
  apply slot_eq_of_interval narrow
  rw [position_rev (interval_lt narrow inside), start]

theorem bucketOf_lt {k : Nat} (narrow : k ≤ 63) (j : Nat) : bucketOf k j < 2 ^ k := by
  rw [bucketOf, maskOf, slot_eq_mod _ narrow]
  exact Nat.mod_lt _ (Nat.two_pow_pos k)

/-- Bit reversal visits every bucket once. -/
theorem bucketOf_perm {k : Nat} (narrow : k ≤ 63) :
    ((List.range (2 ^ k)).map (bucketOf k)).Perm (List.range (2 ^ k)) := by
  have once : ((List.range (2 ^ k)).map (bucketOf k)).Nodup := by
    refine List.Nodup.map_on ?_ List.nodup_range
    intro i left j right same
    have inside : i < 2 ^ k := List.mem_range.mp left
    have inside' : j < 2 ^ k := List.mem_range.mp right
    have intervals := interval_eq_of_slot narrow same
    rwa [position_rev (interval_lt narrow inside), position_rev (interval_lt narrow inside'),
      Nat.mul_div_cancel _ (width_pos k), Nat.mul_div_cancel _ (width_pos k)] at intervals
  have inside : (List.range (2 ^ k)).map (bucketOf k) ⊆ List.range (2 ^ k) := by
    intro i mem
    obtain ⟨j, _, rfl⟩ := List.mem_map.mp mem
    exact List.mem_range.mpr (bucketOf_lt narrow j)
  -- no bucket twice, none outside, and as many as there are
  refine (List.subperm_of_subset once inside).perm_of_length_le ?_
  rw [List.length_map]

theorem flatMap_range_getD (table : List (List (DictEntry K V))) :
    (List.range table.length).flatMap (fun i => (table[i]?).getD []) = table.flatten := by
  rw [List.flatMap_def]
  congr 1
  apply List.ext_getElem
  · simp
  · intro i left right
    simp [right]

/-- The intervals together are the table. -/
theorem chainOf_perm {ht : Dictht K V} {k : Nat} (alloc : ht.Allocated k) :
    ((List.range (2 ^ k)).flatMap (chainOf ht k)).Perm ht.entries := by
  have visits : (List.range (2 ^ k)).flatMap (chainOf ht k) =
      ((List.range (2 ^ k)).map (bucketOf k)).flatMap fun i => (ht.table[i]?).getD [] := by
    rw [List.flatMap_map]
    rfl
  rw [visits, Dictht.entries, ← flatMap_range_getD, alloc.buckets]
  exact (bucketOf_perm alloc.atMost).flatMap_right _

/-! ## One call -/

section Call

variable {ht : Dictht K V}

theorem chain_at_interval (wf : ht.WF ty) {k j : Nat} (alloc : ht.Allocated k)
    (inside : j < 2 ^ k) {v : BitVec 64} (start : position v = j * width k) :
    ht.chain (slot v ht.sizemask) = .ok (chainOf ht k j) := by
  obtain ⟨chain, at_v⟩ := wf.chain_at alloc.ne_nil v
  have mask : ht.sizemask = maskOf k := alloc.sizemask
  rw [mask, slot_eq_bucketOf alloc.atMost inside start] at at_v ⊢
  rw [Dictht.chain, at_v, chainOf, at_v]
  rfl

theorem stop_interval {k : Nat} (j : Nat) : stop k (j * width k) = (j + 1) * width k := by
  rw [stop, Nat.mul_div_cancel _ (width_pos k), Nat.mul_comm]

/-- The loop over the larger table visits `m` intervals, the rest of a coarse one. -/
theorem scanLarger_exact (wf : ht.WF ty) {a b : Nat} (alloc : ht.Allocated b) (finer : a < b)
    (m rounds : Nat) (enough : m ≤ rounds) (some : 0 < m) {j : Nat} {v : BitVec 64}
    (start : position v = j * width b) (ends : stop a (position v) = (j + m) * width b)
    (inside : j + m ≤ 2 ^ b) :
    ∃ v', scanLarger ht (maskOf a ^^^ maskOf b) rounds v =
        .ok (v', (List.range' j m).flatMap (chainOf ht b)) ∧
      position v' = (j + m) * width b % 2 ^ 64 := by
  have narrow := alloc.atMost
  have mask : ht.sizemask = maskOf b := alloc.sizemask
  induction m generalizing rounds j v with
  | zero => omega
  | succ m ih =>
      obtain ⟨rounds, rfl⟩ : ∃ r, rounds = r + 1 := Nat.exists_eq_add_one_of_ne_zero (by omega)
      have at_v := chain_at_interval wf alloc (by omega) start
      have next := position_advance narrow v
      rw [start, stop_interval] at next
      have fine : position (advance (maskOf b) v) % width b = 0 := by
        rw [next, mod_mod_width b _ narrow, Nat.mul_mod_left]
      have coarse := and_mask_diff_eq_zero_iff finer narrow fine
      rw [next, mod_mod_width a _ (by omega)] at coarse
      rw [mask] at at_v
      unfold scanLarger
      simp only [mask, at_v, bind, Except.bind, pure, Except.pure]
      rcases Nat.eq_zero_or_pos m with rfl | more
      · -- the end of the coarse interval
        have done : advance (maskOf b) v &&& (maskOf a ^^^ maskOf b) = 0 := by
          rw [coarse, ← ends]
          exact stop_mod_width a _
        rw [if_pos done]
        refine ⟨_, ?_, next⟩
        rw [Nat.zero_add, List.range'_one, List.flatMap_singleton]
      · -- inside the coarse interval the high bits of the cursor are not zero yet
        have bound : (j + 1) * width b < stop a (position v) := by
          rw [ends]
          exact Nat.mul_lt_mul_of_pos_right (by omega) (width_pos b)
        have going : ¬ advance (maskOf b) v &&& (maskOf a ^^^ maskOf b) = 0 := by
          rw [coarse]
          intro boundary
          have reached := (stop_fine (n := position v) finer.le narrow).2
          rw [start, stop_interval] at reached
          rw [start] at bound
          have := reached boundary
          omega
        have moved : position (advance (maskOf b) v) = (j + 1) * width b := by
          rw [next]
          exact Nat.mod_eq_of_lt (Nat.lt_of_lt_of_le bound (stop_le (by omega) (position_lt v)))
        have same : stop a (position (advance (maskOf b) v)) = (j + 1 + m) * width b := by
          have low := Nat.mul_div_le (position v) (width a)
          have further : position v ≤ (j + 1) * width b := by
            rw [start]
            exact Nat.mul_le_mul_right _ (by omega)
          rw [moved, stop, div_width_eq (k := a) (n := position v) (by omega) bound, ← stop, ends]
          congr 1
          omega
        obtain ⟨v', looped, position'⟩ := ih rounds (by omega) more moved same (by omega)
        rw [if_neg going, looped]
        refine ⟨v', ?_, ?_⟩
        · rw [List.range'_succ, List.flatMap_cons]
        · rw [position', show j + 1 + m = j + (m + 1) by omega]

/-- Both tables: the interval of the smaller one, and the intervals that it is in the larger. -/
theorem scanBoth_exact {t0 t1 : Dictht K V} (wf0 : t0.WF ty) (wf1 : t1.WF ty) {a b : Nat}
    (alloc0 : t0.Allocated a) (alloc1 : t1.Allocated b) (finer : a < b) {i : Nat}
    (inside : i < 2 ^ a) {v : BitVec 64} (start : position v = i * width a) :
    ∃ v', scanBoth t0 t1 v = .ok (v', chainOf t0 a i ++
        (List.range' (i * 2 ^ (b - a)) (2 ^ (b - a))).flatMap (chainOf t1 b)) ∧
      position v' = (i + 1) * width a % 2 ^ 64 := by
  have coarse := width_eq_mul finer.le alloc1.atMost
  have expand : ∀ n, n * width a = n * 2 ^ (b - a) * width b := by
    intro n
    rw [coarse]
    ring
  have pow : 2 ^ a * 2 ^ (b - a) = 2 ^ b := by
    rw [← Nat.pow_add, Nat.add_sub_cancel' finer.le]
  have ends : stop a (position v) = (i * 2 ^ (b - a) + 2 ^ (b - a)) * width b := by
    rw [start, stop_interval, expand, Nat.succ_mul]
  have room : i * 2 ^ (b - a) + 2 ^ (b - a) ≤ 2 ^ b := by
    rw [← Nat.succ_mul, ← pow]
    exact Nat.mul_le_mul_right _ inside
  have few : 2 ^ (b - a) ≤ t1.size := by
    rw [alloc1.size]
    omega
  obtain ⟨v', looped, position'⟩ := scanLarger_exact wf1 alloc1 finer (2 ^ (b - a)) t1.size few
    (Nat.two_pow_pos _) (start.trans (expand i)) ends room
  refine ⟨v', ?_, ?_⟩
  · have mask0 : t0.sizemask = maskOf a := alloc0.sizemask
    have mask1 : t1.sizemask = maskOf b := alloc1.sizemask
    rw [scanBoth, chain_at_interval wf0 alloc0 inside start, mask0, mask1, looped]
    rfl
  · rw [position', ← Nat.succ_mul, ← expand]

end Call

/-! ## Whole scans -/

/-- How many calls a scan takes. -/
def scanCalls (d : Dict K V) : Nat :=
  if d.dictSize = 0 then 1
  else if !d.dictIsRehashing then d.ht0.size
  else min d.ht0.size d.ht1.size

section Whole

variable {d : Dict K V}

/-- A scan that takes `2 ^ k` calls, the `i`-th of which emits `piece i`. -/
def Pieces (d : Dict K V) (k : Nat) (piece : Nat → List (DictEntry K V)) : Prop :=
  ∀ i v, i < 2 ^ k → position v = i * width k →
    ∃ v', dictScan d v = .ok (v', piece i) ∧ position v' = (i + 1) * width k % 2 ^ 64

/-- From the `i`-th interval on. -/
theorem Pieces.scanAll {k : Nat} {piece : Nat → List (DictEntry K V)} (pieces : Pieces d k piece)
    (narrow : k ≤ 63) (left : Nat) {i fuel : Nat} {v : BitVec 64} (some : 0 < left)
    (total : i + left = 2 ^ k) (enough : left ≤ fuel) (start : position v = i * width k) :
    scanAll d fuel v = .ok (left, (List.range' i left).flatMap piece) := by
  induction left generalizing i fuel v with
  | zero => omega
  | succ left ih =>
      obtain ⟨fuel, rfl⟩ : ∃ f, fuel = f + 1 := Nat.exists_eq_add_one_of_ne_zero (by omega)
      obtain ⟨v', called, moved⟩ := pieces i v (by omega) start
      rw [GpBase.Dictionary.scanAll, called]
      rcases Nat.eq_zero_or_pos left with rfl | more
      · -- the last interval: the cursor is back at 0
        have back : v' = 0 := by
          apply (position_zero_iff v').mp
          rw [moved, total, Nat.mul_comm, width_dvd k narrow, Nat.mod_self]
        simp [back, bind, Except.bind, pure, Except.pure]
      · -- the cursor goes to the next interval, which is not the first one
        have inside : (i + 1) * width k < 2 ^ 64 := interval_lt narrow (by omega)
        rw [Nat.mod_eq_of_lt inside] at moved
        have going : v' ≠ 0 := by
          intro zero
          have start' := (position_zero_iff v').mpr zero
          rw [moved] at start'
          exact absurd start' (Nat.mul_pos (Nat.succ_pos i) (width_pos k)).ne'
        have rest := ih more (by omega) (by omega : left ≤ fuel) moved
        simp only [bind, Except.bind, pure, Except.pure, if_neg going, rest]
        rw [List.range'_succ, List.flatMap_cons]

/-- The blocks of `c` numbers together. -/
theorem flatMap_blocks {α : Type} (f : Nat → List α) (c n : Nat) :
    ((List.range n).flatMap fun i => (List.range' (i * c) c).flatMap f) =
      (List.range (n * c)).flatMap f := by
  induction n with
  | zero => simp
  | succ n ih =>
      rw [List.range_succ, List.flatMap_append, ih, List.flatMap_singleton, Nat.succ_mul,
        List.range_add, List.flatMap_append]
      congr 1
      rw [List.range'_eq_map_range, List.flatMap_map]

/-- The pieces of a scan of two tables are both tables. -/
theorem both_perm {t0 t1 : Dictht K V} {a b : Nat} (alloc0 : t0.Allocated a)
    (alloc1 : t1.Allocated b) (finer : a < b) :
    ((List.range (2 ^ a)).flatMap fun i => chainOf t0 a i ++
        (List.range' (i * 2 ^ (b - a)) (2 ^ (b - a))).flatMap (chainOf t1 b)).Perm
      (t0.entries ++ t1.entries) := by
  have pow : 2 ^ a * 2 ^ (b - a) = 2 ^ b := by
    rw [← Nat.pow_add, Nat.add_sub_cancel' finer.le]
  refine (List.flatMap_append_perm _ _ _).symm.trans ?_
  rw [flatMap_blocks, pow]
  exact (chainOf_perm alloc0).append (chainOf_perm alloc1)

/-- A dictionary with entries is scanned in pieces that make it up. -/
theorem Dict.Shape.pieces (shape : d.Shape ty) (some_used : d.dictSize ≠ 0) :
    ∃ k piece, k ≤ 63 ∧ scanCalls d = 2 ^ k ∧ Pieces d k piece ∧
      ((List.range (2 ^ k)).flatMap piece).Perm d.entries := by
  obtain ⟨a, alloc0⟩ := shape.first.allocated (shape.alloc_of_dictSize some_used)
  unfold scanCalls
  rw [if_neg some_used]
  cases rehashing : d.dictIsRehashing with
  | false =>
      obtain ⟨_, reset⟩ := shape.not_rehashing (by simp [rehashing])
      refine ⟨a, chainOf d.ht0 a, alloc0.atMost, alloc0.size, ?_, ?_⟩
      · intro i v inside start
        have mask : d.ht0.sizemask = maskOf a := alloc0.sizemask
        refine ⟨GpBase.Dictionary.advance d.ht0.sizemask v, ?_, ?_⟩
        · rw [dictScan, if_neg some_used, rehashing, if_pos (by rfl),
            chain_at_interval shape.first alloc0 inside start]
          rfl
        · rw [mask, position_advance alloc0.atMost, start, stop_interval]
      · rw [Dict.entries, reset, Dictht.entries_reset, List.append_nil]
        exact chainOf_perm alloc0
  | true =>
      obtain ⟨idx, started⟩ := Option.isSome_iff_exists.mp rehashing
      have moving := shape.moving idx started
      obtain ⟨b, alloc1⟩ := shape.second.allocated moving.to_alloc
      have resized := moving.resized
      rw [alloc0.size, alloc1.size] at resized
      -- the loop goes over whichever table is larger
      have scanning : ∀ v, dictScan d v = if 2 ^ b < 2 ^ a then scanBoth d.ht1 d.ht0 v
          else scanBoth d.ht0 d.ht1 v := by
        intro v
        rw [dictScan, if_neg some_used, rehashing, if_neg (by simp), alloc0.size, alloc1.size]
      simp only [Bool.not_true, Bool.false_eq_true, if_false, alloc0.size, alloc1.size]
      by_cases shrinking : 2 ^ b < 2 ^ a
      · have finer : b < a := (Nat.pow_lt_pow_iff_right (by omega)).mp shrinking
        refine ⟨b, _, alloc1.atMost, Nat.min_eq_right shrinking.le, ?_,
          (both_perm alloc1 alloc0 finer).trans List.perm_append_comm⟩
        intro i v inside start
        rw [scanning, if_pos shrinking]
        exact scanBoth_exact shape.second shape.first alloc1 alloc0 finer inside start
      · have growing : 2 ^ a < 2 ^ b := by omega
        have finer : a < b := (Nat.pow_lt_pow_iff_right (by omega)).mp growing
        refine ⟨a, _, alloc0.atMost, Nat.min_eq_left growing.le, ?_,
          both_perm alloc0 alloc1 finer⟩
        intro i v inside start
        rw [scanning, if_neg shrinking]
        exact scanBoth_exact shape.first shape.second alloc0 alloc1 finer inside start

/-- **A scan at rest reports every entry exactly once.** From cursor 0 it ends, after one call
if the dictionary is empty, and otherwise after as many calls as the first table has
buckets, or the smaller of the two during a rehash. -/
theorem scan_quiescent (shape : d.Shape ty) {fuel : Nat} (enough : scanCalls d ≤ fuel) :
    ∃ out, scanAll d fuel 0 = .ok (scanCalls d, out) ∧ out.Perm d.entries := by
  by_cases empty : d.dictSize = 0
  · have one : scanCalls d = 1 := if_pos empty
    rw [one] at enough ⊢
    obtain ⟨fuel, rfl⟩ : ∃ f, fuel = f + 1 := Nat.exists_eq_add_one_of_ne_zero (by omega)
    refine ⟨[], ?_, ?_⟩
    · simp [scanAll, dictScan, empty, bind, Except.bind, pure, Except.pure]
    · rw [shape.dictSize_eq] at empty
      rw [List.eq_nil_of_length_eq_zero empty]
  · obtain ⟨k, piece, narrow, calls, pieces, perm⟩ := shape.pieces empty
    rw [calls] at enough ⊢
    have start : position (0 : BitVec 64) = 0 * width k := by
      rw [Nat.zero_mul]
      exact (position_zero_iff 0).mpr rfl
    refine ⟨_, pieces.scanAll narrow (2 ^ k) (Nat.two_pow_pos k) (Nat.zero_add _) enough start, ?_⟩
    rw [← List.range_eq_range']
    exact perm

end Whole

/-- Four buckets on the way to eight take four calls. -/
theorem scan_quiescent_halfway :
    scanCalls halfway = 4 ∧ ∃ out, scanAll halfway 4 0 = .ok (4, out) ∧
      out.Perm halfway.entries := by
  have calls : scanCalls halfway = 4 := by decide
  have scanned := @scan_quiescent Nat Nat natType halfway halfway_shape 4 calls.le
  rw [calls] at scanned
  exact ⟨calls, scanned⟩

end GpBase.Dictionary

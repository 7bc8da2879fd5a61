import GpBase.Dictionary.Cursor
import GpBase.Dictionary.Map

/-!
# Completeness of `dictScan`

A scan may be interrupted by any operation, resizes and rehash steps included.
What it keeps is the cursor alone; what it guarantees is that every key that
stays in the dictionary from the first call to the last has been reported. The
invariant is that all such keys at positions before the cursor have been.
-/

namespace GpBase.Dictionary

open GpBase.Lib

variable {K V : Type}

/-! ## The code -/

/-- The loop over the larger table in `dictScan`: emit a bucket, advance, go on
while the bits of the mask difference are not all clear. -/
def scanLarger (t1 : Dictht K V) (diff : BitVec 64) :
    Nat → BitVec 64 → Except Fault (BitVec 64 × List (DictEntry K V))
  | 0, _ => .error .hang
  | rounds + 1, v => do
    let chain ← t1.chain (slot v t1.sizemask)
    let v := advance t1.sizemask v
    if v &&& diff = 0 then return (v, chain)
    else
      let (v, rest) ← scanLarger t1 diff rounds v
      return (v, chain ++ rest)

/-- The branch of `dictScan` for two tables, `t0` being the smaller one. -/
def scanBoth (t0 t1 : Dictht K V) (v : BitVec 64) :
    Except Fault (BitVec 64 × List (DictEntry K V)) := do
  let small ← t0.chain (slot v t0.sizemask)
  let (v, large) ← scanLarger t1 (t0.sizemask ^^^ t1.sizemask) t1.size v
  return (v, small ++ large)

/-- `dictScan`: the next cursor and the entries passed to `fn`. -/
def dictScan (d : Dict K V) (v : BitVec 64) : Except Fault (BitVec 64 × List (DictEntry K V)) :=
  if d.dictSize = 0 then .ok (0, [])
  else if !d.dictIsRehashing then do
    let chain ← d.ht0.chain (slot v d.ht0.sizemask)
    return (advance d.ht0.sizemask v, chain)
  else if d.ht1.size < d.ht0.size then scanBoth d.ht1 d.ht0 v
  else scanBoth d.ht0 d.ht1 v

/-! ## One call -/

section Call

variable {ty : DictType K} {ht : Dictht K V}

/-- The bucket at a cursor holds every entry of the cursor's interval. -/
theorem Dictht.WF.mem_chain (wf : ht.WF ty) {k : Nat} (alloc : ht.Allocated k) (v : BitVec 64) :
    ∃ chain, ht.chain (slot v ht.sizemask) = .ok chain ∧
      ∀ e ∈ ht.entries,
        position (ty.hashFunction e.key) / width k = position v / width k → e ∈ chain := by
  obtain ⟨chain, at_v⟩ := wf.chain_at alloc.ne_nil v
  refine ⟨chain, by rw [Dictht.chain, at_v], ?_⟩
  intro e mem same
  obtain ⟨other, inTable, inOther⟩ := List.mem_flatten.mp mem
  obtain ⟨j, at_j⟩ := List.mem_iff_getElem?.mp inTable
  have bucket : j = slot v ht.sizemask := by
    rw [← wf.placed j other at_j e inOther, alloc.sizemask]
    exact slot_eq_of_interval alloc.atMost same
  rw [bucket, at_v] at at_j
  exact Option.some.inj at_j ▸ inOther

/-- Positions between the start and the end of an interval are in it. -/
theorem div_width_eq {k n m : Nat} (low : width k * (n / width k) ≤ m) (high : m < stop k n) :
    m / width k = n / width k :=
  Nat.div_eq_of_lt_le (by rwa [Nat.mul_comm] at low) (by rwa [stop, Nat.mul_comm] at high)

theorem width_eq_mul {a b : Nat} (finer : a ≤ b) (narrow : b ≤ 63) :
    width a = width b * 2 ^ (b - a) := by
  rw [width, width, ← Nat.pow_add, show 64 - b + (b - a) = 64 - a by omega]

/-- An end of a fine interval that is a boundary of the coarse table is the end
of the coarse interval too; any other lies before it. -/
theorem stop_fine {a b n : Nat} (finer : a ≤ b) (narrow : b ≤ 63) :
    stop b n ≤ stop a n ∧ (stop b n % width a = 0 → stop b n = stop a n) := by
  have coarse := width_eq_mul finer narrow
  have before : stop b n ≤ stop a n := by
    have below : n < width b * (2 ^ (b - a) * (n / width a + 1)) := by
      rw [← Nat.mul_assoc, ← coarse]
      exact lt_stop a n
    rw [stop, stop, coarse, Nat.mul_assoc, ← coarse]
    exact Nat.mul_le_mul_left _ (Nat.div_lt_of_lt_mul below)
  refine ⟨before, ?_⟩
  intro boundary
  obtain ⟨q, hq⟩ := Nat.dvd_of_mod_eq_zero boundary
  have above : n / width a < q := by
    apply Nat.div_lt_of_lt_mul
    rw [← hq]
    exact lt_stop b n
  apply Nat.le_antisymm before
  rw [hq, stop]
  exact Nat.mul_le_mul_left _ above

theorem stop_mod_width (k n : Nat) : stop k n % width k = 0 := Nat.mul_mod_right _ _

theorem mod_mod_width (k n : Nat) (narrow : k ≤ 63) : n % 2 ^ 64 % width k = n % width k :=
  Nat.mod_mod_of_dvd n ⟨2 ^ k, (width_dvd k narrow).symm⟩

/-- The loop over the larger table covers the rest of the coarse interval. -/
theorem scanLarger_spec (wf : ht.WF ty) {a b : Nat} (alloc : ht.Allocated b) (finer : a < b)
    (rounds : Nat) (v : BitVec 64)
    (enough : stop a (position v) ≤ width b * (position v / width b) + width b * rounds) :
    ∃ v' out, scanLarger ht (maskOf a ^^^ maskOf b) rounds v = .ok (v', out) ∧
      position v' = stop a (position v) % 2 ^ 64 ∧
      ∀ e ∈ ht.entries, width b * (position v / width b) ≤ position (ty.hashFunction e.key) →
        position (ty.hashFunction e.key) < stop a (position v) → e ∈ out := by
  induction rounds generalizing v with
  | zero =>
      have := lt_stop a (position v)
      have := Nat.mul_div_le (position v) (width b)
      omega
  | succ rounds ih =>
      obtain ⟨chain, at_v, emitted⟩ := wf.mem_chain alloc v
      have narrow := alloc.atMost
      have next := position_advance narrow v
      obtain ⟨before, boundary⟩ := stop_fine (n := position v) finer.le narrow
      have fine : position (advance (maskOf b) v) % width b = 0 := by
        rw [next, mod_mod_width b _ narrow, stop_mod_width]
      have coarse := and_mask_diff_eq_zero_iff finer narrow fine
      rw [next, mod_mod_width a _ (by omega)] at coarse
      have mask : ht.sizemask = maskOf b := alloc.sizemask
      unfold scanLarger
      rw [mask] at at_v
      simp only [mask, at_v, bind, Except.bind, pure, Except.pure]
      by_cases done : advance (maskOf b) v &&& (maskOf a ^^^ maskOf b) = 0
      · -- the fine interval ends with the coarse one
        have ends := boundary (coarse.mp done)
        rw [if_pos done]
        refine ⟨_, _, rfl, by rw [next, ends], ?_⟩
        intro e mem low high
        exact emitted e mem (div_width_eq low (ends ▸ high))
      · rw [if_neg done]
        have apart : stop b (position v) % width a ≠ 0 := fun h => done (coarse.mpr h)
        have short : stop b (position v) < stop a (position v) := by
          refine Nat.lt_of_le_of_ne before ?_
          intro same
          exact apart (same ▸ stop_mod_width a (position v))
        have moved : position (advance (maskOf b) v) = stop b (position v) := by
          rw [next]
          exact Nat.mod_eq_of_lt (Nat.lt_of_lt_of_le short (stop_le (by omega) (position_lt v)))
        have same : stop a (stop b (position v)) = stop a (position v) := by
          have low := Nat.mul_div_le (position v) (width a)
          have := lt_stop b (position v)
          rw [stop, div_width_eq (k := a) (n := position v) (by omega) short, stop]
        have start : width b * (stop b (position v) / width b) = stop b (position v) :=
          Nat.mul_div_cancel' (Nat.dvd_of_mod_eq_zero (stop_mod_width b _))
        obtain ⟨v', out, looped, position', rest⟩ := ih (advance (maskOf b) v) (by
          rw [moved, same, start]
          rw [Nat.mul_succ] at enough
          have : stop b (position v) = width b * (position v / width b) + width b := by
            rw [stop, Nat.mul_succ]
          omega)
        rw [moved, same] at position' rest
        rw [start] at rest
        refine ⟨v', chain ++ out, by rw [looped], position', ?_⟩
        intro e mem low high
        rw [List.mem_append]
        rcases Nat.lt_or_ge (position (ty.hashFunction e.key)) (stop b (position v)) with now | later
        · exact .inl (emitted e mem (div_width_eq low now))
        · exact .inr (rest e mem later high)

/-- Both tables: the call covers the interval of the smaller one. -/
theorem scanBoth_spec {t0 t1 : Dictht K V} (wf0 : t0.WF ty) (wf1 : t1.WF ty) {a b : Nat}
    (alloc0 : t0.Allocated a) (alloc1 : t1.Allocated b) (finer : a < b) (v : BitVec 64) :
    ∃ v' out, scanBoth t0 t1 v = .ok (v', out) ∧ position v' = stop a (position v) % 2 ^ 64 ∧
      ∀ e, e ∈ t0.entries ∨ e ∈ t1.entries → position v ≤ position (ty.hashFunction e.key) →
        position (ty.hashFunction e.key) < stop a (position v) → e ∈ out := by
  obtain ⟨small, at_v, emitted⟩ := wf0.mem_chain alloc0 v
  have enough : stop a (position v) ≤
      width b * (position v / width b) + width b * t1.size := by
    rw [alloc1.size, width_dvd b alloc1.atMost]
    exact (stop_le alloc0.atMost (position_lt v)).trans (Nat.le_add_left _ _)
  obtain ⟨v', large, looped, position', rest⟩ :=
    scanLarger_spec wf1 alloc1 finer t1.size v enough
  refine ⟨v', small ++ large, ?_, position', ?_⟩
  · simp only [scanBoth, at_v, bind, Except.bind]
    rw [alloc0.sizemask, alloc1.sizemask]
    rw [show scanLarger t1 (BitVec.ofNat 64 (2 ^ a - 1) ^^^ BitVec.ofNat 64 (2 ^ b - 1)) t1.size v
      = .ok (v', large) from looped]
    rfl
  · intro e mem low high
    rw [List.mem_append]
    rcases mem with first | second
    · have start := Nat.mul_div_le (position v) (width a)
      exact .inl (emitted e first (div_width_eq (by omega) high))
    · have start := Nat.mul_div_le (position v) (width b)
      exact .inr (rest e second (by omega) high)

/-- **One call of `dictScan`** reports every entry from the position of its
cursor up to that of the cursor it returns (or to the end, with cursor 0). -/
theorem dictScan_spec {d : Dict K V} (wf : d.WF ty) (some_used : d.dictSize ≠ 0) (v : BitVec 64) :
    ∃ v' out last, dictScan d v = .ok (v', out) ∧ position v < last ∧ last ≤ 2 ^ 64 ∧
      position v' = last % 2 ^ 64 ∧
      ∀ e ∈ d.entries, position v ≤ position (ty.hashFunction e.key) →
        position (ty.hashFunction e.key) < last → e ∈ out := by
  obtain ⟨a, alloc0⟩ := wf.first.allocated (wf.alloc_of_dictSize some_used)
  unfold dictScan
  rw [if_neg some_used]
  cases rehashing : d.dictIsRehashing with
  | false =>
      obtain ⟨_, reset⟩ := wf.shape.not_rehashing (by simp [rehashing])
      obtain ⟨chain, at_v, emitted⟩ := wf.first.mem_chain alloc0 v
      refine ⟨advance d.ht0.sizemask v, chain, stop a (position v), ?_, lt_stop a _,
        stop_le alloc0.atMost (position_lt v), ?_, ?_⟩
      · rw [at_v]
        rfl
      · rw [alloc0.sizemask]
        exact position_advance alloc0.atMost v
      · intro e mem low high
        rw [Dict.entries, reset, Dictht.entries_reset, List.append_nil] at mem
        have start := Nat.mul_div_le (position v) (width a)
        exact emitted e mem (div_width_eq (by omega) high)
  | true =>
      obtain ⟨idx, started⟩ := Option.isSome_iff_exists.mp rehashing
      have moving := wf.moving idx started
      obtain ⟨b, alloc1⟩ := wf.second.allocated moving.to_alloc
      have resized := moving.resized
      rw [alloc0.size, alloc1.size] at resized
      simp only [Bool.not_true, Bool.false_eq_true, if_false, alloc0.size, alloc1.size]
      split
      · rename_i shrinking
        have finer : b < a := (Nat.pow_lt_pow_iff_right (by omega)).mp shrinking
        obtain ⟨v', out, scanned, position', covered⟩ :=
          scanBoth_spec wf.second wf.first alloc1 alloc0 finer v
        refine ⟨v', out, stop b (position v), scanned, lt_stop b _,
          stop_le alloc1.atMost (position_lt v), position', ?_⟩
        intro e mem
        exact covered e (List.mem_append.mp mem).symm
      · rename_i growing
        have finer : a < b := by
          apply (Nat.pow_lt_pow_iff_right (by omega : 1 < 2)).mp
          omega
        obtain ⟨v', out, scanned, position', covered⟩ :=
          scanBoth_spec wf.first wf.second alloc0 alloc1 finer v
        refine ⟨v', out, stop a (position v), scanned, lt_stop a _,
          stop_le alloc0.atMost (position_lt v), position', ?_⟩
        intro e mem
        exact covered e (List.mem_append.mp mem)

end Call

/-! ## Whole iterations -/

/-- An iteration under way: the cursor to pass next, what `fn` has been called
with, and whether 0 was returned. -/
structure ScanState (K V : Type) where
  store : DictState K V
  cursor : BitVec 64
  emitted : List (DictEntry K V)
  finished : Bool

inductive ScanEvent (K V : Type)
  | op (o : Op K V)
  | scan

/-- Iterations over any dictionary that can be built, with operations between
the calls of `dictScan`. -/
def scanSys (ty : DictType K) : TSys (ScanState K V) (ScanEvent K V) where
  init s := (∃ ops, (dictSys ty).Run ops s.store) ∧
    s.cursor = 0 ∧ s.emitted = [] ∧ s.finished = false
  step s ev s' :=
    match ev with
    | .op o => ∃ store, (dictSys ty).step s.store o store ∧ s' = { s with store := store }
    | .scan => s.finished = false ∧ ∃ v out, dictScan s.store.dict s.cursor = .ok (v, out) ∧
        s' = { s with cursor := v, emitted := s.emitted ++ out, finished := v = 0 }

/-- The key is in the dictionary. -/
def Present (ty : DictType K) (key : K) (s : ScanState K V) : Prop :=
  ∃ e ∈ s.store.dict.entries, ty.keyCompare key e.key = true

/-- The key has been passed to `fn`. -/
def Reported (ty : DictType K) (key : K) (s : ScanState K V) : Prop :=
  ∃ e ∈ s.emitted, ty.keyCompare key e.key = true

section Iteration

variable {ty : DictType K} {key : K} {s : ScanState K V}

/-- The first position that has not been visited. -/
def frontier (s : ScanState K V) : Nat := if s.finished then 2 ^ 64 else position s.cursor

/-- The invariant of an iteration, for one key. -/
structure Scanned (ty : DictType K) (key : K) (s : ScanState K V) : Prop where
  built : ∃ ops, (dictSys ty).Run ops s.store
  visited : position (ty.hashFunction key) < frontier s → Reported ty key s

theorem Scanned.wf (scanned : Scanned ty key s) (lawful : ty.Lawful) : s.store.dict.WF ty := by
  obtain ⟨ops, run⟩ := scanned.built
  exact (run_represents lawful run).wf

theorem Present.dictSize (present : Present ty key s) (wf : s.store.dict.WF ty) :
    s.store.dict.dictSize ≠ 0 := by
  obtain ⟨e, mem, _⟩ := present
  rw [wf.dictSize_eq]
  exact (List.length_pos_of_mem mem).ne'

theorem Scanned.scan (scanned : Scanned ty key s) (lawful : ty.Lawful)
    (present : Present ty key s) (unfinished : s.finished = false) {v : BitVec 64}
    {out : List (DictEntry K V)} (called : dictScan s.store.dict s.cursor = .ok (v, out)) :
    Scanned ty key
      { s with cursor := v, emitted := s.emitted ++ out, finished := v = 0 } := by
  have wf := scanned.wf lawful
  obtain ⟨v', out', last, called', ahead, bound, moved, covered⟩ :=
    dictScan_spec wf (present.dictSize wf) s.cursor
  rw [called] at called'
  obtain ⟨rfl, rfl⟩ := Prod.ext_iff.mp (Except.ok.inj called')
  simp only at moved covered
  refine ⟨scanned.built, ?_⟩
  intro reached
  have frontier' : position (ty.hashFunction key) < last := by
    unfold frontier at reached
    by_cases ended : v = 0
    · -- cursor 0 is only returned at the very end
      have zero := (position_zero_iff v).mpr ended
      have := position_lt (ty.hashFunction key)
      omega
    · simp only [ended, decide_false, Bool.false_eq_true, if_false] at reached
      exact Nat.lt_of_lt_of_le (moved ▸ reached) (Nat.mod_le _ _)
  rcases Nat.lt_or_ge (position (ty.hashFunction key)) (position s.cursor) with old | new
  · have behind : position (ty.hashFunction key) < frontier s := by
      rw [frontier, unfinished]
      exact old
    obtain ⟨e, mem, equal⟩ := scanned.visited behind
    exact ⟨e, List.mem_append_left _ mem, equal⟩
  · obtain ⟨e, mem, equal⟩ := present
    have hash := lawful.hash key e.key equal
    exact ⟨e, List.mem_append_right _ (covered e mem (hash ▸ new) (hash ▸ frontier')), equal⟩

/-- **Completeness of the scan.** In every iteration, with any operations
between its calls: a key that is in the dictionary in every state has been
reported when the iteration ends; and no call of `dictScan` on the way fails. -/
theorem scan_complete (lawful : ty.Lawful) {events : List (ScanEvent K V)}
    (run : ((scanSys ty).restrict fun s _ => Present ty key s).Run events s)
    (present : Present ty key s) :
    (s.finished = true → Reported ty key s) ∧
      ∃ v out, dictScan s.store.dict s.cursor = .ok (v, out) := by
  have scanned : Scanned ty key s := by
    refine run.invariant (I := fun _ s => Scanned ty key s) ?_ ?_
    · rintro s ⟨built, start, _, unfinished⟩
      refine ⟨built, ?_⟩
      intro reached
      rw [frontier, unfinished, start, (position_zero_iff 0).mpr rfl] at reached
      exact absurd reached (Nat.not_lt_zero _)
    · rintro events s ev s' _ scanned ⟨present, stepped⟩
      cases ev with
      | op o =>
          obtain ⟨store, executed, rfl⟩ := stepped
          obtain ⟨ops, built⟩ := scanned.built
          exact ⟨⟨ops ++ [o], .step built executed⟩, scanned.visited⟩
      | scan =>
          obtain ⟨unfinished, v, out, called, rfl⟩ := stepped
          exact scanned.scan lawful present unfinished called
  have wf := scanned.wf lawful
  refine ⟨?_, ?_⟩
  · intro ended
    apply scanned.visited
    rw [frontier, ended]
    exact position_lt _
  · obtain ⟨v, out, _, called, _⟩ := dictScan_spec wf (present.dictSize wf) s.cursor
    exact ⟨v, out, called⟩

end Iteration

/-! ## An iteration over a dictionary that grows -/

instance Op.decidableLegal {K V : Type} (s : DictState K V) : (op : Op K V) → Decidable (op.Legal s)
  | .rehash _ | .expand _ => inferInstanceAs (Decidable (_ ∧ _))
  | .add .. | .replace .. | .addOrFind _ | .delete _ | .unlink _ | .find _ | .fetchValue _
  | .resize | .enableResize | .disableResize | .empty => inferInstanceAs (Decidable (_ < _))

/-- A step of an iteration during which `key` is present, computed. -/
def ScanState.exec (key : Nat) (s : ScanState Nat Nat) (ev : ScanEvent Nat Nat) :
    Option (ScanState Nat Nat) :=
  if s.store.dict.entries.any fun e => natType.keyCompare key e.key then
    match ev with
    | .op o =>
      if o.Legal s.store then
        (o.exec natType s.store).toOption.map fun r => { s with store := r.1 }
      else none
    | .scan =>
      if s.finished then none
      else (dictScan s.store.dict s.cursor).toOption.map fun (v, out) =>
        { s with cursor := v, emitted := s.emitted ++ out, finished := v = 0 }
  else none

theorem toOption_eq_some {ε α : Type} {x : Except ε α} {a : α} (returned : x.toOption = some a) :
    x = .ok a := by
  cases x with
  | error _ => cases returned
  | ok b => exact congrArg Except.ok (Option.some.inj returned)

theorem ScanState.exec_step {key : Nat} (s : ScanState Nat Nat) (ev : ScanEvent Nat Nat)
    (t : ScanState Nat Nat) (ran : s.exec key ev = some t) :
    ((scanSys natType).restrict fun s _ => Present natType key s).step s ev t := by
  unfold ScanState.exec at ran
  split at ran
  · rename_i present
    refine ⟨List.any_eq_true.mp present, ?_⟩
    cases ev with
    | op o =>
        dsimp only at ran
        split at ran
        · rename_i legal
          obtain ⟨⟨store, reply⟩, executed, rfl⟩ := Option.map_eq_some_iff.mp ran
          exact ⟨store, ⟨legal, reply, toOption_eq_some executed⟩, rfl⟩
        · cases ran
    | scan =>
        dsimp only at ran
        split at ran
        · cases ran
        · rename_i unfinished
          obtain ⟨⟨v, out⟩, called, rfl⟩ := Option.map_eq_some_iff.mp ran
          exact ⟨by simpa using unfinished, v, out, toOption_eq_some called, rfl⟩
  · cases ran

/-- A dictionary of two entries, as `dictAdd` builds it. -/
def twoEntries : DictState Nat Nat :=
  ⟨⟨⟨[[], [⟨1, some 10⟩], [⟨6, some 60⟩], []], 4, 3, 2⟩, dictReset, none, 0⟩, true⟩

/-- What the iteration leaves: the table of eight indices, with an entry that was added. -/
def grownEntries : DictState Nat Nat :=
  ⟨⟨⟨[[], [⟨1, some 10⟩], [], [], [], [⟨5, some 50⟩], [], []], 8, 7, 2⟩, dictReset, none, 0⟩, true⟩

/-- Between the calls the table grows, is rehashed, loses an entry and gets another. -/
theorem scan_complete_growing :
    ∃ s : ScanState Nat Nat, ((scanSys natType).restrict fun s _ => Present natType 1 s).Run
        [.scan, .op (.expand 8), .scan, .op (.rehash 1), .op (.delete 6), .scan,
          .op (.add 5 50), .scan, .scan, .scan] s ∧
      s.finished = true ∧ Reported natType 1 s := by
  have built : (dictSys natType).Run [.add 1 10, .add 6 60] twoEntries := by
    have created : (dictSys natType).Run [] (⟨dictCreate, true⟩ : DictState Nat Nat) := .init rfl
    have added : (dictSys natType).Run [.add 1 10] _ :=
      .step created ⟨show 0 < 2 ^ 61 by decide, .flag true, rfl⟩
    exact .step added ⟨show 1 < 2 ^ 61 by decide, .flag true, rfl⟩
  have start : ((scanSys natType).restrict fun s _ => Present natType 1 s).Run []
      ⟨twoEntries, 0, [], false⟩ := .init ⟨⟨_, built⟩, rfl, rfl, rfl⟩
  have ran : [.scan, .op (.expand 8), .scan, .op (.rehash 1), .op (.delete 6), .scan,
      .op (.add 5 50), .scan, .scan, .scan].foldlM (ScanState.exec 1) ⟨twoEntries, 0, [], false⟩ =
      some ⟨grownEntries, 0, [⟨6, some 60⟩, ⟨1, some 10⟩, ⟨5, some 50⟩], true⟩ := by rfl
  have run := TSys.Run.exec ScanState.exec_step start ran
  have present : Present natType 1 ⟨grownEntries, 0,
      [⟨6, some 60⟩, ⟨1, some 10⟩, ⟨5, some 50⟩], true⟩ :=
    ⟨⟨1, some 10⟩, by decide, rfl⟩
  exact ⟨_, run, rfl, (scan_complete natType_lawful run present).1 rfl⟩

end GpBase.Dictionary

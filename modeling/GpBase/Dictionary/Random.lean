import GpBase.Dictionary.Sampling

/-!
# Random keys

Translation of `dictGetRandomKey` and `dictGetFairRandomKey`. The first draws buckets until
one is not empty, and then a position in its chain; the second takes one of a sample of
fifteen entries, and falls back to the first when the sample is empty. Nothing bounds the
loop of draws: how many rounds it may take is an argument.
-/

namespace GpBase.Dictionary

open GpBase.Lib

variable {K V : Type}

namespace Dict

/-! ## The functions -/

section Functions

variable (ty : DictType K) (d : Dict K V) (random : Nat → Nat)

/-- The bucket that `dictGetRandomKey` looks at, for a random number. -/
def pick (r : Nat) : Bool × Nat :=
  match d.rehashidx with
  | some idx =>
    -- there are no entries in front of `rehashidx`
    let h := idx + r % (d.ht0.size + d.ht1.size - idx)
    if d.ht0.size ≤ h then (true, h - d.ht0.size) else (false, h)
  | none => (false, r &&& d.ht0.sizemask.toNat)

/-- The loops of `dictGetRandomKey`: a bucket that is not empty, its length, and the number of
calls of `random()` so far. -/
def pickLoop : Nat → Nat → Except Fault ((Bool × Nat) × Nat × Nat)
  | 0, _ => .error .hang
  | rounds + 1, drawn => do
    let (second, h) := d.pick (random drawn)
    match ← (d.ht second).chain h with
    | [] => pickLoop rounds (drawn + 1)
    | e :: es => return ((second, h), (e :: es).length, drawn + 1)

/-- `dictGetRandomKey`, with `drawn` calls of `random()` made before. -/
def dictGetRandomKey (drawn rounds : Nat) : Except Fault (Dict K V × Option EntryRef) :=
  if d.dictSize = 0 then .ok (d, none)
  else do
    let d ← d.rehashStep ty
    let ((second, h), listlen, drawn) ← d.pickLoop random rounds drawn
    return (d, some ⟨second, h, random drawn % listlen⟩)

end Functions

variable {ty : DictType K} {d : Dict K V}

/-! ## Buckets by number -/

/-- How many buckets may be drawn. -/
def span (d : Dict K V) : Nat :=
  match d.rehashidx with
  | some idx => d.ht0.size + d.ht1.size - idx
  | none => d.ht0.size

theorem Dictht.WF.pos {ht : Dictht K V} (wf : ht.WF ty) (alloc : ht.table ≠ []) : 0 < ht.size := by
  rw [wf.size_eq]
  exact List.length_pos_of_ne_nil alloc

theorem span_pos (shape : d.Shape ty) (alloc : d.ht0.table ≠ []) : 0 < d.span := by
  unfold span
  cases started : d.rehashidx with
  | some idx =>
      have moving := shape.moving idx started
      have bound := moving.bound
      have second := Dictht.WF.pos shape.second moving.to_alloc
      show 0 < d.ht0.size + d.ht1.size - idx
      omega
  | none => exact Dictht.WF.pos shape.first alloc

/-- A bucket in reach of the draws. -/
def InSpan (d : Dict K V) (b : Bool × Nat) : Prop :=
  b.2 < (d.ht b.1).size ∧ d.rehashidx.getD 0 ≤ (if b.1 then d.ht0.size + b.2 else b.2)

/-- The random number of a bucket. -/
def residue (d : Dict K V) (b : Bool × Nat) : Nat :=
  (if b.1 then d.ht0.size + b.2 else b.2) - d.rehashidx.getD 0

theorem pick_inSpan (shape : d.Shape ty) (alloc : d.ht0.table ≠ []) (r : Nat) :
    d.InSpan (d.pick r) ∧ d.residue (d.pick r) = r % d.span := by
  have pos := span_pos shape alloc
  have low := Nat.mod_lt r pos
  unfold InSpan residue pick
  unfold span at low pos ⊢
  cases started : d.rehashidx with
  | some idx =>
      simp only [started, Option.getD_some] at low pos ⊢
      split
      · simp only [if_true, ht]
        omega
      · simp only [Bool.false_eq_true, if_false, ht]
        omega
  | none =>
      obtain ⟨k, first⟩ := shape.first.allocated alloc
      simp only [started, Option.getD_none, Bool.false_eq_true, if_false, ht, Nat.zero_le, and_true,
        Nat.sub_zero] at low ⊢
      rw [sizemask_toNat first, Nat.and_two_pow_sub_one_eq_mod, ← first.size]
      exact ⟨low, rfl⟩

/-- A bucket in reach is told by its number. -/
theorem residue_injective {b b' : Bool × Nat} (inside : d.InSpan b) (inside' : d.InSpan b')
    (same : d.residue b = d.residue b') : b = b' := by
  obtain ⟨second, i⟩ := b
  obtain ⟨second', i'⟩ := b'
  unfold InSpan at inside inside'
  unfold residue at same
  cases second <;> cases second' <;>
    simp only [Bool.false_eq_true, if_false, if_true, ht] at inside inside' same <;>
    simp only [Prod.mk.injEq, true_and, reduceCtorEq, false_and] <;> omega

/-- The buckets of entries are in reach. -/
theorem Valid.inSpan (shape : d.Shape ty) {ref : EntryRef} (valid : d.Valid ref) :
    d.InSpan (ref.second, ref.idx) ∧ d.residue (ref.second, ref.idx) < d.span := by
  obtain ⟨chain, at_i, inside⟩ := valid
  have bucket := (List.getElem?_eq_some_iff.mp at_i).1
  rw [← (shape.ht_wf ref.second).size_eq] at bucket
  unfold InSpan residue span
  cases started : d.rehashidx with
  | none =>
      have reset := shape.idle started
      cases second : ref.second with
      | false =>
          rw [second] at bucket
          exact ⟨⟨bucket, Nat.zero_le _⟩, bucket⟩
      | true =>
          rw [second, show d.ht true = d.ht1 from rfl, reset] at bucket
          exact absurd bucket (Nat.not_lt_zero _)
  | some idx =>
      have moving := shape.moving idx started
      have bound := moving.bound
      cases second : ref.second with
      | true =>
          rw [second, show d.ht true = d.ht1 from rfl] at bucket
          simp only [if_true, Option.getD_some, ht]
          omega
      | false =>
          rw [second, show d.ht false = d.ht0 from rfl] at bucket at_i
          have behind : idx ≤ ref.idx := by
            by_contra before
            rw [moving.emptied ref.idx (by omega)] at at_i
            cases at_i
            exact absurd inside (Nat.not_lt_zero _)
          simp only [Bool.false_eq_true, if_false, Option.getD_some, ht]
          omega

/-- The chain of the bucket that is drawn. -/
theorem pick_chain (shape : d.Shape ty) (alloc : d.ht0.table ≠ []) (r : Nat) :
    ∃ chain, (d.ht (d.pick r).1).table[(d.pick r).2]? = some chain ∧
      (d.ht (d.pick r).1).chain (d.pick r).2 = .ok chain := by
  have inside := (pick_inSpan shape alloc r).1.1
  rw [(shape.ht_wf _).size_eq] at inside
  refine ⟨_, List.getElem?_eq_getElem inside, ?_⟩
  rw [Dictht.chain, List.getElem?_eq_getElem inside]

/-! ## Drawing -/

/-- The length of the chain of a bucket. -/
def listlen (d : Dict K V) (b : Bool × Nat) : Nat := ((d.ht b.1).table.getD b.2 []).length

/-- The loop stops at the first bucket that is not empty. -/
theorem pickLoop_spec (shape : d.Shape ty) (alloc : d.ht0.table ≠ []) (random : Nat → Nat)
    (rounds : Nat) :
    ∀ drawn, (d.pickLoop random rounds drawn = .error .hang ∧
        ∀ n < rounds, d.listlen (d.pick (random (drawn + n))) = 0) ∨
      ∃ n < rounds, 0 < d.listlen (d.pick (random (drawn + n))) ∧
        d.pickLoop random rounds drawn = .ok (d.pick (random (drawn + n)),
          d.listlen (d.pick (random (drawn + n))), drawn + n + 1) := by
  induction rounds with
  | zero =>
      intro drawn
      exact .inl ⟨rfl, fun n none => absurd none (Nat.not_lt_zero n)⟩
  | succ rounds ih =>
      intro drawn
      obtain ⟨chain, at_i, read⟩ := pick_chain shape alloc (random drawn)
      have len : d.listlen (d.pick (random drawn)) = chain.length := by
        rw [listlen, List.getD_eq_getElem?_getD, at_i]
        rfl
      unfold pickLoop
      simp only [read, bind, Except.bind]
      cases chain with
      | cons e es =>
          refine .inr ⟨0, Nat.succ_pos _, ?_, ?_⟩
          · rw [Nat.add_zero, len]
            exact Nat.succ_pos _
          · show _ = Except.ok (d.pick (random drawn), d.listlen (d.pick (random drawn)), drawn + 1)
            rw [len]
            rfl
      | nil =>
          have shift : ∀ n, drawn + (n + 1) = drawn + 1 + n := fun n => by omega
          obtain ⟨hangs, none⟩ | ⟨n, inside, some, picked⟩ := ih (drawn + 1)
          · refine .inl ⟨hangs, fun n inside => ?_⟩
            cases n with
            | zero => exact len
            | succ n =>
                rw [shift]
                exact none n (by omega)
          · refine .inr ⟨n + 1, by omega, ?_, ?_⟩
            · rw [shift]
              exact some
            · show d.pickLoop random rounds (drawn + 1) = _
              rw [shift n]
              exact picked

theorem Valid.listlen {ref : EntryRef} (valid : d.Valid ref) :
    ref.pos < d.listlen (ref.second, ref.idx) := by
  obtain ⟨chain, at_i, inside⟩ := valid
  rw [Dict.listlen, List.getD_eq_getElem?_getD, at_i]
  exact inside

theorem valid_of_listlen {b : Bool × Nat} {pos : Nat} (inside : pos < d.listlen b) :
    d.Valid ⟨b.1, b.2, pos⟩ := by
  rw [Dict.listlen, List.getD_eq_getElem?_getD] at inside
  cases at_i : (d.ht b.1).table[b.2]? with
  | none =>
      rw [at_i] at inside
      exact absurd inside (Nat.not_lt_zero _)
  | some chain =>
      rw [at_i] at inside
      exact ⟨chain, at_i, inside⟩

/-- Some entry can be pointed to. -/
theorem exists_valid (some_used : d.entries ≠ []) : ∃ ref, d.Valid ref := by
  obtain ⟨e, mem⟩ := List.exists_mem_of_ne_nil _ some_used
  obtain first | second := List.mem_append.mp mem
  · obtain ⟨chain, inTable, inChain⟩ := List.mem_flatten.mp first
    obtain ⟨i, at_i⟩ := List.mem_iff_getElem?.mp inTable
    exact ⟨⟨false, i, 0⟩, chain, at_i, List.length_pos_of_mem inChain⟩
  · obtain ⟨chain, inTable, inChain⟩ := List.mem_flatten.mp second
    obtain ⟨i, at_i⟩ := List.mem_iff_getElem?.mp inTable
    exact ⟨⟨true, i, 0⟩, chain, at_i, List.length_pos_of_mem inChain⟩

theorem Valid.some_used {ref : EntryRef} (valid : d.Valid ref) : d.entries ≠ [] := by
  obtain ⟨chain, at_i, inside⟩ := valid
  obtain ⟨e, mem⟩ := List.exists_mem_of_length_pos (Nat.zero_lt_of_lt inside)
  exact List.ne_nil_of_mem ((chain_sublist_entries at_i).mem mem)

/-- The call, in a dictionary that is not empty. -/
theorem dictGetRandomKey_spec (shape : d.Shape ty) (some_used : d.entries ≠ []) :
    ∃ d' : Dict K V, d'.Shape ty ∧ d'.entries.Perm d.entries ∧ d'.ht0.table ≠ [] ∧
      (∀ random drawn rounds, d.dictGetRandomKey ty random drawn rounds =
        (d'.pickLoop random rounds drawn).map fun ((second, h), listlen, drawn) =>
          (d', some ⟨second, h, random drawn % listlen⟩)) ∧
      ∀ random drawn rounds, d.dictGetRandomKey ty random drawn rounds = .error .hang ∨
        ∃ ref, d.dictGetRandomKey ty random drawn rounds = .ok (d', some ref) ∧ d'.Valid ref := by
  obtain ⟨d', stepped, shape', perm⟩ := shape.rehashStep_spec
  have size : d.dictSize ≠ 0 := by
    rw [shape.dictSize_eq]
    exact (List.length_pos_of_ne_nil some_used).ne'
  have alloc : d'.ht0.table ≠ [] := by
    apply shape'.alloc_of_dictSize
    rw [shape'.dictSize_eq, perm.length_eq, ← shape.dictSize_eq]
    exact size
  have call : ∀ random drawn rounds, d.dictGetRandomKey ty random drawn rounds =
      (d'.pickLoop random rounds drawn).map fun ((second, h), listlen, drawn) =>
        (d', some ⟨second, h, random drawn % listlen⟩) := by
    intro random drawn rounds
    unfold dictGetRandomKey
    rw [if_neg size, stepped]
    simp only [bind, Except.bind]
    cases d'.pickLoop random rounds drawn with
    | error fault => rfl
    | ok picked => rfl
  refine ⟨d', shape', perm, alloc, call, fun random drawn rounds => ?_⟩
  rw [call]
  obtain ⟨hangs, _⟩ | ⟨n, _, some, picked⟩ := pickLoop_spec shape' alloc random rounds drawn
  · rw [hangs]
    exact .inl rfl
  · rw [picked]
    exact .inr ⟨_, rfl, valid_of_listlen (Nat.mod_lt _ some)⟩

/-- **Every bucket is drawn alike.** In a dictionary of the right shape that is not empty,
whatever `random()` returns: `dictGetRandomKey` reads no bucket outside the tables and gives a
pointer to an entry that is there after its rehash step, or is still drawing. It stops if the
numbers drawn take every value modulo the number of buckets behind `rehashidx`. Of these
values exactly one leads to the bucket of a given entry, and the position in its chain is the
next number modulo its length. -/
theorem dictGetRandomKey_draws (shape : d.Shape ty) (some_used : d.entries ≠ []) :
    ∃ d' : Dict K V, d'.Shape ty ∧ d'.entries.Perm d.entries ∧
      (∀ random drawn rounds, d.dictGetRandomKey ty random drawn rounds = .error .hang ∨
        ∃ ref, d.dictGetRandomKey ty random drawn rounds = .ok (d', some ref) ∧ d'.Valid ref) ∧
      (∀ random drawn, (∀ r < d'.span, ∃ n, random (drawn + n) % d'.span = r) →
        ∃ rounds ref, d.dictGetRandomKey ty random drawn rounds = .ok (d', some ref)) ∧
      ∀ ref, d'.Valid ref → ∃! r, r < d'.span ∧
        ∀ random drawn rounds, random drawn % d'.span = r →
          d.dictGetRandomKey ty random drawn (rounds + 1) = .ok (d', some ⟨ref.second, ref.idx,
            random (drawn + 1) % (d'.bucketRefs ref.second ref.idx).length⟩) := by
  obtain ⟨d', shape', perm, alloc, call, found⟩ := dictGetRandomKey_spec shape some_used
  have filled : d'.entries ≠ [] := fun none => some_used (by simpa [none] using perm.symm)
  -- a number with the residue of an entry's bucket leads there
  have leads : ∀ {ref r}, d'.Valid ref → r % d'.span = d'.residue (ref.second, ref.idx) →
      d'.pick r = (ref.second, ref.idx) := by
    intro ref r valid same
    obtain ⟨inside, residue⟩ := pick_inSpan shape' alloc r
    exact residue_injective inside (valid.inSpan shape').1 (residue.trans same)
  have first : ∀ {ref}, d'.Valid ref → ∀ random drawn rounds,
      random drawn % d'.span = d'.residue (ref.second, ref.idx) →
      d.dictGetRandomKey ty random drawn (rounds + 1) = .ok (d', some ⟨ref.second, ref.idx,
        random (drawn + 1) % (d'.bucketRefs ref.second ref.idx).length⟩) := by
    intro ref valid random drawn rounds same
    obtain ⟨chain, at_i, inside⟩ := valid
    have full : chain ≠ [] := List.ne_nil_of_length_pos (by omega)
    obtain ⟨e, es, rfl⟩ := List.exists_cons_of_ne_nil full
    have here := leads ⟨_, at_i, inside⟩ same
    have read : (d'.ht ref.second).chain ref.idx = .ok (e :: es) := by
      rw [Dictht.chain, at_i]
    have len : (d'.bucketRefs ref.second ref.idx).length = (e :: es).length := by
      rw [bucketRefs, List.length_map, List.length_range, List.getD_eq_getElem?_getD, at_i]
      rfl
    rw [call, pickLoop, here, len]
    dsimp only
    rw [read]
    rfl
  refine ⟨d', shape', perm, found, ?_, ?_⟩
  · intro random drawn all
    obtain ⟨ref, valid⟩ := exists_valid filled
    obtain ⟨n, same⟩ := all _ (valid.inSpan shape').2
    obtain ⟨hangs, none⟩ | ⟨n', _, _, picked⟩ := pickLoop_spec shape' alloc random (n + 1) drawn
    · have empty := none n (Nat.lt_succ_self n)
      rw [leads valid same] at empty
      exact absurd valid.listlen (by omega)
    · let b := d'.pick (random (drawn + n'))
      refine ⟨n + 1, ⟨b.1, b.2, random (drawn + n' + 1) % d'.listlen b⟩, ?_⟩
      rw [call, picked]
      rfl
  · intro ref valid
    refine ⟨d'.residue (ref.second, ref.idx), ⟨(valid.inSpan shape').2, first valid⟩, ?_⟩
    rintro r ⟨low, only⟩
    -- the number `r` itself leads to the bucket, and tells it
    have here := only (fun _ => r) 0 0 (Nat.mod_eq_of_lt low)
    rw [call] at here
    obtain ⟨hangs, _⟩ | ⟨n, _, _, picked⟩ := pickLoop_spec shape' alloc (fun _ => r) 1 0
    · rw [hangs] at here
      cases here
    · rw [picked] at here
      have same : d'.pick r = (ref.second, ref.idx) := by
        have both := (Prod.mk.inj (Except.ok.inj here)).2
        obtain ⟨second, idx, _⟩ := EntryRef.mk.inj (Option.some.inj both)
        exact Prod.ext second idx
      rw [← same, (pick_inSpan shape' alloc r).2, Nat.mod_eq_of_lt low]

/-- In the middle of a rehash, with the numbers 0, 1, 2 and so on. -/
theorem dictGetRandomKey_draws_halfway :
    ∃ (d' : Dict Nat Nat) (rounds : Nat) (ref : EntryRef),
      halfway.dictGetRandomKey natType (fun n => n) 0 rounds = .ok (d', some ref) ∧
      d'.entries.Perm halfway.entries ∧ d'.Valid ref := by
  obtain ⟨d', _, perm, found, stops, _⟩ := dictGetRandomKey_draws halfway_shape (by decide)
  obtain ⟨rounds, ref, drawn⟩ := stops (fun n => n) 0 fun r small =>
    ⟨r, by rw [Nat.zero_add, Nat.mod_eq_of_lt small]⟩
  obtain hangs | ⟨ref', drawn', valid⟩ := found (fun n => n) 0 rounds
  · rw [drawn] at hangs
    cases hangs
  · exact ⟨d', rounds, ref', drawn', perm, valid⟩

/-! ## One of a sample -/

section Sample

variable {count : Nat}

end Sample

end Dict

end GpBase.Dictionary

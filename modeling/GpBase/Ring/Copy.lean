import GpBase.Ring.Model

/-!
# The copy loops of the ring

Both branches of the copy part, the loop that is unrolled four times with its `switch`
and the pair of loops that wraps around, copy object `i` of a batch to slot
`(idx + i) % size`, and back. The sum `idx + n` is an `unsigned`; it does not wrap, since
the slots of a ring are no more than an `int` can count.
-/

namespace GpBase.Ring

open GpBase.Lib

/-! ## The loops as they are written -/

/-- The array that is written, and the variables `i` and `idx`. -/
structure Copy (α : Type*) where
  mem : List α
  i : Nat
  idx : Nat

section Loops

/-! `assign mem i idx` is `ring[idx] = obj[i]` in a push, and `obj[i] = ring[idx]` in a pop. -/

variable {α : Type*} (assign : List α → Nat → Nat → Except Fault (List α))

/-- An assignment with `idx++` and `i++`. -/
def Copy.next (c : Copy α) : Except Fault (Copy α) := do
  let mem ← assign c.mem c.i c.idx
  return ⟨mem, uint32 (c.i + 1), uint32 (c.idx + 1)⟩

/-- A round of the loop that is unrolled. -/
def Copy.four (c : Copy α) : Except Fault (Copy α) := do
  let mem ← assign c.mem c.i c.idx
  let mem ← assign mem (uint32 (c.i + 1)) (uint32 (c.idx + 1))
  let mem ← assign mem (uint32 (c.i + 2)) (uint32 (c.idx + 2))
  let mem ← assign mem (uint32 (c.i + 3)) (uint32 (c.idx + 3))
  return ⟨mem, uint32 (c.i + 4), uint32 (c.idx + 4)⟩

/-- A `for` loop with its condition and its body. -/
def forLoop (cond : Copy α → Bool) (body : Copy α → Except Fault (Copy α)) :
    Nat → Copy α → Except Fault (Copy α)
  | 0, _ => .error .hang
  | fuel + 1, c => if cond c then do forLoop cond body fuel (← body c) else .ok c

/-- The `switch`: case `k + 1` makes one assignment and falls through to case `k`. -/
def fallThrough : Nat → Copy α → Except Fault (Copy α)
  | 0, c => .ok c
  | k + 1, c => do fallThrough k (← c.next assign)

/-- The copy part. No loop makes more than `n` or `size` rounds. -/
def copyLoops (mem : List α) (size idx n : Nat) : Except Fault (List α) :=
  if uint32 (idx + n) < size then do
    let c ← forLoop (·.i < n &&& 0xfffffffc) (Copy.four assign) (n + 1) ⟨mem, 0, idx⟩
    let c ← fallThrough assign (n &&& 0x3) c
    return c.mem
  else do
    let c ← forLoop (·.idx < size) (Copy.next assign) (size + 1) ⟨mem, 0, idx⟩
    let c ← forLoop (·.i < n) (Copy.next assign) (n + 1) { c with idx := 0 }
    return c.mem

end Loops

variable {α : Type*}

/-- The copy part of `gp_ring_push`, loop by loop. -/
def pushLoops (ring : List α) (size idx n : Nat) (obj : List α) : Except Fault (List α) :=
  copyLoops (fun ring i idx => copyOne ring idx obj i) ring size idx n

/-- The copy part of `gp_ring_pop`, loop by loop. -/
def popLoops (ring : List α) (size idx n : Nat) (obj : List α) : Except Fault (List α) :=
  copyLoops (fun obj i idx => copyOne obj i ring idx) obj size idx n

/-! ## Rounds -/

section Rounds

variable (assign : List α → Nat → Nat → Except Fault (List α))

/-- `k` assignments, one after the other. -/
def rounds (mem : List α) (i idx : Nat) : Nat → Except Fault (List α)
  | 0 => .ok mem
  | k + 1 => do rounds (← assign mem i idx) (i + 1) (idx + 1) k

theorem rounds_add (mem : List α) (i idx k l : Nat) :
    rounds assign mem i idx (k + l) =
      rounds assign mem i idx k >>= fun mem => rounds assign mem (i + k) (idx + k) l := by
  induction k generalizing mem i idx with
  | zero => rw [Nat.zero_add]; rfl
  | succ k ih =>
      rw [show k + 1 + l = k + l + 1 by omega, rounds, rounds, bind_assoc]
      refine bind_congr ?_
      intro mem
      rw [ih, show i + 1 + k = i + (k + 1) by omega, show idx + 1 + k = idx + (k + 1) by omega]

/-- Without wrapping around 32 bits, `body` makes `m` assignments. -/
def Makes (m : Nat) (body : Copy α → Except Fault (Copy α)) : Prop :=
  ∀ mem i idx, i + m < 2 ^ 32 → idx + m < 2 ^ 32 →
    body ⟨mem, i, idx⟩ = rounds assign mem i idx m >>= fun mem => .ok ⟨mem, i + m, idx + m⟩

theorem next_makes : Makes assign 1 (Copy.next assign) := by
  intro mem i idx fits fits'
  have first := uint32_add fits
  have second := uint32_add fits'
  push_cast at first second
  simp only [Copy.next, rounds, first, second, bind_assoc]
  rfl

theorem four_makes : Makes assign 4 (Copy.four assign) := by
  intro mem i idx fits fits'
  have add : ∀ d : Nat, d ≤ 4 →
      uint32 ((i : Int) + (d : Nat)) = i + d ∧ uint32 ((idx : Int) + (d : Nat)) = idx + d := by
    intro d small
    exact ⟨uint32_add (by omega), uint32_add (by omega)⟩
  have one := add 1 (by omega)
  have two := add 2 (by omega)
  have three := add 3 (by omega)
  have four := add 4 (by omega)
  push_cast at one two three four
  simp only [Copy.four, rounds, one, two, three, four, bind_assoc]
  rfl

theorem fallThrough_makes (k : Nat) : Makes assign k (fallThrough assign k) := by
  induction k with
  | zero =>
      intro mem i idx _ _
      rfl
  | succ k ih =>
      intro mem i idx fits fits'
      rw [fallThrough, next_makes assign mem i idx (by omega) (by omega),
        show k + 1 = 1 + k by omega, rounds_add, bind_assoc, bind_assoc]
      refine bind_congr ?_
      intro mem
      show fallThrough assign k ⟨mem, i + 1, idx + 1⟩ = _
      rw [ih mem (i + 1) (idx + 1) (by omega) (by omega), show i + 1 + k = i + (1 + k) by omega,
        show idx + 1 + k = idx + (1 + k) by omega]

/-- The run lemma of the loops: `r` rounds, as long as the condition says so. -/
theorem forLoop_makes {m : Nat} {cond : Copy α → Bool} {body : Copy α → Except Fault (Copy α)}
    (makes : Makes assign m body) (r fuel : Nat) (enough : r < fuel) (mem : List α) (i idx : Nat)
    (fits : i + m * r < 2 ^ 32) (fits' : idx + m * r < 2 ^ 32)
    (goes : ∀ mem, ∀ q < r, cond ⟨mem, i + m * q, idx + m * q⟩ = true)
    (stops : ∀ mem, cond ⟨mem, i + m * r, idx + m * r⟩ = false) :
    forLoop cond body fuel ⟨mem, i, idx⟩ =
      rounds assign mem i idx (m * r) >>= fun mem => .ok ⟨mem, i + m * r, idx + m * r⟩ := by
  induction r generalizing fuel mem i idx with
  | zero =>
      obtain ⟨fuel, rfl⟩ := Nat.exists_eq_add_of_lt enough
      rw [forLoop, if_neg (by simpa using stops mem)]
      rfl
  | succ r ih =>
      obtain ⟨fuel, rfl⟩ : ∃ j, fuel = j + 1 := ⟨fuel - 1, by omega⟩
      have first : cond ⟨mem, i, idx⟩ = true := goes mem 0 (Nat.succ_pos r)
      have shift : ∀ x q : Nat, x + m + m * q = x + m * (q + 1) := by
        intro x q
        rw [Nat.mul_succ]
        omega
      rw [forLoop, if_pos first, makes mem i idx (by rw [Nat.mul_succ] at fits; omega)
        (by rw [Nat.mul_succ] at fits'; omega), show m * (r + 1) = m + m * r by ring, rounds_add,
        bind_assoc, bind_assoc]
      refine bind_congr ?_
      intro mem
      show forLoop cond body fuel ⟨mem, i + m, idx + m⟩ = _
      rw [ih fuel (by omega) mem (i + m) (idx + m) (by rw [shift]; exact fits)
        (by rw [shift]; exact fits')
        (fun mem q small => by rw [shift, shift]; exact goes mem (q + 1) (by omega))
        (fun mem => by rw [shift, shift]; exact stops mem), Nat.add_assoc, Nat.add_assoc]

theorem bind_ok {β : Type*} (x : Except Fault β) : (x >>= fun y => .ok y) = x := by
  cases x <;> rfl

theorem and_tail (n : Nat) : n &&& 0x3 = n % 4 := Nat.and_two_pow_sub_one_eq_mod n 2

/-- The mask of the unrolled loop. -/
theorem and_blocks {n : Nat} (narrow : n < 2 ^ 32) : n &&& 0xfffffffc = 4 * (n / 4) := by
  have mask : 0xfffffffc = (2 ^ 30 - 1) <<< 2 := by decide
  have low : 4 * (n / 4) = (n >>> 2) <<< 2 := by
    rw [Nat.shiftRight_eq_div_pow, Nat.shiftLeft_eq, Nat.mul_comm]
  rw [mask, low]
  apply Nat.eq_of_testBit_eq
  intro i
  rw [Nat.testBit_and, Nat.testBit_shiftLeft, Nat.testBit_shiftLeft, Nat.testBit_shiftRight,
    Nat.testBit_two_pow_sub_one]
  by_cases high : i < 32
  · by_cases two : 2 ≤ i
    · simp [two, show 2 + (i - 2) = i by omega, show i - 2 < 30 by omega]
    · simp [two]
  · have none_ : n.testBit i = false := Nat.testBit_lt_two_pow
      (narrow.trans_le (Nat.pow_le_pow_right (by omega) (by omega)))
    simp [none_, show 2 + (i - 2) = i by omega]

/-- What the loops do, in assignments: they go on through the array, or from its end back
to its start. -/
theorem copyLoops_eq (mem : List α) {size idx n : Nat} (narrow : idx + n < 2 ^ 32)
    (start : idx ≤ size) :
    copyLoops assign mem size idx n =
      if idx + n < size then rounds assign mem 0 idx n
      else rounds assign mem 0 idx (size - idx) >>= fun mem =>
        rounds assign mem (size - idx) 0 (n - (size - idx)) := by
  unfold copyLoops
  rw [uint32_add narrow]
  split
  · -- `n / 4` rounds of four assignments, then one for each case
    rw [and_tail, and_blocks (by omega),
      forLoop_makes assign (four_makes assign) (n / 4) (n + 1) (by omega) mem 0 idx (by omega)
        (by omega) (fun mem q small => by simp; omega) (fun mem => by simp), bind_assoc]
    have split : rounds assign mem 0 idx n = rounds assign mem 0 idx (4 * (n / 4)) >>= fun mem =>
        rounds assign mem (0 + 4 * (n / 4)) (idx + 4 * (n / 4)) (n % 4) := by
      rw [← rounds_add, Nat.div_add_mod]
    rw [split]
    refine bind_congr ?_
    intro mem
    show (fallThrough assign (n % 4) ⟨mem, 0 + 4 * (n / 4), idx + 4 * (n / 4)⟩ >>= _) = _
    rw [fallThrough_makes assign (n % 4) mem _ _ (by omega) (by omega), bind_assoc]
    exact bind_ok _
  · rw [forLoop_makes assign (next_makes assign) (size - idx) (size + 1) (by omega) mem 0 idx
      (by omega) (by omega) (fun mem q small => by simp; omega) (fun mem => by simp; omega),
      bind_assoc, Nat.one_mul, Nat.zero_add]
    refine bind_congr ?_
    intro mem
    show (forLoop _ _ _ ⟨mem, size - idx, 0⟩ >>= _) = _
    rw [forLoop_makes assign (next_makes assign) (n - (size - idx)) (n + 1) (by omega) mem
      (size - idx) 0 (by omega) (by omega) (fun mem q small => by simp; omega)
      (fun mem => by simp; omega), bind_assoc, Nat.one_mul]
    exact bind_ok _

end Rounds

/-! ## Runs of copies -/

section Runs

/-- A run of copies is the rounds of a push; -/
theorem copyRun_eq_push (ring obj : List α) (i idx k : Nat) :
    copyRun ring idx obj i k = rounds (fun ring i idx => copyOne ring idx obj i) ring i idx k := by
  induction k generalizing ring i idx with
  | zero => rfl
  | succ k ih =>
      rw [copyRun, rounds]
      refine bind_congr ?_
      intro ring
      exact ih ring (i + 1) (idx + 1)

/-- and of a pop. -/
theorem copyRun_eq_pop (ring obj : List α) (i idx k : Nat) :
    copyRun obj i ring idx k = rounds (fun obj i idx => copyOne obj i ring idx) obj i idx k := by
  induction k generalizing obj i idx with
  | zero => rfl
  | succ k ih =>
      rw [copyRun, rounds]
      refine bind_congr ?_
      intro obj
      exact ih obj (i + 1) (idx + 1)

theorem copyRun_add (dst : List α) (di : Nat) (src : List α) (si k l : Nat) :
    copyRun dst di src si (k + l) =
      copyRun dst di src si k >>= fun dst => copyRun dst (di + k) src (si + k) l := by
  simp only [copyRun_eq_push]
  exact rounds_add _ dst si di k l

/-- The unrolled loop makes one run. -/
theorem copyBlocks_eq (dst : List α) (di : Nat) (src : List α) (si b : Nat) :
    copyBlocks dst di src si b = copyRun dst di src si (b * 4) := by
  induction b generalizing dst di si with
  | zero => rw [Nat.zero_mul]; rfl
  | succ b ih =>
      rw [show (b + 1) * 4 = 4 + b * 4 by ring, copyRun_add]
      simp only [copyBlocks, copyRun, ih, bind_assoc]
      rfl

theorem copyOne_ok {dst : List α} {di : Nat} {src : List α} {si : Nat} (target : di < dst.length)
    (source : si < src.length) :
    copyOne dst di src si = .ok (dst.set di (src.get ⟨si, source⟩)) := by
  have one : (src.drop si).take 1 = [src.get ⟨si, source⟩] := by
    rw [List.drop_eq_getElem_cons source]
    rfl
  unfold copyOne
  rw [load_ok (by omega), one]
  show store dst di [src.get ⟨si, source⟩] = _
  rw [store_ok (show di + 1 ≤ dst.length by omega), List.set_eq_take_append_cons_drop,
    if_pos target, List.append_assoc]
  rfl

/-- `k` cells from `di` on are those of `src` from `si` on, and the others as they were. -/
structure Copied (dst : List α) (di : Nat) (src : List α) (si k : Nat) (dst' : List α) :
    Prop where
  length : dst'.length = dst.length
  inside : ∀ q < k, dst'[di + q]? = src[si + q]?
  outside : ∀ j, j < di ∨ di + k ≤ j → dst'[j]? = dst[j]?

/-- A run of copies that stays inside its blocks. -/
theorem copyRun_copied {dst : List α} {di : Nat} {src : List α} {si k : Nat}
    (target : di + k ≤ dst.length) (source : si + k ≤ src.length) :
    ∃ dst', copyRun dst di src si k = .ok dst' ∧ Copied dst di src si k dst' := by
  induction k generalizing dst di si with
  | zero =>
      refine ⟨dst, rfl, rfl, ?_, fun _ _ => rfl⟩
      intro q none_
      exact absurd none_ (Nat.not_lt_zero q)
  | succ k ih =>
      have below : si < src.length := by omega
      have first := copyOne_ok (show di < dst.length by omega) below
      let dst₁ := dst.set di (src.get ⟨si, below⟩)
      have same : dst₁.length = dst.length := List.length_set
      obtain ⟨dst', rest, copied⟩ := ih (show di + 1 + k ≤ dst₁.length by omega)
        (show si + 1 + k ≤ src.length by omega)
      refine ⟨dst', ?_, copied.length.trans same, ?_, ?_⟩
      · rw [copyRun, first]
        exact rest
      · intro q small
        cases q with
        | zero =>
            -- the first cell is not touched again
            rw [Nat.add_zero, Nat.add_zero, copied.outside di (by omega),
              List.getElem?_set_self (by omega), List.getElem?_eq_getElem below]
            rfl
        | succ q =>
            have later := copied.inside q (by omega)
            rwa [show di + 1 + q = di + (q + 1) by omega,
              show si + 1 + q = si + (q + 1) by omega] at later
      · intro j away
        rw [copied.outside j (by omega), List.getElem?_set_ne (by omega)]

end Runs

/-! ## One modular specification -/

section Batch

variable {ring obj : List α} {size idx n : Nat}

/-- The copy part of a push: one run, or two where the batch wraps around. -/
theorem pushCopy_eq (narrow : idx + n < 2 ^ 32) :
    pushCopy ring size idx n obj =
      if idx + n < size then copyRun ring idx obj 0 n
      else copyRun ring idx obj 0 (size - idx) >>= fun ring =>
        copyRun ring 0 obj (size - idx) (n - (size - idx)) := by
  unfold pushCopy
  rw [uint32_add narrow]
  split
  · have split : copyRun ring idx obj 0 n = copyRun ring idx obj 0 (n / 4 * 4 + n % 4) := by
      rw [Nat.div_add_mod']
    rw [copyBlocks_eq, split, copyRun_add, Nat.zero_add]
  · rfl

theorem popCopy_eq (narrow : idx + n < 2 ^ 32) :
    popCopy ring size idx n obj =
      if idx + n < size then copyRun obj 0 ring idx n
      else copyRun obj 0 ring idx (size - idx) >>= fun obj =>
        copyRun obj (size - idx) ring 0 (n - (size - idx)) := by
  unfold popCopy
  rw [uint32_add narrow]
  split
  · have split : copyRun obj 0 ring idx n = copyRun obj 0 ring idx (n / 4 * 4 + n % 4) := by
      rw [Nat.div_add_mod']
    rw [copyBlocks_eq, split, copyRun_add, Nat.zero_add]
  · rfl

/-- The copy of `gp_ring_push` is what its loops make of the slots. -/
theorem pushLoops_eq (narrow : idx + n < 2 ^ 32) (start : idx ≤ size) :
    pushLoops ring size idx n obj = pushCopy ring size idx n obj := by
  rw [pushLoops, copyLoops_eq _ ring narrow start, pushCopy_eq narrow]
  simp only [copyRun_eq_push]

theorem popLoops_eq (narrow : idx + n < 2 ^ 32) (start : idx ≤ size) :
    popLoops ring size idx n obj = popCopy ring size idx n obj := by
  rw [popLoops, copyLoops_eq _ obj narrow start, popCopy_eq narrow]
  simp only [copyRun_eq_pop]

/-- An index that wraps around at most once. -/
theorem wrap_index (start : idx < size) {i : Nat} (below : i < size) :
    (idx + i) % size = if idx + i < size then idx + i else idx + i - size := by
  split
  · rename_i straight
    exact Nat.mod_eq_of_lt straight
  · rw [Nat.mod_eq_sub_mod (by omega)]
    exact Nat.mod_eq_of_lt (by omega)

/-- Object `i` of a batch is in slot `(idx + i) % size`, and the other slots are as they
were. -/
structure Placed (size idx n : Nat) (obj ring ring' : List α) : Prop where
  length : ring'.length = ring.length
  placed : ∀ i < n, ring'[(idx + i) % size]? = obj[i]?
  others : ∀ j, (∀ i < n, (idx + i) % size ≠ j) → ring'[j]? = ring[j]?

theorem pushCopy_placed (slots : size ≤ ring.length) (start : idx < size) (few : n ≤ size)
    (batch : n ≤ obj.length) (narrow : idx + n < 2 ^ 32) :
    ∃ ring', pushCopy ring size idx n obj = .ok ring' ∧ Placed size idx n obj ring ring' := by
  rw [pushCopy_eq narrow]
  by_cases straight : idx + n < size
  · rw [if_pos straight]
    obtain ⟨ring', run, copied⟩ :=
      copyRun_copied (show idx + n ≤ ring.length by omega) (show 0 + n ≤ obj.length by omega)
    refine ⟨ring', run, copied.length, ?_, ?_⟩
    · intro i small
      rw [wrap_index start (by omega), if_pos (by omega), copied.inside i small, Nat.zero_add]
    · intro j apart
      refine copied.outside j ?_
      by_contra within
      refine apart (j - idx) (by omega) ?_
      rw [wrap_index start (by omega), if_pos (by omega)]
      omega
  · -- `size - idx` objects up to the end, and the others from slot 0 on
    rw [if_neg straight]
    obtain ⟨ring₁, upper, copied₁⟩ := copyRun_copied
      (show idx + (size - idx) ≤ ring.length by omega)
      (show 0 + (size - idx) ≤ obj.length by omega)
    have same := copied₁.length
    obtain ⟨ring₂, lower, copied₂⟩ := copyRun_copied
      (show 0 + (n - (size - idx)) ≤ ring₁.length by omega)
      (show size - idx + (n - (size - idx)) ≤ obj.length by omega)
    refine ⟨ring₂, ?_, copied₂.length.trans same, ?_, ?_⟩
    · rw [upper]
      exact lower
    · intro i small
      rw [wrap_index start (by omega)]
      split
      · rw [copied₂.outside _ (by omega), copied₁.inside i (by omega), Nat.zero_add]
      · have there := copied₂.inside (idx + i - size) (by omega)
        rw [Nat.zero_add] at there
        rw [there]
        congr 1
        omega
    · intro j apart
      rw [copied₂.outside j, copied₁.outside j]
      · by_contra within
        refine apart (j - idx) (by omega) ?_
        rw [wrap_index start (by omega), if_pos (by omega)]
        omega
      · by_contra within
        refine apart (j + size - idx) (by omega) ?_
        rw [wrap_index start (by omega), if_neg (by omega)]
        omega

/-- A pop copies the same slots into the array, and leaves what is behind them. -/
theorem popCopy_taken (slots : size ≤ ring.length) (start : idx < size) (few : n ≤ size)
    (room : n ≤ obj.length) (narrow : idx + n < 2 ^ 32) :
    ∃ obj', popCopy ring size idx n obj = .ok obj' ∧
      (∀ i < n, obj'[i]? = ring[(idx + i) % size]?) ∧ ∀ j ≥ n, obj'[j]? = obj[j]? := by
  rw [popCopy_eq narrow]
  by_cases straight : idx + n < size
  · rw [if_pos straight]
    obtain ⟨obj', run, copied⟩ :=
      copyRun_copied (show 0 + n ≤ obj.length by omega) (show idx + n ≤ ring.length by omega)
    refine ⟨obj', run, ?_, ?_⟩
    · intro i small
      have there := copied.inside i small
      rw [Nat.zero_add] at there
      rw [wrap_index start (by omega), if_pos (by omega), there]
    · intro j behind
      exact copied.outside j (by omega)
  · rw [if_neg straight]
    obtain ⟨obj₁, upper, copied₁⟩ := copyRun_copied
      (show 0 + (size - idx) ≤ obj.length by omega)
      (show idx + (size - idx) ≤ ring.length by omega)
    have same := copied₁.length
    obtain ⟨obj₂, lower, copied₂⟩ := copyRun_copied
      (show size - idx + (n - (size - idx)) ≤ obj₁.length by omega)
      (show 0 + (n - (size - idx)) ≤ ring.length by omega)
    refine ⟨obj₂, ?_, ?_, ?_⟩
    · rw [upper]
      exact lower
    · intro i small
      rw [wrap_index start (by omega)]
      split
      · have there := copied₁.inside i (by omega)
        rw [Nat.zero_add] at there
        rw [copied₂.outside i (by omega), there]
      · have there := copied₂.inside (i - (size - idx)) (by omega)
        rw [Nat.zero_add, show size - idx + (i - (size - idx)) = i by omega] at there
        rw [there]
        congr 1
        omega
    · intro j behind
      rw [copied₂.outside j (by omega), copied₁.outside j (by omega)]

/-- What a push has copied comes back in the same order. -/
theorem Placed.popCopy {ring' out : List α} (placed : Placed size idx n obj ring ring')
    (slots : size ≤ ring.length) (start : idx < size) (few : n ≤ size) (batch : n ≤ obj.length)
    (room : n ≤ out.length) (narrow : idx + n < 2 ^ 32) :
    Ring.popCopy ring' size idx n out = .ok (obj.take n ++ out.drop n) := by
  obtain ⟨out', popped, taken, behind⟩ :=
    popCopy_taken (show size ≤ ring'.length by rw [placed.length]; exact slots) start few room narrow
  have objects : (obj.take n).length = n := by
    rw [List.length_take]
    omega
  rw [popped]
  congr 1
  apply List.ext_getElem?
  intro j
  by_cases small : j < n
  · rw [taken j small, placed.placed j small, List.getElem?_append_left (by omega),
      List.getElem?_take_of_lt small]
  · rw [behind j (by omega), List.getElem?_append_right (by omega), objects, List.getElem?_drop]
    congr 1
    omega

/-- **Batches are copied slot by slot.** The loops of `gp_ring_push` put object `i` into
slot `(idx + i) % size` and change no other slot, wherever the batch starts and ends;
the loops of `gp_ring_pop` return these objects in order. -/
theorem loops_copy_batch {out : List α} (int : ring.length < 2 ^ 31) (start : idx < ring.length)
    (few : n ≤ ring.length) (batch : n ≤ obj.length) (room : n ≤ out.length) :
    ∃ ring', pushLoops ring ring.length idx n obj = .ok ring' ∧
      Placed ring.length idx n obj ring ring' ∧
      popLoops ring' ring.length idx n out = .ok (obj.take n ++ out.drop n) := by
  have narrow : idx + n < 2 ^ 32 := by omega
  obtain ⟨ring', pushed, placed⟩ :=
    pushCopy_placed (Nat.le_refl ring.length) start few batch narrow
  refine ⟨ring', ?_, placed, ?_⟩
  · rw [pushLoops_eq narrow (Nat.le_of_lt start)]
    exact pushed
  · rw [popLoops_eq narrow (Nat.le_of_lt start)]
    exact placed.popCopy (Nat.le_refl ring.length) start few batch room narrow

/-- Four objects from slot 5 of 7 on. -/
theorem loops_copy_batch_wrapped :
    ∃ ring', pushLoops [10, 11, 12, 13, 14, 15, 16] 7 5 4 [1, 2, 3, 4] = .ok ring' ∧
      Placed 7 5 4 [1, 2, 3, 4] [10, 11, 12, 13, 14, 15, 16] ring' ∧
      popLoops ring' 7 5 4 [0, 0, 0, 0, 9] = .ok [1, 2, 3, 4, 9] :=
  loops_copy_batch (by decide) (by decide) (by decide) (by decide) (by decide)

/-- A batch that ends with the last slot. -/
example : pushLoops [10, 11, 12, 13, 14] 5 2 3 [1, 2, 3] = .ok [10, 11, 1, 2, 3] := rfl

end Batch

end GpBase.Ring

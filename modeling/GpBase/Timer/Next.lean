import GpBase.Timer.Pass

/-!
# The next expiry

`gp_next_timer` looks through `tv1` from the current slot on, and then through the
later vectors, from the next slot that will be cascaded on. It goes on to another
vector as long as the timer it has found may not be the first: as long as it lies in
the block with which the next slot of that vector starts. All timers it compares are
in one such block, so that their 32-bit expiries are in the order of their deadlines.
-/

namespace GpBase.Timer

open GpBase.Lib GpTimerBase

/-! ## Blocks -/

/-- The first block of vector `l` that starts at `J` or later. -/
def firstBlock (J l : Nat) : Nat := (J + (2 ^ shift l - 1)) / 2 ^ shift l

theorem le_firstBlock (J l : Nat) : J ≤ 2 ^ shift l * firstBlock J l := by
  have pos := Nat.two_pow_pos (shift l)
  have := Nat.lt_mul_div_succ (J + (2 ^ shift l - 1)) pos
  rw [Nat.mul_succ] at this
  unfold firstBlock
  omega

theorem firstBlock_le {J l m : Nat} (later : J ≤ 2 ^ shift l * m) : firstBlock J l ≤ m := by
  have pos := Nat.two_pow_pos (shift l)
  refine Nat.lt_succ_iff.mp (Nat.div_lt_of_lt_mul ?_)
  rw [Nat.mul_succ]
  omega

theorem shift_succ {l : Nat} (pos : 1 ≤ l) : shift (l + 1) = shift l + tvnBits := by
  obtain ⟨n, rfl⟩ := Nat.exists_eq_add_of_le' pos
  unfold shift
  rw [Nat.add_sub_cancel, Nat.add_sub_cancel, Nat.succ_mul, Nat.add_assoc]

theorem two_pow_shift_succ {l : Nat} (pos : 1 ≤ l) :
    2 ^ shift (l + 1) = 2 ^ shift l * tvnSize := by
  rw [shift_succ pos, Nat.pow_add]
  rfl

theorem firstBlock_succ (J : Nat) {l : Nat} (pos : 1 ≤ l) :
    firstBlock J (l + 1) = (firstBlock J l + tvnMask) / tvnSize := by
  have width := Nat.two_pow_pos (shift l)
  unfold firstBlock
  rw [two_pow_shift_succ pos, ← Nat.div_div_eq_div_mul, ← Nat.add_mul_div_left _ _ width]
  congr 2
  unfold tvnSize tvnMask
  omega

theorem div_shift_succ (E : Nat) {l : Nat} (pos : 1 ≤ l) :
    E / 2 ^ shift (l + 1) = E / 2 ^ shift l / tvnSize := by
  rw [two_pow_shift_succ pos, Nat.div_div_eq_div_mul]

/-- The timers of a vector, and of those behind it, are not before its first block. -/
theorem Place.firstBlock_le {J E l l' i : Nat} (place : Place J E l' i) (pos : 1 ≤ l)
    (le : l ≤ l') : firstBlock J l ≤ E / 2 ^ shift l := by
  cases place with
  | root => omega
  | wheel _ _ low _ _ =>
      -- the blocks of a later vector are made of whole blocks of this one
      have finer : 2 ^ shift l ∣ 2 ^ shift l' := by
        apply Nat.pow_dvd_pow
        unfold shift
        have := Nat.mul_le_mul_right tvnBits (Nat.sub_le_sub_right le 1)
        omega
      have aligned : 2 ^ shift l ∣ block l' E := finer.trans (Nat.dvd_mul_right _ _)
      obtain ⟨m, start⟩ := aligned
      have reached : 2 ^ shift l * m ≤ E := start ▸ block_le l' E
      refine (Timer.firstBlock_le (start ▸ low)).trans ?_
      rwa [Nat.le_div_iff_mul_le (Nat.two_pow_pos _), Nat.mul_comm]

/-- A vector holds the 64 blocks from its first one on, each in its slot. -/
theorem Place.lt_firstBlock {J E l i : Nat} (place : Place J E l i) (pos : 1 ≤ l) :
    E / 2 ^ shift l < firstBlock J l + tvnSize ∧ i = E / 2 ^ shift l % tvnSize := by
  cases place with
  | root => omega
  | wheel _ _ _ high slot =>
      refine ⟨?_, slot⟩
      have start := le_firstBlock J l
      rw [block, Nat.pow_add, show 2 ^ tvnBits = tvnSize from rfl] at high
      have below : 2 ^ shift l * (E / 2 ^ shift l) < 2 ^ shift l * (firstBlock J l + tvnSize) := by
        rw [Nat.mul_add]
        omega
      exact Nat.lt_of_mul_lt_mul_left below

theorem lt_of_block_lt {E E' l : Nat} (before : E / 2 ^ shift l < E' / 2 ^ shift l) : E < E' := by
  by_contra later
  have := Nat.div_le_div_right (c := 2 ^ shift l) (Nat.le_of_not_lt later)
  omega

/-- In one block the 32-bit expiries are in the order of the deadlines. -/
theorem expires_lt_iff {E E' l : Nat} (top : l ≤ 5)
    (same : E / 2 ^ shift l = E' / 2 ^ shift l) : E % 2 ^ 32 < E' % 2 ^ 32 ↔ E < E' := by
  have narrow : shift l ≤ 32 := by
    unfold shift tvrBits tvnBits
    omega
  -- a block does not cross a wrap of the counter
  have round : ∀ n, n / 2 ^ 32 = n / 2 ^ shift l / 2 ^ (32 - shift l) := by
    intro n
    rw [Nat.div_div_eq_div_mul, ← Nat.pow_add, Nat.add_sub_cancel' narrow]
  have : E / 2 ^ 32 = E' / 2 ^ 32 := by rw [round, round, same]
  omega

/-! ## Slots -/

section Search

variable {b : GpTimerBase} {J : Nat} {rate : TimerId → Option Nat} {P : Pending}
  {cover : List TimerId}

/-- A timer with deadline `E` is in vector `l`. -/
def InVector (b : GpTimerBase) (P : Pending) (l E : Nat) : Prop :=
  ∃ i id, id ∈ b.vec l i ∧ P.due id = some E

theorem Ready.expiresOf (r : Ready b J rate P cover) {l i : Nat} {id : TimerId}
    (mem : id ∈ b.vec l i) :
    ∃ E, P.due id = some E ∧ b.expiresOf id = E % 2 ^ 32 ∧ Place J E l i := by
  obtain ⟨t, E, live, due, expires, place⟩ := r.placed.place_of_mem mem
  refine ⟨E, due, ?_, place⟩
  rw [GpTimerBase.expiresOf, live]
  exact expires

/-- A timer that is pending is in one of the five vectors. -/
theorem Ready.inVector (r : Ready b J rate P cover) {id : TimerId} {E : Nat}
    (due : P.due id = some E) : ∃ l, l < 5 ∧ InVector b P l E := by
  obtain ⟨t, l, i, _, _, mem, _, place⟩ := r.placed.armed_of_due due
  refine ⟨l, ?_, i, id, mem, due⟩
  cases place with
  | root => decide
  | wheel _ top _ _ _ => omega

theorem Ready.place_inVector (r : Ready b J rate P cover) {l E : Nat} (inside : InVector b P l E) :
    ∃ i id, id ∈ b.vec l i ∧ P.due id = some E ∧ b.expiresOf id = E % 2 ^ 32 ∧ Place J E l i := by
  obtain ⟨i, id, mem, due⟩ := inside
  obtain ⟨E', due', expires, place⟩ := r.expiresOf mem
  rw [due] at due'
  cases due'
  exact ⟨i, id, mem, due, expires, place⟩

/-- The timers of block `q` of vector `l` are in its slot. -/
theorem Ready.mem_block (r : Ready b J rate P cover) {l E : Nat} (pos : 1 ≤ l)
    (inside : InVector b P l E) :
    ∃ id ∈ b.vec l (E / 2 ^ shift l % tvnSize), P.due id = some E := by
  obtain ⟨i, id, mem, due, _, place⟩ := r.place_inVector inside
  have slot := (place.lt_firstBlock pos).2
  exact ⟨id, slot ▸ mem, due⟩

/-- Only the timers of block `firstBlock J l + k` are in its slot. -/
theorem Ready.block_of_mem (r : Ready b J rate P cover) {l k : Nat} {id : TimerId} (pos : 1 ≤ l)
    (inside : k < tvnSize) (mem : id ∈ b.vec l ((firstBlock J l + k) % tvnSize)) :
    ∃ E, P.due id = some E ∧ b.expiresOf id = E % 2 ^ 32 ∧
      E / 2 ^ shift l = firstBlock J l + k := by
  obtain ⟨E, due, expires, place⟩ := r.expiresOf mem
  refine ⟨E, due, expires, ?_⟩
  have low := place.firstBlock_le pos (le_refl l)
  obtain ⟨high, slot⟩ := place.lt_firstBlock pos
  unfold tvnSize at inside high slot
  omega

/-- The deadline of the first timer, or of one behind it. -/
theorem found_cons {id : TimerId} {ids : List TimerId} {E E₁ : Nat} (due : P.due id = some E₁)
    (found : E = E₁ ∨ ∃ id' ∈ ids, P.due id' = some E) :
    ∃ id' ∈ id :: ids, P.due id' = some E := by
  rcases found with rfl | ⟨id', mem, due'⟩
  · exact ⟨id, List.mem_cons_self, due⟩
  · exact ⟨id', List.mem_cons_of_mem _ mem, due'⟩

theorem least_cons {id : TimerId} {ids : List TimerId} {E E₁ : Nat} (due : P.due id = some E₁)
    (le : E ≤ E₁) (least : ∀ id' ∈ ids, ∀ E', P.due id' = some E' → E ≤ E') :
    ∀ id' ∈ id :: ids, ∀ E', P.due id' = some E' → E ≤ E' := by
  intro id' mem E' due'
  rcases List.mem_cons.mp mem with rfl | mem
  · rw [due] at due'
    cases due'
    exact le
  · exact least id' mem E' due'

/-- The loop over the timers of a slot, all of one block: the earliest of them and of
the candidate so far. -/
theorem foldl_earliest {l q : Nat} (top : l ≤ 5) {ids : List TimerId} {E₀ : Nat}
    (start : E₀ / 2 ^ shift l = q)
    (block : ∀ id ∈ ids, ∃ E, P.due id = some E ∧ b.expiresOf id = E % 2 ^ 32 ∧
      E / 2 ^ shift l = q) :
    ∃ E, ids.foldl (fun (acc : Nat) id =>
        if (b.expiresOf id : Int) - acc < 0 then b.expiresOf id else acc) (E₀ % 2 ^ 32) =
          E % 2 ^ 32 ∧
      E / 2 ^ shift l = q ∧ E ≤ E₀ ∧ (E = E₀ ∨ ∃ id ∈ ids, P.due id = some E) ∧
      ∀ id ∈ ids, ∀ E', P.due id = some E' → E ≤ E' := by
  induction ids generalizing E₀ with
  | nil => exact ⟨E₀, rfl, start, le_refl _, .inl rfl, by simp⟩
  | cons id ids ih =>
      obtain ⟨E₁, due₁, expires₁, block₁⟩ := block id List.mem_cons_self
      have others : ∀ id' ∈ ids, ∃ E, P.due id' = some E ∧ b.expiresOf id' = E % 2 ^ 32 ∧
          E / 2 ^ shift l = q := fun id' mem => block id' (List.mem_cons_of_mem _ mem)
      have order := expires_lt_iff top (block₁.trans start.symm)
      rw [List.foldl_cons, expires₁]
      -- the code compares expiries, which are in the order of the deadlines here
      by_cases earlier : E₁ < E₀
      · have less := order.mpr earlier
        rw [if_pos (by omega)]
        obtain ⟨E, folded, inBlock, le, found, least⟩ := ih block₁ others
        exact ⟨E, folded, inBlock, by omega, .inr (found_cons due₁ found),
          least_cons due₁ le least⟩
      · have notLess := mt order.mp earlier
        rw [if_neg (by omega)]
        obtain ⟨E, folded, inBlock, le, found, least⟩ := ih start others
        refine ⟨E, folded, inBlock, le, ?_, least_cons due₁ (by omega) least⟩
        rcases found with rfl | ⟨id', mem, due⟩
        · exact .inl rfl
        · exact .inr ⟨id', List.mem_cons_of_mem _ mem, due⟩

/-- The same without a candidate. -/
theorem foldl_earliest_of_none {l q : Nat} (top : l ≤ 5) {id : TimerId} {ids : List TimerId}
    (block : ∀ id' ∈ id :: ids, ∃ E, P.due id' = some E ∧ b.expiresOf id' = E % 2 ^ 32 ∧
      E / 2 ^ shift l = q) :
    ∃ E, (id :: ids).foldl (fun (acc : Nat) id =>
        if (b.expiresOf id : Int) - acc < 0 then b.expiresOf id else acc) maxTval = E % 2 ^ 32 ∧
      E / 2 ^ shift l = q ∧ (∃ id' ∈ id :: ids, P.due id' = some E) ∧
      ∀ id' ∈ id :: ids, ∀ E', P.due id' = some E' → E ≤ E' := by
  obtain ⟨E₁, due₁, expires₁, block₁⟩ := block id List.mem_cons_self
  -- no expiry is above `MAX_TVAL`, so the first timer always replaces it
  have first : (if (b.expiresOf id : Int) - maxTval < 0 then b.expiresOf id else maxTval) =
      E₁ % 2 ^ 32 := by
    rw [expires₁]
    split
    · rfl
    · unfold maxTval at *
      omega
  obtain ⟨E, folded, inBlock, le, found, least⟩ :=
    foldl_earliest top block₁ (fun id' mem => block id' (List.mem_cons_of_mem _ mem))
  refine ⟨E, ?_, inBlock, found_cons due₁ found, least_cons due₁ le least⟩
  rw [List.foldl_cons, first, folded]

/-! ## The search -/

theorem next_slot (n : Nat) : (n % tvnSize + 1) &&& tvnMask = (n + 1) % tvnSize := by
  rw [show tvnMask = 2 ^ 6 - 1 from rfl, Nat.and_two_pow_sub_one_eq_mod]
  unfold tvnSize
  omega

theorem next_root_slot (n : Nat) : (n % tvrSize + 1) &&& tvrMask = (n + 1) % tvrSize := by
  rw [show tvrMask = 2 ^ 8 - 1 from rfl, Nat.and_two_pow_sub_one_eq_mod]
  unfold tvrSize
  omega

/-- An empty slot means that the timers of the vector are in later blocks. -/
theorem Ready.skip_block (r : Ready b J rate P cover) {l k : Nat} (pos : 1 ≤ l)
    (skipped : ∀ E, InVector b P l E → firstBlock J l + k ≤ E / 2 ^ shift l)
    (empty : b.vec l ((firstBlock J l + k) % tvnSize) = []) :
    ∀ E, InVector b P l E → firstBlock J l + (k + 1) ≤ E / 2 ^ shift l := by
  intro E inside
  have := skipped E inside
  obtain ⟨id, mem, _⟩ := r.mem_block pos inside
  have apart : E / 2 ^ shift l ≠ firstBlock J l + k := by
    intro here
    rw [here, empty] at mem
    cases mem
  omega

/-- The search of a vector, when nothing has been found before it: its earliest timer,
and whether that one is before the next block of the vector behind it. -/
theorem Ready.searchVector_none (r : Ready b J rate P cover) {l : Nat} (pos : 1 ≤ l)
    (top : l ≤ 5) {rounds k : Nat} (inside : k < tvnSize) (total : k + rounds = tvnSize)
    (skipped : ∀ E, InVector b P l E → firstBlock J l + k ≤ E / 2 ^ shift l) :
    (b.searchVector l (firstBlock J l % tvnSize) rounds ((firstBlock J l + k) % tvnSize)
        false maxTval = (false, maxTval, false) ∧ ∀ E, ¬ InVector b P l E) ∨
      ∃ E k', b.searchVector l (firstBlock J l % tvnSize) rounds
          ((firstBlock J l + k) % tvnSize) false maxTval =
            (true, E % 2 ^ 32, !(firstBlock J l % tvnSize = 0 ||
              (firstBlock J l + k') % tvnSize < firstBlock J l % tvnSize)) ∧
        InVector b P l E ∧ (∀ E', InVector b P l E' → E ≤ E') ∧ k' < tvnSize ∧
        E / 2 ^ shift l = firstBlock J l + k' := by
  induction rounds generalizing k with
  | zero => omega
  | succ rounds ih =>
      unfold searchVector
      cases list : b.vec l ((firstBlock J l + k) % tvnSize) with
      | nil =>
          have later := r.skip_block pos skipped list
          simp only [List.foldl_nil, List.isEmpty_nil, Bool.not_true, Bool.or_false,
            Bool.false_eq_true, if_false, next_slot]
          -- an empty slot: once around, or on to the next one
          by_cases last : k + 1 = tvnSize
          · have wrapped : (firstBlock J l + k + 1) % tvnSize = firstBlock J l % tvnSize := by
              unfold tvnSize at last ⊢
              omega
            rw [if_pos wrapped]
            refine .inl ⟨rfl, ?_⟩
            intro E inVector
            have := later E inVector
            obtain ⟨_, _, _, _, _, place⟩ := r.place_inVector inVector
            have := (place.lt_firstBlock pos).1
            omega
          · have onward : (firstBlock J l + k + 1) % tvnSize ≠ firstBlock J l % tvnSize := by
              unfold tvnSize at inside last ⊢
              omega
            rw [if_neg onward]
            exact ih (by omega) (by omega) later
      | cons id ids =>
          -- the first slot with timers: all of them are of one block
          have block : ∀ id' ∈ id :: ids, ∃ E, P.due id' = some E ∧
              b.expiresOf id' = E % 2 ^ 32 ∧ E / 2 ^ shift l = firstBlock J l + k :=
            fun id' mem => r.block_of_mem pos inside (list ▸ mem)
          obtain ⟨E, folded, inBlock, ⟨id', mem, due⟩, least⟩ := foldl_earliest_of_none top block
          refine .inr ⟨E, k, ?_, ⟨_, id', list ▸ mem, due⟩, ?_, inside, inBlock⟩
          · simp only [folded, List.isEmpty_cons, Bool.not_false, Bool.or_true, if_true]
          · intro E' inVector
            have notBefore := skipped E' inVector
            rcases Nat.eq_or_lt_of_le notBefore with here | after
            · obtain ⟨id'', mem'', due''⟩ := r.mem_block pos inVector
              rw [← here, list] at mem''
              exact least id'' mem'' E' due''
            · exact (lt_of_block_lt (inBlock ▸ after)).le

/-- The same when a timer of the first block has been found: only that block counts. -/
theorem Ready.searchVector_found (r : Ready b J rate P cover) {l : Nat} (pos : 1 ≤ l)
    (top : l ≤ 5) {E₀ : Nat} (candidate : E₀ / 2 ^ shift l = firstBlock J l) :
    ∃ E, b.searchVector l (firstBlock J l % tvnSize) tvnSize (firstBlock J l % tvnSize) true
        (E₀ % 2 ^ 32) = (true, E % 2 ^ 32, !decide (firstBlock J l % tvnSize = 0)) ∧
      (E = E₀ ∨ InVector b P l E) ∧ E ≤ E₀ ∧ (∀ E', InVector b P l E' → E ≤ E') ∧
      E / 2 ^ shift l = firstBlock J l := by
  have block : ∀ id ∈ b.vec l (firstBlock J l % tvnSize), ∃ E, P.due id = some E ∧
      b.expiresOf id = E % 2 ^ 32 ∧ E / 2 ^ shift l = firstBlock J l :=
    fun id mem => r.block_of_mem (k := 0) pos (by decide) mem
  obtain ⟨E, folded, inBlock, le, found, least⟩ := foldl_earliest top candidate block
  refine ⟨E, ?_, ?_, le, ?_, inBlock⟩
  · show b.searchVector l _ (63 + 1) _ true _ = _
    unfold searchVector
    simp only [folded, Bool.true_or, if_true, Nat.lt_irrefl, decide_false, Bool.or_false]
  · rcases found with same | ⟨id, mem, due⟩
    · exact .inl same
    · exact .inr ⟨_, id, mem, due⟩
  · intro E' inVector
    obtain ⟨_, _, _, _, _, place⟩ := r.place_inVector inVector
    rcases Nat.eq_or_lt_of_le (place.firstBlock_le pos (le_refl l)) with here | after
    · obtain ⟨id, mem, due⟩ := r.mem_block pos inVector
      rw [← here] at mem
      exact least id mem E' due
    · exact (lt_of_block_lt (inBlock ▸ after)).le

/-- `v` is the expiry of the first timer that is due, if one is pending. -/
def Earliest (P : Pending) (v : Nat) : Prop :=
  ∀ id E, P.due id = some E → (∀ id' E', P.due id' = some E' → E ≤ E') → v = E % 2 ^ 32

/-- What is known before vector `l` is searched: the vectors before it are empty, or
their earliest timer is in the first block of vector `l`. -/
def Searched (b : GpTimerBase) (P : Pending) (J l : Nat) (found : Bool) (expires : Nat) : Prop :=
  if found then ∃ E, (∃ l', l' < l ∧ InVector b P l' E) ∧ expires = E % 2 ^ 32 ∧
    E / 2 ^ shift l = firstBlock J l ∧ ∀ l' E', l' < l → InVector b P l' E' → E ≤ E'
  else expires = maxTval ∧ ∀ l' E', l' < l → ¬ InVector b P l' E'

/-- A timer that no vector up to `l` beats, and that is before the first block of the
vector behind `l`, is the first. -/
theorem Ready.earliest (r : Ready b J rate P cover) {l E : Nat}
    (some : ∃ l', InVector b P l' E) (least : ∀ l' E', l' ≤ l → InVector b P l' E' → E ≤ E')
    (before : E / 2 ^ shift (l + 1) < firstBlock J (l + 1)) : Earliest P (E % 2 ^ 32) := by
  obtain ⟨_, _, id₀, _, due₀⟩ := some
  intro id E₁ due first
  have le₁ : E₁ ≤ E := first id₀ E due₀
  obtain ⟨l₁, _, inVector⟩ := r.inVector due
  have le : E ≤ E₁ := by
    -- what is in a vector behind `l` is not before the first block there
    rcases Nat.lt_or_ge l l₁ with behind | upTo
    · obtain ⟨_, _, _, _, _, place⟩ := r.place_inVector inVector
      have := place.firstBlock_le (l := l + 1) (by omega) behind
      exact (lt_of_block_lt (by omega : E / 2 ^ shift (l + 1) < E₁ / 2 ^ shift (l + 1))).le
    · exact least l₁ E₁ upTo inVector
  rw [Nat.le_antisymm le le₁]

/-- One vector. -/
theorem Ready.searchVector_spec (r : Ready b J rate P cover) {l : Nat} (pos : 1 ≤ l)
    (top : l ≤ 4) {found : Bool} {expires : Nat} (searched : Searched b P J l found expires) :
    ∃ found' expires' returned,
      b.searchVector l (firstBlock J l % tvnSize) tvnSize (firstBlock J l % tvnSize) found
          expires = (found', expires', returned) ∧
        if returned then Earliest P expires' else Searched b P J (l + 1) found' expires' := by
  have blocks := firstBlock_succ J pos
  have upTo : ∀ {l' : Nat}, l' < l + 1 → l' < l ∨ l' = l := by
    intro l' le
    omega
  cases found with
  | true =>
      -- a candidate from before: it stays or gives way to one of the first block
      obtain ⟨E₀, ⟨l₀, below₀, in₀⟩, rfl, candidate, least₀⟩ := searched
      obtain ⟨E, result, found, le, least, inBlock⟩ := r.searchVector_found pos (by omega) candidate
      have some : ∃ l', l' < l + 1 ∧ InVector b P l' E := by
        rcases found with rfl | here
        · exact ⟨l₀, by omega, in₀⟩
        · exact ⟨l, by omega, here⟩
      have all : ∀ l' E', l' < l + 1 → InVector b P l' E' → E ≤ E' := by
        intro l' E' low inVector
        rcases upTo low with below | rfl
        · exact le.trans (least₀ l' E' below inVector)
        · exact least E' inVector
      refine ⟨_, _, _, result, ?_⟩
      have quotient := div_shift_succ E pos
      rw [inBlock] at quotient
      split
      · rename_i inside
        refine r.earliest (l := l) (some.imp fun _ h => h.2) (fun l' E' h => all l' E' (by omega)) ?_
        simp only [Bool.not_eq_true', decide_eq_false_iff_not] at inside
        rw [quotient, blocks]
        unfold tvnSize tvnMask at *
        omega
      · rename_i edge
        simp only [Bool.not_eq_true', decide_eq_false_iff_not, not_not] at edge
        refine ⟨E, some, rfl, ?_, all⟩
        rw [quotient, blocks]
        unfold tvnSize tvnMask at *
        omega
  | false =>
      -- nothing so far: the earliest timer of this vector, if it has any
      obtain ⟨rfl, none₀⟩ := searched
      have skipped : ∀ E, InVector b P l E → firstBlock J l + 0 ≤ E / 2 ^ shift l := by
        intro E inVector
        obtain ⟨_, _, _, _, _, place⟩ := r.place_inVector inVector
        exact place.firstBlock_le pos (le_refl l)
      rcases r.searchVector_none pos (by omega) (k := 0) (by decide) (Nat.zero_add _) skipped with
        ⟨result, none⟩ | ⟨E, k, result, inVector, least, inside, inBlock⟩
      · refine ⟨_, _, _, result, rfl, ?_⟩
        intro l' E' low
        rcases upTo low with below | rfl
        · exact none₀ l' E' below
        · exact none E'
      · have all : ∀ l' E', l' < l + 1 → InVector b P l' E' → E ≤ E' := by
          intro l' E' low inVector'
          rcases upTo low with below | rfl
          · exact absurd inVector' (none₀ l' E' below)
          · exact least E' inVector'
        refine ⟨_, _, _, result, ?_⟩
        have quotient := div_shift_succ E pos
        rw [inBlock] at quotient
        split
        · rename_i returned
          refine r.earliest (l := l) ⟨l, inVector⟩ (fun l' E' h => all l' E' (by omega)) ?_
          simp only [Bool.not_eq_true', Bool.or_eq_false_iff, decide_eq_false_iff_not] at returned
          rw [quotient, blocks]
          unfold tvnSize tvnMask at *
          omega
        · rename_i edge
          simp only [Bool.not_eq_true', Bool.or_eq_false_iff, decide_eq_false_iff_not] at edge
          refine ⟨E, ⟨l, by omega, inVector⟩, rfl, ?_, all⟩
          rw [quotient, blocks]
          unfold tvnSize tvnMask at *
          omega

/-- The counter of `gp_next_timer` at vector `l`: its first block, as far as 32 bits
show it. -/
structure Counts (J l j : Nat) : Prop where
  small : j ≤ 2 ^ 24
  block : j % 2 ^ (32 - shift l) = firstBlock J l % 2 ^ (32 - shift l)

theorem Counts.slot {l j : Nat} (counts : Counts J l j) (top : l ≤ 4) :
    j &&& tvnMask = firstBlock J l % tvnSize := by
  rw [show tvnMask = 2 ^ 6 - 1 from rfl, Nat.and_two_pow_sub_one_eq_mod]
  have wide : 2 ^ 6 ∣ 2 ^ (32 - shift l) := by
    apply Nat.pow_dvd_pow
    unfold shift tvrBits tvnBits
    omega
  rw [← Nat.mod_mod_of_dvd j wide, counts.block, Nat.mod_mod_of_dvd _ wide]
  rfl

theorem Counts.next {l j : Nat} (counts : Counts J l j) (pos : 1 ≤ l) (top : l ≤ 4) :
    Counts J (l + 1)
      ((if j &&& tvnMask ≠ 0 then uint32 (j + (tvnSize - (j &&& tvnMask : Nat))) else j) >>>
        tvnBits) := by
  have small := counts.small
  -- the code rounds up to the next slot of the vector behind this one
  have rounded : (if j &&& tvnMask ≠ 0 then uint32 (j + (tvnSize - (j &&& tvnMask : Nat))) else j) >>>
      tvnBits = (j + tvnMask) / tvnSize := by
    rw [show tvnMask = 2 ^ 6 - 1 from rfl, Nat.and_two_pow_sub_one_eq_mod, Nat.shiftRight_eq_div_pow]
    unfold uint32 tvnBits tvnSize
    split <;> omega
  rw [rounded]
  have split : 2 ^ (32 - shift l) = tvnSize * 2 ^ (32 - shift (l + 1)) := by
    rw [show tvnSize = 2 ^ tvnBits from rfl, ← Nat.pow_add]
    congr 1
    unfold shift tvrBits tvnBits
    omega
  refine ⟨?_, ?_⟩
  · unfold tvnMask tvnSize
    omega
  · rw [firstBlock_succ J pos, ← Nat.mod_mul_right_div_self, ← Nat.mod_mul_right_div_self, ← split,
      Nat.add_mod, counts.block, ← Nat.add_mod]

/-- The vectors from `l` on. -/
theorem Ready.searchVectors_spec (r : Ready b J rate P cover) {n l : Nat} (total : l + n = 5)
    (pos : 1 ≤ l) {j : Nat} (counts : Counts J l j) {found : Bool} {expires : Nat}
    (searched : Searched b P J l found expires) :
    Earliest P (b.searchVectors (List.range' l n) j found expires) := by
  induction n generalizing l j found expires with
  | zero =>
      obtain rfl : l = 5 := by omega
      intro id E due first
      obtain ⟨l', below, inVector⟩ := r.inVector due
      cases found with
      | true =>
          obtain ⟨E₀, ⟨l₀, _, i₀, id₀, _, due₀⟩, rfl, _, least⟩ := searched
          have le := least l' E below inVector
          rw [Nat.le_antisymm (first id₀ E₀ due₀) le]
          rfl
      | false => exact absurd inVector (searched.2 l' E below)
  | succ n ih =>
      rw [List.range'_succ]
      unfold searchVectors
      obtain ⟨found', expires', returned, result, spec⟩ :=
        r.searchVector_spec pos (by omega) searched
      simp only [counts.slot (by omega), result]
      cases returned with
      | true => exact spec
      | false =>
          simp only [Bool.false_eq_true, if_false] at spec ⊢
          have next := counts.next pos (by omega)
          rw [counts.slot (by omega)] at next
          exact ih (by omega) (by omega) next spec

/-- The search of `tv1`. -/
theorem Ready.searchRoot_spec (r : Ready b J rate P cover) {rounds k : Nat} (inside : k < tvrSize)
    (total : k + rounds = tvrSize) (skipped : ∀ E, InVector b P 0 E → J + k ≤ E) :
    (b.searchRoot (J % tvrSize) rounds ((J + k) % tvrSize) = none ∧ ∀ E, ¬ InVector b P 0 E) ∨
      ∃ k', b.searchRoot (J % tvrSize) rounds ((J + k) % tvrSize) =
          some ((J + k') % tvrSize, (J + k') % 2 ^ 32) ∧
        k' < tvrSize ∧ InVector b P 0 (J + k') ∧ ∀ E, InVector b P 0 E → J + k' ≤ E := by
  induction rounds generalizing k with
  | zero => omega
  | succ rounds ih =>
      unfold searchRoot
      cases list : b.vec 0 ((J + k) % tvrSize) with
      | nil =>
          have later : ∀ E, InVector b P 0 E → J + (k + 1) ≤ E := by
            intro E inVector
            have := skipped E inVector
            obtain ⟨i, id, mem, _, _, place⟩ := r.place_inVector inVector
            cases place with
            | root _ _ slot =>
                have apart : E ≠ J + k := by
                  rintro rfl
                  rw [slot, list] at mem
                  cases mem
                omega
            | wheel => omega
          simp only [next_root_slot]
          by_cases last : k + 1 = tvrSize
          · have wrapped : (J + k + 1) % tvrSize = J % tvrSize := by
              unfold tvrSize at last ⊢
              omega
            rw [if_pos wrapped]
            refine .inl ⟨rfl, ?_⟩
            intro E inVector
            have := later E inVector
            obtain ⟨_, _, _, _, _, place⟩ := r.place_inVector inVector
            cases place with
            | root _ high _ => omega
            | wheel => omega
          · have onward : (J + k + 1) % tvrSize ≠ J % tvrSize := by
              unfold tvrSize at inside last ⊢
              omega
            rw [if_neg onward]
            exact ih (by omega) (by omega) later
      | cons id ids =>
          have mem : id ∈ b.vec 0 ((J + k) % tvrSize) := list ▸ List.mem_cons_self
          obtain ⟨E, due, expires, place⟩ := r.expiresOf mem
          have here : E = J + k := by
            cases place with
            | root low high slot =>
                unfold tvrSize at inside high slot
                omega
            | wheel => omega
          subst here
          exact .inr ⟨k, by simp only [expires], inside, ⟨_, id, mem, due⟩, skipped⟩

/-- **`gp_next_timer`** finds the first timer that is due. -/
theorem Ready.gpNextTimer_spec (r : Ready b J rate P cover) : Earliest P b.gpNextTimer := by
  have ahead : ∀ E, InVector b P 0 E → J + 0 ≤ E := by
    intro E inVector
    obtain ⟨_, _, _, _, _, place⟩ := r.place_inVector inVector
    exact place.le
  have counts : Counts J 1 ((if J % tvrSize ≠ 0 then
      uint32 ((J % 2 ^ 32 : Nat) + (tvrSize - (J % tvrSize : Nat))) else J % 2 ^ 32) >>> tvrBits) := by
    rw [Nat.shiftRight_eq_div_pow]
    refine ⟨?_, ?_⟩
    · unfold uint32 tvrSize tvrBits
      split <;> omega
    · show _ % 2 ^ 24 = (J + 255) / 256 % 2 ^ 24
      unfold uint32 tvrSize tvrBits
      split <;> omega
  have first : firstBlock J 1 = (J + 255) / 256 := rfl
  have width : 2 ^ shift 1 = 256 := rfl
  unfold gpNextTimer
  simp only [r.jiffies, root_slot_eq]
  rcases r.searchRoot_spec (k := 0) (by decide) (Nat.zero_add _) ahead with
    ⟨result, none⟩ | ⟨k, result, inside, inVector, least⟩
  · rw [Nat.add_zero] at result
    simp only [result]
    have searched : Searched b P J 1 false maxTval := by
      refine ⟨rfl, ?_⟩
      intro l' E' below
      obtain rfl : l' = 0 := by omega
      exact none E'
    exact r.searchVectors_spec (n := 4) rfl (le_refl 1) counts searched
  · rw [Nat.add_zero] at result
    simp only [result]
    have least₁ : ∀ l' E', l' < 1 → InVector b P l' E' → J + k ≤ E' := by
      intro l' E' below
      obtain rfl : l' = 0 := by omega
      exact least E'
    split
    · -- the timer is in the block that the next cascade starts with
      rename_i edge
      have searched : Searched b P J 1 true ((J + k) % 2 ^ 32) := by
        refine ⟨J + k, ⟨0, by decide, inVector⟩, rfl, ?_, least₁⟩
        rw [first, width]
        unfold tvrSize at inside edge
        omega
      exact r.searchVectors_spec (n := 4) rfl (le_refl 1) counts searched
    · -- it comes before the next cascade, and so before all other vectors
      rename_i here
      refine r.earliest (l := 0) ⟨0, inVector⟩ (fun l' E' h => least₁ l' E' (by omega)) ?_
      rw [first, width]
      unfold tvrSize at inside here
      omega

end Search

end GpBase.Timer

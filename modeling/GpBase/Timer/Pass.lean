import GpBase.Timer.Wheel

/-!
# One pass of `gp_run_timers`

At tick `J` the slots whose block starts at `J` are cascaded, vector by vector;
after that every timer that is not in the slot of `tv1` for `J` is due later, and
every timer in that slot is due now.
-/

namespace GpBase.Timer

open GpBase.Lib GpTimerBase

/-- A loop over a list whose body takes its timer off the list: it handles the
timers in order, and hangs only for want of fuel. -/
theorem foreachLoop_drain {σ : Type} (wheel : σ → GpTimerBase)
    (body : σ → TimerId → Except Fault σ) {l i : Nat} {I : σ → List TimerId → Prop}
    (next : ∀ s id rest, I s (id :: rest) → (wheel s).listNext l i (some id) = .ok rest.head?)
    (step : ∀ s id rest, I s (id :: rest) → ∃ s', body s id = .ok s' ∧ I s' rest)
    {ids : List TimerId} {s : σ} (start : I s ids) (fuel : Nat) :
    (ids.length < fuel ∧
        ∃ s', foreachLoop wheel body l i fuel s ids.head? ids.tail.head? = .ok s' ∧ I s' []) ∨
      (fuel ≤ ids.length ∧
        foreachLoop wheel body l i fuel s ids.head? ids.tail.head? = .error .hang) := by
  induction ids generalizing s fuel with
  | nil =>
      cases fuel with
      | zero => exact .inr ⟨le_refl 0, rfl⟩
      | succ fuel => exact .inl ⟨Nat.succ_pos fuel, s, rfl, start⟩
  | cons id rest ih =>
      cases fuel with
      | zero => exact .inr ⟨Nat.zero_le _, rfl⟩
      | succ fuel =>
          obtain ⟨s', done, left⟩ := step s id rest start
          have follow : (wheel s').listNext l i rest.head? = .ok rest.tail.head? := by
            cases rest with
            | nil => rfl
            | cons id' rest => exact next s' id' rest left
          have unfold : foreachLoop wheel body l i (fuel + 1) s (id :: rest).head?
              (id :: rest).tail.head? =
                foreachLoop wheel body l i fuel s' rest.head? rest.tail.head? := by
            simp only [List.head?_cons, List.tail_cons, foreachLoop, done, bind, Except.bind, follow]
          rw [unfold, List.length_cons]
          rcases ih left fuel with ⟨enough, outcome⟩ | ⟨few, hung⟩
          · exact .inl ⟨by omega, outcome⟩
          · exact .inr ⟨by omega, hung⟩

theorem foreachSafe_drain {σ : Type} (wheel : σ → GpTimerBase)
    (body : σ → TimerId → Except Fault σ) {l i : Nat} {I : σ → List TimerId → Prop}
    (next : ∀ s id rest, I s (id :: rest) → (wheel s).listNext l i (some id) = .ok rest.head?)
    (step : ∀ s id rest, I s (id :: rest) → ∃ s', body s id = .ok s' ∧ I s' rest)
    {s : σ} (start : I s ((wheel s).vec l i)) (fuel : Nat) :
    (((wheel s).vec l i).length < fuel ∧
        ∃ s', foreachSafe fuel wheel body l i s = .ok s' ∧ I s' []) ∨
      (fuel ≤ ((wheel s).vec l i).length ∧
        foreachSafe fuel wheel body l i s = .error .hang) := by
  have follow : (wheel s).listNext l i ((wheel s).vec l i).head? =
      .ok ((wheel s).vec l i).tail.head? := by
    cases list : (wheel s).vec l i with
    | nil => rfl
    | cons id rest =>
        rw [list] at start
        exact next s id rest start
  have unfold : foreachSafe fuel wheel body l i s = foreachLoop wheel body l i fuel s
      ((wheel s).vec l i).head? ((wheel s).vec l i).tail.head? := by
    simp only [foreachSafe, bind, Except.bind, follow]
  rw [unfold]
  exact foreachLoop_drain wheel body next step start fuel

section Pass

variable {b : GpTimerBase} {J : Nat} {rate : TimerId → Option Nat} {P : Pending}
  {cover : List TimerId}

/-- The wheel is ready for the pass at tick `J`. -/
structure Ready (b : GpTimerBase) (J : Nat) (rate : TimerId → Option Nat) (P : Pending)
    (cover : List TimerId) : Prop where
  placed : Placed b (fun _ => Place J) rate P cover
  jiffies : b.timerJiffies = J % 2 ^ 32

theorem Wheel.ready (w : Wheel b J J P cover) : Ready b J (fun _ => none) P cover :=
  ⟨w.placed, w.jiffies⟩

theorem Ready.wheel (r : Ready b J (fun _ => none) P cover) : Wheel b J J P cover :=
  r.placed.wheel r.jiffies

/-- A wheel that has just been created. -/
theorem ready_createGpTimerBase (J : Nat) :
    Ready (createGpTimerBase (J % 2 ^ 32)) J (fun _ => none) ⟨fun _ => none, fun _ => none⟩ [] := by
  refine ⟨?_, rfl⟩
  constructor
  · intro id
    rfl
  · intro id t live
    cases live
  · intro id _
    rfl
  · intro id t live
    cases live
  · intro l i id
    constructor
    · intro mem
      cases mem
    · rintro ⟨_, ⟨⟩, _⟩
  · intro l i
    exact List.nodup_nil
  · intro id pending
    exact absurd rfl pending

/-! ## Cascades -/

/-- In the slot that is cascaded at `J`, every block starts at `J`. -/
theorem block_eq_of_slot {E l : Nat} (aligned : J % 2 ^ shift l = 0) (low : J ≤ block l E)
    (high : block l E < J + 2 ^ (shift l + tvnBits))
    (slot : J / 2 ^ shift l % tvnSize = E / 2 ^ shift l % tvnSize) : block l E = J := by
  have pos := Nat.two_pow_pos (shift l)
  obtain ⟨j, rfl⟩ := Nat.dvd_of_mod_eq_zero aligned
  rw [block] at low high ⊢
  rw [Nat.mul_div_cancel_left j pos] at slot
  rw [Nat.pow_add, show 2 ^ tvnBits = tvnSize from rfl, ← Nat.mul_add] at high
  have lower := Nat.le_of_mul_le_mul_left low pos
  have upper := Nat.lt_of_mul_lt_mul_left high
  have : E / 2 ^ shift l = j := by
    unfold tvnSize at slot upper
    omega
  rw [this]

/-- The timers of the vectors `1 … m`, slot `skip` of vector `m` left out, have
blocks that start after `J`. -/
def SettledBut (b : GpTimerBase) (J : Nat) (P : Pending) (m skip : Nat) : Prop :=
  ∀ l i id E, 1 ≤ l → l ≤ m → ¬ (l = m ∧ i = skip) → id ∈ b.vec l i → P.due id = some E →
    J < block l E

/-- The same for all slots of the vectors `1 … m`. -/
def Settled (b : GpTimerBase) (J : Nat) (P : Pending) (m : Nat) : Prop :=
  ∀ l i id E, 1 ≤ l → l ≤ m → id ∈ b.vec l i → P.due id = some E → J < block l E

/-- Disarming and arming again with the same deadline changes nothing. -/
theorem Pending.arm_disarm {id : TimerId} {E : Nat} (due : P.due id = some E) :
    (P.disarm id).arm id E = P := by
  unfold Pending.disarm Pending.arm
  simp only [Function.update_idem]
  rw [Function.update_eq_self_iff.mpr due.symm]

/-- The state of `cascade` on slot `skip` of vector `m` with `left` still on it. -/
structure Cascading (J : Nat) (rate : TimerId → Option Nat) (P : Pending) (cover : List TimerId)
    (m skip : Nat) (b : GpTimerBase) (left : List TimerId) : Prop where
  ready : Ready b J rate P cover
  list : b.vec m skip = left
  settled : SettledBut b J P m skip

theorem Cascading.step {m skip : Nat} {id : TimerId} {rest : List TimerId} (pos : 1 ≤ m)
    (aligned : J % 2 ^ shift m = 0) (slot : skip = J / 2 ^ shift m % tvnSize)
    (c : Cascading J rate P cover m skip b (id :: rest)) :
    ∃ b', cascadeOne b id = .ok b' ∧ Cascading J rate P cover m skip b' rest := by
  have mem : id ∈ b.vec m skip := c.list ▸ List.mem_cons_self
  obtain ⟨t, E, live, due, expires, place⟩ := c.ready.placed.place_of_mem mem
  -- the timer is in the block that starts now, so it goes to a lower vector
  have near : J ≤ E ∧ E < J + 2 ^ shift m := by
    refine ⟨place.le, ?_⟩
    cases place with
    | root => omega
    | wheel _ _ low high place =>
        have start := block_eq_of_slot aligned low high (slot.symm.trans place)
        have := lt_block_add m E
        omega
  obtain ⟨b₁, removed, p₁, jiffies₁, timers₁, vec₁⟩ := c.ready.placed.remove live
  have live₁ : b₁.timers id = some { t with node := none } := by
    rw [timers₁, Function.update_self]
  have idle₁ : (P.disarm id).due id = none := Function.update_self ..
  have wide : J + 2 ^ shift m ≤ J + 2 ^ 32 := by
    refine Nat.add_le_add_left (Nat.pow_le_pow_right (by omega) ?_) J
    cases place with
    | root => omega
    | wheel _ top _ _ _ =>
        unfold shift tvrBits tvnBits
        omega
  obtain ⟨b₂, l, i, added, p₂, jiffies₂, _, vec₂, ahead⟩ :=
    p₁.internalAdd (jiffies₁.trans c.ready.jiffies) live₁ idle₁ (E := E) expires near.1 (by omega)
      (fun l i place => place) (c.ready.placed.covered id (by simp [due]))
  rw [Pending.arm_disarm due] at p₂
  have lower : 1 ≤ l → l < m := by
    intro pos'
    have gap := (ahead pos').2
    have powers : 2 ^ shift l < 2 ^ shift m := by omega
    have := (Nat.pow_lt_pow_iff_right (by omega)).mp powers
    unfold shift tvrBits tvnBits at this
    omega
  have apart : ¬ (m = l ∧ skip = i) := by
    rintro ⟨rfl, _⟩
    exact Nat.lt_irrefl _ (lower pos)
  refine ⟨b₂, ?_, ⟨p₂, jiffies₂⟩, ?_, ?_⟩
  · have loop : t.hasLoop = true := (c.ready.placed.paced id t live).2
    simp only [cascadeOne, removed, bind, Except.bind, GpTimerBase.timer, live₁, loop,
      Bool.not_true, Bool.false_eq_true, if_false]
    exact added
  · rw [vec₂, if_neg apart, vec₁, c.list, List.erase_cons_head]
  · intro l' i' id' E' pos' top other mem' due'
    rw [vec₂] at mem'
    split at mem'
    · rename_i same
      rcases List.mem_append.mp mem' with old | new
      · rw [← same.1, ← same.2, vec₁] at old
        exact c.settled l' i' id' E' pos' top other (List.mem_of_mem_erase old) due'
      · rw [List.mem_singleton.mp new, due] at due'
        rw [← Option.some.inj due', same.1]
        exact (ahead (same.1 ▸ pos')).1
    · rw [vec₁] at mem'
      exact c.settled l' i' id' E' pos' top other (List.mem_of_mem_erase mem') due'

/-- `cascade` of the slot whose block starts now settles its vector. -/
theorem cascade_spec (r : Ready b J rate P cover) {m : Nat} (aligned : J % 2 ^ shift (m + 1) = 0)
    (settled : Settled b J P m) (fuel : Nat) :
    (∃ b', b.cascade fuel (m + 1) (J / 2 ^ shift (m + 1) % tvnSize) = .ok b' ∧
        Ready b' J rate P cover ∧ Settled b' J P (m + 1)) ∨
      (fuel ≤ cover.length ∧
        b.cascade fuel (m + 1) (J / 2 ^ shift (m + 1) % tvnSize) = .error .hang) := by
  have start : Cascading J rate P cover (m + 1) (J / 2 ^ shift (m + 1) % tvnSize) b
      (b.vec (m + 1) (J / 2 ^ shift (m + 1) % tvnSize)) := by
    refine ⟨r, rfl, ?_⟩
    intro l i id E pos top other mem due
    rcases Nat.lt_or_ge l (m + 1) with lower | upper
    · exact settled l i id E pos (by omega) mem due
    · -- same vector, another slot: its block is not the one that starts now
      obtain rfl : l = m + 1 := by omega
      obtain ⟨t, E', _, due', _, place⟩ := r.placed.place_of_mem mem
      rw [due] at due'
      cases due'
      cases place with
      | wheel _ _ low high slot =>
          refine Nat.lt_of_le_of_ne low ?_
          intro now
          apply other
          refine ⟨rfl, ?_⟩
          rw [slot, now, block, Nat.mul_div_cancel_left _ (Nat.two_pow_pos _)]
  rcases foreachSafe_drain id cascadeOne
      (I := fun b left =>
        Cascading J rate P cover (m + 1) (J / 2 ^ shift (m + 1) % tvnSize) b left)
      (fun b id rest c => c.ready.placed.listNext c.list)
      (fun b id rest c => c.step (Nat.succ_pos m) aligned rfl) start fuel with
    ⟨_, b', returned, done⟩ | ⟨few, hung⟩
  · refine .inl ⟨b', returned, done.ready, ?_⟩
    intro l i id E pos top mem due
    apply done.settled l i id E pos top ?_ mem due
    rintro ⟨rfl, rfl⟩
    have empty := done.list
    rw [empty] at mem
    cases mem
  · exact .inr ⟨few.trans (r.placed.length_le _ _), hung⟩

/-- Between two blocks of a vector, no block of it or of a later one starts. -/
theorem Ready.settle (r : Ready b J rate P cover) {n : Nat}
    (between : J % 2 ^ shift (n + 1) ≠ 0) (settled : Settled b J P n) (m : Nat) :
    Settled b J P m := by
  intro l i id E pos top mem due
  rcases Nat.lt_or_ge l (n + 1) with lower | upper
  · exact settled l i id E pos (by omega) mem due
  · obtain ⟨t, E', _, due', _, place⟩ := r.placed.place_of_mem mem
    rw [due] at due'
    cases due'
    cases place with
    | root => omega
    | wheel _ _ low _ _ =>
        refine Nat.lt_of_le_of_ne low ?_
        intro start
        apply between
        have finer : shift (n + 1) ≤ shift l := by
          unfold shift tvnBits
          omega
        rw [start, ← Nat.mod_mod_of_dvd _ (Nat.pow_dvd_pow 2 finer), block_mod, Nat.zero_mod]

theorem Ready.index_eq (r : Ready b J rate P cover) {n : Nat} (small : n ≤ 3) :
    b.index n = J / 2 ^ shift (n + 1) % tvnSize := by
  rw [← slot_eq (l := n + 1) (by unfold shift tvrBits tvnBits; omega)]
  show b.timerJiffies >>> shift (n + 1) &&& tvnMask = _
  rw [r.jiffies]

/-- A block of the next vector starts when the slot number wraps to 0. -/
theorem next_aligned_iff {n : Nat} (aligned : J % 2 ^ shift (n + 1) = 0) :
    J % 2 ^ shift (n + 2) = 0 ↔ J / 2 ^ shift (n + 1) % tvnSize = 0 := by
  have split : shift (n + 2) = shift (n + 1) + tvnBits := by
    unfold shift
    rw [show n + 2 - 1 = n + 1 from rfl, Nat.add_sub_cancel, Nat.succ_mul, Nat.add_assoc]
  have pos := Nat.two_pow_pos (shift (n + 1))
  obtain ⟨q, rfl⟩ := Nat.dvd_of_mod_eq_zero aligned
  rw [split, Nat.pow_add, Nat.mul_mod_mul_left, show 2 ^ tvnBits = tvnSize from rfl,
    Nat.mul_div_cancel_left q pos, Nat.mul_eq_zero, or_iff_right pos.ne']

/-- The cascades from vector `n + 1` on settle all vectors. -/
theorem cascades_spec (fuel : Nat) {n k : Nat} (total : n + k = 4) (r : Ready b J rate P cover)
    (aligned : k ≠ 0 → J % 2 ^ shift (n + 1) = 0) (settled : Settled b J P n) :
    (∃ b', cascades fuel b (List.range' n k) = .ok b' ∧ Ready b' J rate P cover ∧
        Settled b' J P 4) ∨
      (fuel ≤ cover.length ∧ cascades fuel b (List.range' n k) = .error .hang) := by
  induction k generalizing b n with
  | zero =>
      obtain rfl : n = 4 := by omega
      exact .inl ⟨b, rfl, r, settled⟩
  | succ k ih =>
      have start := aligned (Nat.succ_ne_zero k)
      have slot := r.index_eq (n := n) (by omega)
      rw [List.range'_succ]
      simp only [cascades, slot]
      rcases cascade_spec r start settled fuel with ⟨b', returned, r', settled'⟩ | ⟨few, hung⟩
      · simp only [returned, bind, Except.bind]
        split
        · rename_i wrapped
          exact ih (n := n + 1) (by omega) r' (fun _ => (next_aligned_iff start).mpr wrapped)
            settled'
        · rename_i inside
          refine .inl ⟨b', rfl, r', r'.settle (n := n + 1) ?_ settled' 4⟩
          exact fun wrapped => inside ((next_aligned_iff start).mp wrapped)
      · exact .inr ⟨few, by rw [hung]; rfl⟩

/-- The head of a pass settles all vectors. -/
theorem passHead_spec (fuel : Nat) (r : Ready b J rate P cover) :
    (∃ b', b.passHead fuel = .ok b' ∧ Ready b' J rate P cover ∧ Settled b' J P 4) ∨
      (fuel ≤ cover.length ∧ b.passHead fuel = .error .hang) := by
  have none : Settled b J P 0 := by
    intro l i id E pos top
    omega
  rw [passHead, r.jiffies, root_slot_eq]
  split
  · rename_i aligned
    exact cascades_spec fuel (n := 0) (k := 4) rfl r (fun _ => aligned) none
  · rename_i between
    exact .inl ⟨b, rfl, r, r.settle (n := 0) between none 4⟩

/-! ## Expiry -/

/-- Timers that fired at `J` are armed for their next expiry, or freed. -/
def Pending.ring (P : Pending) (rate : TimerId → Option Nat) (J : Nat) (fired : List TimerId) :
    Pending where
  expires := fun id =>
    if id ∈ fired then (rate id).map fun v => (J + v) % 2 ^ 32 else P.expires id
  due := fun id => if id ∈ fired then (rate id).map fun v => J + v else P.due id

theorem Pending.ring_free {fired : List TimerId} {id : TimerId} (once : rate id = none) :
    ((P.ring rate J fired).disarm id).free id = P.ring rate J (fired ++ [id]) := by
  unfold Pending.disarm Pending.free Pending.ring
  congr 1
  · funext id'
    by_cases same : id' = id
    · simp [same, once]
    · simp [same]
  · funext id'
    by_cases same : id' = id
    · simp [same, once]
    · simp [same]

theorem Pending.ring_arm {fired : List TimerId} {id : TimerId} {v : Nat}
    (repeats : rate id = some v) :
    (((P.ring rate J fired).disarm id).setExpires id ((J + v) % 2 ^ 32)).arm id (J + v) =
      P.ring rate J (fired ++ [id]) := by
  unfold Pending.disarm Pending.setExpires Pending.arm Pending.ring
  congr 1
  · funext id'
    by_cases same : id' = id
    · simp [same, repeats]
    · simp [same]
  · funext id'
    by_cases same : id' = id
    · simp [same, repeats]
    · simp [same]

theorem Pending.disarm_disarm (id : TimerId) : (P.disarm id).disarm id = P.disarm id := by
  unfold Pending.disarm
  simp only [Function.update_idem]

/-- Where a timer may be while the timers `left` are still to be handled at `J`. -/
def Awaiting (J : Nat) (left : List TimerId) (id : TimerId) (E l i : Nat) : Prop :=
  if id ∈ left then E = J ∧ l = 0 ∧ i = J % tvrSize else Place (J + 1) E l i

/-- The state of the loop over the timers of a pass, `left` being still on the
list of the pass. -/
structure Expiring (J : Nat) (rate : TimerId → Option Nat) (P : Pending)
    (cover all : List TimerId) (s : GpTimerBase × List TimerId) (left : List TimerId) : Prop where
  placed : Placed s.1 (Awaiting J left) rate (P.ring rate J s.2) cover
  jiffies : s.1.timerJiffies = (J + 1) % 2 ^ 32
  list : left ≠ [] → s.1.vec 0 (J % tvrSize) = left
  order : s.2 ++ left = all

/-- A callback that does not touch the wheel. -/
def quiet (_ : TimerId) (b : GpTimerBase) : Except Fault GpTimerBase := .ok b

/-- The walk goes on without a timer that has been taken off the list. -/
theorem Placed.await {id : TimerId} {rest : List TimerId}
    (p : Placed b (Awaiting J (id :: rest)) rate (P.disarm id) cover) :
    Placed b (Awaiting J rest) rate (P.disarm id) cover := by
  refine p.mono ?_
  intro id' E l i due _ place
  have apart : id' ≠ id := by
    rintro rfl
    simp [Pending.disarm] at due
  unfold Awaiting at place ⊢
  simpa [apart] using place

/-- A timer that is due at `J` and repeats is armed again, for `J + v`. -/
theorem Placed.rearm {id : TimerId} {rest : List TimerId} {t : GpTimerList} {v : Nat}
    (p : Placed b (Awaiting J rest) rate P cover) (jiffies : b.timerJiffies = (J + 1) % 2 ^ 32)
    (live : b.timers id = some t) (idle : P.due id = none) (expires : t.expires = J % 2 ^ 32)
    (repeats : rate id = some v) (notAgain : id ∉ rest) (inCover : id ∈ cover) :
    ∃ b' l i, (b.setTimer id { t with expires := uint32 (t.expires + t.interval) }).gpTimerAdd id =
        .ok b' ∧
      Placed b' (Awaiting J rest) rate ((P.setExpires id ((J + v) % 2 ^ 32)).arm id (J + v))
        cover ∧
      b'.timerJiffies = (J + 1) % 2 ^ 32 ∧ Place (J + 1) (J + v) l i ∧
      ∀ l' i', b'.vec l' i' = if l' = l ∧ i' = i then b.vec l i ++ [id] else b.vec l' i' := by
  have pace := (p.paced id t live).1
  rw [repeats] at pace
  have ⟨_, interval, pos, small⟩ := pace
  have next : uint32 ((t.expires : Int) + t.interval) = (J + v) % 2 ^ 32 := by
    rw [expires, interval, uint32]
    omega
  have p₁ : Placed (b.setTimer id { t with expires := (J + v) % 2 ^ 32 }) (Awaiting J rest)
      (Function.update rate id (some v)) (P.setExpires id ((J + v) % 2 ^ 32)) cover :=
    p.assign live idle pace
  rw [← repeats, Function.update_eq_self] at p₁
  obtain ⟨b₂, l, i, added, p₂, jiffies₂, place, vec₂⟩ := p₁.add (E := J + v) jiffies
    (Function.update_self ..) rfl (by omega) (by omega)
    (fun l i place => (if_neg notAgain).mpr place) inCover
  refine ⟨b₂, l, i, by rw [next]; exact added, p₂, jiffies₂, place, ?_⟩
  intro l' i'
  have notOn := (p.unlinked live idle).2
  rw [vec₂, setTimer_vec, List.erase_of_not_mem (notOn l i), List.erase_of_not_mem (notOn l' i')]

/-- The timer at the head of the list fires; if it repeats every 256 ticks, it comes
back to the end of the list that is being walked. -/
theorem Expiring.step {all : List TimerId} {s : GpTimerBase × List TimerId} {id : TimerId}
    {rest : List TimerId} (clean : ∀ id ∈ all.dropLast, rate id ≠ some tvrSize)
    (x : Expiring J rate P cover all s (id :: rest)) :
    ∃ s', expireOne quiet s id = .ok s' ∧ Expiring J rate P cover all s' rest := by
  have list := x.list (List.cons_ne_nil id rest)
  have distinct := x.placed.nodup 0 (J % tvrSize)
  rw [list] at distinct
  have notAgain := (List.nodup_cons.mp distinct).1
  have mem : id ∈ s.1.vec 0 (J % tvrSize) := list ▸ List.mem_cons_self
  obtain ⟨t, E, live, due, expires, place⟩ := x.placed.place_of_mem mem
  have now : E = J := ((if_pos List.mem_cons_self).mp place).1
  have inCover := x.placed.covered id (by simp [due])
  have order : s.2 ++ [id] ++ rest = all := by
    rw [List.append_assoc]
    exact x.order
  obtain ⟨b₁, deleted, p₁, jiffies₁, timers₁, vec₁⟩ := x.placed.remove live
  have live₁ : b₁.timers id = some { t with node := none } := by
    rw [timers₁, Function.update_self]
  have idle₁ : ((P.ring rate J s.2).disarm id).due id = none := Function.update_self ..
  have walk := p₁.await
  have tail : b₁.vec 0 (J % tvrSize) = rest := by rw [vec₁, list, List.erase_cons_head]
  cases repeats : rate id with
  | none =>
      have once : t.repeatFlag ≠ 1 := by
        have := (x.placed.paced id t live).1
        rwa [repeats] at this
      obtain ⟨b₂, removed, p₂, jiffies₂, timers₂, vec₂⟩ := walk.remove live₁
      have live₂ : b₂.timers id = some { t with node := none } := by
        rw [timers₂, Function.update_self]
      have p₃ := p₂.free (Function.update_self ..)
      rw [Pending.disarm_disarm, Pending.ring_free repeats] at p₃
      refine ⟨({ b₂ with timers := Function.update b₂.timers id none }.updateNext, s.2 ++ [id]), ?_,
        p₃.of_same rfl rfl, ?_, ?_, order⟩
      · simp only [expireOne, quiet, bind, Except.bind, gpTimerDel, deleted, GpTimerBase.timer,
          live₁]
        rw [if_neg once]
        simp only [destructGpTimer, removed, bind, Except.bind, pure, Except.pure]
      · exact jiffies₂.trans (jiffies₁.trans x.jiffies)
      · intro _
        show b₂.vec 0 (J % tvrSize) = rest
        rw [vec₂, tail, List.erase_of_not_mem notAgain]
  | some v =>
      have again : t.repeatFlag = 1 := by
        have := (x.placed.paced id t live).1
        rw [repeats] at this
        exact this.1
      obtain ⟨b₂, l, i, added, p₂, jiffies₂, place₂, vec₂⟩ := walk.rearm
        (jiffies₁.trans x.jiffies) live₁ idle₁ (now ▸ expires) repeats notAgain inCover
      rw [Pending.ring_arm repeats] at p₂
      refine ⟨(b₂.updateNext, s.2 ++ [id]), ?_, p₂.of_same rfl rfl, jiffies₂, ?_, order⟩
      · simp only [expireOne, quiet, bind, Except.bind, gpTimerDel, deleted, GpTimerBase.timer,
          live₁]
        rw [if_pos again]
        simp only at added
        rw [added]
        rfl
      · intro more
        show b₂.vec 0 (J % tvrSize) = rest
        rw [vec₂, if_neg, tail]
        -- in the slot that is walked it would be `256` ticks ahead
        rintro ⟨rfl, rfl⟩
        cases place₂ with
        | root low high slot =>
            refine clean id ?_ ?_
            · rw [← order, List.dropLast_append_of_ne_nil more]
              simp
            · rw [repeats]
              unfold tvrSize at high slot ⊢
              congr 1
              omega
        | wheel pos => omega

/-- In a settled wheel the slot of `tv1` for `J` holds the timers due at `J`. -/
theorem Ready.mem_slot_iff (r : Ready b J rate P cover) (settled : Settled b J P 4)
    (id : TimerId) : id ∈ b.vec 0 (J % tvrSize) ↔ P.due id = some J := by
  constructor
  · intro mem
    obtain ⟨t, E, _, due, _, place⟩ := r.placed.place_of_mem mem
    cases place with
    | root low high slot =>
        have : E = J := by
          unfold tvrSize at high slot
          omega
        rw [due, this]
    | wheel pos => omega
  · intro due
    obtain ⟨t, l, i, _, _, mem, _, place⟩ := r.placed.armed_of_due due
    cases place with
    | root _ _ slot => exact slot ▸ mem
    | wheel pos top _ _ _ =>
        -- its block would start after its deadline
        have := settled l i id J pos top mem due
        have := block_le l J
        omega

/-- The timers outside of the slot for `J` are in place for the next tick. -/
theorem Ready.await (r : Ready b J rate P cover) (settled : Settled b J P 4) :
    Placed b (Awaiting J (b.vec 0 (J % tvrSize))) rate P cover := by
  refine r.placed.mono ?_
  intro id E l i due mem place
  unfold Awaiting
  split
  · rename_i here
    have now := (r.mem_slot_iff settled id).mp here
    obtain ⟨t, live, node⟩ := (r.placed.linked l i id).mp mem
    have slot := r.placed.lists.node_of_mem live here
    rw [node] at slot
    cases slot
    rw [due] at now
    cases now
    exact ⟨rfl, rfl, rfl⟩
  · rename_i elsewhere
    cases place with
    | root low high slot =>
        have later : E ≠ J := by
          rintro rfl
          exact elsewhere (slot ▸ mem)
        exact .root (by omega) (by omega) slot
    | wheel pos top low high slot =>
        have := settled l i id E pos top mem due
        exact .wheel pos top this (by omega) slot

/-- The timers due at `J` are armed for their next expiry, or freed. -/
def Pending.strike (P : Pending) (rate : TimerId → Option Nat) (J : Nat) : Pending where
  expires := fun id =>
    if P.due id = some J then (rate id).map fun v => (J + v) % 2 ^ 32 else P.expires id
  due := fun id => if P.due id = some J then (rate id).map fun v => J + v else P.due id

theorem Pending.ring_eq_strike {fired : List TimerId}
    (exact : ∀ id, id ∈ fired ↔ P.due id = some J) : P.ring rate J fired = P.strike rate J := by
  unfold Pending.ring Pending.strike
  simp only [exact]

/-- A pass at tick `J` fires the timers due at `J`, each once, if on the list that it
walks only the last timer may repeat every 256 ticks. -/
theorem Ready.pass (fuel : Nat) (r : Ready b J rate P cover)
    (clean : ∀ b₁, b.passHead fuel = .ok b₁ →
      ∀ id ∈ (b₁.vec 0 (J % tvrSize)).dropLast, rate id ≠ some tvrSize) :
    (∃ b' fired, b.pass fuel quiet = .ok (b', fired) ∧
        (∀ id, fired.count id = if P.due id = some J then 1 else 0) ∧
        Ready b' (J + 1) rate (P.strike rate J) cover) ∨
      (fuel ≤ cover.length ∧ b.pass fuel quiet = .error .hang) := by
  have slot : b.timerJiffies &&& tvrMask = J % tvrSize := by rw [r.jiffies, root_slot_eq]
  unfold GpTimerBase.pass
  simp only [slot, bind, Except.bind]
  rcases passHead_spec fuel r with ⟨b₁, head, r₁, settled⟩ | ⟨few, hung⟩
  · rw [head]
    have next : uint32 ((b₁.timerJiffies : Int) + 1) = (J + 1) % 2 ^ 32 := by
      rw [r₁.jiffies, uint32]
      omega
    have unfired : P.ring rate J [] = P := by simp [Pending.ring]
    have start : Expiring J rate P cover (b₁.vec 0 (J % tvrSize))
        ({ b₁ with timerJiffies := uint32 (b₁.timerJiffies + 1) }, [])
        (b₁.vec 0 (J % tvrSize)) := by
      refine ⟨?_, next, fun _ => rfl, List.nil_append _⟩
      rw [unfired]
      exact (r₁.await settled).of_same rfl rfl
    rcases foreachSafe_drain Prod.fst (expireOne quiet) (l := 0) (i := J % tvrSize)
        (I := Expiring J rate P cover (b₁.vec 0 (J % tvrSize)))
        (fun s id rest x => x.placed.listNext (x.list (List.cons_ne_nil id rest)))
        (fun s id rest x => x.step (clean b₁ head)) start fuel with
      ⟨_, ⟨b', fired⟩, returned, done⟩ | ⟨few, hung⟩
    · have all : fired = b₁.vec 0 (J % tvrSize) := by
        rw [← done.order, List.append_nil]
      have exact : ∀ id, id ∈ fired ↔ P.due id = some J := by
        intro id
        rw [all]
        exact r₁.mem_slot_iff settled id
      have distinct : fired.Nodup := all ▸ r₁.placed.nodup 0 _
      refine .inl ⟨b', fired, returned, ?_, ?_, done.jiffies⟩
      · intro id
        rw [distinct.count]
        simp only [exact]
      · rw [← Pending.ring_eq_strike exact]
        refine done.placed.mono ?_
        intro id E l i _ _ place
        exact (if_neg List.not_mem_nil).mp place
    · exact .inr ⟨few.trans (r₁.placed.length_le _ _), hung⟩
  · rw [hung]
    exact .inr ⟨few, rfl⟩

/-! ## Running to a clock -/

/-- The list that the coming pass walks has no timer that repeats every 256 ticks, or
has it as its last one. -/
def Uncrowded (fuel : Nat) (b : GpTimerBase) : Prop :=
  ∀ b₁, b.passHead fuel = .ok b₁ →
    ∀ id ∈ (b₁.vec 0 (b.timerJiffies &&& tvrMask)).dropLast, ∀ t, b₁.timers id = some t →
      ¬ (t.repeatFlag = 1 ∧ t.interval = tvrSize)

/-- Every pass of a call of `gp_run_timers` walks such a list. -/
def UncrowdedPasses (fuel jiffies : Nat) : GpTimerBase → Nat → Prop
  | _, 0 => True
  | b, rounds + 1 => 0 ≤ int32 ((jiffies : Int) - b.timerJiffies) →
      Uncrowded fuel b ∧
        ∀ b' fired, b.pass fuel quiet = .ok (b', fired) → UncrowdedPasses fuel jiffies b' rounds

theorem Ready.clean (r : Ready b J rate P cover) {fuel : Nat} (uncrowded : Uncrowded fuel b) :
    ∀ b₁, b.passHead fuel = .ok b₁ →
      ∀ id ∈ (b₁.vec 0 (J % tvrSize)).dropLast, rate id ≠ some tvrSize := by
  intro b₁ head id mem repeats
  have slot : b.timerJiffies &&& tvrMask = J % tvrSize := by rw [r.jiffies, root_slot_eq]
  rcases passHead_spec fuel r with ⟨b', head', r', _⟩ | ⟨_, hung⟩
  · rw [head] at head'
    cases head'
    obtain ⟨t, _, live, _⟩ := r'.placed.place_of_mem (List.mem_of_mem_dropLast mem)
    have pace := (r'.placed.paced id t live).1
    rw [repeats] at pace
    exact uncrowded b₁ head id (slot ▸ mem) t live ⟨pace.1, pace.2.1⟩
  · rw [head] at hung
    cases hung

/-- Without a timer that repeats every 256 ticks no list is crowded. -/
theorem Ready.uncrowdedPasses (r : Ready b J rate P cover) (other : ∀ id, rate id ≠ some tvrSize)
    (fuel jiffies rounds : Nat) : UncrowdedPasses fuel jiffies b rounds := by
  induction rounds generalizing b J P with
  | zero => trivial
  | succ rounds ih =>
      intro _
      refine ⟨?_, ?_⟩
      · intro b₁ head id mem t live repeats
        rcases passHead_spec fuel r with ⟨b', head', r', _⟩ | ⟨_, hung⟩
        · rw [head] at head'
          cases head'
          have pace := (r'.placed.paced id t live).1
          cases rated : rate id with
          | none =>
              rw [rated] at pace
              exact pace repeats.1
          | some v =>
              rw [rated] at pace
              apply other id
              rw [rated]
              congr 1
              exact Int.ofNat.inj (pace.2.1.symm.trans repeats.2)
        · rw [head] at hung
          cases hung
      · intro b' fired passed
        rcases r.pass fuel (fun _ _ id _ => other id) with ⟨b₁, _, passed', _, r₁⟩ | ⟨_, hung⟩
        · rw [passed] at passed'
          cases passed'
          exact ih r₁
        · rw [passed] at hung
          cases hung

/-- The timers after `n` ticks from `J` on. -/
def Pending.strikes (rate : TimerId → Option Nat) : Pending → Nat → Nat → Pending
  | P, _, 0 => P
  | P, J, n + 1 => Pending.strikes rate (P.strike rate J) (J + 1) n

/-- The passes from tick `J` on fire every timer at its deadlines, once at each. -/
def StruckPasses (rate : TimerId → Option Nat) (P : Pending) (J : Nat)
    (passes : List (Nat × List TimerId)) : Prop :=
  ∀ k tick fired, passes[k]? = some (tick, fired) → tick = (J + k) % 2 ^ 32 ∧
    ∀ id, fired.count id = if (P.strikes rate J k).due id = some (J + k) then 1 else 0

theorem StruckPasses.cons {tick : Nat} {fired : List TimerId} {passes : List (Nat × List TimerId)}
    (now : tick = J % 2 ^ 32)
    (once : ∀ id, fired.count id = if P.due id = some J then 1 else 0)
    (later : StruckPasses rate (P.strike rate J) (J + 1) passes) :
    StruckPasses rate P J ((tick, fired) :: passes) := by
  intro k tick' fired' h
  cases k with
  | zero =>
      rw [List.getElem?_cons_zero] at h
      cases h
      exact ⟨now, once⟩
  | succ k =>
      rw [List.getElem?_cons_succ] at h
      have := later k tick' fired' h
      rwa [show J + 1 + k = J + (k + 1) by omega] at this

/-- The guard of the loop, for a clock that is not far away. -/
theorem guard_eq {T : Nat} (reach : J ≤ T + 1) (near : T < J + 2 ^ 31) :
    int32 (((T % 2 ^ 32 : Nat) : Int) - (J % 2 ^ 32 : Nat)) = (T : Int) - J := by
  rw [int32, Int.bmod_def]
  split <;> omega

/-- `gp_run_timers` to clock `T` makes one exact pass for each tick up to `T`, if its
passes are not crowded. -/
theorem Ready.run (fuel rounds : Nat) {T : Nat} (near : T < J + 2 ^ 31) (reach : J ≤ T + 1)
    (r : Ready b J rate P cover) (clean : UncrowdedPasses fuel (T % 2 ^ 32) b rounds) :
    (∃ b' passes, gpRunTimers fuel quiet (T % 2 ^ 32) b rounds = .ok (b', passes) ∧
        passes.length = T + 1 - J ∧ StruckPasses rate P J passes ∧
        Ready b' (T + 1) rate (P.strikes rate J (T + 1 - J)) cover) ∨
      ((fuel ≤ cover.length ∨ rounds ≤ T + 1 - J) ∧
        gpRunTimers fuel quiet (T % 2 ^ 32) b rounds = .error .hang) := by
  induction rounds generalizing b J P with
  | zero => exact .inr ⟨.inr (Nat.zero_le _), rfl⟩
  | succ rounds ih =>
      unfold gpRunTimers
      rw [UncrowdedPasses, r.jiffies, guard_eq reach near] at clean
      rw [r.jiffies, guard_eq reach near]
      rcases Nat.lt_or_ge T J with past | now
      · -- the clock is reached
        obtain rfl : J = T + 1 := by omega
        rw [if_neg (by omega)]
        refine .inl ⟨b, [], rfl, by simp, ?_, ?_⟩
        · intro k tick fired h
          simp at h
        · rw [Nat.sub_self]
          exact r
      · rw [if_pos (by omega)]
        obtain ⟨here, later⟩ := clean (by omega)
        simp only [bind, Except.bind]
        rcases r.pass fuel (r.clean here) with ⟨b₁, fired, passed, once, r₁⟩ | ⟨few, hung⟩
        · rw [passed]
          rcases ih (by omega) (by omega) r₁ (later b₁ fired passed) with
            ⟨b', passes, ran, length, struck, r'⟩ | ⟨few, hung⟩
          · simp only [ran, pure, Except.pure]
            refine .inl ⟨b', _, rfl, ?_, .cons rfl once struck, ?_⟩
            · rw [List.length_cons, length]
              omega
            · rw [show T + 1 - J = (T + 1 - (J + 1)) + 1 by omega]
              exact r'
          · refine .inr ⟨few.imp_right (by omega), ?_⟩
            simp only [hung]
        · exact .inr ⟨.inl few, by rw [hung]⟩

/-! ## One-shot timers -/

/-- The passes from tick `J` on fire every timer at its deadline, once. -/
def ExactPasses (due : TimerId → Option Nat) (J : Nat) (passes : List (Nat × List TimerId)) :
    Prop :=
  ∀ k tick fired, passes[k]? = some (tick, fired) →
    tick = (J + k) % 2 ^ 32 ∧ ∀ id, fired.count id = if due id = some (J + k) then 1 else 0

/-- The timers due before `J` are freed. -/
def Pending.elapse (P : Pending) (J : Nat) : Pending where
  expires := fun id => if (P.due id).any (· < J) then none else P.expires id
  due := fun id => if (P.due id).any (· < J) then none else P.due id

/-- Nothing is overdue. -/
theorem Ready.due_le (r : Ready b J rate P cover) {id : TimerId} {E : Nat}
    (due : P.due id = some E) : J ≤ E ∧ P.expires id = some (E % 2 ^ 32) := by
  obtain ⟨t, _, _, live, _, _, expires, place⟩ := r.placed.armed_of_due due
  refine ⟨place.le, ?_⟩
  rw [← r.placed.fields id, live, ← expires]
  rfl

theorem Pending.strike_elapse (P : Pending) {J T : Nat} (before : J < T) :
    (P.strike (fun _ => none) J).elapse T = P.elapse T := by
  unfold Pending.strike Pending.elapse
  congr 1
  · funext id
    by_cases due : P.due id = some J
    · simp [due, before]
    · simp only [if_neg due]
  · funext id
    by_cases due : P.due id = some J
    · simp [due, before]
    · simp only [if_neg due]

/-- Ticks free the timers that are due. -/
theorem Pending.strikes_once {P : Pending} {J : Nat} (n : Nat)
    (ahead : ∀ id E, P.due id = some E → J ≤ E) :
    P.strikes (fun _ => none) J n = P.elapse (J + n) := by
  induction n generalizing P J with
  | zero =>
      have later : ∀ id, (P.due id).any (· < J) = false := by
        intro id
        cases due : P.due id with
        | none => rfl
        | some E => simpa using ahead id E due
      simp [Pending.strikes, Pending.elapse, later]
  | succ n ih =>
      rw [Pending.strikes, ih, Pending.strike_elapse P (by omega),
        show J + 1 + n = J + (n + 1) by omega]
      intro id E due
      simp only [Pending.strike] at due
      split at due
      · cases due
      · have := ahead id E due
        have : E ≠ J := by
          rintro rfl
          contradiction
        omega

theorem Pending.elapse_due_iff (P : Pending) (J : Nat) (id : TimerId) :
    (P.elapse J).due id = some J ↔ P.due id = some J := by
  unfold Pending.elapse
  dsimp only
  split
  · rename_i past
    simp only [reduceCtorEq, false_iff]
    intro due
    simp [due] at past
  · rfl

/-- `gp_run_timers` to clock `T` makes one exact pass for each tick up to `T`. -/
theorem gpRunTimers_spec (fuel rounds : Nat) {T : Nat} (near : T < J + 2 ^ 31) (reach : J ≤ T + 1)
    (w : Wheel b J J P cover) :
    (∃ b' passes, gpRunTimers fuel quiet (T % 2 ^ 32) b rounds = .ok (b', passes) ∧
        passes.length = T + 1 - J ∧ ExactPasses P.due J passes ∧
        Wheel b' (T + 1) (T + 1) (P.elapse (T + 1)) cover) ∨
      ((fuel ≤ cover.length ∨ rounds ≤ T + 1 - J) ∧
        gpRunTimers fuel quiet (T % 2 ^ 32) b rounds = .error .hang) := by
  have ahead : ∀ id E, P.due id = some E → J ≤ E := fun id E due => (w.ready.due_le due).1
  have uncrowded := w.ready.uncrowdedPasses (fun _ => by simp) fuel (T % 2 ^ 32) rounds
  rcases w.ready.run fuel rounds near reach uncrowded with
    ⟨b', passes, ran, length, struck, r⟩ | hung
  · refine .inl ⟨b', passes, ran, length, ?_, ?_⟩
    · intro k tick fired h
      obtain ⟨now, once⟩ := struck k tick fired h
      refine ⟨now, ?_⟩
      intro id
      rw [once, Pending.strikes_once k ahead]
      simp only [Pending.elapse_due_iff]
    · rw [Pending.strikes_once _ ahead, Nat.add_sub_cancel' reach] at r
      exact r.wheel
  · exact .inr hung

end Pass

end GpBase.Timer

import GpBase.Timer.Callback
import GpBase.Timer.Steps

/-!
# Timers that are past due

`gp_timer_internal_add` means to put a timer whose expiry is over into the current slot of
`tv1`, but tests for it with the sign of an unsigned number. The timer goes to `tv5`, as one
that is due almost `2 ^ 32` ticks later; the slot there is not the one that the next tick
cascades, and nothing that others do in the meantime brings it nearer.
-/

namespace GpBase.Timer

open GpBase.Lib GpTimerBase

/-! ## The slot of a timer that is past due -/

/-- The expiry precedes `timer_jiffies`, by less than `2 ^ 31` ticks. -/
def Precedes (jiffies expires : Nat) : Prop :=
  1 ≤ uint32 ((jiffies : Int) - expires) ∧ uint32 ((jiffies : Int) - expires) < 2 ^ 31

instance (jiffies expires : Nat) : Decidable (Precedes jiffies expires) :=
  inferInstanceAs (Decidable (_ ∧ _))

/-- The slot of an expiry in `tv5`. -/
def lastSlot (expires : Nat) : Nat := (expires >>> (tvrBits + 3 * tvnBits)) &&& tvnMask

theorem slotFor_past {J e : Nat} (late : Precedes J e) : slotFor J e = (4, lastSlot e) := by
  obtain ⟨low, high⟩ := late
  have far : 2 ^ 31 ≤ uint32 ((e : Int) - J) ∧ uint32 ((e : Int) - J) < 2 ^ 32 := by
    unfold uint32 at low high ⊢
    omega
  unfold slotFor lastSlot
  generalize uint32 ((e : Int) - J) = idx at far
  have not₁ : ¬ idx < tvrSize := by
    unfold tvrSize
    omega
  have not₂ : ¬ idx < 1 <<< (tvrBits + tvnBits) := by
    show ¬ idx < 2 ^ 14
    omega
  have not₃ : ¬ idx < 1 <<< (tvrBits + 2 * tvnBits) := by
    show ¬ idx < 2 ^ 20
    omega
  have not₄ : ¬ idx < 1 <<< (tvrBits + 3 * tvnBits) := by
    show ¬ idx < 2 ^ 26
    omega
  have small : ¬ maxTval < idx := by
    unfold maxTval
    omega
  -- the test of the sign fails, and so does the last one
  simp only [if_neg not₁, if_neg not₂, if_neg not₃, if_neg not₄, if_neg small,
    if_neg (show ¬ (idx : Int) < 0 by omega)]

/-- The next tick cascades another slot of `tv5`, if any. -/
theorem lastSlot_ne {b : GpTimerBase} {e : Nat} (late : Precedes b.timerJiffies e)
    (root : b.timerJiffies &&& tvrMask = 0) (first : b.index 0 = 0) (second : b.index 1 = 0)
    (third : b.index 2 = 0) : lastSlot e ≠ b.index 3 := by
  obtain ⟨low, high⟩ := late
  unfold lastSlot index at *
  generalize b.timerJiffies = J at *
  rw [show tvrMask = 2 ^ 8 - 1 from rfl, Nat.and_two_pow_sub_one_eq_mod] at root
  simp only [show tvnMask = 2 ^ 6 - 1 from rfl, Nat.and_two_pow_sub_one_eq_mod,
    Nat.shiftRight_eq_div_pow, tvrBits, tvnBits] at *
  unfold uint32 at low high
  omega

/-! ## Parked timers -/

/-- Timer `id` is in slot `i` of `tv5`, behind the timers in `front`. -/
structure Parked (id : TimerId) (i : Nat) (front : List TimerId) (b : GpTimerBase) : Prop where
  linked : Linked b
  list : ∃ back, b.vec 4 i = front ++ id :: back

/-- The pointer is not on the way to timer `id`. -/
def Clear (id : TimerId) (front : List TimerId) (p : Option TimerId) : Prop :=
  ∀ x, p = some x → x ≠ id ∧ x ∉ front

section Parked

variable {b b' : GpTimerBase} {id : TimerId} {i : Nat} {front : List TimerId}

theorem Clear.mono {front' : List TimerId} {p : Option TimerId} (clear : Clear id front p)
    (fewer : front' ⊆ front) : Clear id front' p := by
  intro x here
  obtain ⟨apart, absent⟩ := clear x here
  exact ⟨apart, fun mem => absent (fewer mem)⟩

/-- Another timer moves: those in front of a parked one are not more than before. -/
theorem Parked.moved {y : TimerId} (parked : Parked id i front b) (apart : y ≠ id)
    (moved : Moved y b b') : ∃ front', front' ⊆ front ∧ Parked id i front' b' := by
  obtain ⟨back, list⟩ := parked.list
  -- the timer that moves is in front of `id`, behind it or on another list
  have erased : (b.vec 4 i).erase y = front.erase y ++ id :: back ∨
      (b.vec 4 i).erase y = front.erase y ++ id :: back.erase y := by
    rw [list, List.erase_append]
    split
    · exact .inl rfl
    · rename_i absent
      rw [List.erase_of_not_mem absent, List.erase_cons_tail (by simpa using Ne.symm apart)]
      exact .inr rfl
  refine ⟨front.erase y, List.erase_subset, moved.linked, ?_⟩
  obtain ⟨back', erased⟩ : ∃ back', (b.vec 4 i).erase y = front.erase y ++ id :: back' := by
    rcases erased with same | shorter
    · exact ⟨_, same⟩
    · exact ⟨_, shorter⟩
  -- what is appended comes behind `id`
  rcases moved.lists 4 i with same | appended
  · exact ⟨back', same.trans erased⟩
  · rw [erased, List.append_assoc, List.cons_append] at appended
    exact ⟨_, appended⟩

/-- The timers of another list are not on the way. -/
theorem Parked.clear_of_mem (parked : Parked id i front b) {l j : Nat} (apart : (l, j) ≠ (4, i))
    {x : TimerId} (mem : x ∈ b.vec l j) : x ≠ id ∧ x ∉ front := by
  have elsewhere : x ∉ b.vec 4 i := by
    intro here
    obtain ⟨t, live, node⟩ := (parked.linked.linked l j x).mp mem
    obtain ⟨t', live', node'⟩ := (parked.linked.linked 4 i x).mp here
    obtain rfl := Option.some.inj (live.symm.trans live')
    exact apart (Option.some.inj (node.symm.trans node'))
  obtain ⟨back, list⟩ := parked.list
  rw [list] at elsewhere
  refine ⟨?_, ?_⟩
  · rintro rfl
    exact elsewhere (List.mem_append_right _ List.mem_cons_self)
  · intro inFront
    exact elsewhere (List.mem_append_left _ inFront)

/-- What is behind a timer that is behind `id` is behind `id`. -/
theorem mem_back {back : List TimerId} {x y : TimerId} (apart : x ≠ id) (absent : x ∉ front)
    (after : y ∈ (front ++ id :: back).drop ((front ++ id :: back).idxOf x + 1)) : y ∈ back := by
  have place : (front ++ id :: back).idxOf x = front.length + (back.idxOf x + 1) := by
    rw [List.idxOf_append_of_notMem absent, List.idxOf_cons_ne _ (Ne.symm apart)]
  rw [place, show front.length + (back.idxOf x + 1) + 1 = front.length + 1 + (back.idxOf x + 1) by
    omega, ← List.drop_drop, List.drop_append] at after
  have passed : front.drop (front.length + 1) = [] := List.drop_eq_nil_of_le (Nat.le_succ _)
  have tail := List.mem_of_mem_drop after
  rw [passed] at tail
  simpa using tail

/-- `gp_list_next` does not lead to a parked timer from a pointer that is clear of it. -/
theorem Parked.listNext (parked : Parked id i front b) {l j : Nat} {p p' : Option TimerId}
    (clear : Clear id front p) (next : b.listNext l j p = .ok p') : Clear id front p' := by
  cases p with
  | none =>
      cases next
      exact nofun
  | some x =>
      obtain ⟨t, read, next⟩ := bind_eq_ok next
      have live := timers_of_timer read
      cases node : t.node with
      | none =>
          rw [node] at next
          cases next
          exact nofun
      | some place =>
          obtain ⟨l', j'⟩ := place
          rw [node] at next
          have mem : x ∈ b.vec l' j' := (parked.linked.linked l' j' x).mpr ⟨t, live, node⟩
          dsimp only at next
          cases after : ((b.vec l' j').drop ((b.vec l' j').idxOf x + 1)).head? with
          | none =>
              rw [after] at next
              dsimp only at next
              split at next
              · cases next
                exact nofun
              · cases next
          | some y =>
              rw [after] at next
              cases next
              rintro _ ⟨⟩
              have later := List.mem_of_head? after
              -- on the same list the pointer is behind `id` already, and goes on from there
              by_cases same : (l', j') = (4, i)
              · cases same
                obtain ⟨back, list⟩ := parked.list
                have once := parked.linked.nodup 4 i
                obtain ⟨apart, absent⟩ := clear x rfl
                rw [list] at later once
                have behind := mem_back apart absent later
                rw [List.nodup_append] at once
                refine ⟨?_, ?_⟩
                · rintro rfl
                  exact (List.nodup_cons.mp once.2.1).1 behind
                · intro inFront
                  exact once.2.2 y inFront y (List.mem_cons_of_mem _ behind) rfl
              · exact parked.clear_of_mem same (List.mem_of_mem_drop later)

/-- A loop over another list: as long as its body leaves the parked timer alone, the loop does
not come to it. -/
theorem Parked.foreachLoop {σ : Type} {wheel : σ → GpTimerBase}
    {body : σ → TimerId → Except Fault σ} {Q : σ → Prop}
    (step : ∀ s x s' front, Parked id i front (wheel s) → Q s → x ≠ id → body s x = .ok s' →
      Q s' ∧ ∃ front', front' ⊆ front ∧ Parked id i front' (wheel s'))
    {l j fuel : Nat} {s s' : σ} {it tmp : Option TimerId} (parked : Parked id i front (wheel s))
    (start : Q s) (clear : Clear id front it) (clear' : Clear id front tmp)
    (ran : foreachLoop wheel body l j fuel s it tmp = .ok s') :
    Q s' ∧ ∃ front', Parked id i front' (wheel s') := by
  induction fuel generalizing s it tmp front with
  | zero => cases ran
  | succ fuel ih =>
      cases it with
      | none =>
          cases ran
          exact ⟨start, front, parked⟩
      | some x =>
          obtain ⟨s₁, done, ran⟩ := bind_eq_ok ran
          obtain ⟨tmp', next, ran⟩ := bind_eq_ok ran
          obtain ⟨kept, front₁, fewer, parked₁⟩ :=
            step s x s₁ front parked start (clear x rfl).1 done
          -- the body may change the list, but what it puts there comes behind `id`
          have ahead := clear'.mono fewer
          exact ih parked₁ kept ahead (parked₁.listNext ahead next) ran

theorem Parked.foreachSafe {σ : Type} {wheel : σ → GpTimerBase}
    {body : σ → TimerId → Except Fault σ} {Q : σ → Prop}
    (step : ∀ s x s' front, Parked id i front (wheel s) → Q s → x ≠ id → body s x = .ok s' →
      Q s' ∧ ∃ front', front' ⊆ front ∧ Parked id i front' (wheel s'))
    {l j fuel : Nat} {s s' : σ} (parked : Parked id i front (wheel s)) (start : Q s)
    (apart : (l, j) ≠ (4, i)) (ran : foreachSafe fuel wheel body l j s = .ok s') :
    Q s' ∧ ∃ front', Parked id i front' (wheel s') := by
  obtain ⟨tmp, next, ran⟩ := bind_eq_ok ran
  have clear : Clear id front ((wheel s).vec l j).head? := by
    intro x first
    exact parked.clear_of_mem apart (List.mem_of_head? first)
  exact parked.foreachLoop step start clear (parked.listNext clear next) ran

/-! ## A tick -/

theorem Parked.cascade {front : List TimerId} (parked : Parked id i front b) {fuel l j : Nat}
    (apart : (l, j) ≠ (4, i)) (cascaded : b.cascade fuel l j = .ok b') :
    b'.timerJiffies = b.timerJiffies ∧ ∃ front', Parked id i front' b' := by
  refine parked.foreachSafe (Q := fun s => s.timerJiffies = b.timerJiffies) ?_ rfl apart cascaded
  intro s x s' front parked same other done
  have moved := parked.linked.cascadeOne done
  exact ⟨moved.jiffies.trans same, parked.moved other moved⟩

/-- The cascades of a tick do not take a timer that is parked in another slot of `tv5`. -/
theorem Parked.cascades {front : List TimerId} {ns : List Nat} (parked : Parked id i front b)
    (apart : ∀ before n, before ++ [n] <+: ns → (∀ m ∈ before, b.index m = 0) →
      (n + 1, b.index n) ≠ (4, i)) {fuel : Nat} (cascaded : cascades fuel b ns = .ok b') :
    b'.timerJiffies = b.timerJiffies ∧ ∃ front', Parked id i front' b' := by
  induction ns generalizing b front with
  | nil =>
      cases cascaded
      exact ⟨rfl, front, parked⟩
  | cons n ns ih =>
      obtain ⟨b₁, first, cascaded⟩ := bind_eq_ok cascaded
      obtain ⟨jiffies₁, front₁, parked₁⟩ :=
        parked.cascade (apart [] n (List.prefix_append [n] ns) nofun) first
      have index : ∀ m, b₁.index m = b.index m := by
        intro m
        rw [GpTimerBase.index, jiffies₁]
        rfl
      split at cascaded
      · -- the next vector is cascaded as well: the indexes so far were all 0
        rename_i zero
        rw [← jiffies₁]
        refine ih parked₁ ?_ cascaded
        intro before m initial zeros
        rw [index]
        refine apart (n :: before) m ((List.prefix_cons_inj n).mpr initial) ?_
        intro k mem
        rcases List.mem_cons.mp mem with rfl | mem
        · exact zero
        · rw [← index]
          exact zeros k mem
      · cases cascaded
        exact ⟨jiffies₁, front₁, parked₁⟩

/-- The head of the next pass leaves a timer that is past due where it is. -/
theorem Parked.passHead {front : List TimerId} {e : Nat} (late : Precedes b.timerJiffies e)
    (parked : Parked id (lastSlot e) front b) {fuel : Nat} (headed : b.passHead fuel = .ok b') :
    ∃ front', Parked id (lastSlot e) front' b' := by
  unfold GpTimerBase.passHead at headed
  split at headed
  · rename_i root
    refine (parked.cascades ?_ headed).2
    intro before n initial zeros same
    obtain ⟨rfl, slot⟩ : n = 3 ∧ b.index n = lastSlot e := by
      rw [Prod.mk.injEq] at same
      omega
    -- `tv5` is cascaded after the first slots of the three vectors in front of it
    obtain ⟨rest, whole⟩ := initial
    rcases before with _ | ⟨n₀, _ | ⟨n₁, _ | ⟨n₂, before⟩⟩⟩
    · simp at whole
    · simp at whole
    · simp at whole
    · simp only [List.cons_append, List.cons.injEq] at whole
      obtain ⟨rfl, rfl, rfl, _⟩ := whole
      exact lastSlot_ne late root (zeros 0 (by simp)) (zeros 1 (by simp)) (zeros 2 (by simp))
        slot.symm
  · cases headed
    exact ⟨front, parked⟩

/-- The calls of a callback that leave timer `id` alone. -/
theorem Parked.runOps {front : List TimerId} {calls : List TimerOp}
    (parked : Parked id i front b) (typed : TypedOps b calls) (spared : ∀ c ∈ calls, c.timer ≠ id)
    (ran : runOps b calls = .ok b') : ∃ front', front' ⊆ front ∧ Parked id i front' b' := by
  induction calls generalizing b front with
  | nil =>
      cases ran
      exact ⟨front, List.Subset.refl front, parked⟩
  | cons c calls ih =>
      obtain ⟨b₁, executed, ran⟩ := bind_eq_ok ran
      obtain ⟨front₁, fewer₁, parked₁⟩ := parked.moved (spared c List.mem_cons_self)
        (parked.linked.call typed.1 executed)
      obtain ⟨front', fewer, parked'⟩ := ih parked₁ (typed.2 b₁ executed)
        (fun c mem => spared c (List.mem_cons_of_mem _ mem)) ran
      exact ⟨front', List.Subset.trans fewer fewer₁, parked'⟩

/-- The next tick does not fire a timer that is past due. -/
theorem Parked.pass {front : List TimerId} {e : Nat} (late : Precedes b.timerJiffies e)
    (parked : Parked id (lastSlot e) front b) {script : OpScript}
    (typed : ∀ x b, TypedOps b (script x b)) (spared : ∀ x b, ∀ c ∈ script x b, c.timer ≠ id)
    {fuel : Nat} {fired : List TimerId} (passed : b.pass fuel script.callback = .ok (b', fired)) :
    id ∉ fired ∧ ∃ front', Parked id (lastSlot e) front' b' := by
  obtain ⟨b₁, headed, walked⟩ := bind_eq_ok passed
  obtain ⟨front₁, parked₁⟩ := parked.passHead late headed
  have ticked : Parked id (lastSlot e) front₁
      (Prod.fst ({ b₁ with timerJiffies := uint32 (b₁.timerJiffies + 1) }, ([] : List TimerId))) :=
    ⟨⟨parked₁.linked.linked, parked₁.linked.nodup⟩, parked₁.list⟩
  refine ticked.foreachSafe (Q := fun s => id ∉ s.2) ?_ List.not_mem_nil (by simp) walked
  -- the pass walks a list of `tv1`, and each round is about another timer
  rintro s x ⟨b₃, log⟩ front parked absent other fires
  rw [expireOne_eq] at fires
  obtain ⟨b₂, called, expired⟩ := bind_eq_ok fires
  obtain ⟨front₂, fewer₂, parked₂⟩ := parked.runOps (typed x s.1) (spared x s.1) called
  obtain ⟨moved, rfl⟩ := parked₂.linked.expire expired
  obtain ⟨front₃, fewer₃, parked₃⟩ := parked₂.moved other moved
  refine ⟨?_, front₃, List.Subset.trans fewer₃ fewer₂, parked₃⟩
  intro mem
  rcases List.mem_append.mp mem with old | new
  · exact absent old
  · exact other (List.mem_singleton.mp new).symm

end Parked

/-! ## Every history -/

/-- The call puts timer `id` on the wheel. -/
def TimerOp.Arms (id : TimerId) : TimerOp → Prop
  | .add x => x = id
  | .mod x _ _ _ => x = id
  | _ => False

/-- The timer expired before `timer_jiffies`. -/
def Late (b : GpTimerBase) (id : TimerId) : Prop :=
  ∃ t, b.timers id = some t ∧ Precedes b.timerJiffies t.expires

/-- A step before the next tick that leaves timer `id` alone. -/
def WheelEvent.Spares (id : TimerId) : WheelEvent → Prop
  | .call c => c.timer ≠ id
  | .head _ => False
  | .expire x => x ≠ id

/-- Callbacks that leave timer `id` alone. -/
def OpScript.Spares (script : OpScript) (id : TimerId) : Prop :=
  ∀ x b, TypedOps b (script x b) ∧ ∀ c ∈ script x b, c.timer ≠ id

section Histories

variable {b b₁ b₂ b₃ : GpTimerBase} {events waiting : List WheelEvent} {id : TimerId} {c : TimerOp}

/-- An armed timer is in the slot of its expiry. -/
theorem Linked.arm (linked : Linked b) (arms : c.Arms id) (executed : c.exec b = .ok b₁) :
    Moved id b b₁ ∧ ∃ t, b₁.timers id = some t ∧
      t.node = some (slotFor b₁.timerJiffies t.expires) := by
  cases c with
  | add x =>
      obtain rfl : x = id := arms
      obtain ⟨moved, t, _, live⟩ := linked.add executed
      exact ⟨moved, _, live, by rw [moved.jiffies]⟩
  | mod x expires interval repeatFlag =>
      obtain rfl : x = id := arms
      obtain ⟨moved, t, live, same, node⟩ := linked.mod executed
      exact ⟨moved, t, live, by rw [node, moved.jiffies, same]⟩
  | create x expires interval repeatFlag => exact arms.elim
  | del x => exact arms.elim
  | destruct x => exact arms.elim

/-- A timer that is past due when it is armed is parked in `tv5`. -/
theorem Linked.park (linked : Linked b) (arms : c.Arms id) (executed : c.exec b = .ok b₁)
    (late : Late b₁ id) :
    ∃ e front, Precedes b₁.timerJiffies e ∧ Parked id (lastSlot e) front b₁ := by
  obtain ⟨moved, t, live, node⟩ := linked.arm arms executed
  obtain ⟨t', live', past⟩ := late
  obtain rfl := Option.some.inj (live.symm.trans live')
  rw [slotFor_past past] at node
  have mem := (moved.linked.linked 4 (lastSlot t.expires) id).mpr ⟨t, live, node⟩
  obtain ⟨front, back, list⟩ := List.append_of_mem mem
  exact ⟨t.expires, front, past, moved.linked, back, list⟩

/-- It stays there while others do what they like. -/
theorem Parked.wait {i : Nat} {front : List TimerId} (parked : Parked id i front b₁)
    (wait : ((wheelSteps b₁).restrict fun _ ev => ev.Spares id).Run waiting b₂) :
    b₂.timerJiffies = b₁.timerJiffies ∧ ∃ front', Parked id i front' b₂ := by
  refine wait.invariant (I := fun _ b => b.timerJiffies = b₁.timerJiffies ∧
    ∃ front', Parked id i front' b) ?_ ?_
  · rintro b rfl
    exact ⟨rfl, front, parked⟩
  · rintro events b ev b' _ ⟨same, front', parked'⟩ ⟨spares, stepped⟩
    cases ev with
    | call c =>
        have moved := parked'.linked.call stepped.1 stepped.2
        obtain ⟨front₂, _, parked₂⟩ := parked'.moved spares moved
        exact ⟨moved.jiffies.trans same, front₂, parked₂⟩
    | head fuel => exact spares.elim
    | expire x =>
        obtain ⟨log, log', expired⟩ := stepped
        have moved := (parked'.linked.expire expired).1
        obtain ⟨front₂, _, parked₂⟩ := parked'.moved spares moved
        exact ⟨moved.jiffies.trans same, front₂, parked₂⟩

/-- **A timer that is past due misses the next tick.** On any wheel that calls and ticks lead
to, in a callback or outside of one: a timer is armed whose expiry precedes `timer_jiffies`,
and left alone. The next pass of `gp_run_timers`, which is for that value of `timer_jiffies`,
does not fire it. -/
theorem past_due_missed {j₀ : Nat} (run : (wheelSteps (createGpTimerBase j₀)).Run events b)
    (arms : c.Arms id) (executed : c.exec b = .ok b₁) (late : Late b₁ id)
    (wait : ((wheelSteps b₁).restrict fun _ ev => ev.Spares id).Run waiting b₂)
    {script : OpScript} (spares : script.Spares id) {fuel : Nat} {fired : List TimerId}
    (passed : b₂.pass fuel script.callback = .ok (b₃, fired)) :
    b₂.timerJiffies = b₁.timerJiffies ∧ id ∉ fired ∧
      ∃ t, b₃.timers id = some t ∧ t.node ≠ none := by
  have linked := run_linked (Linked.create j₀) run
  obtain ⟨e, front, past, parked⟩ := linked.park arms executed late
  obtain ⟨same, front₂, parked₂⟩ := parked.wait wait
  rw [← same] at past
  obtain ⟨missed, front₃, parked₃⟩ :=
    parked₂.pass past (fun x b => (spares x b).1) (fun x b => (spares x b).2) passed
  refine ⟨same, missed, ?_⟩
  obtain ⟨back, list⟩ := parked₃.list
  have mem : id ∈ b₃.vec 4 (lastSlot e) := by
    rw [list]
    exact List.mem_append_right _ List.mem_cons_self
  obtain ⟨t, live, node⟩ := (parked₃.linked.linked 4 _ id).mp mem
  exact ⟨t, live, by rw [node]; exact Option.some_ne_none _⟩

end Histories

/-- Callbacks that make no calls. -/
def noOps : OpScript := fun _ _ => []

/-- Tick 5 is over, and a timer is created that expired with it. -/
def tickFiveOver : GpTimerBase :=
  { createGpTimerBase 5 with timerJiffies := 6 }.setTimer 0 ⟨5, 0, 0, true, none⟩

theorem tickFiveOver_run :
    ∃ events, (wheelSteps (createGpTimerBase 5)).Run events tickFiveOver := by
  have typed : ∀ id b, TypedOps b (noOps id b) := fun _ _ => trivial
  have ran : gpRunTimers 1 noOps.callback 5 (createGpTimerBase 5) 2 =
      .ok ({ createGpTimerBase 5 with timerJiffies := 6 }, [(5, [])]) := rfl
  have fresh : (wheelSteps (createGpTimerBase 5)).Run [] (createGpTimerBase 5) := .init rfl
  obtain ⟨more, run⟩ := gpRunTimers_steps typed fresh ran
  have created : TimerOp.exec { createGpTimerBase 5 with timerJiffies := 6 } (.create 0 5 0 0) =
      .ok tickFiveOver := by
    simp [TimerOp.exec, createGpTimer, setLoop, GpTimerBase.timer, setTimer, tickFiveOver, bind,
      Except.bind, pure, Except.pure]
  have run' : (wheelSteps (createGpTimerBase 5)).Run (more ++ [.call (.create 0 5 0 0)])
      tickFiveOver := run.step ⟨⟨rfl, by decide⟩, created⟩
  exact ⟨_, run'⟩

theorem past_due_missed_five :
    ∃ b₁ b₃ fired, tickFiveOver.gpTimerAdd 0 = .ok b₁ ∧ Late b₁ 0 ∧ b₁.timerJiffies = 6 ∧
      b₁.pass 2 noOps.callback = .ok (b₃, fired) ∧ 0 ∉ fired := by
  obtain ⟨events, run⟩ := tickFiveOver_run
  have added : TimerOp.exec tickFiveOver (.add 0) = .ok (TimerOp.after tickFiveOver (.add 0)) := rfl
  have late : Late (TimerOp.after tickFiveOver (.add 0)) 0 := ⟨_, rfl, by decide⟩
  obtain ⟨b₃, passed⟩ : ∃ b₃, (TimerOp.after tickFiveOver (.add 0)).pass 2 noOps.callback =
      .ok (b₃, []) := ⟨_, rfl⟩
  have spares : noOps.Spares 0 := fun _ _ => ⟨trivial, nofun⟩
  have arms : TimerOp.Arms 0 (.add 0) := rfl
  have missed := past_due_missed run arms added late (.init rfl) spares passed
  exact ⟨_, b₃, [], added, late, rfl, passed, missed.2.1⟩

/-- A timer with interval 0 that is started after tick 5 does not fire in tick 6. -/
theorem zero_interval_missed :
    ∃ b b₁ b₂, gpRunTimers 1 quiet 5 (createGpTimerBase 5) 2 = .ok (b, [(5, [])]) ∧
      LoopCall.exec 5 b (.start 0 0 0) = .ok b₁ ∧ Late b₁ 0 ∧
      gpRunTimers 2 quiet 6 b₁ 2 = .ok (b₂, [(6, [])]) :=
  ⟨_, _, _, rfl, rfl, ⟨_, rfl, by decide⟩, rfl⟩

end GpBase.Timer

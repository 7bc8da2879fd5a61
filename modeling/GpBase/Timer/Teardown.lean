import Mathlib.Data.List.Nodup
import GpBase.Timer.Steps

/-!
# The end of a wheel

`destruct_gp_timer_base` goes through the lists of the five vectors and frees what is on
them. Whatever has been called before, it reads no timer that was freed, frees every
pending timer once and no other one: a timer that is on no list stays allocated.
-/

namespace GpBase.Timer

open GpBase.Lib GpTimerBase

/-! ## The code -/

/-- The body of the loops of `destruct_gp_timer_base`, which collect the freed timers. -/
def destructOne (s : GpTimerBase × List TimerId) (id : TimerId) :
    Except Fault (GpTimerBase × List TimerId) := do
  let b ← s.1.destructGpTimer id
  return (b, s.2 ++ [id])

/-- The slots in the order of `destruct_gp_timer_base`: those of `tv1`, then slot by slot
those of the four other vectors. -/
def slots : List (Nat × Nat) :=
  (List.range tvrSize).map (fun i => (0, i)) ++
    (List.range tvnSize).flatMap fun i => [(1, i), (2, i), (3, i), (4, i)]

/-- `destruct_gp_timer_base`, and the timers that it frees. -/
def GpTimerBase.destructGpTimerBase (fuel : Nat) (b : GpTimerBase) :
    Except Fault (GpTimerBase × List TimerId) :=
  slots.foldlM (fun s slot => foreachSafe fuel Prod.fst destructOne slot.1 slot.2 s) (b, [])

/-! ## The slots -/

theorem mem_slots {l i : Nat} :
    (l, i) ∈ slots ↔ l = 0 ∧ i < tvrSize ∨ (1 ≤ l ∧ l ≤ 4) ∧ i < tvnSize := by
  simp only [slots, List.mem_append, List.mem_map, List.mem_range, List.mem_flatMap,
    List.mem_cons, Prod.mk.injEq, List.not_mem_nil, or_false]
  constructor
  · rintro (⟨i', low, rfl, rfl⟩ | ⟨i', low, ⟨rfl, rfl⟩ | ⟨rfl, rfl⟩ | ⟨rfl, rfl⟩ | ⟨rfl, rfl⟩⟩)
    · exact .inl ⟨rfl, low⟩
    all_goals exact .inr ⟨by decide, low⟩
  · rintro (⟨rfl, low⟩ | ⟨⟨positive, most⟩, low⟩)
    · exact .inl ⟨i, low, rfl, rfl⟩
    · exact .inr ⟨i, low, by omega⟩

theorem slots_nodup : slots.Nodup := by
  refine List.nodup_append.mpr ⟨?_, ?_, ?_⟩
  · exact List.nodup_range.map fun i j same => congrArg Prod.snd same
  · refine List.nodup_flatMap.mpr ⟨fun i _ => by simp, ?_⟩
    -- lists for different slots share nothing
    refine List.nodup_range.imp ?_
    intro i j apart p here there
    simp only [List.mem_cons, List.not_mem_nil, or_false] at here there
    apply apart
    rcases here with rfl | rfl | rfl | rfl <;> simpa using there
  · rintro ⟨l, i⟩ here ⟨l', i'⟩ there same
    simp only [List.mem_map, List.mem_range, Prod.mk.injEq] at here
    simp only [List.mem_flatMap, List.mem_cons, Prod.mk.injEq, List.not_mem_nil, or_false] at there
    obtain ⟨rfl, rfl⟩ := Prod.mk.inj same
    omega

/-- `gp_timer_internal_add` always finds a slot. -/
theorem slotFor_mem (jiffies expires : Nat) : slotFor jiffies expires ∈ slots := by
  have root : ∀ n, n &&& tvrMask < tvrSize := fun n => Nat.lt_succ_of_le Nat.and_le_right
  have other : ∀ n, n &&& tvnMask < tvnSize := fun n => Nat.lt_succ_of_le Nat.and_le_right
  unfold slotFor
  dsimp only
  split
  · exact mem_slots.mpr (.inl ⟨rfl, root _⟩)
  split
  · exact mem_slots.mpr (.inr ⟨by decide, other _⟩)
  split
  · exact mem_slots.mpr (.inr ⟨by decide, other _⟩)
  split
  · exact mem_slots.mpr (.inr ⟨by decide, other _⟩)
  split
  · exact mem_slots.mpr (.inl ⟨rfl, root _⟩)
  · exact mem_slots.mpr (.inr ⟨by decide, other _⟩)

/-! ## Nothing lies outside the slots -/

/-- Only slots of the vectors hold timers. -/
def InSlots (b : GpTimerBase) : Prop := ∀ l i, b.vec l i ≠ [] → (l, i) ∈ slots

section InSlots

variable {b b' b₀ : GpTimerBase} {y : TimerId} {events : List WheelEvent}

theorem InSlots.of_vec (inside : InSlots b) (vec : b'.vec = b.vec) : InSlots b' := by
  unfold InSlots
  rw [vec]
  exact inside

/-- One list changes: what has to be shown of it. -/
theorem InSlots.setList (inside : InSlots b) {l i : Nat} {ids : List TimerId}
    (here : ids ≠ [] → (l, i) ∈ slots) : InSlots (b.setList l i ids) := by
  intro l' i' filled
  rw [setList_vec] at filled
  split at filled
  · rename_i same
    rw [same.1, same.2]
    exact here filled
  · exact inside l' i' filled

theorem InSlots.remove (inside : InSlots b) (removed : b.listNodeRemove y = .ok b') :
    InSlots b' := by
  obtain ⟨t, _, removed⟩ := bind_eq_ok removed
  cases node : t.node with
  | none =>
      rw [node] at removed
      cases removed
      exact inside
  | some place =>
      obtain ⟨l, i⟩ := place
      rw [node] at removed
      cases removed
      refine InSlots.of_vec (inside.setList ?_) (setTimer_vec _ _ _)
      intro filled
      apply inside
      rintro empty
      rw [empty] at filled
      exact filled rfl

theorem InSlots.internalAdd (inside : InSlots b) (added : b.gpTimerInternalAdd y = .ok b') :
    InSlots b' := by
  obtain ⟨t, _, added⟩ := bind_eq_ok added
  obtain ⟨b₁, appended, added⟩ := bind_eq_ok added
  obtain ⟨t', _, appended⟩ := bind_eq_ok appended
  cases appended
  cases added
  exact InSlots.of_vec (inside.setList fun _ => slotFor_mem _ _) rfl

theorem InSlots.add (inside : InSlots b) (added : b.gpTimerAdd y = .ok b') : InSlots b' := by
  obtain ⟨b₁, removed, added⟩ := bind_eq_ok added
  exact (inside.remove removed).internalAdd added

theorem InSlots.destruct (inside : InSlots b) (destructed : b.destructGpTimer y = .ok b') :
    InSlots b' := by
  obtain ⟨b₁, removed, destructed⟩ := bind_eq_ok destructed
  cases destructed
  exact InSlots.of_vec (inside.remove removed) rfl

theorem InSlots.call (inside : InSlots b) {c : TimerOp} (executed : c.exec b = .ok b') :
    InSlots b' := by
  cases c with
  | create id expires interval repeatFlag =>
      obtain ⟨t, _, executed⟩ := bind_eq_ok executed
      cases executed
      exact inside.of_vec rfl
  | add id => exact inside.add executed
  | del id => exact inside.remove executed
  | mod id expires interval repeatFlag =>
      obtain ⟨b₁, removed, executed⟩ := bind_eq_ok executed
      obtain ⟨t, _, added⟩ := bind_eq_ok executed
      exact InSlots.add (InSlots.of_vec (inside.remove removed) (setTimer_vec _ _ _)) added
  | destruct id => exact inside.destruct executed

theorem InSlots.cascadeOne (inside : InSlots b) (cascaded : cascadeOne b y = .ok b') :
    InSlots b' := by
  obtain ⟨b₁, removed, cascaded⟩ := bind_eq_ok cascaded
  obtain ⟨t, _, cascaded⟩ := bind_eq_ok cascaded
  split at cascaded
  · cases cascaded
  · exact (inside.remove removed).internalAdd cascaded

theorem InSlots.cascades (inside : InSlots b) {fuel : Nat} {ns : List Nat}
    (cascaded : cascades fuel b ns = .ok b') : InSlots b' := by
  induction ns generalizing b with
  | nil =>
      cases cascaded
      exact inside
  | cons n ns ih =>
      obtain ⟨b₁, first, cascaded⟩ := bind_eq_ok cascaded
      obtain ⟨_, _, ran⟩ := bind_eq_ok first
      have inside₁ : InSlots b₁ :=
        foreachLoop_keeps (fun _ _ _ keeps done => InSlots.cascadeOne keeps done) inside ran
      split at cascaded
      · exact ih inside₁ cascaded
      · cases cascaded
        exact inside₁

theorem InSlots.expire (inside : InSlots b) {log log' : List TimerId}
    (expired : expireOne quiet (b, log) y = .ok (b', log')) : InSlots b' := by
  obtain ⟨_, ⟨⟩, expired⟩ := bind_eq_ok expired
  obtain ⟨b₁, deleted, expired⟩ := bind_eq_ok expired
  obtain ⟨t, _, expired⟩ := bind_eq_ok expired
  have inside₁ : InSlots b₁ := inside.remove deleted
  dsimp only at expired
  split at expired
  · obtain ⟨b₂, settled, expired⟩ := bind_eq_ok expired
    cases expired
    exact InSlots.of_vec (InSlots.add (inside₁.of_vec (setTimer_vec _ _ _)) settled) rfl
  · obtain ⟨b₂, settled, expired⟩ := bind_eq_ok expired
    cases expired
    exact InSlots.of_vec (inside₁.destruct settled) rfl

theorem run_inSlots (inside : InSlots b₀) (run : (wheelSteps b₀).Run events b) : InSlots b := by
  refine run.invariant (I := fun _ b => InSlots b) ?_ ?_
  · rintro b rfl
    exact inside
  · intro events b ev b' _ inside stepped
    cases ev with
    | call c => exact inside.call stepped.2
    | head fuel =>
        obtain ⟨b₁, headed, rfl⟩ := stepped
        unfold passHead at headed
        split at headed
        · exact InSlots.of_vec (inside.cascades headed) rfl
        · cases headed
          exact inside.of_vec rfl
    | expire id =>
        obtain ⟨log, log', expired⟩ := stepped
        exact inside.expire expired

end InSlots

/-! ## The loops of `destruct_gp_timer_base` -/

/-- `destruct_gp_timer`, of a timer that is allocated. -/
theorem Linked.destruct_eq {b : GpTimerBase} {y : TimerId} {t : GpTimerList} (linked : Linked b)
    (live : b.timers y = some t) :
    ∃ b', b.destructGpTimer y = .ok b' ∧ Linked b' ∧
      b'.timers = Function.update b.timers y none ∧ ∀ l i, b'.vec l i = (b.vec l i).erase y := by
  obtain ⟨b₁, removed, _, _, timers, vec⟩ := linked.listNodeRemove_eq live
  have destructed : b.destructGpTimer y =
      .ok { b₁ with timers := Function.update b₁.timers y none } := by
    simp only [destructGpTimer, removed, bind, Except.bind, pure, Except.pure]
  refine ⟨_, destructed, (linked.destruct destructed).linked, ?_, vec⟩
  rw [timers, Function.update_idem]

/-- `b` without the timers `freed`, which were on the lists `gone`. -/
structure Freed (b : GpTimerBase) (freed : List TimerId) (b' : GpTimerBase) : Prop where
  linked : Linked b'
  timers : ∀ id, b'.timers id = if id ∈ freed then none else b.timers id
  vec : ∀ l i, b'.vec l i = (b.vec l i).filter (· ∉ freed)

section Freed

variable {b b' : GpTimerBase} {freed : List TimerId}

theorem Freed.refl (linked : Linked b) : Freed b [] b :=
  ⟨linked, fun _ => rfl, fun l i => by simp⟩

/-- One timer more. -/
theorem Freed.step (gone : Freed b freed b') {y : TimerId} {l i : Nat} (mem : y ∈ b'.vec l i) :
    ∃ b'', b'.destructGpTimer y = .ok b'' ∧ b''.vec l i = (b'.vec l i).erase y ∧
      Freed b (freed ++ [y]) b'' := by
  obtain ⟨t, live, _⟩ := (gone.linked.linked l i y).mp mem
  obtain ⟨b'', destructed, linked, timers, vec⟩ := gone.linked.destruct_eq live
  refine ⟨b'', destructed, vec l i, linked, ?_, ?_⟩
  · intro id
    rw [timers, Function.update_apply, gone.timers]
    by_cases same : id = y <;> simp [same]
  · intro l i
    rw [vec, (gone.linked.nodup l i).erase_eq_filter, gone.vec, List.filter_filter]
    apply List.filter_congr
    intro id _
    by_cases same : id = y <;> simp [same]

/-- The loop over one list frees it, from the front. -/
theorem Freed.slot (gone : Freed b freed b') {l i fuel : Nat}
    (enough : (b'.vec l i).length < fuel) :
    ∃ b'', foreachSafe fuel Prod.fst destructOne l i (b', freed) =
        .ok (b'', freed ++ b'.vec l i) ∧ Freed b (freed ++ b'.vec l i) b'' := by
  -- what is left of the list is what has not been freed
  let Left : GpTimerBase × List TimerId → List TimerId → Prop := fun s left =>
    s.1.vec l i = left ∧ Freed b s.2 s.1 ∧ s.2 ++ left = freed ++ b'.vec l i
  have next : ∀ s id rest, Left s (id :: rest) → s.1.listNext l i (some id) = .ok rest.head? := by
    rintro s id rest ⟨list, before, _⟩
    exact before.linked.listNext list
  have step : ∀ s id rest, Left s (id :: rest) → ∃ s', destructOne s id = .ok s' ∧ Left s' rest := by
    rintro s id rest ⟨list, before, all⟩
    obtain ⟨b'', destructed, shorter, after⟩ := before.step (list ▸ List.mem_cons_self)
    refine ⟨(b'', s.2 ++ [id]), ?_, ?_, after, by simpa using all⟩
    · simp only [destructOne, destructed, bind, Except.bind, pure, Except.pure]
    · rw [shorter, list, List.erase_cons_head]
  rcases foreachSafe_drain Prod.fst destructOne next step (s := (b', freed)) ⟨rfl, gone, rfl⟩ fuel
    with ⟨_, ⟨b'', log⟩, ran, _, after, all⟩ | few
  · obtain rfl : log = freed ++ b'.vec l i := by simpa using all
    exact ⟨b'', ran, after⟩
  · exact absurd enough (Nat.not_lt.mpr few.1)

/-- The loops over a row of lists. -/
theorem Freed.slots (linked : Linked b) {fuel : Nat} (enough : ∀ l i, (b.vec l i).length < fuel)
    {row : List (Nat × Nat)} (nodup : row.Nodup) :
    ∀ {b' freed}, Freed b freed b' → (∀ p ∈ row, b'.vec p.1 p.2 = b.vec p.1 p.2) →
    ∃ b'', row.foldlM (fun s slot => foreachSafe fuel Prod.fst destructOne slot.1 slot.2 s)
        (b', freed) = .ok (b'', freed ++ row.flatMap fun p => b.vec p.1 p.2) ∧
      Freed b (freed ++ row.flatMap fun p => b.vec p.1 p.2) b'' := by
  induction row with
  | nil =>
      intro b' freed gone _
      rw [List.flatMap_nil, List.append_nil]
      exact ⟨b', rfl, gone⟩
  | cons p row ih =>
      intro b' freed gone same
      have here : b'.vec p.1 p.2 = b.vec p.1 p.2 := same p List.mem_cons_self
      obtain ⟨b₁, ran, gone₁⟩ := gone.slot (l := p.1) (i := p.2) (here ▸ enough p.1 p.2)
      rw [here] at ran gone₁
      -- the lists that follow share no timer with this one
      have later : ∀ q ∈ row, b₁.vec q.1 q.2 = b.vec q.1 q.2 := by
        intro q mem
        rw [gone₁.vec]
        apply List.filter_eq_self.mpr
        intro id on
        have before : id ∈ b'.vec q.1 q.2 := by rwa [same q (List.mem_cons_of_mem _ mem)]
        rw [gone.vec] at before
        have kept : id ∉ freed := by simpa using (List.mem_filter.mp before).2
        have elsewhere : id ∉ b.vec p.1 p.2 := by
          intro on'
          obtain ⟨t, live, node⟩ := (linked.linked q.1 q.2 id).mp on
          have node' := linked.node_of_mem live on'
          rw [node] at node'
          obtain rfl : q = p := Option.some.inj node'
          exact (List.nodup_cons.mp nodup).1 mem
        simp [kept, elsewhere]
      obtain ⟨b'', ran', gone'⟩ := ih (List.nodup_cons.mp nodup).2 gone₁ later
      rw [List.append_assoc] at ran' gone'
      rw [List.flatMap_cons]
      refine ⟨b'', ?_, gone'⟩
      rw [List.foldlM_cons, ran]
      exact ran'

end Freed

/-- **The end of a wheel.** Whatever calls and passes came before, `destruct_gp_timer_base`
runs to its end without reading a timer that was freed. It frees the pending timers, list
by list, each of them once; the others stay allocated as they are. -/
theorem destruct_frees_pending {j₀ fuel : Nat} {events : List WheelEvent} {b : GpTimerBase}
    (run : (wheelSteps (createGpTimerBase j₀)).Run events b)
    (enough : ∀ l i, (b.vec l i).length < fuel) :
    ∃ b' freed, b.destructGpTimerBase fuel = .ok (b', freed) ∧
      freed = slots.flatMap (fun p => b.vec p.1 p.2) ∧ freed.Nodup ∧
      (∀ id, id ∈ freed ↔ ∃ t, b.timers id = some t ∧ t.node ≠ none) ∧
      ∀ id, b'.timers id = if id ∈ freed then none else b.timers id := by
  have linked : Linked b := run_linked (.create j₀) run
  have inside : InSlots b := run_inSlots (fun _ _ filled => absurd rfl filled) run
  obtain ⟨b', ran, gone⟩ := Freed.slots linked enough slots_nodup (.refl linked) fun _ _ => rfl
  rw [List.nil_append] at ran gone
  refine ⟨b', _, ran, rfl, ?_, ?_, gone.timers⟩
  · refine List.nodup_flatMap.mpr ⟨fun p _ => linked.nodup p.1 p.2, ?_⟩
    refine slots_nodup.imp ?_
    intro p q apart id here there
    obtain ⟨t, live, node⟩ := (linked.linked p.1 p.2 id).mp here
    have node' := linked.node_of_mem live there
    rw [node] at node'
    exact apart (Option.some.inj node')
  · intro id
    rw [List.mem_flatMap]
    constructor
    · rintro ⟨p, _, mem⟩
      obtain ⟨t, live, node⟩ := (linked.linked p.1 p.2 id).mp mem
      exact ⟨t, live, by simp [node]⟩
    · rintro ⟨t, live, pending⟩
      obtain ⟨⟨l, i⟩, node⟩ := Option.ne_none_iff_exists'.mp pending
      have mem : id ∈ b.vec l i := (linked.linked l i id).mpr ⟨t, live, node⟩
      exact ⟨(l, i), inside l i (List.ne_nil_of_mem mem), mem⟩

/-- A pending timer and one that was never added. -/
theorem destruct_frees_pending_one :
    ∃ b, (wheelSteps (createGpTimerBase 0)).Run
        [.call (.create 1 5 0 0), .call (.add 1), .call (.create 2 7 0 0)] b ∧
      ∃ b' freed, b.destructGpTimerBase 2 = .ok (b', freed) ∧ 1 ∈ freed ∧ b'.timers 1 = none ∧
        b'.timers 2 = b.timers 2 ∧ b.timers 2 ≠ none := by
  let M := wheelSteps (createGpTimerBase 0)
  let b₁ := (TimerOp.create 1 5 0 0).after (createGpTimerBase 0)
  let b₂ := (TimerOp.add 1).after b₁
  let b₃ := (TimerOp.create 2 7 0 0).after b₂
  have run₀ : M.Run [] (createGpTimerBase 0) := .init rfl
  have run₁ : M.Run [.call (.create 1 5 0 0)] b₁ := .step run₀ ⟨⟨rfl, by decide⟩, rfl⟩
  have run₂ : M.Run [.call (.create 1 5 0 0), .call (.add 1)] b₂ := .step run₁ ⟨trivial, rfl⟩
  have run₃ : M.Run [.call (.create 1 5 0 0), .call (.add 1), .call (.create 2 7 0 0)] b₃ :=
    .step run₂ ⟨⟨rfl, by decide⟩, rfl⟩
  have enough : ∀ l i, (b₃.vec l i).length < 2 := by
    intro l i
    have lists : b₃.vec l i = if l = 0 ∧ i = 5 then [1] else [] :=
      setList_vec (createGpTimerBase 0) 0 5 l i [1]
    rw [lists]
    split <;> decide
  obtain ⟨b', freed, ran, _, _, pending, timers⟩ := destruct_frees_pending run₃ enough
  have first : 1 ∈ freed := (pending 1).mpr ⟨_, rfl, by decide⟩
  have second : 2 ∉ freed := by
    rw [pending]
    rintro ⟨t, ⟨⟩, node⟩
    exact node rfl
  have live : b₃.timers 2 ≠ none := by
    intro free
    cases free
  refine ⟨b₃, run₃, b', freed, ran, first, ?_, ?_, live⟩
  · rw [timers, if_pos first]
  · rw [timers, if_neg second]

end GpBase.Timer

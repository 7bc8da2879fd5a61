import GpBase.Lib.Outcome
import GpBase.Timer.Model

/-!
# The lists of the wheel

A timer is on the list that its node names and on no other. No promise of the callers is
needed for that: it holds whatever expiries, intervals and flags are given. A call about
one timer takes it from its list and appends it at most once; the others keep their order.
-/

namespace GpBase.Timer

open GpBase.Lib GpTimerBase

@[simp] theorem setList_vec (b : GpTimerBase) (l i l' i' : Nat) (ids : List TimerId) :
    (b.setList l i ids).vec l' i' = if l' = l ∧ i' = i then ids else b.vec l' i' := by
  unfold GpTimerBase.setList
  by_cases hl : l' = l
  · subst hl
    by_cases hi : i' = i
    · subst hi
      simp
    · simp [hi]
  · simp [hl]

@[simp] theorem setTimer_vec (b : GpTimerBase) (id : TimerId) (t : GpTimerList) :
    (b.setTimer id t).vec = b.vec := rfl

/-- A timer is on the list of its node. -/
structure Linked (b : GpTimerBase) : Prop where
  linked : ∀ l i id, id ∈ b.vec l i ↔ ∃ t, b.timers id = some t ∧ t.node = some (l, i)
  nodup : ∀ l i, (b.vec l i).Nodup

section Linked

variable {b b' : GpTimerBase} {y : TimerId} {t : GpTimerList}

theorem Linked.create (j₀ : Nat) : Linked (createGpTimerBase j₀) := by
  refine ⟨?_, fun l i => List.nodup_nil⟩
  intro l i id
  constructor
  · intro mem
    cases mem
  · rintro ⟨t, ⟨⟩, _⟩

theorem timers_of_timer (read : b.timer y = .ok t) : b.timers y = some t := by
  unfold GpTimerBase.timer at read
  cases live : b.timers y with
  | none =>
      rw [live] at read
      cases read
  | some t' =>
      rw [live] at read
      exact congrArg some (Except.ok.inj read)

/-- A timer is only on the list that its node names. -/
theorem Linked.node_of_mem (linked : Linked b) (live : b.timers y = some t) {l i : Nat}
    (mem : y ∈ b.vec l i) : t.node = some (l, i) := by
  obtain ⟨t', live', node⟩ := (linked.linked l i y).mp mem
  rw [live] at live'
  rw [Option.some.inj live']
  exact node

/-- An idle timer is on no list. -/
theorem Linked.not_mem (linked : Linked b) (idle : ∀ t, b.timers y = some t → t.node = none)
    (l i : Nat) : y ∉ b.vec l i := by
  intro mem
  obtain ⟨t, live, node⟩ := (linked.linked l i y).mp mem
  rw [idle t live] at node
  cases node

/-- The next timer on a list. -/
theorem Linked.listNext (linked : Linked b) {l i : Nat} {rest : List TimerId}
    (list : b.vec l i = y :: rest) : b.listNext l i (some y) = .ok rest.head? := by
  obtain ⟨t, live, node⟩ := (linked.linked l i y).mp (list ▸ List.mem_cons_self)
  simp only [GpTimerBase.listNext, GpTimerBase.timer, live, bind, Except.bind, node, list,
    List.idxOf_cons_self, Nat.zero_add, List.drop_succ_cons, List.drop_zero]
  cases rest with
  | nil => simp [pure, Except.pure]
  | cons id' rest => rfl

/-- Everything but one timer stays: what has to be shown of that timer. -/
theorem Linked.update (linked : Linked b) {u : Option GpTimerList}
    (timers : b'.timers = Function.update b.timers y u)
    (others : ∀ l i x, x ≠ y → (x ∈ b'.vec l i ↔ x ∈ b.vec l i))
    (own : ∀ l i, y ∈ b'.vec l i ↔ ∃ t, u = some t ∧ t.node = some (l, i))
    (nodup : ∀ l i, (b'.vec l i).Nodup) : Linked b' := by
  refine ⟨?_, nodup⟩
  intro l i x
  by_cases same : x = y
  · subst same
    rw [own, timers, Function.update_self]
  · rw [others l i x same, linked.linked l i x, timers, Function.update_of_ne same]

/-- A change of the record of a timer that is on no list, before and after it. -/
theorem Linked.record (linked : Linked b) (idle : ∀ t, b.timers y = some t → t.node = none)
    {u : Option GpTimerList} (off : ∀ t, u = some t → t.node = none)
    (timers : b'.timers = Function.update b.timers y u) (vec : b'.vec = b.vec) : Linked b' := by
  refine linked.update timers ?_ ?_ ?_
  · intro l i x _
    rw [vec]
  · intro l i
    rw [vec]
    constructor
    · intro mem
      exact absurd mem (linked.not_mem idle l i)
    · rintro ⟨t, rfl, node⟩
      rw [off t rfl] at node
      cases node
  · rw [vec]
    exact linked.nodup

/-- `gp_list_node_remove` takes a timer off its list, if it is on one. -/
theorem Linked.listNodeRemove_eq (linked : Linked b) (live : b.timers y = some t) :
    ∃ b', b.listNodeRemove y = .ok b' ∧ Linked b' ∧ b'.timerJiffies = b.timerJiffies ∧
      b'.timers = Function.update b.timers y (some { t with node := none }) ∧
      ∀ l i, b'.vec l i = (b.vec l i).erase y := by
  -- a list that the timer is not on does not change, so all lists are erased from alike
  have elsewhere : ∀ l i, t.node ≠ some (l, i) → b.vec l i = (b.vec l i).erase y := by
    intro l i apart
    symm
    apply List.erase_of_not_mem
    intro mem
    exact apart (linked.node_of_mem live mem)
  obtain ⟨b', removed, jiffies, timers, vec⟩ : ∃ b', b.listNodeRemove y = .ok b' ∧
      b'.timerJiffies = b.timerJiffies ∧
      b'.timers = Function.update b.timers y (some { t with node := none }) ∧
      ∀ l i, b'.vec l i = (b.vec l i).erase y := by
    unfold GpTimerBase.listNodeRemove
    simp only [GpTimerBase.timer, live, bind, Except.bind]
    cases node : t.node with
    | none =>
        refine ⟨b, rfl, rfl, ?_, ?_⟩
        · rw [show { t with node := none } = t by rw [← node], ← live, Function.update_eq_self]
        · intro l i
          exact elsewhere l i (by simp [node])
    | some place =>
        obtain ⟨l, i⟩ := place
        refine ⟨_, rfl, rfl, rfl, ?_⟩
        intro l' i'
        simp only [setTimer_vec, setList_vec]
        split
        · rename_i same
          rw [same.1, same.2]
        · rename_i apart
          apply elsewhere
          rw [node]
          rintro ⟨⟩
          exact apart ⟨rfl, rfl⟩
  refine ⟨b', removed, linked.update timers ?_ ?_ ?_, jiffies, timers, vec⟩
  · intro l i x apart
    rw [vec, List.mem_erase_of_ne apart]
  · intro l i
    rw [vec]
    constructor
    · intro mem
      exact absurd mem (linked.nodup l i).not_mem_erase
    · rintro ⟨_, ⟨⟩, ⟨⟩⟩
  · intro l i
    rw [vec]
    exact (linked.nodup l i).erase y

/-- `gp_list_append`, of an idle timer. -/
theorem Linked.listAppend_eq (linked : Linked b) (live : b.timers y = some t)
    (idle : t.node = none) (l i : Nat) :
    ∃ b', b.listAppend l i y = .ok b' ∧ Linked b' ∧ b'.timerJiffies = b.timerJiffies ∧
      b'.timers = Function.update b.timers y (some { t with node := some (l, i) }) ∧
      ∀ l' i', b'.vec l' i' = if l' = l ∧ i' = i then b.vec l i ++ [y] else b.vec l' i' := by
  have notOn : ∀ l i, y ∉ b.vec l i := by
    intro l i mem
    have node := linked.node_of_mem live mem
    rw [idle] at node
    cases node
  have appended : b.listAppend l i y =
      .ok ((b.setList l i (b.vec l i ++ [y])).setTimer y { t with node := some (l, i) }) := by
    simp only [GpTimerBase.listAppend, GpTimerBase.timer, live, bind, Except.bind]
    rfl
  have vec : ∀ l' i', ((b.setList l i (b.vec l i ++ [y])).setTimer y
      { t with node := some (l, i) }).vec l' i' =
        if l' = l ∧ i' = i then b.vec l i ++ [y] else b.vec l' i' := by
    intro l' i'
    rw [setTimer_vec, setList_vec]
  refine ⟨_, appended, linked.update (u := some { t with node := some (l, i) }) rfl ?_ ?_ ?_, rfl,
    rfl, vec⟩
  · intro l' i' x apart
    rw [vec]
    split
    · rename_i same
      rw [same.1, same.2, List.mem_append, List.mem_singleton, or_iff_left apart]
    · rfl
  · intro l' i'
    rw [vec]
    split
    · rename_i same
      simp [same.1, same.2]
    · rename_i apart
      constructor
      · intro mem
        exact absurd mem (notOn l' i')
      · rintro ⟨_, ⟨⟩, node⟩
        cases node
        exact absurd ⟨rfl, rfl⟩ apart
  · intro l' i'
    rw [vec]
    split
    · refine List.nodup_append.mpr ⟨linked.nodup l i, List.nodup_singleton y, ?_⟩
      intro x mem x' mem' same
      obtain rfl := List.mem_singleton.mp mem'
      exact notOn l i (same ▸ mem)
    · exact linked.nodup l' i'

end Linked

/-! ## Calls about one timer -/

/-- What a call about timer `y` does: it is taken from its list, and may be appended. -/
structure Moved (y : TimerId) (b b' : GpTimerBase) : Prop where
  linked : Linked b'
  jiffies : b'.timerJiffies = b.timerJiffies
  lists : ∀ l i, b'.vec l i = (b.vec l i).erase y ∨ b'.vec l i = (b.vec l i).erase y ++ [y]

section Moved

variable {b b' b'' : GpTimerBase} {y : TimerId} {t : GpTimerList}

theorem Moved.trans (linked : Linked b) (first : Moved y b b') (second : Moved y b' b'') :
    Moved y b b'' := by
  refine ⟨second.linked, second.jiffies.trans first.jiffies, ?_⟩
  intro l i
  have gone : y ∉ (b.vec l i).erase y := (linked.nodup l i).not_mem_erase
  -- whether the first call appended it or not, the second one starts by erasing it
  have again : (b'.vec l i).erase y = (b.vec l i).erase y := by
    rcases first.lists l i with same | appended
    · rw [same, List.erase_of_not_mem gone]
    · rw [appended, List.erase_append_right _ gone, List.erase_cons_head, List.append_nil]
  rw [← again]
  exact second.lists l i

/-- `next_timer` is computed. -/
theorem Moved.updateNext (moved : Moved y b b') : Moved y b b'.updateNext :=
  ⟨⟨moved.linked.linked, moved.linked.nodup⟩, moved.jiffies, moved.lists⟩

/-- Only the record of a timer that is on no list changes. -/
theorem Linked.moved (linked : Linked b) (idle : ∀ t, b.timers y = some t → t.node = none)
    (linked' : Linked b') (jiffies : b'.timerJiffies = b.timerJiffies) (vec : b'.vec = b.vec) :
    Moved y b b' := by
  refine ⟨linked', jiffies, ?_⟩
  intro l i
  rw [vec]
  exact .inl (List.erase_of_not_mem (linked.not_mem idle l i)).symm

/-- `gp_list_node_remove`. -/
theorem Linked.remove (linked : Linked b) (removed : b.listNodeRemove y = .ok b') :
    Moved y b b' ∧ ∃ t, b.timers y = some t ∧ b'.timers y = some { t with node := none } := by
  obtain ⟨t, read, _⟩ := bind_eq_ok removed
  have live := timers_of_timer read
  obtain ⟨b₁, removed₁, linked₁, jiffies, timers, vec⟩ := linked.listNodeRemove_eq live
  obtain rfl := Except.ok.inj (removed₁.symm.trans removed)
  refine ⟨⟨linked₁, jiffies, fun l i => .inl (vec l i)⟩, t, live, ?_⟩
  rw [timers, Function.update_self]

/-- `gp_timer_internal_add` appends an idle timer to the list of its expiry. -/
theorem Linked.internalAdd (linked : Linked b) (live : b.timers y = some t) (idle : t.node = none)
    (added : b.gpTimerInternalAdd y = .ok b') :
    Moved y b b' ∧
      b'.timers y = some { t with node := some (slotFor b.timerJiffies t.expires) } := by
  have off : ∀ u, b.timers y = some u → u.node = none := by
    intro u live'
    obtain rfl := Option.some.inj (live.symm.trans live')
    exact idle
  obtain ⟨b₁, appended, linked₁, jiffies, timers, vec⟩ := linked.listAppend_eq live idle
    (slotFor b.timerJiffies t.expires).1 (slotFor b.timerJiffies t.expires).2
  simp only [gpTimerInternalAdd, GpTimerBase.timer, live, bind, Except.bind, appended, pure,
    Except.pure, Except.ok.injEq] at added
  subst added
  have moved : Moved y b b₁ := by
    refine ⟨linked₁, jiffies, ?_⟩
    intro l i
    rw [vec, List.erase_of_not_mem (linked.not_mem off l i)]
    split
    · rename_i here
      rw [here.1, here.2]
      exact .inr rfl
    · exact .inl rfl
  refine ⟨moved.updateNext, ?_⟩
  show b₁.timers y = _
  rw [timers, Function.update_self]

/-- `gp_timer_add`. -/
theorem Linked.add (linked : Linked b) (added : b.gpTimerAdd y = .ok b') :
    Moved y b b' ∧ ∃ t, b.timers y = some t ∧
      b'.timers y = some { t with node := some (slotFor b.timerJiffies t.expires) } := by
  obtain ⟨b₁, removed, added⟩ := bind_eq_ok added
  obtain ⟨moved₁, t, live, live₁⟩ := linked.remove removed
  obtain ⟨moved₂, live₂⟩ := moved₁.linked.internalAdd live₁ rfl added
  rw [moved₁.jiffies] at live₂
  exact ⟨moved₁.trans linked moved₂, t, live, live₂⟩

/-- An idle timer gets new values and is added. -/
theorem Linked.assign (linked : Linked b) (live : b.timers y = some t) (idle : t.node = none)
    {t' : GpTimerList} (off : t'.node = none) (added : (b.setTimer y t').gpTimerAdd y = .ok b') :
    Moved y b b' ∧
      b'.timers y = some { t' with node := some (slotFor b.timerJiffies t'.expires) } := by
  have unlinked : ∀ u, b.timers y = some u → u.node = none := by
    intro u live'
    obtain rfl := Option.some.inj (live.symm.trans live')
    exact idle
  have linked' : Linked (b.setTimer y t') := by
    refine linked.record (u := some t') unlinked ?_ rfl rfl
    rintro _ ⟨⟩
    exact off
  have recorded : Moved y b (b.setTimer y t') := linked.moved unlinked linked' rfl rfl
  obtain ⟨moved, u, live', placed⟩ := recorded.linked.add added
  have here : (b.setTimer y t').timers y = some t' := Function.update_self ..
  obtain rfl := Option.some.inj (here.symm.trans live')
  exact ⟨recorded.trans linked moved, placed⟩

/-- `gp_timer_mod`. -/
theorem Linked.mod (linked : Linked b) {expires : Nat} {interval repeatFlag : Int}
    (modified : b.gpTimerMod y expires interval repeatFlag = .ok b') :
    Moved y b b' ∧ ∃ t, b'.timers y = some t ∧ t.expires = expires ∧
      t.node = some (slotFor b.timerJiffies expires) := by
  obtain ⟨b₁, deleted, modified⟩ := bind_eq_ok modified
  obtain ⟨moved₁, t, _, live₁⟩ := linked.remove deleted
  simp only [GpTimerBase.timer, live₁, bind, Except.bind] at modified
  obtain ⟨moved₂, live₂⟩ := moved₁.linked.assign live₁ rfl rfl modified
  rw [moved₁.jiffies] at live₂
  exact ⟨moved₁.trans linked moved₂, _, live₂, rfl, rfl⟩

/-- `destruct_gp_timer`. -/
theorem Linked.destruct (linked : Linked b) (destructed : b.destructGpTimer y = .ok b') :
    Moved y b b' := by
  obtain ⟨b₁, removed, destructed⟩ := bind_eq_ok destructed
  obtain ⟨moved₁, t, _, live₁⟩ := linked.remove removed
  obtain rfl := Except.ok.inj destructed
  have unlinked : ∀ u, b₁.timers y = some u → u.node = none := by
    intro u live'
    obtain rfl := Option.some.inj (live₁.symm.trans live')
    rfl
  have linked₂ : Linked { b₁ with timers := Function.update b₁.timers y none } :=
    moved₁.linked.record (u := none) unlinked nofun rfl rfl
  exact moved₁.trans linked (moved₁.linked.moved unlinked linked₂ rfl rfl)

end Moved

end GpBase.Timer

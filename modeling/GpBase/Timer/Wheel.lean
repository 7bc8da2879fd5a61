import GpBase.Timer.Linked

/-!
# The invariant of the timer wheel

Time is counted without wrapping: `J` is the next tick to process, and a pending
timer has a deadline `E ≥ J` whose low 32 bits are its `expires`. In `tv1` a timer
lies within 256 ticks of `J`. In a later vector the tick that matters is the start
of the timer's block, at which its slot is cascaded: that tick is not over yet,
and no earlier one cascades the same slot.
-/

namespace GpBase.Timer

open GpBase.Lib

/-! ## Places -/

/-- The width of the blocks of vector `l ≥ 1`, as a power of two. -/
def shift (l : Nat) : Nat := tvrBits + (l - 1) * tvnBits

/-- The first tick of the block of `E` in vector `l`. -/
def block (l E : Nat) : Nat := 2 ^ shift l * (E / 2 ^ shift l)

/-- A timer with deadline `E` may be in slot `i` of vector `l` at tick `J`. -/
inductive Place (J E : Nat) : Nat → Nat → Prop
  | root {i : Nat} : J ≤ E → E < J + tvrSize → i = E % tvrSize → Place J E 0 i
  | wheel {l i : Nat} : 1 ≤ l → l ≤ 4 → J ≤ block l E → block l E < J + 2 ^ (shift l + tvnBits) →
      i = E / 2 ^ shift l % tvnSize → Place J E l i

theorem block_le (l E : Nat) : block l E ≤ E := Nat.mul_div_le E _

theorem lt_block_add (l E : Nat) : E < block l E + 2 ^ shift l := by
  have := Nat.lt_mul_div_succ E (Nat.two_pow_pos (shift l))
  rwa [Nat.mul_succ] at this

theorem block_mod (l E : Nat) : block l E % 2 ^ shift l = 0 := Nat.mul_mod_right _ _

theorem Place.le {J E l i : Nat} (place : Place J E l i) : J ≤ E := by
  cases place with
  | root low _ _ => exact low
  | wheel _ _ low _ _ => exact low.trans (block_le l E)

/-- A deadline at least one block ahead is placed strictly before its block. -/
theorem lt_block {J E l : Nat} (ahead : J + 2 ^ shift l ≤ E) : J < block l E := by
  have := lt_block_add l E
  omega

theorem slot_eq {E l : Nat} (bound : shift l + tvnBits ≤ 32) :
    (E % 2 ^ 32) >>> shift l &&& tvnMask = E / 2 ^ shift l % tvnSize := by
  have whole : 2 ^ 32 = 2 ^ shift l * 2 ^ (32 - shift l) := by
    rw [← Nat.pow_add, Nat.add_sub_cancel' (by omega)]
  rw [show tvnMask = 2 ^ 6 - 1 from rfl, Nat.and_two_pow_sub_one_eq_mod, Nat.shiftRight_eq_div_pow,
    whole, Nat.mod_mul_right_div_self]
  exact Nat.mod_mod_of_dvd _ (Nat.pow_dvd_pow 2 (by unfold tvnBits at bound; omega))

theorem root_slot_eq (E : Nat) : (E % 2 ^ 32) &&& tvrMask = E % tvrSize := by
  rw [show tvrMask = 2 ^ 8 - 1 from rfl, Nat.and_two_pow_sub_one_eq_mod]
  exact Nat.mod_mod_of_dvd _ (by decide)

/-- `gp_timer_internal_add` chooses a place, strictly before the timer's block. -/
theorem slotFor_place {J E : Nat} (low : J ≤ E) (high : E < J + 2 ^ 32) :
    Place J E (GpTimerBase.slotFor (J % 2 ^ 32) (E % 2 ^ 32)).1
        (GpTimerBase.slotFor (J % 2 ^ 32) (E % 2 ^ 32)).2 ∧
      (1 ≤ (GpTimerBase.slotFor (J % 2 ^ 32) (E % 2 ^ 32)).1 →
        J < block (GpTimerBase.slotFor (J % 2 ^ 32) (E % 2 ^ 32)).1 E ∧
        J + 2 ^ shift (GpTimerBase.slotFor (J % 2 ^ 32) (E % 2 ^ 32)).1 ≤ E) := by
  have idx : uint32 (((E % 2 ^ 32 : Nat) : Int) - (J % 2 ^ 32 : Nat)) = E - J := by
    unfold uint32
    omega
  have wheel : ∀ l, 1 ≤ l → l ≤ 4 → J + 2 ^ shift l ≤ E → E < J + 2 ^ (shift l + tvnBits) →
      Place J E l ((E % 2 ^ 32) >>> shift l &&& tvnMask) ∧
        (1 ≤ l → J < block l E ∧ J + 2 ^ shift l ≤ E) := by
    intro l pos top near far
    have before := lt_block near
    refine ⟨.wheel pos top before.le ?_ (slot_eq ?_), fun _ => ⟨before, near⟩⟩
    · exact Nat.lt_of_le_of_lt (block_le l E) far
    · unfold shift tvrBits tvnBits
      omega
  have near₁ : 2 ^ shift 1 = tvrSize := rfl
  have near₂ : 2 ^ shift 2 = 1 <<< (tvrBits + tvnBits) := rfl
  have near₃ : 2 ^ shift 3 = 1 <<< (tvrBits + 2 * tvnBits) := rfl
  have near₄ : 2 ^ shift 4 = 1 <<< (tvrBits + 3 * tvnBits) := rfl
  have far₁ : 2 ^ (shift 1 + tvnBits) = 1 <<< (tvrBits + tvnBits) := rfl
  have far₂ : 2 ^ (shift 2 + tvnBits) = 1 <<< (tvrBits + 2 * tvnBits) := rfl
  have far₃ : 2 ^ (shift 3 + tvnBits) = 1 <<< (tvrBits + 3 * tvnBits) := rfl
  have far₄ : 2 ^ (shift 4 + tvnBits) = 2 ^ 32 := rfl
  unfold GpTimerBase.slotFor
  simp only [idx]
  split
  · rename_i small
    exact ⟨.root low (by omega) (root_slot_eq E), fun h => absurd h (by simp)⟩
  · rename_i not₁
    split
    · rename_i small
      exact wheel 1 (by omega) (by omega) (by omega) (by omega)
    · rename_i not₂
      split
      · rename_i small
        exact wheel 2 (by omega) (by omega) (by omega) (by omega)
      · rename_i not₃
        split
        · rename_i small
          exact wheel 3 (by omega) (by omega) (by omega) (by omega)
        · rename_i not₄
          -- the two tests left are never true of an unsigned difference
          rw [if_neg (by omega), if_neg (show ¬ maxTval < E - J by unfold maxTval; omega)]
          exact wheel 4 (by omega) (by omega) (by omega) (by omega)

/-! ## The invariant -/

/-- What a wheel is for: the allocated timers with their `expires`, and the
deadlines of those that are pending. -/
structure Pending where
  expires : TimerId → Option Nat
  due : TimerId → Option Nat

namespace Pending

variable (P : Pending)

def arm (id : TimerId) (E : Nat) : Pending :=
  { P with due := Function.update P.due id (some E) }

def disarm (id : TimerId) : Pending := { P with due := Function.update P.due id none }

theorem arm_due (id : TimerId) (E : Nat) :
    (P.arm id E).due = Function.update P.due id (some E) := rfl

theorem disarm_due (id : TimerId) : (P.disarm id).due = Function.update P.due id none := rfl

/-- An allocated timer gets a new `expires`. -/
def setExpires (id : TimerId) (e : Nat) : Pending :=
  { P with expires := Function.update P.expires id (some e) }

/-- A timer that is not pending is freed. -/
def free (id : TimerId) : Pending :=
  { P with expires := Function.update P.expires id none }

end Pending

/-- A timer agrees with its deadline; `R` says where it may be. -/
def ArmedAt (R : Nat → Nat → Nat → Prop) : Option Nat → GpTimerList → Prop
  | none, t => t.node = none
  | some E, t => t.expires = E % 2 ^ 32 ∧ ∃ l i, t.node = some (l, i) ∧ R E l i

/-- A timer repeats every `v` ticks, or not at all. -/
def Paced : Option Nat → GpTimerList → Prop
  | none, t => t.repeatFlag ≠ 1
  | some v, t => t.repeatFlag = 1 ∧ t.interval = v ∧ 1 ≤ v ∧ v < 2 ^ 31

theorem Paced.node {r : Option Nat} {t : GpTimerList} (pace : Paced r t)
    (node : Option (Nat × Nat)) : Paced r { t with node := node } := by
  cases r with
  | none => exact pace
  | some v => exact pace

/-- Every timer is on the list that its node names, the pending ones where `R` lets
them be, and repeats at its `rate`. Every list is within `cover`. -/
structure Placed (b : GpTimerBase) (R : TimerId → Nat → Nat → Nat → Prop)
    (rate : TimerId → Option Nat) (P : Pending) (cover : List TimerId) : Prop where
  fields : ∀ id, (b.timers id).map (·.expires) = P.expires id
  armed : ∀ id t, b.timers id = some t → ArmedAt (R id) (P.due id) t
  freed : ∀ id, b.timers id = none → P.due id = none
  paced : ∀ id t, b.timers id = some t → Paced (rate id) t ∧ t.hasLoop = true
  linked : ∀ l i id, id ∈ b.vec l i ↔ ∃ t, b.timers id = some t ∧ t.node = some (l, i)
  nodup : ∀ l i, (b.vec l i).Nodup
  covered : ∀ id, P.due id ≠ none → id ∈ cover

section Operations

variable {b : GpTimerBase} {R : TimerId → Nat → Nat → Nat → Prop} {rate : TimerId → Option Nat}
  {P : Pending} {cover : List TimerId} {id : TimerId} {t : GpTimerList}

theorem Placed.lists (p : Placed b R rate P cover) : Linked b := ⟨p.linked, p.nodup⟩

/-- Everything but one timer stays: what has to be shown of that timer. -/
theorem Placed.update (p : Placed b R rate P cover) {b' : GpTimerBase} {P' : Pending}
    {u : Option GpTimerList} {E r : Option Nat}
    (timers : b'.timers = Function.update b.timers id u)
    (expires : P'.expires = Function.update P.expires id (u.map (·.expires)))
    (due : P'.due = Function.update P.due id E)
    (self : ∀ t, u = some t → ArmedAt (R id) E t ∧ Paced r t ∧ t.hasLoop = true)
    (gone : u = none → E = none) (lists : Linked b') (covered : E ≠ none → id ∈ cover) :
    Placed b' R (Function.update rate id r) P' cover := by
  constructor
  · intro id'
    rw [timers, expires, Function.update_apply, Function.update_apply]
    split
    · rfl
    · exact p.fields id'
  · intro id' t live
    rw [timers, Function.update_apply] at live
    rw [due, Function.update_apply]
    split at live
    · rename_i same
      rw [if_pos same, same]
      exact (self t live).1
    · rw [if_neg ‹_›]
      exact p.armed id' t live
  · intro id' free
    rw [timers, Function.update_apply] at free
    rw [due, Function.update_apply]
    split at free
    · rw [if_pos ‹_›]
      exact gone free
    · rw [if_neg ‹_›]
      exact p.freed id' free
  · intro id' t live
    rw [timers, Function.update_apply] at live
    rw [Function.update_apply]
    split at live
    · rw [if_pos ‹_›]
      exact (self t live).2
    · rw [if_neg ‹_›]
      exact p.paced id' t live
  · exact lists.linked
  · exact lists.nodup
  · intro id' pending
    rw [due, Function.update_apply] at pending
    split at pending
    · rename_i same
      rw [same]
      exact covered pending
    · exact p.covered id' pending

/-- Pending timers may be in more places. -/
theorem Placed.mono (p : Placed b R rate P cover) {R' : TimerId → Nat → Nat → Nat → Prop}
    (wider : ∀ id E l i, P.due id = some E → id ∈ b.vec l i → R id E l i → R' id E l i) :
    Placed b R' rate P cover := by
  refine { p with armed := ?_ }
  intro id t live
  have armed := p.armed id t live
  cases due : P.due id with
  | none => rwa [due] at armed
  | some E =>
      rw [due] at armed
      obtain ⟨expires, l, i, node, place⟩ := armed
      have mem : id ∈ b.vec l i := (p.linked l i id).mpr ⟨t, live, node⟩
      exact ⟨expires, l, i, node, wider id E l i due mem place⟩

/-- A timer that is pending is live and on the list of its place. -/
theorem Placed.armed_of_due (p : Placed b R rate P cover) {E : Nat} (due : P.due id = some E) :
    ∃ t l i, b.timers id = some t ∧ t.node = some (l, i) ∧ id ∈ b.vec l i ∧
      t.expires = E % 2 ^ 32 ∧ R id E l i := by
  cases live : b.timers id with
  | none =>
      rw [p.freed id live] at due
      cases due
  | some t =>
      have armed := p.armed id t live
      rw [due] at armed
      obtain ⟨expires, l, i, node, place⟩ := armed
      exact ⟨t, l, i, rfl, node, (p.linked l i id).mpr ⟨t, live, node⟩, expires, place⟩

/-- A timer on a list is pending, with that list as its place. -/
theorem Placed.place_of_mem (p : Placed b R rate P cover) {l i : Nat} (mem : id ∈ b.vec l i) :
    ∃ t E, b.timers id = some t ∧ P.due id = some E ∧ t.expires = E % 2 ^ 32 ∧ R id E l i := by
  obtain ⟨t, live, node⟩ := (p.linked l i id).mp mem
  have armed := p.armed id t live
  cases due : P.due id with
  | none =>
      rw [due, ArmedAt, node] at armed
      cases armed
  | some E =>
      rw [due] at armed
      obtain ⟨expires, l', i', node', place⟩ := armed
      rw [node] at node'
      cases node'
      exact ⟨t, E, live, rfl, expires, place⟩

/-- An idle timer is on no list. -/
theorem Placed.unlinked (p : Placed b R rate P cover) (live : b.timers id = some t)
    (idle : P.due id = none) : t.node = none ∧ ∀ l i, id ∉ b.vec l i := by
  have unlinked : t.node = none := by
    have := p.armed id t live
    rwa [idle] at this
  refine ⟨unlinked, ?_⟩
  intro l i mem
  have node := p.lists.node_of_mem live mem
  rw [unlinked] at node
  cases node

/-- Every list is short. -/
theorem Placed.length_le (p : Placed b R rate P cover) (l i : Nat) :
    (b.vec l i).length ≤ cover.length := by
  refine (List.Nodup.subperm (p.nodup l i) ?_).length_le
  intro id mem
  obtain ⟨t, E, _, due, _⟩ := p.place_of_mem mem
  exact p.covered id (by simp [due])

/-- The next timer on a list. -/
theorem Placed.listNext (p : Placed b R rate P cover) {l i : Nat} {rest : List TimerId}
    (list : b.vec l i = id :: rest) : b.listNext l i (some id) = .ok rest.head? :=
  p.lists.listNext list

/-- The `expires` of a timer that only changes its node. -/
theorem Placed.expires_node (p : Placed b R rate P cover) (live : b.timers id = some t)
    (node : Option (Nat × Nat)) :
    P.expires = Function.update P.expires id ((some { t with node := node }).map (·.expires)) := by
  have field : P.expires id = some t.expires := by rw [← p.fields id, live]; rfl
  exact (Function.update_eq_self_iff.mpr field.symm).symm

/-- `gp_list_node_remove` disarms the timer. -/
theorem Placed.remove (p : Placed b R rate P cover) (live : b.timers id = some t) :
    ∃ b', b.listNodeRemove id = .ok b' ∧ Placed b' R rate (P.disarm id) cover ∧
      b'.timerJiffies = b.timerJiffies ∧
      b'.timers = Function.update b.timers id (some { t with node := none }) ∧
      ∀ l i, b'.vec l i = (b.vec l i).erase id := by
  obtain ⟨b', removed, lists, jiffies, timers, vec⟩ := p.lists.listNodeRemove_eq live
  refine ⟨b', removed, ?_, jiffies, timers, vec⟩
  rw [← Function.update_eq_self id rate]
  refine p.update timers (E := none) (p.expires_node live none) rfl ?_ ?_ lists ?_
  · rintro _ ⟨⟩
    exact ⟨rfl, (p.paced id t live).1.node none, (p.paced id t live).2⟩
  · intro h
    cases h
  · intro h
    exact absurd rfl h

/-- Appending an idle timer to the list of one of its places arms it. -/
theorem Placed.append (p : Placed b R rate P cover) (live : b.timers id = some t)
    (idle : P.due id = none) {E l i : Nat} (expires : t.expires = E % 2 ^ 32)
    (place : R id E l i) (inCover : id ∈ cover) :
    ∃ b', b.listAppend l i id = .ok b' ∧ Placed b' R rate (P.arm id E) cover ∧
      b'.timerJiffies = b.timerJiffies ∧
      b'.timers = Function.update b.timers id (some { t with node := some (l, i) }) ∧
      ∀ l' i', b'.vec l' i' = if l' = l ∧ i' = i then b.vec l i ++ [id] else b.vec l' i' := by
  obtain ⟨b', appended, lists, jiffies, timers, vec⟩ :=
    p.lists.listAppend_eq live (p.unlinked live idle).1 l i
  refine ⟨b', appended, ?_, jiffies, timers, vec⟩
  rw [← Function.update_eq_self id rate]
  refine p.update timers (E := some E) (p.expires_node live (some (l, i))) rfl ?_ ?_ lists ?_
  · rintro _ ⟨⟩
    exact ⟨⟨expires, l, i, rfl, place⟩, (p.paced id t live).1.node _, (p.paced id t live).2⟩
  · intro h
    cases h
  · intro _
    exact inCover

/-- A timer that is not pending is on no list, if it is allocated at all. -/
theorem Placed.off (p : Placed b R rate P cover) (idle : P.due id = none) :
    ∀ t, b.timers id = some t → t.node = none :=
  fun _ live => (p.unlinked live idle).1

/-- An idle timer gets new values. -/
theorem Placed.assign (p : Placed b R rate P cover) (live : b.timers id = some t)
    (idle : P.due id = none) {r : Option Nat} {expires : Nat} {interval repeatFlag : Int}
    (pace : Paced r
      { t with expires := expires, interval := interval, repeatFlag := repeatFlag }) :
    Placed (b.setTimer id
        { t with expires := expires, interval := interval, repeatFlag := repeatFlag })
      R (Function.update rate id r) (P.setExpires id expires) cover := by
  have unlinked := (p.unlinked live idle).1
  refine p.update (E := none) rfl rfl ?_ ?_ ?_ (p.lists.record (p.off idle) ?_ rfl rfl) ?_
  · exact (Function.update_eq_self_iff.mpr idle.symm).symm
  · rintro _ ⟨⟩
    exact ⟨unlinked, pace, (p.paced id t live).2⟩
  · intro h
    cases h
  · rintro _ ⟨⟩
    exact unlinked
  · intro h
    exact absurd rfl h

/-- Freeing a timer that is not pending. -/
theorem Placed.free (p : Placed b R rate P cover) (idle : P.due id = none) :
    Placed { b with timers := Function.update b.timers id none } R rate (P.free id) cover := by
  rw [← Function.update_eq_self id rate]
  refine p.update (u := none) (E := none) rfl rfl ?_ ?_ ?_
    (p.lists.record (u := none) (p.off idle) nofun rfl rfl) ?_
  · exact (Function.update_eq_self_iff.mpr idle.symm).symm
  · intro t h
    cases h
  · intro _
    rfl
  · intro h
    exact absurd rfl h

/-- `next_timer` and `timer_jiffies` are not part of it. -/
theorem Placed.of_same {b' : GpTimerBase} (p : Placed b R rate P cover)
    (timers : b'.timers = b.timers) (vec : b'.vec = b.vec) : Placed b' R rate P cover := by
  obtain ⟨fields, armed, freed, paced, linked, nodup, covered⟩ := p
  refine ⟨?_, ?_, ?_, ?_, ?_, ?_, covered⟩
  · rwa [timers]
  · rwa [timers]
  · rwa [timers]
  · rwa [timers]
  · rwa [vec, timers]
  · rwa [vec]

/-- `gp_timer_internal_add` arms an idle timer, in a place that the current tick
does not cascade. -/
theorem Placed.internalAdd (p : Placed b R rate P cover) {J E : Nat}
    (jiffies : b.timerJiffies = J % 2 ^ 32) (live : b.timers id = some t)
    (idle : P.due id = none) (expires : t.expires = E % 2 ^ 32) (low : J ≤ E)
    (high : E < J + 2 ^ 32) (fits : ∀ l i, Place J E l i → R id E l i) (inCover : id ∈ cover) :
    ∃ b' l i, b.gpTimerInternalAdd id = .ok b' ∧ Placed b' R rate (P.arm id E) cover ∧
      b'.timerJiffies = J % 2 ^ 32 ∧ Place J E l i ∧
      (∀ l' i', b'.vec l' i' = if l' = l ∧ i' = i then b.vec l i ++ [id] else b.vec l' i') ∧
      (1 ≤ l → J < block l E ∧ J + 2 ^ shift l ≤ E) := by
  obtain ⟨place, ahead⟩ := slotFor_place low high
  obtain ⟨b', appended, p', jiffies', _, vec⟩ :=
    p.append live idle expires (fits _ _ place) inCover
  refine ⟨b'.updateNext, _, _, ?_, p'.of_same rfl rfl, jiffies'.trans jiffies, place, vec, ahead⟩
  simp only [GpTimerBase.gpTimerInternalAdd, GpTimerBase.timer, live, bind, Except.bind, expires,
    jiffies, appended]
  rfl

theorem Pending.arm_of_disarm (P : Pending) (id : TimerId) (E : Nat) :
    (P.disarm id).arm id E = P.arm id E := by
  unfold Pending.disarm Pending.arm
  simp only [Function.update_idem]

/-- `gp_timer_add` arms a timer, pending or not. -/
theorem Placed.add (p : Placed b R rate P cover) {J E : Nat}
    (jiffies : b.timerJiffies = J % 2 ^ 32) (live : b.timers id = some t)
    (expires : t.expires = E % 2 ^ 32) (low : J ≤ E) (high : E < J + 2 ^ 32)
    (fits : ∀ l i, Place J E l i → R id E l i) (inCover : id ∈ cover) :
    ∃ b' l i, b.gpTimerAdd id = .ok b' ∧ Placed b' R rate (P.arm id E) cover ∧
      b'.timerJiffies = J % 2 ^ 32 ∧ Place J E l i ∧
      ∀ l' i', b'.vec l' i' =
        if l' = l ∧ i' = i then (b.vec l i).erase id ++ [id] else (b.vec l' i').erase id := by
  obtain ⟨b₁, removed, p₁, jiffies₁, timers₁, vec₁⟩ := p.remove live
  have live₁ : b₁.timers id = some { t with node := none } := by
    rw [timers₁, Function.update_self]
  have idle₁ : (P.disarm id).due id = none := Function.update_self ..
  obtain ⟨b₂, l, i, added, p₂, jiffies₂, place, vec₂, _⟩ :=
    p₁.internalAdd (jiffies₁.trans jiffies) live₁ idle₁ expires low high fits inCover
  rw [P.arm_of_disarm] at p₂
  refine ⟨b₂, l, i, ?_, p₂, jiffies₂, place, ?_⟩
  · simp only [GpTimerBase.gpTimerAdd, removed, bind, Except.bind, added]
  · intro l' i'
    rw [vec₂, vec₁, vec₁]

/-- `create_gp_timer`, and the timer gets its loop: a new timer is idle. -/
theorem Placed.create (p : Placed b R rate P cover) (free : b.timers id = none) {expires : Nat}
    {interval repeatFlag : Int} {v : Option Nat}
    (pace : Paced v ⟨expires, interval, repeatFlag, true, none⟩) :
    ∃ b', (b.createGpTimer id expires interval repeatFlag).setLoop id = .ok b' ∧
      b'.timers id = some ⟨expires, interval, repeatFlag, true, none⟩ ∧
      Placed b' R (Function.update rate id v) (P.setExpires id expires) cover ∧
      b'.timerJiffies = b.timerJiffies ∧ b'.vec = b.vec := by
  have created : (b.createGpTimer id expires interval repeatFlag).setLoop id =
      .ok (b.setTimer id ⟨expires, interval, repeatFlag, true, none⟩) := by
    simp [GpTimerBase.createGpTimer, GpTimerBase.setLoop, GpTimerBase.timer, GpTimerBase.setTimer,
      bind, Except.bind, pure, Except.pure]
  refine ⟨_, created, Function.update_self .., ?_, rfl, rfl⟩
  refine p.update (u := some ⟨expires, interval, repeatFlag, true, none⟩) (E := none) rfl
    rfl ?_ ?_ ?_ (p.lists.record (p.off (p.freed id free)) ?_ rfl rfl) ?_
  · exact (Function.update_eq_self_iff.mpr (p.freed id free).symm).symm
  · rintro _ ⟨⟩
    exact ⟨rfl, pace, rfl⟩
  · intro h
    cases h
  · rintro _ ⟨⟩
    rfl
  · intro h
    exact absurd rfl h

/-- `gp_timer_mod` arms a timer with its new expiry. -/
theorem Placed.mod (p : Placed b R rate P cover) {J E : Nat}
    (jiffies : b.timerJiffies = J % 2 ^ 32) (live : b.timers id = some t)
    {interval repeatFlag : Int} {v : Option Nat}
    (pace : Paced v ⟨E % 2 ^ 32, interval, repeatFlag, t.hasLoop, none⟩) (low : J ≤ E)
    (high : E < J + 2 ^ 32) (fits : ∀ l i, Place J E l i → R id E l i) (inCover : id ∈ cover) :
    ∃ b' l i, b.gpTimerMod id (E % 2 ^ 32) interval repeatFlag = .ok b' ∧
      Placed b' R (Function.update rate id v) ((P.setExpires id (E % 2 ^ 32)).arm id E) cover ∧
      b'.timerJiffies = J % 2 ^ 32 ∧ Place J E l i ∧
      ∀ l' i', b'.vec l' i' =
        if l' = l ∧ i' = i then (b.vec l i).erase id ++ [id] else (b.vec l' i').erase id := by
  obtain ⟨b₁, deleted, p₁, jiffies₁, timers₁, vec₁⟩ := p.remove live
  have live₁ : b₁.timers id = some { t with node := none } := by
    rw [timers₁, Function.update_self]
  have idle₁ : (P.disarm id).due id = none := Function.update_self ..
  have p₂ : Placed (b₁.setTimer id ⟨E % 2 ^ 32, interval, repeatFlag, t.hasLoop, none⟩) R
      (Function.update rate id v) ((P.disarm id).setExpires id (E % 2 ^ 32)) cover :=
    p₁.assign live₁ idle₁ pace
  obtain ⟨b₃, l, i, added, p₃, jiffies₃, place, vec₃⟩ := p₂.add (E := E)
    (jiffies₁.trans jiffies) (Function.update_self ..) rfl low high fits inCover
  have notOn : ∀ l' i', ((b.vec l' i').erase id).erase id = (b.vec l' i').erase id := by
    intro l' i'
    exact List.erase_of_not_mem (p.nodup l' i').not_mem_erase
  refine ⟨b₃, l, i, ?_, ?_, jiffies₃, place, ?_⟩
  · simp only [GpTimerBase.gpTimerMod, GpTimerBase.gpTimerDel, deleted, bind, Except.bind,
      GpTimerBase.timer, live₁]
    exact added
  · have : ((P.disarm id).setExpires id (E % 2 ^ 32)).arm id E =
        (P.setExpires id (E % 2 ^ 32)).arm id E := by
      unfold Pending.disarm Pending.setExpires Pending.arm
      simp only [Function.update_idem]
    rwa [this] at p₃
  · intro l' i'
    rw [vec₃, setTimer_vec, vec₁, vec₁, notOn, notOn]

end Operations

/-! ## A wheel of one-shot timers -/

/-- A timer agrees with its deadline. -/
def Armed (J : Nat) : Option Nat → GpTimerList → Prop
  | none, t => t.node = none
  | some E, t => t.expires = E % 2 ^ 32 ∧ ∃ l i, t.node = some (l, i) ∧ Place J E l i

/-- The wheel holds the pending timers in their places for tick `J`; its counter
says `now`. Every list is within `cover`. -/
structure Wheel (b : GpTimerBase) (now J : Nat) (P : Pending) (cover : List TimerId) : Prop where
  jiffies : b.timerJiffies = now % 2 ^ 32
  fields : ∀ id, (b.timers id).map (·.expires) = P.expires id
  armed : ∀ id t, b.timers id = some t → Armed J (P.due id) t
  freed : ∀ id, b.timers id = none → P.due id = none
  oneShot : ∀ id t, b.timers id = some t → t.repeatFlag ≠ 1 ∧ t.hasLoop = true
  linked : ∀ l i id, id ∈ b.vec l i ↔ ∃ t, b.timers id = some t ∧ t.node = some (l, i)
  nodup : ∀ l i, (b.vec l i).Nodup
  covered : ∀ id, P.due id ≠ none → id ∈ cover

section Wheel

variable {b : GpTimerBase} {now J : Nat} {P : Pending} {cover : List TimerId}

theorem Wheel.placed (w : Wheel b now J P cover) :
    Placed b (fun _ => Place J) (fun _ => none) P cover := by
  refine ⟨w.fields, ?_, w.freed, w.oneShot, w.linked, w.nodup, w.covered⟩
  intro id t live
  have armed := w.armed id t live
  cases due : P.due id with
  | none => rwa [due] at armed
  | some E => rwa [due] at armed

theorem Placed.wheel (p : Placed b (fun _ => Place J) (fun _ => none) P cover)
    (jiffies : b.timerJiffies = now % 2 ^ 32) : Wheel b now J P cover := by
  refine ⟨jiffies, p.fields, ?_, p.freed, p.paced, p.linked, p.nodup, p.covered⟩
  intro id t live
  have armed := p.armed id t live
  cases due : P.due id with
  | none => rwa [due] at armed
  | some E => rwa [due] at armed

end Wheel

end GpBase.Timer

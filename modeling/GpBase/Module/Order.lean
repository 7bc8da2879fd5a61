import GpBase.GpList.Read
import Mathlib.Data.List.Pairwise
import Mathlib.Data.List.Sort

/-!
# Module registration

Translation of `gp_module.c`.  Descriptors are registered on one intrusive
list, which `gp_init_modules` walks from its head.  The initialisation
functions are called in that order; they are taken to leave the list alone.
-/

namespace GpBase.Module

open GpBase.GpList

/-! ## The functions -/

def MODULE_INIT_FIRST : Int := 0

structure ModuleDesc where
  type : Int
  priority : Int
  /-- `init` is not `NULL` -/
  init : Bool
  statInit : Int
  deriving DecidableEq, Repr

section Register

variable (desc : Addr → ModuleDesc) (m : Memory) (list mod : Addr)

/-- The loop of `gp_register_module_main` from `pos` on. -/
def registerFrom : Nat → Addr → Option Memory
  | 0, _ => none
  | fuel + 1, pos =>
      if pos = null then m.gpListAppend list mod
      else if (desc pos).priority > (desc mod).priority then m.gpListInsertAfter list mod pos
      else do registerFrom fuel (← m.gpListNext list pos)

def gpRegisterModuleMain (fuel : Nat) : Option Memory := do
  registerFrom desc m list mod fuel (← m.gpListFirst list)

/-- `list` is `first_list`. -/
def gpRegisterModule (fuel : Nat) : Option Memory :=
  if (desc mod).type = MODULE_INIT_FIRST then gpRegisterModuleMain desc m list mod fuel
  else some m

end Register

/-- What `gp_init_module` did at one descriptor: whether it called `init`. -/
structure Visit where
  mod : Addr
  called : Bool
  deriving DecidableEq, Repr

/-- The loop of `gp_init_module` from `pos` on. -/
def initFrom (m : Memory) (list : Addr) :
    Nat → Addr → (Addr → ModuleDesc) → Option ((Addr → ModuleDesc) × List Visit)
  | 0, _, _ => none
  | fuel + 1, pos, desc =>
      if pos = null then some (desc, [])
      else do
        let next :=
          if (desc pos).init then Function.update desc pos { desc pos with statInit := 1 } else desc
        let (last, visits) ← initFrom m list fuel (← m.gpListNext list pos) next
        return (last, ⟨pos, (desc pos).init⟩ :: visits)

def gpInitModules (desc : Addr → ModuleDesc) (m : Memory) (list : Addr) (fuel : Nat) :
    Option ((Addr → ModuleDesc) × List Visit) := do
  initFrom m list fuel (← m.gpListFirst list) desc

/-- A program: `init_moudle_list` sets the list up (the node is the first
member of a descriptor), the modules are registered, and then initialised. -/
def startUp (desc : Addr → ModuleDesc) (list : Addr) (mods : List Addr) (fuel : Nat) :
    Option ((Addr → ModuleDesc) × List Visit) := do
  let m ← blank.gpListInitOffset list 0
  let m ← mods.foldlM (fun m mod => gpRegisterModule desc m list mod fuel) m
  gpInitModules desc m list fuel

/-! ## The order that registration makes -/

section Order

variable {α : Type} (prio : α → Int)

/-- Where registration puts an item: behind the first one of a greater
priority, at the end when there is none. -/
def place (x : α) : List α → List α
  | [] => [x]
  | y :: ys => if prio y > prio x then y :: x :: ys else y :: place x ys

/-- The list after registering the items one by one. -/
def placeAll (xs : List α) : List α := xs.foldl (fun placed x => place prio x placed) []

/-- Priorities never fall along the list. -/
def Rising (xs : List α) : Prop := xs.Pairwise fun x y => prio x ≤ prio y

/-- Priorities never rise along the list. -/
def Falling (xs : List α) : Prop := xs.Pairwise fun x y => prio y ≤ prio x

/-- All priorities are the same. -/
def Level (xs : List α) : Prop := ∀ x ∈ xs, ∀ y ∈ xs, prio x = prio y

/-- The first item has a priority greater than all the others, which do not
fall. -/
def TopFirst (xs : List α) : Prop :=
  ∃ top rest, xs = top :: rest ∧ (∀ y ∈ rest, prio y < prio top) ∧ Rising prio rest

variable {prio}

theorem placeAll_concat (xs : List α) (x : α) :
    placeAll prio (xs ++ [x]) = place prio x (placeAll prio xs) := by
  simp [placeAll]

theorem place_perm (prio : α → Int) (x : α) (xs : List α) : (place prio x xs).Perm (x :: xs) := by
  induction xs with
  | nil => exact List.Perm.refl _
  | cons y ys ih =>
      unfold place
      split
      · exact List.Perm.swap x y ys
      · exact (ih.cons y).trans (List.Perm.swap x y ys)

theorem placeAll_perm (prio : α → Int) (xs : List α) : (placeAll prio xs).Perm xs := by
  induction xs using List.reverseRecOn with
  | nil => exact List.Perm.refl _
  | append_singleton xs x ih =>
      rw [placeAll_concat]
      exact (place_perm prio x _).trans ((ih.cons x).trans (List.perm_append_singleton x xs).symm)

/-- What is on the list stays in its order. -/
theorem sublist_place (x : α) (xs : List α) : xs.Sublist (place prio x xs) := by
  induction xs with
  | nil => exact List.nil_sublist _
  | cons y ys ih =>
      unfold place
      split
      · exact (List.sublist_cons_self x ys).cons_cons y
      · exact ih.cons_cons y

theorem place_of_le {x : α} {xs : List α} (least : ∀ y ∈ xs, prio y ≤ prio x) :
    place prio x xs = xs ++ [x] := by
  induction xs with
  | nil => rfl
  | cons y ys ih =>
      have here : ¬prio y > prio x := Int.not_lt.mpr (least y List.mem_cons_self)
      rw [place, if_neg here, ih fun z mem => least z (List.mem_cons_of_mem y mem)]
      rfl

theorem place_of_lt {x y : α} {ys : List α} (above : prio x < prio y) :
    place prio x (y :: ys) = y :: x :: ys := if_pos above

/-- An item that has a greater one before it is put behind that. -/
theorem not_rising_place {x y : α} {xs : List α} (mem : y ∈ xs) (above : prio x < prio y) :
    ¬Rising prio (place prio x xs) := by
  intro rising
  induction xs with
  | nil => cases mem
  | cons z zs ih =>
      unfold place at rising
      split at rising
      · next higher =>
          have := (List.pairwise_cons.mp rising).1 x List.mem_cons_self
          omega
      · next under =>
          obtain rfl | mem := List.mem_cons.mp mem
          · exact under above
          · exact ih mem (List.pairwise_cons.mp rising).2

theorem placeAll_of_rising {xs : List α} (rising : Rising prio xs) : placeAll prio xs = xs := by
  induction xs using List.reverseRecOn with
  | nil => rfl
  | append_singleton xs x ih =>
      obtain ⟨before, _, under⟩ := List.pairwise_append.mp rising
      rw [placeAll_concat, ih before]
      exact place_of_le fun y mem => under y mem x List.mem_cons_self

/-- The list rises exactly when the items were registered in rising order. -/
theorem rising_placeAll {xs : List α} : Rising prio (placeAll prio xs) ↔ Rising prio xs := by
  constructor
  · intro rising
    induction xs using List.reverseRecOn with
    | nil => exact List.Pairwise.nil
    | append_singleton xs x ih =>
        rw [placeAll_concat] at rising
        have before : Rising prio xs := ih (rising.sublist (sublist_place x _))
        refine List.pairwise_append.mpr ⟨before, List.pairwise_singleton _ x, ?_⟩
        intro y mem z last
        obtain rfl := List.mem_singleton.mp last
        by_contra above
        rw [placeAll_of_rising before] at rising
        exact not_rising_place mem (Int.not_le.mp above) rising
  · intro rising
    rw [placeAll_of_rising rising]
    exact rising

theorem Level.rising {xs : List α} (level : Level prio xs) : Rising prio xs :=
  List.pairwise_of_forall_mem_list fun x memx y memy => (level x memx y memy).le

theorem Level.falling {xs : List α} (level : Level prio xs) : Falling prio xs :=
  List.pairwise_of_forall_mem_list fun x memx y memy => (level x memx y memy).ge

/-- A greatest first item gathers all the others behind it, newest first. -/
theorem placeAll_top {top : α} {rest : List α} (above : ∀ y ∈ rest, prio y < prio top) :
    placeAll prio (top :: rest) = top :: rest.reverse := by
  induction rest using List.reverseRecOn with
  | nil => rfl
  | append_singleton rest y ih =>
      have under : ∀ z ∈ rest, prio z < prio top :=
        fun z mem => above z (List.mem_append_left _ mem)
      rw [← List.cons_append, placeAll_concat, ih under,
        place_of_lt (above y (List.mem_append_right _ List.mem_cons_self)), List.reverse_concat]

theorem TopFirst.falling {xs : List α} (top : TopFirst prio xs) :
    Falling prio (placeAll prio xs) := by
  obtain ⟨top, rest, rfl, above, rising⟩ := top
  rw [placeAll_top above]
  refine List.pairwise_cons.mpr ⟨?_, List.pairwise_reverse.mpr rising⟩
  intro y mem
  exact (above y (List.mem_reverse.mp mem)).le

theorem Level.concat {x y : α} {xs : List α} (level : Level prio (x :: xs))
    (same : prio y = prio x) : Level prio (x :: xs ++ [y]) := by
  have all : ∀ z ∈ x :: xs ++ [y], prio z = prio x := by
    intro z mem
    obtain mem | last := List.mem_append.mp mem
    · exact level z mem x List.mem_cons_self
    · rw [List.mem_singleton.mp last, same]
  intro z memz w memw
  rw [all z memz, all w memw]

/-- Registering one more item keeps a falling list falling only as these two
shapes allow. -/
theorem falling_concat {xs : List α} {y : α} (shape : Level prio xs ∨ TopFirst prio xs)
    (falling : Falling prio (place prio y (placeAll prio xs))) :
    Level prio (xs ++ [y]) ∨ TopFirst prio (xs ++ [y]) := by
  obtain level | ⟨top, rest, rfl, above, rising⟩ := shape
  · rw [placeAll_of_rising level.rising] at falling
    cases xs with
    | nil =>
        left
        intro a mema b memb
        rw [List.mem_singleton.mp mema, List.mem_singleton.mp memb]
    | cons x xs =>
        have equal : ∀ z ∈ x :: xs, prio z = prio x :=
          fun z mem => level z mem x List.mem_cons_self
        rcases Int.lt_trichotomy (prio y) (prio x) with below | same | above
        · -- anything behind `x` would now stand behind the smaller `y`
          rw [place_of_lt below] at falling
          have alone : xs = [] := by
            apply List.eq_nil_iff_forall_not_mem.mpr
            intro z mem
            have behind := (List.pairwise_cons.mp (List.pairwise_cons.mp falling).2).1 z mem
            have := equal z (List.mem_cons_of_mem x mem)
            omega
          subst alone
          right
          refine ⟨x, [y], rfl, ?_, List.pairwise_singleton _ y⟩
          intro z mem
          rw [List.mem_singleton.mp mem]
          exact below
        · exact .inl (level.concat same)
        · rw [place_of_le fun z mem => by rw [equal z mem]; exact above.le] at falling
          have := (List.pairwise_append.mp falling).2.2 x List.mem_cons_self y List.mem_cons_self
          omega
  · rw [placeAll_top above] at falling
    by_cases below : prio y < prio top
    · rw [place_of_lt below] at falling
      have behind := (List.pairwise_cons.mp (List.pairwise_cons.mp falling).2).1
      right
      refine ⟨top, rest ++ [y], rfl, ?_, ?_⟩
      · intro z mem
        obtain mem | last := List.mem_append.mp mem
        · exact above z mem
        · rw [List.mem_singleton.mp last]
          exact below
      · refine List.pairwise_append.mpr ⟨rising, List.pairwise_singleton _ y, ?_⟩
        intro z mem w last
        rw [List.mem_singleton.mp last]
        exact behind z (List.mem_reverse.mpr mem)
    · have least : ∀ z ∈ top :: rest.reverse, prio z ≤ prio y := by
        intro z mem
        obtain rfl | mem := List.mem_cons.mp mem
        · omega
        · have := above z (List.mem_reverse.mp mem)
          omega
      rw [place_of_le least] at falling
      have last : ∀ z ∈ top :: rest.reverse, prio y ≤ prio z :=
        fun z mem => (List.pairwise_append.mp falling).2.2 z mem y List.mem_cons_self
      have alone : rest = [] := by
        apply List.eq_nil_iff_forall_not_mem.mpr
        intro z mem
        have := last z (List.mem_cons_of_mem top (List.mem_reverse.mpr mem))
        have := above z mem
        omega
      subst alone
      left
      apply Level.concat
      · intro a mema b memb
        rw [List.mem_singleton.mp mema, List.mem_singleton.mp memb]
      · have := last top List.mem_cons_self
        omega

/-- The list falls exactly for these two shapes of a registration sequence. -/
theorem falling_placeAll {xs : List α} :
    Falling prio (placeAll prio xs) ↔ Level prio xs ∨ TopFirst prio xs := by
  constructor
  · intro falling
    induction xs using List.reverseRecOn with
    | nil =>
        left
        intro a mem
        cases mem
    | append_singleton xs y ih =>
        rw [placeAll_concat] at falling
        exact falling_concat (ih (falling.sublist (sublist_place y _))) falling
  · rintro (level | top)
    · rw [placeAll_of_rising level.rising]
      exact level.falling
    · exact top.falling

theorem level_of_rising_falling {xs : List α} (rising : Rising prio xs)
    (falling : Falling prio xs) : Level prio xs := by
  have same : xs.Pairwise fun x y => prio x = prio y := by
    apply (rising.and falling).imp
    intro x y both
    omega
  have symm : Std.Symm fun x y => prio x = prio y := ⟨fun _ _ same => same.symm⟩
  exact fun x memx y memy => List.Pairwise.forall_of_forall
    (R := fun x y => prio x = prio y) (fun _ _ => rfl) same memx memy

/-- One direction for every order of registration leaves no room for two
different priorities. -/
theorem level_of_fixed {xs : List α}
    (fixed : (∀ order, order.Perm xs → Rising prio (placeAll prio order)) ∨
      ∀ order, order.Perm xs → Falling prio (placeAll prio order)) : Level prio xs := by
  let sorted := xs.mergeSort fun x y => decide (prio x ≤ prio y)
  have perm : sorted.Perm xs := List.mergeSort_perm xs _
  have rising : Rising prio sorted := by
    have ordered : sorted.Pairwise fun x y => decide (prio x ≤ prio y) :=
      List.pairwise_mergeSort (by simp; omega) (by simp; omega) xs
    simpa [Rising] using ordered
  have level : Level prio sorted := by
    apply level_of_rising_falling rising
    obtain up | down := fixed
    · have back := rising_placeAll.mp (up sorted.reverse ((List.reverse_perm sorted).trans perm))
      exact List.pairwise_reverse.mp back
    · have placed := down sorted perm
      rwa [placeAll_of_rising rising] at placed
  exact fun x memx y memy => level x (perm.mem_iff.mpr memx) y (perm.mem_iff.mpr memy)

end Order

/-! ## The list in memory -/


section Memory

variable {desc : Addr → ModuleDesc} {m : Memory} {s : Lists} {list : Addr} {xs : List Addr}

/-- `first_list` is the only list, and holds the items `xs`. -/
structure Registered (m : Memory) (s : Lists) (list : Addr) (xs : List Addr) : Prop where
  rep : Rep m s
  offset : s.offset list = 0
  live : s.live list = some xs
  others : ∀ other, other ≠ list → s.live other = none

/-- The address of a descriptor: none of the list head or of `NULL`. -/
structure Descriptor (list mod : Addr) : Prop where
  nonnull : mod ≠ null
  apart : mod ≠ list

theorem registered_empty (nonnull : list ≠ null) :
    ∃ m s, blank.gpListInitOffset list 0 = some m ∧ Registered m s list [] := by
  have start : ListStep noLists (.init list 0) ((noLists.drop list).make list 0 []) :=
    .init nonnull fun _ => List.not_mem_nil
  obtain ⟨m, ran, rep⟩ := rep_blank.step start
  refine ⟨m, _, ran, rep, Function.update_self .., Function.update_self .., ?_⟩
  intro other ne
  rw [live_make_of_ne ne, live_drop_of_ne ne]
  rfl

theorem Registered.nodes (reg : Registered m s list xs) (other : Addr) :
    s.nodes other = if other = list then xs else [] := by
  split
  · next same =>
      rw [same, nodes_of_live reg.live, reg.offset]
      simp
  · next ne => rw [nodes_of_none (reg.others other ne)]

theorem Registered.insertable (reg : Registered m s list xs) {mod : Addr}
    (address : Descriptor list mod) (new : mod ∉ xs) : Insertable s list mod := by
  refine ⟨address.nonnull, ?_⟩
  have node : mod + s.offset list = mod := by simp [reg.offset]
  rw [node]
  refine ⟨address.nonnull, reg.others mod address.apart, ?_⟩
  intro other
  rw [reg.nodes]
  split
  · exact new
  · exact List.not_mem_nil

theorem Registered.put {m' : Memory} {ys : List Addr} (reg : Registered m s list xs)
    (rep : Rep m' (s.put list ys)) : Registered m' (s.put list ys) list ys := by
  refine ⟨rep, ?_, Function.update_self .., ?_⟩
  · show Function.update s.offset list (s.offset list) list = 0
    rw [Function.update_self, reg.offset]
  · intro other ne
    show (s.make list (s.offset list) ys).live other = none
    rw [live_make_of_ne ne, reg.others other ne]

/-- The loop finds the place, and the item goes there. -/
theorem Registered.registerFrom (front : List Addr) {mod : Addr} {back : List Addr} {fuel : Nat}
    (reg : Registered m s list (front ++ back)) (address : Descriptor list mod)
    (new : mod ∉ front ++ back) (enough : back.length < fuel) :
    ∃ m', registerFrom desc m list mod fuel (back.headD null) = some m' ∧
      ∃ s', Registered m' s' list (front ++ place (fun a => (desc a).priority) mod back) := by
  induction back generalizing front fuel with
  | nil =>
      obtain ⟨fuel, rfl⟩ := Nat.exists_eq_add_of_lt enough
      have step : ListStep s (.append list mod) (s.put list (front ++ [mod])) := by
        have insertable := reg.insertable address new
        rw [List.append_nil] at reg
        exact .append reg.live insertable
      obtain ⟨m', ran, rep⟩ := reg.rep.step step
      exact ⟨m', ran, _, reg.put rep⟩
  | cons y back ih =>
      obtain ⟨fuel, rfl⟩ := Nat.exists_eq_add_of_lt enough
      have y0 : y ≠ null := by
        intro same
        apply reg.rep.itemNonnull list _ reg.live
        rw [same]
        exact List.mem_append_right _ List.mem_cons_self
      show ∃ m', Module.registerFrom desc m list mod ((back.length + 1 + fuel) + 1) y = some m' ∧ _
      rw [Module.registerFrom, if_neg y0, place]
      split
      · -- here is the place
        have step : ListStep s (.insertAfter list mod y) (s.put list (front ++ y :: mod :: back)) :=
          .insertAfter reg.live (reg.insertable address new)
        obtain ⟨m', ran, rep⟩ := reg.rep.step step
        exact ⟨m', ran, _, reg.put rep⟩
      · have split : front ++ y :: back = (front ++ [y]) ++ back := by simp
        rw [reg.rep.next reg.live]
        rw [split] at reg new
        obtain ⟨m', ran, s', reg'⟩ := ih _ reg new (show back.length < back.length + 1 + fuel by omega)
        refine ⟨m', ran, s', ?_⟩
        rwa [List.append_assoc, List.singleton_append] at reg'

theorem Registered.gpRegisterModule {mod : Addr} {fuel : Nat} (reg : Registered m s list xs)
    (address : Descriptor list mod) (new : mod ∉ xs) (first : (desc mod).type = MODULE_INIT_FIRST)
    (enough : xs.length < fuel) :
    ∃ m', gpRegisterModule desc m list mod fuel = some m' ∧
      ∃ s', Registered m' s' list (place (fun a => (desc a).priority) mod xs) := by
  obtain ⟨m', ran, s', reg'⟩ := Registered.registerFrom [] reg address new enough
  refine ⟨m', ?_, s', reg'⟩
  rw [Module.gpRegisterModule, if_pos first, gpRegisterModuleMain, reg.rep.first reg.live]
  exact ran

/-- All the registrations of a program. -/
theorem Registered.registerAll {mods : List Addr} {fuel : Nat} (reg : Registered m s list xs)
    (addresses : ∀ mod ∈ mods, Descriptor list mod) (distinct : (xs ++ mods).Nodup)
    (first : ∀ mod ∈ mods, (desc mod).type = MODULE_INIT_FIRST)
    (enough : (xs ++ mods).length ≤ fuel) :
    ∃ m', mods.foldlM (fun m mod => Module.gpRegisterModule desc m list mod fuel) m = some m' ∧
      ∃ s', Registered m' s' list
        (mods.foldl (fun placed x => place (fun a => (desc a).priority) x placed) xs) := by
  induction mods generalizing m s xs with
  | nil => exact ⟨m, rfl, s, reg⟩
  | cons mod mods ih =>
      have new : mod ∉ xs := by
        intro mem
        exact (List.nodup_append.mp distinct).2.2 mod mem mod List.mem_cons_self rfl
      have length : xs.length < fuel := by
        simp at enough
        omega
      obtain ⟨m', ran, s', reg'⟩ := reg.gpRegisterModule (addresses mod List.mem_cons_self) new
        (first mod List.mem_cons_self) length
      -- what is placed so far is what was placed before and the new descriptor
      have perm := (place_perm (fun a => (desc a).priority) mod xs).append_right mods
      have order : (mod :: xs ++ mods).Perm (xs ++ mod :: mods) := List.perm_middle.symm
      rw [List.foldlM_cons, ran]
      apply ih reg'
      · exact fun other mem => addresses other (List.mem_cons_of_mem mod mem)
      · exact (perm.trans order).nodup_iff.mpr distinct
      · exact fun other mem => first other (List.mem_cons_of_mem mod mem)
      · rw [(perm.trans order).length_eq]
        exact enough

/-- The walk of `gp_init_module` goes through the whole list, and calls what
there is to call. -/
theorem Registered.initFrom (desc : Addr → ModuleDesc) (front : List Addr) {back : List Addr}
    {fuel : Nat} (reg : Registered m s list (front ++ back)) (once : back.Nodup) (enough : back.length < fuel) :
    ∃ last, initFrom m list fuel (back.headD null) desc =
        some (last, back.map fun a => ⟨a, (desc a).init⟩) ∧
      ∀ a, last a =
        if a ∈ back ∧ (desc a).init then { desc a with statInit := 1 } else desc a := by
  induction back generalizing front fuel desc with
  | nil =>
      obtain ⟨fuel, rfl⟩ := Nat.exists_eq_add_of_lt enough
      exact ⟨desc, rfl, by simp⟩
  | cons y back ih =>
      obtain ⟨fuel, rfl⟩ := Nat.exists_eq_add_of_lt enough
      obtain ⟨fresh, once⟩ := List.nodup_cons.mp once
      have y0 : y ≠ null := by
        intro same
        apply reg.rep.itemNonnull list _ reg.live
        rw [same]
        exact List.mem_append_right _ List.mem_cons_self
      have next := reg.rep.next reg.live
      have split : front ++ y :: back = (front ++ [y]) ++ back := by simp
      rw [split] at reg
      let table := if (desc y).init then Function.update desc y { desc y with statInit := 1 } else desc
      have here : table y = if (desc y).init then { desc y with statInit := 1 } else desc y := by
        cases called : (desc y).init <;> simp [table, called]
      have there : ∀ a, a ≠ y → table a = desc a := by
        intro a ne
        cases called : (desc y).init <;> simp [table, called, ne]
      obtain ⟨last, ran, marks⟩ := ih table _ reg once
        (show back.length < back.length + 1 + fuel by omega)
      have same : ∀ a ∈ back, table a = desc a := by
        intro a mem
        exact there a fun eq => fresh (eq ▸ mem)
      refine ⟨last, ?_, ?_⟩
      · show Module.initFrom m list ((back.length + 1 + fuel) + 1) y desc = _
        have visits : back.map (fun a => (⟨a, (table a).init⟩ : Visit)) =
            back.map fun a => ⟨a, (desc a).init⟩ :=
          List.map_congr_left fun a mem => by rw [same a mem]
        rw [Module.initFrom, if_neg y0, next, Option.bind_eq_bind, Option.bind_some]
        show (Module.initFrom m list _ _ table).bind _ = _
        rw [ran, visits]
        rfl
      · intro a
        rw [marks]
        by_cases eq : a = y
        · subst eq
          simp [fresh, here]
        · simp [eq, there a eq]

/-- What a program that registers these modules does at start-up. -/
theorem startUp_eq {mods : List Addr} {fuel : Nat} (nonnull : list ≠ null)
    (addresses : ∀ mod ∈ mods, Descriptor list mod) (distinct : mods.Nodup)
    (first : ∀ mod ∈ mods, (desc mod).type = MODULE_INIT_FIRST) (enough : mods.length < fuel) :
    ∃ last, startUp desc list mods fuel = some (last,
        (placeAll (fun a => (desc a).priority) mods).map fun a => ⟨a, (desc a).init⟩) ∧
      ∀ a, last a =
        if a ∈ mods ∧ (desc a).init then { desc a with statInit := 1 } else desc a := by
  obtain ⟨m, s, set, reg⟩ := registered_empty nonnull
  obtain ⟨m', ran, s', reg'⟩ : ∃ m', _ ∧ ∃ s', Registered m' s' list
      (placeAll (fun a => (desc a).priority) mods) :=
    reg.registerAll addresses distinct first enough.le
  have perm := placeAll_perm (fun a => (desc a).priority) mods
  have length : (placeAll (fun a => (desc a).priority) mods).length < fuel := by
    rw [perm.length_eq]
    exact enough
  obtain ⟨last, walked, marks⟩ := Registered.initFrom desc [] (show Registered m' s' list
    ([] ++ placeAll (fun a => (desc a).priority) mods) from reg') (perm.nodup_iff.mpr distinct) length
  refine ⟨last, ?_, ?_⟩
  · rw [startUp, set, Option.bind_eq_bind, Option.bind_some, ran, Option.bind_some,
      gpInitModules, reg'.rep.first reg'.live, Option.bind_eq_bind, Option.bind_some]
    exact walked
  · intro a
    simp only [marks, perm.mem_iff]

end Memory

/-! ## The order of initialisation -/

/-- The modules in the order in which `gp_init_modules` comes to them. -/
def visited (desc : Addr → ModuleDesc) (list : Addr) (mods : List Addr) (fuel : Nat) :
    Option (List Addr) :=
  (startUp desc list mods fuel).map fun r => r.2.map (·.mod)

/-- Descriptors as `gp_register_module` may get them, in the order of the
calls. -/
structure Registrable (desc : Addr → ModuleDesc) (list : Addr) (mods : List Addr) : Prop where
  nonnull : list ≠ null
  addresses : ∀ mod ∈ mods, Descriptor list mod
  distinct : mods.Nodup
  first : ∀ mod ∈ mods, (desc mod).type = MODULE_INIT_FIRST

section Visits

variable {desc : Addr → ModuleDesc} {list : Addr} {mods : List Addr}

theorem Registrable.perm (ok : Registrable desc list mods) {order : List Addr}
    (perm : order.Perm mods) : Registrable desc list order where
  nonnull := ok.nonnull
  addresses mod mem := ok.addresses mod (perm.mem_iff.mp mem)
  distinct := perm.nodup_iff.mpr ok.distinct
  first mod mem := ok.first mod (perm.mem_iff.mp mem)

theorem Registrable.visited_eq (ok : Registrable desc list mods) {fuel : Nat}
    (enough : mods.length < fuel) :
    visited desc list mods fuel = some (placeAll (fun a => (desc a).priority) mods) := by
  obtain ⟨last, ran, _⟩ := startUp_eq ok.nonnull ok.addresses ok.distinct ok.first enough
  rw [visited, ran, Option.map_some, List.map_map]
  exact congrArg some (List.map_id _)

/-- **The order of initialisation.**  Every registered module is visited once.
The order rises exactly when the modules were registered in rising order, and
falls exactly when they were registered level or with the greatest first and
the others rising; it has one direction for every order of registration
exactly when there is only one priority. -/
theorem visited_order (ok : Registrable desc list mods) {fuel : Nat}
    (enough : mods.length < fuel) :
    let prio := fun a => (desc a).priority
    (∃ seen, visited desc list mods fuel = some seen ∧ seen.Perm mods ∧
      (Rising prio seen ↔ Rising prio mods) ∧
      (Falling prio seen ↔ Level prio mods ∨ TopFirst prio mods)) ∧
    ((∃ sorted, (sorted = Rising prio ∨ sorted = Falling prio) ∧
      ∀ order, order.Perm mods →
        ∃ seen, visited desc list order fuel = some seen ∧ seen.Perm mods ∧ sorted seen) ↔
      Level prio mods) := by
  intro prio
  have visits : ∀ order, order.Perm mods →
      visited desc list order fuel = some (placeAll prio order) := by
    intro order perm
    apply (ok.perm perm).visited_eq
    rw [perm.length_eq]
    exact enough
  refine ⟨⟨_, visits mods (List.Perm.refl mods), placeAll_perm prio mods, rising_placeAll,
    falling_placeAll⟩, ?_, ?_⟩
  · rintro ⟨sorted, direction, fixed⟩
    have placed : ∀ order, order.Perm mods → sorted (placeAll prio order) := by
      intro order perm
      obtain ⟨seen, ran, _, kept⟩ := fixed order perm
      rw [visits order perm] at ran
      cases ran
      exact kept
    obtain rfl | rfl := direction
    · exact level_of_fixed (.inl placed)
    · exact level_of_fixed (.inr placed)
  · intro level
    refine ⟨Rising prio, .inl rfl, ?_⟩
    intro order perm
    refine ⟨_, visits order perm, (placeAll_perm prio order).trans perm, ?_⟩
    have same : Level prio order :=
      fun x memx y memy => level x (perm.mem_iff.mp memx) y (perm.mem_iff.mp memy)
    rw [placeAll_of_rising same.rising]
    exact same.rising

end Visits

/-- Three descriptors at 128, 256 and 384 with the priorities 2, 1 and 3. -/
def threeModules (a : Addr) : ModuleDesc where
  type := MODULE_INIT_FIRST
  priority := if a = 128 then 2 else if a = 256 then 1 else 3
  init := true
  statInit := 0

theorem registrable_threeModules : Registrable threeModules 16 [128, 256, 384] where
  nonnull := by decide
  addresses := by
    intro mod mem
    simp only [List.mem_cons, List.not_mem_nil, or_false] at mem
    rcases mem with rfl | rfl | rfl <;> exact ⟨by decide, by decide⟩
  distinct := by decide
  first _ _ := rfl

/-- They come neither rising nor falling. -/
theorem visited_threeModules :
    ∃ seen, visited threeModules 16 [128, 256, 384] 4 = some seen ∧
      ¬Rising (fun a => (threeModules a).priority) seen ∧
      ¬Falling (fun a => (threeModules a).priority) seen := by
  refine ⟨[128, 256, 384], registrable_threeModules.visited_eq (by decide), ?_, ?_⟩
  · simp [Rising, threeModules]
  · simp [Falling, threeModules]

theorem visited_order_threeModules :
    Registrable threeModules 16 [128, 256, 384] ∧
      ∃ seen, visited threeModules 16 [128, 256, 384] 4 = some seen ∧
        seen.Perm [128, 256, 384] := by
  refine ⟨registrable_threeModules, ?_⟩
  obtain ⟨⟨seen, ran, perm, _⟩, _⟩ := visited_order registrable_threeModules
    (show [128, 256, 384].length < 4 by decide)
  exact ⟨seen, ran, perm⟩

end GpBase.Module

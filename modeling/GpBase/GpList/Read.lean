import GpBase.GpList.Refine

/-!
# Reading the lists

Read forward with `gp_list_first` and `gp_list_next` a live list gives its items, read
backward with `gp_list_last` and `gp_list_prev` it gives them in reverse, and
`gp_list_empty` and `gp_list_active` say what is on it: after every sequence of operations,
whatever other lists there are.
-/

namespace GpBase.GpList

open GpBase.Lib

/-- A loop over a list: from an item on until `NULL`; `none` when the fuel does not do. -/
def walk (follow : Addr → Option Addr) : Nat → Addr → Option (List Addr)
  | 0, _ => none
  | fuel + 1, item =>
    if item = null then some []
    else do return item :: (← walk follow fuel (← follow item))

namespace Memory

variable (m : Memory)

/-- `for (it = gp_list_first(l); it != NULL; it = gp_list_next(l, it))` -/
def forward (list : Addr) (fuel : Nat) : Option (List Addr) := do
  walk (m.gpListNext list) fuel (← m.gpListFirst list)

/-- `for (it = gp_list_last(l); it != NULL; it = gp_list_prev(l, it))` -/
def backward (list : Addr) (fuel : Nat) : Option (List Addr) := do
  walk (m.gpListPrev list) fuel (← m.gpListLast list)

/-- The item of a node, `NULL` for the sentinel. -/
def itemOrEnd (list node : Addr) : Addr := if node = list then null else m.item list node

end Memory

section Walk

variable {m : Memory} {s : Lists} {list : Addr} {xs : List Addr}

/-- Following the pointers of a segment in either direction. -/
theorem walk_seg {h : Chains Addr} {p : Addr} {follow : Addr → Option Addr} {fuel : Nat}
    (step : ∀ x ∈ xs, follow x = some (m.itemOrEnd list (h.next (x + m.llOffset list))))
    (seg : h.Seg p (xs.map (· + m.llOffset list)) list)
    (sentinel : list ∉ xs.map (· + m.llOffset list)) (nonnull : null ∉ xs)
    (enough : xs.length < fuel) : walk follow fuel (m.itemOrEnd list (h.next p)) = some xs := by
  induction xs generalizing p fuel with
  | nil =>
      obtain ⟨fuel, rfl⟩ := Nat.exists_eq_add_of_lt enough
      rw [seg.1, Memory.itemOrEnd, if_pos rfl]
      show walk follow (fuel + 1 + 0) null = _
      simp [walk]
  | cons x xs ih =>
      obtain ⟨fuel, rfl⟩ : ∃ f, fuel = f + 1 := Nat.exists_eq_add_one_of_ne_zero (by omega)
      obtain ⟨⟨forth, _⟩, rest⟩ := seg
      simp only [List.map_cons, List.mem_cons, not_or] at sentinel nonnull
      have here : m.itemOrEnd list (x + m.llOffset list) = x := by
        rw [Memory.itemOrEnd, if_neg (Ne.symm sentinel.1), Memory.item, BitVec.add_sub_cancel]
      have later := ih (fun y mem => step y (List.mem_cons_of_mem _ mem)) rest sentinel.2 nonnull.2
        (Nat.lt_of_succ_lt_succ enough)
      rw [forth, here, walk, if_neg (Ne.symm nonnull.1), step x List.mem_cons_self]
      simp [later]

/-- A live list as its readers need it. -/
theorem Rep.seg_items (rep : Rep m s) (live : s.live list = some xs) :
    m.links.Seg list (xs.map (· + m.llOffset list)) list ∧
      list ∉ xs.map (· + m.llOffset list) ∧ ∀ x ∈ xs, x + m.llOffset list ≠ null := by
  have seg := rep.seg list (by simp [live])
  have alone := rep.alone live list
  rw [nodes_of_live live, ← rep.offset] at seg alone
  refine ⟨seg, alone, ?_⟩
  intro x mem
  apply rep.nodeNonnull list
  rw [nodes_of_live live, ← rep.offset]
  exact List.mem_map_of_mem mem

/-- No node on a list has a null pointer. -/
theorem Rep.linked (rep : Rep m s) {n : Addr} (mem : n ∈ s.nodes list) :
    m.links.next n ≠ null := by
  have alive : s.live list ≠ none := by
    intro dead
    rw [nodes_of_none dead] at mem
    cases mem
  obtain ⟨xs, live⟩ := Option.ne_none_iff_exists'.mp alive
  rw [nodes_of_live live] at mem
  obtain ⟨item, onList, rfl⟩ := List.mem_map.mp mem
  obtain ⟨front, back, rfl⟩ := List.append_of_mem onList
  have split : s.live list = some ((front ++ [item]) ++ back) := by simpa using live
  rw [(rep.around live).2]
  exact rep.neighbour_nonnull alive (neighbours split).2

/-- What the reader makes of the pointer to the rest of a list. -/
theorem itemOrEnd_headD (rep : Rep m s) {front back : List Addr}
    (live : s.live list = some (front ++ back)) :
    m.itemOrEnd list ((back.map (· + m.llOffset list)).headD list) = back.headD null := by
  obtain ⟨_, sentinel, _⟩ := rep.seg_items live
  cases back with
  | nil => exact if_pos rfl
  | cons x back =>
      have apart : x + m.llOffset list ≠ list := by
        intro same
        have onList : x + m.llOffset list ∈ (front ++ x :: back).map (· + m.llOffset list) :=
          List.mem_map_of_mem (List.mem_append_right _ List.mem_cons_self)
        rw [same] at onList
        exact sentinel onList
      show m.itemOrEnd list (x + m.llOffset list) = x
      rw [Memory.itemOrEnd, if_neg apart, Memory.item, BitVec.add_sub_cancel]

theorem Rep.first (rep : Rep m s) (live : s.live list = some xs) :
    m.gpListFirst list = some (xs.headD null) := by
  have next := (rep.seg_items live).1.first
  have read := itemOrEnd_headD rep (show s.live list = some ([] ++ xs) from live)
  rw [← next] at read
  simpa [Memory.gpListFirst, rep.listNonnull list (by simp [live]), Memory.itemOrEnd] using read

theorem Rep.next (rep : Rep m s) {x : Addr} {front back : List Addr}
    (live : s.live list = some (front ++ x :: back)) :
    m.gpListNext list x = some (back.headD null) := by
  have mem : x ∈ front ++ x :: back := List.mem_append_right _ List.mem_cons_self
  have item0 : x ≠ null := fun same => rep.itemNonnull list _ live (same ▸ mem)
  have node0 := (rep.seg_items live).2.2 x mem
  have onList : x + m.llOffset list ∈ s.nodes list := by
    rw [nodes_of_live live, ← rep.offset]
    exact List.mem_map_of_mem mem
  have next := (rep.around live).2
  rw [← rep.offset] at next
  have split : s.live list = some ((front ++ [x]) ++ back) := by simpa using live
  have read := itemOrEnd_headD rep split
  rw [show (back.map (· + m.llOffset list)).headD list = m.links.next (x + m.llOffset list) by
    rw [next, Lists.behind, rep.offset]] at read
  simpa [Memory.gpListNext, Memory.node, item0, node0, rep.linked onList, Memory.itemOrEnd]
    using read

theorem Rep.forward (rep : Rep m s) (live : s.live list = some xs) {fuel : Nat}
    (enough : xs.length < fuel) : m.forward list fuel = some xs := by
  obtain ⟨seg, sentinel, nonnull⟩ := rep.seg_items live
  have items := rep.itemNonnull list xs live
  have first : m.gpListFirst list = some (m.itemOrEnd list (m.links.next list)) := by
    simp [Memory.gpListFirst, rep.listNonnull list (by simp [live]), Memory.itemOrEnd]
  have step : ∀ x ∈ xs, m.gpListNext list x =
      some (m.itemOrEnd list (m.links.next (x + m.llOffset list))) := by
    intro x mem
    have item0 : x ≠ null := fun same => items (same ▸ mem)
    have next0 : m.links.next (x + m.llOffset list) ≠ null := by
      have onList : x + m.llOffset list ∈ s.nodes list := by
        rw [nodes_of_live live, ← rep.offset]
        exact List.mem_map_of_mem mem
      exact rep.linked onList
    simp [Memory.gpListNext, Memory.node, item0, nonnull x mem, next0, Memory.itemOrEnd]
  rw [Memory.forward, first]
  exact walk_seg step seg sentinel items enough

theorem Rep.backward (rep : Rep m s) (live : s.live list = some xs) {fuel : Nat}
    (enough : xs.length < fuel) : m.backward list fuel = some xs.reverse := by
  obtain ⟨seg, sentinel, nonnull⟩ := rep.seg_items live
  have items := rep.itemNonnull list xs live
  have last : m.gpListLast list = some (m.itemOrEnd list (m.links.flip.next list)) := by
    rw [Memory.gpListLast, lnPrev_eq (rep.listNonnull list (by simp [live]))]
    rfl
  have step : ∀ x ∈ xs.reverse, m.gpListPrev list x =
      some (m.itemOrEnd list (m.links.flip.next (x + m.llOffset list))) := by
    intro x mem
    have node0 : m.node list x ≠ null := nonnull x (List.mem_reverse.mp mem)
    rw [Memory.gpListPrev, lnPrev_eq node0]
    rfl
  have back := seg.flip
  rw [← List.map_reverse] at back
  rw [Memory.backward, last]
  refine walk_seg step back ?_ ?_ ?_
  · simpa using sentinel
  · simpa using items
  · simpa using enough

theorem Rep.empty (rep : Rep m s) (live : s.live list = some xs) :
    m.gpListEmpty list = some (decide (xs = [])) := by
  have list0 := rep.listNonnull list (by simp [live])
  obtain ⟨seg, sentinel, nonnull⟩ := rep.seg_items live
  cases xs with
  | nil => simp [Memory.gpListEmpty, list0, seg.1]
  | cons x xs =>
      have first := nonnull x List.mem_cons_self
      have apart : x + m.llOffset list ≠ list := by
        intro same
        exact sentinel (by rw [List.map_cons, same]; exact List.mem_cons_self)
      simp [Memory.gpListEmpty, list0, seg.1.1, first, apart]

/-- A node that is not stale is active exactly when it is on a list. -/
theorem Rep.active (rep : Rep m s) {item : Addr} (nonnull : item + s.offset list ≠ null)
    (noList : s.live (item + s.offset list) = none)
    (known : (∃ other, item + s.offset list ∈ s.nodes other) ∨ ¬ s.stale (item + s.offset list)) :
    ∃ b, m.gpListActive list item = some b ∧
      (b = true ↔ ∃ other, item + s.offset list ∈ s.nodes other) := by
  refine ⟨m.links.next (item + s.offset list) ≠ null, ?_, ?_⟩
  · simp [Memory.gpListActive, Memory.gpListNodeActive, rep.node_eq, nonnull]
  · rw [decide_eq_true_eq]
    constructor
    · intro linked
      by_contra off
      have off := not_exists.mp off
      exact linked (rep.off _ noList off (known.resolve_left (not_exists.mpr off)))
    · rintro ⟨other, mem⟩
      exact rep.linked mem

end Walk

/-! ## Runs -/

/-- What the readers of the lists see. -/
structure Agrees (m : Memory) (s : Lists) : Prop where
  forward : ∀ list xs, s.live list = some xs →
    ∀ fuel, xs.length < fuel → m.forward list fuel = some xs
  backward : ∀ list xs, s.live list = some xs →
    ∀ fuel, xs.length < fuel → m.backward list fuel = some xs.reverse
  empty : ∀ list xs, s.live list = some xs → m.gpListEmpty list = some (decide (xs = []))
  active : ∀ list item, item + s.offset list ≠ null → s.live (item + s.offset list) = none →
    (∃ other, item + s.offset list ∈ s.nodes other) ∨ ¬ s.stale (item + s.offset list) →
    ∃ b, m.gpListActive list item = some b ∧
      (b = true ↔ ∃ other, item + s.offset list ∈ s.nodes other)

/-- Memory filled with zeros, without lists. -/
def blank : Memory := ⟨⟨fun _ => null, fun _ => null⟩, fun _ => null⟩

def noLists : Lists := ⟨fun _ => none, fun _ => null, fun _ => False⟩

/-- The calls and what they are for, side by side. -/
def listSys : TSys (Memory × Lists) ListOp where
  init c := c = (blank, noLists)
  step c op c' := ListStep c.2 op c'.2 ∧ c.1.exec op = some c'.1

theorem rep_blank : Rep blank noLists := by
  have none : ∀ list, noLists.nodes list = [] := fun _ => rfl
  refine ⟨rfl, ?_, ?_, ?_, ?_, ?_, ?_, ?_, ?_⟩
  · intro list live
    exact absurd rfl live
  · intro list
    exact List.nodup_nil
  · intro list other n mem
    rw [none] at mem
    cases mem
  · intro list n _
    rfl
  · intro list live
    exact absurd rfl live
  · intro list n mem
    rw [none] at mem
    cases mem
  · intro list xs live
    cases live
  · intro n _ _ _
    rfl

theorem listSys_rep {ops : List ListOp} {c : Memory × Lists} (run : listSys.Run ops c) :
    Rep c.1 c.2 := by
  refine run.invariant (I := fun _ c => Rep c.1 c.2) ?_ ?_
  · rintro c rfl
    exact rep_blank
  · intro ops c op c' _ rep stepped
    obtain ⟨m', ran, kept⟩ := rep.step stepped.1
    rw [stepped.2] at ran
    cases ran
    exact kept

/-- The lists that an operation is about. -/
def Touches (s : Lists) (list : Addr) : ListOp → Prop
  | .init l _ | .append l _ | .prepend l _ | .insertBefore l _ _ | .insertAfter l _ _
  | .remove l _ => list = l
  | .nodeRemove n => n ∈ s.nodes list
  | .replace old new => list = old ∨ list = new

theorem live_make_of_ne {s : Lists} {list other o : Addr} {items : List Addr} (ne : other ≠ list) :
    (s.make list o items).live other = s.live other := Function.update_of_ne ne _ _

theorem live_drop_of_ne {s : Lists} {list other : Addr} (ne : other ≠ list) :
    (s.drop list).live other = s.live other := Function.update_of_ne ne _ _

/-- The other lists keep their items. -/
theorem ListStep.others {s s' : Lists} {op : ListOp} (step : ListStep s op s') {other : Addr}
    (untouched : ¬ Touches s other op) : s'.live other = s.live other := by
  cases step with
  | init _ _ => rw [live_make_of_ne untouched, live_drop_of_ne untouched]
  | append _ _ => exact live_make_of_ne untouched
  | prepend _ _ => exact live_make_of_ne untouched
  | insertBefore _ _ => exact live_make_of_ne untouched
  | insertAfter _ _ => exact live_make_of_ne untouched
  | remove _ => exact live_make_of_ne untouched
  | @nodeRemove list item xs ys live =>
      apply live_make_of_ne
      rintro rfl
      apply untouched
      show item + s.offset other ∈ s.nodes other
      rw [nodes_of_live live]
      exact List.mem_map_of_mem (List.mem_append_right _ List.mem_cons_self)
  | nodeRemoveFree _ _ => rfl
  | replace _ _ _ _ =>
      obtain ⟨notOld, notNew⟩ := not_or.mp untouched
      rw [live_make_of_ne notNew, live_drop_of_ne notNew, live_drop_of_ne notOld]

/-- **Lists in a shared heap are sequences.** After every sequence of operations on any number
of lists, each live list reads as its abstract sequence, forward and backward, and
`gp_list_empty` and `gp_list_active` agree with it; every further operation that is allowed
returns, and leaves the lists that it is not about as they are. -/
theorem lists_refine {ops : List ListOp} {c : Memory × Lists} (run : listSys.Run ops c) :
    Agrees c.1 c.2 ∧ ∀ op s', ListStep c.2 op s' →
      (∃ m', c.1.exec op = some m' ∧ Agrees m' s') ∧
      ∀ other, ¬ Touches c.2 other op → s'.live other = c.2.live other := by
  have agrees : ∀ {m s}, Rep m s → Agrees m s := fun rep =>
    ⟨fun _ _ live _ enough => rep.forward live enough,
      fun _ _ live _ enough => rep.backward live enough,
      fun _ _ live => rep.empty live,
      fun _ _ nonnull noList known => rep.active nonnull noList known⟩
  have rep := listSys_rep run
  refine ⟨agrees rep, ?_⟩
  intro op s' step
  obtain ⟨m', ran, kept⟩ := rep.step step
  exact ⟨⟨m', ran, agrees kept⟩, fun other untouched => step.others untouched⟩

/-! ## Two lists -/

/-- A run goes on with every operation that is allowed. -/
theorem listSys_extend {ops : List ListOp} {m : Memory} {s s' : Lists} {op : ListOp}
    (run : listSys.Run ops (m, s)) (step : ListStep s op s') :
    ∃ m', listSys.Run (ops ++ [op]) (m', s') := by
  obtain ⟨m', ran, _⟩ := (listSys_rep run).step step
  exact ⟨m', .step run ⟨step, ran⟩⟩

theorem off_drop {s : Lists} {n : Addr} (off : ∀ other, n ∉ s.nodes other) (list : Addr) :
    ∀ other, n ∉ (s.drop list).nodes other := by
  intro other
  by_cases eq : other = list
  · rw [eq, nodes_drop]
    exact List.not_mem_nil
  · rw [nodes_drop_of_ne eq]
    exact off other

theorem off_make {s : Lists} {n : Addr} (off : ∀ other, n ∉ s.nodes other) (list : Addr)
    {offset : Addr} {items : List Addr} (apart : n ∉ items.map (· + offset)) :
    ∀ other, n ∉ (s.make list offset items).nodes other := by
  intro other
  by_cases eq : other = list
  · rw [eq, nodes_make]
    exact apart
  · rw [nodes_make_of_ne eq]
    exact off other

/-- Two empty lists, at 64 and 128, whose nodes lie 8 bytes inside their items. -/
def twoLists : Lists := (((noLists.drop 64).make 64 8 []).drop 128).make 128 8 []

theorem off_twoLists (n : Addr) : ∀ list, n ∉ twoLists.nodes list :=
  off_make (off_drop (off_make (off_drop (fun _ => List.not_mem_nil) 64) 64 List.not_mem_nil) 128)
    128 List.not_mem_nil

/-- Items are put on both lists, and one of them is taken off again. -/
theorem lists_refine_two :
    ∃ c, listSys.Run [.init 64 8, .init 128 8, .append 64 256, .append 128 320, .prepend 64 384,
        .remove 64 256] c ∧
      c.1.forward 64 2 = some [384] ∧ c.1.backward 128 2 = some [320] ∧
      ∃ m', c.1.exec (.remove 64 384) = some m' ∧ m'.gpListEmpty 64 = some true ∧
        m'.forward 128 2 = some [320] := by
  let s₀ : Lists := (noLists.drop 64).make 64 8 []
  let s₁ := twoLists.put 64 [256]
  let s₂ := s₁.put 128 [320]
  let s₃ := s₂.put 64 [384, 256]
  let s₄ := s₃.put 64 [384]
  have off₁ : ∀ n, n ∉ [(264 : Addr)] → ∀ list, n ∉ s₁.nodes list := fun n apart =>
    off_make (off_twoLists n) 64 apart
  have off₂ : ∀ n, n ∉ [(264 : Addr)] → n ∉ [(328 : Addr)] → ∀ list, n ∉ s₂.nodes list :=
    fun n apart apart' => off_make (off₁ n apart) 128 apart'
  have step₀ : ListStep noLists (.init 64 8) s₀ := .init (by decide) fun _ => List.not_mem_nil
  have step₁ : ListStep s₀ (.init 128 8) twoLists :=
    .init (by decide) (off_make (off_drop (fun _ => List.not_mem_nil) 64) 64 List.not_mem_nil)
  have step₂ : ListStep twoLists (.append 64 256) s₁ := by
    have live : twoLists.live 64 = some [] := rfl
    exact .append live ⟨by decide, by decide, rfl, off_twoLists _⟩
  have step₃ : ListStep s₁ (.append 128 320) s₂ := by
    have live : s₁.live 128 = some [] := rfl
    exact .append live ⟨by decide, by decide, rfl, off₁ _ (by decide)⟩
  have step₄ : ListStep s₂ (.prepend 64 384) s₃ := by
    have live : s₂.live 64 = some [256] := rfl
    exact .prepend live ⟨by decide, by decide, rfl, off₂ _ (by decide) (by decide)⟩
  have step₅ : ListStep s₃ (.remove 64 256) s₄ := by
    have live : s₃.live 64 = some ([384] ++ 256 :: []) := rfl
    exact .remove live
  have step₆ : ListStep s₄ (.remove 64 384) (s₄.put 64 []) := by
    have live : s₄.live 64 = some ([] ++ 384 :: []) := rfl
    exact .remove live
  have start : listSys.Run [] (blank, noLists) := .init rfl
  obtain ⟨m₀, run₀⟩ := listSys_extend start step₀
  obtain ⟨m₁, run₁⟩ := listSys_extend run₀ step₁
  obtain ⟨m₂, run₂⟩ := listSys_extend run₁ step₂
  obtain ⟨m₃, run₃⟩ := listSys_extend run₂ step₃
  obtain ⟨m₄, run₄⟩ := listSys_extend run₃ step₄
  obtain ⟨m₅, run₅⟩ := listSys_extend run₄ step₅
  obtain ⟨agrees, further⟩ := lists_refine run₅
  obtain ⟨⟨m₆, removed, agrees'⟩, _⟩ := further _ _ step₆
  exact ⟨_, run₅, agrees.forward 64 [384] rfl 2 (by decide),
    agrees.backward 128 [320] rfl 2 (by decide), m₆, removed, agrees'.empty 64 [] rfl,
    agrees'.forward 128 [320] rfl 2 (by decide)⟩

end GpBase.GpList

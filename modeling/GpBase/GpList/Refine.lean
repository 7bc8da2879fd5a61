import GpBase.GpList.Model
import GpBase.Lib.Run

/-!
# Lists in a shared heap as sequences

Several lists live in one memory. Abstractly each live list is a sequence of items; the
operations are insertions and removals there, and leave the other lists alone. `Rep` says
that the pointers spell out the sequences, and every operation keeps it. What
`gp_list_replace` leaves behind, the emptied list and the items its target had before, is
stale: it keeps old pointers until it is put to use again.
-/

namespace GpBase.GpList

open GpBase.Lib

/-! ## The abstract lists -/

/-- The live lists, each with its items and the offset of their nodes. -/
structure Lists where
  live : Addr → Option (List Addr)
  offset : Addr → Addr
  /-- nodes and sentinels with pointers left over -/
  stale : Addr → Prop

namespace Lists

/-- The nodes on a list. -/
def nodes (s : Lists) (list : Addr) : List Addr :=
  ((s.live list).getD []).map (· + s.offset list)

/-- The node that the items `xs` of a list end in. -/
def before (s : Lists) (list : Addr) (xs : List Addr) : Addr :=
  (xs.map (· + s.offset list)).getLastD list

/-- The node that the items `ys` of a list start with. -/
def behind (s : Lists) (list : Addr) (ys : List Addr) : Addr :=
  (ys.map (· + s.offset list)).headD list

/-- The node of an item belongs to no list and is no sentinel of one. -/
structure Free (s : Lists) (n : Addr) : Prop where
  nonnull : n ≠ null
  noList : s.live n = none
  off : ∀ list, n ∉ s.nodes list

/-- A list is given up: its sentinel and its nodes are stale. -/
def drop (s : Lists) (list : Addr) : Lists where
  live := Function.update s.live list none
  offset := s.offset
  stale k := s.stale k ∨ k = list ∨ k ∈ s.nodes list

/-- An address becomes a list; what is part of it is not stale any more. -/
def make (s : Lists) (list offset : Addr) (items : List Addr) : Lists where
  live := Function.update s.live list (some items)
  offset := Function.update s.offset list offset
  stale k := s.stale k ∧ k ≠ list ∧ k ∉ items.map (· + offset)

/-- A list gets other items. -/
def put (s : Lists) (list : Addr) (items : List Addr) : Lists :=
  s.make list (s.offset list) items

end Lists

inductive ListOp
  | init (list offset : Addr)
  | append (list item : Addr)
  | prepend (list item : Addr)
  | insertBefore (list item before : Addr)
  | insertAfter (list item after : Addr)
  | remove (list item : Addr)
  | nodeRemove (node : Addr)
  | replace (old new : Addr)
  deriving DecidableEq, Repr

/-- An item whose node is free. -/
structure Insertable (s : Lists) (list item : Addr) : Prop where
  nonnull : item ≠ null
  free : s.Free (item + s.offset list)

/-- What each operation is for, and what it may be called on. -/
inductive ListStep (s : Lists) : ListOp → Lists → Prop
  | init {list offset} : list ≠ null → (∀ other, list ∉ s.nodes other) →
      ListStep s (.init list offset) ((s.drop list).make list offset [])
  | append {list item xs} : s.live list = some xs → Insertable s list item →
      ListStep s (.append list item) (s.put list (xs ++ [item]))
  | prepend {list item xs} : s.live list = some xs → Insertable s list item →
      ListStep s (.prepend list item) (s.put list (item :: xs))
  | insertBefore {list item before xs ys} : s.live list = some (xs ++ before :: ys) →
      Insertable s list item → ListStep s (.insertBefore list item before)
        (s.put list (xs ++ item :: before :: ys))
  | insertAfter {list item after xs ys} : s.live list = some (xs ++ after :: ys) →
      Insertable s list item → ListStep s (.insertAfter list item after)
        (s.put list (xs ++ after :: item :: ys))
  | remove {list item xs ys} : s.live list = some (xs ++ item :: ys) →
      ListStep s (.remove list item) (s.put list (xs ++ ys))
  | nodeRemove {list item xs ys} : s.live list = some (xs ++ item :: ys) →
      ListStep s (.nodeRemove (item + s.offset list)) (s.put list (xs ++ ys))
  | nodeRemoveFree {n} : s.Free n → ¬ s.stale n → ListStep s (.nodeRemove n) s
  | replace {old new xs} : s.live old = some xs → old ≠ new → new ≠ null →
      (∀ other, new ∉ s.nodes other) → ListStep s (.replace old new)
        (((s.drop old).drop new).make new (s.offset old) xs)

namespace Memory

/-- The call that an operation stands for. -/
def exec (m : Memory) : ListOp → Option Memory
  | .init list offset => m.gpListInitOffset list offset
  | .append list item => m.gpListAppend list item
  | .prepend list item => m.gpListPrepend list item
  | .insertBefore list item before => m.gpListInsertBefore list item before
  | .insertAfter list item after => m.gpListInsertAfter list item after
  | .remove list item => m.gpListRemove list item
  | .nodeRemove node => m.gpListNodeRemove node
  | .replace old new => m.gpListReplace old new

end Memory

/-! ## Representation -/

/-- The pointers spell out the live lists. -/
structure Rep (m : Memory) (s : Lists) : Prop where
  offset : m.llOffset = s.offset
  seg : ∀ list, s.live list ≠ none → m.links.Seg list (s.nodes list) list
  nodup : ∀ list, (s.nodes list).Nodup
  apart : ∀ list other n, n ∈ s.nodes list → n ∈ s.nodes other → list = other
  noList : ∀ list n, n ∈ s.nodes list → s.live n = none
  listNonnull : ∀ list, s.live list ≠ none → list ≠ null
  nodeNonnull : ∀ list n, n ∈ s.nodes list → n ≠ null
  itemNonnull : ∀ list xs, s.live list = some xs → null ∉ xs
  off : ∀ n, s.live n = none → (∀ list, n ∉ s.nodes list) → ¬ s.stale n → m.links.next n = null

section Nodes

variable {s : Lists} {list other : Addr} {xs : List Addr}

theorem nodes_of_live (live : s.live list = some xs) : s.nodes list = xs.map (· + s.offset list) := by
  rw [Lists.nodes, live]
  rfl

theorem nodes_of_none (dead : s.live list = none) : s.nodes list = [] := by
  rw [Lists.nodes, dead]
  rfl

@[simp] theorem nodes_make (s : Lists) (list o : Addr) (items : List Addr) :
    (s.make list o items).nodes list = items.map (· + o) := by
  simp [Lists.nodes, Lists.make]

theorem nodes_make_of_ne {o : Addr} {items : List Addr} (ne : other ≠ list) :
    (s.make list o items).nodes other = s.nodes other := by
  simp [Lists.nodes, Lists.make, ne]

@[simp] theorem nodes_drop (s : Lists) (list : Addr) : (s.drop list).nodes list = [] := by
  simp [Lists.nodes, Lists.drop]

theorem nodes_drop_of_ne (ne : other ≠ list) : (s.drop list).nodes other = s.nodes other := by
  simp [Lists.nodes, Lists.drop, ne]

end Nodes

section Keep

variable {m m' : Memory} {s : Lists} {list : Addr}

/-- Nothing that is live notices that a list is given up. -/
theorem Rep.drop (rep : Rep m s) (list : Addr) : Rep m (s.drop list) := by
  have same : ∀ {other n}, n ∈ (s.drop list).nodes other → other ≠ list ∧ n ∈ s.nodes other := by
    intro other n mem
    by_cases eq : other = list
    · rw [eq, nodes_drop] at mem
      cases mem
    · rw [nodes_drop_of_ne eq] at mem
      exact ⟨eq, mem⟩
  have kept : ∀ {other xs}, (s.drop list).live other = some xs → other ≠ list ∧
      s.live other = some xs := by
    intro other xs live
    by_cases eq : other = list
    · simp [Lists.drop, eq] at live
    · exact ⟨eq, by simpa [Lists.drop, eq] using live⟩
  have was : ∀ {other}, (s.drop list).live other ≠ none → other ≠ list ∧ s.live other ≠ none := by
    intro other live
    obtain ⟨xs, live⟩ := Option.ne_none_iff_exists'.mp live
    obtain ⟨ne, live⟩ := kept live
    exact ⟨ne, by simp [live]⟩
  refine ⟨rep.offset, ?_, ?_, ?_, ?_, ?_, ?_, ?_, ?_⟩
  · intro other live
    obtain ⟨ne, live⟩ := was live
    rw [nodes_drop_of_ne ne]
    exact rep.seg other live
  · intro other
    by_cases eq : other = list
    · rw [eq, nodes_drop]
      exact List.nodup_nil
    · rw [nodes_drop_of_ne eq]
      exact rep.nodup other
  · intro one two n left right
    exact rep.apart one two n (same left).2 (same right).2
  · intro other n mem
    have dead := rep.noList other n (same mem).2
    by_cases eq : n = list
    · simp [Lists.drop, eq]
    · simpa [Lists.drop, eq] using dead
  · intro other live
    exact rep.listNonnull other (was live).2
  · intro other n mem
    exact rep.nodeNonnull other n (same mem).2
  · intro other xs live
    exact rep.itemNonnull other xs (kept live).2
  · -- the nodes of the list that is given up count as stale from now on
    intro n dead off fresh
    simp only [Lists.drop, not_or] at fresh
    obtain ⟨fresh, ne, notOn⟩ := fresh
    refine rep.off n (by simpa [Lists.drop, ne] using dead) ?_ fresh
    intro other mem
    by_cases eq : other = list
    · exact notOn (eq ▸ mem)
    · exact off other (by rwa [nodes_drop_of_ne eq])

/-- One list is rewritten. The nodes it gets are free or its own, the pointers of the other
lists are left alone, and the pointers of what is on no list are null or stale. -/
theorem Rep.make (rep : Rep m s) {o : Addr} {items : List Addr}
    (nonnull : list ≠ null) (alone : ∀ other, list ∉ s.nodes other)
    (new : ∀ n ∈ items.map (· + o), n ≠ null ∧ n ≠ list ∧ s.live n = none ∧
      ∀ other, other ≠ list → n ∉ s.nodes other)
    (nodup : (items.map (· + o)).Nodup) (itemNonnull : null ∉ items)
    (offset : m'.llOffset = Function.update s.offset list o)
    (seg : m'.links.Seg list (items.map (· + o)) list)
    (frame : ∀ k, k ≠ list → s.live k ≠ none ∨ (∃ other, other ≠ list ∧ k ∈ s.nodes other) →
      m'.links.next k = m.links.next k ∧ m'.links.prev k = m.links.prev k)
    (off : ∀ n, n ≠ list → s.live n = none → (∀ other, other ≠ list → n ∉ s.nodes other) →
      n ∉ items.map (· + o) → ¬ s.stale n → m'.links.next n = null) :
    Rep m' (s.make list o items) := by
  have self := nodes_make s list o items
  have others : ∀ {other}, other ≠ list → (s.make list o items).nodes other = s.nodes other :=
    fun ne => nodes_make_of_ne ne
  have live : ∀ {other}, other ≠ list → (s.make list o items).live other = s.live other :=
    fun ne => Function.update_of_ne ne _ _
  refine ⟨offset, ?_, ?_, ?_, ?_, ?_, ?_, ?_, ?_⟩
  · intro other alive
    by_cases eq : other = list
    · rw [eq, self]
      exact seg
    · rw [live eq] at alive
      rw [others eq]
      -- every other list is a segment that the call did not write to
      have touched := frame other eq (.inl alive)
      refine (rep.seg other alive).frame touched.1 touched.2 ?_
      intro n mem
      exact frame n (fun same => alone other (same ▸ mem)) (.inr ⟨other, eq, mem⟩)
  · intro other
    by_cases eq : other = list
    · rw [eq, self]
      exact nodup
    · rw [others eq]
      exact rep.nodup other
  · intro one two n left right
    by_cases eq₁ : one = list <;> by_cases eq₂ : two = list
    · rw [eq₁, eq₂]
    · rw [eq₁, self] at left
      rw [others eq₂] at right
      exact absurd right ((new n left).2.2.2 two eq₂)
    · rw [eq₂, self] at right
      rw [others eq₁] at left
      exact absurd left ((new n right).2.2.2 one eq₁)
    · rw [others eq₁] at left
      rw [others eq₂] at right
      exact rep.apart one two n left right
  · intro other n mem
    by_cases eq : other = list
    · rw [eq, self] at mem
      obtain ⟨_, ne, dead, _⟩ := new n mem
      rw [live ne, dead]
    · rw [others eq] at mem
      rw [live (fun same => alone other (same ▸ mem))]
      exact rep.noList other n mem
  · intro other alive
    by_cases eq : other = list
    · rwa [eq]
    · rw [live eq] at alive
      exact rep.listNonnull other alive
  · intro other n mem
    by_cases eq : other = list
    · rw [eq, self] at mem
      exact (new n mem).1
    · rw [others eq] at mem
      exact rep.nodeNonnull other n mem
  · intro other xs alive
    by_cases eq : other = list
    · rw [eq] at alive
      have same : items = xs := by simpa [Lists.make] using alive
      rwa [← same]
    · rw [live eq] at alive
      exact rep.itemNonnull other xs alive
  · intro n dead notOn fresh
    have ne : n ≠ list := by
      rintro rfl
      simp [Lists.make] at dead
    rw [live ne] at dead
    -- what the list had and does not get again needs a null pointer: `off` says so
    have notHere : n ∉ items.map (· + o) := by
      have notOn := notOn list
      rwa [self] at notOn
    refine off n ne dead ?_ notHere (fun stale => fresh ⟨stale, ne, notHere⟩)
    intro other eq mem
    exact notOn other (by rwa [others eq])

theorem Rep.alone (rep : Rep m s) {xs : List Addr} (live : s.live list = some xs) (other : Addr) :
    list ∉ s.nodes other := by
  intro mem
  have dead := rep.noList other list mem
  rw [live] at dead
  cases dead

/-- What is a live list, or on another one, is not on a list. -/
theorem Rep.not_mem_of_other (rep : Rep m s) {k : Addr}
    (other : s.live k ≠ none ∨ ∃ other, other ≠ list ∧ k ∈ s.nodes other) : k ∉ s.nodes list := by
  intro mem
  rcases other with alive | ⟨other, different, mem'⟩
  · exact alive (rep.noList list k mem)
  · exact different (rep.apart other list k mem' mem)

/-- The neighbours of a place on a list are its nodes or its sentinel. -/
theorem neighbours {xs ys : List Addr} (live : s.live list = some (xs ++ ys)) :
    (s.before list xs = list ∨ s.before list xs ∈ s.nodes list) ∧
      (s.behind list ys = list ∨ s.behind list ys ∈ s.nodes list) := by
  rw [nodes_of_live live, List.map_append]
  constructor
  · rcases Chains.getLastD_mem (xs.map (· + s.offset list)) list with same | mem
    · exact .inl same
    · exact .inr (List.mem_append_left _ mem)
  · rcases Chains.headD_mem (ys.map (· + s.offset list)) list with same | mem
    · exact .inl same
    · exact .inr (List.mem_append_right _ mem)

/-- What is neither on a list nor its sentinel is no neighbour there. -/
theorem ne_neighbour {p k : Addr} (place : p = list ∨ p ∈ s.nodes list) (ne : k ≠ list)
    (other : k ∉ s.nodes list) : k ≠ p := by
  rintro rfl
  rcases place with same | mem
  · exact ne same
  · exact other mem

/-- An item is put on a list behind the items `xs`. -/
theorem Rep.insert (rep : Rep m s) {xs ys : List Addr} {item : Addr}
    (live : s.live list = some (xs ++ ys)) (new : Insertable s list item) :
    Rep { m with links :=
        m.links.link (s.before list xs) (item + s.offset list) (s.behind list ys) }
      (s.put list (xs ++ item :: ys)) := by
  set n := item + s.offset list with nDef
  have nodes := nodes_of_live live
  rw [List.map_append] at nodes
  have nonnull := rep.listNonnull list (by simp [live])
  have free : s.Free n := new.free
  have notOn := free.off list
  have seg := rep.seg list (by simp [live])
  have alone := rep.alone live
  have ne : n ≠ list := by
    intro same
    have dead := free.noList
    rw [same, live] at dead
    cases dead
  obtain ⟨before, behind⟩ := neighbours live
  have once := rep.nodup list
  have self := alone list
  rw [nodes] at seg notOn once self
  have linked := seg.link once self self notOn ne ne
  have map : (xs ++ item :: ys).map (· + s.offset list) =
      xs.map (· + s.offset list) ++ n :: ys.map (· + s.offset list) := by
    rw [List.map_append, List.map_cons]
  -- only the two neighbours and the node itself are written
  apply rep.make nonnull alone
  · intro k mem
    rw [map, List.mem_append, List.mem_cons] at mem
    by_cases eq : k = n
    · rw [eq]
      exact ⟨free.nonnull, ne, free.noList, fun other _ => free.off other⟩
    · have old : k ∈ s.nodes list := by
        rw [nodes, List.mem_append]
        tauto
      refine ⟨rep.nodeNonnull list k old, fun same => alone list (same ▸ old),
        rep.noList list k old, ?_⟩
      intro other apart mem
      exact apart (rep.apart other list k mem old)
  · rw [map]
    exact List.nodup_middle.mpr (List.nodup_cons.mpr ⟨notOn, once⟩)
  · have old := rep.itemNonnull list _ live
    rw [List.mem_append, List.mem_cons]
    rw [List.mem_append] at old
    have notNew := Ne.symm new.nonnull
    tauto
  · show m.llOffset = _
    rw [rep.offset, Function.update_eq_self]
  · rw [map]
    exact linked
  · -- a node of another list is neither of the neighbours
    intro k apart other
    have kn : k ≠ n := by
      rintro rfl
      rcases other with alive | ⟨other, _, mem⟩
      · exact alive free.noList
      · exact free.off other mem
    have notHere := rep.not_mem_of_other other
    constructor
    · exact Chains.link_next_of_ne (ne_neighbour before apart notHere) kn
    · exact Chains.link_prev_of_ne (ne_neighbour behind apart notHere) kn
  · intro k apart dead others notHere fresh
    rw [map, List.mem_append, List.mem_cons, not_or, not_or] at notHere
    have here : k ∉ s.nodes list := by
      rw [nodes, List.mem_append]
      tauto
    rw [Chains.link_next_of_ne (ne_neighbour before apart here) notHere.2.1]
    refine rep.off k dead ?_ fresh
    intro other
    by_cases eq : other = list
    · rwa [eq]
    · exact others other eq

/-- An item is taken off a list. -/
theorem Rep.takeOut (rep : Rep m s) {xs ys : List Addr} {item : Addr}
    (live : s.live list = some (xs ++ item :: ys)) :
    Rep { m with links :=
        m.links.unlink (s.before list xs) (item + s.offset list) (s.behind list ys) null }
      (s.put list (xs ++ ys)) := by
  set n := item + s.offset list with nDef
  have nodes := nodes_of_live live
  rw [List.map_append, List.map_cons] at nodes
  have nonnull := rep.listNonnull list (by simp [live])
  have seg := rep.seg list (by simp [live])
  have alone := rep.alone live
  have onList : n ∈ s.nodes list := by
    rw [nodes]
    exact List.mem_append_right _ List.mem_cons_self
  have before := (neighbours live).1
  have behind : s.behind list ys = list ∨ s.behind list ys ∈ s.nodes list := by
    have split : s.live list = some ((xs ++ [item]) ++ ys) := by simpa using live
    exact (neighbours split).2
  have once := rep.nodup list
  have self := alone list
  rw [nodes] at seg once self
  have taken := seg.unlink null once self self
  have old : ∀ {k}, k ∈ (xs ++ ys).map (· + s.offset list) → k ∈ s.nodes list := by
    intro k mem
    rw [List.map_append, List.mem_append] at mem
    rw [nodes, List.mem_append, List.mem_cons]
    tauto
  -- the node that goes is on no list afterwards, with a null pointer
  apply rep.make nonnull alone
  · intro k mem
    refine ⟨rep.nodeNonnull list k (old mem), fun same => alone list (same ▸ old mem),
      rep.noList list k (old mem), ?_⟩
    intro other apart mem'
    exact apart (rep.apart other list k mem' (old mem))
  · rw [List.map_append]
    exact (List.nodup_cons.mp (List.nodup_middle.mp once)).2
  · have items := rep.itemNonnull list _ live
    rw [List.mem_append]
    rw [List.mem_append, List.mem_cons] at items
    tauto
  · show m.llOffset = _
    rw [rep.offset, Function.update_eq_self]
  · rw [List.map_append]
    exact taken
  · intro k apart other
    have notHere := rep.not_mem_of_other other
    have kn : k ≠ n := fun same => notHere (same ▸ onList)
    constructor
    · exact Chains.unlink_next_of_ne (ne_neighbour before apart notHere) kn
    · exact Chains.unlink_prev_of_ne (ne_neighbour behind apart notHere) kn
  · intro k apart dead others notHere fresh
    by_cases eq : k = n
    · rw [eq]
      exact Function.update_self ..
    · have here : k ∉ s.nodes list := by
        rw [List.map_append, List.mem_append] at notHere
        rw [nodes, List.mem_append, List.mem_cons]
        tauto
      show (m.links.unlink _ _ _ _).next k = null
      rw [Chains.unlink_next_of_ne (ne_neighbour before apart here) eq]
      refine rep.off k dead ?_ fresh
      intro other
      by_cases same : other = list
      · rwa [same]
      · exact others other same

section Move

variable {old new : Addr} {xs : List Addr}

/-- What two lists leave when they are given up. -/
theorem nodes_dropped {k other : Addr} (mem : k ∈ ((s.drop old).drop new).nodes other) :
    other ≠ new ∧ other ≠ old ∧ k ∈ s.nodes other := by
  by_cases eq : other = new
  · rw [eq, nodes_drop] at mem
    cases mem
  rw [nodes_drop_of_ne eq] at mem
  by_cases eq' : other = old
  · rw [eq', nodes_drop] at mem
    cases mem
  rw [nodes_drop_of_ne eq'] at mem
  exact ⟨eq, eq', mem⟩

theorem live_dropped {k : Addr} (alive : ((s.drop old).drop new).live k ≠ none) :
    k ≠ new ∧ k ≠ old ∧ s.live k ≠ none := by
  by_cases eq : k = new
  · simp [Lists.drop, eq] at alive
  by_cases eq' : k = old
  · by_cases same : old = new <;> simp [Lists.drop, eq', same] at alive
  exact ⟨eq, eq', by simpa [Lists.drop, eq, eq'] using alive⟩

/-- A list is made out of the nodes of another one: the two are given up first, and what the
source had is free then. -/
theorem Rep.moved (rep : Rep m s) (live : s.live old = some xs) (apart : old ≠ new)
    (nonnull : new ≠ null) (alone : ∀ other, new ∉ s.nodes other) {links : Chains Addr}
    (linked : links.Seg new (xs.map (· + s.offset old)) new)
    (frame : ∀ k, k ≠ new → k ≠ old → k ∉ s.nodes old →
      links.next k = m.links.next k ∧ links.prev k = m.links.prev k) :
    Rep ⟨links, Function.update m.llOffset new (m.llOffset old)⟩
      (((s.drop old).drop new).make new (s.offset old) xs) := by
  have nodes := nodes_of_live live
  apply ((rep.drop old).drop new).make nonnull
  · intro other mem
    exact alone other (nodes_dropped mem).2.2
  · intro k mem
    rw [← nodes] at mem
    refine ⟨rep.nodeNonnull old k mem, fun same => alone old (same ▸ mem), ?_, ?_⟩
    · by_contra alive
      exact (live_dropped alive).2.2 (rep.noList old k mem)
    · intro other _ mem'
      obtain ⟨_, different, mem'⟩ := nodes_dropped mem'
      exact different (rep.apart other old k mem' mem)
  · rw [← nodes]
    exact rep.nodup old
  · exact rep.itemNonnull old xs live
  · show Function.update m.llOffset new (m.llOffset old) = _
    rw [rep.offset]
    rfl
  · exact linked
  · intro k ne other
    apply frame k ne
    · rintro rfl
      rcases other with alive | ⟨other, _, mem⟩
      · exact (live_dropped alive).2.1 rfl
      · exact rep.alone live other (nodes_dropped mem).2.2
    · intro mem
      rcases other with alive | ⟨other, _, mem'⟩
      · exact (live_dropped alive).2.2 (rep.noList old k mem)
      · obtain ⟨_, different, mem'⟩ := nodes_dropped mem'
        exact different (rep.apart other old k mem' mem)
  · intro k ne dead others notHere fresh
    rw [← nodes] at notHere
    simp only [Lists.drop, not_or] at fresh
    obtain ⟨⟨fresh, notOld, _⟩, _, notNew⟩ := fresh
    show links.next k = null
    rw [(frame k ne notOld notHere).1]
    have stillDead : s.live k = none := by simpa [Lists.drop, ne, notOld] using dead
    refine rep.off k stillDead ?_ fresh
    intro other mem
    by_cases eq : other = old
    · exact notHere (eq ▸ mem)
    by_cases eq' : other = new
    · -- a node that the target list had: it went stale when the target was given up
      apply notNew
      change k ∈ (s.drop old).nodes new
      rw [nodes_drop_of_ne (Ne.symm apart), ← eq']
      exact mem
    · apply others other eq'
      rwa [nodes_drop_of_ne eq', nodes_drop_of_ne eq]

theorem Rep.replace (rep : Rep m s) (live : s.live old = some xs) (apart : old ≠ new)
    (nonnull : new ≠ null) (alone : ∀ other, new ∉ s.nodes other) :
    ∃ m', m.gpListReplace old new = some m' ∧
      Rep m' (((s.drop old).drop new).make new (s.offset old) xs) := by
  have oldNonnull := rep.listNonnull old (by simp [live])
  have nodes := nodes_of_live live
  have seg := rep.seg old (by simp [live])
  have once := rep.nodup old
  cases xs with
  | nil =>
      rw [nodes] at seg
      -- an empty source: the target is initialised and the source is left as it is
      refine ⟨_, gpListReplace_empty oldNonnull nonnull seg.1,
        rep.moved live apart nonnull alone ?_ ?_⟩
      · exact ⟨Function.update_self .., Function.update_self ..⟩
      · intro k notNew notOld _
        simp [notNew, notOld]
  | cons item xs =>
      rw [List.map_cons] at nodes
      rw [nodes] at seg once
      have first : item + s.offset old ∈ s.nodes old := nodes ▸ List.mem_cons_self
      have last : m.links.prev old ∈ s.nodes old := by
        rw [seg.2.last, nodes]
        rcases Chains.getLastD_mem (xs.map (· + s.offset old)) (item + s.offset old) with same | mem
        · rw [same]
          exact List.mem_cons_self
        · exact List.mem_cons_of_mem _ mem
      have different : old ≠ item + s.offset old := by
        intro same
        rw [← same] at first
        exact rep.alone live old first
      -- otherwise the first and the last node get the target as their sentinel
      refine ⟨_, gpListReplace_eq oldNonnull nonnull seg.1.1 rfl (rep.nodeNonnull old _ first)
        (rep.nodeNonnull old _ last) different, rep.moved live apart nonnull alone ?_ ?_⟩
      · rw [seg.2.last]
        exact seg.rehead once (nodes ▸ alone old)
      · intro k notNew _ notHere
        exact Chains.rehead_of_ne (fun same => notHere (same ▸ first))
          (fun same => notHere (same ▸ last)) notNew

end Move

/-! ## Every operation -/

theorem Rep.node_eq (rep : Rep m s) (list item : Addr) : m.node list item = item + s.offset list := by
  rw [Memory.node, rep.offset]

theorem Rep.neighbour_nonnull (rep : Rep m s) (live : s.live list ≠ none) {p : Addr}
    (place : p = list ∨ p ∈ s.nodes list) : p ≠ null := by
  rcases place with same | mem
  · rw [same]
    exact rep.listNonnull list live
  · exact rep.nodeNonnull list p mem

theorem Insertable.ne_neighbour {item p : Addr} (new : Insertable s list item)
    (live : s.live list ≠ none) (place : p = list ∨ p ∈ s.nodes list) :
    item + s.offset list ≠ p := by
  apply GpList.ne_neighbour place
  · intro same
    exact live (same ▸ new.free.noList)
  · exact new.free.off list

/-- The pointers on both sides of a place on a list. -/
theorem Rep.around (rep : Rep m s) {xs ys : List Addr} {item : Addr}
    (live : s.live list = some (xs ++ item :: ys)) :
    m.links.prev (item + s.offset list) = s.before list xs ∧
      m.links.next (item + s.offset list) = s.behind list ys := by
  have seg := rep.seg list (by simp [live])
  rw [nodes_of_live live, List.map_append, List.map_cons, Chains.seg_append] at seg
  exact ⟨seg.1.last, seg.2.first⟩

theorem Rep.remove (rep : Rep m s) {xs ys : List Addr} {item : Addr}
    (live : s.live list = some (xs ++ item :: ys)) :
    ∃ m', m.takeOut (item + s.offset list) = some m' ∧ Rep m' (s.put list (xs ++ ys)) := by
  have alive : s.live list ≠ none := by simp [live]
  have onList : item + s.offset list ∈ s.nodes list := by
    rw [nodes_of_live live]
    exact List.mem_map_of_mem (List.mem_append_right _ List.mem_cons_self)
  have split : s.live list = some ((xs ++ [item]) ++ ys) := by simpa using live
  have before := (neighbours live).1
  have behind := (neighbours split).2
  obtain ⟨prev, next⟩ := rep.around live
  have apart : item + s.offset list ≠ s.before list xs := by
    intro same
    -- the node in front of it is another one of the list, or the sentinel
    rcases Chains.getLastD_mem (xs.map (· + s.offset list)) list with sentinel | mem
    · have sentinel : s.before list xs = list := sentinel
      rw [same, sentinel] at onList
      exact rep.alone live list onList
    · have once := rep.nodup list
      rw [nodes_of_live live, List.map_append, List.map_cons] at once
      refine (List.nodup_append.mp once).2.2 _ mem _ List.mem_cons_self same.symm
  refine ⟨_, takeOut_eq (rep.nodeNonnull list _ onList) prev next
    (rep.neighbour_nonnull alive before) (rep.neighbour_nonnull alive behind) apart,
    rep.takeOut live⟩

/-- **Each operation does its work.** From a memory that represents the lists, every call that
is allowed returns, and its memory represents the lists afterwards. -/
theorem Rep.step {op : ListOp} {s' : Lists} (rep : Rep m s) (step : ListStep s op s') :
    ∃ m', m.exec op = some m' ∧ Rep m' s' := by
  cases step with
  | @init list offset nonnull alone =>
      refine ⟨_, by simp [Memory.exec, Memory.gpListInitOffset, nonnull]; rfl, ?_⟩
      -- the memory of a live list may be initialised again, which gives its nodes up
      have notOn : ∀ other, list ∉ (s.drop list).nodes other := by
        intro other mem
        by_cases eq : other = list
        · rw [eq, nodes_drop] at mem
          cases mem
        · rw [nodes_drop_of_ne eq] at mem
          exact alone other mem
      apply (rep.drop list).make nonnull notOn
      · nofun
      · exact List.nodup_nil
      · nofun
      · show Function.update m.llOffset list offset = _
        rw [rep.offset]
        rfl
      · exact ⟨Function.update_self .., Function.update_self ..⟩
      · intro k ne _
        simp [ne]
      · intro k ne dead others _ fresh
        show Function.update m.links.next list list k = null
        rw [Function.update_of_ne ne]
        refine (rep.drop list).off k dead ?_ fresh
        intro other
        by_cases eq : other = list
        · rw [eq, nodes_drop]
          nofun
        · exact others other eq
  | @append list item xs live new =>
      have split : s.live list = some (xs ++ []) := by rwa [List.append_nil]
      have alive : s.live list ≠ none := by simp [live]
      have before := (neighbours split).1
      have seg := rep.seg list alive
      rw [nodes_of_live live] at seg
      refine ⟨_, gpListAppend_eq ?_ (rep.listNonnull list alive) seg.last
        (rep.neighbour_nonnull alive before) ?_, ?_⟩
      · rw [rep.node_eq]
        exact new.free.nonnull
      · rw [rep.node_eq]
        exact new.ne_neighbour alive (.inl rfl)
      · rw [rep.node_eq]
        exact rep.insert split new
  | @prepend list item xs live new =>
      have alive : s.live list ≠ none := by simp [live]
      have split : s.live list = some ([] ++ xs) := live
      have behind := (neighbours split).2
      have seg := rep.seg list alive
      rw [nodes_of_live live] at seg
      refine ⟨_, gpListPrepend_eq ?_ (rep.listNonnull list alive) seg.first
        (rep.neighbour_nonnull alive behind) ?_, ?_⟩
      · rw [rep.node_eq]
        exact new.free.nonnull
      · rw [rep.node_eq]
        exact new.ne_neighbour alive behind
      · rw [rep.node_eq]
        exact rep.insert split new
  | @insertBefore list item before xs ys live new =>
      have alive : s.live list ≠ none := by simp [live]
      obtain ⟨front, place⟩ := neighbours live
      refine ⟨_, gpListInsertBefore_eq ?_ ?_ ?_ (rep.neighbour_nonnull alive front) ?_, ?_⟩
      · rw [rep.node_eq]
        exact new.free.nonnull
      · rw [rep.node_eq]
        exact rep.neighbour_nonnull alive place
      · rw [rep.node_eq]
        exact (rep.around live).1
      · rw [rep.node_eq, rep.node_eq]
        exact new.ne_neighbour alive place
      · rw [rep.node_eq, rep.node_eq]
        exact rep.insert live new
  | @insertAfter list item after xs ys live new =>
      have alive : s.live list ≠ none := by simp [live]
      have split : s.live list = some ((xs ++ [after]) ++ ys) := by simpa using live
      obtain ⟨place, back⟩ := neighbours split
      have last : s.before list (xs ++ [after]) = after + s.offset list := by
        simp [Lists.before]
      rw [last] at place
      refine ⟨_, gpListInsertAfter_eq ?_ ?_ ?_ (rep.neighbour_nonnull alive back) ?_, ?_⟩
      · rw [rep.node_eq]
        exact new.free.nonnull
      · rw [rep.node_eq]
        exact rep.neighbour_nonnull alive place
      · rw [rep.node_eq]
        exact (rep.around live).2
      · rw [rep.node_eq]
        exact new.ne_neighbour alive back
      · have done := rep.insert split new
        rw [last, List.append_assoc] at done
        rw [rep.node_eq, rep.node_eq]
        exact done
  | @remove list item xs ys live =>
      obtain ⟨m', ran, kept⟩ := rep.remove live
      refine ⟨m', ?_, kept⟩
      show m.takeOut (m.node list item) = some m'
      rwa [rep.node_eq]
  | @nodeRemove list item xs ys live =>
      obtain ⟨m', ran, kept⟩ := rep.remove live
      refine ⟨m', ?_, kept⟩
      have alive : s.live list ≠ none := by simp [live]
      have split : s.live list = some ((xs ++ [item]) ++ ys) := by simpa using live
      have linked : m.links.next (item + s.offset list) ≠ null := by
        rw [(rep.around live).2]
        exact rep.neighbour_nonnull alive (neighbours split).2
      have nonnull : item + s.offset list ≠ null := by
        apply rep.nodeNonnull list
        rw [nodes_of_live live]
        exact List.mem_map_of_mem (List.mem_append_right _ List.mem_cons_self)
      show m.gpListNodeRemove _ = some m'
      simp [Memory.gpListNodeRemove, nonnull, linked, ran]
  | @nodeRemoveFree n free fresh =>
      refine ⟨m, ?_, rep⟩
      -- the guard of `gp_list_node_remove` sees the null pointer and returns
      have unlinked := rep.off n free.noList free.off fresh
      show m.gpListNodeRemove n = some m
      simp [Memory.gpListNodeRemove, free.nonnull, unlinked]
  | replace live apart nonnull alone => exact rep.replace live apart nonnull alone

end Keep

end GpBase.GpList

import GpBase.Lib.Outcome
import GpBase.Conf.Links
import GpBase.Conf.Values

/-!
# How deep a tree is

`Shallow h n`: no path leads more than `h` nodes down from `n`, and all nodes below
`n` have names. What the loader and `gp_conf_get_node_or_create` do to a node keeps
it shallow, where `h` leaves room for what they add.
-/

namespace GpBase.Conf

open GpBase.Lib GpConfNode

def Shallow : Nat → GpConfNode → Prop
  | 0, n => n.children = []
  | h + 1, n => ∀ c ∈ n.children, c.name ≠ none ∧ Shallow h c

section Changes

variable {h : Nat} {n c : GpConfNode} {key : CStr}

theorem Shallow.of_empty (empty : n.children = []) (h : Nat) : Shallow h n := by
  cases h with
  | zero => exact empty
  | succ h =>
      intro c mem
      rw [empty] at mem
      cases mem

theorem Shallow.mono {k : Nat} (shallow : Shallow h n) (le : h ≤ k) : Shallow k n := by
  induction h generalizing k n with
  | zero => exact .of_empty shallow k
  | succ h ih =>
      obtain ⟨k, rfl⟩ : ∃ j, k = j + 1 := ⟨k - 1, by omega⟩
      intro c mem
      obtain ⟨named, below⟩ := shallow c mem
      exact ⟨named, ih below (by omega)⟩

/-- Children are taken off the list. -/
theorem Shallow.of_subset {m : GpConfNode} (shallow : Shallow h n)
    (subset : ∀ c ∈ m.children, c ∈ n.children) : Shallow h m := by
  cases h with
  | zero =>
      refine List.eq_nil_iff_forall_not_mem.mpr ?_
      intro c mem
      have := subset c mem
      rw [show n.children = [] from shallow] at this
      cases this
  | succ h => exact fun c mem => shallow c (subset c mem)

/-- The fields of a node change, not its list. -/
theorem Shallow.of_children {m : GpConfNode} (shallow : Shallow h n)
    (same : m.children = n.children) : Shallow h m :=
  shallow.of_subset fun _ mem => same ▸ mem

theorem Shallow.lookup (shallow : Shallow (h + 1) n)
    (found : n.gpConfNodeLookupChild key = some c) : c.name ≠ none ∧ Shallow h c :=
  shallow c (List.mem_of_find?_eq_some found)

theorem Shallow.insertTail (shallow : Shallow (h + 1) n) (named : c.name ≠ none)
    (below : Shallow h c) : Shallow (h + 1) (n.insertTail c) := by
  intro d mem
  rcases List.mem_append.mp mem with old | new
  · exact shallow d old
  · rw [List.mem_singleton.mp new]
    exact ⟨named, below⟩

theorem Shallow.unlinkChild (shallow : Shallow h n) (key : CStr) :
    Shallow h (n.unlinkChild key) :=
  shallow.of_subset fun _ mem => List.mem_of_mem_eraseP mem

/-- A write through the pointer that a lookup gave. -/
theorem Shallow.modifyChild (shallow : Shallow (h + 1) n) {f : GpConfNode → GpConfNode}
    (change : ∀ c, n.gpConfNodeLookupChild key = some c → (f c).name ≠ none ∧ Shallow h (f c)) :
    Shallow (h + 1) (n.modifyChild key f) := by
  intro d mem
  rcases mem_modifyChild mem with old | ⟨c, found, rfl⟩
  · exact shallow d old
  · exact change c found

theorem mem_pruneChildren (items : List GpConfNode) :
    ∀ c ∈ pruneChildren items, c ∈ items ∨ ∃ item ∈ items, c = gpConfNodePrune item := by
  induction items with
  | nil =>
      intro c mem
      cases mem
  | cons item items ih =>
      intro c mem
      have later : c ∈ pruneChildren items →
          c ∈ item :: items ∨ ∃ i ∈ item :: items, c = gpConfNodePrune i := by
        intro mem
        rcases ih c mem with old | ⟨i, old, pruned⟩
        · exact .inl (List.mem_cons_of_mem _ old)
        · exact .inr ⟨i, List.mem_cons_of_mem _ old, pruned⟩
      rw [pruneChildren] at mem
      split at mem
      · rcases List.mem_cons.mp mem with rfl | mem
        · exact .inl List.mem_cons_self
        · exact later mem
      · split at mem
        · exact later mem
        · rcases List.mem_cons.mp mem with rfl | mem
          · exact .inr ⟨item, List.mem_cons_self, rfl⟩
          · exact later mem

theorem Shallow.prune (shallow : Shallow h n) : Shallow h (gpConfNodePrune n) := by
  induction h generalizing n with
  | zero =>
      obtain ⟨name, val, isSeq, final, hasParent, children⟩ := n
      obtain rfl : children = [] := shallow
      rfl
  | succ h ih =>
      cases n
      intro c mem
      rcases mem_pruneChildren _ c mem with old | ⟨item, old, rfl⟩
      · exact shallow c old
      · obtain ⟨named, below⟩ := shallow item old
        rw [gpConfNodePrune_name]
        exact ⟨named, ih below⟩

end Changes

/-! ## Frames -/

section Frames

variable {h : Nat} {f : Frame}

/-- `node` is as shallow as the call's parent, or more; it can be written. -/
theorem Shallow.deref (shallow : Shallow (h + 1) f.parent) {node : GpConfNode}
    (read : f.deref = .ok node) :
    ∃ k ≥ h, (f.node = none → k = h + 1) ∧ Shallow k node ∧
      ∀ node', node'.name = node.name → Shallow k node' →
        Shallow (h + 1) (f.assign node').parent := by
  rcases Frame.deref_ok read with ⟨points, rfl, write⟩ | ⟨key, points, found, write⟩
  · refine ⟨h + 1, Nat.le_succ h, fun _ => rfl, shallow, ?_⟩
    intro node' _ shallow'
    rw [write]
    exact shallow'
  · obtain ⟨named, below⟩ := shallow.lookup found
    refine ⟨h, le_refl h, fun start => by simp [points] at start, below, ?_⟩
    intro node' same shallow'
    rw [write]
    refine shallow.modifyChild ?_
    intro _ _
    exact ⟨same ▸ named, shallow'⟩

theorem Shallow.seqScalar (shallow : Shallow (h + 1) f.parent) (value : CStr) :
    Shallow (h + 1) (f.seqScalar value).parent := by
  unfold Frame.seqScalar
  cases found : f.parent.gpConfNodeLookupChild f.seqName with
  | none => exact shallow.insertTail (Option.some_ne_none _) (.of_empty rfl h)
  | some seqNode =>
      obtain ⟨named, below⟩ := shallow.lookup found
      exact (shallow.unlinkChild _).insertTail named below

theorem Shallow.keyScalar (shallow : Shallow (h + 1) f.parent) (value : CStr) :
    Shallow (h + 1) (f.keyScalar value).parent := by
  rw [Frame.keyScalar_eq, addKey_eq]
  cases found : f.parent.gpConfNodeLookupChild value with
  | none =>
      have marked := shallow.of_children (m := { f.parent with val := f.parent.valWith value }) rfl
      exact marked.insertTail (Option.some_ne_none _) (.of_empty rfl h)
  | some existing =>
      dsimp only
      split
      · exact shallow.of_children rfl
      · refine (shallow.of_children rfl).modifyChild ?_
        intro c lookedUp
        obtain ⟨named, below⟩ := shallow.lookup lookedUp
        rw [gpConfNodePrune_name]
        exact ⟨named, below.prune⟩

theorem Shallow.valScalar (shallow : Shallow (h + 1) f.parent) {value : CStr} {g : Frame}
    (done : f.valScalar value = .ok g) : Shallow (h + 1) g.parent := by
  obtain ⟨node, read, done⟩ := bind_eq_ok done
  obtain ⟨k, _, _, below, write⟩ := shallow.deref read
  cases done
  split
  · exact shallow
  · exact write _ rfl (below.of_children rfl)

/-- The node of a mapping in a sequence is one level further down. -/
theorem Shallow.seqMapping {node : GpConfNode} (shallow : Shallow (h + 1) node) :
    Shallow h (f.seqMapping node).2 ∧
      ∀ seqNode, seqNode.name = (f.seqMapping node).2.name → Shallow h seqNode →
        Shallow (h + 1) ((f.seqMapping node).1.modifyChild f.seqName fun _ => seqNode) := by
  have put : ∀ (m old : GpConfNode), Shallow (h + 1) m → old.name ≠ none → Shallow h old →
      ∀ seqNode, seqNode.name = old.name → Shallow h seqNode →
        Shallow (h + 1) ((m.insertTail old).modifyChild f.seqName fun _ => seqNode) := by
    intro m old shallow named below seqNode same shallow'
    refine (shallow.insertTail named below).modifyChild ?_
    intro _ _
    exact ⟨same ▸ named, shallow'⟩
  unfold Frame.seqMapping
  cases found : node.gpConfNodeLookupChild f.seqName with
  | none => exact ⟨.of_empty rfl h, put _ _ shallow (Option.some_ne_none _) (.of_empty rfl h)⟩
  | some old =>
      obtain ⟨named, below⟩ := shallow.lookup found
      have marked : Shallow h { old with isSeq := true } := below.of_children rfl
      exact ⟨marked, put _ _ (shallow.unlinkChild _) named marked⟩

end Frames

/-! ## Paths -/

section Paths

variable {h : Nat} {n m : GpConfNode}

/-- A fresh path ends at most as deep as it is long. -/
theorem Shallow.createPath (shallow : Shallow h n) (final : Bool) (path : List CStr)
    (short : path.length ≤ h) : Shallow h (n.createPath final path) := by
  induction path generalizing h n with
  | nil => exact shallow
  | cons key keys ih =>
      obtain ⟨h, rfl⟩ : ∃ j, h = j + 1 := ⟨h - 1, by simp at short; omega⟩
      have short' : keys.length ≤ h := Nat.le_of_succ_le_succ short
      rw [GpConfNode.createPath]
      cases found : n.gpConfNodeLookupChild key with
      | none =>
          refine shallow.insertTail ?_ (ih (.of_empty rfl h) short')
          rw [createPath_name]
          exact Option.some_ne_none key
      | some c =>
          refine shallow.modifyChild ?_
          intro c lookedUp
          obtain ⟨named, below⟩ := shallow.lookup lookedUp
          rw [createPath_name]
          exact ⟨named, ih below short'⟩

/-- A node at the end of a path has so much less below it. -/
theorem Shallow.nodeAt {path : List CStr} (shallow : Shallow h n)
    (found : n.nodeAt path = some m) : path.length ≤ h ∧ Shallow (h - path.length) m := by
  induction path generalizing h n with
  | nil =>
      cases found
      exact ⟨Nat.zero_le h, shallow⟩
  | cons key keys ih =>
      rw [GpConfNode.nodeAt] at found
      cases child : n.gpConfNodeLookupChild key with
      | none => simp [child] at found
      | some c =>
          rw [child] at found
          cases h with
          | zero =>
              have mem := List.mem_of_find?_eq_some child
              rw [show n.children = [] from shallow] at mem
              cases mem
          | succ h =>
              obtain ⟨short, below⟩ := ih (shallow.lookup child).2 found
              refine ⟨Nat.succ_le_succ short, ?_⟩
              rw [List.length_cons, Nat.add_sub_add_right]
              exact below

theorem Shallow.modifyAt {f : GpConfNode → GpConfNode} {path : List CStr} (shallow : Shallow h n)
    (found : n.nodeAt path = some m) (named : (f m).name = m.name)
    (below : Shallow (h - path.length) (f m)) : Shallow h (n.modifyAt f path) := by
  induction path generalizing h n with
  | nil =>
      cases found
      exact below
  | cons key keys ih =>
      have short := (shallow.nodeAt found).1
      obtain ⟨h, rfl⟩ : ∃ j, h = j + 1 := ⟨h - 1, by rw [List.length_cons] at short; omega⟩
      rw [List.length_cons, Nat.add_sub_add_right] at below
      rw [GpConfNode.nodeAt] at found
      refine shallow.modifyChild ?_
      intro c child
      obtain ⟨here, shallow'⟩ := shallow.lookup child
      rw [child] at found
      refine ⟨?_, ih shallow' found below⟩
      -- the node keeps its name, whether it is the last of the path or not
      cases keys with
      | nil =>
          cases found
          exact named ▸ here
      | cons key' keys' => exact here

end Paths

end GpBase.Conf

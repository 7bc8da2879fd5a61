import GpBase.Conf.Keep

/-!
# Parent links

`Every own node`: each node below `node` has the property `own`; moving, changing or
dropping a node leaves the others as they are. `Linked node`: each node below has its
`parent` set to the node whose list holds it. `gp_conf_get_node_or_create` sets the
link of what it adds.
-/

namespace GpBase.Conf

open GpBase.Lib GpConfNode

/-- A property of all nodes below a node. -/
inductive Every (own : GpConfNode → Bool) : GpConfNode → Prop
  | intro {node : GpConfNode} : (∀ c ∈ node.children, own c = true) →
      (∀ c ∈ node.children, Every own c) → Every own node

/-- All links below a node are set. -/
abbrev Linked : GpConfNode → Prop := Every (·.hasParent)

theorem createPath_name (final : Bool) (path : List CStr) (n : GpConfNode) :
    (n.createPath final path).name = n.name := by
  cases path with
  | nil => rfl
  | cons key keys =>
      rw [createPath]
      cases n.gpConfNodeLookupChild key <;> rfl

@[simp] theorem createPath_hasParent (final : Bool) (path : List CStr) (n : GpConfNode) :
    (n.createPath final path).hasParent = n.hasParent := by
  cases path with
  | nil => rfl
  | cons key keys =>
      rw [createPath]
      cases n.gpConfNodeLookupChild key <;> rfl

theorem removeAt_name (path : List CStr) (n : GpConfNode) :
    (n.removeAt path).name = n.name := by
  match path with
  | [] => rfl
  | [_] => rfl
  | _ :: _ :: _ => rfl

@[simp] theorem removeAt_hasParent (path : List CStr) (n : GpConfNode) :
    (n.removeAt path).hasParent = n.hasParent := by
  match path with
  | [] => rfl
  | [_] => rfl
  | _ :: _ :: _ => rfl

theorem modifyAt_hasParent {f : GpConfNode → GpConfNode}
    (own : ∀ m, (f m).hasParent = m.hasParent) (path : List CStr) (n : GpConfNode) :
    (n.modifyAt f path).hasParent = n.hasParent := by
  cases path with
  | nil => exact own n
  | cons key keys => rfl

@[simp] theorem gpConfNodePrune_hasParent (n : GpConfNode) :
    (gpConfNodePrune n).hasParent = n.hasParent := by
  cases n
  rfl

/-- A child after a write is an old one, or what has been written. -/
theorem mem_modifyChild {f : GpConfNode → GpConfNode} {n d : GpConfNode} {key : CStr}
    (mem : d ∈ (n.modifyChild key f).children) :
    d ∈ n.children ∨ ∃ c, n.gpConfNodeLookupChild key = some c ∧ d = f c := by
  obtain ⟨i, inList⟩ := List.getElem?_of_mem mem
  rw [GpConfNode.modifyChild, List.getElem?_modify] at inList
  cases old : n.children[i]? with
  | none => simp [old] at inList
  | some c =>
      rw [old, Option.map_eq_map, Option.map_some, Option.some.injEq] at inList
      split at inList
      · rename_i here
        refine .inr ⟨c, ?_, inList.symm⟩
        rw [gpConfNodeLookupChild, List.find?_eq_getElem?_findIdx, here, old]
      · rw [← inList]
        exact .inl (List.mem_of_getElem? old)

/-- Where the pointer `node` of a call leads, and what a write through it changes. -/
theorem Frame.deref_ok {f : Frame} {node : GpConfNode} (read : f.deref = .ok node) :
    (f.node = none ∧ node = f.parent ∧ ∀ m, (f.assign m).parent = m) ∨
      ∃ key, f.node = some key ∧ f.parent.gpConfNodeLookupChild key = some node ∧
        ∀ m, (f.assign m).parent = f.parent.modifyChild key fun _ => m := by
  unfold Frame.deref at read
  cases points : f.node with
  | none =>
      simp only [points, Except.ok.injEq] at read
      exact .inl ⟨rfl, read.symm, fun m => by simp only [Frame.assign, points]⟩
  | some key =>
      simp only [points] at read
      cases found : f.parent.gpConfNodeLookupChild key with
      | none => simp [found] at read
      | some c =>
          simp only [found, Except.ok.injEq] at read
          subst read
          exact .inr ⟨key, rfl, found, fun m => by simp only [Frame.assign, points]⟩

section Every

variable {own : GpConfNode → Bool} {n c : GpConfNode} {key : CStr}

theorem Every.child (every : Every own n) (mem : c ∈ n.children) : own c = true ∧ Every own c := by
  cases every with
  | intro own below => exact ⟨own c mem, below c mem⟩

theorem Every.of_child (each : ∀ c ∈ n.children, own c = true ∧ Every own c) : Every own n :=
  .intro (fun c mem => (each c mem).1) fun c mem => (each c mem).2

theorem Every.of_empty (empty : n.children = []) : Every own n := by
  refine .of_child ?_
  simp [empty]

/-- The fields of a node change, not its list. -/
theorem Every.of_children {m : GpConfNode} (every : Every own n)
    (same : m.children = n.children) : Every own m :=
  .of_child fun _ mem => every.child (same ▸ mem)

theorem Every.lookup (every : Every own n) (found : n.gpConfNodeLookupChild key = some c) :
    own c = true ∧ Every own c :=
  every.child (List.mem_of_find?_eq_some found)

theorem Every.insertTail (every : Every own n) (here : own c = true) (below : Every own c) :
    Every own (n.insertTail c) := by
  refine .of_child ?_
  intro d mem
  rcases List.mem_append.mp mem with old | new
  · exact every.child old
  · rw [List.mem_singleton.mp new]
    exact ⟨here, below⟩

theorem Every.unlinkChild (every : Every own n) (key : CStr) : Every own (n.unlinkChild key) :=
  .of_child fun _ mem => every.child (List.mem_of_mem_eraseP mem)

/-- A write through the pointer that a lookup gave. -/
theorem Every.modifyChild (every : Every own n) {f : GpConfNode → GpConfNode}
    (change : ∀ c, n.gpConfNodeLookupChild key = some c → own (f c) = true ∧ Every own (f c)) :
    Every own (n.modifyChild key f) := by
  refine .of_child ?_
  intro d mem
  rcases mem_modifyChild mem with old | ⟨c, found, rfl⟩
  · exact every.child old
  · exact change c found

theorem Every.nodeAt {path : List CStr} (every : Every own n) (found : n.nodeAt path = some c) :
    Every own c ∧ (path ≠ [] → own c = true) := by
  induction path generalizing n with
  | nil =>
      cases found
      exact ⟨every, fun h => absurd rfl h⟩
  | cons key keys ih =>
      rw [GpConfNode.nodeAt] at found
      cases child : n.gpConfNodeLookupChild key with
      | none => simp [child] at found
      | some d =>
          rw [child] at found
          obtain ⟨here, below⟩ := every.lookup child
          refine ⟨(ih below found).1, ?_⟩
          intro _
          cases keys with
          | nil =>
              cases found
              exact here
          | cons key' keys' => exact (ih below found).2 (List.cons_ne_nil _ _)

end Every

section Links

variable {n : GpConfNode}

/-! ## Paths -/

theorem Linked.createPath (linked : Linked n) (final : Bool) (path : List CStr) :
    Linked (n.createPath final path) := by
  induction path generalizing n with
  | nil => exact linked
  | cons key keys ih =>
      rw [GpConfNode.createPath]
      cases child : n.gpConfNodeLookupChild key with
      | none => exact linked.insertTail (createPath_hasParent _ _ _) (ih (.of_empty rfl))
      | some c =>
          refine linked.modifyChild ?_
          intro d found
          obtain ⟨own, below⟩ := linked.lookup found
          exact ⟨(createPath_hasParent _ _ _).trans own, ih below⟩

theorem Linked.modifyAt (linked : Linked n) {f : GpConfNode → GpConfNode} (path : List CStr)
    (own : ∀ m, (f m).hasParent = m.hasParent) (below : ∀ m, (f m).children = m.children) :
    Linked (n.modifyAt f path) := by
  induction path generalizing n with
  | nil => exact linked.of_children (below n)
  | cons key keys ih =>
      refine linked.modifyChild ?_
      intro d found
      obtain ⟨linkedTo, linkedBelow⟩ := linked.lookup found
      exact ⟨(modifyAt_hasParent own keys d).trans linkedTo, ih linkedBelow⟩

theorem Linked.removeAt (linked : Linked n) (path : List CStr) : Linked (n.removeAt path) := by
  induction path generalizing n with
  | nil => exact linked
  | cons key keys ih =>
      cases keys with
      | nil => exact linked.unlinkChild key
      | cons key' keys =>
          refine linked.modifyChild ?_
          intro d found
          obtain ⟨own, below⟩ := linked.lookup found
          exact ⟨(removeAt_hasParent _ d).trans own, ih below⟩

/-! ## Pruning -/

mutual

theorem Linked.prune : ∀ {n : GpConfNode}, Linked n → Linked (gpConfNodePrune n)
  | ⟨_, _, _, _, _, children⟩, linked => by
    rw [gpConfNodePrune]
    exact .of_child (pruneChildren_linked children fun c mem => linked.child mem)

/-- The nodes that are left keep their links. -/
theorem pruneChildren_linked : ∀ (items : List GpConfNode),
    (∀ c ∈ items, c.hasParent = true ∧ Linked c) →
      ∀ c ∈ pruneChildren items, c.hasParent = true ∧ Linked c
  | [], _ => by simp [pruneChildren]
  | item :: items, linked => by
    have here := linked item List.mem_cons_self
    have rest := pruneChildren_linked items fun c mem => linked c (List.mem_cons_of_mem _ mem)
    have pruned : (gpConfNodePrune item).hasParent = true ∧ Linked (gpConfNodePrune item) := by
      exact ⟨(gpConfNodePrune_hasParent item).trans here.1, Linked.prune here.2⟩
    rw [pruneChildren]
    split
    · exact List.forall_mem_cons.mpr ⟨here, rest⟩
    · split
      · exact rest
      · exact List.forall_mem_cons.mpr ⟨pruned, rest⟩

end

/-! ## Calls -/

theorem Linked.gpConfSet (linked : Linked n) (name val : CStr) :
    Linked (gpConfSet n name val).1 := by
  unfold Conf.gpConfSet gpConfGetNodeOrCreate
  by_cases long : nodeNameMax ≤ name.length
  · simpa [long] using linked
  · have created := linked.createPath false (components name)
    simp only [if_neg long]
    split
    · exact created
    · exact created.modifyAt _ (fun _ => rfl) fun _ => rfl

theorem Linked.gpConfSetFinal (linked : Linked n) (name val : CStr) :
    Linked (gpConfSetFinal n name val).1 := by
  unfold Conf.gpConfSetFinal gpConfGetNodeOrCreate
  by_cases long : nodeNameMax ≤ name.length
  · simpa [long] using linked
  · simp only [if_neg long]
    exact (linked.createPath true _).modifyAt _ (fun _ => rfl) fun _ => rfl

theorem Linked.gpConfSetFromString (linked : Linked n) (input : CStr) (final : Bool) :
    Linked (gpConfSetFromString n input final).1 := by
  unfold Conf.gpConfSetFromString
  split
  · exact linked
  · dsimp only
    split
    · exact linked.gpConfSetFinal _ _
    · exact linked.gpConfSet _ _

theorem Linked.gpConfRemove (linked : Linked n) {name : CStr} {r : GpConfNode × Int}
    (removed : gpConfRemove n name = .ok r) : Linked r.1 := by
  unfold Conf.gpConfRemove at removed
  split at removed
  · cases removed
    exact linked
  · split at removed
    · cases removed
      exact linked.removeAt _
    · cases removed

end Links

end GpBase.Conf

import GpBase.Conf.Yaml
import GpBase.Lib.Assoc

/-!
# What a configuration tree keeps

`Held node path v`: the node at `path` is final and has the value `v`. A change of a
subtree that `Keeps` it leaves every held value where it is found, and the names of
siblings distinct; changes that keep subtrees compose, and lift to the parent.
-/

namespace GpBase.Conf

open GpBase.Lib GpConfNode

/-! ## Held values and distinct names -/

/-- The node at `path` is final, with the value `v`. -/
def Held (node : GpConfNode) (path : List CStr) (v : CStr) : Prop :=
  ∃ m, node.nodeAt path = some m ∧ m.final = true ∧ m.val = some v

/-- No node has two children of one name. -/
inductive Distinct : GpConfNode → Prop
  | intro {node : GpConfNode} : (node.children.map (·.name)).Nodup →
      (∀ c ∈ node.children, Distinct c) → Distinct node

section Lookup

variable {node c : GpConfNode} {key : CStr} {keys : List CStr} {v : CStr}

theorem Distinct.names (distinct : Distinct node) : (node.children.map (·.name)).Nodup := by
  cases distinct
  assumption

theorem Distinct.child (distinct : Distinct node) (mem : c ∈ node.children) : Distinct c := by
  cases distinct with
  | intro _ below => exact below c mem

theorem unique_of_nodup {children : List GpConfNode} (nodup : (children.map (·.name)).Nodup)
    (key : CStr) : Unique (hasName · key) children := by
  rw [List.Nodup, List.pairwise_map] at nodup
  refine nodup.imp ?_
  intro a b apart ha hb
  apply apart
  rw [of_decide_eq_true ha, of_decide_eq_true hb]

/-- A lookup finds the only child of that name. -/
theorem lookup_iff (nodup : (node.children.map (·.name)).Nodup) :
    node.gpConfNodeLookupChild key = some c ↔ c ∈ node.children ∧ c.name = some key := by
  rw [gpConfNodeLookupChild, (unique_of_nodup nodup key).find?_eq_some_iff]
  simp only [hasName, decide_eq_true_eq]

theorem eq_of_found {d : GpConfNode} (distinct : Distinct node)
    (found : node.gpConfNodeLookupChild key = some c) (mem : d ∈ node.children)
    (named : d.name = some key) : d = c := by
  have : node.gpConfNodeLookupChild key = some d := (lookup_iff distinct.names).mpr ⟨mem, named⟩
  rw [found] at this
  exact (Option.some.inj this).symm

theorem lookup_none_iff :
    node.gpConfNodeLookupChild key = none ↔ ∀ c ∈ node.children, c.name ≠ some key := by
  simp [gpConfNodeLookupChild, hasName]

theorem lookup_name (found : node.gpConfNodeLookupChild key = some c) : c.name = some key := by
  have named := List.find?_some (p := (hasName · key)) found
  simpa [hasName] using named

/-- What a lookup finds after a write through the pointer it gave. -/
theorem lookup_modifyChild {f : GpConfNode → GpConfNode}
    (found : node.gpConfNodeLookupChild key = some c) (named : (f c).name = c.name) :
    (node.modifyChild key f).gpConfNodeLookupChild key = some (f c) := by
  refine find?_modify_findIdx found ?_
  simp [hasName, named, lookup_name found]

theorem lookup_modifyChild_other {f : GpConfNode → GpConfNode} {other : CStr}
    (apart : other ≠ key)
    (named : ∀ c, node.gpConfNodeLookupChild key = some c → (f c).name = c.name) :
    (node.modifyChild key f).gpConfNodeLookupChild other = node.gpConfNodeLookupChild other := by
  refine find?_modify_of_disjoint ?_ ?_
  · intro c name
    simp only [hasName, decide_eq_true_eq] at name
    simp [hasName, name, apart.symm]
  · intro c found
    simp [hasName, named c found, lookup_name found]

theorem lookup_insertTail {child : GpConfNode} {other : CStr} (named : child.name = some key) :
    (node.insertTail child).gpConfNodeLookupChild other =
      (node.gpConfNodeLookupChild other).or (if other = key then some child else none) := by
  simp only [gpConfNodeLookupChild, GpConfNode.insertTail, List.find?_append]
  congr 1
  simp [hasName, named, List.find?_singleton, eq_comm]

theorem modifyChild_self {f : GpConfNode → GpConfNode}
    (found : node.gpConfNodeLookupChild key = some c) (same : f c = c) :
    node.modifyChild key f = node := by
  have children := modify_findIdx_self (p := (hasName · key)) found same
  cases node
  simp only [GpConfNode.modifyChild] at children ⊢
  rw [children]

theorem modifyChild_insertTail {f : GpConfNode → GpConfNode} {child : GpConfNode}
    (missing : node.gpConfNodeLookupChild key = none) (named : child.name = some key) :
    (node.insertTail child).modifyChild key f = node.insertTail (f child) := by
  simp only [GpConfNode.modifyChild, GpConfNode.insertTail]
  rw [modify_findIdx_append missing (by simp [hasName, named])]

@[simp] theorem gpConfNodePrune_name (n : GpConfNode) : (gpConfNodePrune n).name = n.name := by
  cases n
  rfl

theorem held_nil : Held node [] v ↔ node.final = true ∧ node.val = some v := by
  simp [Held, nodeAt]

theorem held_cons : Held node (key :: keys) v ↔
    ∃ c, node.gpConfNodeLookupChild key = some c ∧ Held c keys v := by
  unfold Held
  rw [nodeAt]
  cases node.gpConfNodeLookupChild key with
  | none => simp
  | some c => simp

end Lookup

/-! ## Keeping -/

/-- `n'` is a later state of the subtree `n`. -/
structure Keeps (n n' : GpConfNode) : Prop where
  name : n'.name = n.name
  distinct : Distinct n'
  held : ∀ path v, Held n path v → Held n' path v

/-- Moreover no child has gone. -/
structure Loaded (n n' : GpConfNode) : Prop extends Keeps n n' where
  names : ∀ c ∈ n.children, ∃ c' ∈ n'.children, c'.name = c.name

theorem Keeps.refl {n : GpConfNode} (distinct : Distinct n) : Keeps n n :=
  ⟨rfl, distinct, fun _ _ held => held⟩

theorem Keeps.trans {n m k : GpConfNode} (first : Keeps n m) (second : Keeps m k) : Keeps n k :=
  ⟨second.name.trans first.name, second.distinct,
    fun path v held => second.held path v (first.held path v held)⟩

theorem Loaded.refl {n : GpConfNode} (distinct : Distinct n) : Loaded n n :=
  { Keeps.refl distinct with names := fun c mem => ⟨c, mem, rfl⟩ }

theorem Loaded.trans {n m k : GpConfNode} (first : Loaded n m) (second : Loaded m k) :
    Loaded n k := by
  refine { first.toKeeps.trans second.toKeeps with names := ?_ }
  intro c mem
  obtain ⟨c', mem', same⟩ := first.names c mem
  obtain ⟨c'', mem'', same'⟩ := second.names c' mem'
  exact ⟨c'', mem'', same'.trans same⟩

section Changes

variable {n n' : GpConfNode} {key : CStr}

/-- What has to be shown of the node itself and of its children. -/
theorem Keeps.of_children (distinct : Distinct n) (name : n'.name = n.name)
    (own : n.final = true → ∀ v, n.val = some v → n'.final = true ∧ n'.val = some v)
    (distinct' : Distinct n')
    (kept : ∀ c ∈ n.children,
      (∃ c' ∈ n'.children, c'.name = c.name ∧ ∀ path v, Held c path v → Held c' path v) ∨
        ∀ path v, ¬ Held c path v) : Keeps n n' := by
  refine ⟨name, distinct', ?_⟩
  intro path v held
  cases path with
  | nil =>
      obtain ⟨final, val⟩ := held_nil.mp held
      exact held_nil.mpr (own final v val)
  | cons key keys =>
      obtain ⟨c, found, heldBelow⟩ := held_cons.mp held
      obtain ⟨mem, named⟩ := (lookup_iff distinct.names).mp found
      rcases kept c mem with ⟨c', mem', same, still⟩ | nothing
      · exact held_cons.mpr
          ⟨c', (lookup_iff distinct'.names).mpr ⟨mem', same.trans named⟩, still keys v heldBelow⟩
      · exact absurd heldBelow (nothing keys v)

/-- The fields of a node change, not its list. -/
theorem Loaded.of_fields (distinct : Distinct n) (name : n'.name = n.name)
    (children : n'.children = n.children)
    (own : n.final = true → ∀ v, n.val = some v → n'.final = true ∧ n'.val = some v) :
    Loaded n n' := by
  have keeps : Keeps n n' := by
    refine .of_children distinct name own (.intro ?_ ?_) ?_
    · rw [children]
      exact distinct.names
    · rw [children]
      exact fun c mem => distinct.child mem
    · intro c mem
      exact .inl ⟨c, children ▸ mem, rfl, fun _ _ held => held⟩
  exact { keeps with names := fun c mem => ⟨c, children ▸ mem, rfl⟩ }

theorem modifyChild_children (distinct : Distinct n) (f : GpConfNode → GpConfNode) :
    (n.modifyChild key f).children =
      n.children.map fun c => if hasName c key then f c else c :=
  (unique_of_nodup distinct.names key).modify_findIdx f

/-- A child changes, but not its name. -/
theorem Distinct.modifyChild (distinct : Distinct n) {f : GpConfNode → GpConfNode}
    (change : ∀ c ∈ n.children, c.name = some key → (f c).name = c.name ∧ Distinct (f c)) :
    Distinct (n.modifyChild key f) := by
  have each : ∀ c ∈ n.children, (if hasName c key then f c else c).name = c.name ∧
      Distinct (if hasName c key then f c else c) := by
    intro c mem
    split
    · rename_i named
      exact change c mem (of_decide_eq_true named)
    · exact ⟨rfl, distinct.child mem⟩
  refine .intro ?_ ?_
  · rw [modifyChild_children distinct, List.map_map]
    have : n.children.map (·.name) = n.children.map _ :=
      List.map_congr_left fun c mem => (each c mem).1.symm
    exact this ▸ distinct.names
  · rw [modifyChild_children distinct]
    intro c' mem'
    obtain ⟨c, mem, rfl⟩ := List.mem_map.mp mem'
    exact (each c mem).2

theorem Distinct.modifyFound (distinct : Distinct n) {c : GpConfNode}
    {f : GpConfNode → GpConfNode} (found : n.gpConfNodeLookupChild key = some c)
    (named : (f c).name = c.name) (below : Distinct (f c)) : Distinct (n.modifyChild key f) := by
  refine distinct.modifyChild ?_
  intro d mem name
  rw [eq_of_found distinct found mem name]
  exact ⟨named, below⟩

/-- A change that keeps a child keeps its parent. -/
theorem Loaded.modifyChild (distinct : Distinct n) {f : GpConfNode → GpConfNode}
    (keeps : ∀ c ∈ n.children, c.name = some key → Keeps c (f c)) :
    Loaded n (n.modifyChild key f) := by
  have kept : ∀ c ∈ n.children, ∃ c' ∈ (n.modifyChild key f).children, Keeps c c' := by
    intro c mem
    rw [modifyChild_children distinct]
    refine ⟨_, List.mem_map_of_mem mem, ?_⟩
    split
    · rename_i named
      exact keeps c mem (of_decide_eq_true named)
    · exact .refl (distinct.child mem)
  have keepsAll : Keeps n (n.modifyChild key f) := by
    refine .of_children distinct rfl (fun final v val => ⟨final, val⟩) ?_ ?_
    · exact distinct.modifyChild fun c mem named =>
        ⟨(keeps c mem named).name, (keeps c mem named).distinct⟩
    · intro c mem
      obtain ⟨c', mem', still⟩ := kept c mem
      exact .inl ⟨c', mem', still.name, still.held⟩
  refine { keepsAll with names := ?_ }
  intro c mem
  obtain ⟨c', mem', still⟩ := kept c mem
  exact ⟨c', mem', still.name⟩

/-- A write through the pointer that a lookup gave. -/
theorem Loaded.modifyFound (distinct : Distinct n) {c : GpConfNode} {f : GpConfNode → GpConfNode}
    (found : n.gpConfNodeLookupChild key = some c) (keeps : Keeps c (f c)) :
    Loaded n (n.modifyChild key f) := by
  refine .modifyChild distinct ?_
  intro d mem named
  rw [eq_of_found distinct found mem named]
  exact keeps

/-- A child of a new name is appended. -/
theorem Loaded.insertTail (distinct : Distinct n) {child : GpConfNode}
    (absent : n.gpConfNodeLookupChild key = none) (named : child.name = some key)
    (below : Distinct child) : Loaded n (n.insertTail child) := by
  have keeps : Keeps n (n.insertTail child) := by
    refine .of_children distinct rfl (fun final v val => ⟨final, val⟩) (.intro ?_ ?_) ?_
    · show ((n.children ++ [child]).map (·.name)).Nodup
      rw [List.map_append, List.nodup_append]
      refine ⟨distinct.names, List.nodup_singleton _, ?_⟩
      intro a mem b mem'
      obtain ⟨c, inList, rfl⟩ := List.mem_map.mp mem
      rw [List.map_singleton, List.mem_singleton] at mem'
      rw [mem', named]
      exact lookup_none_iff.mp absent c inList
    · intro c mem
      rcases List.mem_append.mp mem with old | new
      · exact distinct.child old
      · rw [List.mem_singleton.mp new]
        exact below
    · intro c mem
      exact .inl ⟨c, List.mem_append_left _ mem, rfl, fun _ _ held => held⟩
  exact { keeps with names := fun c mem => ⟨c, List.mem_append_left _ mem, rfl⟩ }

/-- A child moves to the tail, changed in a way that keeps it. -/
theorem Loaded.relink (distinct : Distinct n) {child child' : GpConfNode}
    (found : n.gpConfNodeLookupChild key = some child) (keeps : Keeps child child') :
    Loaded n ((n.unlinkChild key).insertTail child') := by
  obtain ⟨mem, named⟩ := (lookup_iff distinct.names).mp found
  obtain ⟨c, before, behind, _, hasKey, list, erased⟩ :=
    List.exists_of_eraseP (p := (hasName · key)) mem (decide_eq_true named)
  obtain rfl : c = child :=
    eq_of_found distinct found (by rw [list]; simp) (of_decide_eq_true hasKey)
  have children : ((n.unlinkChild key).insertTail child').children =
      before ++ behind ++ [child'] := by
    show n.children.eraseP (hasName · key) ++ [child'] = _
    rw [erased]
  have kept : ∀ d ∈ n.children, ∃ d' ∈ before ++ behind ++ [child'],
      d'.name = d.name ∧ ∀ path v, Held d path v → Held d' path v := by
    intro d inList
    rw [list, List.mem_append, List.mem_cons] at inList
    rcases inList with old | rfl | old
    · exact ⟨d, by simp [old], rfl, fun _ _ held => held⟩
    · exact ⟨child', by simp, keeps.name, keeps.held⟩
    · exact ⟨d, by simp [old], rfl, fun _ _ held => held⟩
  have keepsAll : Keeps n ((n.unlinkChild key).insertTail child') := by
    refine .of_children distinct rfl (fun final v val => ⟨final, val⟩) (.intro ?_ ?_) ?_
    · have nodup := distinct.names
      rw [list] at nodup
      rw [children]
      refine (List.Perm.nodup_iff ?_).mp nodup
      simp only [List.map_append, List.map_cons, List.map_nil, keeps.name, List.append_assoc]
      exact List.Perm.append_left _ (List.perm_append_singleton _ _).symm
    · rw [children]
      intro d inList
      rcases List.mem_append.mp inList with old | new
      · apply distinct.child
        rw [list]
        rcases List.mem_append.mp old with h | h <;> simp [h]
      · rw [List.mem_singleton.mp new]
        exact keeps.distinct
    · intro d inList
      rw [children]
      exact .inl (kept d inList)
  refine { keepsAll with names := ?_ }
  intro d inList
  rw [children]
  obtain ⟨d', mem', same, _⟩ := kept d inList
  exact ⟨d', mem', same⟩

end Changes

/-! ## Pruning -/

/-- Nothing is held in a node that is not final and has no children. -/
theorem not_held_of_empty {n : GpConfNode} (open_ : n.final = false) (empty : n.children = [])
    (path : List CStr) (v : CStr) : ¬ Held n path v := by
  intro held
  cases path with
  | nil =>
      obtain ⟨final, _⟩ := held_nil.mp held
      rw [open_] at final
      cases final
  | cons key keys =>
      obtain ⟨c, found, _⟩ := held_cons.mp held
      rw [gpConfNodeLookupChild, empty] at found
      cases found

mutual

/-- `gp_conf_node_prune` of a node that is not final. -/
theorem Keeps.prune : ∀ {n : GpConfNode}, Distinct n → n.final = false →
    Keeps n (gpConfNodePrune n)
  | ⟨name, val, isSeq, final, hasParent, children⟩, distinct, open_ => by
    obtain ⟨names, below, kept⟩ := pruneChildren_keeps children fun c mem =>
      distinct.child mem
    rw [gpConfNodePrune]
    refine .of_children distinct rfl ?_ (.intro ?_ below) kept
    · intro isFinal
      rw [open_] at isFinal
      cases isFinal
    · exact distinct.names.sublist names

/-- The loop: what is left, and what is kept of each child. -/
theorem pruneChildren_keeps : ∀ (items : List GpConfNode), (∀ c ∈ items, Distinct c) →
    ((pruneChildren items).map (·.name)).Sublist (items.map (·.name)) ∧
      (∀ c ∈ pruneChildren items, Distinct c) ∧
      ∀ c ∈ items, (∃ c' ∈ pruneChildren items, c'.name = c.name ∧
          ∀ path v, Held c path v → Held c' path v) ∨ ∀ path v, ¬ Held c path v
  | [], _ => by simp [pruneChildren]
  | item :: items, distinct => by
    have here : Distinct item := distinct item List.mem_cons_self
    obtain ⟨names, below, kept⟩ := pruneChildren_keeps items fun c mem =>
      distinct c (List.mem_cons_of_mem item mem)
    -- what is kept of the others stays kept behind another child
    have keptTail : ∀ (d : GpConfNode), ∀ c ∈ items,
        (∃ c' ∈ d :: pruneChildren items, c'.name = c.name ∧
          ∀ path v, Held c path v → Held c' path v) ∨ ∀ path v, ¬ Held c path v := by
      intro d c mem
      rcases kept c mem with ⟨c', mem', same⟩ | nothing
      · exact .inl ⟨c', List.mem_cons_of_mem d mem', same⟩
      · exact .inr nothing
    -- `d` takes the place of `item`
    have replace : ∀ d : GpConfNode, Keeps item d →
        ((d :: pruneChildren items).map (·.name)).Sublist ((item :: items).map (·.name)) ∧
          (∀ c ∈ d :: pruneChildren items, Distinct c) ∧
          ∀ c ∈ item :: items, (∃ c' ∈ d :: pruneChildren items, c'.name = c.name ∧
            ∀ path v, Held c path v → Held c' path v) ∨ ∀ path v, ¬ Held c path v := by
      intro d keeps
      refine ⟨?_, ?_, ?_⟩
      · rw [List.map_cons, List.map_cons, keeps.name]
        exact names.cons_cons _
      · intro c mem
        rcases List.mem_cons.mp mem with rfl | later
        · exact keeps.distinct
        · exact below c later
      · intro c mem
        rcases List.mem_cons.mp mem with rfl | later
        · exact .inl ⟨d, List.mem_cons_self, keeps.name, keeps.held⟩
        · exact keptTail d c later
    rw [pruneChildren]
    cases fixed : item.final with
    | true =>
        rw [if_pos rfl]
        exact replace item (.refl here)
    | false =>
        have keeps := Keeps.prune here fixed
        rw [if_neg Bool.false_ne_true]
        split
        · rename_i empty
          refine ⟨names.trans (List.sublist_cons_self ..), below, ?_⟩
          intro c mem
          rcases List.mem_cons.mp mem with rfl | later
          · refine .inr fun path v held => ?_
            refine not_held_of_empty ?_ (List.isEmpty_iff.mp empty) path v (keeps.held path v held)
            rw [← fixed]
            cases c
            rfl
          · exact kept c later
        · exact replace _ keeps

end

end GpBase.Conf

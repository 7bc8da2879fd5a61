import GpBase.Conf.Final
import GpBase.Conf.Links

/-!
# The tree as a map

What `gp_conf_get` finds is a map from the dot-separated components of a name. The
effect of `gp_conf_set`, `gp_conf_set_final` and `gp_conf_remove` on that map is
computed path by path, and every sequence of these calls runs in step with the same
sequence on the map.
-/

namespace GpBase.Conf

open GpBase.Lib GpConfNode

/-! ## The map -/

/-- What the map holds of a node. -/
structure Entry where
  val : Option CStr
  final : Bool
  deriving DecidableEq

/-- Keyed by the components of a name; the empty path is the root. -/
abbrev ConfMap := List CStr → Option Entry

/-- `tree.view path`: the entry that a tree has at a path. -/
def GpConfNode.view (node : GpConfNode) : ConfMap := fun path =>
  (node.nodeAt path).map fun m => ⟨m.val, m.final⟩

namespace ConfMap

/-- Only the root. -/
def start : ConfMap := fun path => if path = [] then some ⟨none, false⟩ else none

/-- Missing nodes on the way to `path`, and at its end, are added without a value. -/
def create (final : Bool) (path : List CStr) (m : ConfMap) : ConfMap := fun p =>
  if p <+: path ∧ m p = none then some ⟨none, final⟩ else m p

/-- The entry at `path` changes. -/
def assign (f : Entry → Entry) (path : List CStr) (m : ConfMap) : ConfMap := fun p =>
  if p = path then (m p).map f else m p

/-- `path` and everything below it goes. -/
def erase (path : List CStr) (m : ConfMap) : ConfMap := fun p =>
  if path <+: p then none else m p

end ConfMap

section View

variable {n : GpConfNode} {key : CStr} {keys : List CStr}

theorem view_nil : n.view [] = some ⟨n.val, n.final⟩ := rfl

theorem view_cons_none (missing : n.gpConfNodeLookupChild key = none) :
    n.view (key :: keys) = none := by
  simp [view, nodeAt, missing]

theorem view_cons_some {c : GpConfNode} (found : n.gpConfNodeLookupChild key = some c) :
    n.view (key :: keys) = c.view keys := by
  simp [view, nodeAt, found]

/-- The map below a node comes from its list. -/
theorem view_cons_congr {m : GpConfNode} (same : m.children = n.children) :
    m.view (key :: keys) = n.view (key :: keys) := by
  simp [view, nodeAt, gpConfNodeLookupChild, same]

theorem view_modifyChild {f : GpConfNode → GpConfNode} {c : GpConfNode}
    (found : n.gpConfNodeLookupChild key = some c) (named : ∀ c, (f c).name = c.name) (k : CStr) :
    (n.modifyChild key f).view (k :: keys) =
      if k = key then (f c).view keys else n.view (k :: keys) := by
  split
  · rename_i same
    rw [same, view_cons_some (lookup_modifyChild found (named c))]
  · rename_i apart
    simp only [view, nodeAt, lookup_modifyChild_other apart fun c _ => named c]

theorem view_insertTail {child : GpConfNode} (missing : n.gpConfNodeLookupChild key = none)
    (named : child.name = some key) (k : CStr) :
    (n.insertTail child).view (k :: keys) =
      if k = key then child.view keys else n.view (k :: keys) := by
  split
  · rename_i same
    refine view_cons_some ?_
    rw [lookup_insertTail named, same, missing, if_pos rfl, Option.none_or]
  · rename_i apart
    simp only [view, nodeAt, lookup_insertTail named, if_neg apart, Option.or_none]

theorem view_unlinkChild (distinct : Distinct n) (k : CStr) :
    (n.unlinkChild key).view (k :: keys) = if k = key then none else n.view (k :: keys) := by
  split
  · rename_i same
    refine view_cons_none ?_
    rw [same]
    exact (unique_of_nodup distinct.names key).find?_eraseP
  · rename_i apart
    have looked : (n.unlinkChild key).gpConfNodeLookupChild k = n.gpConfNodeLookupChild k := by
      refine find?_eraseP_of_disjoint ?_ _
      intro c named
      simp only [hasName, decide_eq_true_eq] at named
      simp [hasName, named, Ne.symm apart]
    simp only [view, nodeAt, looked]

/-! ## Paths -/

@[simp] theorem createPath_fields (final : Bool) (path : List CStr) (n : GpConfNode) :
    (n.createPath final path).val = n.val ∧ (n.createPath final path).final = n.final := by
  cases path with
  | nil => exact ⟨rfl, rfl⟩
  | cons key keys =>
      rw [createPath]
      cases n.gpConfNodeLookupChild key <;> exact ⟨rfl, rfl⟩

/-- A fresh node has the root of its map only. -/
theorem view_of_empty (empty : n.children = []) :
    n.view = fun p => if p = [] then some ⟨n.val, n.final⟩ else none := by
  funext p
  cases p with
  | nil => rfl
  | cons key keys =>
      have missing : n.gpConfNodeLookupChild key = none := by
        simp [gpConfNodeLookupChild, empty]
      simp [view_cons_none missing]

theorem view_createPath (final : Bool) (path : List CStr) (n : GpConfNode) :
    (n.createPath final path).view = n.view.create final path := by
  induction path generalizing n with
  | nil =>
      funext p
      cases p <;> simp [createPath, ConfMap.create, view_nil]
  | cons key path ih =>
      funext p
      cases p with
      | nil => simp [ConfMap.create, view_nil]
      | cons k ks =>
          rw [createPath]
          cases child : n.gpConfNodeLookupChild key with
          | none =>
              dsimp only
              rw [view_insertTail child (createPath_name _ _ _), ih, view_of_empty rfl]
              by_cases same : k = key
              · by_cases root : ks = []
                · simp [ConfMap.create, List.cons_prefix_cons, same, root, view_cons_none child,
                    gpConfNodeNew]
                · simp [ConfMap.create, List.cons_prefix_cons, same, root, view_cons_none child]
              · simp [ConfMap.create, List.cons_prefix_cons, same]
          | some c =>
              dsimp only
              rw [view_modifyChild child (createPath_name _ _), ih]
              by_cases same : k = key
              · simp [same, ConfMap.create, view_cons_some child, List.cons_prefix_cons]
              · simp [same, ConfMap.create, List.cons_prefix_cons]

theorem modifyAt_name {f : GpConfNode → GpConfNode} (named : ∀ m, (f m).name = m.name)
    (path : List CStr) (n : GpConfNode) : (n.modifyAt f path).name = n.name := by
  cases path with
  | nil => exact named n
  | cons key keys => rfl

/-- A write to the fields of the node at the end of a path. -/
theorem view_modifyAt {f : GpConfNode → GpConfNode} {g : Entry → Entry}
    (named : ∀ m, (f m).name = m.name) (below : ∀ m, (f m).children = m.children)
    (fields : ∀ m, (⟨(f m).val, (f m).final⟩ : Entry) = g ⟨m.val, m.final⟩) {path : List CStr}
    {m : GpConfNode} (found : n.nodeAt path = some m) :
    (n.modifyAt f path).view = n.view.assign g path := by
  induction path generalizing n with
  | nil =>
      funext p
      cases p with
      | nil => simp [modifyAt, ConfMap.assign, view_nil, fields]
      | cons k ks => simp [modifyAt, ConfMap.assign, view_cons_congr (below n)]
  | cons key path ih =>
      obtain ⟨c, child, found⟩ := child_of_nodeAt found
      funext p
      cases p with
      | nil => simp [modifyAt, GpConfNode.modifyChild, ConfMap.assign, view_nil]
      | cons k ks =>
          rw [modifyAt, view_modifyChild child (modifyAt_name named path), ih found]
          by_cases same : k = key
          · simp [same, ConfMap.assign, view_cons_some child]
          · simp [same, ConfMap.assign]

theorem view_removeAt {path : List CStr} {m : GpConfNode} (distinct : Distinct n)
    (inside : path ≠ []) (found : n.nodeAt path = some m) :
    (n.removeAt path).view = n.view.erase path := by
  induction path generalizing n with
  | nil => exact absurd rfl inside
  | cons key path ih =>
      obtain ⟨c, child, found⟩ := child_of_nodeAt found
      have below := distinct.child ((lookup_iff distinct.names).mp child).1
      funext p
      cases path with
      | nil =>
          cases p with
          | nil => simp [removeAt, unlinkChild, ConfMap.erase, view_nil]
          | cons k ks =>
              rw [removeAt, view_unlinkChild distinct]
              simp [ConfMap.erase, List.cons_prefix_cons, eq_comm]
      | cons key' path =>
          cases p with
          | nil => simp [removeAt, GpConfNode.modifyChild, ConfMap.erase, view_nil]
          | cons k ks =>
              show (n.modifyChild key (removeAt (key' :: path))).view (k :: ks) = _
              rw [view_modifyChild child (removeAt_name _),
                ih below (List.cons_ne_nil _ _) found]
              by_cases same : k = key
              · simp [same, ConfMap.erase, view_cons_some child, List.cons_prefix_cons]
              · simp [same, ConfMap.erase, List.cons_prefix_cons, Ne.symm same]

/-- Nothing is missing on a path that leads to a node. -/
theorem createPath_of_found {final : Bool} {path : List CStr} {m : GpConfNode}
    (found : n.nodeAt path = some m) : n.createPath final path = n := by
  induction path generalizing n with
  | nil => rfl
  | cons key path ih =>
      obtain ⟨c, child, found⟩ := child_of_nodeAt found
      rw [createPath, child]
      exact modifyChild_self child (ih found)

end View

/-! ## Calls -/

namespace ConfMap

variable (m : ConfMap) (name : CStr)

/-- `gp_conf_get` on the map. -/
def get : Option (Option CStr) :=
  if nodeNameMax ≤ name.length then none else (m (components name)).map (·.val)

/-- The node of a name is final. -/
def isFinal : Bool := (m (components name)).any (·.final)

def set (val : CStr) : ConfMap × Int :=
  if nodeNameMax ≤ name.length ∨ m.isFinal name then (m, 0)
  else ((m.create false (components name)).assign (fun e => { e with val := some val })
    (components name), 1)

def setFinal (val : CStr) : ConfMap × Int :=
  if nodeNameMax ≤ name.length then (m, 0)
  else ((m.create true (components name)).assign (fun _ => ⟨some val, true⟩) (components name), 1)

def remove : ConfMap × Int :=
  if nodeNameMax ≤ name.length ∨ m (components name) = none then (m, 0)
  else (m.erase (components name), 1)

end ConfMap

section Calls

variable {root : GpConfNode}

theorem components_ne_nil (name : CStr) : components name ≠ [] := List.splitOn_ne_nil _ _

theorem gpConfGet_eq (name : CStr) : gpConfGet root name = root.view.get name := by
  unfold gpConfGet gpConfGetNode ConfMap.get GpConfNode.view
  split
  · rfl
  · rw [Option.map_map]
    rfl

theorem view_eq_none_iff (path : List CStr) : root.view path = none ↔ root.nodeAt path = none := by
  simp [view]

/-- What is at the end of a path that has just been created. -/
theorem created_entry {m : GpConfNode} {final : Bool} {path : List CStr}
    (found : (root.createPath final path).nodeAt path = some m) :
    root.view path = some ⟨m.val, m.final⟩ ∨ (root.view path = none ∧ m.final = final) := by
  have created := congrFun (view_createPath final path root) path
  rw [view, found, Option.map_some, ConfMap.create] at created
  cases old : root.view path with
  | none =>
      rw [old, if_pos ⟨List.prefix_refl _, rfl⟩, Option.some.injEq, Entry.mk.injEq] at created
      exact .inr ⟨rfl, created.2⟩
  | some e =>
      rw [old, if_neg (by simp)] at created
      exact .inl created.symm

/-- `gp_conf_set` does on the tree what `set` does on its map, and a failure changes
nothing at all. -/
theorem gpConfSet_refines (distinct : Distinct root) (name val : CStr) :
    ((gpConfSet root name val).1.view, (gpConfSet root name val).2) = root.view.set name val ∧
      ((gpConfSet root name val).2 = 0 → (gpConfSet root name val).1 = root) := by
  unfold gpConfSet gpConfGetNodeOrCreate ConfMap.set
  by_cases long : nodeNameMax ≤ name.length
  · simp [long]
  · obtain ⟨m, found⟩ := nodeAt_createPath false (components name) distinct
    have created := view_createPath false (components name) root
    have sameFinal : root.view.isFinal name = m.final := by
      rcases created_entry found with old | ⟨missing, fresh⟩
      · simp [ConfMap.isFinal, old]
      · simp [ConfMap.isFinal, missing, fresh]
    simp only [long, if_false, found, Option.any_some, false_or, sameFinal]
    split
    · rename_i fixed
      -- a node that is final was there before, so nothing has been created
      rcases created_entry found with old | ⟨_, fresh⟩
      · cases there : root.nodeAt (components name) with
        | none => simp [view, there] at old
        | some m => simp [createPath_of_found there]
      · simp [fixed] at fresh
    · have written := view_modifyAt (g := fun e => { e with val := some val })
        (f := fun node => { node with val := some val }) (fun _ => rfl) (fun _ => rfl)
        (fun _ => rfl) found
      simp [written, created]

/-- `gp_conf_set_final` fails for a long name only. -/
theorem gpConfSetFinal_refines (distinct : Distinct root) (name val : CStr) :
    ((gpConfSetFinal root name val).1.view, (gpConfSetFinal root name val).2) =
        root.view.setFinal name val ∧
      ((gpConfSetFinal root name val).2 = 0 → (gpConfSetFinal root name val).1 = root) := by
  unfold gpConfSetFinal gpConfGetNodeOrCreate ConfMap.setFinal
  by_cases long : nodeNameMax ≤ name.length
  · simp [long]
  · obtain ⟨m, found⟩ := nodeAt_createPath true (components name) distinct
    have written := view_modifyAt (g := fun _ => ⟨some val, true⟩)
      (f := fun node => { node with val := some val, final := true }) (fun _ => rfl)
      (fun _ => rfl) (fun _ => rfl) found
    simp [long, written, view_createPath]

/-- `gp_conf_remove` on a tree that is linked. -/
theorem gpConfRemove_refines (distinct : Distinct root) (linked : Linked root) (name : CStr) :
    ∃ root' ret, gpConfRemove root name = .ok (root', ret) ∧
      (root'.view, ret) = root.view.remove name ∧ (ret = 0 → root' = root) := by
  unfold gpConfRemove gpConfGetNode ConfMap.remove
  by_cases long : nodeNameMax ≤ name.length
  · simp [long]
  · cases there : root.nodeAt (components name) with
    | none => simp [long, view_eq_none_iff, there]
    | some m =>
        have own := (linked.nodeAt there).2 (components_ne_nil name)
        have erased := view_removeAt distinct (components_ne_nil name) there
        simp [long, own, view_eq_none_iff, there, erased]

end Calls

/-! ## Names and components -/

theorem components_injective : Function.Injective components := by
  intro name other same
  have joined := congrArg (List.intercalate [0x2e]) same
  simpa only [components, List.intercalate_splitOn] using joined

theorem length_intercalate_le (sep : CStr) (l t : List CStr) :
    (sep.intercalate l).length ≤ (sep.intercalate (l ++ t)).length := by
  induction l with
  | nil => exact Nat.zero_le _
  | cons x l ih =>
      cases l with
      | nil => cases t <;> simp [List.intercalate]
      | cons y l =>
          simp only [List.intercalate, List.cons_append, List.intersperse_cons_cons,
            List.flatten_cons, List.length_append] at ih ⊢
          omega

/-- The name of an inner node is no longer than the names below it. -/
theorem length_le_of_components {name other : CStr} (onPath : components other <+: components name) :
    other.length ≤ name.length := by
  obtain ⟨rest, split⟩ := onPath
  have longer := length_intercalate_le [0x2e] (components other) rest
  rw [split] at longer
  simpa [components, List.intercalate_splitOn] using longer

/-! ## Sequences of calls -/

/-- The calls that take a name. -/
inductive StoreCall
  | set (name val : CStr)
  | setFinal (name val : CStr)
  | remove (name : CStr)

/-- After a successful `gp_conf_set` or `gp_conf_set_final`. -/
structure Stored (root root' : GpConfNode) (name val : CStr) : Prop where
  new : gpConfGet root' name = some (some val)
  kept : ∀ other ≠ name, gpConfGet root other ≠ none → gpConfGet root' other = gpConfGet root other
  /-- value-less nodes for the missing proper prefixes, and nothing else -/
  added : ∀ other ≠ name, gpConfGet root other = none →
    gpConfGet root' other = if components other <+: components name then some none else none

/-- After a successful `gp_conf_remove`. -/
def Removed (root root' : GpConfNode) (name : CStr) : Prop :=
  ∀ other, gpConfGet root' other =
    if components name <+: components other then none else gpConfGet root other

namespace StoreCall

def exec (root : GpConfNode) : StoreCall → Except Fault (GpConfNode × Int)
  | set name val => .ok (gpConfSet root name val)
  | setFinal name val => .ok (gpConfSetFinal root name val)
  | remove name => gpConfRemove root name

def onMap (m : ConfMap) : StoreCall → ConfMap × Int
  | set name val => m.set name val
  | setFinal name val => m.setFinal name val
  | remove name => m.remove name

def Effect (root root' : GpConfNode) : StoreCall → Prop
  | set name val => Stored root root' name val
  | setFinal name val => Stored root root' name val
  | remove name => Removed root root' name

end StoreCall

/-- The tree after a sequence of calls on the one that `gp_conf_init` makes, and
what they returned. -/
def replay (calls : List StoreCall) : Except Fault (GpConfNode × List Int) :=
  calls.foldlM (fun (root, rets) c => do
    let (root, ret) ← c.exec root
    return (root, rets ++ [ret])) (gpConfInit.root, [])

/-- The same sequence on the map. -/
def ConfMap.replay (calls : List StoreCall) : ConfMap × List Int :=
  calls.foldl (fun (m, rets) c => ((c.onMap m).1, rets ++ [(c.onMap m).2])) (.start, [])

section Sequences

variable {root : GpConfNode}

theorem stored_of_view {root' : GpConfNode} {name val : CStr} {final : Bool} {g : Entry → Entry}
    (short : ¬ nodeNameMax ≤ name.length) (fields : ∀ e, (g e).val = some val)
    (result : root'.view = (root.view.create final (components name)).assign g (components name)) :
    Stored root root' name val := by
  have apart : ∀ other, other ≠ name → components other ≠ components name :=
    fun other h same => h (components_injective same)
  refine ⟨?_, ?_, ?_⟩
  · rw [gpConfGet_eq, result, ConfMap.get, if_neg short, ConfMap.assign, if_pos rfl]
    cases old : root.view (components name) <;> simp [ConfMap.create, old, fields]
  · intro other different present
    rw [gpConfGet_eq, ConfMap.get] at present ⊢
    rw [gpConfGet_eq, result, ConfMap.get]
    split
    · rfl
    · rename_i inRange
      rw [if_neg inRange] at present
      have there : root.view (components other) ≠ none := by
        intro missing
        simp [missing] at present
      simp [ConfMap.assign, ConfMap.create, apart other different, there]
  · intro other different absent
    rw [gpConfGet_eq, ConfMap.get] at absent ⊢
    rw [result]
    by_cases long : nodeNameMax ≤ other.length
    · have offPath : ¬ components other <+: components name := by
        intro onPath
        have := length_le_of_components onPath
        omega
      rw [if_pos long, if_neg offPath]
    · rw [if_neg long, Option.map_eq_none_iff] at absent
      rw [if_neg long]
      by_cases onPath : components other <+: components name <;>
        simp [ConfMap.assign, ConfMap.create, apart other different, absent, onPath]

/-- The step lemma: one call on a tree with distinct names and complete links. -/
theorem exec_spec (distinct : Distinct root) (linked : Linked root) (c : StoreCall) :
    ∃ root' ret, c.exec root = .ok (root', ret) ∧ Distinct root' ∧ Linked root' ∧
      (root'.view, ret) = c.onMap root.view ∧ (ret = 0 → root' = root) ∧
      (ret ≠ 0 → c.Effect root root') := by
  cases c with
  | set name val =>
      obtain ⟨refines, failure⟩ := gpConfSet_refines distinct name val
      refine ⟨_, _, rfl, (Keeps.gpConfSet distinct name val).distinct,
        linked.gpConfSet name val, refines, failure, ?_⟩
      intro success
      unfold ConfMap.set at refines
      split at refines
      · exact absurd (congrArg Prod.snd refines) success
      · rename_i admitted
        exact stored_of_view (fun long => admitted (.inl long)) (fun _ => rfl)
          (congrArg Prod.fst refines)
  | setFinal name val =>
      obtain ⟨refines, failure⟩ := gpConfSetFinal_refines distinct name val
      refine ⟨_, _, rfl, (gpConfSetFinal_spec distinct name val).1,
        linked.gpConfSetFinal name val, refines, failure, ?_⟩
      intro success
      unfold ConfMap.setFinal at refines
      split at refines
      · exact absurd (congrArg Prod.snd refines) success
      · rename_i short
        exact stored_of_view short (fun _ => rfl) (congrArg Prod.fst refines)
  | remove name =>
      obtain ⟨root', ret, executed, refines, failure⟩ := gpConfRemove_refines distinct linked name
      refine ⟨root', ret, executed, gpConfRemove_distinct distinct executed,
        linked.gpConfRemove executed, refines, failure, ?_⟩
      intro success other
      unfold ConfMap.remove at refines
      split at refines
      · exact absurd (congrArg Prod.snd refines) success
      · have erased : root'.view = root.view.erase (components name) :=
          congrArg Prod.fst refines
        rw [gpConfGet_eq, gpConfGet_eq, erased, ConfMap.get, ConfMap.get, ConfMap.erase]
        split <;> split <;> rfl

theorem replay_spec (calls : List StoreCall) :
    ∃ root, replay calls = .ok (root, (ConfMap.replay calls).2) ∧ Distinct root ∧ Linked root ∧
      root.view = (ConfMap.replay calls).1 := by
  induction calls using List.reverseRecOn with
  | nil => exact ⟨_, rfl, .of_empty rfl, .of_empty rfl, view_of_empty rfl⟩
  | append_singleton calls c ih =>
      obtain ⟨root, ran, distinct, linked, same⟩ := ih
      obtain ⟨root', ret, executed, distinct', linked', refines, _, _⟩ :=
        exec_spec distinct linked c
      rw [same, Prod.mk.injEq] at refines
      refine ⟨root', ?_, distinct', linked', ?_⟩
      · rw [replay, List.foldlM_append, ← replay, ran]
        simp [ConfMap.replay, bind, Except.bind, executed, refines.2]
        rfl
      · rw [refines.1]
        simp [ConfMap.replay]

/-- **The store is a map.** Every sequence of calls runs in step with the map keyed by
components: all calls return, with the map's return values, and `gp_conf_get` reads
the map. Names and components correspond one to one. From there `gp_conf_set` fails
exactly for a long name or a final node; a call that fails leaves the tree as it is,
one that succeeds stores the value, keeps every other name and adds only the missing
prefixes, or removes the name with its extensions. -/
theorem store_is_map (calls : List StoreCall) :
    ∃ root, replay calls = .ok (root, (ConfMap.replay calls).2) ∧
      (∀ name, gpConfGet root name = (ConfMap.replay calls).1.get name) ∧
      Function.Injective components ∧
      (∀ name val, (gpConfSet root name val).2 = 0 ↔
        nodeNameMax ≤ name.length ∨ (ConfMap.replay calls).1.isFinal name) ∧
      ∀ c : StoreCall, ∃ root' ret, c.exec root = .ok (root', ret) ∧
        (ret = 0 → root' = root) ∧ (ret ≠ 0 → c.Effect root root') := by
  obtain ⟨root, ran, distinct, linked, same⟩ := replay_spec calls
  refine ⟨root, ran, ?_, components_injective, ?_, ?_⟩
  · intro name
    rw [← same, gpConfGet_eq]
  · intro name val
    have refines := (gpConfSet_refines distinct name val).1
    rw [← same, congrArg Prod.snd refines]
    unfold ConfMap.set
    split <;> simp_all
  · intro c
    obtain ⟨root', ret, executed, _, _, _, failure, success⟩ := exec_spec distinct linked c
    exact ⟨root', ret, executed, failure, success⟩

end Sequences

end GpBase.Conf

import GpBase.Conf.Model

/-!
# What pruning leaves

The nodes below a node, in the order of the lists, are given by the ways down to
them.  `gp_conf_node_prune` leaves those that have a final node on their way or
below them.
-/

namespace GpBase.Conf

open GpConfNode

/-! ## Ways -/

/-- A node without its children. -/
structure Fields where
  name : Option CStr
  val : Option CStr
  isSeq : Bool
  final : Bool
  hasParent : Bool
  deriving DecidableEq, Repr

def GpConfNode.fields (n : GpConfNode) : Fields :=
  ⟨n.name, n.val, n.isSeq, n.final, n.hasParent⟩

/-- The nodes on the way down to a node, that one included, each with its place
among its siblings. -/
abbrev Way := List (Nat × Fields)

mutual

/-- The ways to a node at place `i` and to all nodes below it, in order. -/
def waysOf : Nat → GpConfNode → List Way
  | i, ⟨name, val, isSeq, final, hasParent, children⟩ =>
    [(i, ⟨name, val, isSeq, final, hasParent⟩)] ::
      (ways 0 children).map ((i, ⟨name, val, isSeq, final, hasParent⟩) :: ·)

/-- The same for a list of nodes that starts at place `i`. -/
def ways : Nat → List GpConfNode → List Way
  | _, [] => []
  | i, n :: ns => waysOf i n ++ ways (i + 1) ns

end

/-- The fields along a way. -/
def Way.fields (w : Way) : List Fields := w.map (·.2)

def Way.hasFinal (w : Way) : Bool := w.any (·.2.final)

/-- A final node is on the way `w` or below its end. -/
def remains (all : List Way) (w : Way) : Bool := all.any fun v => w.isPrefixOf v && v.hasFinal

/-- The values down to the first final node are cleared. -/
def clearVals : List Fields → List Fields
  | [] => []
  | x :: xs => if x.final then x :: xs else { x with val := none } :: clearVals xs

section Ways

variable {i : Nat} {n : GpConfNode} {ns : List GpConfNode}

theorem waysOf_eq (i : Nat) (n : GpConfNode) :
    waysOf i n = [(i, n.fields)] :: (ways 0 n.children).map ((i, n.fields) :: ·) := by
  cases n
  rfl

/-- A way starts at one of the nodes of the list. -/
theorem head_of_mem_ways {w : Way} (mem : w ∈ ways i ns) :
    ∃ k f rest, w = (k, f) :: rest ∧ i ≤ k := by
  induction ns generalizing i with
  | nil => cases mem
  | cons n ns ih =>
      rw [ways, waysOf_eq, List.mem_append, List.mem_cons] at mem
      obtain (rfl | mem) | mem := mem
      · exact ⟨i, n.fields, [], rfl, Nat.le_refl i⟩
      · obtain ⟨u, _, rfl⟩ := List.mem_map.mp mem
        exact ⟨i, n.fields, u, rfl, Nat.le_refl i⟩
      · obtain ⟨k, f, rest, same, later⟩ := ih mem
        exact ⟨k, f, rest, same, by omega⟩

/-- What is on one node and below it does not matter for the later ones. -/
theorem remains_later {first : List Way} {w : Way}
    (starts : ∀ v ∈ first, ∃ f rest, v = (i, f) :: rest) (mem : w ∈ ways (i + 1) ns) :
    remains (first ++ ways (i + 1) ns) w = remains (ways (i + 1) ns) w := by
  obtain ⟨k, f, rest, rfl, later⟩ := head_of_mem_ways mem
  have none : (first.any fun v => ((k, f) :: rest).isPrefixOf v && v.hasFinal) = false := by
    rw [List.any_eq_false]
    intro v mem
    obtain ⟨g, rest', rfl⟩ := starts v mem
    have apart : ((k, f) == (i, g)) = false := by
      rw [beq_eq_false_iff_ne]
      intro same
      cases same
      omega
    simp [List.isPrefixOf, apart]
  rw [remains, List.any_append, none, Bool.false_or]
  rfl

/-- And the other way round. -/
theorem remains_here {first : List Way} {w : Way} {f : Fields} {rest : Way}
    (here : w = (i, f) :: rest) : remains (first ++ ways (i + 1) ns) w = remains first w := by
  have none : ((ways (i + 1) ns).any fun v => w.isPrefixOf v && v.hasFinal) = false := by
    rw [List.any_eq_false]
    intro v mem
    obtain ⟨k, g, rest', rfl, later⟩ := head_of_mem_ways mem
    have apart : ((i, f) == (k, g)) = false := by
      rw [beq_eq_false_iff_ne]
      intro same
      cases same
      omega
    simp [here, List.isPrefixOf, apart]
  rw [remains, List.any_append, none, Bool.or_false]
  rfl

/-- Below a node that is not final its own way counts for nothing. -/
theorem remains_below {x : Nat × Fields} (open_ : x.2.final = false) (below : List Way) (w : Way) :
    remains ([x] :: below.map (x :: ·)) (x :: w) = remains below w := by
  simp [remains, Way.hasFinal, List.any_map, Function.comp_def, List.isPrefixOf, open_]

theorem remains_self {x : Nat × Fields} (below : List Way) :
    remains ([x] :: below.map (x :: ·)) [x] = (x.2.final || below.any Way.hasFinal) := by
  have hasFinal : below.any Way.hasFinal = below.any fun v => v.any (·.2.final) := rfl
  cases fixed : x.2.final <;>
    simp [remains, Way.hasFinal, List.any_map, Function.comp_def, List.isPrefixOf, fixed, hasFinal]

/-- Everything remains on and below a final node. -/
theorem remains_of_final {x : Nat × Fields} (fixed : x.2.final = true) {below : List Way} {w : Way}
    (mem : w ∈ [x] :: below.map (x :: ·)) : remains ([x] :: below.map (x :: ·)) w = true := by
  apply List.any_eq_true.mpr
  refine ⟨w, mem, ?_⟩
  obtain rfl | mem := List.mem_cons.mp mem
  · simp [Way.hasFinal, fixed]
  · obtain ⟨u, _, rfl⟩ := List.mem_map.mp mem
    simp [Way.hasFinal, fixed]

/-- Something remains exactly when there is a final node. -/
theorem any_remains (all : List Way) : all.any (remains all) = all.any Way.hasFinal := by
  rw [Bool.eq_iff_iff, List.any_eq_true, List.any_eq_true]
  constructor
  · rintro ⟨w, _, kept⟩
    obtain ⟨v, mem, both⟩ := List.any_eq_true.mp kept
    exact ⟨v, mem, (Bool.and_eq_true_iff.mp both).2⟩
  · rintro ⟨v, mem, fixed⟩
    refine ⟨v, mem, List.any_eq_true.mpr ⟨v, mem, ?_⟩⟩
    simp [fixed]

end Ways

/-! ## Pruning -/

@[simp] theorem gpConfNodePrune_children (n : GpConfNode) :
    (gpConfNodePrune n).children = pruneChildren n.children := by
  cases n
  rfl

theorem gpConfNodePrune_fields (n : GpConfNode) :
    (gpConfNodePrune n).fields = { n.fields with val := none } := by
  cases n
  rfl

/-- What should be left of some nodes: the ways that remain, with the values as
they are then. -/
def leftOf (all : List Way) : List (List Fields) :=
  (all.filter (remains all)).map fun w => clearVals w.fields

theorem starts_waysOf {i : Nat} {n : GpConfNode} {v : Way} (mem : v ∈ waysOf i n) :
    ∃ f rest, v = (i, f) :: rest := by
  rw [waysOf_eq] at mem
  obtain rfl | mem := List.mem_cons.mp mem
  · exact ⟨n.fields, [], rfl⟩
  · obtain ⟨u, _, rfl⟩ := List.mem_map.mp mem
    exact ⟨n.fields, u, rfl⟩

/-- Node by node. -/
theorem leftOf_ways (i : Nat) (n : GpConfNode) (ns : List GpConfNode) :
    leftOf (ways i (n :: ns)) = leftOf (waysOf i n) ++ leftOf (ways (i + 1) ns) := by
  rw [ways, leftOf, List.filter_append, List.map_append]
  refine congrArg₂ (· ++ ·) (congrArg (List.map _) ?_) (congrArg (List.map _) ?_)
  · apply List.filter_congr
    intro w mem
    obtain ⟨f, rest, here⟩ := starts_waysOf mem
    exact remains_here here
  · apply List.filter_congr
    intro w mem
    exact remains_later (fun v => starts_waysOf) mem

/-- A final node is left as it is. -/
theorem leftOf_final {n : GpConfNode} (fixed : n.final = true) (i j : Nat) :
    leftOf (waysOf i n) = (waysOf j n).map Way.fields := by
  have all : (waysOf i n).filter (remains (waysOf i n)) = waysOf i n := by
    rw [List.filter_eq_self]
    intro w mem
    rw [waysOf_eq] at mem ⊢
    exact remains_of_final fixed mem
  have same : n.fields.final = true := fixed
  rw [leftOf, all, waysOf_eq, waysOf_eq]
  simp [Way.fields, clearVals, same, Function.comp_def]

/-- A node that is not final is left, without its value, when there is a final
one below it. -/
theorem leftOf_open {n : GpConfNode} (open_ : n.final = false) (i : Nat) :
    leftOf (waysOf i n) =
      if leftOf (ways 0 n.children) = [] then []
      else [{ n.fields with val := none }] ::
        (leftOf (ways 0 n.children)).map ({ n.fields with val := none } :: ·) := by
  have same : n.fields.final = false := open_
  have below : ∀ w : Way, remains (waysOf i n) ((i, n.fields) :: w) =
      remains (ways 0 n.children) w := by
    intro w
    rw [waysOf_eq]
    exact remains_below same _ w
  have deeper : ((ways 0 n.children).map ((i, n.fields) :: ·)).filter (remains (waysOf i n)) =
      ((ways 0 n.children).filter (remains (ways 0 n.children))).map ((i, n.fields) :: ·) := by
    rw [List.filter_map]
    simp only [Function.comp_def, below]
  have here : remains (waysOf i n) [(i, n.fields)] = decide (leftOf (ways 0 n.children) ≠ []) := by
    rw [waysOf_eq, remains_self, same, Bool.false_or, ← any_remains, Bool.eq_iff_iff]
    simp [leftOf]
  rw [leftOf, waysOf_eq, List.filter_cons, ← waysOf_eq, here, deeper]
  by_cases nothing : leftOf (ways 0 n.children) = []
  · have none : (ways 0 n.children).filter (remains (ways 0 n.children)) = [] :=
      List.map_eq_nil_iff.mp nothing
    simp [nothing, none]
  · have clear (w : Way) : clearVals (Way.fields ((i, n.fields) :: w)) =
        { n.fields with val := none } :: clearVals w.fields := by
      simp [Way.fields, clearVals, same]
    rw [if_neg nothing, decide_eq_true nothing, if_pos rfl, List.map_cons, List.map_map, clear,
      leftOf, List.map_map]
    simp only [Function.comp_def, clear]
    rfl

/-- What is left of a list. -/
theorem ways_pruneChildren : ∀ (ns : List GpConfNode) (i j : Nat),
    (ways j (pruneChildren ns)).map Way.fields = leftOf (ways i ns)
  | [], _, _ => rfl
  | ⟨name, val, isSeq, final, hasParent, children⟩ :: ns, i, j => by
    have below := ways_pruneChildren children 0 0
    have later := ways_pruneChildren ns (i + 1)
    rw [leftOf_ways, pruneChildren]
    cases final with
    | true => rw [if_pos rfl, ways, List.map_append, later, leftOf_final rfl i j]
    | false =>
        rw [if_neg Bool.false_ne_true, leftOf_open rfl, ← below]
        have shape : (ways 0 (pruneChildren children)).map Way.fields = [] ↔
            pruneChildren children = [] := by
          cases pruneChildren children with
          | nil => simp [ways]
          | cons c cs => simp [ways, waysOf_eq]
        cases kept : pruneChildren children with
        | nil =>
            rw [if_pos (by rw [gpConfNodePrune_children, kept]; rfl), later]
            rfl
        | cons c cs =>
            rw [if_neg (by rw [gpConfNodePrune_children, kept]; exact Bool.false_ne_true), ← kept,
              if_neg (by rw [shape, kept]; exact List.cons_ne_nil c cs), ways, List.map_append,
              later, waysOf_eq, gpConfNodePrune_children, gpConfNodePrune_fields]
            simp [Way.fields, Function.comp_def]

/-- Pruning what is left changes nothing. -/
theorem pruneChildren_twice : ∀ ns : List GpConfNode,
    pruneChildren (pruneChildren ns) = pruneChildren ns
  | [] => rfl
  | ⟨name, val, isSeq, final, hasParent, children⟩ :: ns => by
    have below := pruneChildren_twice children
    have later := pruneChildren_twice ns
    rw [pruneChildren]
    cases final with
    | true => rw [if_pos rfl, pruneChildren, if_pos rfl, later]
    | false =>
        rw [if_neg Bool.false_ne_true]
        split
        · exact later
        · rename_i left
          have same : gpConfNodePrune (gpConfNodePrune
              ⟨name, val, isSeq, false, hasParent, children⟩) =
              gpConfNodePrune ⟨name, val, isSeq, false, hasParent, children⟩ := by
            rw [gpConfNodePrune, gpConfNodePrune, below]
          have open_ : (gpConfNodePrune ⟨name, val, isSeq, false, hasParent, children⟩).final =
              false := rfl
          rw [pruneChildren, open_, if_neg Bool.false_ne_true, same, if_neg left, later]

/-- **Pruning keeps exactly what is final.**  The nodes left below a node are, in
order, those with a final node on their way or below them; on each way the values
down to the first final node are cleared and everything else is as it was. -/
theorem gpConfNodePrune_exact (n : GpConfNode) :
    (gpConfNodePrune n).fields = { n.fields with val := none } ∧
      (ways 0 (gpConfNodePrune n).children).map Way.fields =
        ((ways 0 n.children).filter (remains (ways 0 n.children))).map
          (fun w => clearVals w.fields) ∧
      gpConfNodePrune (gpConfNodePrune n) = gpConfNodePrune n := by
  refine ⟨gpConfNodePrune_fields n, ?_, ?_⟩
  · rw [gpConfNodePrune_children]
    exact ways_pruneChildren n.children 0 0
  · cases n
    rw [gpConfNodePrune, gpConfNodePrune, pruneChildren_twice]

end GpBase.Conf

import GpBase.Conf.Keep

/-!
# Values

A YAML value: a scalar, or a sequence or a mapping of values, in each other to any
depth; the events that libyaml delivers for it, and what the loader makes of them.
The functions `load` recurse over the value where `gp_conf_yaml_parse` loops over its
events, and the two agree on every tree, also when the value is nested too deep and
the loader gives up midway.
-/

namespace GpBase.Conf

open GpBase.Lib GpConfNode

inductive YamlNode
  | scalar (v : CStr)
  | seq (items : List YamlNode)
  | map (entries : List (CStr × YamlNode))

/-! ## Events -/

mutual

def YamlNode.events : YamlNode → List YamlEvent
  | .scalar v => [.scalar v none]
  | .seq items => .sequenceStart :: (itemsEvents items ++ [.sequenceEnd])
  | .map entries => .mappingStart :: (entriesEvents entries ++ [.mappingEnd])

def itemsEvents : List YamlNode → List YamlEvent
  | [] => []
  | item :: rest => item.events ++ itemsEvents rest

def entriesEvents : List (CStr × YamlNode) → List YamlEvent
  | [] => []
  | (key, value) :: rest => .scalar key none :: (value.events ++ entriesEvents rest)

end

/-- A `%YAML 1.1` document. -/
def YamlNode.document (root : YamlNode) : List YamlEvent :=
  [.streamStart, .documentStart (some (1, 1))] ++ root.events ++ [.documentEnd, .streamEnd]

mutual

/-- The keys of each mapping are distinct, not empty and not `include`, and no text has a NUL
in it: the loader reads texts as C strings. -/
def YamlNode.Keyed : YamlNode → Prop
  | .scalar v => 0 ∉ v
  | .seq items => KeyedItems items
  | .map entries => KeyedEntries entries

def KeyedItems : List YamlNode → Prop
  | [] => True
  | item :: rest => item.Keyed ∧ KeyedItems rest

def KeyedEntries : List (CStr × YamlNode) → Prop
  | [] => True
  | (key, value) :: rest =>
    key ≠ [] ∧ 0 ∉ key ∧ key ≠ ascii "include" ∧ key ∉ rest.map (·.1) ∧ value.Keyed ∧
      KeyedEntries rest

end

/-! ## Loading -/

/-- A key in a mapping: its node is made, or emptied. -/
def GpConfNode.addKey (node : GpConfNode) (key : CStr) : GpConfNode :=
  ((Frame.start node).keyScalar key).parent

mutual

/-- The loader at the node of a value; `false` if it fails. -/
def YamlNode.load (rlevel : Nat) : YamlNode → GpConfNode → GpConfNode × Bool
  | .scalar v, node => (if node.final then node else { node with val := some v }, true)
  | .seq items, node =>
    if recursionLimit < rlevel then (node, false)
    else
      let (node, ok) := loadItems (rlevel + 1) items (Frame.start node)
      (if ok then { node with isSeq := true } else node, ok)
  | .map entries, node =>
    if recursionLimit < rlevel then (node, false) else loadEntries (rlevel + 1) entries node

/-- The items of a sequence, from the frame of its call on: an empty scalar is skipped,
and a sequence in it starts a new frame on the same node. -/
def loadItems (rlevel : Nat) : List YamlNode → Frame → GpConfNode × Bool
  | [], f => (f.parent, true)
  | .scalar v :: rest, f => loadItems rlevel rest (if v = [] then f else f.seqScalar v)
  | .map entries :: rest, f =>
    let (node, seqNode) := f.seqMapping f.parent
    let (seqNode, ok) :=
      if recursionLimit < rlevel then (seqNode, false) else loadEntries (rlevel + 1) entries seqNode
    let f := { f with parent := node.modifyChild f.seqName fun _ => seqNode }.nextSeq
    if ok then loadItems rlevel rest f else (f.parent, false)
  | .seq items :: rest, f =>
    let (node, ok) :=
      if recursionLimit < rlevel then (f.parent, false)
      else loadItems (rlevel + 1) items (Frame.start f.parent)
    if ok then loadItems rlevel rest { f with parent := { node with isSeq := true } }
    else (node, false)

def loadEntries (rlevel : Nat) : List (CStr × YamlNode) → GpConfNode → GpConfNode × Bool
  | [], node => (node, true)
  | (key, value) :: rest, node =>
    let node := node.addKey key
    match node.gpConfNodeLookupChild key with
    | none => (node, false)
    | some child =>
      let (child, ok) := value.load rlevel child
      let node := node.modifyChild key fun _ => child
      if ok then loadEntries rlevel rest node else (node, false)

end

/-! ## Lookups -/

section Lookups

variable {n : GpConfNode} {key other : CStr}

/-- What the node of a key is after its scalar has been read. -/
def entered (old : Option GpConfNode) (key : CStr) : GpConfNode :=
  match old with
  | some existing => if existing.final then existing else gpConfNodePrune existing
  | none => { gpConfNodeNew with name := some key }

/-- The value of a mapping when a key has been read. -/
def GpConfNode.valWith (n : GpConfNode) (key : CStr) : Option CStr :=
  if n.isSeq && n.val.isNone then some key else n.val

theorem addKey_eq (n : GpConfNode) (key : CStr) :
    n.addKey key =
      match n.gpConfNodeLookupChild key with
      | some existing =>
        if existing.final then { n with val := n.valWith key }
        else { n with val := n.valWith key }.modifyChild key gpConfNodePrune
      | none =>
        { n with val := n.valWith key }.insertTail { gpConfNodeNew with name := some key } := by
  obtain ⟨_, val, isSeq, _, _, _⟩ := n
  unfold addKey Frame.keyScalar valWith
  cases isSeq <;> cases val <;> rfl

theorem lookup_addKey (n : GpConfNode) (key : CStr) :
    (n.addKey key).gpConfNodeLookupChild key =
      some (entered (n.gpConfNodeLookupChild key) key) := by
  have same : { n with val := n.valWith key }.gpConfNodeLookupChild key =
      n.gpConfNodeLookupChild key := rfl
  rw [addKey_eq]
  cases found : n.gpConfNodeLookupChild key with
  | none =>
      dsimp only
      rw [lookup_insertTail rfl, same, found]
      simp [entered]
  | some existing =>
      dsimp only
      split
      · rename_i fixed
        simp [same, found, entered, fixed]
      · rename_i open_
        rw [lookup_modifyChild (same.trans found) (gpConfNodePrune_name existing)]
        simp [entered, open_]

theorem lookup_addKey_other (apart : other ≠ key) :
    (n.addKey key).gpConfNodeLookupChild other = n.gpConfNodeLookupChild other := by
  rw [addKey_eq]
  cases n.gpConfNodeLookupChild key with
  | none =>
      dsimp only
      rw [lookup_insertTail rfl, if_neg apart, Option.or_none]
      rfl
  | some existing =>
      dsimp only
      split
      · rfl
      · rw [lookup_modifyChild_other apart fun c _ => gpConfNodePrune_name c]
        rfl

end Lookups

/-! ## The loop follows the value -/

/-- The call goes on as `next` with what has been loaded, or has failed. -/
def Follows (out : Except Fault Parsed) (result : GpConfNode × Bool)
    (tree : GpConfNode → GpConfNode) (next : GpConfNode → Except Fault Parsed) : Prop :=
  match result with
  | (node, true) => out = next node
  | (node, false) => ∃ left, out = .ok (tree node, -1, left)

/-- The caller of a nested call goes on with what that has loaded, or fails with it. -/
theorem Follows.call {inner : Except Fault Parsed} {result : GpConfNode × Bool}
    {more : List YamlEvent} (below : Follows inner result id fun node => .ok (node, 0, more))
    (stop : GpConfNode → GpConfNode) (go : GpConfNode → List YamlEvent → Except Fault Parsed) :
    Follows (inner >>= fun (node, ret, events) =>
        if ret ≠ 0 then .ok (stop node, -1, events) else go node events)
      result stop fun node => go node more := by
  obtain ⟨node, ok⟩ := result
  cases ok with
  | true =>
      show (inner >>= _) = _
      rw [show inner = .ok (node, 0, more) from below]
      rfl
  | false =>
      obtain ⟨left, below⟩ := below
      refine ⟨left, ?_⟩
      rw [below]
      rfl

/-- The rest is loaded into what has been loaded before it. -/
theorem Follows.andThen {out : Except Fault Parsed} {result : GpConfNode × Bool}
    {tree : GpConfNode → GpConfNode} {mid next : GpConfNode → Except Fault Parsed}
    (follows : Follows out result tree mid) {rest : GpConfNode → GpConfNode × Bool}
    (later : ∀ node, Follows (mid node) (rest node) id next) :
    Follows out (if result.2 then rest result.1 else (tree result.1, false)) id next := by
  obtain ⟨node, ok⟩ := result
  cases ok with
  | true =>
      rw [show out = mid node from follows]
      exact later node
  | false => exact follows

/-- A node is marked only if all of it has been loaded. -/
theorem Follows.mark {out : Except Fault Parsed} {result : GpConfNode × Bool}
    {tree : GpConfNode → GpConfNode} {next : GpConfNode → Except Fault Parsed}
    (change : GpConfNode → GpConfNode)
    (follows : Follows out result tree fun node => next (change node)) :
    Follows out (if result.2 then change result.1 else result.1, result.2) tree next := by
  obtain ⟨node, ok⟩ := result
  cases ok with
  | true => exact follows
  | false => exact follows

section Loop

variable (handleInclude : Include)

/-- The pointer `node` of a frame leads to a child. -/
theorem Frame.deref_child {f : Frame} {key : CStr} {child : GpConfNode} (points : f.node = some key)
    (found : f.parent.gpConfNodeLookupChild key = some child) : f.deref = .ok child := by
  simp [Frame.deref, points, found]

theorem Frame.keyScalar_eq (f : Frame) (key : CStr) :
    f.keyScalar key = ⟨f.parent.addKey key, some key, .confVal, f.seqIdx⟩ := rfl

theorem Frame.assign_self {f : Frame} {key : CStr} {child : GpConfNode}
    (points : f.node = some key) (found : f.parent.gpConfNodeLookupChild key = some child) :
    f.assign child = f := by
  cases f
  cases points
  simp only [Frame.assign, modifyChild_self found]

mutual

/-- The value of a key, whose node `node` points to. -/
theorem YamlNode.parse : ∀ (value : YamlNode), value.Keyed → ∀ (rlevel fuel : Nat) (f : Frame)
    (key : CStr) (child : GpConfNode) (more : List YamlEvent), f.state = .confVal →
    f.node = some key → f.parent.gpConfNodeLookupChild key = some child →
    value.events.length ≤ fuel →
    Follows (parseLoop handleInclude (fuel + 1) false rlevel f (value.events ++ more))
      (value.load rlevel child) (fun child => (f.assign child).parent)
      fun child => parseLoop handleInclude fuel false rlevel
        { f.assign child with state := .confKey } more
  | .scalar v, _, rlevel, fuel, f, key, child, more, state, points, found, _ => by
    have read := Frame.deref_child points found
    simp only [YamlNode.events, List.singleton_append, parseLoop, scalarEvent, state, read,
      Frame.valScalar, YamlNode.load, Follows, bind, Except.bind, pure, Except.pure]
    by_cases fixed : child.final
    · simp [fixed, Frame.assign_self points found]
    · simp [fixed]
  | .seq items, keyed, rlevel, fuel, f, key, child, more, state, points, found, enough => by
    have read := Frame.deref_child points found
    simp only [YamlNode.events, List.length_cons, List.length_append, List.length_nil] at enough
    have below := parse_items items keyed (rlevel + 1) fuel (Frame.start child) more rfl rfl
      (by omega)
    simp only [YamlNode.events, List.cons_append, List.append_assoc, List.nil_append, parseLoop,
      read, enter, YamlNode.load]
    by_cases deep : recursionLimit < rlevel
    · simp [deep, Follows, bind, Except.bind]
    · simp only [if_neg deep]
      exact .mark (fun child => { child with isSeq := true }) <|
        below.call (fun child => (f.assign child).parent) fun child events =>
          parseLoop handleInclude fuel false rlevel
            { f.assign { child with isSeq := true } with state := .confKey } events
  | .map entries, keyed, rlevel, fuel, f, key, child, more, state, points, found, enough => by
    have read := Frame.deref_child points found
    simp only [YamlNode.events, List.length_cons, List.length_append, List.length_nil] at enough
    have below := parse_entries entries keyed (rlevel + 1) fuel (Frame.start child) more rfl
      (by omega)
    simp only [YamlNode.events, List.cons_append, List.append_assoc, List.nil_append, parseLoop,
      read, enter, YamlNode.load]
    by_cases deep : recursionLimit < rlevel
    · simp [deep, Follows, bind, Except.bind]
    · simp only [if_neg deep]
      exact below.call (fun child => (f.assign child).parent) fun child events =>
        parseLoop handleInclude fuel false rlevel { f.assign child with state := .confKey } events

/-- The items of a sequence. -/
theorem parse_items : ∀ (items : List YamlNode), KeyedItems items → ∀ (rlevel fuel : Nat)
    (f : Frame) (more : List YamlEvent), f.state = .confKey → f.node = none →
    (itemsEvents items).length < fuel →
    Follows (parseLoop handleInclude fuel true rlevel f (itemsEvents items ++ .sequenceEnd :: more))
      (loadItems rlevel items f) id fun node => .ok (node, 0, more)
  | [], _, rlevel, fuel, f, more, state, points, enough => by
    obtain ⟨fuel, rfl⟩ := Nat.exists_eq_add_of_lt enough
    simp [itemsEvents, loadItems, parseLoop, Follows]
  | .scalar v :: rest, keyed, rlevel, fuel, f, more, state, points, enough => by
    simp only [itemsEvents, YamlNode.events, List.length_append, List.length_cons,
      List.length_nil] at enough
    obtain ⟨fuel, rfl⟩ : ∃ n, fuel = n + 1 := ⟨fuel - 1, by omega⟩
    by_cases empty : v = []
    · have later := parse_items rest keyed.2 rlevel fuel f more state points (by omega)
      simpa [itemsEvents, YamlNode.events, loadItems, parseLoop, scalarEvent, empty, state, bind,
        Except.bind] using later
    · have later := parse_items rest keyed.2 rlevel fuel (f.seqScalar v) more state points
        (by omega)
      simpa [itemsEvents, YamlNode.events, loadItems, parseLoop, scalarEvent, empty, bind,
        Except.bind] using later
  | .map entries :: rest, keyed, rlevel, fuel, f, more, state, points, enough => by
    simp only [itemsEvents, YamlNode.events, List.length_cons, List.length_append,
      List.length_nil] at enough
    obtain ⟨fuel, rfl⟩ : ∃ n, fuel = n + 1 := ⟨fuel - 1, by omega⟩
    have read : f.deref = .ok f.parent := by simp [Frame.deref, points]
    have below := parse_entries entries keyed.1 (rlevel + 1) fuel
      (Frame.start (f.seqMapping f.parent).2) (itemsEvents rest ++ .sequenceEnd :: more) rfl
      (by omega)
    have start : (Frame.start (f.seqMapping f.parent).2).parent = (f.seqMapping f.parent).2 := rfl
    rw [start] at below
    simp only [itemsEvents, YamlNode.events, List.cons_append, List.append_assoc, List.nil_append,
      parseLoop, read, enter, loadItems, bind, Except.bind, if_true]
    by_cases deep : recursionLimit < rlevel
    · simp [deep, Follows, Frame.assign, points, Frame.nextSeq]
    · simp only [if_neg deep]
      -- the frame that the rest is loaded into
      let next : GpConfNode → Frame := fun seqNode =>
        { f with parent := (f.seqMapping f.parent).1.modifyChild f.seqName fun _ => seqNode }.nextSeq
      have called := below.call (fun seqNode => (next seqNode).parent) fun seqNode events =>
        parseLoop handleInclude fuel true rlevel (next seqNode) events
      have whole := called.andThen fun seqNode =>
        parse_items rest keyed.2 rlevel fuel (next seqNode) more state points (by omega)
      cases f
      cases state
      cases points
      exact whole
  | .seq items :: rest, keyed, rlevel, fuel, f, more, state, points, enough => by
    simp only [itemsEvents, YamlNode.events, List.length_cons, List.length_append,
      List.length_nil] at enough
    obtain ⟨fuel, rfl⟩ : ∃ n, fuel = n + 1 := ⟨fuel - 1, by omega⟩
    have read : f.deref = .ok f.parent := by simp [Frame.deref, points]
    have below := parse_items items keyed.1 (rlevel + 1) fuel (Frame.start f.parent)
      (itemsEvents rest ++ .sequenceEnd :: more) rfl rfl (by omega)
    simp only [itemsEvents, YamlNode.events, List.cons_append, List.append_assoc, List.nil_append,
      parseLoop, read, enter, loadItems, bind, Except.bind]
    by_cases deep : recursionLimit < rlevel
    · simp [deep, Follows, Frame.assign, points]
    · simp only [if_neg deep]
      let next : GpConfNode → Frame := fun node => { f with parent := { node with isSeq := true } }
      have called := below.call id fun node events =>
        parseLoop handleInclude fuel true rlevel (next node) events
      have whole := called.andThen fun node =>
        parse_items rest keyed.2 rlevel fuel (next node) more state points (by omega)
      cases f
      cases state
      cases points
      exact whole

/-- The keys of a mapping. -/
theorem parse_entries : ∀ (entries : List (CStr × YamlNode)), KeyedEntries entries →
    ∀ (rlevel fuel : Nat) (f : Frame) (more : List YamlEvent), f.state = .confKey →
    (entriesEvents entries).length < fuel →
    Follows
      (parseLoop handleInclude fuel false rlevel f (entriesEvents entries ++ .mappingEnd :: more))
      (loadEntries rlevel entries f.parent) id fun node => .ok (node, 0, more)
  | [], _, rlevel, fuel, f, more, state, enough => by
    obtain ⟨fuel, rfl⟩ := Nat.exists_eq_add_of_lt enough
    simp [entriesEvents, loadEntries, parseLoop, Follows]
  | (key, value) :: rest, keyed, rlevel, fuel, f, more, state, enough => by
    obtain ⟨nonEmpty, _, noInclude, _, keyedValue, keyedRest⟩ := keyed
    have some_ : 0 < value.events.length := by cases value <;> simp [YamlNode.events]
    simp only [entriesEvents, List.length_cons, List.length_append] at enough
    obtain ⟨fuel, rfl⟩ : ∃ n, fuel = n + 2 := ⟨fuel - 2, by omega⟩
    have found := lookup_addKey f.parent key
    have here := YamlNode.parse value keyedValue rlevel fuel
      ⟨f.parent.addKey key, some key, .confVal, f.seqIdx⟩ key _
      (entriesEvents rest ++ .mappingEnd :: more) rfl rfl found (by omega)
    rw [entriesEvents, List.cons_append, List.append_assoc, parseLoop]
    simp only [scalarEvent, state, nonEmpty, noInclude, loadEntries, found, bind, Except.bind,
      Frame.keyScalar_eq, and_false, if_false, if_true, Bool.false_eq_true]
    exact here.andThen fun child => parse_entries rest keyedRest rlevel fuel
      ⟨(f.parent.addKey key).modifyChild key fun _ => child, some key, .confKey, f.seqIdx⟩
      more rfl (by omega)

end

/-- A whole document, in a call on `node`; its root is no scalar. -/
theorem YamlNode.parse_document {root : YamlNode} (keyed : root.Keyed)
    (collection : ∀ v, root ≠ .scalar v) (node : GpConfNode) :
    Follows (gpConfYamlParse handleInclude node false 0 root.document)
      (root.load 1 node) id fun node => .ok (node, 0, []) := by
  have read : (Frame.start node).deref = .ok node := rfl
  have levels : ¬ recursionLimit < 0 ∧ ¬ recursionLimit < 1 := by simp [recursionLimit]
  cases root with
  | scalar v => exact absurd rfl (collection v)
  | seq items =>
      have below := parse_items handleInclude items keyed 2 ((itemsEvents items).length + 4)
        (Frame.start node) [.documentEnd, .streamEnd] rfl rfl (by omega)
      have rounds : (YamlNode.seq items).document.length + 1 =
          (itemsEvents items).length + 4 + 3 := by
        simp [YamlNode.document, YamlNode.events]
      rw [gpConfYamlParse, enter, if_neg levels.1, rounds]
      simp only [YamlNode.document, YamlNode.events, List.cons_append, List.nil_append,
        List.append_assoc, parseLoop, read, enter, levels.2, if_true, if_false, YamlNode.load]
      exact .mark (fun node => { node with isSeq := true }) <|
        below.call id fun node events => parseLoop handleInclude ((itemsEvents items).length + 4)
          false 1 (Frame.start { node with isSeq := true }) events
  | map entries =>
      have below := parse_entries handleInclude entries keyed 2 ((entriesEvents entries).length + 4)
        (Frame.start node) [.documentEnd, .streamEnd] rfl (by omega)
      have start : (Frame.start node).parent = node := rfl
      rw [start] at below
      have rounds : (YamlNode.map entries).document.length + 1 =
          (entriesEvents entries).length + 4 + 3 := by
        simp [YamlNode.document, YamlNode.events]
      rw [gpConfYamlParse, enter, if_neg levels.1, rounds]
      simp only [YamlNode.document, YamlNode.events, List.cons_append, List.nil_append,
        List.append_assoc, parseLoop, read, enter, levels.2, if_true, if_false, YamlNode.load]
      exact below.call id fun node events => parseLoop handleInclude
        ((entriesEvents entries).length + 4) false 1 (Frame.start node) events

end Loop

end GpBase.Conf

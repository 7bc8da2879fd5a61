import GpBase.Conf.Values

/-!
# Documents

A document of mappings, scalars and sequences, the events that libyaml delivers for
it, and what the loader makes of it. A document is a value without nested sequences
and empty items, so the loop follows it as it follows values.
-/

namespace GpBase.Conf

open GpBase.Lib GpConfNode

mutual

/-- What a key can have as its value. -/
inductive YamlValue
  | scalar (v : CStr)
  | seq (items : YamlItems)
  | map (entries : YamlEntries)

/-- The items of a sequence: scalars and mappings. -/
inductive YamlItems
  | nil
  | scalar (v : CStr) (rest : YamlItems)
  | map (entries : YamlEntries) (rest : YamlItems)

/-- The keys of a mapping, with their values. -/
inductive YamlEntries
  | nil
  | cons (key : CStr) (value : YamlValue) (rest : YamlEntries)

end

/-! ## Events -/

mutual

def YamlValue.events : YamlValue → List YamlEvent
  | .scalar v => [.scalar v none]
  | .seq items => .sequenceStart :: (items.events ++ [.sequenceEnd])
  | .map entries => .mappingStart :: (entries.events ++ [.mappingEnd])

def YamlItems.events : YamlItems → List YamlEvent
  | .nil => []
  | .scalar v rest => .scalar v none :: rest.events
  | .map entries rest => .mappingStart :: (entries.events ++ [.mappingEnd]) ++ rest.events

def YamlEntries.events : YamlEntries → List YamlEvent
  | .nil => []
  | .cons key value rest => .scalar key none :: (value.events ++ rest.events)

end

/-- A `%YAML 1.1` document with a mapping at its root. -/
def YamlEntries.document (entries : YamlEntries) : List YamlEvent :=
  [.streamStart, .documentStart (some (1, 1))] ++ (YamlValue.map entries).events ++
    [.documentEnd, .streamEnd]

def YamlEntries.keys : YamlEntries → List CStr
  | .nil => []
  | .cons key _ rest => key :: rest.keys

mutual

/-- Distinct keys that are not empty and not `include`, items that are not empty, and no NUL
in a text: the loader reads texts as C strings. -/
def YamlValue.Plain : YamlValue → Prop
  | .scalar v => 0 ∉ v
  | .seq items => items.Plain
  | .map entries => entries.Plain

def YamlItems.Plain : YamlItems → Prop
  | .nil => True
  | .scalar v rest => (v ≠ [] ∧ 0 ∉ v) ∧ rest.Plain
  | .map entries rest => entries.Plain ∧ rest.Plain

def YamlEntries.Plain : YamlEntries → Prop
  | .nil => True
  | .cons key value rest =>
    key ≠ [] ∧ 0 ∉ key ∧ key ≠ ascii "include" ∧ key ∉ rest.keys ∧ value.Plain ∧ rest.Plain

end

/-! ## Loading -/

mutual

/-- The loader at the node of a value; `false` if it fails. -/
def YamlValue.load (rlevel : Nat) : YamlValue → GpConfNode → GpConfNode × Bool
  | .scalar v, node => (if node.final then node else { node with val := some v }, true)
  | .seq items, node =>
    if recursionLimit < rlevel then (node, false)
    else
      let (node, ok) := items.load (rlevel + 1) (Frame.start node)
      (if ok then { node with isSeq := true } else node, ok)
  | .map entries, node =>
    if recursionLimit < rlevel then (node, false) else entries.load (rlevel + 1) node

/-- The items of a sequence, from the frame of its call on. -/
def YamlItems.load (rlevel : Nat) : YamlItems → Frame → GpConfNode × Bool
  | .nil, f => (f.parent, true)
  | .scalar v rest, f => rest.load rlevel (f.seqScalar v)
  | .map entries rest, f =>
    let (node, seqNode) := f.seqMapping f.parent
    let (seqNode, ok) :=
      if recursionLimit < rlevel then (seqNode, false) else entries.load (rlevel + 1) seqNode
    let f := { f with parent := node.modifyChild f.seqName fun _ => seqNode }.nextSeq
    if ok then rest.load rlevel f else (f.parent, false)

def YamlEntries.load (rlevel : Nat) : YamlEntries → GpConfNode → GpConfNode × Bool
  | .nil, node => (node, true)
  | .cons key value rest, node =>
    let node := node.addKey key
    match node.gpConfNodeLookupChild key with
    | none => (node, false)
    | some child =>
      let (child, ok) := value.load rlevel child
      let node := node.modifyChild key fun _ => child
      if ok then rest.load rlevel node else (node, false)

end

/-! ## Documents are values -/

mutual

/-- The same value, among those whose sequences may hold sequences. -/
def YamlValue.node : YamlValue → YamlNode
  | .scalar v => .scalar v
  | .seq items => .seq items.nodes
  | .map entries => .map entries.nodes

def YamlItems.nodes : YamlItems → List YamlNode
  | .nil => []
  | .scalar v rest => .scalar v :: rest.nodes
  | .map entries rest => .map entries.nodes :: rest.nodes

def YamlEntries.nodes : YamlEntries → List (CStr × YamlNode)
  | .nil => []
  | .cons key value rest => (key, value.node) :: rest.nodes

end

mutual

theorem YamlValue.events_node : ∀ (value : YamlValue), value.node.events = value.events
  | .scalar v => rfl
  | .seq items => by
    rw [YamlValue.node, YamlNode.events, YamlItems.events_nodes items, YamlValue.events]
  | .map entries => by
    rw [YamlValue.node, YamlNode.events, YamlEntries.events_nodes entries, YamlValue.events]

theorem YamlItems.events_nodes : ∀ (items : YamlItems), itemsEvents items.nodes = items.events
  | .nil => rfl
  | .scalar v rest => by
    rw [YamlItems.nodes, itemsEvents, YamlItems.events_nodes rest, YamlItems.events]
    rfl
  | .map entries rest => by
    rw [YamlItems.nodes, itemsEvents, YamlNode.events, YamlEntries.events_nodes entries,
      YamlItems.events_nodes rest, YamlItems.events]

theorem YamlEntries.events_nodes : ∀ (entries : YamlEntries),
    entriesEvents entries.nodes = entries.events
  | .nil => rfl
  | .cons key value rest => by
    rw [YamlEntries.nodes, entriesEvents, YamlValue.events_node value,
      YamlEntries.events_nodes rest, YamlEntries.events]

end

theorem YamlEntries.keys_nodes (entries : YamlEntries) :
    entries.nodes.map (·.1) = entries.keys := by
  match entries with
  | .nil => rfl
  | .cons key value rest =>
    rw [YamlEntries.nodes, List.map_cons, YamlEntries.keys_nodes rest, YamlEntries.keys]

mutual

theorem YamlValue.keyed_node : ∀ (value : YamlValue), value.Plain → value.node.Keyed
  | .scalar _, plain => plain
  | .seq items, plain => YamlItems.keyed_nodes items plain
  | .map entries, plain => YamlEntries.keyed_nodes entries plain

theorem YamlItems.keyed_nodes : ∀ (items : YamlItems), items.Plain → KeyedItems items.nodes
  | .nil, _ => trivial
  | .scalar _ rest, plain => ⟨plain.1.2, YamlItems.keyed_nodes rest plain.2⟩
  | .map entries rest, plain =>
    ⟨YamlEntries.keyed_nodes entries plain.1, YamlItems.keyed_nodes rest plain.2⟩

theorem YamlEntries.keyed_nodes : ∀ (entries : YamlEntries), entries.Plain →
    KeyedEntries entries.nodes
  | .nil, _ => trivial
  | .cons key value rest, plain => by
    obtain ⟨nonEmpty, clean, noInclude, notAgain, plainValue, plainRest⟩ := plain
    refine ⟨nonEmpty, clean, noInclude, ?_, YamlValue.keyed_node value plainValue,
      YamlEntries.keyed_nodes rest plainRest⟩
    rw [YamlEntries.keys_nodes]
    exact notAgain

end

mutual

theorem YamlValue.load_node : ∀ (value : YamlValue), value.Plain → ∀ (rlevel : Nat)
    (n : GpConfNode), value.node.load rlevel n = value.load rlevel n
  | .scalar v, _, rlevel, n => rfl
  | .seq items, plain, rlevel, n => by
    rw [YamlValue.node, YamlNode.load, YamlItems.load_nodes items plain, YamlValue.load]
  | .map entries, plain, rlevel, n => by
    rw [YamlValue.node, YamlNode.load, YamlEntries.load_nodes entries plain, YamlValue.load]

theorem YamlItems.load_nodes : ∀ (items : YamlItems), items.Plain → ∀ (rlevel : Nat) (f : Frame),
    loadItems rlevel items.nodes f = items.load rlevel f
  | .nil, _, rlevel, f => rfl
  | .scalar v rest, plain, rlevel, f => by
    rw [YamlItems.nodes, loadItems, if_neg plain.1.1, YamlItems.load_nodes rest plain.2,
      YamlItems.load]
  | .map entries rest, plain, rlevel, f => by
    simp only [YamlItems.nodes, loadItems, YamlEntries.load_nodes entries plain.1,
      YamlItems.load_nodes rest plain.2, YamlItems.load]

theorem YamlEntries.load_nodes : ∀ (entries : YamlEntries), entries.Plain → ∀ (rlevel : Nat)
    (n : GpConfNode), loadEntries rlevel entries.nodes n = entries.load rlevel n
  | .nil, _, rlevel, n => rfl
  | .cons key value rest, plain, rlevel, n => by
    obtain ⟨_, _, _, _, plainValue, plainRest⟩ := plain
    simp only [YamlEntries.nodes, loadEntries, lookup_addKey, YamlEntries.load,
      YamlValue.load_node value plainValue, YamlEntries.load_nodes rest plainRest]

end

/-- A whole document, in a call on `node`. -/
theorem YamlEntries.parse_document (handleInclude : Include) {entries : YamlEntries}
    (plain : entries.Plain) (node : GpConfNode) :
    Follows (gpConfYamlParse handleInclude node false 0 entries.document)
      (entries.load 2 node) id fun node => .ok (node, 0, []) := by
  have parsed := YamlNode.parse_document handleInclude
    (YamlValue.keyed_node (.map entries) plain) (by intro v h; cases h) node
  have loaded : ((YamlValue.map entries).node).load 1 node = entries.load 2 node := by
    rw [YamlValue.load_node (.map entries) plain, YamlValue.load, if_neg (by decide)]
  rwa [YamlNode.document, YamlValue.events_node, loaded] at parsed

/-- Loading a document from a string loads it into the root; its return value tells
whether all of it has been loaded. -/
theorem loadString_document (s : ConfStore) (fuel : Nat) (files : Files) {entries : YamlEntries}
    (plain : entries.Plain) :
    s.gpConfYamlLoadString fuel files entries.document =
      .ok ({ s with root := (entries.load 2 s.root).1 },
        if (entries.load 2 s.root).2 then 0 else -1) := by
  have parsed := YamlEntries.parse_document
    (gpConfYamlHandleInclude files s.confDirname fuel 0) plain s.root
  unfold ConfStore.gpConfYamlLoadString ConfStore.parseAt
  cases result : entries.load 2 s.root with
  | mk node ok =>
      rw [result] at parsed
      cases ok with
      | true =>
          simp only [Follows] at parsed
          simp [nodeAt, parsed, modifyAt, bind, Except.bind, pure, Except.pure]
      | false =>
          obtain ⟨left, parsed⟩ := parsed
          simp [nodeAt, parsed, modifyAt, bind, Except.bind, pure, Except.pure]

end GpBase.Conf

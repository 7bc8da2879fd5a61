import GpBase.Conf.Document

/-!
# A load yields the tree of its document

Loading into the empty tree: keys become children in document order, a scalar the
value of its node, a sequence a node with `is_seq` and the children `0`, `1`, …, and a
mapping in a sequence carries its first key as its value.
-/

namespace GpBase.Conf

open GpBase.Lib GpConfNode

/-! ## The tree of a document -/

/-- The name of an item. -/
def itemName (i : Nat) : CStr := ascii (toString i)

def YamlEntries.firstKey : YamlEntries → Option CStr
  | .nil => none
  | .cons key _ _ => some key

mutual

def YamlValue.tree (name : CStr) : YamlValue → GpConfNode
  | .scalar v => ⟨some name, some v, false, false, false, []⟩
  | .seq items => ⟨some name, none, true, false, false, items.trees 0⟩
  | .map entries => ⟨some name, none, false, false, false, entries.trees⟩

/-- The children for the items from index `i` on. -/
def YamlItems.trees (i : Nat) : YamlItems → List GpConfNode
  | .nil => []
  | .scalar v rest =>
    ⟨some (itemName i), some v, false, false, false, []⟩ :: rest.trees (i + 1)
  | .map entries rest =>
    ⟨some (itemName i), entries.firstKey, true, false, false, entries.trees⟩ :: rest.trees (i + 1)

def YamlEntries.trees : YamlEntries → List GpConfNode
  | .nil => []
  | .cons key value rest => value.tree key :: rest.trees

end

mutual

/-- The scalar at a path. -/
def YamlValue.scalarAt : YamlValue → List CStr → Option CStr
  | .scalar v, path => if path = [] then some v else none
  | .seq items, path => items.scalarAt 0 path
  | .map entries, path => entries.scalarAt path

def YamlItems.scalarAt (i : Nat) : YamlItems → List CStr → Option CStr
  | .nil, _ => none
  | .scalar v rest, path =>
    if path.head? = some (itemName i) then (if path.tail = [] then some v else none)
    else rest.scalarAt (i + 1) path
  | .map entries rest, path =>
    if path.head? = some (itemName i) then entries.scalarAt path.tail
    else rest.scalarAt (i + 1) path

def YamlEntries.scalarAt : YamlEntries → List CStr → Option CStr
  | .nil, _ => none
  | .cons key value rest, path =>
    if path.head? = some key then value.scalarAt path.tail else rest.scalarAt path

end

/-! ## Limits -/

mutual

/-- How deep mappings and sequences nest. -/
def YamlValue.depth : YamlValue → Nat
  | .scalar _ => 0
  | .seq items => items.depth + 1
  | .map entries => entries.depth + 1

def YamlItems.depth : YamlItems → Nat
  | .nil => 0
  | .scalar _ rest => rest.depth
  | .map entries rest => max (entries.depth + 1) rest.depth

def YamlEntries.depth : YamlEntries → Nat
  | .nil => 0
  | .cons _ value rest => max value.depth rest.depth

end

def YamlItems.length : YamlItems → Nat
  | .nil => 0
  | .scalar _ rest => rest.length + 1
  | .map _ rest => rest.length + 1

mutual

/-- The index of every item fits into an `int`. -/
def YamlValue.Indexed : YamlValue → Prop
  | .scalar _ => True
  | .seq items => items.length ≤ 2 ^ 31 ∧ items.Indexed
  | .map entries => entries.Indexed

def YamlItems.Indexed : YamlItems → Prop
  | .nil => True
  | .scalar _ rest => rest.Indexed
  | .map entries rest => entries.Indexed ∧ rest.Indexed

def YamlEntries.Indexed : YamlEntries → Prop
  | .nil => True
  | .cons _ value rest => value.Indexed ∧ rest.Indexed

end

/-! ## Names of items -/

section Names

theorem itemName_eq (i : Nat) :
    itemName i = (Nat.toDigits 10 i).map fun c => UInt8.ofNat c.toNat := by
  simp [itemName, ascii]

theorem digit_toNat {i : Nat} {c : Char} (mem : c ∈ Nat.toDigits 10 i) :
    48 ≤ c.toNat ∧ c.toNat ≤ 57 := by
  have digit := Nat.isDigit_of_mem_toDigits (by omega) (by omega) mem
  simp only [Char.isDigit, Bool.and_eq_true, decide_eq_true_eq] at digit
  exact ⟨UInt32.le_iff_toNat_le.mp digit.1, UInt32.le_iff_toNat_le.mp digit.2⟩

/-- The digits can be read back. -/
theorem digits_of_itemName (i : Nat) :
    (itemName i).map (fun b => Char.ofNat b.toNat) = Nat.toDigits 10 i := by
  rw [itemName_eq, List.map_map]
  refine (List.map_congr_left ?_).trans (List.map_id _)
  intro c mem
  have range := digit_toNat mem
  have byte : (UInt8.ofNat c.toNat).toNat = c.toNat := by
    rw [UInt8.toNat_ofNat']
    omega
  simp [byte]

theorem itemName_injective : Function.Injective itemName := by
  intro i j same
  have digits := congrArg (List.map fun b => Char.ofNat b.toNat) same
  rw [digits_of_itemName, digits_of_itemName] at digits
  have value := congrArg (fun l => Nat.ofDigitChars 10 l 0) digits
  simpa using value

theorem seqName_eq {f : Frame} {i : Nat} (index : f.seqIdx = int32 i) (small : i < 2 ^ 31) :
    f.seqName = itemName i := by
  rw [Frame.seqName, index, int32_of_range (by omega) (by omega)]
  rfl

theorem nextSeq_eq {f : Frame} {i : Nat} (index : f.seqIdx = int32 i) :
    int32 (f.seqIdx + 1) = int32 ((i + 1 : Nat) : Int) := by
  rw [index, int32, int32, Int.bmod_add_bmod]
  rfl

end Names

/-! ## Loading into fresh nodes -/

theorem tree_name (value : YamlValue) (name : CStr) : (value.tree name).name = some name := by
  cases value <;> rfl

mutual

theorem YamlValue.load_fresh : ∀ (value : YamlValue), value.Plain → value.Indexed →
    ∀ (rlevel : Nat) (name : CStr), rlevel + value.depth ≤ recursionLimit + 1 →
      value.load rlevel { gpConfNodeNew with name := some name } = (value.tree name, true)
  | .scalar v, _, _, rlevel, name, _ => rfl
  | .seq items, plain, indexed, rlevel, name, shallow => by
    rw [YamlValue.depth] at shallow
    have below := YamlItems.load_fresh items plain indexed.2 (rlevel + 1) 0
      (Frame.start { gpConfNodeNew with name := some name }) rfl indexed.1 (by omega)
      (fun _ _ => rfl)
    rw [YamlValue.load, if_neg (by omega), below]
    rfl
  | .map entries, plain, indexed, rlevel, name, shallow => by
    rw [YamlValue.depth] at shallow
    have below := YamlEntries.load_fresh entries plain indexed (rlevel + 1)
      { gpConfNodeNew with name := some name } (by omega) (fun _ _ => rfl)
    rw [YamlValue.load, if_neg (by omega), below]
    rfl

/-- The items from index `i` on, none of whose names is taken. -/
theorem YamlItems.load_fresh : ∀ (items : YamlItems), items.Plain → items.Indexed →
    ∀ (rlevel i : Nat) (f : Frame), f.seqIdx = int32 i → items.length + i ≤ 2 ^ 31 →
      rlevel + items.depth ≤ recursionLimit + 1 →
      (∀ j ≥ i, f.parent.gpConfNodeLookupChild (itemName j) = none) →
      items.load rlevel f =
        ({ f.parent with children := f.parent.children ++ items.trees i }, true)
  | .nil, _, _, rlevel, i, f, _, _, _, _ => by
    obtain ⟨parent, _, _, _⟩ := f
    cases parent
    simp [YamlItems.load, YamlItems.trees]
  | .scalar v rest, plain, indexed, rlevel, i, f, index, few, shallow, fresh => by
    rw [YamlItems.length] at few
    rw [YamlItems.depth] at shallow
    have name := seqName_eq index (by omega)
    have missing := fresh i (Nat.le_refl i)
    have added : f.seqScalar v =
        ⟨f.parent.insertTail { gpConfNodeNew with name := some (itemName i), val := some v },
          f.node, f.state, int32 (f.seqIdx + 1)⟩ := by
      simp only [Frame.seqScalar, name, missing, Frame.nextSeq]
    have later := YamlItems.load_fresh rest plain.2 indexed rlevel (i + 1) (f.seqScalar v)
      (by rw [added]; exact nextSeq_eq index) (by omega) shallow
      (by
        intro j behind
        have apart : itemName j ≠ itemName i := fun same => by
          have := itemName_injective same
          omega
        simp [added, lookup_insertTail, fresh j (by omega), apart])
    rw [YamlItems.load, later, added]
    simp [YamlItems.trees, GpConfNode.insertTail, gpConfNodeNew]
  | .map entries rest, plain, indexed, rlevel, i, f, index, few, shallow, fresh => by
    rw [YamlItems.length] at few
    rw [YamlItems.depth] at shallow
    have name := seqName_eq index (by omega)
    have missing := fresh i (Nat.le_refl i)
    -- a mapping as an item: a node named by its index is made for it first
    let seqNode : GpConfNode := { gpConfNodeNew with name := some (itemName i), isSeq := true }
    have made : f.seqMapping f.parent = (f.parent.insertTail seqNode, seqNode) := by
      simp only [Frame.seqMapping, name, missing]
      rfl
    have below := YamlEntries.load_fresh entries plain.1 indexed.1 (rlevel + 1) seqNode (by omega)
      (fun _ _ => rfl)
    let item : GpConfNode :=
      ⟨some (itemName i), entries.firstKey, true, false, false, entries.trees⟩
    have loaded : entries.load (rlevel + 1) seqNode = (item, true) := by
      rw [below]
      rfl
    have later := YamlItems.load_fresh rest plain.2 indexed.2 rlevel (i + 1)
      { f with parent := f.parent.insertTail item }.nextSeq (nextSeq_eq index) (by omega) (by omega)
      (by
        intro j behind
        have apart : itemName j ≠ itemName i := fun same => by
          have := itemName_injective same
          omega
        simp [Frame.nextSeq, lookup_insertTail (show item.name = some (itemName i) from rfl),
          fresh j (by omega), apart])
    have level : ¬ recursionLimit < rlevel := by omega
    have put : (f.parent.insertTail seqNode).modifyChild (itemName i) (fun _ => item) =
        f.parent.insertTail item := modifyChild_insertTail missing rfl
    rw [YamlItems.load, made]
    simp only [level, if_false, loaded, name, put, if_true, later]
    simp [YamlItems.trees, Frame.nextSeq, GpConfNode.insertTail, item]

/-- Keys that are not taken. -/
theorem YamlEntries.load_fresh : ∀ (entries : YamlEntries), entries.Plain → entries.Indexed →
    ∀ (rlevel : Nat) (n : GpConfNode), rlevel + entries.depth ≤ recursionLimit + 1 →
      (∀ key ∈ entries.keys, n.gpConfNodeLookupChild key = none) →
      entries.load rlevel n =
        ({ n with
            val := if n.isSeq && n.val.isNone then entries.firstKey else n.val
            children := n.children ++ entries.trees }, true)
  | .nil, _, _, rlevel, n, _, _ => by
    obtain ⟨_, val, isSeq, _, _, _⟩ := n
    cases isSeq <;> cases val <;> simp [YamlEntries.load, YamlEntries.trees, YamlEntries.firstKey]
  | .cons key value rest, plain, indexed, rlevel, n, shallow, fresh => by
    obtain ⟨_, _, _, notAgain, plainValue, plainRest⟩ := plain
    rw [YamlEntries.depth] at shallow
    have missing := fresh key List.mem_cons_self
    have here := YamlValue.load_fresh value plainValue indexed.1 rlevel key (by omega)
    let m : GpConfNode := { n with val := n.valWith key }
    -- the key is new, so its node goes to the tail and is filled there
    have added : n.addKey key = m.insertTail { gpConfNodeNew with name := some key } := by
      rw [addKey_eq, missing]
    have unused : m.gpConfNodeLookupChild key = none := missing
    have later := YamlEntries.load_fresh rest plainRest indexed.2 rlevel
      (m.insertTail (value.tree key)) (by omega)
      (by
        intro k mem
        have apart : k ≠ key := fun same => notAgain (same ▸ mem)
        have free : m.gpConfNodeLookupChild k = none := fresh k (List.mem_cons_of_mem key mem)
        simp [lookup_insertTail (tree_name value key), free, apart])
    have found := lookup_addKey n key
    rw [missing] at found
    simp only [YamlEntries.load, found, entered, here, if_true]
    rw [added, modifyChild_insertTail unused rfl, later]
    obtain ⟨_, val, isSeq, _, _, _⟩ := n
    cases isSeq <;> cases val <;>
      simp [m, GpConfNode.insertTail, valWith, YamlEntries.trees, YamlEntries.firstKey]

end

/-! ## Scalars and their paths -/

/-- `path` leads through a child of `l` to the value `v`. -/
def Reaches (l : List GpConfNode) (path : List CStr) (v : CStr) : Prop :=
  ∃ key keys c m, path = key :: keys ∧ l.find? (hasName · key) = some c ∧
    c.nodeAt keys = some m ∧ m.val = some v

theorem Reaches.nodeAt {n : GpConfNode} {path : List CStr} {v : CStr}
    (reaches : Reaches n.children path v) : ∃ m, n.nodeAt path = some m ∧ m.val = some v := by
  obtain ⟨key, keys, c, m, rfl, found, below, value⟩ := reaches
  refine ⟨m, ?_, value⟩
  rw [GpConfNode.nodeAt, gpConfNodeLookupChild, found]
  exact below

theorem Reaches.head {l : List GpConfNode} {c m : GpConfNode} {key v : CStr} {path : List CStr}
    (first : path.head? = some key) (named : c.name = some key)
    (below : c.nodeAt path.tail = some m) (value : m.val = some v) : Reaches (c :: l) path v := by
  cases path with
  | nil => simp at first
  | cons key' keys =>
      simp only [List.head?_cons, Option.some.injEq] at first
      subst first
      exact ⟨key', keys, c, m, rfl, by simp [hasName, named], below, value⟩

theorem Reaches.behind {l : List GpConfNode} {c : GpConfNode} {key v : CStr} {path : List CStr}
    (apart : path.head? ≠ some key) (named : c.name = some key) (reaches : Reaches l path v) :
    Reaches (c :: l) path v := by
  obtain ⟨key', keys, d, m, rfl, found, below, value⟩ := reaches
  simp only [List.head?_cons, ne_eq, Option.some.injEq] at apart
  refine ⟨key', keys, d, m, rfl, ?_, below, value⟩
  have passed : hasName c key' = false := by simp [hasName, named, Ne.symm apart]
  rw [List.find?_cons_of_neg (by simp [passed]), found]

mutual

theorem YamlValue.reaches : ∀ (value : YamlValue) (name : CStr) (path : List CStr) (v : CStr),
    value.scalarAt path = some v → ∃ m, (value.tree name).nodeAt path = some m ∧ m.val = some v
  | .scalar w, name, path, v, found => by
    simp only [YamlValue.scalarAt] at found
    split at found
    · rename_i here
      subst here
      exact ⟨_, rfl, found⟩
    · cases found
  | .seq items, name, path, v, found => (YamlItems.reaches items 0 path v found).nodeAt
  | .map entries, name, path, v, found => (YamlEntries.reaches entries path v found).nodeAt

theorem YamlItems.reaches : ∀ (items : YamlItems) (i : Nat) (path : List CStr) (v : CStr),
    items.scalarAt i path = some v → Reaches (items.trees i) path v
  | .nil, i, path, v, found => by cases found
  | .scalar w rest, i, path, v, found => by
    simp only [YamlItems.scalarAt] at found
    split at found
    · rename_i first
      split at found
      · rename_i here
        exact .head first rfl (by rw [here]; rfl) found
      · cases found
    · rename_i apart
      exact .behind apart rfl (YamlItems.reaches rest (i + 1) path v found)
  | .map entries rest, i, path, v, found => by
    simp only [YamlItems.scalarAt] at found
    split at found
    · rename_i first
      let item : GpConfNode :=
        ⟨some (itemName i), entries.firstKey, true, false, false, entries.trees⟩
      have inside : Reaches item.children path.tail v := YamlEntries.reaches entries _ v found
      obtain ⟨m, below, value⟩ := inside.nodeAt
      exact .head first rfl below value
    · rename_i apart
      exact .behind apart rfl (YamlItems.reaches rest (i + 1) path v found)

theorem YamlEntries.reaches : ∀ (entries : YamlEntries) (path : List CStr) (v : CStr),
    entries.scalarAt path = some v → Reaches entries.trees path v
  | .nil, path, v, found => by cases found
  | .cons key value rest, path, v, found => by
    simp only [YamlEntries.scalarAt] at found
    split at found
    · rename_i first
      obtain ⟨m, below, isValue⟩ := YamlValue.reaches value key path.tail v found
      exact .head first (tree_name value key) below isValue
    · rename_i apart
      exact .behind apart (tree_name value key) (YamlEntries.reaches rest path v found)

end

/-! ## The theorem -/

/-- The name that leads along a path. -/
def dotted (path : List CStr) : CStr := [0x2e].intercalate path

theorem components_dotted {path : List CStr} (inside : path ≠ [])
    (undotted : ∀ key ∈ path, (0x2e : UInt8) ∉ key) : components (dotted path) = path :=
  List.splitOn_intercalate 0x2e undotted inside

/-- The tree that `gp_conf_init` makes, after a load of the whole document. -/
theorem load_document {entries : YamlEntries} (plain : entries.Plain) (indexed : entries.Indexed)
    (shallow : (YamlValue.map entries).depth ≤ recursionLimit) (fuel : Nat) (files : Files) :
    gpConfInit.gpConfYamlLoadString fuel files entries.document =
      .ok (⟨{ gpConfNodeNew with children := entries.trees }, none⟩, 0) := by
  rw [YamlValue.depth] at shallow
  have loaded := YamlEntries.load_fresh entries plain indexed 2 gpConfNodeNew (by omega)
    (fun _ _ => rfl)
  rw [loadString_document _ _ _ plain, gpConfInit, loaded]
  rfl

/-- **A load is faithful.** A document of mappings, scalars and sequences, with plain
keys and items, nested at most 128 deep and with at most 2³¹ items in each sequence, is
loaded into the empty tree with return value 0, and gives exactly its tree. Every
scalar is found under its dotted path, if no key on it has a dot and the path is
shorter than the longest name. -/
theorem yaml_load_faithful {entries : YamlEntries} (plain : entries.Plain)
    (indexed : entries.Indexed) (shallow : (YamlValue.map entries).depth ≤ recursionLimit)
    (fuel : Nat) (files : Files) :
    gpConfInit.gpConfYamlLoadString fuel files entries.document =
        .ok (⟨{ gpConfNodeNew with children := entries.trees }, none⟩, 0) ∧
      ∀ path v, entries.scalarAt path = some v → (∀ key ∈ path, (0x2e : UInt8) ∉ key) →
        (dotted path).length < nodeNameMax →
        gpConfGet { gpConfNodeNew with children := entries.trees } (dotted path) =
          some (some v) := by
  refine ⟨load_document plain indexed shallow fuel files, ?_⟩
  intro path v found undotted short
  have reaches := YamlEntries.reaches entries path v found
  have inside : path ≠ [] := by
    obtain ⟨key, keys, c, m, rfl, _⟩ := reaches
    exact List.cons_ne_nil key keys
  obtain ⟨m, there, value⟩ :=
    Reaches.nodeAt (n := { gpConfNodeNew with children := entries.trees }) reaches
  rw [gpConfGet, gpConfGetNode, if_neg (by omega), components_dotted inside undotted, there,
    Option.map_some, value]

/-- `{a: [x, {b: y}]}` -/
def sampleEntries : YamlEntries :=
  .cons (ascii "a") (.seq (.scalar (ascii "x") (.map
    (.cons (ascii "b") (.scalar (ascii "y")) .nil) .nil))) .nil

/-- `y` is found under `a.1.b`. -/
theorem yaml_load_faithful_sample :
    ∃ s, gpConfInit.gpConfYamlLoadString 1 noFiles sampleEntries.document = .ok (s, 0) ∧
      gpConfGet s.root (dotted [ascii "a", itemName 1, ascii "b"]) = some (some (ascii "y")) := by
  have plain : sampleEntries.Plain := by
    simp [sampleEntries, YamlEntries.Plain, YamlValue.Plain, YamlItems.Plain, YamlEntries.keys]
    decide
  have indexed : sampleEntries.Indexed := by
    simp [sampleEntries, YamlEntries.Indexed, YamlValue.Indexed, YamlItems.Indexed,
      YamlItems.length]
  have shallow : (YamlValue.map sampleEntries).depth ≤ recursionLimit := by decide
  obtain ⟨loaded, found⟩ := yaml_load_faithful plain indexed shallow 1 noFiles
  refine ⟨_, loaded, found _ _ (by decide) (by decide) (by decide)⟩

/-- A key as long as the buffer for names. -/
def longKey : CStr := List.replicate nodeNameMax 0x61

/-- The scalar of a key of 1024 bytes is loaded, but cannot be read. -/
theorem long_key_not_found :
    (YamlEntries.cons longKey (.scalar (ascii "v")) .nil).Plain ∧ (0x2e : UInt8) ∉ longKey ∧
    ∃ s, gpConfInit.gpConfYamlLoadString 1 noFiles
        (YamlEntries.cons longKey (.scalar (ascii "v")) .nil).document = .ok (s, 0) ∧
      (YamlEntries.cons longKey (.scalar (ascii "v")) .nil).scalarAt [longKey] =
        some (ascii "v") ∧
      gpConfGet s.root (dotted [longKey]) = none := by
  have long : longKey.length = nodeNameMax := List.length_replicate
  have plain : (YamlEntries.cons longKey (.scalar (ascii "v")) .nil).Plain := by
    refine ⟨?_, ?_, ?_, List.not_mem_nil, show 0 ∉ ascii "v" by decide, trivial⟩
    · intro empty
      simp [empty, nodeNameMax] at long
    · intro nul
      cases List.eq_of_mem_replicate nul
    · intro isInclude
      rw [isInclude] at long
      cases long
  have loaded := load_document plain ⟨trivial, trivial⟩ (Nat.le_of_ble_eq_true rfl) 1 noFiles
  refine ⟨plain, ?_, _, loaded, ?_, ?_⟩
  · intro dot
    cases List.eq_of_mem_replicate dot
  · rw [YamlEntries.scalarAt, if_pos (List.head?_cons), YamlValue.scalarAt, if_pos List.tail_cons]
  · have whole : dotted [longKey] = longKey := List.intercalate_singleton
    rw [gpConfGet, gpConfGetNode, if_pos (by rw [whole, long]), Option.map_none]

end GpBase.Conf

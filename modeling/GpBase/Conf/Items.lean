import GpBase.Conf.Depth
import GpBase.Conf.Faithful

/-!
# Items, one by one

What each kind of item does to the node of its sequence: a scalar and a mapping go to
the child of their index, a sequence is loaded into the node itself. How many levels
a load adds to the children of large index is bounded by the items that reach these.
-/

namespace GpBase.Conf

open GpBase.Lib GpConfNode

/-! ## Items one by one -/

/-- What a sequence loads: its items, and the mark of a sequence. -/
theorem YamlNode.load_seq (items : List YamlNode) (rlevel : Nat) (n : GpConfNode) :
    (YamlNode.seq items).load rlevel n =
      if recursionLimit < rlevel then (n, false)
      else
        ({ (loadItems (rlevel + 1) items (Frame.start n)).1 with
            isSeq := (loadItems (rlevel + 1) items (Frame.start n)).2 ||
              (loadItems (rlevel + 1) items (Frame.start n)).1.isSeq },
          (loadItems (rlevel + 1) items (Frame.start n)).2) := by
  rw [YamlNode.load]
  generalize loadItems (rlevel + 1) items (Frame.start n) = below
  obtain ⟨node, ok⟩ := below
  cases node
  cases ok <;> simp

/-- The frame behind a mapping, whose node has become `item`. -/
def Frame.putMapping (f : Frame) (item : GpConfNode) : Frame :=
  { f with parent := (f.seqMapping f.parent).1.modifyChild f.seqName fun _ => item }.nextSeq

/-- A mapping is loaded into the node of its index. -/
theorem loadItems_map (entries : List (CStr × YamlNode)) (rest : List YamlNode) (rlevel : Nat)
    (f : Frame) :
    loadItems rlevel (.map entries :: rest) f =
      if ((YamlNode.map entries).load rlevel (f.seqMapping f.parent).2).2 then
        loadItems rlevel rest (f.putMapping ((YamlNode.map entries).load rlevel
          (f.seqMapping f.parent).2).1)
      else ((f.putMapping ((YamlNode.map entries).load rlevel (f.seqMapping f.parent).2).1).parent,
        false) := by
  rw [loadItems, YamlNode.load]
  rfl

/-- A sequence is loaded into the node of the sequence around it. -/
theorem loadItems_seq (items rest : List YamlNode) (rlevel : Nat) (f : Frame) :
    loadItems rlevel (.seq items :: rest) f =
      if ((YamlNode.seq items).load rlevel f.parent).2 then
        loadItems rlevel rest { f with parent := ((YamlNode.seq items).load rlevel f.parent).1 }
      else (YamlNode.seq items).load rlevel f.parent := by
  rw [loadItems, YamlNode.load]
  generalize loadItems (rlevel + 1) items (Frame.start f.parent) = below
  obtain ⟨node, ok⟩ := below
  by_cases deep : recursionLimit < rlevel
  · simp [deep]
  · cases ok <;> simp [deep]

/-- The mapping with the node of a key and its value. -/
def YamlNode.put (rlevel : Nat) (n : GpConfNode) (key : CStr) (value : YamlNode) : GpConfNode :=
  (n.addKey key).modifyChild key fun _ =>
    (value.load rlevel (entered (n.gpConfNodeLookupChild key) key)).1

theorem loadEntries_cons (rlevel : Nat) (n : GpConfNode) (key : CStr) (value : YamlNode)
    (rest : List (CStr × YamlNode)) :
    loadEntries rlevel ((key, value) :: rest) n =
      if (value.load rlevel (entered (n.gpConfNodeLookupChild key) key)).2 then
        loadEntries rlevel rest (value.put rlevel n key)
      else (value.put rlevel n key, false) := by
  simp only [loadEntries, lookup_addKey]
  rfl

/-! ## Names -/

@[simp] theorem addKey_name (n : GpConfNode) (key : CStr) : (n.addKey key).name = n.name := by
  rw [addKey_eq]
  split
  · split <;> rfl
  · rfl

@[simp] theorem seqScalar_name (f : Frame) (v : CStr) :
    (f.seqScalar v).parent.name = f.parent.name := by
  unfold Frame.seqScalar
  cases f.parent.gpConfNodeLookupChild f.seqName <;> rfl

@[simp] theorem seqMapping_name (f : Frame) (n : GpConfNode) : (f.seqMapping n).1.name = n.name := by
  unfold Frame.seqMapping
  cases n.gpConfNodeLookupChild f.seqName <;> rfl

/-- The node of a mapping is named by its index. -/
theorem seqMapping_named (f : Frame) (n : GpConfNode) :
    (f.seqMapping n).2.name = some f.seqName := by
  unfold Frame.seqMapping
  cases found : n.gpConfNodeLookupChild f.seqName with
  | none => rfl
  | some seqNode => exact (lookup_name found : seqNode.name = _)

theorem loadEntries_name (entries : List (CStr × YamlNode)) (rlevel : Nat) (n : GpConfNode) :
    (loadEntries rlevel entries n).1.name = n.name := by
  induction entries generalizing n with
  | nil => rfl
  | cons entry rest ih =>
      obtain ⟨key, value⟩ := entry
      rw [loadEntries_cons]
      split
      · rw [ih]
        exact addKey_name n key
      · exact addKey_name n key

mutual

theorem YamlNode.load_name : ∀ (value : YamlNode) (rlevel : Nat) (n : GpConfNode),
    (value.load rlevel n).1.name = n.name
  | .scalar v, rlevel, n => by
    rw [YamlNode.load]
    split <;> rfl
  | .seq items, rlevel, n => by
    rw [YamlNode.load_seq]
    split
    · rfl
    · exact loadItems_name items (rlevel + 1) (Frame.start n)
  | .map entries, rlevel, n => by
    rw [YamlNode.load]
    split
    · rfl
    · exact loadEntries_name entries (rlevel + 1) n

theorem loadItems_name : ∀ (items : List YamlNode) (rlevel : Nat) (f : Frame),
    (loadItems rlevel items f).1.name = f.parent.name
  | [], rlevel, f => rfl
  | .scalar v :: rest, rlevel, f => by
    rw [loadItems, loadItems_name rest]
    split
    · rfl
    · exact seqScalar_name f v
  | .map entries :: rest, rlevel, f => by
    rw [loadItems_map]
    split
    · rw [loadItems_name rest]
      exact seqMapping_name f f.parent
    · exact seqMapping_name f f.parent
  | .seq items :: rest, rlevel, f => by
    have below := YamlNode.load_name (.seq items) rlevel f.parent
    rw [loadItems_seq]
    split
    · rw [loadItems_name rest]
      exact below
    · exact below

end

/-! ## Keys -/

section Keys

variable {n : GpConfNode} {key other : CStr}

theorem YamlNode.lookup_put (rlevel : Nat) (n : GpConfNode) (key : CStr) (value : YamlNode) :
    (value.put rlevel n key).gpConfNodeLookupChild key =
      some (value.load rlevel (entered (n.gpConfNodeLookupChild key) key)).1 :=
  lookup_modifyChild (lookup_addKey n key) (value.load_name rlevel _)

theorem YamlNode.lookup_put_other (rlevel : Nat) (value : YamlNode) (apart : other ≠ key) :
    (value.put rlevel n key).gpConfNodeLookupChild other = n.gpConfNodeLookupChild other := by
  rw [YamlNode.put, lookup_modifyChild_other apart, lookup_addKey_other apart]
  intro c found
  rw [value.load_name, lookup_name found]
  exact lookup_name (lookup_addKey n key)

/-- Keys that do not occur keep their nodes. -/
theorem lookup_loadEntries_other {entries : List (CStr × YamlNode)}
    (apart : other ∉ entries.map (·.1)) (rlevel : Nat) (n : GpConfNode) :
    (loadEntries rlevel entries n).1.gpConfNodeLookupChild other =
      n.gpConfNodeLookupChild other := by
  induction entries generalizing n with
  | nil => rfl
  | cons entry rest ih =>
      obtain ⟨key, value⟩ := entry
      simp only [List.map_cons, List.mem_cons, not_or] at apart
      have here := value.lookup_put_other rlevel (n := n) apart.1
      rw [loadEntries_cons]
      split
      · rw [ih apart.2, here]
      · exact here

end Keys

/-! ## Levels -/

mutual

/-- The levels that a value takes in the tree, its own node with them. -/
def YamlNode.levels : YamlNode → Nat
  | .scalar _ => 1
  | .seq items => levelsItems items + 1
  | .map entries => levelsEntries entries + 1

def levelsItems : List YamlNode → Nat
  | [] => 0
  | item :: rest => max item.levels (levelsItems rest)

def levelsEntries : List (CStr × YamlNode) → Nat
  | [] => 0
  | (_, value) :: rest => max value.levels (levelsEntries rest)

end

theorem levels_pos (value : YamlNode) : 0 < value.levels := by
  cases value <;> simp [YamlNode.levels]

theorem levels_le_of_mem {items : List YamlNode} {item : YamlNode} (mem : item ∈ items) :
    item.levels ≤ levelsItems items := by
  induction items with
  | nil => cases mem
  | cons first rest ih =>
      rw [levelsItems]
      rcases List.mem_cons.mp mem with rfl | mem
      · exact Nat.le_max_left ..
      · exact (ih mem).trans (Nat.le_max_right ..)

/-- The node and what is below it take at most so many levels. -/
def Spans : Nat → GpConfNode → Prop
  | 0, _ => False
  | l + 1, n => Shallow l n

theorem Spans.child {l : Nat} {n c : GpConfNode} {key : CStr} (spans : Spans (l + 1) n)
    (found : n.gpConfNodeLookupChild key = some c) : Spans l c := by
  cases l with
  | zero =>
      have mem := List.mem_of_find?_eq_some found
      rw [show n.children = [] from spans] at mem
      cases mem
  | succ l => exact (Shallow.lookup spans found).2

/-! ## A load adds no more than its levels -/

mutual

theorem YamlNode.load_shallow : ∀ (value : YamlNode) (rlevel : Nat) {h : Nat} {n : GpConfNode},
    Shallow h n → value.levels ≤ h + 1 → Shallow h (value.load rlevel n).1
  | .scalar v, rlevel, h, n, shallow, few => by
    rw [YamlNode.load]
    split
    · exact shallow
    · exact shallow.of_children rfl
  | .seq items, rlevel, h, n, shallow, few => by
    rw [YamlNode.load_seq]
    split
    · exact shallow
    · have below := loadItems_shallow items (rlevel + 1) (f := Frame.start n) shallow
        (Nat.le_of_succ_le_succ few)
      exact below.of_children rfl
  | .map entries, rlevel, h, n, shallow, few => by
    rw [YamlNode.load]
    split
    · exact shallow
    · exact loadEntries_shallow entries (rlevel + 1) shallow (Nat.le_of_succ_le_succ few)

theorem loadItems_shallow : ∀ (items : List YamlNode) (rlevel : Nat) {h : Nat} {f : Frame},
    Shallow h f.parent → levelsItems items ≤ h → Shallow h (loadItems rlevel items f).1
  | [], rlevel, h, f, shallow, few => shallow
  | .scalar v :: rest, rlevel, h, f, shallow, few => by
    obtain ⟨here, later⟩ := Nat.max_le.mp few
    obtain ⟨h, rfl⟩ : ∃ k, h = k + 1 := ⟨h - 1, by have := levels_pos (.scalar v); omega⟩
    rw [loadItems]
    split
    · exact loadItems_shallow rest rlevel shallow later
    · exact loadItems_shallow rest rlevel (shallow.seqScalar v) later
  | .map entries :: rest, rlevel, h, f, shallow, few => by
    obtain ⟨here, later⟩ := Nat.max_le.mp few
    obtain ⟨h, rfl⟩ : ∃ k, h = k + 1 := ⟨h - 1, by have := levels_pos (.map entries); omega⟩
    obtain ⟨below, put⟩ := Shallow.seqMapping (f := f) shallow
    have loaded := put _ (YamlNode.load_name _ rlevel _)
      (YamlNode.load_shallow (.map entries) rlevel below here)
    rw [loadItems_map]
    split
    · exact loadItems_shallow rest rlevel loaded later
    · exact loaded
  | .seq items :: rest, rlevel, h, f, shallow, few => by
    obtain ⟨here, later⟩ := Nat.max_le.mp few
    have below := YamlNode.load_shallow (.seq items) rlevel shallow (Nat.le_succ_of_le here)
    rw [loadItems_seq]
    split
    · exact loadItems_shallow rest rlevel below later
    · exact below

theorem loadEntries_shallow : ∀ (entries : List (CStr × YamlNode)) (rlevel : Nat) {h : Nat}
    {n : GpConfNode}, Shallow h n → levelsEntries entries ≤ h →
    Shallow h (loadEntries rlevel entries n).1
  | [], rlevel, h, n, shallow, few => shallow
  | (key, value) :: rest, rlevel, h, n, shallow, few => by
    obtain ⟨here, later⟩ := Nat.max_le.mp few
    obtain ⟨h, rfl⟩ : ∃ k, h = k + 1 := ⟨h - 1, by have := levels_pos value; omega⟩
    have added : Shallow (h + 1) (n.addKey key) :=
      Shallow.keyScalar (f := Frame.start n) shallow key
    obtain ⟨named, below⟩ := added.lookup (lookup_addKey n key)
    have loaded : Shallow (h + 1) (value.put rlevel n key) := by
      refine added.modifyChild ?_
      intro _ _
      rw [value.load_name]
      exact ⟨named, YamlNode.load_shallow value rlevel below here⟩
    rw [loadEntries_cons]
    split
    · exact loadEntries_shallow rest rlevel loaded later
    · exact loaded

end

theorem Spans.load {l : Nat} {n : GpConfNode} {value : YamlNode} (spans : Spans l n)
    (few : value.levels ≤ l) (rlevel : Nat) : Spans l (value.load rlevel n).1 := by
  cases l with
  | zero => exact spans.elim
  | succ l => exact value.load_shallow rlevel spans few

/-! ## Indices -/

/-- A sequence number is the name of an item only as that index. -/
theorem seqIdx_of_seqName {f : Frame} {i : Nat} (same : f.seqName = itemName i) :
    f.seqIdx = i := by
  unfold Frame.seqName at same
  cases index : f.seqIdx with
  | ofNat j =>
      rw [index] at same
      rw [itemName_injective (same : itemName j = itemName i)]
      rfl
  | negSucc j =>
      -- a minus is no digit
      have sign : (0x2d : UInt8) ∈ itemName i := by
        rw [← same, index, show toString (Int.negSucc j) = "-" ++ toString (j + 1) from rfl]
        simp [ascii]
      rw [itemName_eq, List.mem_map] at sign
      obtain ⟨c, digit, minus⟩ := sign
      have range := digit_toNat digit
      have code := congrArg UInt8.toNat minus
      rw [UInt8.toNat_ofNat', show (0x2d : UInt8).toNat = 45 from rfl] at code
      omega

/-- The loader numbers the item: it is a mapping, or a scalar that is not empty. -/
def YamlNode.numbered : YamlNode → Bool
  | .scalar v => v ≠ []
  | .seq _ => false
  | .map _ => true

/-- Children of index `m` or more take at most `l` levels. -/
def Late (m l : Nat) (n : GpConfNode) : Prop :=
  ∀ c ∈ n.children, ∀ i ≥ m, c.name = some (itemName i) → Spans l c

mutual

/-- With the next item numbered `idx`, items whose index is `m` or more take at most
`l` levels. -/
def Low (m l : Nat) : Int → List YamlNode → Prop
  | _, [] => True
  | idx, item :: rest =>
    if item.numbered then (idx < m ∨ item.levels ≤ l) ∧ Low m l (int32 (idx + 1)) rest
    else item.LowBelow m l ∧ Low m l idx rest

/-- A sequence starts to count anew. -/
def YamlNode.LowBelow (m l : Nat) : YamlNode → Prop
  | .scalar _ => True
  | .map _ => True
  | .seq items => Low m l 0 items

end

section Low

variable {m l : Nat}

mutual

theorem low_of_levels : ∀ {items : List YamlNode}, levelsItems items ≤ l → ∀ (idx : Int),
    Low m l idx items
  | [], few, idx => trivial
  | item :: rest, few, idx => by
    obtain ⟨here, later⟩ := Nat.max_le.mp few
    rw [Low]
    split
    · exact ⟨.inr here, low_of_levels later _⟩
    · exact ⟨lowBelow_of_levels (Nat.le_succ_of_le here), low_of_levels later idx⟩

theorem lowBelow_of_levels : ∀ {item : YamlNode}, item.levels ≤ l + 1 → item.LowBelow m l
  | .scalar _, _ => trivial
  | .map _, _ => trivial
  | .seq _, few => low_of_levels (Nat.le_of_succ_le_succ few) 0

end

/-- The items are small, those in sequences among them too. -/
theorem low_of_small {items : List YamlNode}
    (small : ∀ item ∈ items, item.levels ≤ if item.numbered then l else l + 1) (idx : Int) :
    Low m l idx items := by
  induction items generalizing idx with
  | nil => trivial
  | cons item rest ih =>
      have here := small item List.mem_cons_self
      have later := ih fun y mem => small y (List.mem_cons_of_mem item mem)
      rw [Low]
      split
      · rename_i numbered
        rw [if_pos numbered] at here
        exact ⟨.inr here, later _⟩
      · rename_i skipped
        rw [if_neg skipped] at here
        exact ⟨lowBelow_of_levels here, later idx⟩

/-- At most `m` of the items in front are numbered, and those behind are small. -/
theorem low_append {front rest : List YamlNode} {idx : Int} (lowest : -2 ^ 31 ≤ idx)
    (few : idx + front.countP (·.numbered) ≤ m)
    (inner : ∀ item ∈ front, item.numbered = false → item.levels ≤ l + 1)
    (behind : ∀ j, Low m l j rest) : Low m l idx (front ++ rest) := by
  induction front generalizing idx with
  | nil => exact behind idx
  | cons item front ih =>
      have inner' := fun y mem => inner y (List.mem_cons_of_mem item mem)
      rw [List.countP_cons] at few
      rw [List.cons_append, Low]
      split
      · rename_i numbered
        rw [if_pos numbered] at few
        -- the next number is no larger than the count, also when it wraps
        have wrapped := int32_le (i := idx + 1) (by omega)
        exact ⟨.inl (by omega), ih (int32_range _).1 (by omega) inner'⟩
      · rename_i skipped
        rw [if_neg skipped] at few
        have below := inner item List.mem_cons_self (Bool.eq_false_iff.mpr skipped)
        exact ⟨lowBelow_of_levels below, ih lowest (by omega) inner'⟩

mutual

/-- No number is larger than an `int`. -/
theorem low_int : ∀ (items : List YamlNode) {idx : Int}, idx < 2 ^ 31 → Low (2 ^ 31) 0 idx items
  | [], idx, small => trivial
  | item :: rest, idx, small => by
    rw [Low]
    split
    · exact ⟨.inl small, low_int rest (int32_range _).2⟩
    · exact ⟨lowBelow_int item, low_int rest small⟩

theorem lowBelow_int : ∀ (item : YamlNode), item.LowBelow (2 ^ 31) 0
  | .scalar v => trivial
  | .map entries => trivial
  | .seq items => low_int items (by omega)

end

end Low

section Late

variable {m l : Nat} {n : GpConfNode} {f : Frame}

theorem Late.of_children {n' : GpConfNode} (late : Late m l n) (same : n'.children = n.children) :
    Late m l n' :=
  fun c mem => late c (same ▸ mem)

/-- The next item may take so many levels, if its index is not too small. -/
theorem spans_of_index {c : GpConfNode} {k : Nat} (empty : c.children = [])
    (few : f.seqIdx < m ∨ k + 1 ≤ l) {i : Nat} (large : i ≥ m) (same : f.seqName = itemName i) :
    Spans l c := by
  obtain ⟨l, rfl⟩ : ∃ j, l = j + 1 := ⟨l - 1, by have := seqIdx_of_seqName same; omega⟩
  exact .of_empty empty l

theorem Late.seqScalar (late : Late m l f.parent) (few : f.seqIdx < m ∨ 1 ≤ l) (v : CStr) :
    Late m l (f.seqScalar v).parent := by
  intro c mem i large named
  unfold Frame.seqScalar at mem
  cases found : f.parent.gpConfNodeLookupChild f.seqName with
  | none =>
      rw [found] at mem
      rcases List.mem_append.mp mem with old | new
      · exact late c old i large named
      · obtain rfl := List.mem_singleton.mp new
        exact spans_of_index rfl few large (Option.some.inj named)
  | some seqNode =>
      rw [found] at mem
      rcases List.mem_append.mp mem with old | new
      · exact late c (List.mem_of_mem_eraseP old) i large named
      · obtain rfl := List.mem_singleton.mp new
        exact late c (List.mem_of_find?_eq_some found) i large named

theorem Late.seqMapping {k : Nat} (late : Late m l n) (few : f.seqIdx < m ∨ k + 1 ≤ l) :
    Late m l (f.seqMapping n).1 ∧
      ∀ i ≥ m, f.seqName = itemName i → Spans l (f.seqMapping n).2 := by
  unfold Frame.seqMapping
  cases found : n.gpConfNodeLookupChild f.seqName with
  | none =>
      refine ⟨?_, fun i large same => spans_of_index rfl few large same⟩
      intro c mem i large named
      rcases List.mem_append.mp mem with old | new
      · exact late c old i large named
      · obtain rfl := List.mem_singleton.mp new
        exact spans_of_index rfl few large (Option.some.inj named)
  | some seqNode =>
      have marked : ∀ i ≥ m, seqNode.name = some (itemName i) →
          Spans l { seqNode with isSeq := true } := by
        intro i large named
        have spans := late seqNode (List.mem_of_find?_eq_some found) i large named
        cases l with
        | zero => exact spans.elim
        | succ l => exact Shallow.of_children spans rfl
      refine ⟨?_, ?_⟩
      · intro c mem i large named
        rcases List.mem_append.mp mem with old | new
        · exact late c (List.mem_of_mem_eraseP old) i large named
        · obtain rfl := List.mem_singleton.mp new
          exact marked i large named
      · intro i large same
        exact marked i large (by rw [lookup_name found, same])

theorem Late.putMapping (late : Late m l f.parent) {entries : List (CStr × YamlNode)}
    (few : f.seqIdx < m ∨ (YamlNode.map entries).levels ≤ l) (rlevel : Nat) :
    Late m l (f.putMapping
      ((YamlNode.map entries).load rlevel (f.seqMapping f.parent).2).1).parent := by
  obtain ⟨made, item⟩ := Late.seqMapping (k := levelsEntries entries) late few
  intro c mem i large named
  rcases mem_modifyChild mem with old | ⟨_, _, rfl⟩
  · exact made c old i large named
  · rw [YamlNode.load_name, seqMapping_named, Option.some.injEq] at named
    refine (item i large named).load ?_ rlevel
    have := seqIdx_of_seqName named
    omega

/-- The run lemma, by induction on the items. -/
theorem Late.load : ∀ (items : List YamlNode) (rlevel : Nat) {f : Frame},
    Late m l f.parent → Low m l f.seqIdx items → Late m l (loadItems rlevel items f).1
  | [], rlevel, f, late, low => late
  | .scalar v :: rest, rlevel, f, late, low => by
    rw [loadItems]
    by_cases empty : v = []
    · rw [Low, if_neg (by simp [YamlNode.numbered, empty])] at low
      rw [if_pos empty]
      exact Late.load rest rlevel late low.2
    · rw [Low, if_pos (by simp [YamlNode.numbered, empty])] at low
      rw [if_neg empty]
      exact Late.load rest rlevel (late.seqScalar low.1 v) low.2
  | .map entries :: rest, rlevel, f, late, low => by
    rw [Low, if_pos (by simp [YamlNode.numbered])] at low
    have put := late.putMapping low.1 rlevel
    rw [loadItems_map]
    split
    · exact Late.load rest rlevel put low.2
    · exact put
  | .seq items :: rest, rlevel, f, late, low => by
    rw [Low, if_neg (by simp [YamlNode.numbered])] at low
    have below : Late m l ((YamlNode.seq items).load rlevel f.parent).1 := by
      rw [YamlNode.load_seq]
      split
      · exact late
      · have inner := Late.load items (rlevel + 1) (f := Frame.start f.parent) late low.1
        exact inner.of_children rfl
    rw [loadItems_seq]
    split
    · exact Late.load rest rlevel below low.2
    · exact below

end Late

end GpBase.Conf

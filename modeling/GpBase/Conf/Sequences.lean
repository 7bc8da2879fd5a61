import GpBase.Conf.Items

/-!
# Sequences

A value is stored in a tree if each item of a sequence is found under the child of its
index, and each value of a mapping under its key. An empty scalar as an item is skipped
before it is numbered, and a sequence as an item counts anew on the node of the sequence
around it. The items behind these come up short, and however the nested sequences fill
in, the levels never suffice: the values are stored if and only if no sequence has such
an item, nor more items than an `int` can count.
-/

namespace GpBase.Conf

open GpBase.Lib GpConfNode

/-! ## Stored values -/

mutual

/-- All of the value is in the tree below `n`. Items of different index are under
children of different names. -/
def YamlNode.Stored : YamlNode → GpConfNode → Prop
  | .scalar v, n => n.val = some v
  | .seq items, n => StoredItems 0 items n
  | .map entries, n => StoredEntries entries n

/-- The items from index `i` on. -/
def StoredItems (i : Nat) : List YamlNode → GpConfNode → Prop
  | [], _ => True
  | item :: rest, n =>
    (∃ c, n.gpConfNodeLookupChild (itemName i) = some c ∧ item.Stored c) ∧
      StoredItems (i + 1) rest n

def StoredEntries : List (CStr × YamlNode) → GpConfNode → Prop
  | [], _ => True
  | (key, value) :: rest, n =>
    (∃ c, n.gpConfNodeLookupChild key = some c ∧ value.Stored c) ∧ StoredEntries rest n

end

mutual

/-- All items of all sequences are numbered, and their indices fit into an `int`. -/
def YamlNode.Regular : YamlNode → Prop
  | .scalar _ => True
  | .seq items => items.length ≤ 2 ^ 31 ∧ RegularItems items
  | .map entries => RegularEntries entries

def RegularItems : List YamlNode → Prop
  | [] => True
  | item :: rest => item.numbered = true ∧ item.Regular ∧ RegularItems rest

def RegularEntries : List (CStr × YamlNode) → Prop
  | [] => True
  | (_, value) :: rest => value.Regular ∧ RegularEntries rest

end

theorem RegularItems.numbered {items : List YamlNode} (regular : RegularItems items) :
    ∀ item ∈ items, item.numbered = true := by
  induction items with
  | nil =>
      intro item mem
      cases mem
  | cons first rest ih =>
      intro item mem
      rcases List.mem_cons.mp mem with rfl | mem
      · exact regular.1
      · exact ih regular.2.2 item mem

/-- Only the children count. -/
theorem StoredItems.congr {n m : GpConfNode} (same : m.children = n.children) (i : Nat)
    (items : List YamlNode) : StoredItems i items m ↔ StoredItems i items n := by
  have lookups : ∀ key, m.gpConfNodeLookupChild key = n.gpConfNodeLookupChild key := by
    intro key
    rw [gpConfNodeLookupChild, same, gpConfNodeLookupChild]
  induction items generalizing i with
  | nil => exact Iff.rfl
  | cons item rest ih =>
      rw [StoredItems, StoredItems, lookups]
      exact and_congr Iff.rfl (ih (i + 1))

/-- The item at an index. -/
theorem StoredItems.get {i : Nat} {items : List YamlNode} {n : GpConfNode}
    (stored : StoredItems i items n) {before : List YamlNode} {item : YamlNode}
    {rest : List YamlNode} (split : items = before ++ item :: rest) :
    ∃ c, n.gpConfNodeLookupChild (itemName (i + before.length)) = some c ∧ item.Stored c := by
  induction before generalizing i items with
  | nil =>
      subst split
      exact stored.1
  | cons first before ih =>
      subst split
      have := ih stored.2 rfl
      rwa [List.length_cons, show i + (before.length + 1) = i + 1 + before.length by omega]

/-! ## Levels -/

mutual

/-- What is stored takes its levels. -/
theorem YamlNode.Stored.levels_le : ∀ {value : YamlNode} {n : GpConfNode} {l : Nat},
    value.Stored n → Spans l n → value.levels ≤ l
  | .scalar v, n, l, stored, spans => by
    cases l with
    | zero => exact spans.elim
    | succ l => exact Nat.succ_le_succ (Nat.zero_le l)
  | .seq items, n, l, stored, spans => by
    cases l with
    | zero => exact spans.elim
    | succ l => exact Nat.succ_le_succ (storedItems_levels_le stored spans)
  | .map entries, n, l, stored, spans => by
    cases l with
    | zero => exact spans.elim
    | succ l => exact Nat.succ_le_succ (storedEntries_levels_le stored spans)

theorem storedItems_levels_le : ∀ {items : List YamlNode} {i : Nat} {n : GpConfNode} {l : Nat},
    StoredItems i items n → Spans (l + 1) n → levelsItems items ≤ l
  | [], i, n, l, stored, spans => Nat.zero_le l
  | item :: rest, i, n, l, stored, spans => by
    obtain ⟨⟨c, found, here⟩, later⟩ := stored
    exact Nat.max_le.mpr ⟨here.levels_le (spans.child found), storedItems_levels_le later spans⟩

theorem storedEntries_levels_le : ∀ {entries : List (CStr × YamlNode)} {n : GpConfNode} {l : Nat},
    StoredEntries entries n → Spans (l + 1) n → levelsEntries entries ≤ l
  | [], n, l, stored, spans => Nat.zero_le l
  | (key, value) :: rest, n, l, stored, spans => by
    obtain ⟨⟨c, found, here⟩, later⟩ := stored
    exact Nat.max_le.mpr ⟨here.levels_le (spans.child found), storedEntries_levels_le later spans⟩

end

/-! ## Items that are not numbered -/

/-- The items take at most `l` levels; one more, if they are not numbered. -/
def Small (l : Nat) (items : List YamlNode) : Prop :=
  ∀ item ∈ items, item.levels ≤ if item.numbered then l else l + 1

/-- What loading a sequence leaves in its node: children of large index have what items of
large index can put there. -/
def Balanced (items : List YamlNode) (n : GpConfNode) : Prop :=
  ∀ m l, Low m l 0 items → Late m l n

section Balance

variable {items before rest : List YamlNode} {item : YamlNode} {n : GpConfNode} {l : Nat}

theorem levels_le_of_low (stored : StoredItems 0 items n) (balanced : Balanced items n)
    (split : items = before ++ item :: rest) {m : Nat} (low : Low m l 0 items)
    (large : m ≤ before.length) : item.levels ≤ l := by
  obtain ⟨c, found, here⟩ := stored.get split
  rw [Nat.zero_add] at found
  have late := balanced m l low c (List.mem_of_find?_eq_some found) before.length large
  exact here.levels_le (late (lookup_name found))

/-- From the first item on that is not numbered, each item is in a child that only the
items from there on, and those of sequences, can reach. -/
theorem Small.bounded (stored : StoredItems 0 items n) (balanced : Balanced items n)
    (split : items = before ++ item :: rest) (numbered : ∀ y ∈ before, y.numbered = true)
    (small : Small l (item :: rest)) : ∀ y ∈ item :: rest, y.levels ≤ l := by
  have low : Low before.length l 0 items := by
    have few : before.countP (·.numbered) ≤ before.length := List.countP_le_length
    rw [split]
    refine low_append (by omega) (by omega) ?_ (low_of_small small)
    intro y mem not
    rw [numbered y mem] at not
    cases not
  intro y mem
  obtain ⟨mid, tail, parts⟩ := List.append_of_mem mem
  have split' : items = (before ++ mid) ++ y :: tail := by
    rw [split, parts, List.append_assoc]
  refine levels_le_of_low stored balanced split' low ?_
  rw [List.length_append]
  exact Nat.le_add_right ..

/-- So items that come behind it, with a number less than their index, must be smaller. -/
theorem Small.descend (stored : StoredItems 0 items n) (balanced : Balanced items n)
    (split : items = before ++ item :: rest) (numbered : ∀ y ∈ before, y.numbered = true)
    (skipped : item.numbered = false) (small : Small (l + 1) (item :: rest)) :
    Small l (item :: rest) := by
  have bounded := small.bounded stored balanced split numbered
  -- those numbered, by induction from the end
  have later : ∀ tail mid : List YamlNode, rest = mid ++ tail → Small l tail := by
    intro tail
    induction tail with
    | nil =>
        intro mid _ y mem
        cases mem
    | cons y tail ih =>
        intro mid parts
        have behind : Small l tail := ih (mid ++ [y]) (by rw [parts, List.append_assoc]; rfl)
        have low : Low (before ++ item :: mid).length l 0 items := by
          have whole : items = (before ++ item :: (mid ++ [y])) ++ tail := by
            rw [split, parts]
            simp
          rw [whole]
          refine low_append (by omega) ?_ ?_ (low_of_small behind)
          · have here : before.countP (·.numbered) ≤ before.length := List.countP_le_length
            have there : (mid ++ [y]).countP (·.numbered) ≤ (mid ++ [y]).length :=
              List.countP_le_length
            rw [List.countP_append, List.countP_cons, if_neg (by simp [skipped])]
            simp only [List.length_append, List.length_cons, List.length_nil] at there ⊢
            omega
          · intro z mem not
            rcases List.mem_append.mp mem with mem | mem
            · rw [numbered z mem] at not
              cases not
            · refine bounded z ?_
              rw [parts]
              simp only [List.mem_cons, List.mem_append, List.not_mem_nil, or_false] at mem ⊢
              tauto
        have split' : items = (before ++ item :: mid) ++ y :: tail := by
          rw [split, parts]
          simp
        have here := levels_le_of_low stored balanced split' low (Nat.le_refl _)
        intro z mem
        rcases List.mem_cons.mp mem with rfl | mem
        · split
          · exact here
          · exact Nat.le_succ_of_le here
        · exact behind z mem
  intro y mem
  rcases List.mem_cons.mp mem with rfl | mem
  · rw [if_neg (by simp [skipped])]
    exact bounded y List.mem_cons_self
  · exact later rest [] rfl y mem

/-- If all items of a sequence are stored, all of them are numbered. -/
theorem numbered_of_stored (stored : StoredItems 0 items n) (balanced : Balanced items n) :
    ∀ item ∈ items, item.numbered = true := by
  by_contra h
  simp only [not_forall, exists_prop] at h
  obtain ⟨first, mem, skips⟩ := h
  obtain ⟨item, found⟩ : ∃ item, items.find? (fun y => !y.numbered) = some item := by
    rw [← Option.isSome_iff_exists, List.find?_isSome]
    exact ⟨first, mem, by simpa using skips⟩
  obtain ⟨skipped, before, rest, split, passed⟩ := List.find?_eq_some_iff_append.mp found
  simp only [Bool.not_eq_true', Bool.not_not] at skipped passed
  have never : ∀ l, ¬ Small l (item :: rest) := by
    intro l
    induction l with
    | zero =>
        intro small
        have none_ := small.bounded stored balanced split passed item List.mem_cons_self
        have := levels_pos item
        omega
    | succ l ih =>
        intro small
        exact ih (small.descend stored balanced split passed skipped)
  refine never (levelsItems (item :: rest)) ?_
  intro y mem
  have := levels_le_of_mem mem
  split <;> omega

/-- The index of each is an `int`. -/
theorem length_of_stored (stored : StoredItems 0 items n) (balanced : Balanced items n) :
    items.length ≤ 2 ^ 31 := by
  by_contra many
  have there : 2 ^ 31 < items.length := Nat.lt_of_not_le many
  have split : items = items.take (2 ^ 31) ++ items.get ⟨2 ^ 31, there⟩ :: items.drop (2 ^ 31 + 1) := by
    rw [List.get_eq_getElem, ← List.drop_eq_getElem_cons, List.take_append_drop]
  have none_ := levels_le_of_low stored balanced split (low_int items (by omega)) (by
    rw [List.length_take]
    omega)
  have := levels_pos (items.get ⟨2 ^ 31, there⟩)
  omega

end Balance

/-! ## What is stored of a value -/

/-- The next item has index `i`, and no child has its name or a later one. -/
structure Frame.Free (i : Nat) (f : Frame) : Prop where
  index : f.seqIdx = int32 i
  free : ∀ j ≥ i, f.parent.gpConfNodeLookupChild (itemName j) = none

/-- The node that is made for an item, before its entries are loaded. -/
def YamlNode.fresh (i : Nat) : YamlNode → GpConfNode
  | .map _ => { gpConfNodeNew with name := some (itemName i), isSeq := true }
  | _ => { gpConfNodeNew with name := some (itemName i) }

/-- The frame behind an item that went to the tail. -/
def Frame.addItem (f : Frame) (item : GpConfNode) : Frame :=
  { f with parent := f.parent.insertTail item }.nextSeq

section Free

variable {i : Nat} {f : Frame} {item : YamlNode} {rest : List YamlNode}

theorem Frame.Free.addItem (free : f.Free i) {c : GpConfNode} (named : c.name = some (itemName i)) :
    (f.addItem c).Free (i + 1) := by
  refine ⟨nextSeq_eq free.index, ?_⟩
  intro j behind
  have apart : itemName j ≠ itemName i := by
    intro same
    have := itemName_injective same
    omega
  show (f.parent.insertTail c).gpConfNodeLookupChild (itemName j) = none
  rw [lookup_insertTail named, if_neg apart, free.free j (by omega)]
  rfl

/-- A numbered item gets a node of its own. -/
theorem loadItems_numbered (free : f.Free i) (small : i < 2 ^ 31) (numbered : item.numbered = true)
    (rlevel : Nat) :
    loadItems rlevel (item :: rest) f =
      if (item.load rlevel (item.fresh i)).2 then
        loadItems rlevel rest (f.addItem (item.load rlevel (item.fresh i)).1)
      else ((f.addItem (item.load rlevel (item.fresh i)).1).parent, false) := by
  have name := seqName_eq free.index small
  have missing := free.free i (Nat.le_refl i)
  cases item with
  | scalar v =>
      have nonEmpty : v ≠ [] := by simpa [YamlNode.numbered] using numbered
      have added : f.seqScalar v = f.addItem ((YamlNode.scalar v).load rlevel
          ((YamlNode.scalar v).fresh i)).1 := by
        simp only [Frame.seqScalar, name, missing]
        rfl
      rw [loadItems, if_neg nonEmpty, added]
      rfl
  | map entries =>
      have made : f.seqMapping f.parent = (f.parent.insertTail ((YamlNode.map entries).fresh i),
          (YamlNode.map entries).fresh i) := by
        simp only [Frame.seqMapping, name, missing]
        rfl
      have put : ∀ c, f.putMapping c = f.addItem c := by
        intro c
        rw [Frame.putMapping, made, name]
        dsimp only
        rw [modifyChild_insertTail missing rfl]
        rfl
      rw [loadItems_map, made, put]
  | seq items => cases numbered

/-- A numbered item does not touch the other children. -/
theorem lookup_loadItems_other {key : CStr} {items : List YamlNode} (free : f.Free i)
    (few : i + items.length ≤ 2 ^ 31) (numbered : ∀ y ∈ items, y.numbered = true)
    (apart : ∀ j ≥ i, key ≠ itemName j) (rlevel : Nat) :
    (loadItems rlevel items f).1.gpConfNodeLookupChild key =
      f.parent.gpConfNodeLookupChild key := by
  induction items generalizing i f with
  | nil => rfl
  | cons item rest ih =>
      rw [List.length_cons] at few
      have named : (item.load rlevel (item.fresh i)).1.name = some (itemName i) := by
        rw [item.load_name]
        cases item <;> rfl
      have here : (f.addItem (item.load rlevel (item.fresh i)).1).parent.gpConfNodeLookupChild key =
          f.parent.gpConfNodeLookupChild key := by
        show (f.parent.insertTail _).gpConfNodeLookupChild key = _
        rw [lookup_insertTail named, if_neg (apart i (Nat.le_refl i)), Option.or_none]
      rw [loadItems_numbered free (by omega) (numbered item List.mem_cons_self)]
      split
      · rw [ih (free.addItem named) (by omega) (fun y mem => numbered y (List.mem_cons_of_mem _ mem))
          (fun j large => apart j (by omega)), here]
      · exact here

end Free

/-- Loading into a node without children leaves it balanced. -/
theorem balanced_load (items : List YamlNode) (rlevel : Nat) {n : GpConfNode}
    (empty : n.children = []) : Balanced items (loadItems rlevel items (Frame.start n)).1 := by
  intro m l low
  refine Late.load items rlevel ?_ low
  intro c mem
  rw [show (Frame.start n).parent.children = [] from empty] at mem
  cases mem

mutual

/-- All of a value is stored if and only if it is regular. -/
theorem YamlNode.stored_iff : ∀ (value : YamlNode), value.Keyed → ∀ (rlevel : Nat)
    {n n' : GpConfNode}, n.children = [] → (∀ v, value = .scalar v → n.final = false) →
    value.load rlevel n = (n', true) → (value.Stored n' ↔ value.Regular)
  | .scalar v, keyed, rlevel, n, n', empty, isOpen, loaded => by
    rw [YamlNode.load, isOpen v rfl] at loaded
    cases loaded
    exact iff_of_true rfl trivial
  | .seq items, keyed, rlevel, n, n', empty, isOpen, loaded => by
    rw [YamlNode.load_seq] at loaded
    split at loaded
    · cases loaded
    · have balanced := balanced_load items (rlevel + 1) empty
      cases result : loadItems (rlevel + 1) items (Frame.start n) with
      | mk m ok =>
          rw [result] at loaded balanced
          cases loaded
          have free : (Frame.start n).Free 0 := by
            refine ⟨rfl, ?_⟩
            intro j _
            show n.gpConfNodeLookupChild _ = none
            rw [gpConfNodeLookupChild, empty]
            rfl
          -- the mark of a sequence changes nothing below
          have same := StoredItems.congr (n := m) (m := { m with isSeq := true }) rfl 0 items
          rw [YamlNode.Stored, YamlNode.Regular]
          refine Iff.trans same ?_
          constructor
          · intro stored
            have few := length_of_stored stored balanced
            have numbered := numbered_of_stored stored balanced
            exact ⟨few, (storedItems_iff items keyed (rlevel + 1) free (by omega) numbered
              result).mp stored⟩
          · rintro ⟨few, regular⟩
            exact (storedItems_iff items keyed (rlevel + 1) free (by omega) regular.numbered
              result).mpr regular
  | .map entries, keyed, rlevel, n, n', empty, isOpen, loaded => by
    rw [YamlNode.load] at loaded
    split at loaded
    · cases loaded
    · refine storedEntries_iff entries keyed (rlevel + 1) ?_ loaded
      intro key _
      rw [gpConfNodeLookupChild, empty]
      rfl

theorem storedItems_iff : ∀ (items : List YamlNode), KeyedItems items → ∀ (rlevel : Nat) {i : Nat}
    {f : Frame} {n' : GpConfNode}, f.Free i → i + items.length ≤ 2 ^ 31 →
    (∀ y ∈ items, y.numbered = true) → loadItems rlevel items f = (n', true) →
    (StoredItems i items n' ↔ RegularItems items)
  | [], keyed, rlevel, i, f, n', free, few, numbered, loaded => Iff.rfl
  | item :: rest, keyed, rlevel, i, f, n', free, few, numbered, loaded => by
    rw [List.length_cons] at few
    have here := numbered item List.mem_cons_self
    have behind := fun y mem => numbered y (List.mem_cons_of_mem item mem)
    rw [loadItems_numbered free (by omega) here] at loaded
    cases result : item.load rlevel (item.fresh i) with
    | mk c ok =>
        rw [result] at loaded
        cases ok with
        | false => cases loaded
        | true =>
            have named : c.name = some (itemName i) := by
              have := item.load_name rlevel (item.fresh i)
              rw [result] at this
              rw [this]
              cases item <;> rfl
            have empty : (item.fresh i).children = [] ∧ (item.fresh i).final = false := by
              cases item <;> exact ⟨rfl, rfl⟩
            have value := YamlNode.stored_iff item keyed.1 rlevel empty.1 (fun _ _ => empty.2) result
            have later := storedItems_iff rest keyed.2 rlevel (free.addItem named) (by omega) behind
              loaded
            have found : n'.gpConfNodeLookupChild (itemName i) = some c := by
              have apart : ∀ j ≥ i + 1, itemName i ≠ itemName j := by
                intro j large same
                have := itemName_injective same
                omega
              have kept := lookup_loadItems_other (free.addItem named) (by omega) behind apart rlevel
              rw [if_pos rfl] at loaded
              rw [loaded] at kept
              rw [kept]
              show (f.parent.insertTail c).gpConfNodeLookupChild _ = _
              rw [lookup_insertTail named, if_pos rfl, free.free i (Nat.le_refl i)]
              rfl
            rw [StoredItems, RegularItems, later, found]
            simp [value, here]

theorem storedEntries_iff : ∀ (entries : List (CStr × YamlNode)), KeyedEntries entries →
    ∀ (rlevel : Nat) {n n' : GpConfNode},
    (∀ key ∈ entries.map (·.1), n.gpConfNodeLookupChild key = none) →
    loadEntries rlevel entries n = (n', true) →
    (StoredEntries entries n' ↔ RegularEntries entries)
  | [], keyed, rlevel, n, n', free, loaded => Iff.rfl
  | (key, value) :: rest, keyed, rlevel, n, n', free, loaded => by
    obtain ⟨_, _, _, notAgain, keyedValue, keyedRest⟩ := keyed
    have missing := free key List.mem_cons_self
    rw [loadEntries_cons] at loaded
    have put := value.lookup_put rlevel n key
    rw [missing] at loaded put
    cases result : value.load rlevel (entered none key) with
    | mk c ok =>
        rw [result] at loaded put
        cases ok with
        | false => cases loaded
        | true =>
            have here := YamlNode.stored_iff value keyedValue rlevel (n := entered none key) rfl
              (fun _ _ => rfl) result
            have later := storedEntries_iff rest keyedRest rlevel (n := value.put rlevel n key) (by
              intro k mem
              have apart : k ≠ key := fun same => notAgain (same ▸ mem)
              rw [value.lookup_put_other rlevel apart]
              exact free k (List.mem_cons_of_mem key mem)) loaded
            have found : n'.gpConfNodeLookupChild key = some c := by
              have kept := lookup_loadEntries_other notAgain rlevel (value.put rlevel n key)
              rw [if_pos rfl] at loaded
              rw [loaded] at kept
              rw [kept, put]
            rw [StoredEntries, RegularEntries, later, found]
            simp [here]

end

/-! ## Nesting -/

mutual

/-- How deep mappings and sequences nest. -/
def YamlNode.depth : YamlNode → Nat
  | .scalar _ => 0
  | .seq items => depthItems items + 1
  | .map entries => depthEntries entries + 1

def depthItems : List YamlNode → Nat
  | [] => 0
  | item :: rest => max item.depth (depthItems rest)

def depthEntries : List (CStr × YamlNode) → Nat
  | [] => 0
  | (_, value) :: rest => max value.depth (depthEntries rest)

end

/-- Two loads, one after the other: both are as deep as their levels allow. -/
theorem ok_iff {first : Bool} {rest failed : GpConfNode × Bool} {rlevel d e limit : Nat}
    (here : first = true ↔ rlevel + d ≤ limit) (later : rest.2 = true ↔ rlevel + e ≤ limit)
    (stops : first = false → failed.2 = false) :
    (if first then rest else failed).2 = true ↔ rlevel + max d e ≤ limit := by
  cases first with
  | true =>
      have fits := here.mp rfl
      rw [if_pos rfl, later]
      omega
  | false =>
      have deep := mt here.mpr Bool.false_ne_true
      rw [if_neg Bool.false_ne_true, stops rfl]
      exact iff_of_false Bool.false_ne_true (by omega)

mutual

/-- A load fails for values that are nested too deep, and for no others. -/
theorem YamlNode.load_ok : ∀ (value : YamlNode) (rlevel : Nat) (n : GpConfNode),
    rlevel ≤ recursionLimit + 1 →
    ((value.load rlevel n).2 = true ↔ rlevel + value.depth ≤ recursionLimit + 1)
  | .scalar v, rlevel, n, low => iff_of_true rfl low
  | .seq items, rlevel, n, low => by
    rw [YamlNode.load_seq, YamlNode.depth]
    split
    · exact iff_of_false Bool.false_ne_true (by omega)
    · have below := loadItems_ok items (rlevel + 1) (Frame.start n) (by omega)
      rw [show rlevel + (depthItems items + 1) = rlevel + 1 + depthItems items by omega]
      exact below
  | .map entries, rlevel, n, low => by
    rw [YamlNode.load, YamlNode.depth]
    split
    · exact iff_of_false Bool.false_ne_true (by omega)
    · rw [loadEntries_ok entries (rlevel + 1) n (by omega)]
      omega

theorem loadItems_ok : ∀ (items : List YamlNode) (rlevel : Nat) (f : Frame),
    rlevel ≤ recursionLimit + 1 →
    ((loadItems rlevel items f).2 = true ↔ rlevel + depthItems items ≤ recursionLimit + 1)
  | [], rlevel, f, low => iff_of_true rfl low
  | .scalar v :: rest, rlevel, f, low => by
    rw [loadItems, depthItems, YamlNode.depth, Nat.zero_max]
    exact loadItems_ok rest rlevel _ low
  | .map entries :: rest, rlevel, f, low => by
    rw [loadItems_map, depthItems]
    exact ok_iff (YamlNode.load_ok (.map entries) rlevel (f.seqMapping f.parent).2 low)
      (loadItems_ok rest rlevel _ low) fun _ => rfl
  | .seq items :: rest, rlevel, f, low => by
    rw [loadItems_seq, depthItems]
    exact ok_iff (YamlNode.load_ok (.seq items) rlevel f.parent low)
      (loadItems_ok rest rlevel _ low) id

theorem loadEntries_ok : ∀ (entries : List (CStr × YamlNode)) (rlevel : Nat) (n : GpConfNode),
    rlevel ≤ recursionLimit + 1 →
    ((loadEntries rlevel entries n).2 = true ↔ rlevel + depthEntries entries ≤ recursionLimit + 1)
  | [], rlevel, n, low => iff_of_true rfl low
  | (key, value) :: rest, rlevel, n, low => by
    rw [loadEntries_cons, depthEntries]
    exact ok_iff (YamlNode.load_ok value rlevel (entered (n.gpConfNodeLookupChild key) key) low)
      (loadEntries_ok rest rlevel _ low) fun _ => rfl

end

/-! ## Documents -/

/-- A document whose root is a mapping or a sequence; its keys are distinct, not empty and
not `include`, and its texts have no NUL in them. -/
structure YamlDocument where
  root : YamlNode
  collection : ∀ v, root ≠ .scalar v
  keyed : root.Keyed

/-- Loaded into a node without children, a document that is not nested too deep has all
items of its sequences under their indices if and only if these are mappings and scalars
that are not empty. -/
theorem sequences_stored_iff (handleInclude : Include) (doc : YamlDocument) {node : GpConfNode}
    (empty : node.children = []) :
    (∃ node', gpConfYamlParse handleInclude node false 0 doc.root.document = .ok (node', 0, []) ∧
        doc.root.Stored node') ↔
      doc.root.depth ≤ recursionLimit ∧ doc.root.Regular := by
  have parsed := YamlNode.parse_document handleInclude doc.keyed doc.collection node
  have fits := doc.root.load_ok 1 node (by decide)
  have isOpen : ∀ v, doc.root = .scalar v → node.final = false := by
    intro v scalar
    exact absurd scalar (doc.collection v)
  cases result : doc.root.load 1 node with
  | mk node' ok =>
      rw [result] at parsed fits
      cases ok with
      | false =>
          obtain ⟨left, parsed⟩ := parsed
          refine iff_of_false ?_ ?_
          · rintro ⟨_, loaded, _⟩
            rw [parsed] at loaded
            cases loaded
          · rintro ⟨shallow, _⟩
            exact Bool.false_ne_true (fits.mpr (by omega))
      | true =>
          have shallow := fits.mp rfl
          have stored := doc.root.stored_iff doc.keyed 1 empty isOpen result
          have loaded : gpConfYamlParse handleInclude node false 0 doc.root.document =
              .ok (node', 0, []) := parsed
          rw [loaded, stored.symm]
          constructor
          · rintro ⟨_, same, kept⟩
            cases same
            exact ⟨by omega, kept⟩
          · rintro ⟨_, kept⟩
            exact ⟨node', rfl, kept⟩

/-- `{list: [a, {key: b}]}`. -/
def listing : YamlDocument where
  root := .map [(ascii "list",
    .seq [.scalar (ascii "a"), .map [(ascii "key", .scalar (ascii "b"))]])]
  collection := by
    intro v scalar
    cases scalar
  keyed := by
    simp only [YamlNode.Keyed, KeyedEntries, KeyedItems]
    decide

theorem sequences_stored_listing : gpConfInit.root.children = [] ∧
    ∃ node', gpConfYamlParse (gpConfYamlHandleInclude noFiles none 0 0) gpConfInit.root false 0
        listing.root.document = .ok (node', 0, []) ∧ listing.root.Stored node' := by
  refine ⟨rfl, (sequences_stored_iff _ listing rfl).mpr ⟨?_, ?_⟩⟩
  · decide
  · refine ⟨⟨?_, ?_⟩, trivial⟩
    · decide
    · exact ⟨rfl, trivial, rfl, ⟨trivial, trivial⟩, trivial⟩

/-- `{skips: ["", a], nests: [[b], c]}`. -/
def uneven : YamlDocument where
  root := .map [(ascii "skips", .seq [.scalar [], .scalar (ascii "a")]),
    (ascii "nests", .seq [.seq [.scalar (ascii "b")], .scalar (ascii "c")])]
  collection := by
    intro v scalar
    cases scalar
  keyed := by
    simp only [YamlNode.Keyed, KeyedEntries, KeyedItems]
    decide

/-- The tree of that document: `c` is nowhere, and `a` has the index of another item. -/
def unevenTree : GpConfNode :=
  ⟨none, none, false, false, false, [
    ⟨some (ascii "skips"), none, true, false, false,
      [⟨some (ascii "0"), some (ascii "a"), false, false, false, []⟩]⟩,
    ⟨some (ascii "nests"), none, true, false, false,
      [⟨some (ascii "0"), some (ascii "b"), false, false, false, []⟩]⟩]⟩

theorem sequences_not_stored :
    gpConfYamlParse (gpConfYamlHandleInclude noFiles none 0 0) gpConfInit.root false 0
        uneven.root.document = .ok (unevenTree, 0, []) ∧ ¬ uneven.root.Stored unevenTree := by
  refine ⟨rfl, ?_⟩
  rintro ⟨⟨skips, found, stored⟩, _⟩
  cases found
  -- the sequence of two has one child
  obtain ⟨_, ⟨second, none_, _⟩, _⟩ := stored
  cases none_

end GpBase.Conf

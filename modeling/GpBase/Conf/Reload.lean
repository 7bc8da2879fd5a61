import GpBase.Conf.Document
import GpBase.Conf.Links

/-!
# Reloading

A key that has a node already gets it back pruned: without final nodes its children
and its value are gone, but `is_seq` is left as it was. What a second document loads
under one of its keys is therefore what it loads alone, unless the node had been a
sequence and the new value is none.
-/

namespace GpBase.Conf

open GpBase.Lib GpConfNode

/-! ## What is compared -/

/-- A tree without the fields `final` and `parent`. -/
inductive Shape
  | node (name val : Option CStr) (isSeq : Bool) (children : List Shape)

mutual

def GpConfNode.shape : GpConfNode → Shape
  | ⟨name, val, isSeq, _, _, children⟩ => .node name val isSeq (shapes children)

def shapes : List GpConfNode → List Shape
  | [] => []
  | c :: rest => c.shape :: shapes rest

end

/-- The subtree under a key. -/
def GpConfNode.shapeAt (n : GpConfNode) (key : CStr) : Option Shape :=
  (n.gpConfNodeLookupChild key).map shape

/-- `is_seq` of the node of a key. -/
def GpConfNode.seqAt (n : GpConfNode) (key : CStr) : Bool :=
  (n.gpConfNodeLookupChild key).any (·.isSeq)

/-- No node below is final. -/
abbrev NoFinal : GpConfNode → Prop := Every fun c => !c.final

/-! ## What of a document is loaded -/

mutual

/-- The value is not nested too deep for a call at this level. -/
def YamlValue.fits (rlevel : Nat) : YamlValue → Bool
  | .scalar _ => true
  | .seq items => rlevel ≤ recursionLimit && items.fits (rlevel + 1)
  | .map entries => rlevel ≤ recursionLimit && entries.fits (rlevel + 1)

def YamlItems.fits (rlevel : Nat) : YamlItems → Bool
  | .nil => true
  | .scalar _ rest => rest.fits rlevel
  | .map entries rest =>
    (rlevel ≤ recursionLimit && entries.fits (rlevel + 1)) && rest.fits rlevel

def YamlEntries.fits (rlevel : Nat) : YamlEntries → Bool
  | .nil => true
  | .cons _ value rest => value.fits rlevel && rest.fits rlevel

end

/-- A sequence, and not nested too deep. -/
def YamlValue.seqFits (rlevel : Nat) : YamlValue → Bool
  | .seq items => (YamlValue.seq items).fits rlevel
  | _ => false

/-- The document has a sequence under the key, and the loader gets to its end. -/
def YamlEntries.seqUnder (rlevel : Nat) (key : CStr) : YamlEntries → Bool
  | .nil => false
  | .cons k value rest =>
    (k = key && value.seqFits rlevel) || (value.fits rlevel && rest.seqUnder rlevel key)

/-- For each key up to the first value that is nested too deep: its value is a
sequence, or its node has the same `is_seq` in both trees. The keys behind are not
reached, and have to agree before. -/
def YamlEntries.Overrides (rlevel : Nat) (seq seq' : CStr → Bool) (left left' : CStr → Option Shape) :
    YamlEntries → Prop
  | .nil => True
  | .cons key value rest =>
    (value.seqFits rlevel = true ∨ seq key = seq' key) ∧
      if value.fits rlevel then rest.Overrides rlevel seq seq' left left'
      else ∀ k ∈ rest.keys, left k = left' k

mutual

theorem YamlValue.load_ok : ∀ (value : YamlValue) (rlevel : Nat) (n : GpConfNode),
    (value.load rlevel n).2 = value.fits rlevel
  | .scalar v, rlevel, n => rfl
  | .seq items, rlevel, n => by
    have below := YamlItems.load_ok items (rlevel + 1) (Frame.start n)
    by_cases deep : recursionLimit < rlevel
    · simp [YamlValue.load, YamlValue.fits, deep]
    · simp [YamlValue.load, YamlValue.fits, deep, below, Nat.le_of_not_lt deep]
  | .map entries, rlevel, n => by
    have below := YamlEntries.load_ok entries (rlevel + 1) n
    by_cases deep : recursionLimit < rlevel
    · simp [YamlValue.load, YamlValue.fits, deep]
    · simp [YamlValue.load, YamlValue.fits, deep, below, Nat.le_of_not_lt deep]

theorem YamlItems.load_ok : ∀ (items : YamlItems) (rlevel : Nat) (f : Frame),
    (items.load rlevel f).2 = items.fits rlevel
  | .nil, rlevel, f => rfl
  | .scalar v rest, rlevel, f => YamlItems.load_ok rest rlevel (f.seqScalar v)
  | .map entries rest, rlevel, f => by
    have below := YamlEntries.load_ok entries (rlevel + 1) (f.seqMapping f.parent).2
    by_cases deep : recursionLimit < rlevel
    · simp [YamlItems.load, YamlItems.fits, deep]
    · simp only [YamlItems.load, YamlItems.fits, deep, if_false, Nat.le_of_not_lt deep, below,
        decide_true, Bool.true_and]
      cases entries.fits (rlevel + 1) with
      | true => simpa using YamlItems.load_ok rest rlevel _
      | false => rfl

theorem YamlEntries.load_ok : ∀ (entries : YamlEntries) (rlevel : Nat) (n : GpConfNode),
    (entries.load rlevel n).2 = entries.fits rlevel
  | .nil, rlevel, n => rfl
  | .cons key value rest, rlevel, n => by
    have here := YamlValue.load_ok value rlevel (entered (n.gpConfNodeLookupChild key) key)
    simp only [YamlEntries.load, YamlEntries.fits, lookup_addKey, here]
    cases value.fits rlevel with
    | true => simpa using YamlEntries.load_ok rest rlevel _
    | false => rfl

end

/-! ## One key -/

/-- The fields of a node that a load into it may not change. -/
structure SameFields (n n' : GpConfNode) : Prop where
  name : n'.name = n.name
  isSeq : n'.isSeq = n.isSeq
  final : n'.final = n.final

theorem SameFields.trans {n m k : GpConfNode} (first : SameFields n m) (second : SameFields m k) :
    SameFields n k :=
  ⟨second.name.trans first.name, second.isSeq.trans first.isSeq, second.final.trans first.final⟩

theorem addKey_fields (n : GpConfNode) (key : CStr) : SameFields n (n.addKey key) := by
  rw [addKey_eq]
  split
  · split <;> exact ⟨rfl, rfl, rfl⟩
  · exact ⟨rfl, rfl, rfl⟩

theorem YamlEntries.load_fields : ∀ (entries : YamlEntries) (rlevel : Nat) (n : GpConfNode),
    SameFields n (entries.load rlevel n).1
  | .nil, rlevel, n => ⟨rfl, rfl, rfl⟩
  | .cons key value rest, rlevel, n => by
    simp only [YamlEntries.load, lookup_addKey]
    have added := addKey_fields n key
    split
    · refine added.trans (SameFields.trans ?_ (YamlEntries.load_fields rest rlevel _))
      exact ⟨rfl, rfl, rfl⟩
    · exact ⟨added.name, added.isSeq, added.final⟩

theorem seqMapping_fields (f : Frame) (n : GpConfNode) : SameFields n (f.seqMapping n).1 := by
  unfold Frame.seqMapping
  split <;> exact ⟨rfl, rfl, rfl⟩

theorem YamlItems.load_fields : ∀ (items : YamlItems) (rlevel : Nat) (f : Frame),
    SameFields f.parent (items.load rlevel f).1
  | .nil, rlevel, f => ⟨rfl, rfl, rfl⟩
  | .scalar v rest, rlevel, f => by
    have added : SameFields f.parent (f.seqScalar v).parent := by
      unfold Frame.seqScalar
      dsimp only
      split <;> exact ⟨rfl, rfl, rfl⟩
    exact added.trans (YamlItems.load_fields rest rlevel (f.seqScalar v))
  | .map entries rest, rlevel, f => by
    have made := seqMapping_fields f f.parent
    simp only [YamlItems.load]
    generalize (if recursionLimit < rlevel then ((f.seqMapping f.parent).2, false)
      else entries.load (rlevel + 1) (f.seqMapping f.parent).2) = item
    split
    · refine made.trans (SameFields.trans ?_ (YamlItems.load_fields rest rlevel _))
      exact ⟨rfl, rfl, rfl⟩
    · exact ⟨made.name, made.isSeq, made.final⟩

/-- The fields of a value's node: `is_seq` is set, and never cleared. -/
theorem YamlValue.load_fields (value : YamlValue) (rlevel : Nat) (n : GpConfNode) :
    (value.load rlevel n).1.name = n.name ∧
      (value.load rlevel n).1.isSeq = (value.seqFits rlevel || n.isSeq) ∧
      (value.load rlevel n).1.final = n.final := by
  cases value with
  | scalar v =>
      simp only [YamlValue.load, YamlValue.seqFits, Bool.false_or]
      split <;> exact ⟨rfl, rfl, rfl⟩
  | seq items =>
      have below := YamlItems.load_fields items (rlevel + 1) (Frame.start n)
      have ok := YamlItems.load_ok items (rlevel + 1) (Frame.start n)
      -- `is_seq` is set behind the items, so not when one of them is too deep
      by_cases deep : recursionLimit < rlevel
      · simp [YamlValue.load, YamlValue.seqFits, YamlValue.fits, deep]
      · simp only [YamlValue.load, YamlValue.seqFits, YamlValue.fits, deep, if_false, ok,
          Nat.le_of_not_lt deep, decide_true, Bool.true_and]
        cases items.fits (rlevel + 1) with
        | true => exact ⟨below.name, rfl, below.final⟩
        | false => exact ⟨below.name, below.isSeq, below.final⟩
  | map entries =>
      have below := YamlEntries.load_fields entries (rlevel + 1) n
      simp only [YamlValue.load, YamlValue.seqFits, Bool.false_or]
      split
      · exact ⟨rfl, rfl, rfl⟩
      · exact ⟨below.name, below.isSeq, below.final⟩

/-- The node of a key and its value, loaded into a mapping. -/
def YamlValue.loaded (rlevel : Nat) (n : GpConfNode) (key : CStr) (value : YamlValue) : GpConfNode :=
  (value.load rlevel (entered (n.gpConfNodeLookupChild key) key)).1

/-- The mapping with that node. -/
def YamlValue.put (rlevel : Nat) (n : GpConfNode) (key : CStr) (value : YamlValue) : GpConfNode :=
  (n.addKey key).modifyChild key fun _ => value.loaded rlevel n key

theorem load_cons (rlevel : Nat) (n : GpConfNode) (key : CStr) (value : YamlValue)
    (rest : YamlEntries) :
    (YamlEntries.cons key value rest).load rlevel n =
      if value.fits rlevel then rest.load rlevel (value.put rlevel n key)
      else (value.put rlevel n key, false) := by
  simp only [YamlEntries.load, lookup_addKey, YamlValue.load_ok]
  rfl

theorem entered_name {old : Option GpConfNode} {key : CStr}
    (named : ∀ c, old = some c → c.name = some key) : (entered old key).name = some key := by
  cases old with
  | none => rfl
  | some c =>
      simp only [entered]
      split
      · exact named c rfl
      · exact (gpConfNodePrune_name c).trans (named c rfl)

theorem loaded_name (rlevel : Nat) (n : GpConfNode) (key : CStr) (value : YamlValue) :
    (value.loaded rlevel n key).name = some key :=
  (value.load_fields rlevel _).1.trans (entered_name fun _ found => lookup_name found)

theorem lookup_put (rlevel : Nat) (n : GpConfNode) (key : CStr) (value : YamlValue) :
    (value.put rlevel n key).gpConfNodeLookupChild key = some (value.loaded rlevel n key) := by
  refine lookup_modifyChild (lookup_addKey n key) ?_
  rw [loaded_name, entered_name fun _ found => lookup_name found]

theorem lookup_put_other (rlevel : Nat) (n : GpConfNode) {key other : CStr} (value : YamlValue)
    (apart : other ≠ key) :
    (value.put rlevel n key).gpConfNodeLookupChild other = n.gpConfNodeLookupChild other := by
  rw [YamlValue.put, lookup_modifyChild_other apart, lookup_addKey_other apart]
  intro c found
  rw [loaded_name, lookup_name found]

theorem entered_isSeq (n : GpConfNode) (key : CStr) :
    (entered (n.gpConfNodeLookupChild key) key).isSeq = n.seqAt key := by
  unfold seqAt
  cases n.gpConfNodeLookupChild key with
  | none => rfl
  | some c =>
      simp only [entered, Option.any_some]
      split
      · rfl
      · cases c
        rfl

/-- `is_seq` under every key after a load. -/
theorem seqAt_load : ∀ (entries : YamlEntries) (rlevel : Nat) (n : GpConfNode) (key : CStr),
    (entries.load rlevel n).1.seqAt key = (entries.seqUnder rlevel key || n.seqAt key)
  | .nil, rlevel, n, key => rfl
  | .cons k value rest, rlevel, n, key => by
    -- one key: its own flag, or the one that the pruned node has kept
    have here : (value.put rlevel n k).seqAt key =
        ((k = key && value.seqFits rlevel) || n.seqAt key) := by
      by_cases same : key = k
      · subst same
        have flag := (value.load_fields rlevel (entered (n.gpConfNodeLookupChild key) key)).2.1
        rw [entered_isSeq] at flag
        simp [seqAt, lookup_put, YamlValue.loaded, flag]
      · simp [seqAt, lookup_put_other rlevel n value same, Ne.symm same]
    rw [load_cons, YamlEntries.seqUnder]
    cases fits : value.fits rlevel with
    | true =>
        rw [if_pos rfl, seqAt_load rest, here]
        cases rest.seqUnder rlevel key <;> simp
    | false =>
        rw [if_neg (by simp), here]
        simp

/-! ## No final nodes -/

mutual

/-- Without final nodes nothing is left below a pruned node. -/
theorem prune_noFinal : ∀ {n : GpConfNode}, NoFinal n →
    gpConfNodePrune n = { n with val := none, children := [] }
  | ⟨_, _, _, _, _, children⟩, noFinal => by
    rw [gpConfNodePrune, pruneChildren_noFinal children fun c mem => noFinal.child mem]

theorem pruneChildren_noFinal : ∀ (items : List GpConfNode),
    (∀ c ∈ items, (!c.final) = true ∧ NoFinal c) → pruneChildren items = []
  | [], _ => rfl
  | item :: items, noFinal => by
    obtain ⟨own, below⟩ := noFinal item List.mem_cons_self
    have isOpen : item.final = false := by simpa using own
    have rest := pruneChildren_noFinal items fun c mem => noFinal c (List.mem_cons_of_mem _ mem)
    simp [pruneChildren, isOpen, prune_noFinal below, rest]

end

theorem NoFinal.entered {n : GpConfNode} (noFinal : NoFinal n) (key : CStr) :
    ∃ link, Conf.entered (n.gpConfNodeLookupChild key) key =
      ⟨some key, none, n.seqAt key, false, link, []⟩ := by
  unfold seqAt
  cases found : n.gpConfNodeLookupChild key with
  | none => exact ⟨false, rfl⟩
  | some c =>
      obtain ⟨own, below⟩ := noFinal.lookup found
      have named := lookup_name found
      have isOpen : c.final = false := by simpa using own
      refine ⟨c.hasParent, ?_⟩
      simp [Conf.entered, isOpen, prune_noFinal below, named]

theorem NoFinal.addKey {n : GpConfNode} (noFinal : NoFinal n) (key : CStr) :
    NoFinal (n.addKey key) := by
  have same : NoFinal { n with val := n.valWith key } := noFinal.of_children rfl
  rw [addKey_eq]
  split
  · split
    · exact same
    · refine same.modifyChild ?_
      intro c found
      obtain ⟨own, below⟩ := noFinal.lookup found
      rw [prune_noFinal below]
      exact ⟨own, .of_empty rfl⟩
  · exact same.insertTail rfl (.of_empty rfl)

theorem NoFinal.seqMapping {f : Frame} {n : GpConfNode} (noFinal : NoFinal n) :
    NoFinal (f.seqMapping n).1 ∧ NoFinal (f.seqMapping n).2 ∧ (f.seqMapping n).2.final = false := by
  unfold Frame.seqMapping
  split
  · rename_i seqNode found
    obtain ⟨own, below⟩ := noFinal.lookup found
    have marked : NoFinal { seqNode with isSeq := true } := below.of_children rfl
    have relinked := (noFinal.unlinkChild f.seqName).insertTail
      (c := { seqNode with isSeq := true }) own marked
    exact ⟨relinked, marked, by simpa using own⟩
  · exact ⟨noFinal.insertTail rfl (.of_empty rfl), .of_empty rfl, rfl⟩

theorem NoFinal.put_of_loaded {n : GpConfNode} (noFinal : NoFinal n) (value : YamlValue)
    (rlevel : Nat) (key : CStr)
    (loaded : ∀ {c : GpConfNode}, NoFinal c → NoFinal (value.load rlevel c).1) :
    NoFinal (value.put rlevel n key) := by
  refine (noFinal.addKey key).modifyChild ?_
  intro _ _
  obtain ⟨link, entered⟩ := noFinal.entered key
  have final := (value.load_fields rlevel (Conf.entered (n.gpConfNodeLookupChild key) key)).2.2
  refine ⟨?_, ?_⟩
  · rw [entered] at final
    simp [YamlValue.loaded, entered, final]
  · rw [YamlValue.loaded, entered]
    exact loaded (.of_empty rfl)

mutual

theorem YamlValue.load_noFinal : ∀ (value : YamlValue) (rlevel : Nat) {n : GpConfNode},
    NoFinal n → NoFinal (value.load rlevel n).1
  | .scalar v, rlevel, n, noFinal => by
    simp only [YamlValue.load]
    split
    · exact noFinal
    · exact noFinal.of_children rfl
  | .seq items, rlevel, n, noFinal => by
    have below := YamlItems.load_noFinal items (rlevel + 1) (f := Frame.start n) noFinal
    simp only [YamlValue.load]
    split
    · exact noFinal
    · dsimp only
      split
      · exact below.of_children rfl
      · exact below
  | .map entries, rlevel, n, noFinal => by
    simp only [YamlValue.load]
    split
    · exact noFinal
    · exact YamlEntries.load_noFinal entries (rlevel + 1) noFinal

theorem YamlItems.load_noFinal : ∀ (items : YamlItems) (rlevel : Nat) {f : Frame},
    NoFinal f.parent → NoFinal (items.load rlevel f).1
  | .nil, rlevel, f, noFinal => noFinal
  | .scalar v rest, rlevel, f, noFinal => by
    refine YamlItems.load_noFinal rest rlevel (f := f.seqScalar v) ?_
    unfold Frame.seqScalar
    dsimp only
    split
    · rename_i found
      obtain ⟨own, below⟩ := noFinal.lookup found
      exact (noFinal.unlinkChild _).insertTail own below
    · exact noFinal.insertTail rfl (.of_empty rfl)
  | .map entries rest, rlevel, f, noFinal => by
    obtain ⟨made, below, isOpen⟩ := NoFinal.seqMapping (f := f) noFinal
    simp only [YamlItems.load]
    generalize loaded : (if recursionLimit < rlevel then ((f.seqMapping f.parent).2, false)
      else entries.load (rlevel + 1) (f.seqMapping f.parent).2) = item
    have itemNoFinal : (!item.1.final) = true ∧ NoFinal item.1 := by
      rw [← loaded]
      split
      · exact ⟨by simp [isOpen], below⟩
      · refine ⟨?_, YamlEntries.load_noFinal entries (rlevel + 1) below⟩
        simp [(entries.load_fields (rlevel + 1) (f.seqMapping f.parent).2).final, isOpen]
    have put : NoFinal ((f.seqMapping f.parent).1.modifyChild f.seqName fun _ => item.1) :=
      made.modifyChild fun _ _ => itemNoFinal
    split
    · exact YamlItems.load_noFinal rest rlevel put
    · exact put

theorem YamlEntries.load_noFinal : ∀ (entries : YamlEntries) (rlevel : Nat) {n : GpConfNode},
    NoFinal n → NoFinal (entries.load rlevel n).1
  | .nil, rlevel, n, noFinal => noFinal
  | .cons key value rest, rlevel, n, noFinal => by
    have put := NoFinal.put_of_loaded noFinal value rlevel key (YamlValue.load_noFinal value rlevel)
    rw [load_cons]
    split
    · exact YamlEntries.load_noFinal rest rlevel put
    · exact put

end

theorem YamlValue.put_noFinal (value : YamlValue) (rlevel : Nat) {n : GpConfNode} (key : CStr)
    (noFinal : NoFinal n) : NoFinal (value.put rlevel n key) :=
  noFinal.put_of_loaded value rlevel key (YamlValue.load_noFinal value rlevel)

/-! ## What does not matter -/

@[simp] theorem shape_link (n : GpConfNode) (h : Bool) :
    { n with hasParent := h }.shape = n.shape := by
  cases n
  rfl

theorem YamlEntries.load_link : ∀ (entries : YamlEntries) (rlevel : Nat) (n : GpConfNode) (h : Bool),
    entries.load rlevel { n with hasParent := h } =
      ({ (entries.load rlevel n).1 with hasParent := h }, (entries.load rlevel n).2)
  | .nil, rlevel, n, h => rfl
  | .cons key value rest, rlevel, n, h => by
    have added : { n with hasParent := h }.addKey key = { n.addKey key with hasParent := h } := by
      have same : { n with hasParent := h }.gpConfNodeLookupChild key =
          n.gpConfNodeLookupChild key := rfl
      rw [addKey_eq, addKey_eq, same]
      cases n.gpConfNodeLookupChild key with
      | none => rfl
      | some existing =>
          dsimp only
          split <;> rfl
    have put : value.put rlevel { n with hasParent := h } key =
        { value.put rlevel n key with hasParent := h } := by
      rw [YamlValue.put, added]
      rfl
    rw [load_cons, load_cons, put]
    split
    · exact YamlEntries.load_link rest rlevel _ h
    · rfl

/-- The node of a sequence, with other flags. -/
def GpConfNode.label (b h : Bool) (n : GpConfNode) : GpConfNode :=
  { n with isSeq := b, hasParent := h }

theorem YamlItems.load_label : ∀ (items : YamlItems) (rlevel : Nat) (f : Frame) (b h : Bool),
    items.load rlevel { f with parent := f.parent.label b h } =
      ((items.load rlevel f).1.label b h, (items.load rlevel f).2)
  | .nil, rlevel, f, b, h => rfl
  | .scalar v rest, rlevel, f, b, h => by
    have added : { f with parent := f.parent.label b h }.seqScalar v =
        { f.seqScalar v with parent := (f.seqScalar v).parent.label b h } := by
      have same : (f.parent.label b h).gpConfNodeLookupChild f.seqName =
          f.parent.gpConfNodeLookupChild f.seqName := rfl
      have name : { f with parent := f.parent.label b h }.seqName = f.seqName := rfl
      simp only [Frame.seqScalar, name, same]
      cases f.parent.gpConfNodeLookupChild f.seqName <;> rfl
    rw [YamlItems.load, added]
    exact YamlItems.load_label rest rlevel (f.seqScalar v) b h
  | .map entries rest, rlevel, f, b, h => by
    have made : { f with parent := f.parent.label b h }.seqMapping (f.parent.label b h) =
        ((f.seqMapping f.parent).1.label b h, (f.seqMapping f.parent).2) := by
      have same : (f.parent.label b h).gpConfNodeLookupChild f.seqName =
          f.parent.gpConfNodeLookupChild f.seqName := rfl
      have name : { f with parent := f.parent.label b h }.seqName = f.seqName := rfl
      simp only [Frame.seqMapping, name, same]
      cases f.parent.gpConfNodeLookupChild f.seqName <;> rfl
    simp only [YamlItems.load, made]
    generalize (if recursionLimit < rlevel then ((f.seqMapping f.parent).2, false)
      else entries.load (rlevel + 1) (f.seqMapping f.parent).2) = item
    split
    · exact YamlItems.load_label rest rlevel { f with
        parent := (f.seqMapping f.parent).1.modifyChild f.seqName fun _ => item.1 }.nextSeq b h
    · rfl

/-- What a sequence loads does not depend on the flags of its node. -/
theorem YamlItems.shape_load (items : YamlItems) (rlevel : Nat) (n : GpConfNode) (b h : Bool) :
    ((YamlValue.seq items).load rlevel (n.label b h)).1.shape =
      { ((YamlValue.seq items).load rlevel n).1 with
        isSeq := (YamlValue.seq items).fits rlevel || b }.shape := by
  have below := YamlItems.load_label items (rlevel + 1) (Frame.start n) b h
  have start : ({ Frame.start n with parent := (Frame.start n).parent.label b h } : Frame) =
      Frame.start (n.label b h) := rfl
  have ok := YamlItems.load_ok items (rlevel + 1) (Frame.start n)
  rw [start] at below
  simp only [YamlValue.load, YamlValue.fits]
  by_cases deep : recursionLimit < rlevel
  · have tooDeep : ¬ rlevel ≤ recursionLimit := by omega
    simp only [deep, tooDeep, if_true, decide_false, Bool.false_and, Bool.false_or]
    cases n
    rfl
  · simp only [deep, if_false, below, ok, Nat.le_of_not_lt deep, decide_true, Bool.true_and]
    generalize (items.load (rlevel + 1) (Frame.start n)).1 = m
    cases m
    cases items.fits (rlevel + 1) <;> rfl

theorem shape_of_isSeq {n : GpConfNode} {b : Bool} (same : n.isSeq = b) :
    { n with isSeq := b }.shape = n.shape := by
  cases n
  cases same
  rfl

/-- The link of the node of a value does not show in what is loaded. -/
theorem YamlValue.shape_load_link (value : YamlValue) (rlevel : Nat) (n : GpConfNode) (h : Bool) :
    (value.load rlevel { n with hasParent := h }).1.shape = (value.load rlevel n).1.shape := by
  cases value with
  | scalar v =>
      simp only [YamlValue.load]
      split
      · exact shape_link n h
      · exact shape_link { n with val := some v } h
  | seq items =>
      have flag := ((YamlValue.seq items).load_fields rlevel n).2.1
      exact (items.shape_load rlevel n n.isSeq h).trans (shape_of_isSeq flag)
  | map entries =>
      have below := entries.load_link (rlevel + 1) n h
      simp only [YamlValue.load]
      split
      · exact shape_link n h
      · rw [below]
        exact shape_link _ h

theorem isSeq_of_shape {n m : GpConfNode} (same : n.shape = m.shape) : n.isSeq = m.isSeq := by
  cases n
  cases m
  simp only [shape, Shape.node.injEq] at same
  exact same.2.2.1

theorem seqAt_of_shapeAt {n m : GpConfNode} {key : CStr} (same : n.shapeAt key = m.shapeAt key) :
    n.seqAt key = m.seqAt key := by
  unfold shapeAt at same
  unfold seqAt
  cases found : n.gpConfNodeLookupChild key with
  | none =>
      cases found' : m.gpConfNodeLookupChild key with
      | none => rfl
      | some d => simp [found, found'] at same
  | some c =>
      cases found' : m.gpConfNodeLookupChild key with
      | none => simp [found, found'] at same
      | some d =>
          simp only [found, found', Option.map_some, Option.some.injEq] at same
          exact isSeq_of_shape same

/-- The values of a key in two pruned nodes. -/
theorem YamlValue.shape_load_iff (value : YamlValue) (rlevel : Nat) (key : CStr)
    (b b' h h' : Bool) :
    (value.load rlevel ⟨some key, none, b, false, h, []⟩).1.shape =
        (value.load rlevel ⟨some key, none, b', false, h', []⟩).1.shape ↔
      value.seqFits rlevel = true ∨ b = b' := by
  constructor
  · intro same
    have flags := isSeq_of_shape same
    rw [(value.load_fields rlevel _).2.1, (value.load_fields rlevel _).2.1] at flags
    cases fits : value.seqFits rlevel with
    | true => exact .inl rfl
    | false => exact .inr (by simpa [fits] using flags)
  · intro cause
    rcases cause with fits | same
    · cases value with
      | scalar v => simp [YamlValue.seqFits] at fits
      | map entries => simp [YamlValue.seqFits] at fits
      | seq items =>
          have first := items.shape_load rlevel ⟨some key, none, b, false, h, []⟩ b h
          have second := items.shape_load rlevel ⟨some key, none, b, false, h, []⟩ b' h'
          rw [YamlValue.seqFits] at fits
          rw [fits] at first second
          exact first.trans second.symm
    · subst same
      exact (value.shape_load_link rlevel ⟨some key, none, b, false, h', []⟩ h)

/-! ## Two loads -/

theorem shapeAt_put {n : GpConfNode} (noFinal : NoFinal n) (rlevel : Nat) (key : CStr)
    (value : YamlValue) :
    ∃ link, (value.put rlevel n key).shapeAt key =
      some (value.load rlevel ⟨some key, none, n.seqAt key, false, link, []⟩).1.shape := by
  obtain ⟨link, entered⟩ := noFinal.entered key
  refine ⟨link, ?_⟩
  rw [shapeAt, lookup_put, YamlValue.loaded, entered]
  rfl

/-- Keys that a document does not have are left alone. -/
theorem lookup_load_other : ∀ (entries : YamlEntries) (rlevel : Nat) (n : GpConfNode) {key : CStr},
    key ∉ entries.keys →
    (entries.load rlevel n).1.gpConfNodeLookupChild key = n.gpConfNodeLookupChild key
  | .nil, rlevel, n, key, _ => rfl
  | .cons k value rest, rlevel, n, key, absent => by
    simp only [YamlEntries.keys, List.mem_cons, not_or] at absent
    have here := lookup_put_other rlevel n value absent.1
    rw [load_cons]
    split
    · rw [lookup_load_other rest rlevel _ absent.2, here]
    · exact here

/-- What a document overrides depends on its own keys only. -/
theorem Overrides_congr {rlevel : Nat} {b b' c c' : CStr → Bool}
    {t t' u u' : CStr → Option Shape} :
    ∀ (entries : YamlEntries),
      (∀ k ∈ entries.keys, (b k = c k ∧ b' k = c' k) ∧ t k = u k ∧ t' k = u' k) →
      (entries.Overrides rlevel b b' t t' ↔ entries.Overrides rlevel c c' u u')
  | .nil, _ => Iff.rfl
  | .cons key value rest, same => by
    have here := (same key List.mem_cons_self).1
    have behind := fun k mem => same k (List.mem_cons_of_mem key mem)
    rw [YamlEntries.Overrides, YamlEntries.Overrides, here.1, here.2]
    refine and_congr_right fun _ => ?_
    split
    · exact Overrides_congr rest behind
    · refine forall₂_congr fun k mem => ?_
      rw [(behind k mem).2.1, (behind k mem).2.2]

/-- The subtrees under the keys of a document after loading it into two trees. -/
theorem shapeAt_load_iff : ∀ (entries : YamlEntries), entries.Plain → ∀ (rlevel : Nat)
    {n m : GpConfNode}, NoFinal n → NoFinal m →
    ((∀ k ∈ entries.keys,
        (entries.load rlevel n).1.shapeAt k = (entries.load rlevel m).1.shapeAt k) ↔
      entries.Overrides rlevel n.seqAt m.seqAt n.shapeAt m.shapeAt)
  | .nil, _, rlevel, n, m, _, _ => by simp [YamlEntries.keys, YamlEntries.Overrides]
  | .cons key value rest, plain, rlevel, n, m, noFinal, noFinal' => by
    obtain ⟨_, _, _, notAgain, _, plainRest⟩ := plain
    have apart : ∀ k ∈ rest.keys, k ≠ key := fun k mem same => notAgain (same ▸ mem)
    -- the node of this key is pruned in both trees, and only `is_seq` can differ
    have here : (value.put rlevel n key).shapeAt key = (value.put rlevel m key).shapeAt key ↔
        value.seqFits rlevel = true ∨ n.seqAt key = m.seqAt key := by
      obtain ⟨link, first⟩ := shapeAt_put noFinal rlevel key value
      obtain ⟨link', second⟩ := shapeAt_put noFinal' rlevel key value
      rw [first, second, Option.some.injEq]
      exact value.shape_load_iff rlevel key _ _ link link'
    -- the keys behind it are not touched by this one
    have others : ∀ (l : GpConfNode), ∀ k ∈ rest.keys,
        (value.put rlevel l key).seqAt k = l.seqAt k ∧
          (value.put rlevel l key).shapeAt k = l.shapeAt k := by
      intro l k mem
      have found := lookup_put_other rlevel l value (apart k mem)
      exact ⟨by rw [seqAt, seqAt, found], by rw [shapeAt, shapeAt, found]⟩
    rw [load_cons, load_cons, YamlEntries.keys, List.forall_mem_cons, YamlEntries.Overrides]
    split
    · have kept : ∀ l : GpConfNode, (rest.load rlevel l).1.shapeAt key = l.shapeAt key := by
        intro l
        rw [shapeAt, lookup_load_other rest rlevel l notAgain, shapeAt]
      have later := shapeAt_load_iff rest plainRest rlevel (value.put_noFinal rlevel key noFinal)
        (value.put_noFinal rlevel key noFinal')
      rw [kept, kept, here, later]
      refine and_congr_right fun _ => Overrides_congr rest fun k mem => ?_
      exact ⟨⟨(others n k mem).1, (others m k mem).1⟩, (others n k mem).2, (others m k mem).2⟩
    · rw [here]
      refine and_congr_right fun _ => forall₂_congr fun k mem => ?_
      rw [(others n k mem).2, (others m k mem).2]

/-- **A reload overrides.** `D₂` is loaded after `D₁`, and alone into a tree of its own;
no tree has final nodes. The subtrees under the keys of `D₂` are the same if and only if
each of its keys has a sequence in `D₂`, or had one before the second load in both trees
or in none (and keys behind a value that is nested too deep are as they were). -/
theorem reload_overrides_iff {s s' : ConfStore} {D₁ D₂ : YamlEntries} (plain₁ : D₁.Plain)
    (plain₂ : D₂.Plain) (noFinal : NoFinal s.root) (noFinal' : NoFinal s'.root) (fuel : Nat)
    (files : Files) :
    ∃ s₁ r₁ s₂ r₂ t r, s.gpConfYamlLoadString fuel files D₁.document = .ok (s₁, r₁) ∧
      s₁.gpConfYamlLoadString fuel files D₂.document = .ok (s₂, r₂) ∧
      s'.gpConfYamlLoadString fuel files D₂.document = .ok (t, r) ∧
      ((∀ k ∈ D₂.keys, s₂.root.shapeAt k = t.root.shapeAt k) ↔
        D₂.Overrides 2 (fun k => D₁.seqUnder 2 k || s.root.seqAt k) s'.root.seqAt
          s₁.root.shapeAt s'.root.shapeAt) := by
  have first : NoFinal (D₁.load 2 s.root).1 := YamlEntries.load_noFinal D₁ 2 noFinal
  refine ⟨_, _, _, _, _, _, loadString_document s fuel files plain₁,
    loadString_document _ fuel files plain₂, loadString_document s' fuel files plain₂, ?_⟩
  refine (shapeAt_load_iff D₂ plain₂ 2 first noFinal').trans (Overrides_congr D₂ fun k _ => ?_)
  exact ⟨⟨seqAt_load D₁ 2 s.root k, rfl⟩, rfl, rfl⟩

/-- A document with the one key `a`. -/
def keyA (value : YamlValue) : YamlEntries := .cons (ascii "a") value .nil

theorem keyA_plain {value : YamlValue} (plain : value.Plain) : (keyA value).Plain :=
  ⟨by decide, by decide, by decide, List.not_mem_nil, plain, trivial⟩

theorem gpConfInit_noFinal : NoFinal gpConfInit.root := .of_empty rfl

/-- `a: [x]` and then `a: [y]` is `a: [y]`. -/
theorem reload_overrides_seq :
    ∃ s₁ r₁ s₂ r₂ t r,
      gpConfInit.gpConfYamlLoadString 1 noFiles
        (keyA (.seq (.scalar (ascii "x") .nil))).document = .ok (s₁, r₁) ∧
      s₁.gpConfYamlLoadString 1 noFiles
        (keyA (.seq (.scalar (ascii "y") .nil))).document = .ok (s₂, r₂) ∧
      gpConfInit.gpConfYamlLoadString 1 noFiles
        (keyA (.seq (.scalar (ascii "y") .nil))).document = .ok (t, r) ∧
      s₂.root.shapeAt (ascii "a") = t.root.shapeAt (ascii "a") := by
  have plain₁ : (YamlValue.seq (.scalar (ascii "x") .nil)).Plain :=
    ⟨by decide, trivial⟩
  have plain₂ : (YamlValue.seq (.scalar (ascii "y") .nil)).Plain :=
    ⟨by decide, trivial⟩
  obtain ⟨s₁, r₁, s₂, r₂, t, r, first, second, alone, overrides⟩ :=
    reload_overrides_iff (keyA_plain plain₁) (keyA_plain plain₂) gpConfInit_noFinal
      gpConfInit_noFinal 1 noFiles
  refine ⟨s₁, r₁, s₂, r₂, t, r, first, second, alone, ?_⟩
  have isSeq : (YamlValue.seq (.scalar (ascii "y") .nil)).seqFits 2 = true := by decide
  have fits : (YamlValue.seq (.scalar (ascii "y") .nil)).fits 2 = true := by decide
  refine overrides.2 ⟨.inl isSeq, ?_⟩ (ascii "a") List.mem_cons_self
  rw [if_pos fits]
  trivial

/-- `a: [x]` and then `a: b`: the node of `a` stays a sequence. -/
theorem reload_leaves_isSeq :
    (keyA (.seq (.scalar (ascii "x") .nil))).Plain ∧ (keyA (.scalar (ascii "b"))).Plain ∧
    NoFinal gpConfInit.root ∧
    ∃ s₁ s₂ t,
      gpConfInit.gpConfYamlLoadString 1 noFiles
        (keyA (.seq (.scalar (ascii "x") .nil))).document = .ok (s₁, 0) ∧
      s₁.gpConfYamlLoadString 1 noFiles (keyA (.scalar (ascii "b"))).document = .ok (s₂, 0) ∧
      gpConfInit.gpConfYamlLoadString 1 noFiles (keyA (.scalar (ascii "b"))).document =
        .ok (t, 0) ∧
      s₂.root.seqAt (ascii "a") = true ∧ t.root.seqAt (ascii "a") = false ∧
      s₂.root.shapeAt (ascii "a") ≠ t.root.shapeAt (ascii "a") := by
  have plain₁ : (YamlValue.seq (.scalar (ascii "x") .nil)).Plain :=
    ⟨by decide, trivial⟩
  have plain₂ : (YamlValue.scalar (ascii "b")).Plain := show 0 ∉ ascii "b" by decide
  refine ⟨keyA_plain plain₁, keyA_plain plain₂, gpConfInit_noFinal, _, _, _,
    loadString_document _ 1 noFiles (keyA_plain plain₁),
    loadString_document _ 1 noFiles (keyA_plain plain₂),
    loadString_document _ 1 noFiles (keyA_plain plain₂), by decide, by decide, ?_⟩
  intro same
  have flags := seqAt_of_shapeAt same
  revert flags
  decide

end GpBase.Conf

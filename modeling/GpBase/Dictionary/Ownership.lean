import GpBase.Dictionary.Map

/-!
# Who frees the copies

The six dictionary types of `gp_dict.c` copy keys (`keyDup`) and most of them values
(`valDup`): the copy of a key belongs to its entry and is freed with it. Blocks are numbered in the
order of their allocation. Whatever is done with a dictionary, each copy is in one place:
in an entry of the tables, in an entry that was unlinked and that its holder has yet to
free, or freed. None of the types has a `valDestructor`: `dictFreeVal` frees nothing, and
the copies of values stay allocated. What is recorded of them is where the macro is
applied to them, which happens once to each.
-/

namespace GpBase.Dictionary

open GpBase.Lib

variable {K V : Type}

/-! ## Copies -/

/-- What `keyDup` and `valDup` return. -/
structure Block (α : Type) where
  block : Nat
  content : α
  deriving DecidableEq, Repr

/-- A dictionary type that copies: the hash and the comparison look into the blocks. -/
def DictType.copying (ty : DictType K) : DictType (Block K) :=
  ⟨fun k => ty.hashFunction k.content, fun k k' => ty.keyCompare k.content k'.content⟩

theorem DictType.Lawful.copying {ty : DictType K} (lawful : ty.Lawful) : ty.copying.Lawful where
  refl k := lawful.refl k.content
  symm k k' := lawful.symm k.content k'.content
  trans k k' k'' := lawful.trans k.content k'.content k''.content
  hash k k' := lawful.hash k.content k'.content

/-- An entry with its copies. -/
abbrev OwnEntry (K V : Type) := DictEntry (Block K) (Block V)

/-- The blocks of the keys. -/
def keysOf (l : List (OwnEntry K V)) : List Nat := l.map (·.key.block)

/-- The blocks of the values that have been stored. -/
def valsOf (l : List (OwnEntry K V)) : List Nat := l.filterMap fun e => e.val.map (·.block)

/-- A dictionary in use: the number of keys and of values copied so far, the entries that
were freed, the values that `dictReplace` passed to `dictFreeVal`, and the entries that
callers of `dictUnlink` hold. -/
structure Owned (K V : Type) where
  st : DictState (Block K) (Block V)
  keys : Nat
  vals : Nat
  freed : List (OwnEntry K V)
  overwritten : List Nat
  unlinked : List (OwnEntry K V)

namespace Owned

variable (ty : DictType K) (s : Owned K V)

/-- The dictionary. -/
def dict : Dict (Block K) (Block V) := s.st.dict

def setDict (d : Dict (Block K) (Block V)) : Owned K V := { s with st := { s.st with dict := d } }

/-- A key that is looked for lies in memory of the caller. -/
def probe (key : K) : Block K := ⟨s.keys, key⟩

/-- `dictAddRaw`: a new entry gets a copy of the key. -/
def dictAddRaw (key : K) : Except Fault (Owned K V × Dict.Added) := do
  let (d, added) ← s.dict.dictAddRaw ty.copying s.st.dictCanResize (s.probe key)
  let s := s.setDict d
  match added with
  | .new _ => return ({ s with keys := s.keys + 1 }, added)
  | .existing _ => return (s, added)

/-- `dictSetVal`: the entry gets a copy of the value. -/
def dictSetVal (ref : EntryRef) (v : V) : Owned K V :=
  { s.setDict (s.dict.dictSetVal ref ⟨s.vals, v⟩) with vals := s.vals + 1 }

def dictAdd (key : K) (v : V) : Except Fault (Owned K V × Bool) := do
  let (s, added) ← s.dictAddRaw ty key
  match added with
  | .new ref => return (s.dictSetVal ref v, true)
  | .existing _ => return (s, false)

def dictReplace (key : K) (v : V) : Except Fault (Owned K V × Bool) := do
  let (s, added) ← s.dictAddRaw ty key
  match added with
  | .new ref => return (s.dictSetVal ref v, true)
  | .existing (some ref) =>
    -- `auxentry`
    let aux := s.dict.deref ref
    let s := s.dictSetVal ref v
    return ({ s with overwritten := s.overwritten ++ valsOf aux.toList }, false)
  | .existing none => .error .outOfBounds

def dictAddOrFind (key : K) : Except Fault (Owned K V) := do
  let (s, _) ← s.dictAddRaw ty key
  return s

/-- `dictGenericDelete`: the entry is freed, or handed to the caller. -/
def dictGenericDelete (key : K) (nofree : Bool) : Except Fault (Owned K V × Bool) := do
  let (d, e) ← s.dict.dictGenericDelete ty.copying (s.probe key)
  let s := s.setDict d
  match e with
  | none => return (s, false)
  | some e =>
    if nofree then return ({ s with unlinked := s.unlinked ++ [e] }, true)
    else return ({ s with freed := s.freed ++ [e] }, true)

/-- `dictFreeUnlinkedEntry`, of an entry that a caller of `dictUnlink` holds. -/
def dictFreeUnlinkedEntry (i : Nat) : Owned K V :=
  match s.unlinked[i]? with
  | none => s
  | some e => { s with freed := s.freed ++ [e], unlinked := s.unlinked.eraseIdx i }

/-- The loop of `_dictClear` from bucket `i` on, with the count `used`: the entries that
it frees. -/
def clearLoop (ht : Dictht (Block K) (Block V)) :
    Nat → Nat → Nat → Except Fault (List (OwnEntry K V))
  | 0, _, _ => .ok []
  | rounds + 1, i, used =>
    if used = 0 then .ok []
    else do
      let chain ← ht.chain i
      let rest ← clearLoop ht rounds (i + 1) (used - chain.length)
      return chain ++ rest

/-- `_dictClear`. -/
def dictClear (ht : Dictht (Block K) (Block V)) : Except Fault (List (OwnEntry K V)) :=
  clearLoop ht ht.size 0 ht.used

/-- Both calls of `_dictClear` in `dictEmpty` and `dictRelease`. -/
def clearBoth : Except Fault (List (OwnEntry K V)) := do
  let first ← dictClear s.dict.ht0
  let second ← dictClear s.dict.ht1
  return s.freed ++ first ++ second

def dictEmpty : Except Fault (Owned K V) := do
  let freed ← s.clearBoth
  return { s.setDict Dict.dictEmpty with freed := freed }

/-- `dictRelease`: the entries that have been freed in the end. -/
def dictRelease : Except Fault (List (OwnEntry K V)) := s.clearBoth

/-- A call that neither copies nor frees. -/
def run (op : Op (Block K) (Block V)) : Except Fault (Owned K V) := do
  let (st, _) ← op.exec ty.copying s.st
  return { s with st := st }

end Owned

/-- The calls of the users of a dictionary. -/
inductive OwnedOp (K V : Type)
  | add (key : K) (v : V)
  | replace (key : K) (v : V)
  | addOrFind (key : K)
  | delete (key : K)
  | unlink (key : K)
  | freeUnlinked (i : Nat)
  | empty
  | find (key : K)
  | fetchValue (key : K)
  | expand (size : Nat)
  | resize
  | rehash (n : Nat)
  | enableResize
  | disableResize

namespace OwnedOp

def exec (ty : DictType K) (s : Owned K V) : OwnedOp K V → Except Fault (Owned K V)
  | add key v => Prod.fst <$> s.dictAdd ty key v
  | replace key v => Prod.fst <$> s.dictReplace ty key v
  | addOrFind key => s.dictAddOrFind ty key
  | delete key => Prod.fst <$> s.dictGenericDelete ty key false
  | unlink key => Prod.fst <$> s.dictGenericDelete ty key true
  | freeUnlinked i => .ok (s.dictFreeUnlinkedEntry i)
  | empty => s.dictEmpty
  | find key => s.run ty (.find (s.probe key))
  | fetchValue key => s.run ty (.fetchValue (s.probe key))
  | expand size => s.run ty (.expand size)
  | resize => s.run ty .resize
  | rehash n => s.run ty (.rehash n)
  | enableResize => s.run ty .enableResize
  | disableResize => s.run ty .disableResize

/-- The calls considered, as for `Op.Legal`. -/
def Legal (s : Owned K V) : OwnedOp K V → Prop
  | rehash n => s.dict.dictSize < 2 ^ 61 ∧ 1 ≤ n ∧ n < 2 ^ 31
  | expand size => s.dict.dictSize < 2 ^ 61 ∧ size < 2 ^ 64
  | _ => s.dict.dictSize < 2 ^ 61

theorem Legal.few {s : Owned K V} {op : OwnedOp K V} (legal : op.Legal s) :
    s.dict.dictSize < 2 ^ 61 := by
  cases op with
  | rehash n => exact legal.1
  | expand size => exact legal.1
  | _ => exact legal

end OwnedOp

/-- The state after a call, or the old one if it faults. -/
def OwnedOp.after (ty : DictType K) (s : Owned K V) (op : OwnedOp K V) : Owned K V :=
  match op.exec ty s with
  | .ok s' => s'
  | .error _ => s

/-- `_dictCreate`. -/
def ownedCreate : Owned K V := ⟨⟨dictCreate, true⟩, 0, 0, [], [], []⟩

/-- From `_dictCreate` on. -/
def ownedSys (ty : DictType K) : TSys (Owned K V) (OwnedOp K V) where
  init s := s = ownedCreate
  step s op s' := op.Legal s ∧ op.exec ty s = .ok s'

/-! ## Lists of entries -/

section Lists

variable {l l' : List (OwnEntry K V)}

theorem valsOf_append : valsOf (l ++ l') = valsOf l ++ valsOf l' := List.filterMap_append

theorem keysOf_perm (perm : l.Perm l') : (keysOf l).Perm (keysOf l') := perm.map _

theorem valsOf_perm (perm : l.Perm l') : (valsOf l).Perm (valsOf l') := perm.filterMap _

theorem valsOf_cons (e : OwnEntry K V) : valsOf (e :: l) = valsOf [e] ++ valsOf l :=
  valsOf_append (l := [e])

end Lists

/-! ## The ledger -/

section Ledger

variable {ty : DictType K} {s s' : Owned K V}

/-- All entries that were ever allocated. -/
def Owned.all (s : Owned K V) : List (OwnEntry K V) := s.freed ++ s.dict.entries ++ s.unlinked

/-- Each copy of a key is in one entry, freed or not, and each copy of a value in one
entry or overwritten. -/
structure Ledger (ty : DictType K) (s : Owned K V) : Prop where
  wf : s.dict.WF ty.copying
  keys : (keysOf s.all).Perm (List.range s.keys)
  vals : (s.overwritten ++ valsOf s.all).Perm (List.range s.vals)

/-- Entries change places only. -/
theorem Ledger.move (ledger : Ledger ty s) (wf : s'.dict.WF ty.copying) (keys : s'.keys = s.keys)
    (vals : s'.vals = s.vals) (overwritten : s'.overwritten = s.overwritten)
    (perm : s'.all.Perm s.all) : Ledger ty s' where
  wf := wf
  keys := by
    rw [keys]
    exact (keysOf_perm perm).trans ledger.keys
  vals := by
    rw [vals, overwritten]
    exact ((valsOf_perm perm).append_left _).trans ledger.vals

/-- A new entry. -/
theorem Ledger.new (ledger : Ledger ty s) (key : K) (wf : s'.dict.WF ty.copying)
    (keys : s'.keys = s.keys + 1) (vals : s'.vals = s.vals)
    (overwritten : s'.overwritten = s.overwritten)
    (perm : s'.all.Perm (⟨⟨s.keys, key⟩, none⟩ :: s.all)) : Ledger ty s' where
  wf := wf
  keys := by
    rw [keys, List.range_succ]
    refine (keysOf_perm perm).trans ((ledger.keys.cons s.keys).trans ?_)
    exact (List.perm_append_singleton _ _).symm
  vals := by
    rw [vals, overwritten]
    exact ((valsOf_perm perm).append_left _).trans ledger.vals

/-- A value is stored in an entry; what it held is passed to `dictFreeVal`. -/
theorem Ledger.store (ledger : Ledger ty s) (wf : s'.dict.WF ty.copying)
    (keys : s'.keys = s.keys) (vals : s'.vals = s.vals + 1) {e e' : OwnEntry K V} {v : V}
    {rest : List (OwnEntry K V)} (before : s.all.Perm (e :: rest)) (after : s'.all.Perm (e' :: rest))
    (same : e'.key = e.key) (stored : e'.val = some ⟨s.vals, v⟩)
    (overwritten : s'.overwritten = s.overwritten ++ valsOf [e]) : Ledger ty s' where
  wf := wf
  keys := by
    rw [keys]
    refine (keysOf_perm after).trans (List.Perm.trans ?_ ledger.keys)
    refine List.Perm.trans ?_ (keysOf_perm before).symm
    unfold keysOf
    rw [List.map_cons, List.map_cons, same]
  vals := by
    have new : valsOf [e'] = [s.vals] := by simp [valsOf, stored]
    have now : (s'.overwritten ++ valsOf s'.all).Perm
        (s.overwritten ++ valsOf [e] ++ ([s.vals] ++ valsOf rest)) := by
      rw [overwritten, ← new, ← valsOf_cons]
      exact (valsOf_perm after).append_left _
    have already : (s.overwritten ++ valsOf [e] ++ valsOf rest).Perm (List.range s.vals) := by
      rw [List.append_assoc, ← valsOf_cons]
      exact ((valsOf_perm before).symm.append_left _).trans ledger.vals
    rw [vals, List.range_succ]
    refine now.trans (List.Perm.trans ?_ (already.append_right [s.vals]))
    rw [List.append_assoc, List.append_assoc, List.append_assoc]
    exact (List.perm_append_comm.append_left _).append_left _

/-! ## Copying -/

theorem Ledger.represents (ledger : Ledger ty s) :
    Represents ty.copying s.dict s.dict.entries := ⟨ledger.wf, .refl _⟩

/-- The entries of the tables among all. -/
theorem Owned.all_perm (s : Owned K V) :
    s.all.Perm (s.dict.entries ++ (s.freed ++ s.unlinked)) := by
  unfold Owned.all
  rw [List.append_assoc]
  exact List.perm_append_comm_assoc _ _ _

/-- `dictAddRaw` finds the key, or adds an entry without a value. -/
theorem Ledger.dictAddRaw (ledger : Ledger ty s) (lawful : ty.Lawful)
    (few : s.dict.dictSize < 2 ^ 61) (key : K) :
    ∃ s' ref e, Ledger ty s' ∧ Dict.Points ty.copying s'.dict (s.probe key) ref ∧
      s'.dict.deref ref = some e ∧
      (s.dictAddRaw ty key = .ok (s', .existing (some ref)) ∨
        (s.dictAddRaw ty key = .ok (s', .new ref) ∧ e.val = none)) := by
  obtain ⟨d', ref, points, ⟨added, rep', present, pointed⟩ | ⟨added, rep', absent, pointed⟩⟩ :=
    ledger.represents.addRaw_cases lawful.copying s.st.dictCanResize few (s.probe key)
  · obtain ⟨e, found⟩ := Option.isSome_iff_exists.mp present
    refine ⟨s.setDict d', ref, e, ?_, points, pointed.trans found, .inl ?_⟩
    · exact ledger.move rep'.wf rfl rfl rfl ((rep'.perm.append_left _).append_right _)
    · simp only [Owned.dictAddRaw, added, bind, Except.bind, pure, Except.pure]
  · refine ⟨{ s.setDict d' with keys := s.keys + 1 }, ref, ⟨s.probe key, none⟩, ?_, points, pointed,
      .inr ⟨?_, rfl⟩⟩
    · refine ledger.new key rep'.wf rfl rfl rfl ?_
      refine (Owned.all_perm _).trans ((rep'.perm.append_right _).trans ?_)
      exact (Owned.all_perm s).symm.cons _
    · simp only [Owned.dictAddRaw, added, bind, Except.bind, pure, Except.pure]
      rfl

/-- `dictSetVal`, with `dictFreeVal` of what was there. -/
theorem Ledger.dictSetVal (ledger : Ledger ty s) (lawful : ty.Lawful) {key : Block K}
    {ref : EntryRef} (points : Dict.Points ty.copying s.dict key ref) {e : OwnEntry K V}
    (pointed : s.dict.deref ref = some e) (v : V) :
    Ledger ty { s.dictSetVal ref v with overwritten := s.overwritten ++ valsOf [e] } := by
  obtain ⟨e', pointed', found⟩ := points.deref_eq ledger.wf lawful.copying
  obtain rfl : e' = e := Option.some.inj (pointed'.symm.trans pointed)
  obtain ⟨wf, entries⟩ := points.dictSetVal_spec ledger.wf lawful.copying (⟨s.vals, v⟩ : Block V)
  obtain ⟨perm, others⟩ := (ledger.wf.unique lawful.copying key).perm_cons_eraseP found
  have hit : Dict.hasKey ty.copying key e' = true := List.find?_some found
  have changed : (s.dict.dictSetVal ref ⟨s.vals, v⟩).entries.Perm
      ({ e' with val := some ⟨s.vals, v⟩ } :: s.dict.entries.eraseP (Dict.hasKey ty.copying key)) := by
    rw [entries]
    refine (perm.map _).trans ?_
    rw [List.map_cons, Dict.setVal, if_pos hit]
    exact .of_eq (congrArg _ (map_ite_of_none others _))
  exact ledger.store wf rfl rfl ((Owned.all_perm s).trans (perm.append_right _))
    ((Owned.all_perm _).trans (changed.append_right _)) rfl rfl rfl

theorem Ledger.dictAdd (ledger : Ledger ty s) (lawful : ty.Lawful)
    (few : s.dict.dictSize < 2 ^ 61) (key : K) (v : V) :
    ∃ s' new, s.dictAdd ty key v = .ok (s', new) ∧ Ledger ty s' := by
  obtain ⟨s', ref, e, ledger', points, pointed, added | ⟨added, bare⟩⟩ :=
    ledger.dictAddRaw lawful few key
  · refine ⟨s', false, ?_, ledger'⟩
    simp only [Owned.dictAdd, added, bind, Except.bind, pure, Except.pure]
  · have stored := ledger'.dictSetVal lawful points pointed v
    have none : valsOf [e] = [] := by simp [valsOf, bare]
    rw [none, List.append_nil] at stored
    refine ⟨s'.dictSetVal ref v, true, ?_, stored⟩
    simp only [Owned.dictAdd, added, bind, Except.bind, pure, Except.pure]

theorem Ledger.dictReplace (ledger : Ledger ty s) (lawful : ty.Lawful)
    (few : s.dict.dictSize < 2 ^ 61) (key : K) (v : V) :
    ∃ s' new, s.dictReplace ty key v = .ok (s', new) ∧ Ledger ty s' := by
  obtain ⟨s', ref, e, ledger', points, pointed, added | ⟨added, bare⟩⟩ :=
    ledger.dictAddRaw lawful few key
  · refine ⟨_, false, ?_, ledger'.dictSetVal lawful points pointed v⟩
    simp only [Owned.dictReplace, added, bind, Except.bind, pure, Except.pure, pointed,
      Option.toList_some]
    rfl
  · have stored := ledger'.dictSetVal lawful points pointed v
    have none : valsOf [e] = [] := by simp [valsOf, bare]
    rw [none, List.append_nil] at stored
    refine ⟨s'.dictSetVal ref v, true, ?_, stored⟩
    simp only [Owned.dictReplace, added, bind, Except.bind, pure, Except.pure]

/-! ## Freeing -/

theorem Ledger.dictGenericDelete (ledger : Ledger ty s) (lawful : ty.Lawful) (key : K)
    (nofree : Bool) :
    ∃ s' ok, s.dictGenericDelete ty key nofree = .ok (s', ok) ∧ Ledger ty s' := by
  obtain ⟨d', deleted, rep'⟩ := ledger.represents.delete lawful.copying (s.probe key)
  cases found : PlainMap.find ty.copying s.dict.entries (s.probe key) with
  | none =>
      rw [found] at deleted
      rw [List.eraseP_of_forall_not (List.find?_eq_none.mp found)] at rep'
      refine ⟨s.setDict d', false, ?_, ?_⟩
      · simp only [Owned.dictGenericDelete, deleted, bind, Except.bind, pure, Except.pure]
      · exact ledger.move rep'.wf rfl rfl rfl ((rep'.perm.append_left _).append_right _)
  | some e =>
      rw [found] at deleted
      have unique := ledger.wf.unique lawful.copying (s.probe key)
      have perm : (e :: d'.entries).Perm s.dict.entries :=
        (rep'.perm.cons e).trans (unique.perm_cons_eraseP found).1.symm
      cases nofree with
      | true =>
          refine ⟨{ s.setDict d' with unlinked := s.unlinked ++ [e] }, true, ?_, ?_⟩
          · simp only [Owned.dictGenericDelete, deleted, bind, Except.bind, pure, Except.pure,
              if_true]
            rfl
          · refine ledger.move rep'.wf rfl rfl rfl ?_
            show (s.freed ++ d'.entries ++ (s.unlinked ++ [e])).Perm _
            refine List.Perm.trans ?_ ((perm.append_left s.freed).append_right s.unlinked)
            simp only [List.append_assoc]
            refine List.Perm.append_left _ ?_
            rw [← List.append_assoc]
            exact List.perm_append_singleton _ _
      | false =>
          refine ⟨{ s.setDict d' with freed := s.freed ++ [e] }, true, ?_, ?_⟩
          · simp only [Owned.dictGenericDelete, deleted, bind, Except.bind, pure, Except.pure,
              Bool.false_eq_true, if_false]
            rfl
          · refine ledger.move rep'.wf rfl rfl rfl ?_
            show (s.freed ++ [e] ++ d'.entries ++ s.unlinked).Perm _
            rw [List.append_assoc s.freed]
            exact (perm.append_left s.freed).append_right s.unlinked

theorem Ledger.dictFreeUnlinkedEntry (ledger : Ledger ty s) (i : Nat) :
    Ledger ty (s.dictFreeUnlinkedEntry i) := by
  unfold Owned.dictFreeUnlinkedEntry
  cases at_i : s.unlinked[i]? with
  | none => exact ledger
  | some e =>
      refine ledger.move ledger.wf rfl rfl rfl ?_
      show (s.freed ++ [e] ++ s.dict.entries ++ s.unlinked.eraseIdx i).Perm _
      obtain ⟨inside, rfl⟩ := List.getElem?_eq_some_iff.mp at_i
      have perm := List.getElem_cons_eraseIdx_perm inside
      refine List.Perm.trans ?_ (perm.append_left (s.freed ++ s.dict.entries))
      simp only [List.append_assoc]
      exact (List.perm_append_comm_assoc _ _ _).append_left _

/-- `_dictClear` frees what is in the buckets, although it stops with the count. -/
theorem clearLoop_eq (ht : Dictht (Block K) (Block V)) {rest : List (List (OwnEntry K V))}
    {i : Nat} (left : ht.table.drop i = rest) :
    Owned.clearLoop ht rest.length i rest.flatten.length = .ok rest.flatten := by
  induction rest generalizing i with
  | nil => rfl
  | cons chain rest ih =>
      rw [List.length_cons, Owned.clearLoop]
      split
      · rename_i none_left
        rw [List.eq_nil_of_length_eq_zero none_left]
      · have at_i : ht.table[i]? = some chain := by
          have := congrArg (·[0]?) left
          simpa using this
        have behind : ht.table.drop (i + 1) = rest := by
          rw [← List.tail_drop, left, List.tail_cons]
        simp only [Dictht.chain, at_i, bind, Except.bind, List.flatten_cons, List.length_append,
          Nat.add_sub_cancel_left, ih behind]
        rfl

theorem dictClear_eq {ht : Dictht (Block K) (Block V)} (wf : ht.WF ty.copying) :
    Owned.dictClear ht = .ok ht.entries := by
  unfold Owned.dictClear
  rw [wf.size_eq, wf.used]
  exact clearLoop_eq ht (List.drop_zero ..)

theorem Ledger.clearBoth (ledger : Ledger ty s) : s.clearBoth = .ok (s.freed ++ s.dict.entries) := by
  unfold Owned.clearBoth
  rw [dictClear_eq ledger.wf.first, dictClear_eq ledger.wf.second, Dict.entries,
    ← List.append_assoc]
  rfl

theorem Ledger.dictEmpty (ledger : Ledger ty s) :
    ∃ s', s.dictEmpty = .ok s' ∧ Ledger ty s' := by
  refine ⟨{ s.setDict Dict.dictEmpty with freed := s.freed ++ s.dict.entries }, ?_, ?_⟩
  · simp only [Owned.dictEmpty, ledger.clearBoth, bind, Except.bind, pure, Except.pure]
  · refine ledger.move .create rfl rfl rfl ?_
    show (s.freed ++ s.dict.entries ++ [] ++ s.unlinked).Perm _
    rw [List.append_nil]
    rfl

/-! ## Runs -/

/-- A call that neither copies nor frees. -/
theorem Ledger.run (ledger : Ledger ty s) (lawful : ty.Lawful) {op : Op (Block K) (Block V)}
    (legal : op.Legal s.st)
    (same : (PlainMap.exec ty.copying s.dict.entries op).1 = s.dict.entries) :
    ∃ s', s.run ty op = .ok s' ∧ Ledger ty s' := by
  obtain ⟨st, executed, rep'⟩ := Op.exec_refines lawful.copying ledger.represents legal
  rw [same] at rep'
  refine ⟨{ s with st := st }, ?_, ?_⟩
  · simp only [Owned.run, executed, bind, Except.bind, pure, Except.pure]
  · exact ledger.move rep'.wf rfl rfl rfl ((rep'.perm.append_left _).append_right _)

/-- The step lemma: every call returns, and the copies are accounted for. -/
theorem Ledger.exec (ledger : Ledger ty s) (lawful : ty.Lawful) {op : OwnedOp K V}
    (legal : op.Legal s) : ∃ s', op.exec ty s = .ok s' ∧ Ledger ty s' := by
  have few := legal.few
  cases op with
  | add key v =>
      obtain ⟨s', new, added, ledger'⟩ := ledger.dictAdd lawful few key v
      exact ⟨s', by rw [OwnedOp.exec, added]; rfl, ledger'⟩
  | replace key v =>
      obtain ⟨s', new, replaced, ledger'⟩ := ledger.dictReplace lawful few key v
      exact ⟨s', by rw [OwnedOp.exec, replaced]; rfl, ledger'⟩
  | addOrFind key =>
      obtain ⟨s', ref, e, ledger', _, _, added | ⟨added, _⟩⟩ := ledger.dictAddRaw lawful few key
      · refine ⟨s', ?_, ledger'⟩
        simp only [OwnedOp.exec, Owned.dictAddOrFind, added, bind, Except.bind, pure, Except.pure]
      · refine ⟨s', ?_, ledger'⟩
        simp only [OwnedOp.exec, Owned.dictAddOrFind, added, bind, Except.bind, pure, Except.pure]
  | delete key =>
      obtain ⟨s', ok, deleted, ledger'⟩ := ledger.dictGenericDelete lawful key false
      exact ⟨s', by rw [OwnedOp.exec, deleted]; rfl, ledger'⟩
  | unlink key =>
      obtain ⟨s', ok, deleted, ledger'⟩ := ledger.dictGenericDelete lawful key true
      exact ⟨s', by rw [OwnedOp.exec, deleted]; rfl, ledger'⟩
  | freeUnlinked i => exact ⟨_, rfl, ledger.dictFreeUnlinkedEntry i⟩
  | empty => exact ledger.dictEmpty
  | find key => exact ledger.run lawful few rfl
  | fetchValue key => exact ledger.run lawful few rfl
  | expand size => exact ledger.run lawful legal rfl
  | resize => exact ledger.run lawful few rfl
  | rehash n => exact ledger.run lawful legal rfl
  | enableResize => exact ledger.run lawful few rfl
  | disableResize => exact ledger.run lawful few rfl

theorem run_ledger (lawful : ty.Lawful) {ops : List (OwnedOp K V)}
    (run : (ownedSys ty).Run ops s) : Ledger ty s := by
  refine run.invariant (I := fun _ s => Ledger ty s) ?_ ?_
  · rintro s rfl
    exact ⟨.create, .refl _, .refl _⟩
  · rintro ops s op s' _ ledger ⟨legal, executed⟩
    obtain ⟨s'', executed', ledger'⟩ := ledger.exec lawful legal
    obtain rfl := Except.ok.inj (executed.symm.trans executed')
    exact ledger'

/-- **Every copy is accounted for.** After any calls, every further call returns, and the
copies of keys that were ever made are those of the entries freed, of the entries in the
tables and of the entries unlinked, each once; those of values are the same and the
overwritten ones. After `dictRelease` no copy of a key is left but those of entries that
were unlinked, none was freed twice, and `dictFreeVal` was applied once to each copy of a
value but those of unlinked entries. -/
theorem copies_accounted (lawful : ty.Lawful) {ops : List (OwnedOp K V)}
    (run : (ownedSys ty).Run ops s) :
    (∀ op : OwnedOp K V, op.Legal s → ∃ s', op.exec ty s = .ok s') ∧
    (keysOf (s.freed ++ s.dict.entries ++ s.unlinked)).Perm (List.range s.keys) ∧
    (s.overwritten ++ valsOf (s.freed ++ s.dict.entries ++ s.unlinked)).Perm
      (List.range s.vals) ∧
    ∃ freed, s.dictRelease = .ok freed ∧
      (keysOf (freed ++ s.unlinked)).Perm (List.range s.keys) ∧
      (s.overwritten ++ valsOf (freed ++ s.unlinked)).Perm (List.range s.vals) := by
  have ledger := run_ledger lawful run
  refine ⟨?_, ledger.keys, ledger.vals, _, ledger.clearBoth, ledger.keys, ledger.vals⟩
  intro op legal
  obtain ⟨s', executed, _⟩ := ledger.exec lawful legal
  exact ⟨s', executed⟩

end Ledger

/-- A key is added and its entry unlinked: nothing is left for `dictRelease`, and the
holder of the entry has the one copy of the key. -/
theorem copies_accounted_unlinked :
    ∃ s, (ownedSys natType).Run [.add 1 10, .unlink 1] s ∧ s.keys = 1 ∧ s.vals = 1 ∧
      ∃ freed, s.dictRelease = .ok freed ∧ (keysOf (freed ++ s.unlinked)).Perm [0] := by
  have small : ∀ n, n ≤ 1 → n < 2 ^ 61 := fun n _ => by omega
  have run₀ : (ownedSys natType).Run [] (ownedCreate : Owned Nat Nat) := .init rfl
  have run₁ : (ownedSys natType).Run [.add 1 10]
      (OwnedOp.after natType ownedCreate (.add 1 10)) := .step run₀ ⟨small 0 (by decide), by rfl⟩
  have run₂ : (ownedSys natType).Run [.add 1 10, .unlink 1]
      (OwnedOp.after natType (OwnedOp.after natType ownedCreate (.add 1 10)) (.unlink 1)) :=
    .step run₁ ⟨small 1 (by decide), by rfl⟩
  obtain ⟨_, _, _, freed, released, keys, _⟩ := copies_accounted natType_lawful run₂
  exact ⟨_, run₂, by rfl, by rfl, freed, released, keys⟩

end GpBase.Dictionary

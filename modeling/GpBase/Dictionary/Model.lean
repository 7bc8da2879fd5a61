import GpBase.Lib.Mem
import GpBase.Lib.Word

/-!
# The hash table with incremental rehashing

Translation of `gp_dict.c`. A table is the list of its chains, the empty list
standing for the `NULL` pointer of a table that was never allocated; an index
outside it is an `outOfBounds` fault and a failed `assert` an `abort`.
Allocations succeed. Entries are values: where the C code hands out a pointer
to an entry, the model has an `EntryRef`.
-/

namespace GpBase.Dictionary

open GpBase.Lib

/-- The part of `dictType` that decides where an entry is: the hash function and
the comparison of keys. -/
structure DictType (K : Type) where
  hashFunction : K → BitVec 64
  keyCompare : K → K → Bool

/-- `val` is `none` from the allocation of an entry to the first store. -/
structure DictEntry (K V : Type) where
  key : K
  val : Option V
  deriving DecidableEq, Repr

structure Dictht (K V : Type) where
  table : List (List (DictEntry K V))
  size : Nat
  sizemask : BitVec 64
  used : Nat
  deriving DecidableEq, Repr

/-- `rehashidx` is `none` for -1. -/
structure Dict (K V : Type) where
  ht0 : Dictht K V
  ht1 : Dictht K V
  rehashidx : Option Nat
  iterators : Nat
  deriving DecidableEq, Repr

/-- A pointer to an entry: table, bucket and position in the chain. -/
structure EntryRef where
  second : Bool
  idx : Nat
  pos : Nat
  deriving DecidableEq, Repr

variable {K V : Type}

/-- `_dictReset`. -/
def dictReset : Dictht K V := ⟨[], 0, 0, 0⟩

/-- `_dictCreate`. -/
def dictCreate : Dict K V := ⟨dictReset, dictReset, none, 0⟩

/-- `DICT_HT_INITIAL_SIZE`. -/
def initialSize : Nat := 4

/-- `dict_force_resize_ratio`. -/
def forceResizeRatio : Nat := 5

/-- The bucket of a hash in a table with this mask. -/
def slot (hash sizemask : BitVec 64) : Nat := (hash &&& sizemask).toNat

namespace Dictht

variable (ht : Dictht K V)

/-- `ht->table[i]`. -/
def chain (i : Nat) : Except Fault (List (DictEntry K V)) :=
  match ht.table[i]? with
  | some chain => .ok chain
  | none => .error .outOfBounds

/-- Put an entry in front of chain `i` and count it. -/
def pushFront (i : Nat) (e : DictEntry K V) : Except Fault (Dictht K V) := do
  let chain ← ht.chain i
  return { ht with table := ht.table.set i (e :: chain), used := ht.used + 1 }

end Dictht

namespace Dict

variable (ty : DictType K) (canResize : Bool) (d : Dict K V)

def dictIsRehashing : Bool := d.rehashidx.isSome

def dictSize : Nat := d.ht0.used + d.ht1.used

/-- `d->ht[table]`. -/
def ht (second : Bool) : Dictht K V := if second then d.ht1 else d.ht0

def setHt (second : Bool) (t : Dictht K V) : Dict K V :=
  if second then { d with ht1 := t } else { d with ht0 := t }

/-! ## Resizing -/

/-- The loop of `_dictNextPower`; sixty-four rounds are more than it takes. -/
def nextPowerLoop (size : Nat) : Nat → Nat → Nat
  | 0, i => i
  | rounds + 1, i => if size ≤ i then i else nextPowerLoop size rounds (i * 2)

/-- `_dictNextPower`. -/
def dictNextPower (size : Nat) : Nat :=
  if 2 ^ 63 - 1 ≤ size then 2 ^ 63 else nextPowerLoop size 64 initialSize

/-- A freshly allocated table. -/
def newTable (size : Nat) : Dictht K V :=
  ⟨List.replicate size [], size, BitVec.ofNat 64 (size - 1), 0⟩

/-- `dictExpand`; the flag is `DICT_OK`. -/
def dictExpand (size : Nat) : Dict K V × Bool :=
  if d.dictIsRehashing || size < d.ht0.used then (d, false)
  else if dictNextPower size = d.ht0.size then (d, false)
  else if d.ht0.table.isEmpty then ({ d with ht0 := newTable (dictNextPower size) }, true)
  else ({ d with ht1 := newTable (dictNextPower size), rehashidx := some 0 }, true)

/-- `dictResize`: the number of entries goes through an `int`. -/
def dictResize : Dict K V × Bool :=
  if !canResize || d.dictIsRehashing then (d, false)
  else
    let minimal := int32 d.ht0.used
    d.dictExpand (if minimal < initialSize then initialSize else minimal.toNat)

/-! ## Rehashing -/

/-- How the search for a non-empty bucket ends. -/
inductive Skipped (K V : Type)
  | /-- too many empty buckets -/ exhausted (idx : Nat)
  | found (idx : Nat) (visits : Int) (bucket : List (DictEntry K V))

/-- The loop over empty buckets in `dictRehash`, on the buckets from `idx` on. -/
def skipEmpty : List (List (DictEntry K V)) → Nat → Int → Except Fault (Skipped K V)
  | [], _, _ => .error .outOfBounds
  | [] :: rest, idx, visits =>
    if int32 (visits - 1) = 0 then .ok (.exhausted (idx + 1))
    else skipEmpty rest (idx + 1) (int32 (visits - 1))
  | (e :: es) :: _, idx, visits => .ok (.found idx visits (e :: es))

/-- Move the entries of a bucket to the second table, one by one. -/
def moveBucket (d : Dict K V) : List (DictEntry K V) → Except Fault (Dict K V)
  | [] => .ok d
  | e :: es => do
    let t ← d.ht1.pushFront (slot (ty.hashFunction e.key) d.ht1.sizemask) e
    moveBucket { d with ht0 := { d.ht0 with used := d.ht0.used - 1 }, ht1 := t } es

/-- The end of `dictRehash`; the flag says that there is more to rehash. -/
def rehashFinish : Dict K V × Bool :=
  if d.ht0.used = 0 then ({ d with ht0 := d.ht1, ht1 := dictReset, rehashidx := none }, false)
  else (d, true)

/-- The loop of `dictRehash`: at most `n` buckets, from `idx` on. -/
def rehashLoop (d : Dict K V) (idx : Nat) : Nat → Int → Except Fault (Dict K V × Bool)
  | 0, _ => .ok { d with rehashidx := some idx }.rehashFinish
  | n + 1, visits =>
    if d.ht0.used = 0 then .ok { d with rehashidx := some idx }.rehashFinish
    else if ¬ idx < d.ht0.size then .error .abort
    else do
      match ← skipEmpty (d.ht0.table.drop idx) idx visits with
      | .exhausted idx => return ({ d with rehashidx := some idx }, true)
      | .found idx visits bucket =>
        let d ← moveBucket ty d bucket
        let d := { d with ht0 := { d.ht0 with table := d.ht0.table.set idx [] } }
        rehashLoop d (idx + 1) n visits

/-- `dictRehash(d, n)` for `n ≥ 0`. -/
def dictRehash (n : Nat) : Except Fault (Dict K V × Bool) :=
  match d.rehashidx with
  | none => .ok (d, false)
  | some idx => rehashLoop ty d idx n (int32 (n * 10))

/-- `_dictRehashStep`, guarded as its callers guard it. -/
def rehashStep : Except Fault (Dict K V) :=
  if d.dictIsRehashing && d.iterators = 0 then do
    let (d, _) ← d.dictRehash ty 1
    return d
  else .ok d

/-- `_dictExpandIfNeeded`. -/
def dictExpandIfNeeded : Dict K V × Bool :=
  if d.dictIsRehashing then (d, true)
  else if d.ht0.size = 0 then d.dictExpand initialSize
  else if d.ht0.size ≤ d.ht0.used && (canResize || forceResizeRatio < d.ht0.used / d.ht0.size) then
    d.dictExpand (d.ht0.used * 2 % 2 ^ 64)
  else (d, true)

/-! ## Searching -/

/-- Does this entry have the key? -/
def hasKey (key : K) (e : DictEntry K V) : Bool := ty.keyCompare key e.key

/-- Where a search for a key ended: at an entry, or in the bucket of the last
table searched. -/
inductive Located
  | found (ref : EntryRef)
  | missing (idx : Nat)

/-- The loop over both tables that `dictFind`, `dictGenericDelete` and
`_dictKeyIndex` share. -/
def locate (key : K) : Except Fault Located := do
  let idx := slot (ty.hashFunction key) d.ht0.sizemask
  let chain ← d.ht0.chain idx
  match chain.findIdx? (hasKey ty key) with
  | some pos => return .found ⟨false, idx, pos⟩
  | none =>
    if !d.dictIsRehashing then return .missing idx
    else
      let idx := slot (ty.hashFunction key) d.ht1.sizemask
      let chain ← d.ht1.chain idx
      match chain.findIdx? (hasKey ty key) with
      | some pos => return .found ⟨true, idx, pos⟩
      | none => return .missing idx

/-- The entry behind a pointer. -/
def deref (ref : EntryRef) : Option (DictEntry K V) := do
  let chain ← (d.ht ref.second).table[ref.idx]?
  chain[ref.pos]?

/-- Change the chain that holds a pointer's entry. -/
def onChain (ref : EntryRef) (f : List (DictEntry K V) → List (DictEntry K V)) : Dict K V :=
  let t := d.ht ref.second
  d.setHt ref.second { t with table := t.table.modify ref.idx f }

/-- `dictSetVal`. -/
def dictSetVal (ref : EntryRef) (v : V) : Dict K V :=
  d.onChain ref fun chain => chain.modify ref.pos fun e => { e with val := some v }

/-- Take an entry out of its chain and off the count. -/
def unlink (ref : EntryRef) : Dict K V :=
  let d := d.onChain ref fun chain => chain.eraseIdx ref.pos
  let t := d.ht ref.second
  d.setHt ref.second { t with used := t.used - 1 }

/-! ## The operations -/

/-- The two results of `dictAddRaw`: the new entry, or `*existing` (`NULL` when
the table could not be expanded). -/
inductive Added
  | new (ref : EntryRef)
  | existing (ref : Option EntryRef)

/-- `dictAddRaw` with `_dictKeyIndex`. -/
def dictAddRaw (key : K) : Except Fault (Dict K V × Added) := do
  let d ← d.rehashStep ty
  let (d, expanded) := d.dictExpandIfNeeded canResize
  if !expanded then return (d, .existing none)
  else
    match ← d.locate ty key with
    | .found ref => return (d, .existing (some ref))
    | .missing idx =>
      let second := d.dictIsRehashing
      let t ← (d.ht second).pushFront idx ⟨key, none⟩
      return (d.setHt second t, .new ⟨second, idx, 0⟩)

/-- `dictAdd`; the flag is `DICT_OK`. -/
def dictAdd (key : K) (v : V) : Except Fault (Dict K V × Bool) := do
  let (d, added) ← d.dictAddRaw ty canResize key
  match added with
  | .new ref => return (d.dictSetVal ref v, true)
  | .existing _ => return (d, false)

/-- `dictReplace`; the flag is the 1 of a key added from scratch. -/
def dictReplace (key : K) (v : V) : Except Fault (Dict K V × Bool) := do
  let (d, added) ← d.dictAddRaw ty canResize key
  match added with
  | .new ref => return (d.dictSetVal ref v, true)
  | .existing (some ref) => return (d.dictSetVal ref v, false)
  -- `*existing` of a `NULL` pointer
  | .existing none => .error .outOfBounds

/-- `dictAddOrFind`: the entry found or added. -/
def dictAddOrFind (key : K) : Except Fault (Dict K V × Option (DictEntry K V)) := do
  let (d, added) ← d.dictAddRaw ty canResize key
  match added with
  | .new ref => return (d, d.deref ref)
  | .existing (some ref) => return (d, d.deref ref)
  | .existing none => return (d, none)

/-- `dictGenericDelete`, and so `dictUnlink`: the entry taken out. -/
def dictGenericDelete (key : K) : Except Fault (Dict K V × Option (DictEntry K V)) :=
  if d.ht0.used = 0 ∧ d.ht1.used = 0 then .ok (d, none)
  else do
    let d ← d.rehashStep ty
    match ← d.locate ty key with
    | .found ref => return (d.unlink ref, d.deref ref)
    | .missing _ => return (d, none)

/-- `dictDelete`; the flag is `DICT_OK`. -/
def dictDelete (key : K) : Except Fault (Dict K V × Bool) := do
  let (d, e) ← d.dictGenericDelete ty key
  return (d, e.isSome)

def dictFind (key : K) : Except Fault (Dict K V × Option (DictEntry K V)) :=
  if d.ht0.used + d.ht1.used = 0 then .ok (d, none)
  else do
    let d ← d.rehashStep ty
    match ← d.locate ty key with
    | .found ref => return (d, d.deref ref)
    | .missing _ => return (d, none)

/-- `dictFetchValue`: `none` for `NULL`, else what the entry holds. -/
def dictFetchValue (key : K) : Except Fault (Dict K V × Option (Option V)) := do
  let (d, e) ← d.dictFind ty key
  return (d, e.map (·.val))

/-- `dictEmpty`: `_dictClear` frees every entry and resets the table. -/
def dictEmpty : Dict K V := ⟨dictReset, dictReset, none, 0⟩

end Dict

end GpBase.Dictionary

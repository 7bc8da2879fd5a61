import GpBase.Lib.Mem
import GpBase.Lib.Word

/-!
# The timer wheel

Translation of `gp_timer.c`. A timer is an address; the wheel holds the lists of
timers of its five vectors and the timers that are allocated. The node of a
timer says which list it is on, as its two pointers do. Reading a timer that was
freed is an `outOfBounds` fault, and a loop that exceeds its `fuel` a `hang`.
Callbacks are set, and given to `gp_run_timers` as what they do to the wheel.
-/

namespace GpBase.Timer

open GpBase.Lib

def tvrBits : Nat := 8
def tvnBits : Nat := 6
def tvrSize : Nat := 256
def tvnSize : Nat := 64
def tvrMask : Nat := 255
def tvnMask : Nat := 63

/-- `MAX_TVAL`. -/
def maxTval : Nat := 2 ^ 32 - 1

abbrev TimerId := Nat

structure GpTimerList where
  expires : Nat
  interval : Int
  repeatFlag : Int
  /-- `timer->loop` is set, to the loop of this wheel -/
  hasLoop : Bool
  /-- the vector and the slot of the list that the timer is on -/
  node : Option (Nat × Nat)
  deriving DecidableEq, Repr

/-- `gp_timer_base`, with the timers that are allocated; `vec 0` is `tv1` and
`vec 4` is `tv5`. -/
structure GpTimerBase where
  timerJiffies : Nat
  nextTimer : Nat
  vec : Nat → Nat → List TimerId
  timers : TimerId → Option GpTimerList

/-- `create_gp_timer_base`. -/
def createGpTimerBase (jiffies : Nat) : GpTimerBase where
  timerJiffies := jiffies
  nextTimer := maxTval
  vec := fun _ _ => []
  timers := fun _ => none

namespace GpTimerBase

variable (b : GpTimerBase)

/-- Read a timer. -/
def timer (id : TimerId) : Except Fault GpTimerList :=
  match b.timers id with
  | some t => .ok t
  | none => .error .outOfBounds

def setTimer (id : TimerId) (t : GpTimerList) : GpTimerBase :=
  { b with timers := Function.update b.timers id (some t) }

/-- `create_gp_timer`, at a free address. -/
def createGpTimer (id : TimerId) (expires : Nat) (interval repeatFlag : Int) : GpTimerBase :=
  b.setTimer id ⟨expires, interval, repeatFlag, false, none⟩

/-- `timer->loop = loop`. -/
def setLoop (id : TimerId) : Except Fault GpTimerBase := do
  let t ← b.timer id
  return b.setTimer id { t with hasLoop := true }

def setList (l i : Nat) (ids : List TimerId) : GpTimerBase :=
  { b with vec := Function.update b.vec l (Function.update (b.vec l) i ids) }

/-! ## Lists of timers -/

/-- `gp_list_next`: past the end of another list lies that list's head, which is
no timer. -/
def listNext (l i : Nat) : Option TimerId → Except Fault (Option TimerId)
  | none => .ok none
  | some id => do
    let t ← b.timer id
    match t.node with
    | none => return none
    | some (l', i') =>
      match ((b.vec l' i').drop ((b.vec l' i').idxOf id + 1)).head? with
      | some id' => return some id'
      | none => if (l', i') = (l, i) then return none else .error .outOfBounds

/-- `gp_list_node_remove`. -/
def listNodeRemove (id : TimerId) : Except Fault GpTimerBase := do
  let t ← b.timer id
  match t.node with
  | none => return b
  | some (l, i) =>
    return (b.setList l i ((b.vec l i).erase id)).setTimer id { t with node := none }

/-- `gp_list_append`. -/
def listAppend (l i : Nat) (id : TimerId) : Except Fault GpTimerBase := do
  let t ← b.timer id
  return (b.setList l i (b.vec l i ++ [id])).setTimer id { t with node := some (l, i) }

/-- The rounds of `GP_LIST_FOREACH_SAFE` from the pointers `it` and `tmp` on. -/
def foreachLoop {σ : Type} (wheel : σ → GpTimerBase) (body : σ → TimerId → Except Fault σ)
    (l i : Nat) : Nat → σ → Option TimerId → Option TimerId → Except Fault σ
  | 0, _, _, _ => .error .hang
  | _ + 1, s, none, _ => .ok s
  | fuel + 1, s, some it, tmp => do
    let s ← body s it
    let tmp' ← (wheel s).listNext l i tmp
    foreachLoop wheel body l i fuel s tmp tmp'

/-- `GP_LIST_FOREACH_SAFE` over slot `i` of vector `l`. -/
def foreachSafe {σ : Type} (fuel : Nat) (wheel : σ → GpTimerBase)
    (body : σ → TimerId → Except Fault σ) (l i : Nat) (s : σ) : Except Fault σ := do
  let it := ((wheel s).vec l i).head?
  let tmp ← (wheel s).listNext l i it
  foreachLoop wheel body l i fuel s it tmp

/-! ## The next expiry -/

def expiresOf (id : TimerId) : Nat := ((b.timers id).map (·.expires)).getD 0

/-- The search of `gp_next_timer` in `tv1`: the first timer and its slot. -/
def searchRoot (index : Nat) : Nat → Nat → Option (Nat × Nat)
  | 0, _ => none
  | rounds + 1, slot =>
    match b.vec 0 slot with
    | id :: _ => some (slot, b.expiresOf id)
    | [] =>
      let slot := (slot + 1) &&& tvrMask
      if slot = index then none else searchRoot index rounds slot

/-- The search of `gp_next_timer` in one of the other vectors: `found`,
`expires`, and whether the function returns from there. -/
def searchVector (l index : Nat) : Nat → Nat → Bool → Nat → Bool × Nat × Bool
  | 0, _, found, expires => (found, expires, false)
  | rounds + 1, slot, found, expires =>
    let expires := (b.vec l slot).foldl
      (fun (acc : Nat) id => if (b.expiresOf id : Int) - acc < 0 then b.expiresOf id else acc) expires
    let found := found || !(b.vec l slot).isEmpty
    -- `break` if a later vector may have an earlier timer, `return` if not
    if found then (true, expires, !(index = 0 || slot < index))
    else
      let slot := (slot + 1) &&& tvnMask
      if slot = index then (false, expires, false)
      else searchVector l index rounds slot false expires

/-- The loop over `tv2` to `tv5`. -/
def searchVectors : List Nat → Nat → Bool → Nat → Nat
  | [], _, _, expires => expires
  | l :: ls, jiffies, found, expires =>
    let index := jiffies &&& tvnMask
    let (found, expires, returned) := b.searchVector l index tvnSize index found expires
    if returned then expires
    else
      let jiffies := if index ≠ 0 then uint32 (jiffies + (tvnSize - index)) else jiffies
      searchVectors ls (jiffies >>> tvnBits) found expires

def gpNextTimer : Nat :=
  let index := b.timerJiffies &&& tvrMask
  let jiffies := if index ≠ 0 then uint32 (b.timerJiffies + (tvrSize - index)) else b.timerJiffies
  match b.searchRoot index tvrSize index with
  | some (slot, expires) =>
    if index = 0 ∨ slot < index then
      b.searchVectors [1, 2, 3, 4] (jiffies >>> tvrBits) true expires
    else expires
  | none => b.searchVectors [1, 2, 3, 4] (jiffies >>> tvrBits) false maxTval

def updateNext : GpTimerBase := { b with nextTimer := b.gpNextTimer }

/-! ## Adding and deleting -/

/-- The vector and the slot that `gp_timer_internal_add` chooses. The test for an
expiry in the past is made on an unsigned number and always fails. -/
def slotFor (jiffies expires : Nat) : Nat × Nat :=
  let idx := uint32 (expires - jiffies)
  if idx < tvrSize then (0, expires &&& tvrMask)
  else if idx < 1 <<< (tvrBits + tvnBits) then (1, (expires >>> tvrBits) &&& tvnMask)
  else if idx < 1 <<< (tvrBits + 2 * tvnBits) then
    (2, (expires >>> (tvrBits + tvnBits)) &&& tvnMask)
  else if idx < 1 <<< (tvrBits + 3 * tvnBits) then
    (3, (expires >>> (tvrBits + 2 * tvnBits)) &&& tvnMask)
  else if (idx : Int) < 0 then (0, jiffies &&& tvrMask)
  else
    let expires := if maxTval < idx then uint32 (maxTval + jiffies) else expires
    (4, (expires >>> (tvrBits + 3 * tvnBits)) &&& tvnMask)

def gpTimerInternalAdd (id : TimerId) : Except Fault GpTimerBase := do
  let t ← b.timer id
  let (l, i) := slotFor b.timerJiffies t.expires
  let b ← b.listAppend l i id
  return b.updateNext

def gpTimerAdd (id : TimerId) : Except Fault GpTimerBase := do
  let b ← b.listNodeRemove id
  b.gpTimerInternalAdd id

def gpTimerDel (id : TimerId) : Except Fault GpTimerBase := b.listNodeRemove id

def gpTimerMod (id : TimerId) (expires : Nat) (interval repeatFlag : Int) :
    Except Fault GpTimerBase := do
  let b ← b.gpTimerDel id
  let t ← b.timer id
  let b := b.setTimer id
    { t with expires := expires, interval := interval, repeatFlag := repeatFlag }
  b.gpTimerAdd id

/-- `destruct_gp_timer`. -/
def destructGpTimer (id : TimerId) : Except Fault GpTimerBase := do
  let b ← b.listNodeRemove id
  return { b with timers := Function.update b.timers id none }

/-! ## Running -/

/-- The body of `cascade`; it goes through `timer->loop`. -/
def cascadeOne (b : GpTimerBase) (id : TimerId) : Except Fault GpTimerBase := do
  let b ← b.listNodeRemove id
  let t ← b.timer id
  if !t.hasLoop then .error .outOfBounds else b.gpTimerInternalAdd id

/-- `cascade`, on slot `i` of vector `l`. -/
def cascade (fuel l i : Nat) : Except Fault GpTimerBase :=
  foreachSafe fuel id cascadeOne l i b

/-- `INDEX(base, n)`. -/
def index (n : Nat) : Nat := (b.timerJiffies >>> (tvrBits + n * tvnBits)) &&& tvnMask

/-- The nested cascades of `gp_run_timers`, from vector `n + 1` on. -/
def cascades (fuel : Nat) (b : GpTimerBase) : List Nat → Except Fault GpTimerBase
  | [] => .ok b
  | n :: ns => do
    let i := b.index n
    let b ← b.cascade fuel (n + 1) i
    -- the nested `if (i == 0)`
    if i = 0 then cascades fuel b ns else return b

/-- The head of a pass: cascade what begins with this tick. -/
def passHead (fuel : Nat) : Except Fault GpTimerBase :=
  if b.timerJiffies &&& tvrMask = 0 then cascades fuel b [0, 1, 2, 3] else .ok b

/-- The body of the loop over the timers of a pass; the second component
collects the timers whose callback was called. -/
def expireOne (callback : TimerId → GpTimerBase → Except Fault GpTimerBase)
    (s : GpTimerBase × List TimerId) (id : TimerId) :
    Except Fault (GpTimerBase × List TimerId) := do
  -- the callback may have deleted or freed the timer; the code reads it all the same
  let b ← callback id s.1
  let b ← b.gpTimerDel id
  let t ← b.timer id
  let b ←
    if t.repeatFlag = 1 then
      (b.setTimer id { t with expires := uint32 (t.expires + t.interval) }).gpTimerAdd id
    else b.destructGpTimer id
  return (b.updateNext, s.2 ++ [id])

/-- One pass of the loop of `gp_run_timers`. -/
def pass (fuel : Nat) (callback : TimerId → GpTimerBase → Except Fault GpTimerBase) :
    Except Fault (GpTimerBase × List TimerId) := do
  let i := b.timerJiffies &&& tvrMask
  let b ← b.passHead fuel
  let b := { b with timerJiffies := uint32 (b.timerJiffies + 1) }
  foreachSafe fuel Prod.fst (expireOne callback) 0 i (b, [])

/-- `gp_run_timers`: the wheel, and for each pass the value of `timer_jiffies` at
its head and the timers that fired. -/
def gpRunTimers (fuel : Nat) (callback : TimerId → GpTimerBase → Except Fault GpTimerBase)
    (jiffies : Nat) (b : GpTimerBase) :
    Nat → Except Fault (GpTimerBase × List (Nat × List TimerId))
  | 0 => .error .hang
  | rounds + 1 =>
    if 0 ≤ int32 ((jiffies : Int) - b.timerJiffies) then do
      let (b', fired) ← b.pass fuel callback
      let (b'', passes) ← gpRunTimers fuel callback jiffies b' rounds
      return (b'', (b.timerJiffies, fired) :: passes)
    else .ok (b, [])

end GpTimerBase

end GpBase.Timer

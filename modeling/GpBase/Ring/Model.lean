import GpBase.Lib.Mem
import GpBase.Lib.Word

/-!
# The lock-free ring, used by one thread

Translation of `gp_ringbuffer.c`. With a single thread every compare-and-swap
succeeds at once, and a wait for `second` either ends at once or never does.
The slots are one block of `count` cells, as `create_gp_ring` allocates them.
-/

namespace GpBase.Ring

open GpBase.Lib

/-- `gp_align32pow2`, on 32-bit words. -/
def gpAlign32pow2 (x : Nat) : Nat :=
  let x := uint32 (x - 1)
  let x := x ||| x >>> 1
  let x := x ||| x >>> 2
  let x := x ||| x >>> 4
  let x := x ||| x >>> 8
  x ||| x >>> 16

/-- A pair of free-running `uint32_t` counters: reserved and published. -/
structure HeadTail where
  first : Nat
  second : Nat
  deriving DecidableEq, Repr

structure GpRing (α : Type*) where
  size : Nat
  mask : Nat
  capacity : Nat
  head : HeadTail
  tail : HeadTail
  msgs : List α
  deriving DecidableEq, Repr

variable {α : Type*}

/-- `create_gp_ring` with `init_gp_ring`; `null` is what `calloc` leaves in a slot. -/
def createGpRing (null : α) (count : Nat) : GpRing α where
  size := gpAlign32pow2 (count + 1)
  mask := gpAlign32pow2 (count + 1) - 1
  capacity := count
  head := ⟨0, 0⟩
  tail := ⟨0, 0⟩
  msgs := List.replicate count null

/-! ## The copy loops -/

/-- `dst[di] = src[si]`. -/
def copyOne (dst : List α) (di : Nat) (src : List α) (si : Nat) : Except Fault (List α) := do
  store dst di (← load src si 1)

/-- `k` rounds of `dst[di++] = src[si++]`. -/
def copyRun (dst : List α) (di : Nat) (src : List α) (si : Nat) : Nat → Except Fault (List α)
  | 0 => .ok dst
  | k + 1 => do copyRun (← copyOne dst di src si) (di + 1) src (si + 1) k

/-- `b` rounds of the loop that is unrolled four times. -/
def copyBlocks (dst : List α) (di : Nat) (src : List α) (si : Nat) :
    Nat → Except Fault (List α)
  | 0 => .ok dst
  | b + 1 => do
    let dst ← copyOne dst di src si
    let dst ← copyOne dst (di + 1) src (si + 1)
    let dst ← copyOne dst (di + 2) src (si + 2)
    let dst ← copyOne dst (di + 3) src (si + 3)
    copyBlocks dst (di + 4) src (si + 4) b

/-- The copy part of `gp_ring_push`. -/
def pushCopy (ring : List α) (size idx n : Nat) (obj : List α) : Except Fault (List α) :=
  if uint32 (idx + n) < size then do
    -- `i` stops at `n & ~3`; the switch falls through `n & 3` cases
    let ring ← copyBlocks ring idx obj 0 (n / 4)
    copyRun ring (idx + n / 4 * 4) obj (n / 4 * 4) (n % 4)
  else do
    let ring ← copyRun ring idx obj 0 (size - idx)
    copyRun ring 0 obj (size - idx) (n - (size - idx))

/-- The copy part of `gp_ring_pop`. -/
def popCopy (ring : List α) (size idx n : Nat) (obj : List α) : Except Fault (List α) :=
  if uint32 (idx + n) < size then do
    let obj ← copyBlocks obj 0 ring idx (n / 4)
    copyRun obj (n / 4 * 4) ring (idx + n / 4 * 4) (n % 4)
  else do
    let obj ← copyRun obj 0 ring idx (size - idx)
    copyRun obj (size - idx) ring 0 (n - (size - idx))

/-! ## Push and pop

`n` is an `int`, but it is only ever compared with, added to and masked with
`unsigned` values. -/

/-- `gp_ring_push`: the ring afterwards and the number of objects accepted. -/
def GpRing.gpRingPush (q : GpRing α) (n : Int) (obj : List α) :
    Except Fault (GpRing α × Int) :=
  let head := q.head.first
  let freeEntries := uint32 (q.capacity + q.tail.second - head)
  let n := min (uint32 n) freeEntries
  if n = 0 then .ok (q, 0)
  else do
    let next := uint32 (head + n)
    let msgs ← pushCopy q.msgs q.size (head &&& q.mask) n obj
    -- a published counter that differs from ours will not change any more
    if q.head.second ≠ head then .error .hang
    else .ok ({ q with head := ⟨next, next⟩, msgs := msgs }, int32 n)

/-- `gp_ring_pop`: the ring, the caller's array and the number of objects taken. -/
def GpRing.gpRingPop (q : GpRing α) (n : Int) (obj : List α) :
    Except Fault (GpRing α × List α × Int) :=
  let tail := q.tail.first
  let entries := uint32 (q.head.second - tail)
  let n := min (uint32 n) entries
  if n = 0 then .ok (q, obj, 0)
  else do
    let next := uint32 (tail + n)
    let obj ← popCopy q.msgs q.size (tail &&& q.mask) n obj
    if q.tail.second ≠ tail then .error .hang
    else .ok ({ q with tail := ⟨next, next⟩ }, obj, int32 n)

end GpBase.Ring

import Mathlib.Data.List.Basic
import Mathlib.Data.List.TakeDrop

/-!
# Bounded memory blocks

One allocated block of memory is the list of its cells, and `load` and `store`
fail with `outOfBounds` as soon as one touched cell lies outside the block.
A program built from them cannot hide a wild copy: it either stays inside its
blocks or its result is an error.
-/

namespace GpBase.Lib

/-- The ways in which a modelled C function can fail to return. -/
inductive Fault
  | /-- the function called `abort()` -/ abort
  | /-- a copy left its block -/ outOfBounds
  | /-- the function loops for ever -/ hang
  | /-- a pointer to freed memory is followed or left behind -/ dangling
  deriving DecidableEq, Repr

section Block

variable {α : Type*}

/-- Read `n` cells from offset `off`. -/
def load (block : List α) (off n : Nat) : Except Fault (List α) :=
  if off + n ≤ block.length then .ok ((block.drop off).take n)
  else .error .outOfBounds

/-- Overwrite the cells from offset `off` with `cells`. -/
def store (block : List α) (off : Nat) (cells : List α) : Except Fault (List α) :=
  if off + cells.length ≤ block.length then
    .ok (block.take off ++ cells ++ block.drop (off + cells.length))
  else .error .outOfBounds

theorem load_ok {block : List α} {off n : Nat} (room : off + n ≤ block.length) :
    load block off n = .ok ((block.drop off).take n) := if_pos room

theorem store_ok {block : List α} {off : Nat} {cells : List α}
    (room : off + cells.length ≤ block.length) :
    store block off cells =
      .ok (block.take off ++ cells ++ block.drop (off + cells.length)) := if_pos room

/-- A successful store keeps the size of the block. -/
theorem store_length {block : List α} {off : Nat} {cells : List α}
    (room : off + cells.length ≤ block.length) :
    (block.take off ++ cells ++ block.drop (off + cells.length)).length = block.length := by
  simp only [List.length_append, List.length_take, List.length_drop]
  omega

/-- The cells of a window `[lo, hi)` of a block. -/
def window (block : List α) (lo hi : Nat) : List α := (block.take hi).drop lo

theorem window_length {block : List α} {lo hi : Nat} (bound : hi ≤ block.length) :
    (window block lo hi).length = hi - lo := by
  simp [window, Nat.min_eq_left bound]

@[simp] theorem window_empty (block : List α) (lo : Nat) : window block lo lo = [] := by
  simp [window]

/-- Moving the lower end of a window drops the cells in front of it. -/
theorem window_drop (block : List α) (lo hi n : Nat) :
    (window block lo hi).drop n = window block (lo + n) hi := by
  simp [window, List.drop_drop]

/-- What `load` returns from the start of a window. -/
theorem load_window {block : List α} {lo hi n : Nat} (room : lo + n ≤ hi)
    (bound : hi ≤ block.length) :
    load block lo n = .ok ((window block lo hi).take n) := by
  rw [load_ok (by omega), window, List.drop_take, List.take_take]
  congr 2
  omega

/-- Storing right behind a window extends the window by the stored cells. -/
theorem window_store {block : List α} {lo hi : Nat} {cells : List α} (order : lo ≤ hi)
    (room : hi + cells.length ≤ block.length) :
    window (block.take hi ++ cells ++ block.drop (hi + cells.length)) lo (hi + cells.length) =
      window block lo hi ++ cells := by
  have front : (block.take hi).length = hi := by simp; omega
  have whole : (block.take hi ++ cells).length = hi + cells.length := by simp [front]
  rw [window, ← whole, List.take_left, List.drop_append_of_le_length (by omega), window]

/-- A window only depends on the cells in front of its upper end. -/
theorem window_take_append {block rest : List α} {lo hi n : Nat} (inside : hi ≤ n)
    (bound : hi ≤ block.length) :
    window (block.take n ++ rest) lo hi = window block lo hi := by
  rw [window, window, List.take_append_of_le_length (by simp; omega), List.take_take,
    Nat.min_eq_left inside]

end Block

/-! ## Raw memory

Where a program writes past its allocation, what the bytes inside become still
has to be said. `splice` is a copy into memory without bounds; the program
records the ranges it touches separately. -/

section Raw

variable {α : Type*}

/-- Copy `cells` to the addresses from `off` on. -/
def splice (mem : Nat → α) (off : Nat) (cells : List α) (i : Nat) : α :=
  if off ≤ i then cells.getD (i - off) (mem i) else mem i

/-- The first `n` cells of memory. -/
def firstCells (mem : Nat → α) (n : Nat) : List α := (List.range n).map mem

/-- The memory in front of a copy, and as much of the copy as is asked for. -/
theorem firstCells_splice (mem : Nat → α) (off : Nat) (cells : List α) {n : Nat}
    (inside : n ≤ cells.length) :
    firstCells (splice mem off cells) (off + n) = firstCells mem off ++ cells.take n := by
  rw [firstCells, firstCells, List.range_add, List.map_append, List.map_map]
  congr 1
  · refine List.map_congr_left fun i hi => ?_
    rw [splice, if_neg (Nat.not_le.mpr (List.mem_range.mp hi))]
  · apply List.ext_getElem
    · simp [Nat.min_eq_left inside]
    · intro i hi _
      have below : i < n := by simpa using hi
      simp [splice, List.getElem?_eq_getElem (Nat.lt_of_lt_of_le below inside)]

end Raw

end GpBase.Lib

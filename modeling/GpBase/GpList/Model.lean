import GpBase.Lib.Chain

/-!
# Intrusive lists in a shared heap

Translation of `gp_list.c`. Lists and items are addresses; the node of an item lies
`ll_offset` bytes behind it, and the sentinel `ll_head` is the first member of its list.
Pointer arithmetic is that of 64-bit words, `NULL` is 0, and following `NULL` gives `none`.
The functions that put an item on a list look at the pointers of its node only to print a
warning.
-/

namespace GpBase.GpList

open GpBase.Lib

abbrev Addr := BitVec 64

/-- `NULL` -/
def null : Addr := 0

/-- The memory that lists live in. -/
structure Memory where
  /-- `ln_next` and `ln_prev` of the node at an address -/
  links : Chains Addr
  /-- `ll_offset` of the list at an address -/
  llOffset : Addr → Addr

namespace Memory

variable (m : Memory)

/-- `p->ln_next` -/
def lnNext (p : Addr) : Option Addr := if p = null then none else some (m.links.next p)

/-- `p->ln_prev` -/
def lnPrev (p : Addr) : Option Addr := if p = null then none else some (m.links.prev p)

/-- `p->ln_next = q` -/
def setNext (p q : Addr) : Option Memory :=
  if p = null then none
  else some { m with links := { m.links with next := Function.update m.links.next p q } }

/-- `p->ln_prev = q` -/
def setPrev (p q : Addr) : Option Memory :=
  if p = null then none
  else some { m with links := { m.links with prev := Function.update m.links.prev p q } }

/-- `NODE(list, item)` -/
def node (list item : Addr) : Addr := item + m.llOffset list

/-- `ITEM(list, node)` -/
def item (list node : Addr) : Addr := node - m.llOffset list

def gpListInitOffset (list offset : Addr) : Option Memory := do
  let m := { m with llOffset := Function.update m.llOffset list offset }
  let m ← m.setNext list list
  m.setPrev list list

def gpListFirst (list : Addr) : Option Addr := do
  let node ← m.lnNext list
  return if node = list then null else m.item list node

def gpListLast (list : Addr) : Option Addr := do
  let node ← m.lnPrev list
  return if node = list then null else m.item list node

def gpListAppend (list item : Addr) : Option Memory := do
  let node := m.node list item
  let m ← m.setPrev node (← m.lnPrev list)
  let m ← m.setNext node list
  let m ← m.setPrev (← m.lnNext node) node
  m.setNext (← m.lnPrev node) node

def gpListPrepend (list item : Addr) : Option Memory := do
  let node := m.node list item
  let m ← m.setNext node (← m.lnNext list)
  let m ← m.setPrev node list
  let m ← m.setPrev (← m.lnNext node) node
  m.setNext (← m.lnPrev node) node

def gpListInsertBefore (list item before : Addr) : Option Memory := do
  let node := m.node list item
  let place := m.node list before
  let m ← m.setNext node place
  let m ← m.setPrev node (← m.lnPrev place)
  let m ← m.setPrev (← m.lnNext node) node
  m.setNext (← m.lnPrev node) node

def gpListInsertAfter (list item after : Addr) : Option Memory := do
  let node := m.node list item
  let place := m.node list after
  let m ← m.setPrev node place
  let m ← m.setNext node (← m.lnNext place)
  let m ← m.setPrev (← m.lnNext node) node
  m.setNext (← m.lnPrev node) node

def gpListNext (list item : Addr) : Option Addr :=
  if item = null then some null
  else do
    let next ← m.lnNext (m.node list item)
    return if next = null then null else if next = list then null else m.item list next

def gpListPrev (list item : Addr) : Option Addr := do
  let prev ← m.lnPrev (m.node list item)
  return if prev = list then null else m.item list prev

/-- The four writes that `gp_list_remove` and `gp_list_node_remove` share. -/
def takeOut (node : Addr) : Option Memory := do
  let m ← m.setNext (← m.lnPrev node) (← m.lnNext node)
  let m ← m.setPrev (← m.lnNext node) (← m.lnPrev node)
  let m ← m.setNext node null
  m.setPrev node null

def gpListRemove (list item : Addr) : Option Memory := m.takeOut (m.node list item)

def gpListReplace (old new : Addr) : Option Memory := do
  let m ← m.setNext new (← m.lnNext old)
  let m ← m.setPrev (← m.lnNext new) new
  let m ← m.setPrev new (← m.lnPrev old)
  let m ← m.setNext (← m.lnPrev new) new
  return { m with llOffset := Function.update m.llOffset new (m.llOffset old) }

def gpListNodeActive (node : Addr) : Option Bool := do
  return (← m.lnNext node) ≠ null

def gpListActive (list item : Addr) : Option Bool := m.gpListNodeActive (m.node list item)

def gpListEmpty (list : Addr) : Option Bool := do
  let next ← m.lnNext list
  return next = null ∨ next = list

def gpListNodeRemove (node : Addr) : Option Memory := do
  if (← m.lnNext node) ≠ null then m.takeOut node else return m

end Memory

/-! ## What the writes come to -/

section Writes

variable {m : Memory} {p n q : Addr}

@[simp] theorem lnNext_eq (p0 : p ≠ null) : m.lnNext p = some (m.links.next p) := if_neg p0

@[simp] theorem lnPrev_eq (p0 : p ≠ null) : m.lnPrev p = some (m.links.prev p) := if_neg p0

@[simp] theorem setNext_eq (p0 : p ≠ null) : m.setNext p q =
    some { m with links := { m.links with next := Function.update m.links.next p q } } := if_neg p0

@[simp] theorem setPrev_eq (p0 : p ≠ null) : m.setPrev p q =
    some { m with links := { m.links with prev := Function.update m.links.prev p q } } := if_neg p0

variable {list item : Addr}

/-- `gp_list_append` puts the node between the last one and the sentinel. -/
theorem gpListAppend_eq (n0 : m.node list item ≠ null) (list0 : list ≠ null)
    (last : m.links.prev list = p) (p0 : p ≠ null) (nl : m.node list item ≠ list) :
    m.gpListAppend list item =
      some { m with links := m.links.link p (m.node list item) list } := by
  simp [Memory.gpListAppend, n0, list0, last, p0, nl, Chains.link]

/-- `gp_list_prepend` puts the node between the sentinel and the first one. -/
theorem gpListPrepend_eq (n0 : m.node list item ≠ null) (list0 : list ≠ null)
    (first : m.links.next list = q) (q0 : q ≠ null) (nq : m.node list item ≠ q) :
    m.gpListPrepend list item =
      some { m with links := m.links.link list (m.node list item) q } := by
  simp [Memory.gpListPrepend, n0, list0, first, q0, nq, Chains.link]

theorem gpListInsertBefore_eq {before : Addr} (n0 : m.node list item ≠ null)
    (place0 : m.node list before ≠ null) (last : m.links.prev (m.node list before) = p)
    (p0 : p ≠ null) (nw : m.node list item ≠ m.node list before) :
    m.gpListInsertBefore list item before =
      some { m with links := m.links.link p (m.node list item) (m.node list before) } := by
  simp [Memory.gpListInsertBefore, n0, place0, last, p0, nw, Chains.link]

theorem gpListInsertAfter_eq {after : Addr} (n0 : m.node list item ≠ null)
    (place0 : m.node list after ≠ null) (first : m.links.next (m.node list after) = q)
    (q0 : q ≠ null) (nq : m.node list item ≠ q) :
    m.gpListInsertAfter list item after =
      some { m with links := m.links.link (m.node list after) (m.node list item) q } := by
  simp [Memory.gpListInsertAfter, n0, place0, first, q0, nq, Chains.link]

theorem takeOut_eq (n0 : n ≠ null) (before : m.links.prev n = p) (behind : m.links.next n = q)
    (p0 : p ≠ null) (q0 : q ≠ null) (np : n ≠ p) :
    m.takeOut n = some { m with links := m.links.unlink p n q null } := by
  simp [Memory.takeOut, n0, before, behind, p0, q0, np, Chains.unlink]

/-- `gp_list_replace` of a list with items. -/
theorem gpListReplace_eq {old new : Addr} (old0 : old ≠ null) (new0 : new ≠ null)
    (first : m.links.next old = p) (last : m.links.prev old = q) (p0 : p ≠ null) (q0 : q ≠ null)
    (po : old ≠ p) :
    m.gpListReplace old new = some
      ⟨m.links.rehead p q new, Function.update m.llOffset new (m.llOffset old)⟩ := by
  simp [Memory.gpListReplace, old0, new0, first, last, p0, q0, po, Chains.rehead]

/-- `gp_list_replace` of an empty list: the pointer read last has just been written. -/
theorem gpListReplace_empty {old new : Addr} (old0 : old ≠ null) (new0 : new ≠ null)
    (first : m.links.next old = old) :
    m.gpListReplace old new = some
      { links :=
          { next := Function.update (Function.update m.links.next new old) new new
            prev := Function.update (Function.update m.links.prev old new) new new }
        llOffset := Function.update m.llOffset new (m.llOffset old) } := by
  simp [Memory.gpListReplace, old0, new0, first]

end Writes

end GpBase.GpList

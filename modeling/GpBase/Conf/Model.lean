import Mathlib.Data.List.DropRight
import GpBase.Lib.Mem

/-!
# The configuration tree

Translation of `gp_conf.c`. A node owns the list of its children, so a tree is a
value; a pointer into it is a path of names. Strings are the bytes in front of
their NUL. Allocations succeed.
-/

namespace GpBase.Conf

open GpBase.Lib

/-- A C string. -/
abbrev CStr := List UInt8

def ascii (s : String) : CStr := s.toList.map fun c => UInt8.ofNat c.toNat

def nodeNameMax : Nat := 1024

structure GpConfNode where
  /-- `NULL` only in the root -/
  name : Option CStr
  val : Option CStr
  isSeq : Bool
  final : Bool
  /-- `parent` is set, to the node whose list holds this one -/
  hasParent : Bool
  children : List GpConfNode
  deriving Repr

/-- `gp_conf_node_new`, which is also the root that `gp_conf_init` makes. -/
def gpConfNodeNew : GpConfNode := ⟨none, none, false, false, false, []⟩

namespace GpConfNode

variable (node : GpConfNode)

/-! ## Children -/

def hasName (key : CStr) : Bool := node.name = some key

/-- `gp_conf_node_lookup_child`. -/
def gpConfNodeLookupChild (key : CStr) : Option GpConfNode := node.children.find? (hasName · key)

/-- `TAILQ_INSERT_TAIL(&node->head, child, next)`. -/
def insertTail (child : GpConfNode) : GpConfNode :=
  { node with children := node.children ++ [child] }

/-- `TAILQ_REMOVE` of the child that a lookup of `key` finds. -/
def unlinkChild (key : CStr) : GpConfNode :=
  { node with children := node.children.eraseP (hasName · key) }

/-- Write through the pointer that a lookup of `key` gives. -/
def modifyChild (key : CStr) (f : GpConfNode → GpConfNode) : GpConfNode :=
  { node with children := node.children.modify (node.children.findIdx (hasName · key)) f }

/-! ## Paths -/

/-- Follow a path of names. -/
def nodeAt : List CStr → GpConfNode → Option GpConfNode
  | [], node => some node
  | key :: keys, node =>
    match node.gpConfNodeLookupChild key with
    | some child => nodeAt keys child
    | none => none

/-- Write through the pointer to the node at the end of a path. -/
def modifyAt (f : GpConfNode → GpConfNode) : List CStr → GpConfNode → GpConfNode
  | [], node => f node
  | key :: keys, node => node.modifyChild key (modifyAt f keys)

/-- The loop of `gp_conf_get_node_or_create`: missing nodes are appended. -/
def createPath (final : Bool) : List CStr → GpConfNode → GpConfNode
  | [], node => node
  | key :: keys, node =>
    match node.gpConfNodeLookupChild key with
    | some _ => node.modifyChild key (createPath final keys)
    | none => node.insertTail (createPath final keys
        { gpConfNodeNew with name := some key, final := final, hasParent := true })

/-- Take the node at the end of a path off its list. -/
def removeAt : List CStr → GpConfNode → GpConfNode
  | [], node => node
  | [key], node => node.unlinkChild key
  | key :: keys, node => node.modifyChild key (removeAt keys)

/-! ## Pruning -/

mutual

def gpConfNodePrune : GpConfNode → GpConfNode
  | ⟨name, _, isSeq, final, hasParent, children⟩ =>
    ⟨name, none, isSeq, final, hasParent, pruneChildren children⟩

/-- The loop of `gp_conf_node_prune`. -/
def pruneChildren : List GpConfNode → List GpConfNode
  | [] => []
  | item :: items =>
    if item.final then item :: pruneChildren items
    else if (gpConfNodePrune item).children.isEmpty then pruneChildren items
    else gpConfNodePrune item :: pruneChildren items

end

end GpConfNode

/-! ## Names -/

/-- The parts of a name between its dots. -/
def components (name : CStr) : List CStr := name.splitOn 0x2e

/-- `gp_conf_get_node`. -/
def gpConfGetNode (root : GpConfNode) (name : CStr) : Option GpConfNode :=
  if nodeNameMax ≤ name.length then none else root.nodeAt (components name)

/-- `gp_conf_get_node_or_create`: the tree, and the path to the node. -/
def gpConfGetNodeOrCreate (root : GpConfNode) (name : CStr) (final : Bool) :
    Option (GpConfNode × List CStr) :=
  if nodeNameMax ≤ name.length then none
  else some (root.createPath final (components name), components name)

/-- `gp_conf_get`: `none` is the return value 0, else `*vptr`. -/
def gpConfGet (root : GpConfNode) (name : CStr) : Option (Option CStr) :=
  (gpConfGetNode root name).map (·.val)

/-! ## Setting and removing -/

def gpConfSet (root : GpConfNode) (name val : CStr) : GpConfNode × Int :=
  match gpConfGetNodeOrCreate root name false with
  | none => (root, 0)
  | some (root, path) =>
    if (root.nodeAt path).any (·.final) then (root, 0)
    else (root.modifyAt (fun node => { node with val := some val }) path, 1)

def gpConfSetFinal (root : GpConfNode) (name val : CStr) : GpConfNode × Int :=
  match gpConfGetNodeOrCreate root name true with
  | none => (root, 0)
  | some (root, path) =>
    (root.modifyAt (fun node => { node with val := some val, final := true }) path, 1)

def isspace (c : UInt8) : Bool := c == 0x20 || (0x09 ≤ c && c ≤ 0x0d)

/-- `gp_conf_set_from_string`. The loop over trailing white space looks in front of
the block once the name is empty, and may clear the byte there; the name stays
empty. -/
def gpConfSetFromString (root : GpConfNode) (input : CStr) (final : Bool) : GpConfNode × Int :=
  if (0x3d : UInt8) ∉ input then (root, 0)
  else
    let name := (input.takeWhile (· ≠ 0x3d)).rdropWhile isspace
    let val := ((input.dropWhile (· ≠ 0x3d)).drop 1).dropWhile isspace
    if final then gpConfSetFinal root name val else gpConfSet root name val

/-- `gp_conf_remove`. A node without parent is freed where it is linked. -/
def gpConfRemove (root : GpConfNode) (name : CStr) : Except Fault (GpConfNode × Int) :=
  match gpConfGetNode root name with
  | none => .ok (root, 0)
  | some node =>
    if node.hasParent then .ok (root.removeAt (components name), 1) else .error .dangling

end GpBase.Conf

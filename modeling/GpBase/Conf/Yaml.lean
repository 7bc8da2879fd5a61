import GpBase.Conf.Model
import GpBase.Lib.Word

/-!
# The YAML loader

Translation of `gp_conf_yaml_loader.c`. libyaml is the list of events that its
parser delivers, behind which it reports an error. One call of
`gp_conf_yaml_parse` works on the subtree of its `parent`, which it takes and
gives back; its pointer `node` is `parent` itself or one of the children.
-/

namespace GpBase.Conf

open GpBase.Lib

def recursionLimit : Nat := 128
def pathMax : Nat := 4096

/-- `yaml_event_t`, as far as the loader looks at it. -/
inductive YamlEvent
  | noEvent
  | streamStart
  | streamEnd
  | documentStart (version : Option (Int × Int))
  | documentEnd
  | aliasEvent
  | scalar (value : CStr) (tag : Option CStr)
  | sequenceStart
  | sequenceEnd
  | mappingStart
  | mappingEnd
  deriving DecidableEq, Repr

/-- `enum conf_state`. -/
inductive ConfState
  | confKey
  | confVal
  | confInclude
  deriving DecidableEq, Repr

/-- The variables of one call of `gp_conf_yaml_parse`. -/
structure Frame where
  parent : GpConfNode
  /-- the pointer `node`: `parent`, or its child of this name -/
  node : Option CStr
  state : ConfState
  seqIdx : Int

namespace Frame

def start (parent : GpConfNode) : Frame := ⟨parent, none, .confKey, 0⟩

/-- `*node`. -/
def deref (f : Frame) : Except Fault GpConfNode :=
  match f.node with
  | none => .ok f.parent
  | some key =>
    match f.parent.gpConfNodeLookupChild key with
    | some node => .ok node
    | none => .error .dangling

/-- Write what `*node` has become. -/
def assign (f : Frame) (node : GpConfNode) : Frame :=
  match f.node with
  | none => { f with parent := node }
  | some key => { f with parent := f.parent.modifyChild key fun _ => node }

/-- `sequence_node_name`. -/
def seqName (f : Frame) : CStr := ascii (toString f.seqIdx)

/-- `seq_idx++`. -/
def nextSeq (f : Frame) : Frame := { f with seqIdx := int32 (f.seqIdx + 1) }

/-- A scalar in a sequence: a node that is already there moves to the tail. -/
def seqScalar (f : Frame) (value : CStr) : Frame :=
  let parent :=
    match f.parent.gpConfNodeLookupChild f.seqName with
    | some seqNode => (f.parent.unlinkChild f.seqName).insertTail seqNode
    | none => f.parent.insertTail { gpConfNodeNew with name := some f.seqName, val := some value }
  { f.nextSeq with parent := parent }

/-- A scalar that is a key. -/
def keyScalar (f : Frame) (value : CStr) : Frame :=
  let parent :=
    if f.parent.isSeq && f.parent.val.isNone then { f.parent with val := some value } else f.parent
  let parent :=
    match parent.gpConfNodeLookupChild value with
    | some existing =>
      if existing.final then parent else parent.modifyChild value GpConfNode.gpConfNodePrune
    | none => parent.insertTail { gpConfNodeNew with name := some value }
  { f with parent := parent, node := some value, state := .confVal }

/-- A scalar that is a value, without an include tag. -/
def valScalar (f : Frame) (value : CStr) : Except Fault Frame := do
  let node ← f.deref
  let f := if node.final then f else f.assign { node with val := some value }
  return { f with state := .confKey }

/-- The node for a mapping in a sequence, `is_seq` set, at the tail of `node`. -/
def seqMapping (f : Frame) (node : GpConfNode) : GpConfNode × GpConfNode :=
  match node.gpConfNodeLookupChild f.seqName with
  | some seqNode =>
    let seqNode := { seqNode with isSeq := true }
    ((node.unlinkChild f.seqName).insertTail seqNode, seqNode)
  | none =>
    let seqNode := { gpConfNodeNew with name := some f.seqName, isSeq := true }
    (node.insertTail seqNode, seqNode)

end Frame

/-- `gp_conf_yaml_handle_include`, seen from the parser. -/
abbrev Include := GpConfNode → CStr → Except Fault (GpConfNode × Int)

/-- `YAML_SCALAR_EVENT`: the frame, and whether the loop goes on. -/
def scalarEvent (handleInclude : Include) (inseq : Bool) (f : Frame) (value : CStr)
    (tag : Option CStr) : Except Fault (Frame × Bool) :=
  if f.state = .confKey ∧ value = [] then .ok (f, true)
  else if inseq then .ok (f.seqScalar value, true)
  else
    match f.state with
    | .confInclude => do
      let (parent, ret) ← handleInclude f.parent value
      let f := { f with parent := parent }
      return if ret ≠ 0 then (f, false) else ({ f with state := .confKey }, true)
    | .confKey =>
      if value = ascii "include" then .ok ({ f with state := .confInclude }, true)
      else .ok (f.keyScalar value, true)
    | .confVal =>
      if tag = some (ascii "!include") then do
        let node ← f.deref
        let (node, ret) ← handleInclude node value
        let f := f.assign node
        return if ret ≠ 0 then (f, false) else ({ f with state := .confKey }, true)
      else do
        let f ← f.valScalar value
        return (f, true)

/-- The subtree, the return value and the events that are left. -/
abbrev Parsed := GpConfNode × Int × List YamlEvent

/-- A call at level `rlevel`, with the loop as a parameter. -/
def enter (rlevel : Nat) (parent : GpConfNode) (events : List YamlEvent)
    (loop : Frame → Except Fault Parsed) : Except Fault Parsed :=
  if recursionLimit < rlevel then .ok (parent, -1, events) else loop (Frame.start parent)

/-- The loop of `gp_conf_yaml_parse`. A round takes one event, so `fuel` beyond the
number of events is never used up. -/
def parseLoop (handleInclude : Include) :
    Nat → Bool → Nat → Frame → List YamlEvent → Except Fault Parsed
  | 0, _, _, _, _ => .error .hang
  | _ + 1, _, _, f, [] => .ok (f.parent, -1, [])
  | fuel + 1, inseq, rlevel, f, event :: events =>
    match event with
    | .documentStart version =>
      if version = some (1, 1) then parseLoop handleInclude fuel inseq rlevel f events
      else .ok (f.parent, -1, events)
    | .scalar value tag => do
      let (f, goesOn) ← scalarEvent handleInclude inseq f value tag
      if goesOn then parseLoop handleInclude fuel inseq rlevel f events
      else .ok (f.parent, -1, events)
    | .sequenceStart => do
      let node ← f.deref
      let (node, ret, events) ← enter rlevel node events fun g =>
        parseLoop handleInclude fuel true (rlevel + 1) g events
      if ret ≠ 0 then .ok ((f.assign node).parent, -1, events)
      else
        let f := f.assign { node with isSeq := true }
        parseLoop handleInclude fuel inseq rlevel { f with state := .confKey } events
    | .mappingStart => do
      let node ← f.deref
      if inseq then
        let (node, seqNode) := f.seqMapping node
        let (seqNode, ret, events) ← enter rlevel seqNode events fun g =>
          parseLoop handleInclude fuel false (rlevel + 1) g events
        let f := (f.assign (node.modifyChild f.seqName fun _ => seqNode)).nextSeq
        if ret ≠ 0 then .ok (f.parent, -1, events)
        else parseLoop handleInclude fuel inseq rlevel { f with state := .confKey } events
      else
        let (node, ret, events) ← enter rlevel node events fun g =>
          parseLoop handleInclude fuel inseq (rlevel + 1) g events
        let f := f.assign node
        if ret ≠ 0 then .ok (f.parent, -1, events)
        else parseLoop handleInclude fuel inseq rlevel { f with state := .confKey } events
    | .sequenceEnd | .mappingEnd | .streamEnd => .ok (f.parent, 0, events)
    | .noEvent | .streamStart | .documentEnd | .aliasEvent =>
      parseLoop handleInclude fuel inseq rlevel f events

def gpConfYamlParse (handleInclude : Include) (parent : GpConfNode) (inseq : Bool) (rlevel : Nat)
    (events : List YamlEvent) : Except Fault Parsed :=
  enter rlevel parent events fun f =>
    parseLoop handleInclude (events.length + 1) inseq (rlevel + 1) f events

/-! ## Files -/

/-- The file system during a load. -/
structure Files where
  /-- `st_mode` of a name -/
  stat : CStr → Option Nat
  /-- what `fopen` and the parser make of a name, with so many files already open -/
  fopen : Nat → CStr → Option (List YamlEvent)

/-- No files, as for strings without includes. -/
def noFiles : Files := ⟨fun _ => none, fun _ _ => none⟩

/-- `include_filename`; a missing `conf_dirname` is printed as glibc does. -/
def includeFilename (confDirname : Option CStr) (filename : CStr) : CStr :=
  if 1 < filename.length ∧ filename.head? = some 0x2f then filename.take (pathMax - 1)
  else (confDirname.getD (ascii "(null)") ++ [0x2f] ++ filename).take (pathMax - 1)

/-- `gp_conf_yaml_handle_include` with `opened` files open; `fuel` bounds the nesting
of includes. -/
def gpConfYamlHandleInclude (files : Files) (confDirname : Option CStr) : Nat → Nat → Include
  | 0, _, _, _ => .error .hang
  | fuel + 1, opened, parent, filename =>
    match files.fopen opened (includeFilename confDirname filename) with
    | none => .ok (parent, -1)
    | some events => do
      let (parent, ret, _) ← gpConfYamlParse
        (gpConfYamlHandleInclude files confDirname fuel (opened + 1)) parent false 0 events
      return (parent, if ret ≠ 0 then -1 else 0)

/-- `gp_conf_yaml_set_conf_dirname`. -/
def confDirnameOf (filename : CStr) : CStr :=
  match filename.reverse.idxOf? 0x5c, filename.reverse.idxOf? 0x2f with
  | some behind, _ => filename.take (filename.length - 1 - behind)
  | none, some behind => filename.take (filename.length - 1 - behind)
  | none, none => ascii "."

/-- `st_mode & S_IFDIR`. -/
def Files.isDir (files : Files) (filename : CStr) : Bool :=
  (files.stat filename).any fun mode => mode &&& 0o040000 ≠ 0

/-- The tree and `conf_dirname`. -/
structure ConfStore where
  root : GpConfNode
  confDirname : Option CStr

/-- `gp_conf_init`. -/
def gpConfInit : ConfStore := ⟨gpConfNodeNew, none⟩

namespace ConfStore

variable (s : ConfStore) (fuel : Nat) (files : Files)

/-- `conf_dirname` is set once, by the first file. -/
def setConfDirname (filename : CStr) : ConfStore :=
  { s with confDirname := some (s.confDirname.getD (confDirnameOf filename)) }

/-- Parse into the node at `path` with `opened` files open. -/
def parseAt (opened : Nat) (path : List CStr) (events : List YamlEvent) :
    Except Fault (ConfStore × Int) :=
  match s.root.nodeAt path with
  | none => .error .dangling
  | some node => do
    let (node, ret, _) ← gpConfYamlParse
      (gpConfYamlHandleInclude files s.confDirname fuel opened) node false 0 events
    return ({ s with root := s.root.modifyAt (fun _ => node) path }, ret)

def gpConfYamlLoadFile (filename : CStr) : Except Fault (ConfStore × Int) :=
  if files.isDir filename then .ok (s, -1)
  else
    match files.fopen 0 filename with
    | none => .ok (s, -1)
    | some events => (s.setConfDirname filename).parseAt fuel files 1 [] events

/-- `gp_conf_yaml_load_string`, on the events of the string. -/
def gpConfYamlLoadString (events : List YamlEvent) : Except Fault (ConfStore × Int) :=
  s.parseAt fuel files 0 [] events

/-- If the node does not exist yet, a place holder is added. -/
def placeHolder (root : GpConfNode) (under : CStr) : GpConfNode :=
  match gpConfGetNode root under with
  | some _ => root
  | none => (gpConfSet root under (ascii "<prefix root node>")).1

def gpConfYamlLoadFileWithPrefix (filename under : CStr) : Except Fault (ConfStore × Int) :=
  if files.isDir filename then .ok (s, -1)
  else
    match files.fopen 0 filename with
    | none => .ok (s, -1)
    | some events =>
      let t := { s.setConfDirname filename with root := placeHolder s.root under }
      match gpConfGetNode t.root under with
      | none => .ok (t, -1)
      | some _ => t.parseAt fuel files 1 (components under) events

end ConfStore

end GpBase.Conf

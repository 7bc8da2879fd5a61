import GpBase.Conf.Depth
import GpBase.Conf.Final
import GpBase.Conf.Outline

/-!
# Loading with a bounded stack

The loader once more, on a stack that has room for so many nested calls of
`gp_conf_yaml_parse`, those of including files with them. It hangs where the stack
is full, and apart from that it is the loader. What it returns, and whether it
does, is what the outlines of the files say.
-/

namespace GpBase.Conf

open GpBase.Lib GpConfNode

/-! ## The loader on a stack -/

/-- A call at level `rlevel` of a file; `room` counts the calls that the stack can hold
on top of those of the including files. Without `room` it holds any number. -/
def enterIn (room : Option Nat) (rlevel : Nat) (parent : GpConfNode) (events : List YamlEvent)
    (loop : Frame → Except Fault Parsed) : Except Fault Parsed :=
  if room.any (· ≤ rlevel) then .error .hang else enter rlevel parent events loop

/-- `parseLoop`; an include is told how many calls of this file are open. -/
def parseLoopIn (handleInclude : Nat → Include) (room : Option Nat) :
    Nat → Bool → Nat → Frame → List YamlEvent → Except Fault Parsed
  | 0, _, _, _, _ => .error .hang
  | _ + 1, _, _, f, [] => .ok (f.parent, -1, [])
  | fuel + 1, inseq, rlevel, f, event :: events =>
    match event with
    | .documentStart version =>
      if version = some (1, 1) then parseLoopIn handleInclude room fuel inseq rlevel f events
      else .ok (f.parent, -1, events)
    | .scalar value tag => do
      let (f, goesOn) ← scalarEvent (handleInclude rlevel) inseq f value tag
      if goesOn then parseLoopIn handleInclude room fuel inseq rlevel f events
      else .ok (f.parent, -1, events)
    | .sequenceStart => do
      let node ← f.deref
      let (node, ret, events) ← enterIn room rlevel node events fun g =>
        parseLoopIn handleInclude room fuel true (rlevel + 1) g events
      if ret ≠ 0 then .ok ((f.assign node).parent, -1, events)
      else
        let f := f.assign { node with isSeq := true }
        parseLoopIn handleInclude room fuel inseq rlevel { f with state := .confKey } events
    | .mappingStart => do
      let node ← f.deref
      if inseq then
        let (node, seqNode) := f.seqMapping node
        let (seqNode, ret, events) ← enterIn room rlevel seqNode events fun g =>
          parseLoopIn handleInclude room fuel false (rlevel + 1) g events
        let f := (f.assign (node.modifyChild f.seqName fun _ => seqNode)).nextSeq
        if ret ≠ 0 then .ok (f.parent, -1, events)
        else parseLoopIn handleInclude room fuel inseq rlevel { f with state := .confKey } events
      else
        let (node, ret, events) ← enterIn room rlevel node events fun g =>
          parseLoopIn handleInclude room fuel inseq (rlevel + 1) g events
        let f := f.assign node
        if ret ≠ 0 then .ok (f.parent, -1, events)
        else parseLoopIn handleInclude room fuel inseq rlevel { f with state := .confKey } events
    | .sequenceEnd | .mappingEnd | .streamEnd => .ok (f.parent, 0, events)
    | .noEvent | .streamStart | .documentEnd | .aliasEvent =>
      parseLoopIn handleInclude room fuel inseq rlevel f events

def gpConfYamlParseIn (handleInclude : Nat → Include) (room : Option Nat) (parent : GpConfNode)
    (events : List YamlEvent) : Except Fault Parsed :=
  enterIn room 0 parent events fun f =>
    parseLoopIn handleInclude room (events.length + 1) false 1 f events

section Files

variable (files : Files) (confDirname : Option CStr)

/-- An include above `frames` open calls of a file leaves the stack so much smaller. -/
def gpConfYamlHandleIncludeIn : Nat → Option Nat → Nat → Include
  | 0, _, _, _, _ => .error .hang
  | fuel + 1, room, opened, parent, filename =>
    match files.fopen opened (includeFilename confDirname filename) with
    | none => .ok (parent, -1)
    | some events => do
      let (parent, ret, _) ← gpConfYamlParseIn
        (fun frames => gpConfYamlHandleIncludeIn fuel (room.map (· - frames)) (opened + 1))
        room parent events
      return (parent, if ret ≠ 0 then -1 else 0)

end Files

namespace ConfStore

variable (s : ConfStore) (fuel : Nat) (room : Option Nat) (files : Files)

def parseAtIn (opened : Nat) (path : List CStr) (events : List YamlEvent) :
    Except Fault (ConfStore × Int) :=
  match s.root.nodeAt path with
  | none => .error .dangling
  | some node => do
    let (node, ret, _) ← gpConfYamlParseIn (fun frames =>
      gpConfYamlHandleIncludeIn files s.confDirname fuel (room.map (· - frames)) opened)
      room node events
    return ({ s with root := s.root.modifyAt (fun _ => node) path }, ret)

def gpConfYamlLoadFileIn (filename : CStr) : Except Fault (ConfStore × Int) :=
  if files.isDir filename then .ok (s, -1)
  else
    match files.fopen 0 filename with
    | none => .ok (s, -1)
    | some events => (s.setConfDirname filename).parseAtIn fuel room files 1 [] events

end ConfStore

/-! ## It is the loader -/

section Same

variable {handleInclude : Nat → Include} {plain : Include}

theorem scalarEvent_returns {h h' : Include}
    (includes : ∀ n filename, Returns (h n filename) (h' n filename)) (inseq : Bool) (f : Frame)
    (value : CStr) (tag : Option CStr) :
    Returns (scalarEvent h inseq f value tag) (scalarEvent h' inseq f value tag) := by
  unfold Conf.scalarEvent
  split
  · exact .refl _
  · split
    · exact .refl _
    · split
      · exact .bind (includes _ _) fun _ => .refl _
      · exact .refl _
      · split
        · refine .bind (.refl _) ?_
          intro node
          exact .bind (includes _ _) fun _ => .refl _
        · exact .refl _

theorem enterIn_returns (room : Option Nat) (rlevel : Nat) (n : GpConfNode)
    (events : List YamlEvent) {loop loop' : Frame → Except Fault Parsed}
    (body : ∀ f, Returns (loop f) (loop' f)) :
    Returns (enterIn room rlevel n events loop) (enter rlevel n events loop') := by
  unfold enterIn
  split
  · exact .hang _
  · unfold enter
    split
    · exact .refl _
    · exact body _

/-- What the loader returns on a stack, it returns. -/
theorem parseLoopIn_returns (includes : ∀ frames n filename,
      Returns (handleInclude frames n filename) (plain n filename))
    (room : Option Nat) (fuel : Nat) (inseq : Bool) (rlevel : Nat) (f : Frame)
    (events : List YamlEvent) :
    Returns (parseLoopIn handleInclude room fuel inseq rlevel f events)
      (parseLoop plain fuel inseq rlevel f events) := by
  induction fuel generalizing inseq rlevel f events with
  | zero => exact .hang _
  | succ fuel ih =>
      have nested : ∀ (inseq' : Bool) (m : GpConfNode) (events : List YamlEvent),
          Returns (enterIn room rlevel m events fun g =>
              parseLoopIn handleInclude room fuel inseq' (rlevel + 1) g events)
            (enter rlevel m events fun g =>
              parseLoop plain fuel inseq' (rlevel + 1) g events) := by
        intro inseq' m events
        exact enterIn_returns room rlevel m events fun g => ih inseq' (rlevel + 1) g events
      cases events with
      | nil => exact .refl _
      | cons event events =>
          cases event with
          | documentStart version =>
              rw [parseLoopIn, parseLoop]
              split
              · exact ih _ _ _ _
              · exact .refl _
          | scalar value tag =>
              rw [parseLoopIn, parseLoop]
              refine .bind (scalarEvent_returns (includes rlevel) inseq f value tag) ?_
              rintro ⟨g, goesOn⟩
              dsimp only
              split
              · exact ih _ _ _ _
              · exact .refl _
          | sequenceStart =>
              rw [parseLoopIn, parseLoop]
              refine .bind (.refl _) fun node => .bind (nested true node events) ?_
              rintro ⟨node', ret, rest⟩
              dsimp only
              split
              · exact .refl _
              · exact ih _ _ _ _
          | mappingStart =>
              rw [parseLoopIn, parseLoop]
              refine .bind (.refl _) ?_
              intro node
              split
              · refine .bind (nested false _ events) ?_
                rintro ⟨seqNode, ret, rest⟩
                dsimp only
                split
                · exact .refl _
                · exact ih _ _ _ _
              · refine .bind (nested inseq _ events) ?_
                rintro ⟨node', ret, rest⟩
                dsimp only
                split
                · exact .refl _
                · exact ih _ _ _ _
          | sequenceEnd => exact .refl _
          | mappingEnd => exact .refl _
          | streamEnd => exact .refl _
          | noEvent => exact ih _ _ _ _
          | streamStart => exact ih _ _ _ _
          | documentEnd => exact ih _ _ _ _
          | aliasEvent => exact ih _ _ _ _

theorem enterIn_none (rlevel : Nat) (n : GpConfNode) (events : List YamlEvent)
    (loop : Frame → Except Fault Parsed) :
    enterIn none rlevel n events loop = enter rlevel n events loop := rfl

/-- A stack without bound changes nothing. -/
theorem parseLoopIn_none (fuel : Nat) (inseq : Bool) (rlevel : Nat) (f : Frame)
    (events : List YamlEvent) :
    parseLoopIn (fun _ => plain) none fuel inseq rlevel f events =
      parseLoop plain fuel inseq rlevel f events := by
  induction fuel generalizing inseq rlevel f events with
  | zero => rfl
  | succ fuel ih =>
      cases events with
      | nil => rfl
      | cons event events =>
          cases event <;> simp only [parseLoopIn, parseLoop, enterIn_none, ih]

theorem gpConfYamlParseIn_returns (includes : ∀ frames n filename,
      Returns (handleInclude frames n filename) (plain n filename))
    (room : Option Nat) (n : GpConfNode) (events : List YamlEvent) :
    Returns (gpConfYamlParseIn handleInclude room n events)
      (gpConfYamlParse plain n false 0 events) := by
  unfold gpConfYamlParseIn gpConfYamlParse
  exact enterIn_returns room 0 n events fun f => parseLoopIn_returns includes room _ _ _ f events

theorem gpConfYamlParseIn_none (n : GpConfNode) (events : List YamlEvent) :
    gpConfYamlParseIn (fun _ => plain) none n events = gpConfYamlParse plain n false 0 events := by
  unfold gpConfYamlParseIn gpConfYamlParse
  simp only [enterIn_none, parseLoopIn_none]

end Same

end GpBase.Conf

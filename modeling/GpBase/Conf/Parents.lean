import GpBase.Conf.Store
import GpBase.Conf.Values

/-!
# Parent links and the loader

The YAML loader links the nodes that it adds into their lists, but leaves their
`parent` unset, and `gp_conf_remove` frees such a node where it is linked. A load
that finds every node it asks for keeps the links.
-/

namespace GpBase.Conf

open GpBase.Lib GpConfNode

/-! ## Loads that find their nodes -/

section Finds

/-- The scalar does not take the branch that adds a node. `includeFinds` says the same
of a file that is included at a node. -/
def scalarFinds (includeFinds : GpConfNode → CStr → Prop) (inseq : Bool) (f : Frame) (value : CStr)
    (tag : Option CStr) : Prop :=
  if f.state = .confKey ∧ value = [] then True
  else if inseq then f.parent.gpConfNodeLookupChild f.seqName ≠ none
  else
    match f.state with
    | .confInclude => includeFinds f.parent value
    | .confKey => value = ascii "include" ∨ f.parent.gpConfNodeLookupChild value ≠ none
    | .confVal => tag = some (ascii "!include") → ∀ node, f.deref = .ok node → includeFinds node value

/-- No round of the loop adds a node: every key and every item that is read from the
events has its node when it is read. -/
def loopFinds (handleInclude : Include) (includeFinds : GpConfNode → CStr → Prop) :
    Nat → Bool → Nat → Frame → List YamlEvent → Prop
  | 0, _, _, _, _ => True
  | _ + 1, _, _, _, [] => True
  | fuel + 1, inseq, rlevel, f, event :: events =>
    match event with
    | .documentStart version =>
      version = some (1, 1) → loopFinds handleInclude includeFinds fuel inseq rlevel f events
    | .scalar value tag =>
      scalarFinds includeFinds inseq f value tag ∧
        ∀ g, scalarEvent handleInclude inseq f value tag = .ok (g, true) →
          loopFinds handleInclude includeFinds fuel inseq rlevel g events
    | .sequenceStart =>
      ∀ node, f.deref = .ok node →
        (rlevel ≤ recursionLimit →
          loopFinds handleInclude includeFinds fuel true (rlevel + 1) (Frame.start node) events) ∧
        ∀ node' rest, enter rlevel node events (fun g =>
            parseLoop handleInclude fuel true (rlevel + 1) g events) = .ok (node', 0, rest) →
          loopFinds handleInclude includeFinds fuel inseq rlevel
            { f.assign { node' with isSeq := true } with state := .confKey } rest
    | .mappingStart =>
      ∀ node, f.deref = .ok node →
        if inseq then
          node.gpConfNodeLookupChild f.seqName ≠ none ∧
          (rlevel ≤ recursionLimit →
            loopFinds handleInclude includeFinds fuel false (rlevel + 1)
              (Frame.start (f.seqMapping node).2) events) ∧
          ∀ seqNode rest, enter rlevel (f.seqMapping node).2 events (fun g =>
              parseLoop handleInclude fuel false (rlevel + 1) g events) = .ok (seqNode, 0, rest) →
            loopFinds handleInclude includeFinds fuel inseq rlevel
              { (f.assign ((f.seqMapping node).1.modifyChild f.seqName fun _ => seqNode)).nextSeq
                with state := .confKey } rest
        else
          (rlevel ≤ recursionLimit →
            loopFinds handleInclude includeFinds fuel inseq (rlevel + 1) (Frame.start node)
              events) ∧
          ∀ node' rest, enter rlevel node events (fun g =>
              parseLoop handleInclude fuel inseq (rlevel + 1) g events) = .ok (node', 0, rest) →
            loopFinds handleInclude includeFinds fuel inseq rlevel
              { f.assign node' with state := .confKey } rest
    | .sequenceEnd | .mappingEnd | .streamEnd => True
    | .noEvent | .streamStart | .documentEnd | .aliasEvent =>
      loopFinds handleInclude includeFinds fuel inseq rlevel f events

/-- A call of `gp_conf_yaml_parse` at level 0. -/
def parseFinds (handleInclude : Include) (includeFinds : GpConfNode → CStr → Prop)
    (node : GpConfNode) (events : List YamlEvent) : Prop :=
  loopFinds handleInclude includeFinds (events.length + 1) false 1 (Frame.start node) events

def includeFinds (files : Files) (confDirname : Option CStr) :
    Nat → Nat → GpConfNode → CStr → Prop
  | 0, _, _, _ => True
  | fuel + 1, opened, node, filename =>
    ∀ events, files.fopen opened (includeFilename confDirname filename) = some events →
      parseFinds (gpConfYamlHandleInclude files confDirname fuel (opened + 1))
        (includeFinds files confDirname fuel (opened + 1)) node events

/-- The load of `events` into the node at a path, however deep its includes nest. -/
def ConfStore.Finds (s : ConfStore) (files : Files) (opened : Nat) (path : List CStr)
    (events : List YamlEvent) : Prop :=
  ∀ node, s.root.nodeAt path = some node → ∀ fuel,
    parseFinds (gpConfYamlHandleInclude files s.confDirname fuel opened)
      (includeFinds files s.confDirname fuel opened) node events

/-- The loads among the calls find every node that they ask for. -/
def ConfCall.Finds (s : ConfStore) : ConfCall → Prop
  | .loadFile files filename =>
      ∀ events, files.fopen 0 filename = some events →
        (s.setConfDirname filename).Finds files 1 [] events
  | .loadString files events => s.Finds files 0 [] events
  | .loadFileWithPrefix files filename under =>
      ∀ events, files.fopen 0 filename = some events →
        ({ s.setConfDirname filename with root := ConfStore.placeHolder s.root under }).Finds
          files 1 (components under) events
  | _ => True

end Finds

/-! ## Links are kept -/

/-- The links below a node that is linked itself as `own` says. -/
structure Tied (own : Bool) (n : GpConfNode) : Prop where
  own : n.hasParent = own
  below : Linked n

section Ties

variable {own : Bool} {f : Frame} {handleInclude : Include}
  {finds : GpConfNode → CStr → Prop}

/-- `node` can be written with what it has become, if its link stays. -/
theorem Tied.deref (tied : Tied own f.parent) {node : GpConfNode} (read : f.deref = .ok node) :
    Linked node ∧ ∀ node', Tied node.hasParent node' → Tied own (f.assign node').parent := by
  rcases Frame.deref_ok read with ⟨_, rfl, write⟩ | ⟨key, _, found, write⟩
  · refine ⟨tied.below, ?_⟩
    intro node' tied'
    rw [write]
    exact ⟨tied'.own.trans tied.own, tied'.below⟩
  · obtain ⟨linkedTo, below⟩ := tied.below.lookup found
    refine ⟨below, ?_⟩
    intro node' tied'
    rw [write]
    refine ⟨tied.own, tied.below.modifyChild ?_⟩
    intro _ _
    exact ⟨tied'.own.trans linkedTo, tied'.below⟩

theorem Tied.seqScalar (tied : Tied own f.parent) (value : CStr)
    (found : f.parent.gpConfNodeLookupChild f.seqName ≠ none) :
    Tied own (f.seqScalar value).parent := by
  unfold Frame.seqScalar
  cases there : f.parent.gpConfNodeLookupChild f.seqName with
  | none => exact absurd there found
  | some seqNode =>
      obtain ⟨linkedTo, below⟩ := tied.below.lookup there
      exact ⟨tied.own, (tied.below.unlinkChild _).insertTail linkedTo below⟩

theorem Tied.keyScalar (tied : Tied own f.parent) (value : CStr)
    (found : f.parent.gpConfNodeLookupChild value ≠ none) :
    Tied own (f.keyScalar value).parent := by
  rw [Frame.keyScalar_eq, addKey_eq]
  cases there : f.parent.gpConfNodeLookupChild value with
  | none => exact absurd there found
  | some existing =>
      dsimp only
      split
      · exact ⟨tied.own, tied.below.of_children rfl⟩
      · have marked := tied.below.of_children (m := { f.parent with val := f.parent.valWith value }) rfl
        refine ⟨tied.own, marked.modifyChild ?_⟩
        intro c lookedUp
        obtain ⟨linkedTo, below⟩ := tied.below.lookup lookedUp
        exact ⟨(gpConfNodePrune_hasParent c).trans linkedTo, Linked.prune below⟩

theorem Tied.valScalar (tied : Tied own f.parent) {value : CStr} {g : Frame}
    (done : f.valScalar value = .ok g) : Tied own g.parent := by
  obtain ⟨node, read, done⟩ := bind_eq_ok done
  obtain ⟨below, write⟩ := tied.deref read
  cases done
  split
  · exact tied
  · exact write _ ⟨rfl, below.of_children rfl⟩

/-- A file included at a node keeps its links. -/
def IncludesTied (handleInclude : Include) (finds : GpConfNode → CStr → Prop) : Prop :=
  ∀ n filename r, handleInclude n filename = .ok r → finds n filename → Linked n →
    Tied n.hasParent r.1

theorem Tied.scalarEvent (tied : Tied own f.parent) (includes : IncludesTied handleInclude finds)
    {inseq : Bool} {value : CStr} {tag : Option CStr} {g : Frame} {goesOn : Bool}
    (done : scalarEvent handleInclude inseq f value tag = .ok (g, goesOn))
    (found : scalarFinds finds inseq f value tag) : Tied own g.parent := by
  unfold Conf.scalarEvent at done
  unfold scalarFinds at found
  split at done
  · cases done
    exact tied
  · rename_i nonEmpty
    rw [if_neg nonEmpty] at found
    split at done
    · rename_i isSeq
      rw [if_pos isSeq] at found
      cases done
      exact tied.seqScalar value found
    · rename_i isMap
      rw [if_neg isMap] at found
      cases state : f.state with
      | confInclude =>
          simp only [state] at done found
          obtain ⟨⟨parent, ret⟩, included, done⟩ := bind_eq_ok done
          have kept := includes _ _ _ included found tied.below
          have parent' : g.parent = parent := by
            dsimp only at done
            split at done <;> cases done <;> rfl
          rw [parent']
          exact ⟨kept.own.trans tied.own, kept.below⟩
      | confKey =>
          simp only [state] at done found
          split at done
          · cases done
            exact tied
          · rename_i plain
            cases done
            exact tied.keyScalar value (found.resolve_left plain)
      | confVal =>
          simp only [state] at done found
          split at done
          · rename_i tagged
            obtain ⟨node, read, done⟩ := bind_eq_ok done
            obtain ⟨⟨node', ret⟩, included, done⟩ := bind_eq_ok done
            obtain ⟨below, write⟩ := tied.deref read
            have kept := write node' (includes _ _ _ included (found tagged node read) below)
            have parent' : g.parent = (f.assign node').parent := by
              dsimp only at done
              split at done <;> cases done <;> rfl
            rw [parent']
            exact kept
          · obtain ⟨g', written, done⟩ := bind_eq_ok done
            cases done
            exact tied.valScalar written

/-- A mapping in a sequence whose node is there. -/
theorem Tied.seqMapping {node : GpConfNode} (below : Linked node)
    (found : node.gpConfNodeLookupChild f.seqName ≠ none) :
    Linked (f.seqMapping node).2 ∧
      ∀ seqNode, Tied (f.seqMapping node).2.hasParent seqNode →
        Tied node.hasParent ((f.seqMapping node).1.modifyChild f.seqName fun _ => seqNode) := by
  unfold Frame.seqMapping
  cases there : node.gpConfNodeLookupChild f.seqName with
  | none => exact absurd there found
  | some old =>
      obtain ⟨linkedTo, belowOld⟩ := below.lookup there
      have marked : Linked { old with isSeq := true } := belowOld.of_children rfl
      refine ⟨marked, ?_⟩
      intro seqNode tied
      have relinked := (below.unlinkChild f.seqName).insertTail (c := { old with isSeq := true })
        linkedTo marked
      refine ⟨rfl, relinked.modifyChild ?_⟩
      intro _ _
      exact ⟨tied.own.trans linkedTo, tied.below⟩

/-- The run lemma: by induction on the rounds of the loop. -/
theorem Tied.parseLoop (includes : IncludesTied handleInclude finds) (fuel : Nat) {inseq : Bool}
    {rlevel : Nat} {events : List YamlEvent} {r : Parsed} (tied : Tied own f.parent)
    (done : parseLoop handleInclude fuel inseq rlevel f events = .ok r)
    (found : loopFinds handleInclude finds fuel inseq rlevel f events) : Tied own r.1 := by
  induction fuel generalizing own f inseq rlevel events r with
  | zero => cases done
  | succ fuel ih =>
      cases events with
      | nil =>
          cases done
          exact tied
      | cons event events =>
          -- a nested call on a node below
          have nested : ∀ {m : GpConfNode} {inseq' : Bool} {node : GpConfNode} {ret : Int}
              {rest : List YamlEvent}, Linked m →
              enter rlevel m events (fun g => Conf.parseLoop handleInclude fuel inseq' (rlevel + 1)
                g events) = .ok (node, ret, rest) →
              (rlevel ≤ recursionLimit →
                loopFinds handleInclude finds fuel inseq' (rlevel + 1) (Frame.start m) events) →
              Tied m.hasParent node := by
            intro m inseq' node ret rest below called foundBelow
            unfold enter at called
            split at called
            · cases called
              exact ⟨rfl, below⟩
            · rename_i shallow
              exact ih (f := Frame.start m) ⟨rfl, below⟩ called
                (foundBelow (Nat.le_of_not_lt shallow))
          -- the loop behind a nested call, which has left the frame `g`
          have after : ∀ {g h : Frame} {ret : Int} {rest : List YamlEvent}, Tied own g.parent →
              (if ret ≠ 0 then .ok (g.parent, -1, rest)
                else Conf.parseLoop handleInclude fuel inseq rlevel h rest) = .ok r →
              h.parent = g.parent →
              (ret = 0 → loopFinds handleInclude finds fuel inseq rlevel h rest) →
              Tied own r.1 := by
            intro g h ret rest written done same foundLater
            split at done
            · cases done
              exact written
            · rename_i success
              exact ih (same ▸ written) done (foundLater (Decidable.not_not.mp success))
          cases event with
          | documentStart version =>
              rw [Conf.parseLoop] at done
              rw [loopFinds] at found
              split at done
              · rename_i version11
                exact ih tied done (found version11)
              · cases done
                exact tied
          | scalar value tag =>
              rw [Conf.parseLoop] at done
              rw [loopFinds] at found
              obtain ⟨⟨g, goesOn⟩, scalar, done⟩ := bind_eq_ok done
              have next := tied.scalarEvent includes scalar found.1
              dsimp only at done
              split at done
              · rename_i on
                subst on
                exact ih next done (found.2 g scalar)
              · cases done
                exact next
          | sequenceStart =>
              rw [Conf.parseLoop] at done
              rw [loopFinds] at found
              obtain ⟨node, read, done⟩ := bind_eq_ok done
              obtain ⟨⟨node', ret, rest⟩, called, done⟩ := bind_eq_ok done
              obtain ⟨below, write⟩ := tied.deref read
              obtain ⟨foundBelow, foundLater⟩ := found node read
              have kept := nested below called foundBelow
              dsimp only at done
              split at done
              · cases done
                exact write node' kept
              · rename_i success
                rw [Decidable.not_not] at success
                subst success
                refine ih ?_ done (foundLater node' rest called)
                exact write _ ⟨kept.own, kept.below.of_children rfl⟩
          | mappingStart =>
              rw [Conf.parseLoop] at done
              rw [loopFinds] at found
              obtain ⟨node, read, done⟩ := bind_eq_ok done
              obtain ⟨below, write⟩ := tied.deref read
              cases inseq with
              | true =>
                  obtain ⟨there, foundBelow, foundLater⟩ := found node read
                  obtain ⟨belowSeq, put⟩ := Tied.seqMapping below there
                  obtain ⟨⟨seqNode, ret, rest⟩, called, done⟩ := bind_eq_ok done
                  have written := write _ (put seqNode (nested belowSeq called foundBelow))
                  refine after (g := (f.assign _).nextSeq) written done rfl ?_
                  rintro rfl
                  exact foundLater seqNode rest called
              | false =>
                  obtain ⟨foundBelow, foundLater⟩ := found node read
                  obtain ⟨⟨node', ret, rest⟩, called, done⟩ := bind_eq_ok done
                  have written := write _ (nested below called foundBelow)
                  refine after written done rfl ?_
                  rintro rfl
                  exact foundLater node' rest called
          | sequenceEnd =>
              cases done
              exact tied
          | mappingEnd =>
              cases done
              exact tied
          | streamEnd =>
              cases done
              exact tied
          | noEvent => exact ih tied done found
          | streamStart => exact ih tied done found
          | documentEnd => exact ih tied done found
          | aliasEvent => exact ih tied done found

theorem Tied.gpConfYamlParse (includes : IncludesTied handleInclude finds) {node : GpConfNode}
    (below : Linked node) {events : List YamlEvent} {r : Parsed}
    (done : gpConfYamlParse handleInclude node false 0 events = .ok r)
    (found : parseFinds handleInclude finds node events) : Tied node.hasParent r.1 :=
  Tied.parseLoop (f := Frame.start node) includes _ ⟨rfl, below⟩ done found

end Ties

/-- By induction on how deep includes may nest. -/
theorem handleInclude_tied (files : Files) (confDirname : Option CStr) (fuel opened : Nat) :
    IncludesTied (gpConfYamlHandleInclude files confDirname fuel opened)
      (includeFinds files confDirname fuel opened) := by
  induction fuel generalizing opened with
  | zero =>
      intro n filename r done
      cases done
  | succ fuel ih =>
      intro n filename r done found linked
      unfold gpConfYamlHandleInclude at done
      unfold includeFinds at found
      cases content : files.fopen opened (includeFilename confDirname filename) with
      | none =>
          rw [content] at done
          cases done
          exact ⟨rfl, linked⟩
      | some events =>
          rw [content] at done
          obtain ⟨⟨node, ret, rest⟩, parsed, done⟩ := bind_eq_ok done
          cases done
          exact Tied.gpConfYamlParse (ih (opened + 1)) linked parsed (found events content)

/-! ## Calls -/

section Calls

variable {s t : ConfStore} {fuel : Nat} {ret : Int}

theorem Linked.modifyTo {n m node : GpConfNode} {path : List CStr} (linked : Linked n)
    (found : n.nodeAt path = some m) (tied : Tied m.hasParent node) :
    Tied n.hasParent (n.modifyAt (fun _ => node) path) := by
  induction path generalizing n with
  | nil =>
      cases found
      exact tied
  | cons key path ih =>
      obtain ⟨c, child, found⟩ := child_of_nodeAt found
      refine ⟨rfl, linked.modifyChild ?_⟩
      intro d lookedUp
      rw [child, Option.some.injEq] at lookedUp
      subst lookedUp
      obtain ⟨linkedTo, below⟩ := linked.lookup child
      have changed := ih below found
      exact ⟨changed.own.trans linkedTo, changed.below⟩

theorem Linked.parseAt (linked : Linked s.root) {files : Files} {opened : Nat} {path : List CStr}
    {events : List YamlEvent} (done : s.parseAt fuel files opened path events = .ok (t, ret))
    (found : s.Finds files opened path events) : Linked t.root := by
  unfold ConfStore.parseAt at done
  cases there : s.root.nodeAt path with
  | none => simp [there] at done
  | some node =>
      simp only [there] at done
      obtain ⟨⟨node', ret', rest⟩, parsed, done⟩ := bind_eq_ok done
      cases done
      have tied := Tied.gpConfYamlParse (handleInclude_tied files s.confDirname fuel opened)
        (linked.nodeAt there).1 parsed (found node there fuel)
      exact (linked.modifyTo there tied).below

theorem Linked.placeHolder {root : GpConfNode} (linked : Linked root) (under : CStr) :
    Linked (ConfStore.placeHolder root under) := by
  unfold ConfStore.placeHolder
  split
  · exact linked
  · exact linked.gpConfSet _ _

/-- The step lemma: a call whose loads find their nodes keeps the links. -/
theorem Linked.exec (linked : Linked s.root) {c : ConfCall} (finds : c.Finds s)
    (done : c.exec fuel s = .ok (t, ret)) : Linked t.root := by
  cases c with
  | set name val =>
      cases done
      exact linked.gpConfSet name val
  | setFinal name val =>
      cases done
      exact linked.gpConfSetFinal name val
  | setFromString input final =>
      cases done
      exact linked.gpConfSetFromString input final
  | remove name =>
      obtain ⟨⟨root, ret'⟩, removed, done⟩ := bind_eq_ok done
      cases done
      exact linked.gpConfRemove removed
  | loadFile files filename =>
      simp only [ConfCall.exec, ConfStore.gpConfYamlLoadFile] at done
      split at done
      · cases done
        exact linked
      · split at done
        · cases done
          exact linked
        · rename_i events opened
          exact Linked.parseAt (s := s.setConfDirname filename) linked done (finds events opened)
  | loadString files events =>
      have parsed : s.parseAt fuel files 0 [] events = .ok (t, ret) := done
      exact linked.parseAt parsed finds
  | loadFileWithPrefix files filename under =>
      simp only [ConfCall.exec, ConfStore.gpConfYamlLoadFileWithPrefix] at done
      split at done
      · cases done
        exact linked
      · split at done
        · cases done
          exact linked
        · rename_i events opened
          split at done
          · cases done
            exact linked.placeHolder under
          · exact Linked.parseAt (s := { s.setConfDirname filename with
              root := ConfStore.placeHolder s.root under }) (linked.placeHolder under) done
              (finds events opened)

theorem run_linked {calls : List (ConfCall × Int)}
    (run : (confSys.restrict fun s a => a.1.Finds s).Run calls s) : Linked s.root := by
  refine run.invariant (I := fun _ s => Linked s.root) ?_ ?_
  · intro s start
    obtain rfl : s = gpConfInit := start
    exact .of_empty rfl
  · intro calls s a t _ linked step
    obtain ⟨finds, fuel, done⟩ := step
    exact linked.exec finds done

/-- **Parent links.** In every run in which each load finds the nodes that it asks
for, every node below the root has its parent set. `gp_conf_remove` then always
returns; if it returns 1 the name has no node any more, and the links of the others
are kept. -/
theorem parents_linked {calls : List (ConfCall × Int)}
    (run : (confSys.restrict fun s a => a.1.Finds s).Run calls s) :
    Linked s.root ∧ ∀ name, ∃ root' ret, gpConfRemove s.root name = .ok (root', ret) ∧
      Linked root' ∧ (ret = 1 → gpConfGetNode root' name = none) := by
  have linked := run_linked run
  have distinct := run_distinct run.of_restrict
  refine ⟨linked, ?_⟩
  intro name
  obtain ⟨root', ret, removed, refines, _⟩ := gpConfRemove_refines distinct linked name
  refine ⟨root', ret, removed, linked.gpConfRemove removed, ?_⟩
  intro success
  unfold ConfMap.remove at refines
  split at refines
  · rw [success] at refines
    exact absurd (congrArg Prod.snd refines) Int.one_ne_zero
  · have erased : root'.view = s.root.view.erase (components name) := congrArg Prod.fst refines
    unfold gpConfGetNode
    split
    · rfl
    · rw [← view_eq_none_iff, erased]
      simp [ConfMap.erase]

end Calls

/-- The events of a document that sets `a` to `b`. -/
def setsA : List YamlEvent :=
  [.streamStart, .documentStart (some (1, 1)), .mappingStart, .scalar (ascii "a") none,
    .scalar (ascii "b") none, .mappingEnd, .documentEnd, .streamEnd]

/-- `a` is set, then loaded again: the load finds its node, and `a` can be removed. -/
theorem parents_linked_reload :
    ∃ s, (confSys.restrict fun s a => a.1.Finds s).Run
        [(.set (ascii "a") (ascii "1"), 1), (.loadString noFiles setsA, 0)] s ∧
      ∃ root' ret, gpConfRemove s.root (ascii "a") = .ok (root', ret) ∧ Linked root' := by
  let a : GpConfNode := ⟨some (ascii "a"), some (ascii "1"), false, false, true, []⟩
  let s₁ : ConfStore := ⟨gpConfNodeNew.insertTail a, none⟩
  let s₂ : ConfStore := ⟨gpConfNodeNew.insertTail { a with val := some (ascii "b") }, none⟩
  have run₁ : (confSys.restrict fun s a => a.1.Finds s).Run
      [(.set (ascii "a") (ascii "1"), 1)] s₁ := .step (.init rfl) ⟨trivial, 1, by rfl⟩
  have finds : (ConfCall.loadString noFiles setsA).Finds s₁ := by
    intro node there fuel
    cases there
    intro _ node read
    cases read
    refine ⟨fun _ => ⟨Or.inr ?_, ?_⟩, ?_⟩
    · intro missing
      cases missing
    · intro g keyRead
      cases keyRead
      refine ⟨?_, fun _ _ => trivial⟩
      intro tagged
      cases tagged
    · intro node' rest parsed
      cases parsed
      exact trivial
  have run₂ : (confSys.restrict fun s a => a.1.Finds s).Run
      [(.set (ascii "a") (ascii "1"), 1), (.loadString noFiles setsA, 0)] s₂ :=
    .step run₁ ⟨finds, 1, by rfl⟩
  obtain ⟨root', ret, removed, linked, _⟩ := (parents_linked run₂).2 (ascii "a")
  exact ⟨s₂, run₂, root', ret, removed, linked⟩

/-- Loaded into the empty tree, `a` has no parent, and its removal frees a node that
the list of the root still holds. -/
theorem loaded_node_unlinked :
    ∃ s, confSys.Run [(.loadString noFiles setsA, 0)] s ∧ ¬ Linked s.root ∧
      gpConfRemove s.root (ascii "a") = .error .dangling := by
  let a : GpConfNode := ⟨some (ascii "a"), some (ascii "b"), false, false, false, []⟩
  refine ⟨⟨gpConfNodeNew.insertTail a, none⟩, .step (.init rfl) ⟨1, by rfl⟩, ?_, by rfl⟩
  intro linked
  exact absurd (linked.child (c := a) List.mem_cons_self).1 Bool.false_ne_true

end GpBase.Conf

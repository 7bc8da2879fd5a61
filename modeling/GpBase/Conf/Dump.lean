import GpBase.Conf.Recursion

/-!
# Dumping the tree

Translation of `gp_conf_dump`. The names on the way to a node stand in a static array
of 128 slots, at a static `level`. A dump stays inside the array, and leaves `level`
at -1, just when the tree is at most 128 levels deep; so calls that stay within 128
levels can always be followed by a dump.
-/

namespace GpBase.Conf

open GpBase.Lib GpConfNode

/-- The slots of `static char *name[128]`. -/
def nameSlots : Nat := 128

/-- `strlcat`, without its return value. -/
def strlcat (dst src : CStr) (siz : Nat) : CStr :=
  if siz ≤ dst.length then dst else dst ++ src.take (siz - 1 - dst.length)

/-- The static variables of `gp_conf_node_dump`, and what has been printed. -/
structure Dump where
  /-- `none`: `NULL`, or freed -/
  name : List (Option CStr)
  level : Int
  out : CStr

/-- Nothing has been dumped. -/
def Dump.start : Dump := ⟨List.replicate nameSlots none, -1, []⟩

/-- `name[level] = ...`. -/
def Dump.setName (d : Dump) (name : Option CStr) : Except Fault Dump :=
  if 0 ≤ d.level ∧ d.level < d.name.length then
    .ok { d with name := d.name.set d.level.toNat name }
  else .error .outOfBounds

/-- The string at `name_arr[i]`. -/
def slot (nameArr : List (Option CStr)) (i : Nat) : Except Fault CStr :=
  match nameArr[i]? with
  | none => .error .outOfBounds
  | some none => .error .dangling
  | some (some name) => .ok name

/-- `gp_conf_print_name_array`. -/
def gpConfPrintNameArray (nameArr : List (Option CStr)) (level : Int) : Except Fault CStr :=
  (List.range (level + 1).toNat).foldlM (fun name i => do
    let part ← slot nameArr i
    let name := strlcat name part (128 * 128)
    return if (i : Int) < level then strlcat name (ascii ".") (128 * 128) else name) []

/-- The line that is printed for a node; a missing value is printed as glibc does. -/
def dumpLine (under : Option CStr) (name : CStr) (val : Option CStr) : CStr :=
  (match under with
    | none => []
    | some under => under ++ ascii ".") ++
    name ++ ascii " = " ++ val.getD (ascii "(null)") ++ ascii "\n"

mutual

def gpConfNodeDump (under : Option CStr) : GpConfNode → Dump → Except Fault Dump
  | ⟨_, _, _, _, _, children⟩, d => do
    let d ← dumpChildren under children { d with level := d.level + 1 }
    return { d with level := d.level - 1 }

/-- The loop of `gp_conf_node_dump`. -/
def dumpChildren (under : Option CStr) : List GpConfNode → Dump → Except Fault Dump
  | [], d => .ok d
  | child :: rest, d =>
    match child.name with
    | none => .error .dangling
    | some name => do
      let d ← d.setName (some name)
      let path ← gpConfPrintNameArray d.name d.level
      let d := { d with out := d.out ++ dumpLine under path child.val }
      let d ← gpConfNodeDump under child d
      let d ← d.setName none
      dumpChildren under rest d

end

/-- `gp_conf_dump`. -/
def gpConfDump (root : GpConfNode) (d : Dump) : Except Fault Dump := gpConfNodeDump none root d

/-! ## The stack of names -/

/-- The slots below `depth` are set, and `level` is as given. -/
structure Dump.Stack (d : Dump) (level : Int) (depth : Nat) : Prop where
  at_level : d.level = level
  slots : d.name.length = nameSlots
  set : ∀ i < depth, ∃ name, d.name[i]? = some (some name)

section Stacks

variable {d : Dump} {level : Int} {depth : Nat}

theorem foldlM_returns {α β : Type} {step : β → α → Except Fault β} (l : List α) (b : β)
    (returns : ∀ b, ∀ a ∈ l, ∃ b', step b a = .ok b') : ∃ b', l.foldlM step b = .ok b' := by
  induction l generalizing b with
  | nil => exact ⟨b, rfl⟩
  | cons a l ih =>
      obtain ⟨b', done⟩ := returns b a List.mem_cons_self
      rw [List.foldlM_cons, done]
      exact ih b' fun b a mem => returns b a (List.mem_cons_of_mem _ mem)

/-- The names on the stack can be printed. -/
theorem Dump.Stack.print (stack : d.Stack level depth) (below : level < depth) :
    ∃ path, gpConfPrintNameArray d.name d.level = .ok path := by
  refine foldlM_returns _ _ ?_
  intro name i mem
  have := List.mem_range.mp mem
  rw [stack.at_level] at this
  obtain ⟨part, there⟩ := stack.set i (by omega)
  unfold slot
  rw [there]
  exact ⟨_, rfl⟩

/-- A name is put on the stack, if there is a slot. -/
theorem Dump.Stack.push (stack : d.Stack depth depth) (name : CStr) :
    (depth < nameSlots ∧ ∃ d', d.setName (some name) = .ok d' ∧ d'.Stack depth (depth + 1)) ∨
      (nameSlots ≤ depth ∧ d.setName (some name) = .error .outOfBounds) := by
  unfold Dump.setName
  rw [stack.at_level, stack.slots]
  by_cases room : depth < nameSlots
  · refine .inl ⟨room, _, if_pos ⟨by omega, by omega⟩, ?_⟩
    refine ⟨rfl, by rw [List.length_set, stack.slots], ?_⟩
    intro i below
    have inside : i < d.name.length := by rw [stack.slots]; omega
    rw [List.getElem?_set, Int.toNat_natCast]
    by_cases top : depth = i
    · rw [if_pos top]
      subst top
      exact ⟨name, if_pos inside⟩
    · rw [if_neg top]
      exact stack.set i (by omega)
  · exact .inr ⟨Nat.le_of_not_lt room, if_neg (by omega)⟩

/-- The top of the stack is freed. -/
theorem Dump.Stack.pop (stack : d.Stack depth (depth + 1)) (room : depth < nameSlots) :
    ∃ d', d.setName none = .ok d' ∧ d'.Stack depth depth := by
  unfold Dump.setName
  rw [stack.at_level, stack.slots]
  refine ⟨_, if_pos ⟨by omega, by omega⟩, ?_⟩
  refine ⟨rfl, by rw [List.length_set, stack.slots], ?_⟩
  intro i below
  rw [List.getElem?_set, Int.toNat_natCast, if_neg (by omega)]
  exact stack.set i (by omega)

end Stacks

/-! ## When a dump stays inside -/

/-- The children of a node at `depth`, one by one. -/
def ChildrenFit (depth : Nat) (items : List GpConfNode) : Prop :=
  ∀ c ∈ items, depth < nameSlots ∧ c.name ≠ none ∧ Shallow (nameSlots - (depth + 1)) c

theorem shallow_iff_children (depth : Nat) (n : GpConfNode) :
    Shallow (nameSlots - depth) n ↔ ChildrenFit depth n.children := by
  by_cases room : depth < nameSlots
  · rw [show nameSlots - depth = nameSlots - (depth + 1) + 1 by omega]
    exact ⟨fun shallow c mem => ⟨room, shallow c mem⟩, fun fit c mem => (fit c mem).2⟩
  · rw [show nameSlots - depth = 0 by omega]
    refine ⟨?_, ?_⟩
    · intro empty c mem
      rw [show n.children = [] from empty] at mem
      cases mem
    · intro fit
      exact List.eq_nil_iff_forall_not_mem.mpr fun c mem => room (fit c mem).1

mutual

/-- By induction on the tree: a dump that starts at `depth` returns to it, or overruns
the array; where a node has no name it may crash before it does. -/
theorem nodeDump_spec (under : Option CStr) : ∀ (n : GpConfNode) {d : Dump} {depth : Nat},
    d.Stack (depth - 1) depth →
    (Shallow (nameSlots - depth) n ∧
        ∃ d', gpConfNodeDump under n d = .ok d' ∧ d'.Stack (depth - 1) depth) ∨
      (¬ Shallow (nameSlots - depth) n ∧ ∃ fault, gpConfNodeDump under n d = .error fault ∧
        ∀ h, Shallow h n → fault = .outOfBounds)
  | ⟨name, val, isSeq, final, hasParent, children⟩, d, depth, stack => by
      have entered : Dump.Stack { d with level := d.level + 1 } depth depth :=
        ⟨by simp [stack.at_level], stack.slots, stack.set⟩
      rw [shallow_iff_children, gpConfNodeDump]
      rcases dumpChildren_spec under children entered with ⟨fit, d', done, stack'⟩ |
        ⟨deep, fault, failed, overrun⟩
      · rw [done]
        exact .inl ⟨fit, _, rfl, by simp [stack'.at_level], stack'.slots, stack'.set⟩
      · rw [failed]
        refine .inr ⟨deep, fault, rfl, ?_⟩
        intro h shallow
        exact overrun h (shallow.mono (Nat.le_succ h))

theorem dumpChildren_spec (under : Option CStr) : ∀ (items : List GpConfNode) {d : Dump}
    {depth : Nat}, d.Stack depth depth →
    (ChildrenFit depth items ∧
        ∃ d', dumpChildren under items d = .ok d' ∧ d'.Stack depth depth) ∨
      (¬ ChildrenFit depth items ∧ ∃ fault, dumpChildren under items d = .error fault ∧
        ∀ h, (∀ c ∈ items, c.name ≠ none ∧ Shallow h c) → fault = .outOfBounds)
  | [], d, depth, stack => by
      refine .inl ⟨?_, d, rfl, stack⟩
      intro c mem
      cases mem
  | child :: rest, d, depth, stack => by
      rw [dumpChildren]
      cases named : child.name with
      | none =>
          refine .inr ⟨?_, _, rfl, ?_⟩
          · intro fit
            exact (fit child List.mem_cons_self).2.1 named
          · intro h all
            exact absurd named (all child List.mem_cons_self).1
      | some name =>
          dsimp only
          rcases stack.push name with ⟨room, d₁, pushed, stack₁⟩ | ⟨full, failed⟩
          · obtain ⟨path, printed⟩ := stack₁.print (by omega)
            have onTop : Dump.Stack { d₁ with out := d₁.out ++ dumpLine under path child.val }
                ((depth + 1 : Nat) - 1) (depth + 1) :=
              ⟨by rw [stack₁.at_level]; omega, stack₁.slots, stack₁.set⟩
            rw [pushed]
            simp only [bind, Except.bind, printed]
            rcases nodeDump_spec under child onTop with ⟨shallow, d₂, done, stack₂⟩ |
              ⟨deep, fault, failed, overrun⟩
            · have stack₂ : d₂.Stack depth (depth + 1) :=
                ⟨by rw [stack₂.at_level]; omega, stack₂.slots, stack₂.set⟩
              obtain ⟨d₃, popped, stack₃⟩ := stack₂.pop room
              simp only [done, popped]
              rcases dumpChildren_spec under rest stack₃ with ⟨fit, d₄, ended, stack₄⟩ |
                ⟨deep, fault, failed, overrun⟩
              · refine .inl ⟨?_, d₄, ended, stack₄⟩
                intro c mem
                rcases List.mem_cons.mp mem with rfl | mem
                · exact ⟨room, by simp [named], shallow⟩
                · exact fit c mem
              · refine .inr ⟨?_, fault, failed, ?_⟩
                · exact fun fit => deep fun c mem => fit c (List.mem_cons_of_mem _ mem)
                · exact fun h all => overrun h fun c mem => all c (List.mem_cons_of_mem _ mem)
            · refine .inr ⟨fun fit => deep (fit child List.mem_cons_self).2.2, fault, ?_, ?_⟩
              · simp only [failed]
              · exact fun h all => overrun h (all child List.mem_cons_self).2
          · refine .inr ⟨?_, .outOfBounds, by rw [failed]; rfl, fun _ _ => rfl⟩
            intro fit
            have := (fit child List.mem_cons_self).1
            omega

end

/-- A dump indexes the slots of the array only, and ends with `level` at -1. -/
def DumpsWithin (root : GpConfNode) (d : Dump) : Prop :=
  ∃ d', gpConfDump root d = .ok d' ∧ d'.Stack (-1) 0

theorem dumpsWithin_iff {d : Dump} (ready : d.Stack (-1) 0) (n : GpConfNode) :
    DumpsWithin n d ↔ Shallow nameSlots n := by
  rcases @nodeDump_spec none n d 0 ready with ⟨shallow, d', done, ready'⟩ |
    ⟨deep, fault, failed, _⟩
  · exact ⟨fun _ => shallow, fun _ => ⟨d', done, ready'⟩⟩
  · refine ⟨?_, fun shallow => absurd shallow deep⟩
    rintro ⟨d', done, _⟩
    rw [show gpConfDump n d = _ from failed] at done
    cases done

/-! ## Calls that stay within the slots -/

/-- A name that is short enough to be used has at most as many components as slots. -/
def ShortPath (name : CStr) : Prop :=
  name.length < nodeNameMax → (components name).length ≤ nameSlots

/-- A set has a short path; a load fits into the slots, those of its prefix counted. -/
def ConfCall.Within (s : ConfStore) : ConfCall → Prop
  | .set name _ => ShortPath name
  | .setFinal name _ => ShortPath name
  | .setFromString input _ => (0x3d : UInt8) ∈ input →
      ShortPath ((input.takeWhile (· ≠ 0x3d)).rdropWhile isspace)
  | .remove _ => True
  | .loadFile files filename => ∀ events, files.content filename = some events →
      Fits files (s.setConfDirname filename).confDirname nameSlots 1 (outline events)
  | .loadString files events => Fits files s.confDirname nameSlots 0 (outline events)
  | .loadFileWithPrefix files filename under => ∀ events, files.content filename = some events →
      under.length < nodeNameMax →
        Fits files (s.setConfDirname filename).confDirname
          (nameSlots - (components under).length) 1 (outline events)

section Calls

variable {h : Nat} {root : GpConfNode} {s t : ConfStore}

/-- A path is made, and the fields of its node are written. -/
theorem Shallow.createAt {f : GpConfNode → GpConfNode} (shallow : Shallow h root)
    (distinct : Distinct root) (final : Bool) {path : List CStr} (short : path.length ≤ h)
    (named : ∀ m, (f m).name = m.name) (below : ∀ m, (f m).children = m.children) :
    Shallow h ((root.createPath final path).modifyAt f path) := by
  have made := shallow.createPath final path short
  obtain ⟨m, found⟩ := nodeAt_createPath final path distinct
  exact made.modifyAt found (named m) ((made.nodeAt found).2.of_children (below m))

theorem Shallow.gpConfSet (shallow : Shallow h root) (distinct : Distinct root) {name : CStr}
    (short : name.length < nodeNameMax → (components name).length ≤ h) (val : CStr) :
    Shallow h (gpConfSet root name val).1 := by
  unfold Conf.gpConfSet gpConfGetNodeOrCreate
  by_cases long : nodeNameMax ≤ name.length
  · rw [if_pos long]
    exact shallow
  · rw [if_neg long]
    have short := short (Nat.lt_of_not_le long)
    dsimp only
    split
    · exact shallow.createPath false _ short
    · exact shallow.createAt distinct false short (fun _ => rfl) fun _ => rfl

theorem Shallow.gpConfSetFinal (shallow : Shallow h root) (distinct : Distinct root)
    {name : CStr} (short : name.length < nodeNameMax → (components name).length ≤ h) (val : CStr) :
    Shallow h (gpConfSetFinal root name val).1 := by
  unfold Conf.gpConfSetFinal gpConfGetNodeOrCreate
  by_cases long : nodeNameMax ≤ name.length
  · rw [if_pos long]
    exact shallow
  · rw [if_neg long]
    exact shallow.createAt distinct true (short (Nat.lt_of_not_le long)) (fun _ => rfl) fun _ => rfl

theorem Shallow.gpConfSetFromString (shallow : Shallow nameSlots root) (distinct : Distinct root)
    {input : CStr} (short : (0x3d : UInt8) ∈ input →
      ShortPath ((input.takeWhile (· ≠ 0x3d)).rdropWhile isspace)) (final : Bool) :
    Shallow nameSlots (gpConfSetFromString root input final).1 := by
  unfold Conf.gpConfSetFromString
  split
  · exact shallow
  · rename_i assigned
    have short := short (Decidable.not_not.mp assigned)
    dsimp only
    split
    · exact shallow.gpConfSetFinal distinct short _
    · exact shallow.gpConfSet distinct short _

theorem Shallow.removeAt (shallow : Shallow h root) (path : List CStr) :
    Shallow h (root.removeAt path) := by
  induction path generalizing h root with
  | nil => exact shallow
  | cons key keys ih =>
      cases keys with
      | nil => exact shallow.unlinkChild key
      | cons key' keys =>
          cases h with
          | zero =>
              have empty : root.children = [] := shallow
              exact .of_empty (by simp [GpConfNode.removeAt, GpConfNode.modifyChild, empty]) 0
          | succ h =>
              refine shallow.modifyChild ?_
              intro c found
              obtain ⟨named, below⟩ := shallow.lookup found
              refine ⟨?_, ih below⟩
              rw [removeAt_name]
              exact named

/-- A load that fits below its node stays within the slots. -/
theorem Shallow.parseAt {fuel opened : Nat} {files : Files} {path : List CStr}
    {events : List YamlEvent} {ret : Int} (shallow : Shallow nameSlots s.root)
    (distinct : Distinct s.root)
    (fits : Fits files s.confDirname (nameSlots - path.length) opened (outline events))
    (done : s.parseAt fuel files opened path events = .ok (t, ret)) :
    Shallow nameSlots t.root := by
  cases found : s.root.nodeAt path with
  | none =>
      rw [ConfStore.parseAt, found] at done
      cases done
  | some m =>
      -- the load also returns on a stack of that size, and has one result only
      obtain ⟨enough, t', ret', onStack⟩ :=
        (parseAtIn_ok_iff distinct _ opened found events).mpr fits
      have loaded := parseAtIn_returns _ (Nat.le_max_right fuel enough) opened path events _ onStack
      have same := parseAt_returns (Nat.le_max_left fuel enough) opened path events _ done
      rw [loaded] at same
      cases same
      obtain ⟨_, grown, _⟩ :=
        (parseAtIn_spec distinct enough _ opened found events).good_of_ok onStack
      have short := (shallow.nodeAt found).1
      exact grown nameSlots (by omega) shallow

theorem Shallow.placeHolder (shallow : Shallow nameSlots root) (distinct : Distinct root)
    {under : CStr} (short : ShortPath under) :
    Shallow nameSlots (ConfStore.placeHolder root under) := by
  unfold ConfStore.placeHolder
  split
  · exact shallow
  · exact shallow.gpConfSet distinct short _

/-- The step lemma: calls within the slots keep the tree within them. -/
theorem Shallow.exec (shallow : Shallow nameSlots s.root) (distinct : Distinct s.root)
    {c : ConfCall} (within : c.Within s) {fuel : Nat} {ret : Int}
    (done : c.exec fuel s = .ok (t, ret)) : Shallow nameSlots t.root := by
  cases c with
  | set name val =>
      cases done
      exact shallow.gpConfSet distinct within val
  | setFinal name val =>
      cases done
      exact shallow.gpConfSetFinal distinct within val
  | setFromString input final =>
      cases done
      exact shallow.gpConfSetFromString distinct within final
  | remove name =>
      obtain ⟨⟨root, ret'⟩, removed, done⟩ := bind_eq_ok done
      cases done
      unfold gpConfRemove at removed
      split at removed
      · cases removed
        exact shallow
      · split at removed
        · cases removed
          exact shallow.removeAt _
        · cases removed
  | loadFile files filename =>
      have loaded : s.gpConfYamlLoadFile fuel files filename = .ok (t, ret) := done
      cases content : files.content filename with
      | none =>
          rw [(loadFileIn_none fuel none content).2] at loaded
          cases loaded
          exact shallow
      | some events =>
          rw [(loadFileIn_some fuel none content).2] at loaded
          exact Shallow.parseAt (s := s.setConfDirname filename) shallow distinct
            (within events content) loaded
  | loadString files events =>
      have parsed : s.parseAt fuel files 0 [] events = .ok (t, ret) := done
      have fits : Fits files s.confDirname (nameSlots - ([] : List CStr).length) 0
        (outline events) := within
      exact shallow.parseAt distinct fits parsed
  | loadFileWithPrefix files filename under =>
      simp only [ConfCall.exec, ConfStore.gpConfYamlLoadFileWithPrefix] at done
      split at done
      · cases done
        exact shallow
      · rename_i isFile
        split at done
        · cases done
          exact shallow
        · rename_i events opened
          have content : files.content filename = some events := (if_neg isFile).trans opened
          have fits := within events content
          have short : ShortPath under := by
            intro usable
            have := (fits usable).room_pos
            omega
          have made := shallow.placeHolder distinct short
          split at done
          · cases done
            exact made
          · rename_i m found
            have usable : under.length < nodeNameMax := by
              unfold gpConfGetNode at found
              split at found
              · cases found
              · rename_i usable
                exact Nat.lt_of_not_le usable
            exact Shallow.parseAt (s := { s.setConfDirname filename with
              root := ConfStore.placeHolder s.root under }) made
              (Keeps.placeHolder distinct under).distinct (fits usable) done

theorem run_shallow {calls : List (ConfCall × Int)}
    (run : (confSys.restrict fun s a => a.1.Within s).Run calls s) : Shallow nameSlots s.root := by
  refine run.invariant (I := fun _ s => Shallow nameSlots s.root) ?_ ?_
  · intro s start
    obtain rfl : s = gpConfInit := start
    exact .of_empty rfl nameSlots
  · intro calls s a t before shallow step
    obtain ⟨within, fuel, done⟩ := step
    exact shallow.exec (run_distinct before.of_restrict) within done

/-- **Dumps stay inside the name array** just when the tree is at most 128 levels deep;
and it is after every run whose sets name at most 128 components and whose loads nest
at most 128 calls, those of included files and the components of a prefix counted. -/
theorem dump_within_iff {d : Dump} (ready : d.Stack (-1) 0) (s : ConfStore) :
    (DumpsWithin s.root d ↔ Shallow nameSlots s.root) ∧
      ∀ calls, (confSys.restrict fun s a => a.1.Within s).Run calls s → DumpsWithin s.root d := by
  refine ⟨dumpsWithin_iff ready s.root, ?_⟩
  intro calls run
  exact (dumpsWithin_iff ready s.root).mpr (run_shallow run)

end Calls

theorem ready_start : Dump.start.Stack (-1) 0 :=
  ⟨rfl, List.length_replicate, fun i below => absurd below (Nat.not_lt_zero i)⟩

/-- A set and a load that stay within the slots, then a dump. -/
theorem dump_within_overriding :
    ∃ s, confSys.Run [(.set (ascii "a.b") (ascii "x"), 1), (.loadString noFiles overriding, 0)] s ∧
      DumpsWithin s.root Dump.start := by
  let s₁ : ConfStore := ⟨(gpConfSet gpConfNodeNew (ascii "a.b") (ascii "x")).1, none⟩
  let b : GpConfNode := ⟨some (ascii "b"), some (ascii "y"), false, false, false, []⟩
  let s₂ : ConfStore := ⟨gpConfNodeNew.insertTail
    ⟨some (ascii "a"), none, false, false, true, [b]⟩, none⟩
  have short : ShortPath (ascii "a.b") := fun _ => by decide
  have fits : Fits noFiles none nameSlots 0 (outline overriding) := by
    show Fits noFiles none 128 0 (.opens 0 (.opens 1 (.opens 2 (.returns true))))
    rw [fits_opens_iff, fits_opens_iff, fits_opens_iff]
    exact ⟨by decide, by decide, by decide, fits_returns true⟩
  have run₁ : (confSys.restrict fun s a => a.1.Within s).Run
      [(.set (ascii "a.b") (ascii "x"), 1)] s₁ := .step (.init rfl) ⟨short, 1, by rfl⟩
  have run₂ : (confSys.restrict fun s a => a.1.Within s).Run
      [(.set (ascii "a.b") (ascii "x"), 1), (.loadString noFiles overriding, 0)] s₂ :=
    .step run₁ ⟨fits, 1, by rfl⟩
  exact ⟨s₂, run₂.of_restrict, (dump_within_iff ready_start s₂).2 _ run₂⟩

/-- A usable name that has been set is found, however long its path is. -/
theorem nodeAt_gpConfSet {root : GpConfNode} (distinct : Distinct root) {name : CStr}
    (usable : name.length < nodeNameMax) (val : CStr) :
    ∃ m, (gpConfSet root name val).1.nodeAt (components name) = some m := by
  unfold gpConfSet gpConfGetNodeOrCreate
  rw [if_neg (Nat.not_le.mpr usable)]
  obtain ⟨m, found⟩ := nodeAt_createPath false (components name) distinct
  dsimp only
  split
  · exact ⟨m, found⟩
  · have made := Loaded.createPath false (components name) distinct
    have change : ∀ m : GpConfNode, Distinct m → { m with val := some val }.name = m.name ∧
        Distinct { m with val := some val } := by
      intro m below
      exact ⟨rfl, .intro below.names fun c mem => below.child mem⟩
    exact ⟨_, (modifyAt_spec made.distinct change found).2.2⟩

/-- One set of a name with more components than slots makes every dump overrun. -/
theorem dump_of_deep {name : CStr} (usable : name.length < nodeNameMax)
    (deep : nameSlots < (components name).length) (val : CStr) :
    gpConfDump (gpConfSet gpConfInit.root name val).1 Dump.start = .error .outOfBounds := by
  have distinct : Distinct gpConfInit.root := .of_empty rfl
  have named : Shallow (components name).length (gpConfSet gpConfInit.root name val).1 :=
    (Shallow.of_empty rfl _).gpConfSet distinct (fun _ => le_refl _) val
  rcases @nodeDump_spec none (gpConfSet gpConfInit.root name val).1 Dump.start 0 ready_start with
    ⟨shallow, _⟩ | ⟨_, fault, failed, overrun⟩
  · obtain ⟨m, found⟩ := nodeAt_gpConfSet distinct usable val
    exact absurd (shallow.nodeAt found).1 (Nat.not_le.mpr deep)
  · rw [overrun _ named] at failed
    exact failed

theorem overrun_of_deep {name : CStr} (usable : name.length < nodeNameMax)
    (deep : nameSlots < (components name).length) {val : CStr}
    (success : (gpConfSet gpConfInit.root name val).2 = 1) :
    ∃ s, confSys.Run [(.set name val, 1)] s ∧
      gpConfDump s.root Dump.start = .error .outOfBounds := by
  have run : confSys.Run [(.set name val, (gpConfSet gpConfInit.root name val).2)]
      { gpConfInit with root := (gpConfSet gpConfInit.root name val).1 } :=
    .step (.init rfl) ⟨0, rfl⟩
  rw [success] at run
  exact ⟨_, run, dump_of_deep usable deep val⟩

/-- 128 dots make a path of 129 names. -/
def dots : CStr := List.replicate 128 0x2e

theorem dump_overruns :
    ∃ s, confSys.Run [(.set dots [], 1)] s ∧
      gpConfDump s.root Dump.start = .error .outOfBounds := by
  refine overrun_of_deep ?_ ?_ ?_
  · rw [dots, List.length_replicate]
    decide
  · decide +kernel
  · decide +kernel

end GpBase.Conf

import GpBase.Lib.Run
import GpBase.Conf.Load

/-!
# Final values are immutable

The store after any history of calls has distinct sibling names; from there on, the
value that `gp_conf_set_final` gave is kept by every call that is not meant to
change it.
-/

namespace GpBase.Conf

open GpBase.Lib GpConfNode

/-! ## Paths -/

section Paths

variable {n m : GpConfNode}

/-- The first step of a path that leads to a node. -/
theorem child_of_nodeAt {key : CStr} {keys : List CStr} (found : n.nodeAt (key :: keys) = some m) :
    ∃ c, n.gpConfNodeLookupChild key = some c ∧ c.nodeAt keys = some m := by
  rw [GpConfNode.nodeAt] at found
  cases child : n.gpConfNodeLookupChild key with
  | none =>
      rw [child] at found
      cases found
  | some c =>
      rw [child] at found
      exact ⟨c, rfl, found⟩

theorem Distinct.nodeAt {path : List CStr} (distinct : Distinct n)
    (found : n.nodeAt path = some m) : Distinct m := by
  induction path generalizing n with
  | nil =>
      cases found
      exact distinct
  | cons key keys ih =>
      obtain ⟨c, child, found⟩ := child_of_nodeAt found
      exact ih (distinct.child ((lookup_iff distinct.names).mp child).1) found

/-- A change that keeps the node at a path keeps the tree. -/
theorem Keeps.modifyAt {f : GpConfNode → GpConfNode} {path : List CStr} (distinct : Distinct n)
    (found : n.nodeAt path = some m) (keeps : Keeps m (f m)) : Keeps n (n.modifyAt f path) := by
  induction path generalizing n with
  | nil =>
      cases found
      exact keeps
  | cons key keys ih =>
      obtain ⟨c, child, found⟩ := child_of_nodeAt found
      have mem := ((lookup_iff distinct.names).mp child).1
      exact (Loaded.modifyFound distinct child (ih (distinct.child mem) found)).toKeeps

/-- Missing nodes on a path are added. -/
theorem Loaded.createPath (final : Bool) (path : List CStr) (distinct : Distinct n) :
    Loaded n (n.createPath final path) := by
  induction path generalizing n with
  | nil => exact .refl distinct
  | cons key keys ih =>
      rw [GpConfNode.createPath]
      cases child : n.gpConfNodeLookupChild key with
      | none =>
          have fresh := ih (n := { gpConfNodeNew with
            name := some key, final := final, hasParent := true }) (.of_empty rfl)
          exact .insertTail distinct child fresh.name fresh.distinct
      | some c =>
          have mem := ((lookup_iff distinct.names).mp child).1
          exact .modifyFound distinct child (ih (distinct.child mem)).toKeeps

theorem nodeAt_createPath (final : Bool) (path : List CStr) (distinct : Distinct n) :
    ∃ m, (n.createPath final path).nodeAt path = some m := by
  induction path generalizing n with
  | nil => exact ⟨n, rfl⟩
  | cons key keys ih =>
      rw [GpConfNode.createPath]
      cases child : n.gpConfNodeLookupChild key with
      | none =>
          have empty : Distinct { gpConfNodeNew with
            name := some key, final := final, hasParent := true } := .of_empty rfl
          -- a missing child is made at the tail, where the lookup finds it
          have fresh := Loaded.createPath final keys empty
          obtain ⟨m, found⟩ := ih empty
          refine ⟨m, ?_⟩
          rw [nodeAt, (lookup_iff (Loaded.insertTail distinct child fresh.name
            fresh.distinct).distinct.names).mpr
              ⟨List.mem_append_right _ List.mem_cons_self, fresh.name⟩]
          exact found
      | some c =>
          have mem := ((lookup_iff distinct.names).mp child).1
          have kept := Loaded.createPath final keys (distinct.child mem)
          obtain ⟨m, found⟩ := ih (distinct.child mem)
          refine ⟨m, ?_⟩
          rw [nodeAt, lookup_modifyChild child kept.name]
          exact found

/-- A write at the end of a path that keeps names. -/
theorem modifyAt_spec {f : GpConfNode → GpConfNode} {path : List CStr} (distinct : Distinct n)
    (change : ∀ m, Distinct m → (f m).name = m.name ∧ Distinct (f m))
    (found : n.nodeAt path = some m) :
    (n.modifyAt f path).name = n.name ∧ Distinct (n.modifyAt f path) ∧
      (n.modifyAt f path).nodeAt path = some (f m) := by
  induction path generalizing n with
  | nil =>
      cases found
      exact ⟨(change _ distinct).1, (change _ distinct).2, rfl⟩
  | cons key keys ih =>
      obtain ⟨c, child, found⟩ := child_of_nodeAt found
      have mem := ((lookup_iff distinct.names).mp child).1
      obtain ⟨named, below, result⟩ := ih (distinct.child mem) found
      refine ⟨rfl, ?_, ?_⟩
      · exact distinct.modifyFound child named below
      · rw [GpConfNode.modifyAt, nodeAt, lookup_modifyChild child named]
        exact result

/-- A node is taken off its list. -/
theorem Distinct.removeAt (distinct : Distinct n) (path : List CStr) :
    (n.removeAt path).name = n.name ∧ Distinct (n.removeAt path) := by
  induction path generalizing n with
  | nil => exact ⟨rfl, distinct⟩
  | cons key keys ih =>
      cases keys with
      | nil =>
          -- the last component: its node leaves the list of its parent
          refine ⟨rfl, .intro ?_ ?_⟩
          · exact distinct.names.sublist (List.eraseP_sublist.map _)
          · intro c mem
            exact distinct.child (List.mem_of_mem_eraseP mem)
      | cons key' keys =>
          refine ⟨rfl, distinct.modifyChild ?_⟩
          intro c mem _
          exact ih (distinct.child mem)

end Paths

/-! ## Calls -/

section Calls

variable {root : GpConfNode}

/-- `gp_conf_set` does not touch a final value. -/
theorem Keeps.gpConfSet (distinct : Distinct root) (name val : CStr) :
    Keeps root (gpConfSet root name val).1 := by
  unfold Conf.gpConfSet gpConfGetNodeOrCreate
  by_cases long : nodeNameMax ≤ name.length
  · rw [if_pos long]
    exact .refl distinct
  · rw [if_neg long]
    -- the nodes on the way are made even when the last one turns out to be final
    have loaded := Loaded.createPath false (components name) distinct
    obtain ⟨m, found⟩ := nodeAt_createPath false (components name) distinct
    dsimp only
    rw [found, Option.any_some]
    split
    · exact loaded.toKeeps
    · rename_i open_
      refine loaded.toKeeps.trans (.modifyAt loaded.distinct found ?_)
      have below := loaded.distinct.nodeAt found
      have changed : Loaded m { m with val := some val } :=
        .of_fields below rfl rfl fun final => absurd final open_
      exact changed.toKeeps

theorem gpConfSetFinal_spec (distinct : Distinct root) (name val : CStr) :
    Distinct (gpConfSetFinal root name val).1 ∧
      ((gpConfSetFinal root name val).2 = 1 →
        name.length < nodeNameMax ∧
          Held (gpConfSetFinal root name val).1 (components name) val) := by
  unfold gpConfSetFinal gpConfGetNodeOrCreate
  by_cases long : nodeNameMax ≤ name.length
  · rw [if_pos long]
    exact ⟨distinct, fun h => absurd h Int.zero_ne_one⟩
  · rw [if_neg long]
    have loaded := Loaded.createPath true (components name) distinct
    obtain ⟨m, found⟩ := nodeAt_createPath true (components name) distinct
    have change : ∀ m : GpConfNode, Distinct m →
        { m with val := some val, final := true }.name = m.name ∧
          Distinct { m with val := some val, final := true } := by
      intro m below
      exact ⟨rfl, .intro below.names fun c mem => below.child mem⟩
    obtain ⟨_, kept, result⟩ := modifyAt_spec loaded.distinct change found
    exact ⟨kept, fun _ => ⟨Nat.lt_of_not_le long, _, result, rfl, rfl⟩⟩

theorem gpConfSetFromString_distinct (distinct : Distinct root) (input : CStr) (final : Bool) :
    Distinct (gpConfSetFromString root input final).1 := by
  unfold gpConfSetFromString
  split
  · exact distinct
  · dsimp only
    split
    · exact (gpConfSetFinal_spec distinct _ _).1
    · exact (Keeps.gpConfSet distinct _ _).distinct

theorem Keeps.gpConfSetFromString (distinct : Distinct root) (input : CStr) :
    Keeps root (gpConfSetFromString root input false).1 := by
  unfold Conf.gpConfSetFromString
  split
  · exact .refl distinct
  · exact .gpConfSet distinct _ _

theorem gpConfRemove_distinct (distinct : Distinct root) {name : CStr} {r : GpConfNode × Int}
    (removed : gpConfRemove root name = .ok r) : Distinct r.1 := by
  unfold gpConfRemove at removed
  split at removed
  · cases removed
    exact distinct
  · split at removed
    · cases removed
      exact (distinct.removeAt _).2
    · cases removed

variable {s : ConfStore}

/-- Parsing into a node that is there keeps the tree. -/
theorem parseAt_spec (distinct : Distinct s.root) (fuel : Nat) (files : Files) (opened : Nat)
    {path : List CStr} {m : GpConfNode} (found : s.root.nodeAt path = some m)
    (events : List YamlEvent) :
    Outcome (s.parseAt fuel files opened path events) (fun r => Keeps s.root r.1.root)
      (Nests files opened fuel) := by
  unfold ConfStore.parseAt
  rw [found]
  have includes := handleInclude_spec files s.confDirname fuel opened
  refine (gpConfYamlParse_spec includes (distinct.nodeAt found) false 0 events).bind ?_
  rintro ⟨node, ret, rest⟩ loaded
  exact .ok (.modifyAt distinct found loaded.toKeeps)

theorem gpConfYamlLoadFile_spec (distinct : Distinct s.root) (fuel : Nat) (files : Files)
    (filename : CStr) :
    Outcome (s.gpConfYamlLoadFile fuel files filename) (fun r => Keeps s.root r.1.root)
      (Nests files 1 fuel) := by
  unfold ConfStore.gpConfYamlLoadFile
  split
  · exact .ok (.refl distinct)
  · split
    · exact .ok (.refl distinct)
    · exact parseAt_spec (s := s.setConfDirname filename) distinct fuel files 1 rfl _

theorem Keeps.placeHolder (distinct : Distinct root) (under : CStr) :
    Keeps root (ConfStore.placeHolder root under) := by
  unfold ConfStore.placeHolder
  split
  · exact .refl distinct
  · exact .gpConfSet distinct _ _

theorem gpConfYamlLoadFileWithPrefix_spec (distinct : Distinct s.root) (fuel : Nat)
    (files : Files) (filename under : CStr) :
    Outcome (s.gpConfYamlLoadFileWithPrefix fuel files filename under)
      (fun r => Keeps s.root r.1.root) (Nests files 1 fuel) := by
  have made := Keeps.placeHolder distinct under
  unfold ConfStore.gpConfYamlLoadFileWithPrefix
  split
  · exact .ok (.refl distinct)
  · split
    · exact .ok (.refl distinct)
    · rename_i events content
      dsimp only
      cases found : gpConfGetNode (ConfStore.placeHolder s.root under) under with
      | none => exact .ok made
      | some m =>
          unfold gpConfGetNode at found
          split at found
          · cases found
          · have parsed := parseAt_spec (s := { s.setConfDirname filename with
              root := ConfStore.placeHolder s.root under }) made.distinct fuel files 1 found events
            exact parsed.imp (fun r kept => made.trans kept) fun h => h

end Calls

/-! ## Histories -/

/-- Only so many files can be open at once. -/
def Files.Limited (files : Files) : Prop :=
  ∃ limit, ∀ opened ≥ limit, ∀ filename, files.fopen opened filename = none

/-- A call on the store; a load sees the files as they are then. -/
inductive ConfCall
  | set (name val : CStr)
  | setFinal (name val : CStr)
  | setFromString (input : CStr) (final : Bool)
  | remove (name : CStr)
  | loadFile (files : Files) (filename : CStr)
  | loadString (files : Files) (events : List YamlEvent)
  | loadFileWithPrefix (files : Files) (filename under : CStr)

namespace ConfCall

/-- The store after the call, and its return value. -/
def exec (fuel : Nat) (s : ConfStore) : ConfCall → Except Fault (ConfStore × Int)
  | .set name val =>
      let (root, ret) := gpConfSet s.root name val
      .ok ({ s with root := root }, ret)
  | .setFinal name val =>
      let (root, ret) := gpConfSetFinal s.root name val
      .ok ({ s with root := root }, ret)
  | .setFromString input final =>
      let (root, ret) := gpConfSetFromString s.root input final
      .ok ({ s with root := root }, ret)
  | .remove name => do
      let (root, ret) ← gpConfRemove s.root name
      return ({ s with root := root }, ret)
  | .loadFile files filename => s.gpConfYamlLoadFile fuel files filename
  | .loadString files events => s.gpConfYamlLoadString fuel files events
  | .loadFileWithPrefix files filename under =>
      s.gpConfYamlLoadFileWithPrefix fuel files filename under

/-- The calls that a final value has to survive. -/
def Ordinary : ConfCall → Prop
  | .set _ _ => True
  | .setFromString _ final => final = false
  | .loadFile _ _ => True
  | .loadString _ _ => True
  | .loadFileWithPrefix _ _ _ => True
  | .setFinal _ _ => False
  | .remove _ => False

/-- What makes a call hang: includes that nest deeper than `fuel`. -/
def Nesting (fuel : Nat) : ConfCall → Prop
  | .loadFile files _ => Nests files 1 fuel
  | .loadString files _ => Nests files 0 fuel
  | .loadFileWithPrefix files _ _ => Nests files 1 fuel
  | _ => False

/-- The system limits how many files are open. -/
def Limited : ConfCall → Prop
  | .loadFile files _ => files.Limited
  | .loadString files _ => files.Limited
  | .loadFileWithPrefix files _ _ => files.Limited
  | _ => True

end ConfCall

/-- Any calls on the tree that `gp_conf_init` makes. -/
def confSys : TSys ConfStore (ConfCall × Int) where
  init s := s = gpConfInit
  step s a t := ∃ fuel, a.1.exec fuel s = .ok (t, a.2)

section Histories

variable {s t : ConfStore}

/-- The step lemma: ordinary calls keep the tree. -/
theorem exec_ordinary (distinct : Distinct s.root) (fuel : Nat) {c : ConfCall}
    (ordinary : c.Ordinary) :
    Outcome (c.exec fuel s) (fun r => Keeps s.root r.1.root) (c.Nesting fuel) := by
  cases c with
  | set name val => exact .ok (.gpConfSet distinct name val)
  | setFinal name val => exact ordinary.elim
  | setFromString input final =>
      obtain rfl : final = false := ordinary
      exact .ok (.gpConfSetFromString distinct input)
  | remove name => exact ordinary.elim
  | loadFile files filename => exact gpConfYamlLoadFile_spec distinct fuel files filename
  | loadString files events =>
      have found : s.root.nodeAt [] = some s.root := rfl
      exact parseAt_spec distinct fuel files 0 found events
  | loadFileWithPrefix files filename under =>
      exact gpConfYamlLoadFileWithPrefix_spec distinct fuel files filename under

/-- Every call leaves the names of siblings distinct. -/
theorem exec_distinct (distinct : Distinct s.root) {fuel : Nat} {c : ConfCall} {ret : Int}
    (returned : c.exec fuel s = .ok (t, ret)) : Distinct t.root := by
  have ordinary : c.Ordinary → Distinct t.root := fun h =>
    ((exec_ordinary distinct fuel h).good_of_ok returned).distinct
  cases c with
  | setFinal name val =>
      cases returned
      exact (gpConfSetFinal_spec distinct name val).1
  | setFromString input final =>
      cases returned
      exact gpConfSetFromString_distinct distinct input final
  | remove name =>
      simp only [ConfCall.exec, bind, Except.bind] at returned
      split at returned
      · cases returned
      · rename_i r removed
        cases returned
        exact gpConfRemove_distinct distinct removed
  | set name val => exact ordinary trivial
  | loadFile files filename => exact ordinary trivial
  | loadString files events => exact ordinary trivial
  | loadFileWithPrefix files filename under => exact ordinary trivial

theorem run_distinct {calls : List (ConfCall × Int)} (run : confSys.Run calls s) :
    Distinct s.root := by
  refine run.invariant (I := fun _ s => Distinct s.root) ?_ ?_
  · rintro s rfl
    exact .of_empty rfl
  · rintro calls s a t _ distinct ⟨fuel, returned⟩
    exact exec_distinct distinct returned

/-- A held value is kept by every run of ordinary calls. -/
theorem run_held {before later : List (ConfCall × Int)} {path : List CStr} {v : CStr}
    (run : confSys.Run (before ++ later) s) (ordinary : ∀ a ∈ later, a.1.Ordinary)
    (held : ∀ t, confSys.Run before t → Held t.root path v) : Held s.root path v := by
  induction later using List.reverseRecOn generalizing s with
  | nil =>
      rw [List.append_nil] at run
      exact held s run
  | append_singleton later a ih =>
      rw [← List.append_assoc] at run
      -- the last call sees a tree in which the value is still held
      obtain ⟨s', run', fuel, returned⟩ := run.snoc_inv
      have still := ih run' fun a mem => ordinary a (List.mem_append_left _ mem)
      have kept := (exec_ordinary (run_distinct run') fuel (ordinary a (by simp))).good_of_ok
        returned
      exact kept.held path v still

theorem Files.Limited.not_nests {files : Files} (limited : files.Limited) (opened : Nat) :
    ∃ fuel, ¬ Nests files opened fuel := by
  obtain ⟨limit, closed⟩ := limited
  refine ⟨limit + 1, ?_⟩
  intro nests
  obtain ⟨filename, isOpen⟩ := nests limit (Nat.lt_succ_self limit)
  exact isOpen (closed (opened + limit) (Nat.le_add_left ..) filename)

/-- An ordinary call returns. -/
theorem exec_returns (distinct : Distinct s.root) {c : ConfCall} (ordinary : c.Ordinary)
    (limited : c.Limited) : ∃ ret t, confSys.step s (c, ret) t := by
  -- a load recurses once for each file that is open, and those are limited
  have enough : ∃ fuel, ¬ c.Nesting fuel := by
    cases c with
    | loadFile files filename => exact limited.not_nests 1
    | loadString files events => exact limited.not_nests 0
    | loadFileWithPrefix files filename under => exact limited.not_nests 1
    | _ => exact ⟨0, id⟩
  obtain ⟨fuel, shallow⟩ := enough
  obtain ⟨⟨t, ret⟩, returned⟩ := (exec_ordinary distinct fuel ordinary).returns shallow
  exact ⟨ret, t, fuel, returned⟩

/-- **Final values are immutable.** Once `gp_conf_set_final` has succeeded, after any
history of other calls, every later sequence of ordinary calls leaves the value
where `gp_conf_get` finds it; and each such call returns. -/
theorem final_immutable {before later : List (ConfCall × Int)} {name val : CStr}
    (run : confSys.Run (before ++ (.setFinal name val, 1) :: later) s)
    (ordinary : ∀ a ∈ later, a.1.Ordinary) :
    gpConfGet s.root name = some (some val) ∧
      ∀ c : ConfCall, c.Ordinary → c.Limited → ∃ ret t, confSys.step s (c, ret) t := by
  have set : ∀ t, confSys.Run (before ++ [(.setFinal name val, 1)]) t →
      name.length < nodeNameMax ∧ Held t.root (components name) val := by
    intro t finished
    obtain ⟨s', run', fuel, returned⟩ := finished.snoc_inv
    have result := (gpConfSetFinal_spec (run_distinct run') name val).2
    simp only [ConfCall.exec, Except.ok.injEq, Prod.mk.injEq] at returned
    obtain ⟨rfl, success⟩ := returned
    exact result success
  rw [List.append_cons] at run
  refine ⟨?_, ?_⟩
  · obtain ⟨t, finished⟩ := run.of_append
    have short := (set t finished).1
    obtain ⟨m, found, _, value⟩ := run_held run ordinary fun t finished => (set t finished).2
    rw [gpConfGet, gpConfGetNode, if_neg (Nat.not_le.mpr short), found, Option.map_some, value]
  · intro c plain limited
    exact exec_returns (run_distinct run) plain limited

/-- The events of a document that sets `a.b` to `y`. -/
def overriding : List YamlEvent :=
  [.streamStart, .documentStart (some (1, 1)), .mappingStart, .scalar (ascii "a") none,
    .mappingStart, .scalar (ascii "b") none, .scalar (ascii "y") none, .mappingEnd, .mappingEnd,
    .documentEnd, .streamEnd]

/-- A final `a.b` below an `a` that is pruned survives a load and a set. -/
theorem final_immutable_pruned :
    ∃ s, confSys.Run
        [(.set (ascii "a") (ascii "1"), 1), (.setFinal (ascii "a.b") (ascii "x"), 1),
          (.loadString noFiles overriding, 0), (.set (ascii "a.b") (ascii "z"), 0)] s ∧
      gpConfGet s.root (ascii "a.b") = some (some (ascii "x")) := by
  let a : GpConfNode := ⟨some (ascii "a"), some (ascii "1"), false, false, true, []⟩
  let b : GpConfNode := ⟨some (ascii "b"), some (ascii "x"), false, true, true, []⟩
  let s₁ : ConfStore := ⟨gpConfNodeNew.insertTail a, none⟩
  let s₂ : ConfStore := ⟨gpConfNodeNew.insertTail (a.insertTail b), none⟩
  let s₃ : ConfStore := ⟨gpConfNodeNew.insertTail { a.insertTail b with val := none }, none⟩
  have run₀ : confSys.Run [] gpConfInit := .init rfl
  have run₁ : confSys.Run [(.set (ascii "a") (ascii "1"), 1)] s₁ := .step run₀ ⟨1, by rfl⟩
  have run₂ : confSys.Run [(.set (ascii "a") (ascii "1"), 1),
      (.setFinal (ascii "a.b") (ascii "x"), 1)] s₂ := .step run₁ ⟨1, by rfl⟩
  have run₃ : confSys.Run [(.set (ascii "a") (ascii "1"), 1),
      (.setFinal (ascii "a.b") (ascii "x"), 1), (.loadString noFiles overriding, 0)] s₃ :=
    .step run₂ ⟨1, by rfl⟩
  have run₄ : confSys.Run ([(.set (ascii "a") (ascii "1"), 1)] ++
      (.setFinal (ascii "a.b") (ascii "x"), 1) :: [(.loadString noFiles overriding, 0),
        (.set (ascii "a.b") (ascii "z"), 0)]) s₃ := .step run₃ ⟨1, by rfl⟩
  have kept := final_immutable run₄ <| by
    intro c mem
    simp only [List.mem_cons, List.not_mem_nil, or_false] at mem
    rcases mem with rfl | rfl <;> exact trivial
  exact ⟨s₃, run₄, kept.1⟩

end Histories

end GpBase.Conf

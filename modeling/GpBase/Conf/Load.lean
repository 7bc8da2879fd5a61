import GpBase.Lib.Outcome
import GpBase.Conf.Values

/-!
# The loader keeps final values

Whatever the events are, a call of `gp_conf_yaml_parse` keeps the subtree it works
on, also when it fails midway: one lemma for each branch, and an induction over the
events. Its pointer `node` never dangles, and it hangs only when includes nest
without end.
-/

namespace GpBase.Conf

open GpBase.Lib GpConfNode

/-- A fresh node has nothing below it. -/
theorem Distinct.of_empty {n : GpConfNode} (empty : n.children = []) : Distinct n := by
  refine .intro ?_ ?_
  · rw [empty]
    exact List.nodup_nil
  · rw [empty]
    intro c mem
    cases mem

/-! ## Frames -/

/-- The frame of a call that started on `n`: the pointer `node` is good. -/
structure Frame.Good (n : GpConfNode) (f : Frame) : Prop where
  loaded : Loaded n f.parent
  points : ∀ key, f.node = some key → ∃ c ∈ f.parent.children, c.name = some key

section Frames

variable {n : GpConfNode} {f : Frame}

theorem Frame.Good.start (distinct : Distinct n) : Frame.Good n (Frame.start n) :=
  ⟨.refl distinct, fun _ h => nomatch h⟩

/-- The parent changes as a whole. -/
theorem Frame.Good.replace (good : Frame.Good n f) {g : Frame} (loaded : Loaded f.parent g.parent)
    (same : g.node = f.node) : Frame.Good n g := by
  refine ⟨good.loaded.trans loaded, ?_⟩
  intro key points
  obtain ⟨c, mem, named⟩ := good.points key (same ▸ points)
  obtain ⟨c', mem', named'⟩ := loaded.names c mem
  exact ⟨c', mem', named'.trans named⟩

theorem Frame.Good.of_eq (good : Frame.Good n f) {g : Frame} (parent : g.parent = f.parent)
    (same : g.node = f.node) : Frame.Good n g :=
  good.replace (by rw [parent]; exact .refl good.loaded.distinct) same

/-- `node` can be read, and written with what it has become. -/
theorem Frame.Good.deref (good : Frame.Good n f) :
    ∃ node, f.deref = .ok node ∧ Distinct node ∧
      ∀ node', Loaded node node' → Frame.Good n (f.assign node') := by
  have distinct := good.loaded.distinct
  unfold Frame.deref
  cases points : f.node with
  | none =>
      refine ⟨f.parent, rfl, distinct, ?_⟩
      intro node' loaded
      refine good.replace ?_ ?_
      · rw [Frame.assign, points]
        exact loaded
      · rw [Frame.assign, points]
  | some key =>
      obtain ⟨c, mem, named⟩ := good.points key points
      have found : f.parent.gpConfNodeLookupChild key = some c :=
        (lookup_iff distinct.names).mpr ⟨mem, named⟩
      refine ⟨c, by simp only [found], distinct.child mem, ?_⟩
      intro node' loaded
      refine good.replace ?_ ?_
      · rw [Frame.assign, points]
        exact .modifyFound distinct found loaded.toKeeps
      · rw [Frame.assign, points]

theorem Frame.Good.seqScalar (good : Frame.Good n f) (value : CStr) :
    Frame.Good n (f.seqScalar value) := by
  refine good.replace ?_ rfl
  have distinct := good.loaded.distinct
  unfold Frame.seqScalar
  cases found : f.parent.gpConfNodeLookupChild f.seqName with
  | none => exact .insertTail distinct found rfl (.of_empty rfl)
  | some seqNode =>
      have mem := ((lookup_iff distinct.names).mp found).1
      exact .relink distinct found (.refl (distinct.child mem))

/-- The first key of a mapping in a sequence becomes its value, if it has none. -/
theorem Loaded.seqVal (distinct : Distinct n) (value : CStr) :
    Loaded n { n with val := n.valWith value } := by
  refine .of_fields distinct rfl rfl ?_
  intro final v val
  refine ⟨final, ?_⟩
  show n.valWith value = some v
  simp [valWith, val]

theorem Frame.Good.keyScalar (good : Frame.Good n f) (value : CStr) :
    Frame.Good n (f.keyScalar value) := by
  have first := Loaded.seqVal good.loaded.distinct value
  have added : Loaded f.parent (f.parent.addKey value) := by
    rw [addKey_eq]
    cases found : f.parent.gpConfNodeLookupChild value with
    | none => exact first.trans (.insertTail first.distinct found rfl (.of_empty rfl))
    | some existing =>
        dsimp only
        split
        · exact first
        · rename_i open_
          obtain ⟨mem, _⟩ := (lookup_iff good.loaded.distinct.names).mp found
          have pruned := Keeps.prune (good.loaded.distinct.child mem) (Bool.eq_false_iff.mpr open_)
          exact first.trans (.modifyFound first.distinct found pruned)
  rw [Frame.keyScalar_eq]
  refine ⟨good.loaded.trans added, ?_⟩
  intro key points
  cases points
  exact ⟨_, (lookup_iff added.distinct.names).mp (lookup_addKey f.parent value)⟩

theorem Frame.Good.valScalar (good : Frame.Good n f) (value : CStr) :
    ∃ g, f.valScalar value = .ok g ∧ Frame.Good n g := by
  obtain ⟨node, read, distinct, write⟩ := good.deref
  simp only [Frame.valScalar, read, bind, Except.bind]
  refine ⟨_, rfl, ?_⟩
  split
  · exact good.of_eq rfl rfl
  · rename_i open_
    have written := write { node with val := some value } <| .of_fields distinct rfl rfl <| by
      intro final
      exact absurd final open_
    exact written.of_eq rfl rfl

/-- A mapping in a sequence: what becomes of its node becomes of the tree. -/
theorem seqMapping_spec (f : Frame) {node : GpConfNode} (distinct : Distinct node) :
    Distinct (f.seqMapping node).2 ∧
      ∀ seqNode', Keeps (f.seqMapping node).2 seqNode' →
        Loaded node ((f.seqMapping node).1.modifyChild f.seqName fun _ => seqNode') := by
  have put : ∀ (m seqNode : GpConfNode), Loaded node (m.insertTail seqNode) →
      seqNode.name = some f.seqName → ∀ seqNode', Keeps seqNode seqNode' →
      Loaded node ((m.insertTail seqNode).modifyChild f.seqName fun _ => seqNode') := by
    intro m seqNode linked named seqNode' keeps
    have found : (m.insertTail seqNode).gpConfNodeLookupChild f.seqName = some seqNode :=
      (lookup_iff linked.distinct.names).mpr
        ⟨List.mem_append_right _ List.mem_cons_self, named⟩
    exact linked.trans (.modifyFound linked.distinct found keeps)
  unfold Frame.seqMapping
  cases found : node.gpConfNodeLookupChild f.seqName with
  | none =>
      have fresh : Distinct { gpConfNodeNew with name := some f.seqName, isSeq := true } :=
        .of_empty rfl
      exact ⟨fresh, put _ _ (.insertTail distinct found rfl fresh) rfl⟩
  | some seqNode =>
      obtain ⟨mem, named⟩ := (lookup_iff distinct.names).mp found
      have marked : Loaded seqNode { seqNode with isSeq := true } :=
        .of_fields (distinct.child mem) rfl rfl fun final v val => ⟨final, val⟩
      exact ⟨marked.distinct, put _ _ (.relink distinct found marked.toKeeps) named⟩

end Frames

/-! ## Events -/

section Events

variable {n : GpConfNode} {f : Frame} {why : Prop} {handleInclude : Include}

/-- What an include does to the node it is placed at. -/
def Includes (handleInclude : Include) (why : Prop) : Prop :=
  ∀ n filename, Distinct n → Outcome (handleInclude n filename) (fun r => Loaded n r.1) why

theorem Frame.Good.scalarEvent (good : Frame.Good n f) (includes : Includes handleInclude why)
    (inseq : Bool) (value : CStr) (tag : Option CStr) :
    Outcome (scalarEvent handleInclude inseq f value tag) (fun r => Frame.Good n r.1) why := by
  unfold Conf.scalarEvent
  split
  · exact .ok good
  · split
    · exact .ok (good.seqScalar value)
    · cases f.state with
      | confInclude =>
          refine (includes f.parent value good.loaded.distinct).bind ?_
          rintro ⟨parent, ret⟩ loaded
          have next : Frame.Good n { f with parent := parent } := good.replace loaded rfl
          dsimp only
          split
          · exact .ok (next.of_eq rfl rfl)
          · exact .ok (next.of_eq rfl rfl)
      | confKey =>
          dsimp only
          split
          · exact .ok (good.of_eq rfl rfl)
          · exact .ok (good.keyScalar value)
      | confVal =>
          dsimp only
          split
          · obtain ⟨node, read, distinct, write⟩ := good.deref
            rw [read]
            refine (includes node value distinct).bind ?_
            rintro ⟨node', ret⟩ loaded
            have next := write node' loaded
            dsimp only
            split
            · exact .ok next
            · exact .ok (next.of_eq rfl rfl)
          · obtain ⟨g, done, next⟩ := good.valScalar value
            rw [done]
            exact .ok next

/-- The run lemma: by induction on the rounds, whatever the events are. -/
theorem parseLoop_spec (includes : Includes handleInclude why) (fuel : Nat) (inseq : Bool)
    (rlevel : Nat) (events : List YamlEvent) (good : Frame.Good n f) :
    Outcome (parseLoop handleInclude fuel inseq rlevel f events)
      (fun r => Loaded n r.1 ∧ r.2.2.length ≤ events.length) (fuel ≤ events.length ∨ why) := by
  induction fuel generalizing n f inseq rlevel events with
  | zero => exact .hang (.inl (Nat.zero_le _))
  | succ fuel ih =>
      cases events with
      | nil => exact .ok ⟨good.loaded, le_refl _⟩
      | cons event events =>
          have shorter : events.length ≤ (event :: events).length := Nat.le_succ _
          -- the rest of the loop, once a round has left `rest` to do
          have next : ∀ {g : Frame} {rest : List YamlEvent}, Frame.Good n g →
              rest.length ≤ events.length →
              Outcome (parseLoop handleInclude fuel inseq rlevel g rest)
                (fun r => Loaded n r.1 ∧ r.2.2.length ≤ (event :: events).length)
                (fuel + 1 ≤ (event :: events).length ∨ why) := by
            intro g rest good' left
            refine (ih inseq rlevel rest good').imp ?_ ?_
            · rintro r ⟨loaded, least⟩
              exact ⟨loaded, (least.trans left).trans shorter⟩
            · rintro (few | h)
              · exact .inl (Nat.succ_le_succ (few.trans left))
              · exact .inr h
          -- a nested call on a node below
          have nested : ∀ {m : GpConfNode} (inseq' : Bool), Distinct m →
              Outcome (enter rlevel m events fun g =>
                  parseLoop handleInclude fuel inseq' (rlevel + 1) g events)
                (fun r => Loaded m r.1 ∧ r.2.2.length ≤ events.length)
                (fuel + 1 ≤ (event :: events).length ∨ why) := by
            intro m inseq' distinct
            unfold enter
            split
            · exact .ok ⟨.refl distinct, le_refl _⟩
            · refine (ih inseq' (rlevel + 1) events (.start distinct)).imp (fun _ h => h) ?_
              exact Or.imp_left Nat.succ_le_succ
          have stop : ∀ {g : Frame} {ret : Int} {rest : List YamlEvent}, Frame.Good n g →
              rest.length ≤ events.length →
              Outcome (.ok (g.parent, ret, rest))
                (fun r : Parsed => Loaded n r.1 ∧ r.2.2.length ≤ (event :: events).length)
                (fuel + 1 ≤ (event :: events).length ∨ why) := by
            intro g ret rest good' left
            exact .ok ⟨good'.loaded, left.trans shorter⟩
          cases event with
          | documentStart version =>
              rw [parseLoop]
              split
              · exact next good (le_refl _)
              · exact stop good (le_refl _)
          | scalar value tag =>
              rw [parseLoop]
              refine ((good.scalarEvent includes inseq value tag).imp (fun _ h => h) .inr).bind ?_
              rintro ⟨g, goesOn⟩ good'
              dsimp only
              split
              · exact next good' (le_refl _)
              · exact stop good' (le_refl _)
          | sequenceStart =>
              obtain ⟨node, read, distinct, write⟩ := good.deref
              rw [parseLoop, read]
              refine (nested true distinct).bind ?_
              rintro ⟨node', ret, rest⟩ ⟨loaded, left⟩
              dsimp only
              split
              · exact stop (write node' loaded) left
              · have marked : Loaded node { node' with isSeq := true } :=
                  loaded.trans (.of_fields loaded.distinct rfl rfl fun final v val => ⟨final, val⟩)
                exact next ((write _ marked).of_eq rfl rfl) left
          | mappingStart =>
              obtain ⟨node, read, distinct, write⟩ := good.deref
              rw [parseLoop, read]
              cases inseq with
              | true =>
                  obtain ⟨below, put⟩ := seqMapping_spec f distinct
                  refine (nested false below).bind ?_
                  rintro ⟨seqNode, ret, rest⟩ ⟨loaded, left⟩
                  have written := (write _ (put seqNode loaded.toKeeps)).of_eq
                    (g := (f.assign _).nextSeq) rfl rfl
                  dsimp only
                  split
                  · exact stop written left
                  · exact next (written.of_eq rfl rfl) left
              | false =>
                  refine (nested false distinct).bind ?_
                  rintro ⟨node', ret, rest⟩ ⟨loaded, left⟩
                  have written := write node' loaded
                  dsimp only
                  split
                  · exact stop written left
                  · exact next (written.of_eq rfl rfl) left
          | sequenceEnd => exact stop good (le_refl _)
          | mappingEnd => exact stop good (le_refl _)
          | streamEnd => exact stop good (le_refl _)
          | noEvent => exact next good (le_refl _)
          | streamStart => exact next good (le_refl _)
          | documentEnd => exact next good (le_refl _)
          | aliasEvent => exact next good (le_refl _)

theorem gpConfYamlParse_spec (includes : Includes handleInclude why) (distinct : Distinct n)
    (inseq : Bool) (rlevel : Nat) (events : List YamlEvent) :
    Outcome (gpConfYamlParse handleInclude n inseq rlevel events) (fun r => Loaded n r.1) why := by
  unfold gpConfYamlParse enter
  split
  · exact .ok (.refl distinct)
  · refine (parseLoop_spec includes _ inseq _ events (.start distinct)).imp ?_ ?_
    · rintro r ⟨loaded, _⟩
      exact loaded
    · rintro (few | h)
      · exact absurd few (Nat.not_succ_le_self _)
      · exact h

end Events

/-! ## Includes -/

/-- Files can be opened inside each other, `fuel` more on top of `opened`. -/
def Nests (files : Files) (opened fuel : Nat) : Prop :=
  ∀ k, k < fuel → ∃ filename, files.fopen (opened + k) filename ≠ none

/-- By induction on how deep includes may nest. -/
theorem handleInclude_spec (files : Files) (confDirname : Option CStr) (fuel opened : Nat) :
    Includes (gpConfYamlHandleInclude files confDirname fuel opened) (Nests files opened fuel) := by
  induction fuel generalizing opened with
  | zero =>
      intro n filename _
      exact .hang fun k h => absurd h (Nat.not_lt_zero k)
  | succ fuel ih =>
      intro n filename distinct
      unfold gpConfYamlHandleInclude
      cases content : files.fopen opened (includeFilename confDirname filename) with
      | none => exact .ok (.refl distinct)
      | some events =>
          have deeper : Nests files (opened + 1) fuel → Nests files opened (fuel + 1) := by
            intro nests k below
            cases k with
            | zero => exact ⟨_, by rw [Nat.add_zero, content]; exact Option.some_ne_none _⟩
            | succ k =>
                obtain ⟨inner, isOpen⟩ := nests k (Nat.lt_of_succ_lt_succ below)
                exact ⟨inner, by rwa [show opened + (k + 1) = opened + 1 + k by omega]⟩
          have parsed := gpConfYamlParse_spec (ih (opened + 1)) distinct false 0 events
          refine (parsed.imp (fun _ h => h) deeper).bind ?_
          rintro ⟨parent, ret, rest⟩ loaded
          exact .ok loaded

end GpBase.Conf

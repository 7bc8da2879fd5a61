import GpBase.Conf.Room

/-!
# How deep the loader recurses

One call of `gp_conf_yaml_parse` on a stack ends as the walk of its outline says, and
it makes a shallow tree deeper by no more than the stack has room for. So a load
terminates, with its calls nested as deep as `RECURSION_LIMIT` is meant to allow,
just when no chain of includes adds up to more.
-/

namespace GpBase.Conf

open GpBase.Lib GpConfNode

/-! ## Frames on a stack -/

/-- A node has been loaded into, which has added up to `room` levels. -/
structure Grows (room : Nat) (n n' : GpConfNode) : Prop extends Loaded n n' where
  shallow : ∀ h ≥ room, Shallow h n → Shallow h n'

theorem Grows.refl {n : GpConfNode} (distinct : Distinct n) (room : Nat) : Grows room n n :=
  ⟨.refl distinct, fun _ _ h => h⟩

theorem Grows.markSeq {room : Nat} {n n' : GpConfNode} (grows : Grows room n n') :
    Grows room n { n' with isSeq := true } := by
  have marked : Loaded n' { n' with isSeq := true } :=
    .of_fields grows.distinct rfl rfl fun final v val => ⟨final, val⟩
  refine ⟨grows.toLoaded.trans marked, ?_⟩
  intro h above shallow
  exact (grows.shallow h above shallow).of_children rfl

/-- The frame of a call on `n` that has room for itself and `room` more. -/
structure Frame.Fit (room : Nat) (inseq : Bool) (n : GpConfNode) (f : Frame) : Prop where
  good : Frame.Good n f
  shallow : ∀ h ≥ room + 1, Shallow h n → Shallow h f.parent
  /-- in a sequence, `node` stays at the parent -/
  seq : inseq = true → f.node = none

section Frames

variable {room : Nat} {inseq : Bool} {n : GpConfNode} {f g : Frame}

theorem Frame.Fit.start (distinct : Distinct n) : Frame.Fit room inseq n (Frame.start n) :=
  ⟨.start distinct, fun _ _ h => h, fun _ => rfl⟩

theorem Frame.Fit.grows (fit : Frame.Fit room inseq n f) : Grows (room + 1) n f.parent :=
  ⟨fit.good.loaded, fit.shallow⟩

theorem Frame.Fit.of_eq (fit : Frame.Fit room inseq n f) (parent : g.parent = f.parent)
    (same : g.node = f.node) : Frame.Fit room inseq n g :=
  ⟨fit.good.of_eq parent same, parent ▸ fit.shallow, same ▸ fit.seq⟩

/-- A step that is good, and shallow on parents that have a level to spare. -/
theorem Frame.Fit.step (fit : Frame.Fit room inseq n f) (good : Frame.Good n g)
    (shallow : ∀ h ≥ room, Shallow (h + 1) f.parent → Shallow (h + 1) g.parent)
    (seq : inseq = true → g.node = none) : Frame.Fit room inseq n g := by
  refine ⟨good, ?_, seq⟩
  intro h above below
  obtain ⟨h, rfl⟩ : ∃ k, h = k + 1 := ⟨h - 1, by omega⟩
  exact shallow h (Nat.le_of_succ_le_succ above) (fit.shallow _ above below)

@[simp] theorem assign_node (f : Frame) (node : GpConfNode) : (f.assign node).node = f.node := by
  unfold Frame.assign
  cases f.node <;> rfl

theorem valScalar_state {value : CStr} (done : f.valScalar value = .ok g) :
    g.state = .confKey := by
  obtain ⟨node, _, done⟩ := bind_eq_ok done
  cases done
  rfl

/-- `node` can be read, and written with what a call or an include has made of it. -/
theorem Frame.Fit.deref (fit : Frame.Fit room inseq n f) :
    ∃ node, f.deref = .ok node ∧ Distinct node ∧
      (∀ node', Grows room node node' → Frame.Fit room inseq n (f.assign node')) ∧
      (inseq = true → ∀ node', Grows (room + 1) node node' →
        Frame.Fit room inseq n (f.assign node')) := by
  obtain ⟨node, read, distinct, write⟩ := fit.good.deref
  refine ⟨node, read, distinct, ?_, ?_⟩
  · intro node' grows
    refine fit.step (write node' grows.toLoaded) ?_ (by simpa using fit.seq)
    intro h above shallow
    obtain ⟨k, deep, _, below, put⟩ := shallow.deref read
    exact put node' grows.name (grows.shallow k (by omega) below)
  · intro isSeq node' grows
    refine fit.step (write node' grows.toLoaded) ?_ (by simpa using fit.seq)
    intro h above shallow
    obtain ⟨k, _, start, below, put⟩ := shallow.deref read
    have top := start (fit.seq isSeq)
    exact put node' grows.name (grows.shallow k (by omega) below)

/-- A mapping in a sequence: what becomes of its node becomes of the parent. -/
theorem Grows.seqMapping (room : Nat) {node : GpConfNode} (f : Frame) (distinct : Distinct node) :
    Distinct (f.seqMapping node).2 ∧
      ∀ seqNode, Grows room (f.seqMapping node).2 seqNode →
        Grows (room + 1) node ((f.seqMapping node).1.modifyChild f.seqName fun _ => seqNode) := by
  obtain ⟨below, put⟩ := seqMapping_spec f distinct
  refine ⟨below, ?_⟩
  intro seqNode grows
  refine ⟨put seqNode grows.toKeeps, ?_⟩
  intro h above shallow
  obtain ⟨h, rfl⟩ : ∃ k, h = k + 1 := ⟨h - 1, by omega⟩
  obtain ⟨shallow', put'⟩ := Shallow.seqMapping (f := f) shallow
  exact put' seqNode grows.name (grows.shallow h (Nat.le_of_succ_le_succ above) shallow')

end Frames

/-! ## Scalars -/

section Calls

variable {handleInclude : Include} {said : CStr → Option Bool} {room : Nat} {inseq : Bool}
  {n : GpConfNode} {f : Frame}

/-- An include returns what `said` says of the file, and hangs where it says nothing. -/
def WalksAs (handleInclude : Include) (said : CStr → Option Bool) (room : Nat) : Prop :=
  ∀ n filename, Distinct n → Outcome (handleInclude n filename)
    (fun r => Grows room n r.1 ∧ said filename = some (decide (r.2 = 0))) (said filename = none)

theorem Frame.Fit.scalarEvent (fit : Frame.Fit room inseq n f)
    (includes : WalksAs handleInclude said room) (value : CStr) (tag : Option CStr) :
    Outcome (scalarEvent handleInclude inseq f value tag)
      (fun r => Frame.Fit room inseq n r.1 ∧
        (scalarStep inseq f.state value tag).2.elim (some true) said = some r.2 ∧
        (r.2 = true → r.1.state = (scalarStep inseq f.state value tag).1))
      ((scalarStep inseq f.state value tag).2.elim (some true) said = none) := by
  unfold Conf.scalarEvent scalarStep
  split
  · exact .ok ⟨fit, rfl, fun _ => rfl⟩
  · split
    · refine .ok ⟨?_, rfl, fun _ => rfl⟩
      exact fit.step (fit.good.seqScalar value) (fun h _ shallow => shallow.seqScalar value) fit.seq
    · rename_i isMap
      cases state : f.state with
      | confInclude =>
          refine (includes f.parent value fit.good.loaded.distinct).bind ?_
          rintro ⟨parent, ret⟩ ⟨grows, said⟩
          have next : Frame.Fit room inseq n { f with parent := parent } := by
            refine fit.step (fit.good.replace grows.toLoaded rfl) ?_ fit.seq
            intro h above shallow
            exact grows.shallow (h + 1) (by omega) shallow
          dsimp only at said ⊢
          split
          · rename_i failed
            rw [decide_eq_false failed] at said
            exact .ok ⟨next.of_eq rfl rfl, said, fun h => by cases h⟩
          · rename_i succeeded
            rw [decide_eq_true (Decidable.not_not.mp succeeded)] at said
            exact .ok ⟨next.of_eq rfl rfl, said, fun _ => rfl⟩
      | confKey =>
          dsimp only
          split
          · exact .ok ⟨fit.of_eq rfl rfl, rfl, fun _ => rfl⟩
          · refine .ok ⟨?_, rfl, fun _ => rfl⟩
            refine fit.step (fit.good.keyScalar value) ?_ fun isSeq => absurd isSeq isMap
            exact fun h _ shallow => shallow.keyScalar value
      | confVal =>
          dsimp only
          split
          · obtain ⟨node, read, distinct, write, _⟩ := fit.deref
            rw [read]
            refine (includes node value distinct).bind ?_
            rintro ⟨node', ret⟩ ⟨grows, said⟩
            have next := write node' grows
            dsimp only at said ⊢
            split
            · rename_i failed
              rw [decide_eq_false failed] at said
              exact .ok ⟨next, said, fun h => by cases h⟩
            · rename_i succeeded
              rw [decide_eq_true (Decidable.not_not.mp succeeded)] at said
              exact .ok ⟨next.of_eq rfl rfl, said, fun _ => rfl⟩
          · obtain ⟨g, done, good⟩ := fit.good.valScalar value
            rw [done]
            refine .ok ⟨?_, rfl, ?_⟩
            · refine fit.step good (fun h _ shallow => shallow.valScalar done) ?_
              exact fun isSeq => absurd isSeq isMap
            · intro _
              exact valScalar_state done

end Calls

/-! ## Calls -/

section Loops

variable {handleInclude : Nat → Include} {inc : Nat → CStr → Option Bool} {room : Nat}

/-- How a call on `n` ends whose outline is `o`, with `count` events at its start. -/
structure Ends (inc : Nat → CStr → Option Bool) (room : Nat) (callers : List Bool)
    (o : Outline) (n : GpConfNode) (count : Nat) (r : Parsed) : Prop where
  grows : Grows (room - callers.length) n r.1
  left : r.2.2.length ≤ count
  ret : r.2.1 = 0 ∨ r.2.1 = -1
  walked : o.walk inc room = if r.2.1 = 0 then (resume callers r.2.2).walk inc room else some false

/-- The walk of a call that starts. -/
theorem walk_enter (inc : Nat → CStr → Option Bool) (room rlevel : Nat) (next : Outline) :
    (outlineEnter rlevel next).walk inc room =
      if room ≤ rlevel then none
      else if recursionLimit < rlevel then some false
      else next.walk inc room := by
  unfold outlineEnter
  by_cases beyond : recursionLimit < rlevel
  · rw [if_pos beyond, if_pos beyond]
    rfl
  · rw [if_neg beyond, if_neg beyond]
    rfl

theorem walk_scalar (inc : Nat → CStr → Option Bool) (room : Nat) (callers : List Bool)
    (inseq : Bool) (state : ConfState) (value : CStr) (tag : Option CStr)
    (events : List YamlEvent) :
    (outlineLoop callers inseq state (.scalar value tag :: events)).walk inc room =
      match (scalarStep inseq state value tag).2.elim (some true) (inc (callers.length + 1)) with
      | some true => (outlineLoop callers inseq (scalarStep inseq state value tag).1 events).walk
          inc room
      | failed => failed := by
  rw [outlineLoop]
  rcases scalarStep inseq state value tag with ⟨state', _ | filename⟩ <;> rfl

/-- A call that has room runs its loop, below the limit. -/
theorem enterIn_spec (inc : Nat → CStr → Option Bool) (callers : List Bool) (o : Outline)
    {m : GpConfNode} {events : List YamlEvent} {loop : Frame → Except Fault Parsed}
    (distinct : Distinct m)
    (body : callers.length < room → Outcome (loop (Frame.start m))
      (Ends inc room callers o m events.length) (o.walk inc room = none)) :
    Outcome (enterIn (some room) callers.length m events loop)
      (Ends inc room callers (outlineEnter callers.length o) m events.length)
      ((outlineEnter callers.length o).walk inc room = none) := by
  have walked := walk_enter inc room callers.length o
  unfold enterIn
  by_cases full : room ≤ callers.length
  · rw [if_pos full] at walked
    rw [if_pos (by simpa using full)]
    exact .hang walked
  · rw [if_neg full] at walked
    rw [if_neg (by simpa using full)]
    unfold enter
    split
    · rename_i beyond
      rw [if_pos beyond] at walked
      exact .ok ⟨.refl distinct _, le_refl _, .inr rfl, walked⟩
    · rename_i shallow
      rw [if_neg shallow] at walked
      refine (body (Nat.lt_of_not_le full)).imp ?_ ?_
      · intro r ends
        exact ⟨ends.grows, ends.left, ends.ret, walked.trans ends.walked⟩
      · exact walked.trans

/-- The run lemma: by induction on the rounds, with the calls of this file below. -/
theorem parseLoopIn_spec (includes : ∀ frames, WalksAs (handleInclude frames) (inc frames)
      (room - frames)) (fuel : Nat) (callers : List Bool) (inseq : Bool) (events : List YamlEvent)
    {n : GpConfNode} {f : Frame} (few : events.length < fuel) (open_ : callers.length < room)
    (fit : Frame.Fit (room - (callers.length + 1)) inseq n f) :
    Outcome
      (parseLoopIn handleInclude (some room) fuel inseq (callers.length + 1) f events)
      (Ends inc room callers (outlineLoop callers inseq f.state events) n events.length)
      ((outlineLoop callers inseq f.state events).walk inc room = none) := by
  induction fuel generalizing callers inseq events n f with
  | zero => exact absurd few (Nat.not_lt_zero _)
  | succ fuel ih =>
      have level : room - (callers.length + 1) + 1 = room - callers.length := by omega
      have grown : ∀ {g : Frame}, Frame.Fit (room - (callers.length + 1)) inseq n g →
          Grows (room - callers.length) n g.parent := by
        intro g fit'
        rw [← level]
        exact fit'.grows
      cases events with
      | nil => exact .ok ⟨grown fit, le_refl _, .inr rfl, rfl⟩
      | cons event events =>
          have shorter : events.length ≤ (event :: events).length := Nat.le_succ _
          have few' : events.length < fuel := Nat.lt_of_succ_lt_succ few
          -- a round that leaves the rest of the outline to do
          have next : ∀ {g : Frame} {rest : List YamlEvent} {o : Outline},
              Frame.Fit (room - (callers.length + 1)) inseq n g → rest.length ≤ events.length →
              o.walk inc room = (outlineLoop callers inseq g.state rest).walk inc room →
              Outcome
                (parseLoopIn handleInclude (some room) fuel inseq (callers.length + 1) g rest)
                (Ends inc room callers o n (event :: events).length) (o.walk inc room = none) := by
            intro g rest o fit' left same
            refine (ih callers inseq rest (by omega) open_ fit').imp ?_ ?_
            · intro r ends
              exact ⟨ends.grows, by have := ends.left; omega, ends.ret, same.trans ends.walked⟩
            · exact same.trans
          have stop : ∀ {g : Frame} {ret : Int} {rest : List YamlEvent} {o : Outline},
              Frame.Fit (room - (callers.length + 1)) inseq n g → rest.length ≤ events.length →
              ret = -1 → o.walk inc room = some false →
              Outcome (.ok (g.parent, ret, rest))
                (Ends inc room callers o n (event :: events).length) (o.walk inc room = none) := by
            rintro g ret rest o fit' left rfl walked
            exact .ok ⟨grown fit', left.trans shorter, .inr rfl, walked⟩
          have done : ∀ {o : Outline}, o = resume callers events →
              Outcome (.ok (f.parent, 0, events))
                (Ends inc room callers o n (event :: events).length) (o.walk inc room = none) := by
            rintro o rfl
            exact .ok ⟨grown fit, shorter, .inl rfl, rfl⟩
          -- a nested call on a node below
          have nested : ∀ {m : GpConfNode} (inseq' : Bool), Distinct m →
              let o := outlineEnter (callers.length + 1)
                (outlineLoop (inseq :: callers) inseq' .confKey events)
              Outcome (enterIn (some room) (callers.length + 1) m events fun g =>
                  parseLoopIn handleInclude (some room) fuel inseq' (callers.length + 2) g events)
                (Ends inc room (inseq :: callers) o m events.length) (o.walk inc room = none) := by
            intro m inseq' distinct
            refine enterIn_spec inc (inseq :: callers) _ distinct ?_
            intro open'
            exact ih (inseq :: callers) inseq' events few' open' (.start distinct)
          -- the loop behind a nested call, which has left the frame `g`
          have after : ∀ {m m' : GpConfNode} {g h : Frame} {ret : Int} {rest : List YamlEvent}
              {o : Outline}, Ends inc room (inseq :: callers) o m events.length (m', ret, rest) →
              Frame.Fit (room - (callers.length + 1)) inseq n g →
              Frame.Fit (room - (callers.length + 1)) inseq n h → h.state = .confKey →
              Outcome
                (if ret ≠ 0 then .ok (g.parent, -1, rest)
                  else parseLoopIn handleInclude (some room) fuel inseq (callers.length + 1) h rest)
                (Ends inc room callers o n (event :: events).length) (o.walk inc room = none) := by
            intro m m' g h ret rest o ends fit' fit'' state
            have walked := ends.walked
            split
            · rename_i failed
              rw [if_neg failed] at walked
              exact stop fit' ends.left rfl walked
            · rename_i succeeded
              rw [if_pos (Decidable.not_not.mp succeeded)] at walked
              refine next fit'' ends.left ?_
              rw [state]
              exact walked
          cases event with
          | documentStart version =>
              rw [parseLoopIn, outlineLoop]
              split
              · exact next fit (le_refl _) rfl
              · exact stop fit (le_refl _) rfl rfl
          | scalar value tag =>
              rw [parseLoopIn]
              have walked := walk_scalar inc room callers inseq f.state value tag events
              have scalar := fit.scalarEvent (includes (callers.length + 1)) value tag
              refine (scalar.imp (fun _ h => h) ?_).bind ?_
              · intro silent
                rw [walked, silent]
              · rintro ⟨g, goesOn⟩ ⟨fit', said, state⟩
                rw [said] at walked
                cases goesOn with
                | true => exact next fit' (le_refl _) (by rw [walked, state rfl])
                | false => exact stop fit' (le_refl _) rfl walked
          | sequenceStart =>
              obtain ⟨node, read, distinct, write, _⟩ := fit.deref
              rw [parseLoopIn, read]
              refine (nested true distinct).bind ?_
              rintro ⟨node', ret, rest⟩ ends
              exact after ends (write node' ends.grows)
                ((write _ ends.grows.markSeq).of_eq rfl rfl) rfl
          | mappingStart =>
              obtain ⟨node, read, distinct, write, writeSeq⟩ := fit.deref
              rw [parseLoopIn, read]
              cases inseq with
              | true =>
                  obtain ⟨below, put⟩ := Grows.seqMapping (room - (callers.length + 1)) f distinct
                  refine (nested false below).bind ?_
                  rintro ⟨seqNode, ret, rest⟩ ends
                  have written := (writeSeq rfl _ (put seqNode ends.grows)).of_eq
                    (g := (f.assign _).nextSeq) rfl rfl
                  exact after ends written (written.of_eq rfl rfl) rfl
              | false =>
                  refine (nested false distinct).bind ?_
                  rintro ⟨node', ret, rest⟩ ends
                  have written := write node' ends.grows
                  exact after ends written (written.of_eq rfl rfl) rfl
          | sequenceEnd => exact done (by cases callers <;> rfl)
          | mappingEnd => exact done (by cases callers <;> rfl)
          | streamEnd => exact done (by cases callers <;> rfl)
          | noEvent => exact next fit (le_refl _) rfl
          | streamStart => exact next fit (le_refl _) rfl
          | documentEnd => exact next fit (le_refl _) rfl
          | aliasEvent => exact next fit (le_refl _) rfl

theorem gpConfYamlParseIn_spec (includes : ∀ frames, WalksAs (handleInclude frames) (inc frames)
      (room - frames)) {n : GpConfNode} (distinct : Distinct n) (events : List YamlEvent) :
    Outcome (gpConfYamlParseIn handleInclude (some room) n events)
      (fun r => Grows room n r.1 ∧ (r.2.1 = 0 ∨ r.2.1 = -1) ∧
        (outline events).walk inc room = some (decide (r.2.1 = 0)))
      ((outline events).walk inc room = none) := by
  refine (enterIn_spec inc [] (outlineLoop [] false .confKey events) distinct ?_).imp ?_ fun h => h
  · intro open_
    exact parseLoopIn_spec includes _ [] false events (Nat.lt_succ_self _) open_ (.start distinct)
  intro r ends
  refine ⟨ends.grows, ends.ret, ?_⟩
  have walked := ends.walked
  by_cases succeeded : r.2.1 = 0
  · rw [if_pos succeeded] at walked
    rw [decide_eq_true succeeded]
    exact walked
  · rw [if_neg succeeded] at walked
    rw [decide_eq_false succeeded]
    exact walked

end Loops

/-! ## Files -/

section Files

variable (files : Files) (confDirname : Option CStr)

/-- By induction on how deep includes may nest. -/
theorem handleIncludeIn_walks (fuel room opened : Nat) :
    WalksAs (gpConfYamlHandleIncludeIn files confDirname fuel (some room) opened)
      (walkInclude files confDirname fuel room opened) room := by
  induction fuel generalizing room opened with
  | zero =>
      intro n filename _
      exact .hang rfl
  | succ fuel ih =>
      intro n filename distinct
      unfold gpConfYamlHandleIncludeIn walkInclude
      cases content : files.fopen opened (includeFilename confDirname filename) with
      | none => exact .ok ⟨.refl distinct room, rfl⟩
      | some events =>
          have parsed := gpConfYamlParseIn_spec
            (fun frames => ih (room - frames) (opened + 1)) distinct events
          refine parsed.bind ?_
          rintro ⟨parent, ret, rest⟩ ⟨grows, -, walked⟩
          refine .ok ⟨grows, ?_⟩
          dsimp only at walked ⊢
          rw [walked]
          by_cases succeeded : ret = 0
          · simp [succeeded]
          · simp [succeeded]

/-- What an include returns on a stack, it returns; with more fuel as well. -/
theorem handleIncludeIn_returns (room : Option Nat) {fuel fuel' : Nat} (more : fuel ≤ fuel')
    (opened : Nat) (n : GpConfNode) (filename : CStr) :
    Returns (gpConfYamlHandleIncludeIn files confDirname fuel room opened n filename)
      (gpConfYamlHandleInclude files confDirname fuel' opened n filename) := by
  induction fuel generalizing fuel' room opened n filename with
  | zero => exact .hang _
  | succ fuel ih =>
      obtain ⟨fuel', rfl⟩ : ∃ k, fuel' = k + 1 := ⟨fuel' - 1, by omega⟩
      unfold gpConfYamlHandleIncludeIn gpConfYamlHandleInclude
      cases files.fopen opened (includeFilename confDirname filename) with
      | none => exact .refl _
      | some events =>
          refine .bind (gpConfYamlParseIn_returns ?_ room n events) fun _ => .refl _
          intro frames n filename
          exact ih _ (Nat.le_of_succ_le_succ more) _ n filename

/-- On a stack without bound, an include is the loader's. -/
theorem handleIncludeIn_none (fuel opened : Nat) :
    gpConfYamlHandleIncludeIn files confDirname fuel none opened =
      gpConfYamlHandleInclude files confDirname fuel opened := by
  induction fuel generalizing opened with
  | zero => rfl
  | succ fuel ih =>
      funext n filename
      unfold gpConfYamlHandleIncludeIn gpConfYamlHandleInclude
      cases files.fopen opened (includeFilename confDirname filename) with
      | none => rfl
      | some events => simp only [Option.map_none, ih, gpConfYamlParseIn_none]

end Files

/-! ## Loads -/

section Loads

variable {s : ConfStore} {files : Files}

theorem parseAtIn_returns (room : Option Nat) {fuel fuel' : Nat} (more : fuel ≤ fuel')
    (opened : Nat) (path : List CStr) (events : List YamlEvent) :
    Returns (s.parseAtIn fuel room files opened path events)
      (s.parseAt fuel' files opened path events) := by
  unfold ConfStore.parseAtIn ConfStore.parseAt
  cases s.root.nodeAt path with
  | none => exact .refl _
  | some node =>
      refine .bind (gpConfYamlParseIn_returns ?_ room node events) fun _ => .refl _
      intro frames n filename
      exact handleIncludeIn_returns files s.confDirname _ more opened n filename

/-- A load has one result, however much fuel there is. -/
theorem parseAt_returns {fuel fuel' : Nat} (more : fuel ≤ fuel') (opened : Nat) (path : List CStr)
    (events : List YamlEvent) :
    Returns (s.parseAt fuel files opened path events)
      (s.parseAt fuel' files opened path events) := by
  have same : s.parseAtIn fuel none files opened path events =
      s.parseAt fuel files opened path events := by
    unfold ConfStore.parseAtIn ConfStore.parseAt
    cases s.root.nodeAt path with
    | none => rfl
    | some node => simp only [Option.map_none, handleIncludeIn_none, gpConfYamlParseIn_none]
  rw [← same]
  exact parseAtIn_returns none more opened path events

/-- A load on a stack ends as the walk of the file's outline does. -/
theorem parseAtIn_spec (distinct : Distinct s.root) (fuel room opened : Nat) {path : List CStr}
    {m : GpConfNode} (found : s.root.nodeAt path = some m) (events : List YamlEvent) :
    Outcome (s.parseAtIn fuel (some room) files opened path events)
      (fun r => (r.2 = 0 ∨ r.2 = -1) ∧
        (∀ h ≥ path.length + room, Shallow h s.root → Shallow h r.1.root) ∧
        (outline events).walk (fun frames =>
          walkInclude files s.confDirname fuel (room - frames) opened) room =
            some (decide (r.2 = 0)))
      ((outline events).walk (fun frames =>
        walkInclude files s.confDirname fuel (room - frames) opened) room = none) := by
  unfold ConfStore.parseAtIn
  rw [found]
  have parsed := gpConfYamlParseIn_spec
    (fun frames => handleIncludeIn_walks files s.confDirname fuel (room - frames) opened)
    (distinct.nodeAt found) events
  refine parsed.bind ?_
  rintro ⟨node, ret, rest⟩ ⟨grows, ends, walked⟩
  refine .ok ⟨ends, ?_, walked⟩
  intro h above shallow
  have below := (shallow.nodeAt found).2
  exact shallow.modifyAt found grows.name (grows.shallow _ (by omega) below)

/-- A load ends, with at most `room` calls nested, where the chains of includes fit. -/
theorem parseAtIn_ok_iff (distinct : Distinct s.root) (room opened : Nat) {path : List CStr}
    {m : GpConfNode} (found : s.root.nodeAt path = some m) (events : List YamlEvent) :
    (∃ fuel t ret, s.parseAtIn fuel (some room) files opened path events = .ok (t, ret)) ↔
      Fits files s.confDirname room opened (outline events) := by
  refine ⟨?_, ?_⟩
  · rintro ⟨fuel, t, ret, returned⟩
    have ends := (parseAtIn_spec distinct fuel room opened found events).good_of_ok returned
    exact (walk_sound (walkInclude_sound fuel room opened) ends.2.2).1
  · intro fits
    have ended := walk_complete (room + 1) (Nat.lt_succ_self room) fits
    obtain ⟨⟨t, ret⟩, returned⟩ :=
      (parseAtIn_spec distinct (room + 1) room opened found events).returns ended
    exact ⟨room + 1, t, ret, returned⟩

/-- The file that `gp_conf_yaml_load_file` opens. -/
def Files.content (files : Files) (filename : CStr) : Option (List YamlEvent) :=
  if files.isDir filename then none else files.fopen 0 filename

theorem loadFileIn_none (fuel : Nat) (room : Option Nat) {filename : CStr}
    (content : files.content filename = none) :
    s.gpConfYamlLoadFileIn fuel room files filename = .ok (s, -1) ∧
      s.gpConfYamlLoadFile fuel files filename = .ok (s, -1) := by
  unfold Files.content at content
  unfold ConfStore.gpConfYamlLoadFileIn ConfStore.gpConfYamlLoadFile
  split
  · exact ⟨rfl, rfl⟩
  · rename_i isFile
    rw [if_neg isFile] at content
    rw [content]
    exact ⟨rfl, rfl⟩

theorem loadFileIn_some (fuel : Nat) (room : Option Nat) {filename : CStr}
    {events : List YamlEvent} (content : files.content filename = some events) :
    s.gpConfYamlLoadFileIn fuel room files filename =
        (s.setConfDirname filename).parseAtIn fuel room files 1 [] events ∧
      s.gpConfYamlLoadFile fuel files filename =
        (s.setConfDirname filename).parseAt fuel files 1 [] events := by
  unfold Files.content at content
  unfold ConfStore.gpConfYamlLoadFileIn ConfStore.gpConfYamlLoadFile
  split
  · rename_i isDir
    rw [if_pos isDir] at content
    cases content
  · rename_i isFile
    rw [if_neg isFile] at content
    rw [content]
    exact ⟨rfl, rfl⟩

/-- The load of a file terminates, with at most `RECURSION_LIMIT + 2` calls of
`gp_conf_yaml_parse` nested, and returns -1 if it comes to a call beyond the limit. -/
def ConfStore.Bounded (s : ConfStore) (files : Files) (filename : CStr) : Prop :=
  ∃ fuel t ret, s.gpConfYamlLoadFileIn fuel (some (recursionLimit + 2)) files filename =
      .ok (t, ret) ∧
    s.gpConfYamlLoadFile fuel files filename = .ok (t, ret) ∧
    ∀ events, files.content filename = some events → ∀ below rlevel,
      Comes files (s.setConfDirname filename).confDirname 1 (outline events) below
        (.rejects rlevel) → ret = -1

/-- **Bounded recursion.** The load of a file terminates within the stack that one file
can fill just when no chain of includes, with the levels of its directives added up,
nests deeper than that. -/
theorem load_bounded_iff {calls : List (ConfCall × Int)} (run : confSys.Run calls s)
    (files : Files) (filename : CStr) :
    s.Bounded files filename ↔
      ∀ events, files.content filename = some events →
        Fits files (s.setConfDirname filename).confDirname (recursionLimit + 2) 1
          (outline events) := by
  have distinct : Distinct s.root := run_distinct run
  have found : (s.setConfDirname filename).root.nodeAt [] = some s.root := rfl
  cases content : files.content filename with
  | none =>
      refine ⟨?_, ?_⟩
      · intro _ events same
        cases same
      · intro _
        obtain ⟨onStack, plain⟩ := loadFileIn_none 0 (some (recursionLimit + 2)) (s := s) content
        refine ⟨0, s, -1, onStack, plain, ?_⟩
        intro events same
        rw [content] at same
        cases same
  | some events =>
      have distinct' : Distinct (s.setConfDirname filename).root := distinct
      have ends := @parseAtIn_ok_iff _ files distinct' (recursionLimit + 2) 1 _ _ found events
      refine ⟨?_, ?_⟩
      · rintro ⟨fuel, t, ret, returned, _⟩ events' same
        cases same
        rw [(loadFileIn_some fuel _ content).1] at returned
        exact ends.mp ⟨fuel, t, ret, returned⟩
      · intro fits
        obtain ⟨fuel, t, ret, returned⟩ := ends.mpr (fits events rfl)
        obtain ⟨onStack, plain⟩ := loadFileIn_some fuel (some (recursionLimit + 2)) (s := s) content
        have loaded := parseAtIn_returns _ (le_refl fuel) 1 [] events _ returned
        refine ⟨fuel, t, ret, onStack.trans returned, plain.trans loaded, ?_⟩
        intro events' same below rlevel comes
        rw [content] at same
        cases same
        obtain ⟨either, _, walked⟩ :=
          (parseAtIn_spec (s := s.setConfDirname filename) distinct fuel _ 1 found
            events).good_of_ok returned
        have failed : ret ≠ 0 := by
          intro succeeded
          have := (walk_sound (walkInclude_sound fuel _ 1) walked).2.mpr (decide_eq_true succeeded)
          exact comes.not_succeeds rfl this
        exact either.resolve_left failed

/-- Events of a document with one include directive. -/
def including (filename : CStr) : List YamlEvent :=
  [.streamStart, .documentStart (some (1, 1)), .mappingStart, .scalar (ascii "include") none,
    .scalar filename none, .mappingEnd, .documentEnd, .streamEnd]

/-- A file that includes another, which has a key only. -/
def chained : Files where
  stat _ := none
  fopen _ filename :=
    if filename = ascii "a" then some (including (ascii "b"))
    else some [.streamStart, .documentStart (some (1, 1)), .mappingStart,
      .scalar (ascii "key") none, .scalar (ascii "x") none, .mappingEnd, .documentEnd, .streamEnd]

theorem load_bounded_chained : gpConfInit.Bounded chained (ascii "a") := by
  refine (load_bounded_iff (.init rfl) chained (ascii "a")).mpr ?_
  intro events same
  obtain rfl : including (ascii "b") = events := Option.some.inj same
  -- the directive stands in the second call, and the other file nests two more
  show Fits chained _ 130 1 (.opens 0 (.opens 1 (.includes 1 (ascii "b") (.returns true))))
  rw [fits_opens_iff, fits_opens_iff, fits_includes_iff (by rfl)]
  refine ⟨by decide, by decide, ?_, fun _ => fits_returns true⟩
  show Fits chained _ 128 2 (.opens 0 (.opens 1 (.returns true)))
  rw [fits_opens_iff, fits_opens_iff]
  exact ⟨by decide, by decide, fits_returns true⟩

/-- A file that includes itself, and can be opened any number of times. -/
def cyclic : Files where
  stat _ := none
  fopen _ filename := if filename = ascii "/a" then some (including (ascii "/a")) else none

/-- A document hangs where its include does. -/
theorem including_hangs {handleInclude : Include} {filename : CStr}
    (hangs : ∀ n, handleInclude n filename = .error .hang) (n : GpConfNode) :
    gpConfYamlParse handleInclude n false 0 (including filename) = .error .hang := by
  have key : ascii "include" ≠ [] := by decide
  simp [gpConfYamlParse, including, enter, recursionLimit, parseLoop, Frame.start, Frame.deref,
    scalarEvent, hangs, key, bind, Except.bind]

theorem load_not_bounded :
    (∀ opened, cyclic.fopen opened (ascii "/a") ≠ none) ∧
      ∀ fuel, gpConfInit.gpConfYamlLoadFile fuel cyclic (ascii "/a") = .error .hang := by
  refine ⟨fun _ => Option.some_ne_none _, ?_⟩
  have hangs : ∀ fuel opened dir n,
      gpConfYamlHandleInclude cyclic dir fuel opened n (ascii "/a") = .error .hang := by
    intro fuel
    induction fuel with
    | zero => exact fun _ _ _ => rfl
    | succ fuel ih =>
        intro opened dir n
        have again := including_hangs (ih (opened + 1) dir) n
        show (gpConfYamlParse _ n false 0 (including (ascii "/a")) >>= _) = _
        rw [again]
        rfl
  intro fuel
  have top := including_hangs (hangs fuel 1 (some (ascii ""))) gpConfNodeNew
  show (gpConfYamlParse _ gpConfNodeNew false 0 (including (ascii "/a")) >>= _) = _
  rw [show (gpConfInit.setConfDirname (ascii "/a")).confDirname = some (ascii "") by decide, top]
  rfl

end Loads

end GpBase.Conf

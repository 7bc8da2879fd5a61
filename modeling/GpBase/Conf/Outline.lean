import GpBase.Conf.Yaml

/-!
# Outlines of files

How deep the calls of `gp_conf_yaml_parse` nest is decided by the events alone: the
outline of a file says which calls its parse makes, at which level each include
directive stands, and how the parse ends. What the files of an include chain do is
read off their outlines.
-/

namespace GpBase.Conf

/-- What a parse of one file does, apart from the tree. -/
inductive Outline
  /-- the outermost call returns, 0 or -1 -/
  | returns (ok : Bool)
  /-- a call beyond the limit, which makes all calls return -1 -/
  | rejects (rlevel : Nat)
  | opens (rlevel : Nat) (next : Outline)
  /-- the call at this level comes to an include directive -/
  | includes (rlevel : Nat) (filename : CStr) (next : Outline)

/-- What a scalar does to the state, and the file that it includes. -/
def scalarStep (inseq : Bool) (state : ConfState) (value : CStr) (tag : Option CStr) :
    ConfState × Option CStr :=
  if state = .confKey ∧ value = [] then (state, none)
  else if inseq then (state, none)
  else
    match state with
    | .confInclude => (.confKey, some value)
    | .confKey => (if value = ascii "include" then .confInclude else .confVal, none)
    | .confVal => (.confKey, if tag = some (ascii "!include") then some value else none)

/-- A call at level `rlevel`. -/
def outlineEnter (rlevel : Nat) (next : Outline) : Outline :=
  if recursionLimit < rlevel then .rejects rlevel else .opens rlevel next

/-- The rest of a file, with the flags `inseq` of the calls that wait for this one. -/
def outlineLoop : List Bool → Bool → ConfState → List YamlEvent → Outline
  | _, _, _, [] => .returns false
  | callers, inseq, state, event :: events =>
    match event with
    | .documentStart version =>
      if version = some (1, 1) then outlineLoop callers inseq state events else .returns false
    | .scalar value tag =>
      match scalarStep inseq state value tag with
      | (state, none) => outlineLoop callers inseq state events
      | (state, some filename) =>
        .includes callers.length filename (outlineLoop callers inseq state events)
    | .sequenceStart =>
      outlineEnter (callers.length + 1) (outlineLoop (inseq :: callers) true .confKey events)
    | .mappingStart =>
      outlineEnter (callers.length + 1) (outlineLoop (inseq :: callers) false .confKey events)
    | .sequenceEnd | .mappingEnd | .streamEnd =>
      match callers with
      | [] => .returns true
      | caller :: callers => outlineLoop callers caller .confKey events
    | .noEvent | .streamStart | .documentEnd | .aliasEvent =>
      outlineLoop callers inseq state events

/-- What is left of a file when a call returns: its caller goes on, if there is one. -/
def resume : List Bool → List YamlEvent → Outline
  | [], _ => .returns true
  | caller :: callers, events => outlineLoop callers caller .confKey events

/-- The parse of one file. -/
def outline (events : List YamlEvent) : Outline :=
  outlineEnter 0 (outlineLoop [] false .confKey events)

/-- The level of the call that an outline starts with. -/
def Outline.call : Outline → Option Nat
  | .rejects rlevel | .opens rlevel _ => some rlevel
  | .returns _ | .includes _ _ _ => none

section Chains

variable (files : Files) (confDirname : Option CStr)

/-- The parse returns 0, and so do all includes. -/
inductive Succeeds : Nat → Outline → Prop
  | returns (opened) : Succeeds opened (.returns true)
  | opens {opened rlevel next} : Succeeds opened next → Succeeds opened (.opens rlevel next)
  | includes {opened rlevel filename next events} :
      files.fopen opened (includeFilename confDirname filename) = some events →
      Succeeds (opened + 1) (outline events) → Succeeds opened next →
      Succeeds opened (.includes rlevel filename next)

/-- `Comes opened o below p`: with `opened` files open, the parse of `o` comes to `p`,
in this file or in one that it includes, above `below` calls of the including files. -/
inductive Comes : Nat → Outline → Nat → Outline → Prop
  | here (opened o) : Comes opened o 0 o
  | opens {opened rlevel next below p} :
      Comes opened next below p → Comes opened (.opens rlevel next) below p
  | inside {opened rlevel filename next events below p} :
      files.fopen opened (includeFilename confDirname filename) = some events →
      Comes (opened + 1) (outline events) below p →
      Comes opened (.includes rlevel filename next) (rlevel + 1 + below) p
  | past {opened rlevel filename next events below p} :
      files.fopen opened (includeFilename confDirname filename) = some events →
      Succeeds files confDirname (opened + 1) (outline events) → Comes opened next below p →
      Comes opened (.includes rlevel filename next) below p

/-- No chain of includes nests more than `room` calls. -/
def Fits (room opened : Nat) (o : Outline) : Prop :=
  ∀ below p rlevel, Comes files confDirname opened o below p → p.call = some rlevel →
    below + rlevel + 1 ≤ room

end Chains

section Lemmas

variable {files : Files} {confDirname : Option CStr} {room opened rlevel : Nat} {next o p : Outline}
  {filename : CStr} {events : List YamlEvent}

/-- A call beyond the limit leaves no success. -/
theorem Comes.not_succeeds {below : Nat} (comes : Comes files confDirname opened o below p)
    (call : p = .rejects rlevel) : ¬ Succeeds files confDirname opened o := by
  induction comes with
  | here opened o =>
      rw [call]
      intro succeeds
      cases succeeds
  | opens _ ih =>
      intro succeeds
      cases succeeds with
      | opens succeeds => exact ih call succeeds
  | inside content _ ih =>
      intro succeeds
      cases succeeds with
      | includes content' inner _ =>
          rw [content] at content'
          cases content'
          exact ih call inner
  | past _ _ _ ih =>
      intro succeeds
      cases succeeds with
      | includes _ _ succeeds => exact ih call succeeds

/-! ## When a chain fits -/

theorem fits_returns (ok : Bool) : Fits files confDirname room opened (.returns ok) := by
  intro below p rlevel comes call
  cases comes
  cases call

theorem fits_rejects_iff :
    Fits files confDirname room opened (.rejects rlevel) ↔ rlevel < room := by
  refine ⟨?_, ?_⟩
  · intro fits
    have := fits 0 _ rlevel (.here ..) rfl
    omega
  · intro below_ below p r comes call
    cases comes
    cases call
    omega

theorem fits_opens_iff : Fits files confDirname room opened (.opens rlevel next) ↔
    rlevel < room ∧ Fits files confDirname room opened next := by
  refine ⟨?_, ?_⟩
  · intro fits
    have own := fits 0 _ rlevel (.here ..) rfl
    exact ⟨by omega, fun below p r comes call => fits below p r (.opens comes) call⟩
  · rintro ⟨own, fits⟩ below p r comes call
    cases comes with
    | here =>
        cases call
        omega
    | opens comes => exact fits below p r comes call

theorem fits_includes_iff
    (content : files.fopen opened (includeFilename confDirname filename) = some events) :
    Fits files confDirname room opened (.includes rlevel filename next) ↔
      Fits files confDirname (room - (rlevel + 1)) (opened + 1) (outline events) ∧
        (Succeeds files confDirname (opened + 1) (outline events) →
          Fits files confDirname room opened next) := by
  refine ⟨?_, ?_⟩
  · intro fits
    refine ⟨?_, ?_⟩
    · intro below p r comes call
      have := fits _ p r (.inside content comes) call
      omega
    · intro succeeds below p r comes call
      exact fits below p r (.past content succeeds comes) call
  · rintro ⟨inner, behind⟩ below p r comes call
    cases comes with
    | here => cases call
    | inside content' comes =>
        rw [content] at content'
        cases content'
        have := inner _ p r comes call
        omega
    | past content' succeeds comes =>
        rw [content] at content'
        cases content'
        exact behind succeeds below p r comes call

/-- A file takes room for its outermost call. -/
theorem Fits.room_pos (fits : Fits files confDirname room opened (outline events)) : 0 < room := by
  have call : (outline events).call = some 0 := rfl
  have := fits 0 _ 0 (.here ..) call
  omega

/-- An include of a file that cannot be opened ends the parse. -/
theorem fits_includes_none
    (content : files.fopen opened (includeFilename confDirname filename) = none) :
    Fits files confDirname room opened (.includes rlevel filename next) := by
  intro below p r comes call
  cases comes with
  | here => cases call
  | inside content' _ =>
      rw [content] at content'
      cases content'
  | past content' _ _ =>
      rw [content] at content'
      cases content'

/-- No include directive is come to. -/
def Outline.Alone : Outline → Prop
  | .returns _ | .rejects _ => True
  | .opens _ next => next.Alone
  | .includes _ _ _ => False

theorem outlineEnter_fits (next : Outline) (level : rlevel ≤ recursionLimit + 1)
    (body : rlevel ≤ recursionLimit → next.Alone →
      Fits files confDirname (recursionLimit + 2) opened next)
    (alone : (outlineEnter rlevel next).Alone) :
    Fits files confDirname (recursionLimit + 2) opened (outlineEnter rlevel next) := by
  unfold outlineEnter at alone ⊢
  split
  · exact fits_rejects_iff.mpr (Nat.lt_succ_of_le level)
  · rename_i shallow
    rw [if_neg shallow] at alone
    exact fits_opens_iff.mpr ⟨Nat.lt_succ_of_le level, body (Nat.le_of_not_lt shallow) alone⟩

/-- By induction on the events: a call within the limit opens one at most one deeper. -/
theorem outlineLoop_fits (callers : List Bool) (inseq : Bool) (state : ConfState)
    (events : List YamlEvent) (level : callers.length ≤ recursionLimit)
    (alone : (outlineLoop callers inseq state events).Alone) :
    Fits files confDirname (recursionLimit + 2) opened
      (outlineLoop callers inseq state events) := by
  induction events generalizing callers inseq state with
  | nil => exact fits_returns false
  | cons event events ih =>
      have nested : ∀ inseq', (outlineEnter (callers.length + 1)
          (outlineLoop (inseq :: callers) inseq' .confKey events)).Alone →
          Fits files confDirname (recursionLimit + 2) opened (outlineEnter (callers.length + 1)
            (outlineLoop (inseq :: callers) inseq' .confKey events)) := by
        intro inseq' alone'
        refine outlineEnter_fits _ (Nat.succ_le_succ level) ?_ alone'
        exact fun within alone => ih (inseq :: callers) inseq' .confKey within alone
      have ended : ∀ {o : Outline}, o = resume callers events → o.Alone →
          Fits files confDirname (recursionLimit + 2) opened o := by
        rintro o rfl alone'
        cases callers with
        | nil => exact fits_returns true
        | cons caller callers => exact ih callers caller .confKey (Nat.le_of_succ_le level) alone'
      cases event with
      | documentStart version =>
          rw [outlineLoop] at alone ⊢
          split
          · rename_i version11
            rw [if_pos version11] at alone
            exact ih callers inseq state level alone
          · exact fits_returns false
      | scalar value tag =>
          rw [outlineLoop] at alone ⊢
          revert alone
          rcases scalarStep inseq state value tag with ⟨state', _ | filename⟩
          · exact ih callers inseq state' level
          · exact False.elim
      | sequenceStart => exact nested true alone
      | mappingStart => exact nested false alone
      | sequenceEnd => exact ended (by cases callers <;> rfl) alone
      | mappingEnd => exact ended (by cases callers <;> rfl) alone
      | streamEnd => exact ended (by cases callers <;> rfl) alone
      | noEvent => exact ih callers inseq state level alone
      | streamStart => exact ih callers inseq state level alone
      | documentEnd => exact ih callers inseq state level alone
      | aliasEvent => exact ih callers inseq state level alone

/-- A file by itself stays within the limit, the call that is rejected with it. -/
theorem fits_alone (alone : (outline events).Alone) :
    Fits files confDirname (recursionLimit + 2) opened (outline events) :=
  outlineEnter_fits _ (Nat.zero_le _)
    (fun _ => outlineLoop_fits [] false .confKey events (Nat.zero_le _)) alone

end Lemmas

/-! ## Walking an outline -/

/-- What the parse of an outline returns with room for `room` calls; an include returns
what `inc` says of it, above so many calls. `none`: there is no room, or no end. -/
def Outline.walk (inc : Nat → CStr → Option Bool) (room : Nat) : Outline → Option Bool
  | .returns ok => some ok
  | .rejects rlevel => if room ≤ rlevel then none else some false
  | .opens rlevel next => if room ≤ rlevel then none else next.walk inc room
  | .includes rlevel filename next =>
    match inc (rlevel + 1) filename with
    | some true => next.walk inc room
    | failed => failed

section Walks

variable (files : Files) (confDirname : Option CStr)

/-- What an include of a file returns; `fuel` bounds the nesting of includes. -/
def walkInclude : Nat → Nat → Nat → CStr → Option Bool
  | 0, _, _, _ => none
  | fuel + 1, room, opened, filename =>
    match files.fopen opened (includeFilename confDirname filename) with
    | none => some false
    | some events =>
      (outline events).walk (fun frames => walkInclude fuel (room - frames) (opened + 1)) room

/-- What is said of includes agrees with the files that they open. -/
structure WalkSound (inc : Nat → CStr → Option Bool) (room opened : Nat) : Prop where
  fits : ∀ rlevel filename events ok,
    files.fopen opened (includeFilename confDirname filename) = some events →
    inc (rlevel + 1) filename = some ok →
    Fits files confDirname (room - (rlevel + 1)) (opened + 1) (outline events) ∧
      (Succeeds files confDirname (opened + 1) (outline events) ↔ ok = true)
  missing : ∀ rlevel filename,
    files.fopen opened (includeFilename confDirname filename) = none →
    inc (rlevel + 1) filename ≠ some true

variable {files confDirname}

/-- A walk that ends has fitted, and has found out whether the parse succeeds. -/
theorem walk_sound {inc : Nat → CStr → Option Bool} {room opened : Nat}
    (sound : WalkSound files confDirname inc room opened) {o : Outline} {ok : Bool}
    (walked : o.walk inc room = some ok) :
    Fits files confDirname room opened o ∧ (Succeeds files confDirname opened o ↔ ok = true) := by
  induction o with
  | returns _ =>
      cases walked
      refine ⟨fits_returns ok, ?_, ?_⟩
      · intro succeeds
        cases succeeds
        rfl
      · rintro rfl
        exact .returns opened
  | rejects rlevel =>
      rw [Outline.walk] at walked
      split at walked
      · cases walked
      · rename_i enough
        cases walked
        refine ⟨fits_rejects_iff.mpr (Nat.lt_of_not_le enough), ?_, ?_⟩
        · intro succeeds
          cases succeeds
        · intro h
          cases h
  | opens rlevel next ih =>
      rw [Outline.walk] at walked
      split at walked
      · cases walked
      · rename_i enough
        obtain ⟨fits, succeeds⟩ := ih walked
        refine ⟨fits_opens_iff.mpr ⟨Nat.lt_of_not_le enough, fits⟩, ?_⟩
        rw [← succeeds]
        refine ⟨?_, .opens⟩
        intro h
        cases h with
        | opens h => exact h
  | includes rlevel filename next ih =>
      rw [Outline.walk] at walked
      cases content : files.fopen opened (includeFilename confDirname filename) with
      | none =>
          refine ⟨fits_includes_none content, ?_⟩
          have failed := sound.missing rlevel filename content
          split at walked
          · rename_i succeeded
            exact absurd succeeded failed
          · rw [walked] at failed
            refine ⟨?_, fun h => absurd (by rw [h]) failed⟩
            intro h
            cases h with
            | includes content' _ _ =>
                rw [content] at content'
                cases content'
      | some events =>
          rw [fits_includes_iff content]
          split at walked
          · rename_i succeeded
            obtain ⟨inner, succeeds⟩ := sound.fits _ _ _ _ content succeeded
            obtain ⟨fits, behind⟩ := ih walked
            refine ⟨⟨inner, fun _ => fits⟩, ?_⟩
            rw [← behind]
            refine ⟨?_, .includes content (succeeds.mpr rfl)⟩
            intro h
            cases h with
            | includes _ _ h => exact h
          · rename_i failed
            obtain ⟨inner, succeeds⟩ := sound.fits _ _ _ _ content walked
            have not : ok = false := by
              cases ok with
              | true => exact absurd walked failed
              | false => rfl
            subst not
            have fails : ¬ Succeeds files confDirname (opened + 1) (outline events) := by
              rw [succeeds]
              exact Bool.false_ne_true
            refine ⟨⟨inner, fun h => absurd h fails⟩, ?_, ?_⟩
            · intro h
              cases h with
              | includes content' inner' _ =>
                  rw [content] at content'
                  cases content'
                  exact absurd inner' fails
            · intro h
              cases h

theorem walkInclude_sound (fuel room opened : Nat) :
    WalkSound files confDirname
      (fun frames => walkInclude files confDirname fuel (room - frames) opened) room opened := by
  induction fuel generalizing room opened with
  | zero =>
      refine ⟨?_, ?_⟩
      · intro rlevel filename events ok _ said
        cases said
      · intro rlevel filename _ said
        cases said
  | succ fuel ih =>
      refine ⟨?_, ?_⟩
      · intro rlevel filename events ok content said
        rw [walkInclude, content] at said
        exact walk_sound (ih (room - (rlevel + 1)) (opened + 1)) said
      · intro rlevel filename content
        rw [walkInclude, content]
        exact fun said => by cases said

/-- A chain that fits has an end: every include takes room. -/
theorem walk_complete (fuel : Nat) {room opened : Nat} (enough : room < fuel) {o : Outline}
    (fits : Fits files confDirname room opened o) :
    o.walk (fun frames => walkInclude files confDirname fuel (room - frames) opened) room ≠
      none := by
  induction fuel generalizing room opened o with
  | zero => exact absurd enough (Nat.not_lt_zero room)
  | succ fuel ih =>
      induction o with
      | returns ok => exact Option.some_ne_none ok
      | rejects rlevel =>
          rw [Outline.walk, if_neg (Nat.not_le.mpr (fits_rejects_iff.mp fits))]
          exact Option.some_ne_none false
      | opens rlevel next ihNext =>
          obtain ⟨own, behind⟩ := fits_opens_iff.mp fits
          rw [Outline.walk, if_neg (Nat.not_le.mpr own)]
          exact ihNext behind
      | includes rlevel filename next ihNext =>
          rw [Outline.walk, walkInclude]
          cases content : files.fopen opened (includeFilename confDirname filename) with
          | none => exact Option.some_ne_none false
          | some events =>
              obtain ⟨inner, behind⟩ := (fits_includes_iff content).mp fits
              have some_ : 0 < room - (rlevel + 1) := inner.room_pos
              have smaller : room - (rlevel + 1) < fuel := by omega
              have ended := ih smaller inner
              dsimp only
              split
              · rename_i succeeded
                exact ihNext (behind ((walk_sound (walkInclude_sound ..) succeeded).2.mpr rfl))
              · exact ended

end Walks

end GpBase.Conf

import GpBase.Lib.Run
import GpBase.Dictionary.Spec

/-!
# The dictionary refines a finite map

A plain finite map is a list of entries with pairwise different keys, searched
from the front. Whatever sequence of operations is run from `_dictCreate`, at
every stage of every rehash, the dictionary holds the entries of the map (in
some order) and answers every call as the map does.
-/

namespace GpBase.Dictionary

open GpBase.Lib

variable {K V : Type} (ty : DictType K)

/-- A dictionary and the global `dict_can_resize`. -/
structure DictState (K V : Type) where
  dict : Dict K V
  dictCanResize : Bool

inductive Op (K V : Type)
  | add (key : K) (v : V)
  | replace (key : K) (v : V)
  | addOrFind (key : K)
  | delete (key : K)
  | unlink (key : K)
  | find (key : K)
  | fetchValue (key : K)
  | expand (size : Nat)
  | resize
  | rehash (n : Nat)
  | enableResize
  | disableResize
  | empty

/-- What an operation tells its caller about the map. -/
inductive Reply (K V : Type)
  | flag (b : Bool)
  | entry (e : Option (DictEntry K V))
  | value (v : Option (Option V))
  | nothing
  deriving DecidableEq, Repr

/-- Run an operation. The results of `dictExpand`, `dictResize` and `dictRehash`
are about the tables, not about the map. -/
def Op.exec (s : DictState K V) : Op K V → Except Fault (DictState K V × Reply K V)
  | .add key v => do
    let (d, ok) ← s.dict.dictAdd ty s.dictCanResize key v
    return ({ s with dict := d }, .flag ok)
  | .replace key v => do
    let (d, new) ← s.dict.dictReplace ty s.dictCanResize key v
    return ({ s with dict := d }, .flag new)
  | .addOrFind key => do
    let (d, e) ← s.dict.dictAddOrFind ty s.dictCanResize key
    return ({ s with dict := d }, .entry e)
  | .delete key => do
    let (d, ok) ← s.dict.dictDelete ty key
    return ({ s with dict := d }, .flag ok)
  | .unlink key => do
    let (d, e) ← s.dict.dictGenericDelete ty key
    return ({ s with dict := d }, .entry e)
  | .find key => do
    let (d, e) ← s.dict.dictFind ty key
    return ({ s with dict := d }, .entry e)
  | .fetchValue key => do
    let (d, v) ← s.dict.dictFetchValue ty key
    return ({ s with dict := d }, .value v)
  | .expand size => .ok ({ s with dict := (s.dict.dictExpand size).1 }, .nothing)
  | .resize => .ok ({ s with dict := (s.dict.dictResize s.dictCanResize).1 }, .nothing)
  | .rehash n => do
    let (d, _) ← s.dict.dictRehash ty n
    return ({ s with dict := d }, .nothing)
  | .enableResize => .ok ({ s with dictCanResize := true }, .nothing)
  | .disableResize => .ok ({ s with dictCanResize := false }, .nothing)
  | .empty => .ok ({ s with dict := Dict.dictEmpty }, .nothing)

/-- The calls considered: fewer than `2 ^ 61` entries, and at least one round of
rehashing. -/
def Op.Legal (s : DictState K V) : Op K V → Prop
  | .rehash n => s.dict.dictSize < 2 ^ 61 ∧ 1 ≤ n ∧ n < 2 ^ 31
  | .expand size => s.dict.dictSize < 2 ^ 61 ∧ size < 2 ^ 64
  | _ => s.dict.dictSize < 2 ^ 61

/-- A dictionary in use, from `_dictCreate` on. -/
def dictSys : TSys (DictState K V) (Op K V) where
  init s := s = ⟨dictCreate, true⟩
  step s op s' := op.Legal s ∧ ∃ reply, op.exec ty s = .ok (s', reply)

/-! ## The plain map -/

/-- A finite map: a list of entries without two equal keys. -/
abbrev PlainMap (K V : Type) := List (DictEntry K V)

namespace PlainMap

variable (m : PlainMap K V)

def find (key : K) : Option (DictEntry K V) := m.find? (Dict.hasKey ty key)

/-- What an operation does to the map, and its answer. -/
def exec : Op K V → PlainMap K V × Reply K V
  | .add key v =>
    if (find ty m key).isSome then (m, .flag false) else (⟨key, some v⟩ :: m, .flag true)
  | .replace key v =>
    if (find ty m key).isSome then (m.map (Dict.setVal ty key v), .flag false)
    else (⟨key, some v⟩ :: m, .flag true)
  | .addOrFind key =>
    match find ty m key with
    | some e => (m, .entry (some e))
    | none => (⟨key, none⟩ :: m, .entry (some ⟨key, none⟩))
  | .delete key => (m.eraseP (Dict.hasKey ty key), .flag (find ty m key).isSome)
  | .unlink key => (m.eraseP (Dict.hasKey ty key), .entry (find ty m key))
  | .find key => (m, .entry (find ty m key))
  | .fetchValue key => (m, .value ((find ty m key).map (·.val)))
  | .expand _ | .resize | .rehash _ | .enableResize | .disableResize => (m, .nothing)
  | .empty => ([], .nothing)

/-- The map after a sequence of operations on the empty one. -/
def after (ops : List (Op K V)) : PlainMap K V :=
  ops.foldl (fun m op => (exec ty m op).1) []

theorem after_snoc (ops : List (Op K V)) (op : Op K V) :
    after ty (ops ++ [op]) = (exec ty (after ty ops) op).1 := by
  simp [after]

end PlainMap

/-! ## Refinement -/

section Refinement

variable {ty} {d : Dict K V} {m : PlainMap K V}

/-- The dictionary holds the entries of the map. -/
structure Represents (ty : DictType K) (d : Dict K V) (m : PlainMap K V) : Prop where
  wf : d.WF ty
  perm : d.entries.Perm m

theorem Represents.find_eq (rep : Represents ty d m) (lawful : ty.Lawful) (key : K) :
    d.entries.find? (Dict.hasKey ty key) = m.find ty key :=
  (rep.wf.unique lawful key).find?_perm rep.perm

/-- Storing the value of an entry that was just added. -/
theorem map_setVal_new (lawful : ty.Lawful) {key : K}
    (absent : m.find ty key = none) (v : V) :
    (⟨key, none⟩ :: m).map (Dict.setVal ty key v) = ⟨key, some v⟩ :: m := by
  have hit : Dict.hasKey ty key (⟨key, none⟩ : DictEntry K V) = true := lawful.refl key
  have others : ∀ e ∈ m, Dict.hasKey ty key e = false := by
    intro e mem
    simpa using List.find?_eq_none.mp absent e mem
  rw [List.map_cons, Dict.setVal, if_pos hit]
  exact congrArg _ (map_ite_of_none others _)

/-- `dictAddRaw` followed by a store: the key has the value, and the answer says
whether it is new. -/
theorem Represents.addRaw_cases (rep : Represents ty d m) (lawful : ty.Lawful)
    (canResize : Bool) (few : d.dictSize < 2 ^ 61) (key : K) :
    ∃ d' ref, Dict.Points ty d' key ref ∧
      ((d.dictAddRaw ty canResize key = .ok (d', .existing (some ref)) ∧
          Represents ty d' m ∧ (m.find ty key).isSome = true ∧ d'.deref ref = m.find ty key) ∨
        (d.dictAddRaw ty canResize key = .ok (d', .new ref) ∧
          Represents ty d' (⟨key, none⟩ :: m) ∧ m.find ty key = none ∧
          d'.deref ref = some ⟨key, none⟩)) := by
  obtain ⟨d', ref, wf', points, ⟨added, perm⟩ | ⟨added, absent, perm⟩⟩ :=
    rep.wf.dictAddRaw_spec lawful canResize few key
  · have rep' : Represents ty d' m := ⟨wf', perm.trans rep.perm⟩
    obtain ⟨e, pointed, found⟩ := points.deref_eq wf' lawful
    rw [rep'.find_eq lawful] at found
    exact ⟨d', ref, points, .inl ⟨added, rep', by rw [found]; rfl, pointed.trans found.symm⟩⟩
  · have rep' : Represents ty d' (⟨key, none⟩ :: m) := ⟨wf', perm.trans (rep.perm.cons _)⟩
    obtain ⟨e, pointed, found⟩ := points.deref_eq wf' lawful
    have hit : Dict.hasKey ty key (⟨key, none⟩ : DictEntry K V) = true := lawful.refl key
    rw [rep'.find_eq lawful, PlainMap.find, List.find?_cons_of_pos hit] at found
    rw [rep.find_eq lawful] at absent
    exact ⟨d', ref, points, .inr ⟨added, rep', absent, pointed.trans found.symm⟩⟩

theorem Represents.setVal (rep : Represents ty d m) (lawful : ty.Lawful) {key : K}
    {ref : EntryRef} (points : Dict.Points ty d key ref) (v : V) :
    Represents ty (d.dictSetVal ref v) (m.map (Dict.setVal ty key v)) := by
  obtain ⟨wf', entries⟩ := points.dictSetVal_spec rep.wf lawful v
  exact ⟨wf', entries ▸ rep.perm.map _⟩

/-- What a search in a non-empty dictionary finds, after its rehash step. -/
theorem Represents.locate_cases (rep : Represents ty d m) (lawful : ty.Lawful) (key : K)
    (some_used : d.dictSize ≠ 0) :
    ∃ d', d.rehashStep ty = .ok d' ∧ Represents ty d' m ∧
      ((∃ ref, d'.locate ty key = .ok (.found ref) ∧ Dict.Points ty d' key ref ∧
          d'.deref ref = m.find ty key) ∨
        ∃ idx, d'.locate ty key = .ok (.missing idx) ∧ m.find ty key = none) := by
  obtain ⟨d', stepped, wf', perm⟩ := rep.wf.rehashStep_spec lawful
  have rep' : Represents ty d' m := ⟨wf', perm.trans rep.perm⟩
  have alloc : d'.ht0.table ≠ [] := by
    apply wf'.alloc_of_dictSize
    rw [wf'.dictSize_eq, perm.length_eq, ← rep.wf.dictSize_eq]
    exact some_used
  refine ⟨d', stepped, rep', ?_⟩
  rcases wf'.locate_spec lawful alloc key with ⟨ref, located, points⟩ | ⟨located, absent⟩
  · obtain ⟨e, pointed, found⟩ := points.deref_eq wf' lawful
    rw [rep'.find_eq lawful] at found
    exact .inl ⟨ref, located, points, pointed.trans found.symm⟩
  · rw [rep'.find_eq lawful] at absent
    exact .inr ⟨_, located, absent⟩

theorem Represents.delete (rep : Represents ty d m) (lawful : ty.Lawful) (key : K) :
    ∃ d', d.dictGenericDelete ty key = .ok (d', m.find ty key) ∧
      Represents ty d' (m.eraseP (Dict.hasKey ty key)) := by
  unfold Dict.dictGenericDelete
  split
  · rename_i none_used
    have size : d.dictSize = 0 := by
      unfold Dict.dictSize
      omega
    have empty : m = [] := by
      apply List.eq_nil_of_length_eq_zero
      rw [← rep.perm.length_eq, ← rep.wf.dictSize_eq, size]
    subst empty
    exact ⟨d, rfl, rep⟩
  · rename_i some_used
    have size : d.dictSize ≠ 0 := by
      unfold Dict.dictSize
      omega
    obtain ⟨d', stepped, rep', ⟨ref, located, points, pointed⟩ | ⟨idx, located, absent⟩⟩ :=
      rep.locate_cases lawful key size
    · obtain ⟨wf'', entries⟩ := points.unlink_spec rep'.wf lawful
      refine ⟨d'.unlink ref, ?_, wf'', ?_⟩
      · simp only [stepped, located, bind, Except.bind, pointed]
        rfl
      · rw [entries]
        exact rep'.perm.eraseP _ (rep'.wf.unique lawful key)
    · refine ⟨d', ?_, ?_⟩
      · simp only [stepped, located, bind, Except.bind, absent]
        rfl
      · rwa [List.eraseP_of_forall_not (List.find?_eq_none.mp absent)]

theorem Represents.lookup (rep : Represents ty d m) (lawful : ty.Lawful) (key : K) :
    ∃ d', d.dictFind ty key = .ok (d', m.find ty key) ∧ Represents ty d' m := by
  unfold Dict.dictFind
  split
  · rename_i none_used
    have empty : m = [] := by
      apply List.eq_nil_of_length_eq_zero
      rw [← rep.perm.length_eq, ← rep.wf.dictSize_eq, Dict.dictSize, none_used]
    subst empty
    exact ⟨d, rfl, rep⟩
  · rename_i some_used
    obtain ⟨d', stepped, rep', ⟨ref, located, points, pointed⟩ | ⟨idx, located, absent⟩⟩ :=
      rep.locate_cases lawful key some_used
    · refine ⟨d', ?_, rep'⟩
      simp only [stepped, located, bind, Except.bind, pointed]
      rfl
    · refine ⟨d', ?_, rep'⟩
      simp only [stepped, located, bind, Except.bind, absent]
      rfl

theorem Op.Legal.few {s : DictState K V} {op : Op K V} (legal : op.Legal s) :
    s.dict.dictSize < 2 ^ 61 := by
  cases op with
  | rehash n => exact legal.1
  | expand size => exact legal.1
  | _ => exact legal

/-- Every operation answers as the map does, and represents the map afterwards. -/
theorem Op.exec_refines (lawful : ty.Lawful) {s : DictState K V}
    (rep : Represents ty s.dict m) {op : Op K V} (legal : op.Legal s) :
    ∃ s', op.exec ty s = .ok (s', (PlainMap.exec ty m op).2) ∧
      Represents ty s'.dict (PlainMap.exec ty m op).1 := by
  have few := legal.few
  cases op with
  | add key v =>
      obtain ⟨d', ref, points, ⟨added, rep', present, _⟩ | ⟨added, rep', absent, _⟩⟩ :=
        rep.addRaw_cases lawful s.dictCanResize few key
      · refine ⟨{ s with dict := d' }, ?_, ?_⟩
        · simp only [Op.exec, Dict.dictAdd, added, bind, Except.bind, pure, Except.pure,
            PlainMap.exec, present, if_true]
        · simpa only [PlainMap.exec, present, if_true] using rep'
      · refine ⟨{ s with dict := d'.dictSetVal ref v }, ?_, ?_⟩
        · simp only [Op.exec, Dict.dictAdd, added, bind, Except.bind, pure, Except.pure,
            PlainMap.exec, absent, Option.isSome_none, Bool.false_eq_true, if_false]
        · have stored := rep'.setVal lawful points v
          rw [map_setVal_new lawful absent] at stored
          simpa only [PlainMap.exec, absent, Option.isSome_none, Bool.false_eq_true, if_false]
            using stored
  | replace key v =>
      obtain ⟨d', ref, points, ⟨added, rep', present, _⟩ | ⟨added, rep', absent, _⟩⟩ :=
        rep.addRaw_cases lawful s.dictCanResize few key
      · refine ⟨{ s with dict := d'.dictSetVal ref v }, ?_, ?_⟩
        · simp only [Op.exec, Dict.dictReplace, added, bind, Except.bind, pure, Except.pure,
            PlainMap.exec, present, if_true]
        · simpa only [PlainMap.exec, present, if_true] using rep'.setVal lawful points v
      · refine ⟨{ s with dict := d'.dictSetVal ref v }, ?_, ?_⟩
        · simp only [Op.exec, Dict.dictReplace, added, bind, Except.bind, pure, Except.pure,
            PlainMap.exec, absent, Option.isSome_none, Bool.false_eq_true, if_false]
        · have stored := rep'.setVal lawful points v
          rw [map_setVal_new lawful absent] at stored
          simpa only [PlainMap.exec, absent, Option.isSome_none, Bool.false_eq_true, if_false]
            using stored
  | addOrFind key =>
      obtain ⟨d', ref, points, ⟨added, rep', present, pointed⟩ | ⟨added, rep', absent, pointed⟩⟩ :=
        rep.addRaw_cases lawful s.dictCanResize few key
      · obtain ⟨e, found⟩ := Option.isSome_iff_exists.mp present
        refine ⟨{ s with dict := d' }, ?_, ?_⟩
        · simp only [Op.exec, Dict.dictAddOrFind, added, bind, Except.bind, pure, Except.pure,
            PlainMap.exec, pointed, found]
        · simpa only [PlainMap.exec, found] using rep'
      · refine ⟨{ s with dict := d' }, ?_, ?_⟩
        · simp only [Op.exec, Dict.dictAddOrFind, added, bind, Except.bind, pure, Except.pure,
            PlainMap.exec, pointed, absent]
        · simpa only [PlainMap.exec, absent] using rep'
  | delete key =>
      obtain ⟨d', deleted, rep'⟩ := rep.delete lawful key
      refine ⟨{ s with dict := d' }, ?_, rep'⟩
      simp only [Op.exec, Dict.dictDelete, deleted, bind, Except.bind, pure, Except.pure,
        PlainMap.exec]
  | unlink key =>
      obtain ⟨d', deleted, rep'⟩ := rep.delete lawful key
      refine ⟨{ s with dict := d' }, ?_, rep'⟩
      simp only [Op.exec, deleted, bind, Except.bind, pure, Except.pure, PlainMap.exec]
  | find key =>
      obtain ⟨d', found, rep'⟩ := rep.lookup lawful key
      refine ⟨{ s with dict := d' }, ?_, rep'⟩
      simp only [Op.exec, found, bind, Except.bind, pure, Except.pure, PlainMap.exec]
  | fetchValue key =>
      obtain ⟨d', found, rep'⟩ := rep.lookup lawful key
      refine ⟨{ s with dict := d' }, ?_, rep'⟩
      simp only [Op.exec, Dict.dictFetchValue, found, bind, Except.bind, pure, Except.pure,
        PlainMap.exec]
  | expand size =>
      obtain ⟨wf', entries, _⟩ := rep.wf.dictExpand_spec size
      exact ⟨_, rfl, wf', entries ▸ rep.perm⟩
  | resize =>
      obtain ⟨wf', entries, _⟩ := rep.wf.dictResize_spec s.dictCanResize
      exact ⟨_, rfl, wf', entries ▸ rep.perm⟩
  | rehash n =>
      obtain ⟨d', more, rehashed, wf', perm, _⟩ := rep.wf.dictRehash_spec lawful n
      refine ⟨{ s with dict := d' }, ?_, wf', perm.trans rep.perm⟩
      simp only [Op.exec, rehashed, bind, Except.bind, pure, Except.pure, PlainMap.exec]
  | enableResize => exact ⟨_, rfl, rep⟩
  | disableResize => exact ⟨_, rfl, rep⟩
  | empty => exact ⟨_, rfl, .create, .refl _⟩

/-- Along every run the dictionary represents the map. -/
theorem run_represents (lawful : ty.Lawful) {ops : List (Op K V)} {s : DictState K V}
    (run : (dictSys ty).Run ops s) : Represents ty s.dict (PlainMap.after ty ops) := by
  refine run.invariant (I := fun ops s => Represents ty s.dict (PlainMap.after ty ops)) ?_ ?_
  · rintro s rfl
    exact ⟨.create, .refl _⟩
  · rintro ops s op s' _ rep ⟨legal, reply, executed⟩
    obtain ⟨s'', executed', rep'⟩ := Op.exec_refines lawful rep legal
    rw [executed] at executed'
    obtain ⟨rfl, _⟩ := Prod.ext_iff.mp (Except.ok.inj executed')
    rw [PlainMap.after_snoc]
    exact rep'

/-- **Refinement of a finite map.** After any sequence of operations from
`_dictCreate`, the size is that of the map and every further call returns with
the answer of the map. -/
theorem dict_refines_map (lawful : ty.Lawful) {ops : List (Op K V)} {s : DictState K V}
    (run : (dictSys ty).Run ops s) :
    s.dict.dictSize = (PlainMap.after ty ops).length ∧
      ∀ op : Op K V, op.Legal s →
        ∃ s', op.exec ty s = .ok (s', (PlainMap.exec ty (PlainMap.after ty ops) op).2) := by
  have rep := run_represents lawful run
  refine ⟨?_, ?_⟩
  · rw [rep.wf.dictSize_eq, rep.perm.length_eq]
  · intro op legal
    obtain ⟨s', executed, _⟩ := Op.exec_refines lawful rep legal
    exact ⟨s', executed⟩

end Refinement

/-- Numbers as keys, hashed to their low bits. -/
def natType : DictType Nat := ⟨BitVec.ofNat 64, fun a b => a == b⟩

theorem natType_keyCompare (a b : Nat) : natType.keyCompare a b = true ↔ a = b := by
  simp [natType]

theorem natType_lawful : natType.Lawful := by
  constructor
  · intro a
    exact (natType_keyCompare a a).mpr rfl
  · intro a b
    rw [natType_keyCompare, natType_keyCompare]
    exact Eq.symm
  · intro a b c
    rw [natType_keyCompare, natType_keyCompare, natType_keyCompare]
    exact Eq.trans
  · intro a b
    rw [natType_keyCompare]
    exact congrArg _

/-- Two colliding keys: the second `dictAdd` does not hide the first. -/
theorem dict_refines_map_collision :
    ∃ s s', (dictSys natType).Run [.add 1 10, .add 5 50] s ∧ s.dict.dictSize = 2 ∧
      Op.exec natType s (.fetchValue 1) = .ok (s', .value (some (some 10))) := by
  have run₀ : (dictSys natType).Run [] (⟨dictCreate, true⟩ : DictState Nat Nat) := .init rfl
  have legal₀ : (Op.add 1 10).Legal (⟨dictCreate, true⟩ : DictState Nat Nat) := by
    show 0 < 2 ^ 61
    decide
  obtain ⟨s₁, executed₁⟩ := (dict_refines_map natType_lawful run₀).2 _ legal₀
  have run₁ : (dictSys natType).Run [.add 1 10] s₁ := .step run₀ ⟨legal₀, _, executed₁⟩
  have legal₁ : (Op.add 5 50).Legal s₁ := by
    show s₁.dict.dictSize < 2 ^ 61
    rw [(dict_refines_map natType_lawful run₁).1]
    decide
  obtain ⟨s₂, executed₂⟩ := (dict_refines_map natType_lawful run₁).2 _ legal₁
  have run₂ : (dictSys natType).Run [.add 1 10, .add 5 50] s₂ :=
    .step run₁ ⟨legal₁, _, executed₂⟩
  have size₂ : s₂.dict.dictSize = 2 := (dict_refines_map natType_lawful run₂).1
  have legal₂ : (Op.fetchValue 1 : Op Nat Nat).Legal s₂ := by
    show s₂.dict.dictSize < 2 ^ 61
    rw [size₂]
    decide
  obtain ⟨s₃, executed₃⟩ := (dict_refines_map natType_lawful run₂).2 _ legal₂
  exact ⟨s₂, s₃, run₂, size₂, executed₃⟩

end GpBase.Dictionary

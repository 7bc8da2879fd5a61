import GpBase.Codec.Stream
import GpBase.Dictionary.Map
import GpBase.Hash.Siphash
import GpBase.Lib.Outcome

/-!
# The registries behind `on_message`

`pb_map` of `gp_codec.c` and `callback_map` of `gp_msg_dispatcher.c` are dictionaries of the
type `StringDictType`; a lookup in one of them may move entries between its tables. What
`on_message` does with them is what it does with two lists of registrations, of which the
first one of a name counts.
-/

namespace GpBase.Ipc

open GpBase.Lib GpBase.Buffer GpBase.Codec GpBase.Dictionary GpBase.Hash

/-! ## The functions -/

/-- `compareCallbackString`. -/
def compareCallbackString (a b : CString) : Bool :=
  if a.bytes.length ≠ b.bytes.length then false else a.bytes == b.bytes

/-- `StringDictType`, with `dict_hash_function_seed`; `siphash` never leaves the string. -/
def stringDictType (seed : SipKey) : DictType CString where
  hashFunction key := (siphash key.bytes seed).getD 0
  keyCompare := compareCallbackString

/-- The global variables behind `on_message`. -/
structure Registries (pb : ProtobufC) (Callback : Type) where
  pbMap : Dict CString pb.Desc
  callbackMap : Dict CString Callback
  dictCanResize : Bool

section

variable {pb : ProtobufC} {Callback V : Type} (seed : SipKey)

/-- `dictFetchValue` on a map of pointers: `none` for `NULL`. -/
def fetch (d : Dict CString V) (name : CString) : Except Fault (Dict CString V × Option V) := do
  let (d, v) ← d.dictFetchValue (stringDictType seed) name
  return (d, v.join)

/-- `decode` with the lookup in `pb_map` that it makes. -/
def decodeIn (d : Dict CString pb.Desc) (b : GpBuffer) :
    Except Fault (Dict CString pb.Desc × GpBuffer × Option pb.Msg) := do
  let magic ← b.peekInt32
  if magic ≠ magicNumber then
    return (d, b.retrieveAll, none)
  else
    let be ← b.peekAt 4 4
    let len := beInt be
    if len > 65536 ∨ len < 0 then
      return (d, b.retrieveAll, none)
    else if sizeT (len + 8) ≤ b.readableBytes then
      let b := b.retrieve 8
      let (b, nameLen) ← b.readInt32
      let (b, name) ← b.readStr nameLen
      let (d, desc) ← fetch seed d (.ofBytes name)
      match desc with
      | none => return (d, b.retrieveAll, none)
      | some desc => do
        let r ← b.readPbMsg (pb.unpack desc) (int32 (len - 4 - nameLen))
        return (d, r)
    else
      return (d, b, none)

/-- `on_message` with the lookups in both maps. -/
def onMessageIn (r : Registries pb Callback) (b : GpBuffer) :
    Except Fault (Registries pb Callback × GpBuffer × Option (Dispatch pb Callback)) := do
  if 8 ≤ b.readableBytes then
    let (d, b, msg) ← decodeIn seed r.pbMap b
    let r := { r with pbMap := d }
    match msg with
    | none => return (r, b, none)
    | some msg =>
      let (d, cb) ← fetch seed r.callbackMap (pb.name (pb.descriptor msg))
      return ({ r with callbackMap := d }, b, some { callback := cb, msg := msg })
  else
    return (r, b, none)

/-! ## A process -/

/-- The registries and a receiver that uses them. -/
structure Node (pb : ProtobufC) (Callback : Type) where
  registries : Registries pb Callback
  receiver : Receiver pb Callback

inductive NodeOp (pb : ProtobufC) (Callback : Type)
  | registerNamePbMap (name : CString) (desc : pb.Desc)
  | registerMsgCallback (name : CString) (callback : Callback)
  | /-- `dictEnableResize` and `dictDisableResize` -/ canResize (on : Bool)
  | append (chunk : List UInt8)
  | onMessage

def Node.exec (junk : Nat → UInt8) (s : Node pb Callback) :
    NodeOp pb Callback → Except Fault (Node pb Callback)
  | .registerNamePbMap name desc => do
    let (d, _) ← s.registries.pbMap.dictAdd (stringDictType seed) s.registries.dictCanResize name
      desc
    return { s with registries := { s.registries with pbMap := d } }
  | .registerMsgCallback name callback => do
    let (d, _) ← s.registries.callbackMap.dictAdd (stringDictType seed)
      s.registries.dictCanResize name callback
    return { s with registries := { s.registries with callbackMap := d } }
  | .canResize on => return { s with registries := { s.registries with dictCanResize := on } }
  | .append chunk => do
    let b ← s.receiver.buffer.bufferAppend junk chunk
    return { s with receiver := { s.receiver with buffer := b } }
  | .onMessage => do
    let (r, b, out) ← onMessageIn seed s.registries s.receiver.buffer
    return ⟨r, b, s.receiver.dispatched ++ out.toList⟩

/-- A process before anything is registered. -/
def Node.init (junk : Nat → UInt8) : Node pb Callback where
  registries := ⟨dictCreate, dictCreate, true⟩
  receiver := ⟨.initGpBuffer junk, []⟩

def Node.run (junk : Nat → UInt8) (ops : List (NodeOp pb Callback)) :
    Except Fault (Node pb Callback) :=
  ops.foldlM (Node.exec seed junk) (Node.init junk)

/-! ## Lists of registrations -/

/-- The first registration of a name counts. -/
def firstOf (regs : List (CString × V)) (name : CString) : Option V :=
  (regs.find? (·.1 = name)).map (·.2)

/-- What has been registered, and a receiver that looks it up. -/
structure Ledger (pb : ProtobufC) (Callback : Type) where
  types : List (CString × pb.Desc)
  callbacks : List (CString × Callback)
  receiver : Receiver pb Callback

def Ledger.exec (junk : Nat → UInt8) (t : Ledger pb Callback) :
    NodeOp pb Callback → Except Fault (Ledger pb Callback)
  | .registerNamePbMap name desc => .ok { t with types := t.types ++ [(name, desc)] }
  | .registerMsgCallback name callback =>
    .ok { t with callbacks := t.callbacks ++ [(name, callback)] }
  | .canResize _ => .ok t
  | .append chunk => do
    let r ← t.receiver.step junk (firstOf t.types) (firstOf t.callbacks) (.append chunk)
    return { t with receiver := r }
  | .onMessage => do
    let r ← t.receiver.step junk (firstOf t.types) (firstOf t.callbacks) .onMessage
    return { t with receiver := r }

def Ledger.run (junk : Nat → UInt8) (ops : List (NodeOp pb Callback)) :
    Except Fault (Ledger pb Callback) :=
  ops.foldlM (Ledger.exec junk) ⟨[], [], ⟨.initGpBuffer junk, []⟩⟩

end

/-! ## Strings as keys -/

theorem compareCallbackString_iff (a b : CString) : compareCallbackString a b = true ↔ a = b := by
  obtain ⟨a, _⟩ := a
  obtain ⟨b, _⟩ := b
  simp only [compareCallbackString, CString.mk.injEq]
  constructor
  · intro equal
    split at equal
    · cases equal
    · exact eq_of_beq equal
  · intro same
    subst same
    simp

theorem stringDictType_lawful (seed : SipKey) : (stringDictType seed).Lawful where
  refl a := (compareCallbackString_iff a a).mpr rfl
  symm a b equal :=
    (compareCallbackString_iff b a).mpr ((compareCallbackString_iff a b).mp equal).symm
  trans a b c first second := (compareCallbackString_iff a c).mpr
    (((compareCallbackString_iff a b).mp first).trans ((compareCallbackString_iff b c).mp second))
  hash a b equal := by
    rw [(compareCallbackString_iff a b).mp equal]

/-! ## One map -/

section Map

variable {V : Type} {seed : SipKey} {d : Dict CString V} {regs : List (CString × V)}

theorem firstOf_snoc (regs : List (CString × V)) (name : CString) (v : V) (other : CString) :
    firstOf (regs ++ [(name, v)]) other =
      (firstOf regs other).or (if name = other then some v else none) := by
  unfold firstOf
  rw [List.find?_append]
  cases regs.find? (·.1 = other) with
  | some reg => rfl
  | none =>
      by_cases same : name = other
      · simp [same]
      · simp [same]

/-- A map holds the first registration of each name. -/
def Records (seed : SipKey) (regs : List (CString × V)) (d : Dict CString V) : Prop :=
  ∃ m : PlainMap CString V, Represents (stringDictType seed) d m ∧ m.length ≤ regs.length ∧
    ∀ name, m.find (stringDictType seed) name = (firstOf regs name).map fun v => ⟨name, some v⟩

theorem Records.create (seed : SipKey) : Records seed [] (dictCreate : Dict CString V) :=
  ⟨[], ⟨.create, .refl _⟩, le_refl _, fun _ => rfl⟩

/-- `dictAdd` of a registration. -/
theorem Records.add (records : Records seed regs d) (few : regs.length < 2 ^ 61)
    (canResize : Bool) (name : CString) (v : V) :
    ∃ d' new, d.dictAdd (stringDictType seed) canResize name v = .ok (d', new) ∧
      Records seed (regs ++ [(name, v)]) d' := by
  obtain ⟨m, rep, count, finds⟩ := records
  have size : d.dictSize < 2 ^ 61 := by
    rw [rep.wf.dictSize_eq, rep.perm.length_eq]
    omega
  have legal : (Op.add name v).Legal ⟨d, canResize⟩ := size
  obtain ⟨s', executed, rep'⟩ := Op.exec_refines (stringDictType_lawful seed) rep legal
  obtain ⟨⟨d', new⟩, added, last⟩ := bind_eq_ok executed
  obtain ⟨same, _⟩ := Prod.mk.inj (Except.ok.inj last)
  subst same
  refine ⟨d', _, added, _, rep', ?_, ?_⟩
  · rw [List.length_append, List.length_singleton, PlainMap.exec]
    split
    · show m.length ≤ _
      omega
    · show m.length + 1 ≤ _
      omega
  · intro other
    rw [firstOf_snoc, PlainMap.exec]
    cases known : firstOf regs name with
    | some v' =>
        -- the name has been registered before
        rw [finds name, known]
        show m.find _ other = _
        rw [finds other]
        by_cases same : name = other
        · rw [← same, known]
          rfl
        · rw [if_neg same, Option.or_none]
    | none =>
        rw [finds name, known]
        show List.find? _ (⟨name, some v⟩ :: m) = _
        by_cases same : name = other
        · subst same
          have hit : Dict.hasKey (stringDictType seed) name
              (⟨name, some v⟩ : DictEntry CString V) = true :=
            (compareCallbackString_iff name name).mpr rfl
          rw [List.find?_cons_of_pos hit, known, if_pos rfl]
          rfl
        · have apart : ¬ Dict.hasKey (stringDictType seed) other
              (⟨name, some v⟩ : DictEntry CString V) = true := by
            intro equal
            exact same ((compareCallbackString_iff other name).mp equal).symm
          rw [List.find?_cons_of_neg apart, if_neg same, Option.or_none]
          exact finds other

/-- A lookup finds the first registration. -/
theorem Records.fetch (records : Records seed regs d) (name : CString) :
    ∃ d', fetch seed d name = .ok (d', firstOf regs name) ∧ Records seed regs d' := by
  obtain ⟨m, rep, count, finds⟩ := records
  obtain ⟨d', found, rep'⟩ := rep.lookup (stringDictType_lawful seed) name
  refine ⟨d', ?_, m, rep', count, finds⟩
  rw [Ipc.fetch, Dict.dictFetchValue, found, finds]
  cases firstOf regs name <;> rfl

end Map

/-! ## Decoding -/

section Decoding

variable {pb : ProtobufC} {Callback : Type} {seed : SipKey}

theorem decodeIn_lockstep {d : Dict CString pb.Desc} {types : List (CString × pb.Desc)}
    (records : Records seed types d) (b : GpBuffer) :
    Lockstep (Records seed types) (decodeIn seed d b)
      (@decode pb (firstOf types) b) := by
  unfold decodeIn decode
  apply Lockstep.shared
  intro magic
  split
  · exact .ok records _
  apply Lockstep.shared
  intro be
  dsimp only
  split
  · exact .ok records _
  split
  · apply Lockstep.shared
    intro (b, nameLen)
    apply Lockstep.shared
    intro (b, name)
    obtain ⟨d', fetched, records'⟩ := records.fetch (.ofBytes name)
    dsimp only
    rw [fetched]
    cases firstOf types (.ofBytes name) with
    | none => exact .ok records' _
    | some desc =>
        show Lockstep _ (b.readPbMsg _ _ >>= fun r => pure (d', r)) (b.readPbMsg _ _)
        exact .keep records' _
  · exact .ok records _

/-- The registries hold what has been registered. -/
structure Registries.Hold (seed : SipKey) (types : List (CString × pb.Desc))
    (callbacks : List (CString × Callback)) (r : Registries pb Callback) : Prop where
  types : Records seed types r.pbMap
  callbacks : Records seed callbacks r.callbackMap

theorem onMessageIn_lockstep {r : Registries pb Callback} {types : List (CString × pb.Desc)}
    {callbacks : List (CString × Callback)} (hold : r.Hold seed types callbacks) (b : GpBuffer) :
    Lockstep (Registries.Hold seed types callbacks) (onMessageIn seed r b)
      (onMessage (firstOf types) (firstOf callbacks) b) := by
  unfold onMessageIn onMessage
  split
  · apply (decodeIn_lockstep hold.types b).bind
    intro d (b, msg) records
    cases msg with
    | none => exact .ok ⟨records, hold.callbacks⟩ _
    | some msg =>
        obtain ⟨d', fetched, records'⟩ := hold.callbacks.fetch (pb.name (pb.descriptor msg))
        dsimp only
        rw [fetched]
        exact .ok ⟨records, records'⟩ _
  · exact .ok hold _

end Decoding

/-! ## The whole process -/

section Process

variable {pb : ProtobufC} {Callback : Type} {seed : SipKey} (junk : Nat → UInt8)

/-- The two processes have the same receiver, and the registries hold the registrations. -/
structure Agrees (seed : SipKey) (s : Node pb Callback) (t : Ledger pb Callback) : Prop where
  hold : s.registries.Hold seed t.types t.callbacks
  receiver : s.receiver = t.receiver

/-- Two calls end in the same fault, or in states that agree. -/
def Agree (seed : SipKey) (m : Except Fault (Node pb Callback))
    (m' : Except Fault (Ledger pb Callback)) : Prop :=
  (∃ fault, m = .error fault ∧ m' = .error fault) ∨
    ∃ s t, m = .ok s ∧ m' = .ok t ∧ Agrees seed s t

/-- One operation; each map grows by at most one name. -/
theorem Agrees.exec {s : Node pb Callback} {t : Ledger pb Callback} (agrees : Agrees seed s t)
    (few : t.types.length + t.callbacks.length < 2 ^ 61) (op : NodeOp pb Callback) :
    Agree seed (s.exec seed junk op) (t.exec junk op) := by
  obtain ⟨r, receiver⟩ := s
  obtain ⟨types, callbacks, receiver'⟩ := t
  obtain ⟨hold, same⟩ := agrees
  cases same
  cases op with
  | registerNamePbMap name desc =>
      obtain ⟨d', new, added, records⟩ :=
        hold.types.add (show types.length < _ by dsimp only at few; omega) r.dictCanResize name desc
      refine .inr ⟨⟨{ r with pbMap := d' }, receiver⟩, _, ?_, rfl, ⟨records, hold.callbacks⟩, rfl⟩
      simp only [Node.exec, added, bind, Except.bind]
      rfl
  | registerMsgCallback name callback =>
      obtain ⟨d', new, added, records⟩ := hold.callbacks.add
        (show callbacks.length < _ by dsimp only at few; omega) r.dictCanResize name callback
      refine .inr ⟨⟨{ r with callbackMap := d' }, receiver⟩, _, ?_, rfl, ⟨hold.types, records⟩, rfl⟩
      simp only [Node.exec, added, bind, Except.bind]
      rfl
  | canResize on => exact .inr ⟨_, _, rfl, rfl, ⟨hold.types, hold.callbacks⟩, rfl⟩
  | append chunk =>
      simp only [Node.exec, Ledger.exec, Receiver.step]
      cases receiver.buffer.bufferAppend junk chunk with
      | error fault => exact .inl ⟨fault, rfl, rfl⟩
      | ok b => exact .inr ⟨_, _, rfl, rfl, hold, rfl⟩
  | onMessage =>
      simp only [Node.exec, Ledger.exec, Receiver.step]
      obtain ⟨fault, failed, failed'⟩ | ⟨r', out, returned, returned', hold'⟩ :=
        onMessageIn_lockstep hold receiver.buffer
      · rw [failed, failed']
        exact .inl ⟨fault, rfl, rfl⟩
      · rw [returned, returned']
        exact .inr ⟨_, _, rfl, rfl, hold', rfl⟩

/-- A map has no more names than there have been operations. -/
theorem Ledger.exec_length {t t' : Ledger pb Callback} {op : NodeOp pb Callback}
    (ran : t.exec junk op = .ok t') :
    t'.types.length + t'.callbacks.length ≤ t.types.length + t.callbacks.length + 1 := by
  cases op with
  | registerNamePbMap name desc =>
      cases ran
      simp only [List.length_append, List.length_singleton]
      omega
  | registerMsgCallback name callback =>
      cases ran
      simp only [List.length_append, List.length_singleton]
      omega
  | canResize on =>
      cases ran
      omega
  | append chunk =>
      obtain ⟨r, _, last⟩ := bind_eq_ok ran
      cases last
      exact Nat.le_succ _
  | onMessage =>
      obtain ⟨r, _, last⟩ := bind_eq_ok ran
      cases last
      exact Nat.le_succ _

theorem Agrees.run (ops : List (NodeOp pb Callback)) :
    ∀ {s : Node pb Callback} {t : Ledger pb Callback}, Agrees seed s t →
      t.types.length + t.callbacks.length + ops.length < 2 ^ 61 →
      Agree seed (ops.foldlM (Node.exec seed junk) s) (ops.foldlM (Ledger.exec junk) t) := by
  induction ops with
  | nil =>
      intro s t agrees _
      exact .inr ⟨s, t, rfl, rfl, agrees⟩
  | cons op ops ih =>
      intro s t agrees few
      rw [List.length_cons] at few
      rw [List.foldlM_cons, List.foldlM_cons]
      obtain ⟨fault, failed, failed'⟩ | ⟨s', t', ran, ran', agrees'⟩ :=
        agrees.exec junk (by omega) op
      · rw [failed, failed']
        exact .inl ⟨fault, rfl, rfl⟩
      · have length := Ledger.exec_length junk ran'
        rw [ran, ran']
        exact ih agrees' (by omega)

/-- **The registries are lists of registrations.** Whatever is registered and received, in any
order, and whatever the resize policy is: a process whose lookups go through the two hash
tables ends in the same fault, or with the same input buffer and the same dispatches, as one
that looks the names up in lists, where the first registration of a name counts. -/
theorem registries_refine (ops : List (NodeOp pb Callback)) (few : ops.length < 2 ^ 61) :
    (∃ fault, Node.run seed junk ops = .error fault ∧ Ledger.run junk ops = .error fault) ∨
      ∃ s t, Node.run seed junk ops = .ok s ∧ Ledger.run junk ops = .ok t ∧
        s.receiver = t.receiver ∧
        ∀ name, (∃ d, fetch seed s.registries.pbMap name = .ok (d, firstOf t.types name)) ∧
          ∃ d, fetch seed s.registries.callbackMap name = .ok (d, firstOf t.callbacks name) := by
  have fresh : Agrees seed (Node.init junk : Node pb Callback)
      ⟨[], [], ⟨.initGpBuffer junk, []⟩⟩ := ⟨⟨.create seed, .create seed⟩, rfl⟩
  obtain failed | ⟨s, t, ran, ran', agrees⟩ := fresh.run junk ops (by simpa using few)
  · exact .inl failed
  · refine .inr ⟨s, t, ran, ran', agrees.receiver, fun name => ?_⟩
    obtain ⟨d, types, _⟩ := agrees.hold.types.fetch name
    obtain ⟨d', callbacks, _⟩ := agrees.hold.callbacks.fetch name
    exact ⟨⟨d, types⟩, ⟨d', callbacks⟩⟩

end Process

/-- `dict_hash_function_seed` is never set. -/
def zeroSeed : SipKey := ⟨List.replicate 16 0, rfl⟩

/-- Four other types are registered and then `Ping`, for which the table of types has to grow;
two callbacks are registered for it, and a `Ping` arrives. -/
def growingOps : List (NodeOp pingProto Nat) :=
  [.registerNamePbMap ⟨[65], by decide⟩ (), .registerNamePbMap ⟨[66], by decide⟩ (),
    .registerNamePbMap ⟨[67], by decide⟩ (), .registerNamePbMap ⟨[68], by decide⟩ (),
    .registerNamePbMap (pingProto.name ()) (), .registerMsgCallback (pingProto.name ()) 1,
    .registerMsgCallback (pingProto.name ()) 2, .append (twoPings.take 19), .onMessage]

/-- The type is found in the middle of a rehash, and the first callback is called. -/
theorem registries_refine_growing :
    ∃ s : Node pingProto Nat, Node.run zeroSeed (fun _ => 0) growingOps = .ok s ∧
      s.registries.pbMap.rehashidx.isSome = true ∧
      s.receiver.dispatched.map (fun d => (d.callback, d.msg)) = [(some 1, (5 : Fin 128))] := by
  have served : (Ledger.run (fun _ => 0) growingOps).toOption.map (fun t : Ledger pingProto Nat =>
      t.receiver.dispatched.map fun d => (d.callback, (d.msg : Fin 128))) =
        some [(some 1, (5 : Fin 128))] := by decide +kernel
  have moving : (Node.run zeroSeed (fun _ => 0) growingOps).toOption.map
      (fun s : Node pingProto Nat => s.registries.pbMap.rehashidx.isSome) = some true := by
    decide +kernel
  obtain ⟨fault, _, failed⟩ | ⟨s, t, ran, ran', same, _⟩ :=
    @registries_refine pingProto Nat zeroSeed (fun _ => 0) growingOps (by decide)
  · rw [failed] at served
    cases served
  · rw [ran] at moving
    rw [ran'] at served
    refine ⟨s, ran, Option.some.inj moving, ?_⟩
    rw [same]
    exact Option.some.inj served

end GpBase.Ipc

import GpBase.Conn.Output
import GpBase.Event.Registration
import GpBase.Lib.Outcome

/-!
# Interest in writing

A connection asks for `POLLOUT` exactly while its output buffer has bytes: the
flag and the buffer are changed in three functions, always together. A deferred
`run_in_loop_shutdown` may therefore trust the flag.
-/

namespace GpBase.Event

theorem Epoller.updateHandler_events (e : Epoller) (h : Handler) :
    (e.updateHandler h).2.events = h.events := by
  rcases e.updateHandler_cases h with
    ⟨_, _, _, same⟩ | ⟨_, _, ⟨_, _, same⟩ | ⟨_, _, same⟩⟩ <;> rw [same]

theorem Epoller.enableWriting_isWriting (e : Epoller) (h : Handler) :
    (e.enableWriting h).2.isWriting = true := by
  have events : (e.enableWriting h).2.events = h.events ||| kwriteEvent :=
    e.updateHandler_events _
  have bit : (h.events ||| kwriteEvent) &&& kwriteEvent = kwriteEvent := by
    rw [BitVec.and_or_distrib_right, BitVec.and_self]
    ext i
    simp only [BitVec.getElem_or, BitVec.getElem_and]
    cases kwriteEvent[i] <;> simp
  simp only [Handler.isWriting, events, bit]
  decide

theorem Epoller.disableWriting_isWriting (e : Epoller) (h : Handler) :
    (e.disableWriting h).2.isWriting = false := by
  have events : (e.disableWriting h).2.events = h.events &&& ~~~kwriteEvent :=
    e.updateHandler_events _
  have bit : h.events &&& ~~~kwriteEvent &&& kwriteEvent = 0 := by
    rw [BitVec.and_assoc, BitVec.and_comm (~~~kwriteEvent), BitVec.and_not_self]
    exact BitVec.and_zero
  simp [Handler.isWriting, events, bit]

end GpBase.Event

namespace GpBase.Conn

open GpBase.Lib GpBase.Buffer GpBase.Event

section Steps

variable {c c' : GpConnection}

/-- All but the bytes on the wire is the same. -/
structure SameButWire (c c' : GpConnection) : Prop where
  state : c'.state = c.state
  handler : c'.handler = c.handler
  outputBuffer : c'.outputBuffer = c.outputBuffer
  epoller : c'.epoller = c.epoller
  shutdownWr : c'.shutdownWr = c.shutdownWr

theorem SameButWire.write (c : GpConnection) (bytes : List UInt8) (w : WriteResult) :
    SameButWire c (c.write bytes w).1 := by
  cases w with
  | wrote n => exact ⟨rfl, rfl, rfl, rfl, rfl⟩
  | error errno => exact ⟨rfl, rfl, rfl, rfl, rfl⟩

theorem SameButWire.refl (c : GpConnection) : SameButWire c c := ⟨rfl, rfl, rfl, rfl, rfl⟩

/-- `conn_send_in_loop` queues something at the end or leaves buffer and handler alone. -/
theorem GpConnection.connSendInLoop_cases {junk : Nat → UInt8} {w : WriteResult}
    {msg : List UInt8} (sent : c.connSendInLoop junk w msg = .ok c') :
    SameButWire c c' ∨
    ∃ c₁ rest, SameButWire c c₁ ∧ rest ≠ [] ∧ c₁.queueRemaining junk rest = .ok c' := by
  unfold GpConnection.connSendInLoop at sent
  split at sent
  · cases sent
    exact .inl (.refl c)
  set direct : Bool := !c.handler.isWriting && decide (c.outputBuffer.readableBytes = 0)
  obtain ⟨c₁, n, wrote, same⟩ : ∃ c₁ n,
      (if direct = true then c.write msg w else (c, 0)) = (c₁, n) ∧ SameButWire c c₁ := by
    by_cases d : direct = true
    · rw [if_pos d]
      exact ⟨_, _, rfl, .write c msg w⟩
    · rw [if_neg d]
      exact ⟨_, _, rfl, .refl c⟩
  simp only [wrote] at sent
  by_cases goesOn : (!(direct && faultError w) &&
      decide (0 < if 0 ≤ n then msg.length - n.toNat else msg.length)) = true
  · rw [if_pos goesOn] at sent
    refine .inr ⟨c₁, _, same, fun empty => ?_, sent⟩
    have left := of_decide_eq_true ((Bool.and_eq_true _ _).mp goesOn).2
    have gone := List.drop_eq_nil_iff.mp empty
    by_cases ok : 0 ≤ n
    · rw [if_pos ok] at left gone
      omega
    · rw [if_neg ok] at left gone
      omega
  · rw [if_neg goesOn] at sent
    cases sent
    exact .inl same

/-- What the end of `conn_send_in_loop` does. -/
theorem GpConnection.queueRemaining_cases {junk : Nat → UInt8} {rest : List UInt8}
    (wf : c.outputBuffer.WF) (queued : c.queueRemaining junk rest = .ok c') :
    ∃ b, b.WF ∧ b.readable = c.outputBuffer.readable ++ rest ∧
      c' = if c.handler.isWriting then { c with outputBuffer := b }
        else GpConnection.enableWriting { c with outputBuffer := b } := by
  obtain ⟨b, appended, wf', back⟩ := wf.bufferAppend_spec junk rest
  simp only [GpConnection.queueRemaining, appended, bind, Except.bind, pure, Except.pure,
    Except.ok.injEq] at queued
  refine ⟨b, wf', back, ?_⟩
  rw [← queued]
  by_cases writing : c.handler.isWriting <;> simp [writing]

/-- `connection_handler_write` takes bytes from the front, and gives up its
interest when none are left. -/
theorem GpConnection.connectionHandlerWrite_cases {w : WriteResult} (wf : c.outputBuffer.WF)
    (written : c.connectionHandlerWrite w = .ok c') :
    SameButWire c c' ∨
    ∃ c₁ n, SameButWire c c₁ ∧ c' = if (c.outputBuffer.retrieve n).readable = []
        then GpConnection.outputDrained { c₁ with outputBuffer := c.outputBuffer.retrieve n }
        else { c₁ with outputBuffer := c.outputBuffer.retrieve n } := by
  unfold GpConnection.connectionHandlerWrite at written
  obtain ⟨bytes, _, written⟩ := bind_eq_ok written
  have same := SameButWire.write c bytes w
  simp only at written
  split at written
  · have empty : ∀ n, (c.outputBuffer.retrieve n).readableBytes = 0 ↔
        (c.outputBuffer.retrieve n).readable = [] := by
      intro n
      rw [← (wf.retrieve n).readable_length, List.length_eq_zero_iff]
    refine .inr ⟨(c.write bytes w).1, sizeT (c.write bytes w).2, same, ?_⟩
    simp only [same.outputBuffer, empty, pure, Except.pure, Except.ok.injEq] at written
    exact written.symm
  · cases written
    exact .inl same

/-- The flag tells whether there is something to write. -/
structure Interest (c : GpConnection) : Prop where
  wf : c.outputBuffer.WF
  writing : c.handler.isWriting = true ↔ c.outputBuffer.readable ≠ []

theorem Interest.of_same (interest : Interest c) (same : SameButWire c c') : Interest c' :=
  ⟨same.outputBuffer ▸ interest.wf, by
    rw [same.handler, same.outputBuffer]
    exact interest.writing⟩

/-- What a call may do to a connection: it keeps the interest, gives up on the state only
by `conn_shutdown`, shuts down only what is empty, and does so when it empties what is to
be shut down. -/
structure Tidy (c c' : GpConnection) : Prop where
  interest : Interest c'
  shutdown : c.shutdownWr = false → c'.shutdownWr = true → c'.outputBuffer.readable = []
  emptied : c.state = .disconnecting → c.outputBuffer.readable ≠ [] →
    c'.outputBuffer.readable = [] → c'.shutdownWr = true
  disconnecting : c.state = .disconnecting → c'.state = .disconnecting

theorem Tidy.of_same (interest : Interest c) (same : SameButWire c c') : Tidy c c' where
  interest := interest.of_same same
  shutdown down up := by
    rw [same.shutdownWr, down] at up
    cases up
  emptied _ full empty := absurd (same.outputBuffer ▸ empty) full
  disconnecting state := same.state.trans state

theorem Tidy.refl (interest : Interest c) : Tidy c c := .of_same interest (.refl c)

theorem Tidy.connSendInLoop {junk : Nat → UInt8} {w : WriteResult} {msg : List UInt8}
    (interest : Interest c) (sent : c.connSendInLoop junk w msg = .ok c') : Tidy c c' := by
  rcases GpConnection.connSendInLoop_cases sent with same | ⟨c₁, rest, same, some, queued⟩
  · exact .of_same interest same
  have interest₁ := interest.of_same same
  obtain ⟨b, wf, back, rfl⟩ := GpConnection.queueRemaining_cases interest₁.wf queued
  have full : b.readable ≠ [] := by
    rw [back]
    exact List.append_ne_nil_of_right_ne_nil _ some
  by_cases writing : c₁.handler.isWriting = true
  · rw [if_pos writing]
    constructor
    case interest => exact ⟨wf, iff_of_true writing full⟩
    case shutdown =>
      intro down up
      rw [same.shutdownWr, down] at up
      cases up
    case emptied => exact fun _ _ empty => absurd empty full
    case disconnecting => exact fun state => same.state.trans state
  · rw [if_neg writing]
    constructor
    case interest => exact ⟨wf, iff_of_true (Epoller.enableWriting_isWriting _ _) full⟩
    case shutdown =>
      intro down up
      rw [show (GpConnection.enableWriting { c₁ with outputBuffer := b }).shutdownWr =
        c₁.shutdownWr from rfl, same.shutdownWr, down] at up
      cases up
    case emptied => exact fun _ _ empty => absurd empty full
    case disconnecting => exact fun state => same.state.trans state

theorem Tidy.connectionHandlerWrite {w : WriteResult} (interest : Interest c)
    (written : c.connectionHandlerWrite w = .ok c') : Tidy c c' := by
  rcases GpConnection.connectionHandlerWrite_cases interest.wf written with
    same | ⟨c₁, n, same, rfl⟩
  · exact .of_same interest same
  have wf := interest.wf.retrieve n
  by_cases empty : (c.outputBuffer.retrieve n).readable = []
  · -- the last byte is gone, and with it the interest
    rw [if_pos empty]
    constructor
    case interest =>
      refine ⟨by simpa using wf, iff_of_false ?_ (by simpa using empty)⟩
      unfold GpConnection.outputDrained
      split <;> simp [GpConnection.disableWriting, Epoller.disableWriting_isWriting]
    case shutdown => exact fun _ _ => by simpa using empty
    case emptied =>
      intro state _ _
      have closing : c₁.state = .disconnecting := same.state.trans state
      simp [GpConnection.outputDrained, closing]
    case disconnecting => exact fun state => by simpa using same.state.trans state
  · rw [if_neg empty]
    constructor
    case interest =>
      refine ⟨wf, iff_of_true ?_ empty⟩
      show c₁.handler.isWriting = true
      rw [same.handler, interest.writing]
      intro none
      rw [interest.wf.readable_retrieve, none, List.drop_nil] at empty
      exact empty rfl
    case shutdown =>
      intro down up
      rw [show c₁.shutdownWr = c.shutdownWr from same.shutdownWr, down] at up
      cases up
    case emptied => exact fun _ _ gone => absurd gone empty
    case disconnecting => exact fun state => same.state.trans state

theorem Tidy.runInLoopShutdown (interest : Interest c) : Tidy c c.runInLoopShutdown := by
  unfold GpConnection.runInLoopShutdown
  by_cases writing : c.handler.isWriting = true
  · rw [if_pos writing]
    exact .refl interest
  · rw [if_neg writing]
    have empty : c.outputBuffer.readable = [] := by
      by_contra full
      exact writing (interest.writing.mpr full)
    exact ⟨⟨interest.wf, interest.writing⟩, fun _ _ => empty, fun _ _ _ => rfl, fun state => state⟩

end Steps

/-! ## Whole runs -/

/-- A task that another thread has queued for the connection. -/
inductive Deferred
  | trans (msg : List UInt8)
  | shutdown
  deriving DecidableEq, Repr

/-- A connection and its tasks in the pending list. -/
structure WriteState where
  conn : GpConnection
  deferred : List Deferred

/-- The calls that change output or interest; `inLoop` tells a call on the loop thread from
one that is deferred, `w` is the outcome of `write()`, should it be called. -/
inductive WriteOp
  | connSendInLoop (msg : List UInt8) (w : WriteResult)
  | connSend (inLoop : Bool) (msg : List UInt8) (w : WriteResult)
  | connShutdown (inLoop : Bool)
  | connectionHandlerWrite (w : WriteResult)
  | runDeferred (w : WriteResult)
  deriving DecidableEq, Repr

namespace WriteState

variable (junk : Nat → UInt8) (s : WriteState)

def connSendInLoop (msg : List UInt8) (w : WriteResult) : Except Fault WriteState := do
  return { s with conn := ← s.conn.connSendInLoop junk w msg }

def connSend (inLoop : Bool) (msg : List UInt8) (w : WriteResult) : Except Fault WriteState :=
  if s.conn.state = .connected then
    if inLoop then s.connSendInLoop junk msg w
    else return { s with deferred := s.deferred ++ [.trans msg] }
  else return s

def connShutdown (inLoop : Bool) : WriteState :=
  if s.conn.state = .connected then
    let s := { s with conn := { s.conn with state := .disconnecting } }
    if inLoop then { s with conn := s.conn.runInLoopShutdown }
    else { s with deferred := s.deferred ++ [.shutdown] }
  else s

/-- `do_pending_functors` runs the first task. -/
def runDeferred (w : WriteResult) : Except Fault WriteState :=
  match s.deferred with
  | [] => return s
  | .trans msg :: rest => { s with deferred := rest }.connSendInLoop junk msg w
  | .shutdown :: rest => return { conn := s.conn.runInLoopShutdown, deferred := rest }

def exec : WriteOp → Except Fault WriteState
  | .connSendInLoop msg w => s.connSendInLoop junk msg w
  | .connSend inLoop msg w => s.connSend junk inLoop msg w
  | .connShutdown inLoop => return s.connShutdown inLoop
  | .connectionHandlerWrite w => do return { s with conn := ← s.conn.connectionHandlerWrite w }
  | .runDeferred w => s.runDeferred junk w

/-- `shutdownWr` is cleared before a call, so that it tells whether the call has issued a
`shutdown`. -/
def cleared : WriteState := { s with conn := { s.conn with shutdownWr := false } }

end WriteState

/-- The calls on a connection, from `connection_established`. -/
def writeSys (junk : Nat → UInt8) : TSys WriteState WriteOp where
  init s := s.conn.state = .connected ∧ s.conn.handler.events = kreadEvent ∧
    s.conn.outputBuffer = .initGpBuffer junk ∧ s.deferred = []
  step s op s' := s.cleared.exec junk op = .ok s'

section Runs

variable {junk : Nat → UInt8} {s s' : WriteState}

/-- `conn_send_in_loop` does not fault and is tidy. -/
theorem WriteState.connSendInLoop_tidy (junk : Nat → UInt8) (interest : Interest s.conn)
    (msg : List UInt8) (w : WriteResult) :
    ∃ s', s.connSendInLoop junk msg w = .ok s' ∧ Tidy s.conn s'.conn := by
  obtain ⟨c', sent, _⟩ := GpConnection.connSendInLoop_spec junk interest.wf w msg
  refine ⟨{ s with conn := c' }, ?_, .connSendInLoop interest sent⟩
  simp only [WriteState.connSendInLoop, sent]
  rfl

theorem WriteState.connShutdown_tidy (interest : Interest s.conn) (inLoop : Bool) :
    Tidy s.conn (s.connShutdown inLoop).conn := by
  unfold WriteState.connShutdown
  by_cases connected : s.conn.state = .connected
  · rw [if_pos connected]
    have leaving : Interest { s.conn with state := .disconnecting } :=
      ⟨interest.wf, interest.writing⟩
    cases inLoop with
    | true =>
        have tidy := Tidy.runInLoopShutdown leaving
        exact ⟨tidy.interest, tidy.shutdown, fun state => by simp [connected] at state,
          fun state => by simp [connected] at state⟩
    | false =>
        refine ⟨leaving, fun down up => ?_, fun _ full empty => absurd empty full, fun _ => rfl⟩
        have still : s.conn.shutdownWr = true := up
        rw [down] at still
        cases still
  · rw [if_neg connected]
    exact .refl interest

/-- No call faults, and every call is tidy. -/
theorem WriteState.exec_tidy (junk : Nat → UInt8) (interest : Interest s.conn) (op : WriteOp) :
    ∃ s', s.exec junk op = .ok s' ∧ Tidy s.conn s'.conn := by
  cases op with
  | connSendInLoop msg w => exact WriteState.connSendInLoop_tidy junk interest msg w
  | connSend inLoop msg w =>
      simp only [WriteState.exec, WriteState.connSend]
      by_cases connected : s.conn.state = .connected
      · rw [if_pos connected]
        cases inLoop with
        | true => exact WriteState.connSendInLoop_tidy junk interest msg w
        | false => exact ⟨_, rfl, .refl interest⟩
      · rw [if_neg connected]
        exact ⟨_, rfl, .refl interest⟩
  | connShutdown inLoop => exact ⟨_, rfl, WriteState.connShutdown_tidy interest inLoop⟩
  | connectionHandlerWrite w =>
      obtain ⟨c', written, _⟩ := GpConnection.connectionHandlerWrite_spec interest.wf w
      refine ⟨{ s with conn := c' }, ?_, .connectionHandlerWrite interest written⟩
      simp only [WriteState.exec, written]
      rfl
  | runDeferred w =>
      simp only [WriteState.exec, WriteState.runDeferred]
      match tasks : s.deferred with
      | [] => exact ⟨s, rfl, .refl interest⟩
      | .trans msg :: rest =>
          have same : Interest ({ s with deferred := rest } : WriteState).conn := interest
          exact WriteState.connSendInLoop_tidy junk same msg w
      | .shutdown :: rest => exact ⟨_, rfl, .runInLoopShutdown interest⟩

theorem Interest.cleared (interest : Interest s.conn) : Interest s.cleared.conn :=
  ⟨interest.wf, interest.writing⟩

theorem WriteState.step_tidy (interest : Interest s.conn) {op : WriteOp}
    (step : (writeSys junk).step s op s') : Tidy s.cleared.conn s'.conn := by
  obtain ⟨s'', executed, tidy⟩ := WriteState.exec_tidy junk interest.cleared op
  rwa [show s' = s'' from Except.ok.inj (step.symm.trans executed)]

/-- The interest is kept along every run. -/
theorem run_interest {ops : List WriteOp} (run : (writeSys junk).Run ops s) :
    Interest s.conn := by
  refine run.invariant (I := fun _ s => Interest s.conn) ?_ ?_
  · rintro s ⟨_, events, fresh, _⟩
    refine ⟨fresh ▸ .init junk, iff_of_false ?_ ?_⟩
    · simp only [Handler.isWriting, events]
      decide
    · rw [fresh, GpBuffer.readable_init]
      simp
  · intro ops s op s' _ interest step
    exact (WriteState.step_tidy interest step).interest

/-- **Write interest.** In every run of sends, `POLLOUT` events, shutdowns and deferred
tasks, with any outcome of `write()`: `POLLOUT` is enabled exactly while the output buffer
has readable bytes; no call faults; a call issues `shutdown(SHUT_WR)` only when it leaves
the buffer empty; and once `conn_shutdown` has been called, the call that empties the
buffer issues it. -/
theorem write_interest {ops : List WriteOp} (run : (writeSys junk).Run ops s) :
    (s.conn.state = .connected ∨ s.conn.state = .disconnecting →
      (s.conn.handler.isWriting = true ↔ s.conn.outputBuffer.readable ≠ [])) ∧
    ∀ op, ∃ s', (writeSys junk).step s op s' ∧
      (s'.conn.shutdownWr = true → s'.conn.outputBuffer.readable = []) ∧
      (∀ inLoop, op = .connShutdown inLoop → s.conn.state = .connected →
        s'.conn.state = .disconnecting) ∧
      (s.conn.state = .disconnecting → s'.conn.state = .disconnecting ∧
        (s.conn.outputBuffer.readable ≠ [] → s'.conn.outputBuffer.readable = [] →
          s'.conn.shutdownWr = true)) := by
  have interest := run_interest run
  refine ⟨fun _ => interest.writing, fun op => ?_⟩
  obtain ⟨s', executed, tidy⟩ := WriteState.exec_tidy junk interest.cleared op
  refine ⟨s', executed, tidy.shutdown rfl, ?_, fun state =>
    ⟨tidy.disconnecting state, tidy.emptied state⟩⟩
  rintro inLoop rfl connected
  cases executed
  have still : s.cleared.conn.state = .connected := connected
  unfold WriteState.connShutdown
  rw [if_pos still]
  cases inLoop with
  | true =>
      have tidy := Tidy.runInLoopShutdown (c := { s.cleared.conn with state := .disconnecting })
        ⟨interest.wf, interest.writing⟩
      exact tidy.disconnecting rfl
  | false => rfl

end Runs

/-- A short write leaves bytes behind, and `conn_shutdown` waits for them. -/
theorem write_interest_waits :
    ∃ s, (writeSys fun _ => 0).Run
        [.connSendInLoop [1, 2, 3] (.wrote 1), .connShutdown true] s ∧
      (s.conn.state = .connected ∨ s.conn.state = .disconnecting →
        (s.conn.handler.isWriting = true ↔ s.conn.outputBuffer.readable ≠ [])) ∧
      ∃ s', (writeSys fun _ => 0).step s (.connectionHandlerWrite (.wrote 2)) s' ∧
        (s.conn.outputBuffer.readable ≠ [] → s'.conn.outputBuffer.readable = [] →
          s'.conn.shutdownWr = true) := by
  have run₀ : (writeSys fun _ => 0).Run [] ⟨established, []⟩ := .init ⟨rfl, rfl, rfl, rfl⟩
  obtain ⟨s₁, sent, _⟩ := (write_interest run₀).2 (.connSendInLoop [1, 2, 3] (.wrote 1))
  have connected : s₁.conn.state = .connected := by
    obtain ⟨c', direct, _, state, _⟩ := GpConnection.connSendInLoop_spec (fun _ => 0)
      (c := { established with shutdownWr := false }) (.init _) (.wrote 1) [1, 2, 3]
    have same : s₁ = ⟨c', []⟩ := by
      refine Except.ok.inj (sent.symm.trans ?_)
      simp only [WriteState.exec, WriteState.connSendInLoop, WriteState.cleared, direct]
      rfl
    rw [same]
    exact state
  have run₁ := run₀.step sent
  obtain ⟨s₂, closed, _, leaving, _⟩ := (write_interest run₁).2 (.connShutdown true)
  have run₂ := run₁.step closed
  obtain ⟨s₃, written, _, _, emptied⟩ :=
    (write_interest run₂).2 (.connectionHandlerWrite (.wrote 2))
  exact ⟨s₂, run₂, (write_interest run₂).1, s₃, written,
    (emptied (leaving true rfl connected)).2⟩

end GpBase.Conn

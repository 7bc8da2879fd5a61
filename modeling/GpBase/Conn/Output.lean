import GpBase.Lib.Run
import GpBase.Buffer.Spec
import GpBase.Conn.Model

/-!
# Integrity of the output stream

Every byte handed to `conn_send_in_loop` is either accepted by the kernel or
queued in the output buffer, in order. The one exception is a failed `write()`
in `connection_handler_write`: its `-1` becomes the largest `size_t`, passes
the test `n > 0`, and `retrieve` throws the whole buffer away.
-/

namespace GpBase.Conn

open GpBase.Lib GpBase.Buffer GpBase.Event

/-- What happens to the output of a connection, with the outcome of `write()`. -/
inductive OutEvent
  | send (msg : List UInt8) (w : WriteResult)
  | pollOut (w : WriteResult)
  deriving DecidableEq, Repr

def OutEvent.exec (junk : Nat → UInt8) (c : GpConnection) : OutEvent → Except Fault GpConnection
  | .send msg w => c.connSendInLoop junk w msg
  | .pollOut w => c.connectionHandlerWrite w

def OutEvent.outcome : OutEvent → WriteResult
  | .send _ w => w
  | .pollOut w => w

/-- The messages handed over, concatenated. -/
def handedOver (events : List OutEvent) : List UInt8 :=
  events.flatMap fun
    | .send msg _ => msg
    | .pollOut _ => []

/-- Output events of a connection whose output buffer is fresh. -/
def outputSys (junk : Nat → UInt8) : TSys GpConnection OutEvent where
  init c := c.outputBuffer = .initGpBuffer junk ∧ c.accepted = []
  step c ev c' := ev.exec junk c = .ok c'

/-- The bytes that have left the application: on the wire or queued. -/
def GpConnection.stream (c : GpConnection) : List UInt8 := c.accepted ++ c.outputBuffer.readable

section Steps

variable {c : GpConnection}

theorem GpConnection.stream_enableWriting (c : GpConnection) :
    c.enableWriting.stream = c.stream := rfl

/-- A `write()` moves the front of its argument to the wire; the value it
returns says how much. -/
theorem GpConnection.write_spec (c : GpConnection) (bytes : List UInt8) (w : WriteResult) :
    ∃ c' n, c.write bytes w = (c', n) ∧ c'.state = c.state ∧ c'.handler = c.handler ∧
      c'.outputBuffer = c.outputBuffer ∧
      ((∃ k ≤ bytes.length, n = (k : Nat) ∧ k < 2 ^ 31 ∧
          c'.accepted = c.accepted ++ bytes.take k) ∨
        (n = -1 ∧ (∃ errno, w = .error errno) ∧ c'.accepted = c.accepted)) := by
  cases w with
  | error errno => exact ⟨c, -1, rfl, rfl, rfl, rfl, .inr ⟨rfl, ⟨errno, rfl⟩, rfl⟩⟩
  | wrote n =>
      refine ⟨_, _, rfl, rfl, rfl, rfl, .inl ⟨_, ?_, rfl, ?_, ?_⟩⟩
      · simp
      · simp only [List.length_take, writeMax]
        omega
      · rw [List.length_take, List.take_eq_take_min]

theorem GpConnection.queueRemaining_spec (junk : Nat → UInt8) (wf : c.outputBuffer.WF)
    (rest : List UInt8) :
    ∃ c', c.queueRemaining junk rest = .ok c' ∧ c'.outputBuffer.WF ∧ c'.state = c.state ∧
      c'.stream = c.stream ++ rest := by
  obtain ⟨b, appended, wf', back⟩ := wf.bufferAppend_spec junk rest
  simp only [GpConnection.queueRemaining, appended, bind, Except.bind, pure, Except.pure]
  have extended : GpConnection.stream { c with outputBuffer := b } = c.stream ++ rest := by
    simp [GpConnection.stream, back]
  split
  · exact ⟨_, rfl, wf', rfl, by rw [GpConnection.stream_enableWriting, extended]⟩
  · exact ⟨_, rfl, wf', rfl, extended⟩

/-- `conn_send_in_loop` puts the message at the end of the stream, unless the
direct write hit a broken connection. -/
theorem GpConnection.connSendInLoop_spec (junk : Nat → UInt8) (wf : c.outputBuffer.WF)
    (w : WriteResult) (msg : List UInt8) :
    ∃ c', c.connSendInLoop junk w msg = .ok c' ∧ c'.outputBuffer.WF ∧ c'.state = c.state ∧
      (c.state ≠ .disconnected → faultError w = false → c'.stream = c.stream ++ msg) := by
  unfold GpConnection.connSendInLoop
  split
  · rename_i gone
    exact ⟨c, rfl, wf, rfl, fun h => absurd gone h⟩
  by_cases direct :
      (!c.handler.isWriting && decide (c.outputBuffer.readableBytes = 0)) = true
  swap
  · -- something is queued already: the whole message goes behind it
    simp only [direct, Bool.false_eq_true, if_false, le_refl, if_true, Int.toNat_zero,
      Nat.sub_zero, Bool.false_and, Bool.not_false, Bool.true_and, List.drop_zero,
      decide_eq_true_eq]
    split
    · obtain ⟨c', queued, wf', same, stream⟩ := GpConnection.queueRemaining_spec junk wf msg
      exact ⟨c', queued, wf', same, fun _ _ => stream⟩
    · rename_i empty
      have : msg = [] := List.eq_nil_of_length_eq_zero (by omega)
      exact ⟨c, rfl, wf, rfl, fun _ _ => by rw [this, List.append_nil]⟩
  have nothingQueued : c.outputBuffer.readable = [] := by
    apply List.eq_nil_of_length_eq_zero
    rw [wf.readable_length]
    simpa using ((Bool.and_eq_true _ _).mp direct).2
  obtain ⟨c₁, n, wrote, state₁, handler₁, buffer₁, outcome⟩ := c.write_spec msg w
  simp only [direct, if_true, wrote, Bool.true_and]
  have wf₁ : c₁.outputBuffer.WF := buffer₁ ▸ wf
  rcases outcome with ⟨k, bound, rfl, _, taken⟩ | ⟨rfl, _, taken⟩
  · have stream₁ : c₁.stream = c.stream ++ msg.take k := by
      rw [GpConnection.stream, GpConnection.stream, taken, buffer₁, nothingQueued]
      simp
    simp only [Int.natCast_nonneg, if_true, Int.toNat_natCast, Bool.and_eq_true,
      Bool.not_eq_true', decide_eq_true_eq]
    split
    · obtain ⟨c', queued, wf', same, stream⟩ := GpConnection.queueRemaining_spec junk wf₁ (msg.drop k)
      refine ⟨c', queued, wf', same.trans state₁, fun _ _ => ?_⟩
      rw [stream, stream₁, List.append_assoc, List.take_append_drop]
    · rename_i stop
      refine ⟨c₁, rfl, wf₁, state₁, fun _ harmless => ?_⟩
      have all : msg.length ≤ k := by
        by_contra part
        exact stop ⟨harmless, by omega⟩
      rw [stream₁, List.take_of_length_le all]
  · have stream₁ : c₁.stream = c.stream := by
      rw [GpConnection.stream, GpConnection.stream, taken, buffer₁]
    simp only [Int.reduceNeg, Left.nonneg_neg_iff, Int.reduceLE, if_false, List.drop_zero,
      Bool.and_eq_true, Bool.not_eq_true', decide_eq_true_eq]
    split
    · obtain ⟨c', queued, wf', same, stream⟩ := GpConnection.queueRemaining_spec junk wf₁ msg
      exact ⟨c', queued, wf', same.trans state₁, fun _ _ => by rw [stream, stream₁]⟩
    · rename_i stop
      refine ⟨c₁, rfl, wf₁, state₁, fun _ harmless => ?_⟩
      have : msg = [] := by
        apply List.eq_nil_of_length_eq_zero
        by_contra part
        exact stop ⟨harmless, by omega⟩
      rw [stream₁, this, List.append_nil]

/-- A `POLLOUT` event whose `write()` cannot lose anything: it does not fail, or
there is nothing to lose. -/
def Harmless (c : GpConnection) (w : WriteResult) : Prop :=
  (∃ n, w = .wrote n) ∨ c.outputBuffer.readable = []

/-- `connection_handler_write` moves bytes from the queue to the wire, as long
as the `write()` does not fail on a non-empty queue. -/
theorem GpConnection.connectionHandlerWrite_spec (wf : c.outputBuffer.WF)
    (w : WriteResult) :
    ∃ c', c.connectionHandlerWrite w = .ok c' ∧ c'.outputBuffer.WF ∧ c'.state = c.state ∧
      (Harmless c w → c'.stream = c.stream) := by
  unfold GpConnection.connectionHandlerWrite
  have peeked := wf.peekAt_eq 0 c.outputBuffer.readableBytes (by rw [wf.readable_length]; simp)
  rw [List.drop_zero, ← wf.readable_length, List.take_length] at peeked
  obtain ⟨c₁, n, wrote, state₁, _, buffer₁, outcome⟩ := c.write_spec c.outputBuffer.readable w
  have wf₁ : c₁.outputBuffer.WF := buffer₁ ▸ wf
  rw [← wf.readable_length]
  simp only [peeked, bind, Except.bind, pure, Except.pure, wrote]
  -- what is on the wire and what is queued after the retrieve
  have kept : Harmless c w →
      c₁.accepted ++ (c₁.outputBuffer.retrieve (sizeT n)).readable = c.stream := by
    intro harmless
    rw [wf₁.readable_retrieve, buffer₁]
    rcases outcome with ⟨k, bound, rfl, small, taken⟩ | ⟨rfl, ⟨errno, rfl⟩, taken⟩
    · rw [sizeT_of_nonneg (by omega) (by omega), Int.toNat_natCast, taken,
        List.append_assoc, List.take_append_drop, GpConnection.stream]
    · rcases harmless with ⟨_, contra⟩ | empty
      · cases contra
      · rw [taken, GpConnection.stream, empty, List.drop_nil]
  split
  · refine ⟨_, rfl, ?_⟩
    split
    · simp only [GpConnection.stream, GpConnection.outputDrained_accepted,
        GpConnection.outputDrained_state, GpConnection.outputDrained_outputBuffer]
      exact ⟨wf₁.retrieve _, state₁, kept⟩
    · exact ⟨wf₁.retrieve _, state₁, kept⟩
  · rename_i none
    refine ⟨_, rfl, wf₁, state₁, fun harmless => ?_⟩
    have zero : sizeT n = 0 := by omega
    have := kept harmless
    rwa [wf₁.readable_retrieve, zero, List.drop_zero] at this

end Steps

/-! ## Whole runs -/

/-- The steps that keep the stream: no broken connection, and no `POLLOUT`
event whose `write()` fails while bytes are queued. -/
def KeepsStream (c : GpConnection) : OutEvent → Prop
  | .send _ w => GpConnection.faultError w = false
  | .pollOut w => GpConnection.faultError w = false ∧ Harmless c w

theorem handedOver_snoc (events : List OutEvent) (ev : OutEvent) :
    handedOver (events ++ [ev]) = handedOver events ++ handedOver [ev] := by
  simp [handedOver]

/-- No output event faults. -/
theorem OutEvent.exec_ok (junk : Nat → UInt8) {c : GpConnection} (wf : c.outputBuffer.WF)
    (ev : OutEvent) :
    ∃ c', ev.exec junk c = .ok c' ∧ c'.outputBuffer.WF ∧ c'.state = c.state ∧
      (c.state ≠ .disconnected → KeepsStream c ev →
        c'.stream = c.stream ++ handedOver [ev]) := by
  cases ev with
  | send msg w =>
      obtain ⟨c', sent, wf', same, stream⟩ :=
        GpConnection.connSendInLoop_spec junk wf w msg
      exact ⟨c', sent, wf', same, fun alive sound => by
        simpa [handedOver] using stream alive sound⟩
  | pollOut w =>
      obtain ⟨c', written, wf', same, stream⟩ :=
        GpConnection.connectionHandlerWrite_spec wf w
      exact ⟨c', written, wf', same, fun _ sound => by
        simpa [handedOver] using stream sound.2⟩

/-- **Output stream integrity.** In every run in which no `write()` meets a
broken connection and no `POLLOUT` event's `write()` fails while bytes are
queued: as long as the connection is not disconnected, the bytes accepted by
the kernel followed by the readable bytes of the output buffer are the
concatenation of the messages handed over; and no event faults. -/
theorem output_stream_kept (junk : Nat → UInt8) {events : List OutEvent}
    {c : GpConnection} (run : ((outputSys junk).restrict KeepsStream).Run events c) :
    (c.state ≠ .disconnected →
      c.accepted ++ c.outputBuffer.readable = handedOver events) ∧
    ∀ ev : OutEvent, ∃ c', ev.exec junk c = .ok c' := by
  have inv : c.outputBuffer.WF ∧
      (c.state ≠ .disconnected → c.stream = handedOver events) := by
    refine run.invariant (I := fun events c => c.outputBuffer.WF ∧
      (c.state ≠ .disconnected → c.stream = handedOver events)) ?_ ?_
    · rintro c ⟨fresh, nothing⟩
      refine ⟨fresh ▸ .init junk, fun _ => ?_⟩
      rw [GpConnection.stream, nothing, fresh, GpBuffer.readable_init]
      rfl
    · rintro events c ev c' _ ⟨wf, stream⟩ ⟨sound, stepped⟩
      obtain ⟨c'', executed, wf', same, kept⟩ := ev.exec_ok junk wf
      rw [show c' = c'' from Except.ok.inj (stepped.symm.trans executed)]
      refine ⟨wf', fun alive => ?_⟩
      rw [same] at alive
      rw [kept alive sound, stream alive, handedOver_snoc]
  refine ⟨inv.2, fun ev => ?_⟩
  obtain ⟨c', executed, _⟩ := ev.exec_ok junk inv.1
  exact ⟨c', executed⟩

/-- A connection as `connection_established` leaves it. -/
def established : GpConnection where
  state := .connected
  handler := { addToLoop := true, index := .added, fd := 5, events := kreadEvent }
  outputBuffer := .initGpBuffer fun _ => 0
  epoller := { handlers := fun fd => fd = 5, requests := [] }
  accepted := []
  shutdownWr := false

/-- A short direct write followed by a `POLLOUT` event that drains the rest. -/
theorem output_stream_kept_short :
    ∃ c, ((outputSys fun _ => 0).restrict KeepsStream).Run
        [.send [1, 2, 3] (.wrote 1), .pollOut (.wrote 2)] c ∧
      (c.state ≠ .disconnected → c.accepted ++ c.outputBuffer.readable = [1, 2, 3]) := by
  have wf₀ : established.outputBuffer.WF := .init _
  obtain ⟨c₁, sent, wf₁, _⟩ := OutEvent.exec_ok (fun _ => 0) wf₀ (.send [1, 2, 3] (.wrote 1))
  obtain ⟨c₂, written, _⟩ := OutEvent.exec_ok (fun _ => 0) wf₁ (.pollOut (.wrote 2))
  have run₀ : ((outputSys fun _ => 0).restrict KeepsStream).Run [] established :=
    .init ⟨rfl, rfl⟩
  have run₁ : ((outputSys fun _ => 0).restrict KeepsStream).Run
      [.send [1, 2, 3] (.wrote 1)] c₁ := .step run₀ ⟨rfl, sent⟩
  have run₂ : ((outputSys fun _ => 0).restrict KeepsStream).Run
      [.send [1, 2, 3] (.wrote 1), .pollOut (.wrote 2)] c₂ :=
    .step run₁ ⟨⟨rfl, .inl ⟨2, rfl⟩⟩, written⟩
  exact ⟨c₂, run₂, (output_stream_kept _ run₂).1⟩

/-- A failed `write()` in `connection_handler_write` empties the queue. -/
theorem GpConnection.connectionHandlerWrite_error {c : GpConnection}
    (wf : c.outputBuffer.WF) (memory : c.outputBuffer.readable.length < 2 ^ 64)
    (errno : Errno) :
    ∃ c', c.connectionHandlerWrite (.error errno) = .ok c' ∧ c'.accepted = c.accepted ∧
      c'.state = c.state ∧ c'.outputBuffer.readable = [] := by
  have emptied : (c.outputBuffer.retrieve (sizeT (-1))).readable = [] := by
    rw [wf.readable_retrieve]
    exact List.drop_eq_nil_of_le (by unfold sizeT; omega)
  have none : (c.outputBuffer.retrieve (sizeT (-1))).readableBytes = 0 := by
    rw [← (wf.retrieve _).readable_length, emptied]
    rfl
  have peeked := wf.peekAt_eq 0 c.outputBuffer.readableBytes (by rw [wf.readable_length]; simp)
  simp only [GpConnection.connectionHandlerWrite, peeked, GpConnection.write, bind, Except.bind,
    none, show 0 < sizeT (-1) by decide, if_true]
  exact ⟨_, rfl, by simp, by simp, by simp [emptied]⟩

/-- `write()` would block on both paths: the byte queued by the first is thrown
away by the second. -/
theorem output_stream_lost :
    ∃ c, (outputSys fun _ => 0).Run
        [.send [1] (.error .ewouldblock), .pollOut (.error .ewouldblock)] c ∧
      c.state = .connected ∧
      c.accepted ++ c.outputBuffer.readable ≠
        handedOver [.send [1] (.error .ewouldblock), .pollOut (.error .ewouldblock)] := by
  obtain ⟨b, appended, wf, contents⟩ :=
    (GpBuffer.WF.init fun _ => 0).bufferAppend_spec (fun _ => 0) [1]
  rw [GpBuffer.readable_init, List.nil_append] at contents
  let c₁ : GpConnection := GpConnection.enableWriting { established with outputBuffer := b }
  have sent : established.connSendInLoop (fun _ => 0) (.error .ewouldblock) [1] = .ok c₁ := by
    have idle : (!established.handler.isWriting &&
        decide (established.outputBuffer.readableBytes = 0)) = true := by decide
    have queued : established.queueRemaining (fun _ => 0) [1] = .ok c₁ := by
      have free : (!established.handler.isWriting) = true := by decide
      have appended' : established.outputBuffer.bufferAppend (fun _ => 0) [1] = .ok b := appended
      simp only [GpConnection.queueRemaining, appended', bind, Except.bind, free, if_true]
      rfl
    simp only [GpConnection.connSendInLoop, idle, GpConnection.write]
    exact queued
  obtain ⟨c₂, written, accepted₂, state₂, emptied⟩ :=
    GpConnection.connectionHandlerWrite_error (c := c₁) wf
      (by rw [show c₁.outputBuffer = b from rfl, contents]; decide) .ewouldblock
  have run₀ : (outputSys fun _ => 0).Run [] established := .init ⟨rfl, rfl⟩
  have run₁ : (outputSys fun _ => 0).Run [.send [1] (.error .ewouldblock)] c₁ :=
    .step run₀ sent
  refine ⟨c₂, .step run₁ written, state₂, ?_⟩
  rw [accepted₂, emptied, show c₁.accepted = [] from rfl]
  decide

end GpBase.Conn

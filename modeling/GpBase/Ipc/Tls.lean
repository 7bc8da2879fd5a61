import GpBase.Conn.Tls
import GpBase.Ipc.Footprint

/-!
# The input of a TLS connection

`ssl_handler_read` of `gp_ssl_server.c`: `SSL_read` decrypts straight into the writable part of
the input buffer, which is made larger when it has been filled, and `handle_ssl_msg` decodes a
frame. What OpenSSL returns is an input: at most as many bytes as there is room for. A failure
leaves the input as it is; what it may do to the connection is in `GpBase.Conn.Tls`, and
`sslHandlerRead_halves` puts both together.
-/

namespace GpBase.Ipc

open GpBase.Lib GpBase.Buffer GpBase.Codec

/-- `SSL_read`: decrypted bytes, or a result that is not positive. -/
inductive SslRead
  | data (bytes : List UInt8)
  | failed

/-- The input side of a connection after the handshake. -/
structure TlsInput (pb : ProtobufC) (Callback : Type) where
  receiver : Receiver pb Callback
  /-- every byte that `SSL_read` has stored -/
  received : List UInt8

/-- `int writable = writable_bytes(..)`, the room that `SSL_read` is offered. -/
def offered (b : GpBuffer) : Int := int32 b.writableBytes

/-- What `ssl_handler_read` makes of the buffer when `SSL_read` has returned `n > 0`. -/
def advance (junk : Nat → UInt8) (b : GpBuffer) (n : Nat) : Except Fault GpBuffer :=
  if (n : Int) < offered b then .ok { b with writerIndex := b.writerIndex + n }
  else
    -- `(int)(0.5 * len)`
    GpBuffer.ensureWritableBytes { b with writerIndex := b.len } junk
      (sizeT (int32 (b.len / 2 : Nat)))

section

variable {pb : ProtobufC} {Callback : Type} (junk : Nat → UInt8)
  (pbMap : CString → Option pb.Desc) (getMsgCallback : CString → Option Callback)

/-- `ssl_handler_read`. -/
def TlsInput.sslHandlerRead (s : TlsInput pb Callback) :
    SslRead → Except Fault (TlsInput pb Callback)
  | .failed => .ok s
  | .data bytes => do
    let b := s.receiver.buffer
    let block ← store b.buffer b.writerIndex bytes
    let b ← advance junk { b with buffer := block } bytes.length
    let (b, out) ← handleSslMsg pbMap getMsgCallback b
    return { receiver := { buffer := b, dispatched := s.receiver.dispatched ++ out.toList }
             received := s.received ++ bytes }

/-- A connection with the state of its callbacks and its input. -/
structure TlsConnection (pb : ProtobufC) (Callback : Type) where
  state : Conn.TlsState
  input : TlsInput pb Callback

/-- `ssl_handler_read` as a whole, where `reset` says that `SSL_read` has failed with
`ECONNRESET`. -/
def TlsConnection.sslHandlerRead (c : TlsConnection pb Callback) (reset : Bool) :
    SslRead → Except Fault (TlsConnection pb Callback)
  | .failed => .ok (if reset then { c with state := c.state.sslHandlerClose } else c)
  | .data bytes => do
    let b := c.input.receiver.buffer
    let block ← store b.buffer b.writerIndex bytes
    let b ← advance junk { b with buffer := block } bytes.length
    let (b, out) ← handleSslMsg pbMap getMsgCallback b
    let dispatched := c.input.receiver.dispatched ++ out.toList
    return { c with input := ⟨⟨b, dispatched⟩, c.input.received ++ bytes⟩ }

/-- The model of the output has its part of it, and the model of the input has the other. -/
theorem sslHandlerRead_halves {c c' : TlsConnection pb Callback} {reset : Bool} {r : SslRead}
    (failed : reset = true → r = .failed) :
    c.sslHandlerRead junk pbMap getMsgCallback reset r = .ok c' ↔
      c'.state = c.state.sslHandlerRead reset ∧
        c.input.sslHandlerRead junk pbMap getMsgCallback r = .ok c'.input := by
  obtain ⟨state, input⟩ := c
  obtain ⟨state', input'⟩ := c'
  cases r with
  | failed => cases reset <;> simp [TlsConnection.sslHandlerRead, TlsInput.sslHandlerRead,
      Conn.TlsState.sslHandlerRead, eq_comm]
  | data bytes =>
      obtain rfl : reset = false := Bool.eq_false_iff.mpr fun h => nomatch failed h
      have whole : TlsConnection.sslHandlerRead junk pbMap getMsgCallback ⟨state, input⟩ false
          (.data bytes) =
          (⟨state, ·⟩) <$> input.sslHandlerRead junk pbMap getMsgCallback (.data bytes) := by
        unfold TlsConnection.sslHandlerRead TlsInput.sslHandlerRead
        simp only [map_bind, map_pure]
      rw [whole]
      cases input.sslHandlerRead junk pbMap getMsgCallback (.data bytes) with
      | error fault => exact ⟨nofun, nofun⟩
      | ok read =>
          constructor
          · intro same
            cases same
            exact ⟨rfl, rfl⟩
          · rintro ⟨rfl, same⟩
            cases same
            rfl

/-- The bytes that an event stores. -/
def SslRead.stored : SslRead → List UInt8
  | .data bytes => bytes
  | .failed => []

/-- `SSL_read` stores between one byte and as many as it is offered. -/
def SslReads (b : GpBuffer) : SslRead → Prop
  | .data bytes => bytes ≠ [] ∧ bytes.length ≤ offered b
  | .failed => True

/-- The readable events of a connection whose handshake has just ended. -/
def tlsSys : TSys (TlsInput pb Callback) SslRead where
  init s := s = ⟨⟨.initGpBuffer junk, []⟩, []⟩
  step s r s' := SslReads s.receiver.buffer r ∧
    s.sslHandlerRead junk pbMap getMsgCallback r = .ok s'

/-- The peer sends the frames of `msgs`. -/
def SendsFrames (msgs : List pb.Msg) (s : TlsInput pb Callback) (r : SslRead) : Prop :=
  s.received ++ r.stored <+: frames pb msgs

/-- The size of the block is an `int` after it has grown by half. -/
def FitsInt (s : TlsInput pb Callback) : Prop := s.receiver.buffer.len < 2 ^ 30

/-- The event completes at most one frame. -/
def SendsOne (msgs : List pb.Msg) (s : TlsInput pb Callback) (r : SslRead) : Prop :=
  completed pb msgs (s.received ++ r.stored).length ≤ completed pb msgs s.received.length + 1

end

/-! ## One event -/

section Advance

variable {b : GpBuffer} (junk : Nat → UInt8) {bytes : List UInt8}

theorem offered_eq (wf : b.WF) (fits : b.len < 2 ^ 30) : offered b = b.writableBytes := by
  have bound := wf.bound
  unfold offered GpBuffer.writableBytes
  exact int32_of_range (by omega) (by omega)

/-- The bytes of `SSL_read` become readable, and there is room for more. -/
theorem advance_spec (wf : b.WF) (fits : b.len < 2 ^ 30) (reads : SslReads b (.data bytes)) :
    ∃ block b', store b.buffer b.writerIndex bytes = .ok block ∧
      advance junk { b with buffer := block } bytes.length = .ok b' ∧ b'.WF ∧
      b'.readable = b.readable ++ bytes ∧ 0 < b'.writableBytes ∧
      (b'.len = b.len ∨ b'.len ≤ 3 * (b'.readable.length + kCheapPrepend)) := by
  obtain ⟨_, room⟩ := reads
  rw [offered_eq wf fits] at room
  obtain ⟨block, stored, wf₁, extended⟩ := wf.stored bytes (by omega)
  have least : 8 ≤ b.len := wf.prepend.trans (wf.order.trans wf.bound)
  have bound := wf.bound
  have order := wf.order
  refine ⟨block, ?_⟩
  have same : offered { b with buffer := block } = b.writableBytes := by
    show offered b = _
    exact offered_eq wf fits
  unfold advance
  rw [same]
  by_cases less : (bytes.length : Int) < b.writableBytes
  · rw [if_pos less]
    refine ⟨_, stored, rfl, wf₁, extended, ?_, .inl rfl⟩
    show 0 < b.len - (b.writerIndex + bytes.length)
    unfold GpBuffer.writableBytes at less
    omega
  · rw [if_neg less]
    -- the block is full, so the writer index is where the bytes end
    have full : b.writerIndex + bytes.length = b.len := by
      unfold GpBuffer.writableBytes at less room
      omega
    rw [GpBuffer.hasWritten] at wf₁ extended
    simp only [full] at wf₁ extended
    have half : sizeT (int32 (b.len / 2 : Nat)) = b.len / 2 := by
      rw [int32_of_range (by omega) (by omega), sizeT_of_nonneg (by omega) (by omega)]
      rfl
    rw [half]
    obtain ⟨b', ensured, wf', kept, more⟩ := wf₁.ensureWritableBytes_spec junk (b.len / 2)
    refine ⟨b', stored, ensured, wf', kept.trans extended, by omega, ?_⟩
    obtain same | ⟨tight, larger⟩ := GpBuffer.ensureWritableBytes_len ensured
    · exact .inl same
    · right
      have data := wf₁.readable_length
      unfold GpBuffer.readableBytes at data
      unfold GpBuffer.writableBytes GpBuffer.prependableBytes at tight
      unfold kCheapPrepend at tight ⊢
      dsimp only at data tight larger
      rw [kept, larger]
      omega

end Advance

section Step

variable {pb : ProtobufC} {Callback : Type} (junk : Nat → UInt8)
  {pbMap : CString → Option pb.Desc} {getMsgCallback : CString → Option Callback}
  {msgs : List pb.Msg} {s s' : TlsInput pb Callback} {n : Nat}

/-- After `n` messages of `msgs`: they have been dispatched, what is behind them waits in the
input buffer, and `SSL_read` will be offered room. -/
structure Reading (getMsgCallback : CString → Option Callback) (msgs : List pb.Msg)
    (s : TlsInput pb Callback) (n : Nat) : Prop where
  input : InStep getMsgCallback msgs s.received s.receiver n
  sent : s.received <+: frames pb msgs
  room : 0 < s.receiver.buffer.writableBytes

theorem Reading.start : Reading getMsgCallback msgs ⟨⟨.initGpBuffer junk, []⟩, []⟩ 0 := by
  refine ⟨⟨.init junk, Nat.zero_le _, rfl, ?_⟩, List.nil_prefix, ?_⟩
  · rw [GpBuffer.readable_init]
    rfl
  · show 0 < kCheapPrepend + kInitialSize - kCheapPrepend
    decide

/-- `handle_ssl_msg` leaves the size of the block and takes no room away. -/
theorem Reading.handleSslMsg (lawful : pb.Lawful) (receivable : Receivable pbMap msgs)
    (reading : Reading getMsgCallback msgs s n) :
    ∃ b out, handleSslMsg pbMap getMsgCallback s.receiver.buffer = .ok (b, out) ∧
      b.len = s.receiver.buffer.len ∧
      Reading getMsgCallback msgs
        { s with receiver := { buffer := b, dispatched := s.receiver.dispatched ++ out.toList } }
        (if n < completed pb msgs s.received.length then n + 1 else n) := by
  obtain ⟨r, called, input⟩ :=
    reading.input.onMessage (fun _ => 0) getMsgCallback lawful receivable reading.sent
  obtain ⟨⟨b, out⟩, returned, rest⟩ := bind_eq_ok called
  cases rest
  obtain ⟨len, writer, _⟩ := onMessage_consumed reading.input.wf returned
  have room := reading.room
  refine ⟨b, out, returned, len, ?_, reading.sent, ?_⟩
  · simpa only [reading.input.hasFrame_iff getMsgCallback lawful receivable reading.sent] using input
  · show 0 < b.len - b.writerIndex
    unfold GpBuffer.writableBytes at room
    omega

/-- One event. -/
theorem Reading.step (lawful : pb.Lawful) (receivable : Receivable pbMap msgs)
    (reading : Reading getMsgCallback msgs s n) (fits : FitsInt s) {r : SslRead}
    (reads : SslReads s.receiver.buffer r) (sends : SendsFrames msgs s r) :
    ∃ s' n', s.sslHandlerRead junk pbMap getMsgCallback r = .ok s' ∧
      s'.received = s.received ++ r.stored ∧ Reading getMsgCallback msgs s' n' ∧
      (n' = (if n < completed pb msgs s'.received.length then n + 1 else n) ∨
        n' = n ∧ s'.received = s.received) ∧
      (s'.receiver.buffer.len = s.receiver.buffer.len ∨ s'.receiver.buffer.len ≤
        3 * ((s.receiver.buffer.readable ++ r.stored).length + kCheapPrepend)) := by
  cases r with
  | failed =>
      exact ⟨s, n, rfl, (List.append_nil _).symm, reading, .inr ⟨rfl, rfl⟩, .inl rfl⟩
  | data bytes =>
      obtain ⟨block, b₁, stored, moved, wf₁, readable, room, len⟩ :=
        advance_spec junk reading.input.wf fits reads
      -- the input as the callback finds it
      have found : Reading getMsgCallback msgs
          ⟨{ s.receiver with buffer := b₁ }, s.received ++ bytes⟩ n := by
        refine ⟨⟨wf₁, reading.input.count, reading.input.dispatched, ?_⟩, sends, room⟩
        rw [readable, ← List.append_assoc]
        exact congrArg (· ++ bytes) reading.input.bytes
      obtain ⟨b, out, called, same, reading'⟩ := found.handleSslMsg lawful receivable
      refine ⟨_, _, ?_, rfl, reading', .inl rfl, ?_⟩
      · unfold TlsInput.sslHandlerRead
        dsimp only
        rw [stored, ok_bind, moved, ok_bind, called, ok_bind]
        rfl
      · rw [readable] at len
        rw [← same] at len
        exact len

/-! ## Whole connections -/

theorem Reading.dispatched_msgs (reading : Reading getMsgCallback msgs s n) :
    s.receiver.dispatched.map (·.msg) = msgs.take n := by
  rw [reading.input.dispatched, List.map_map]
  exact (List.map_congr_left fun _ _ => rfl).trans (List.map_id _)

/-- What holds while the peer does not hurry. -/
structure Attentive (getMsgCallback : CString → Option Callback) (msgs : List pb.Msg)
    (s : TlsInput pb Callback) : Prop where
  reading : Reading getMsgCallback msgs s (completed pb msgs s.received.length)
  small : s.receiver.buffer.len < 6 * maxFrame + 3 * kCheapPrepend

theorem Attentive.fits (h : Attentive getMsgCallback msgs s) : FitsInt s := by
  have small := h.small
  unfold maxFrame kCheapPrepend at small
  unfold FitsInt
  omega

theorem Attentive.start :
    Attentive getMsgCallback msgs ⟨⟨.initGpBuffer junk, []⟩, []⟩ := by
  have none : completed pb msgs ([] : List UInt8).length = 0 := by
    cases msgs with
    | nil => rfl
    | cons msg rest => simp [completed, frameLayout]
  refine ⟨?_, ?_⟩
  · rw [none]
    exact .start junk
  · show kCheapPrepend + kInitialSize < _
    decide

theorem Attentive.step (lawful : pb.Lawful) (receivable : Receivable pbMap msgs)
    (h : Attentive getMsgCallback msgs s) {r : SslRead} (reads : SslReads s.receiver.buffer r)
    (sends : SendsFrames msgs s r) (one : SendsOne msgs s r) :
    ∃ s', s.sslHandlerRead junk pbMap getMsgCallback r = .ok s' ∧
      s'.received = s.received ++ r.stored ∧ Attentive getMsgCallback msgs s' := by
  obtain ⟨s', n', ran, received, reading', next, len⟩ :=
    h.reading.step junk lawful receivable h.fits reads sends
  have current : n' = completed pb msgs s'.received.length := by
    rw [SendsOne, ← received] at one
    have more : completed pb msgs s.received.length ≤ completed pb msgs s'.received.length := by
      apply completed_mono
      rw [received, List.length_append]
      exact Nat.le_add_right _ _
    obtain next | ⟨same, nothing⟩ := next
    · rw [next]
      split <;> omega
    · rw [same, nothing]
  refine ⟨s', ran, received, current ▸ reading', ?_⟩
  -- at most one frame and a part of one wait before the callback
  have bytes : s.received ++ r.stored = frames pb (msgs.take (completed pb msgs s.received.length))
      ++ (s.receiver.buffer.readable ++ r.stored) := by
    rw [← List.append_assoc]
    exact congrArg (· ++ r.stored) h.reading.input.bytes
  rw [SendsFrames, bytes] at sends
  rw [SendsOne, bytes] at one
  have waits := waiting_lt lawful receivable h.reading.input.count sends one
  have small := h.small
  obtain same | larger := len
  · omega
  · omega

/-- One record with the frame of a `Ping` is decrypted at once. -/
theorem tls_ping_run :
    ∃ s : TlsInput pingProto Unit,
      ((tlsSys (fun _ => 0) (fun _ => some ()) (fun _ => some ())).restrict
        fun s r => (SendsFrames [(5 : Fin 128)] s r ∧ SendsOne [(5 : Fin 128)] s r) ∧ FitsInt s).Run
        [.data (frameLayout pingProto (5 : Fin 128))] s ∧
      s.received = frameLayout pingProto (5 : Fin 128) := by
  have start : Attentive (fun _ => some ()) [(5 : Fin 128)]
      (⟨⟨.initGpBuffer fun _ => 0, []⟩, []⟩ : TlsInput pingProto Unit) := .start fun _ => 0
  have reads : SslReads (.initGpBuffer fun _ => 0)
      (.data (frameLayout pingProto (5 : Fin 128))) := by
    refine ⟨List.cons_ne_nil _ _, ?_⟩
    rw [offered_eq (.init _) start.fits]
    decide
  have sends : SendsFrames [(5 : Fin 128)]
      (⟨⟨.initGpBuffer fun _ => 0, []⟩, []⟩ : TlsInput pingProto Unit)
      (.data (frameLayout pingProto (5 : Fin 128))) := ⟨[], rfl⟩
  have one : SendsOne [(5 : Fin 128)]
      (⟨⟨.initGpBuffer fun _ => 0, []⟩, []⟩ : TlsInput pingProto Unit)
      (.data (frameLayout pingProto (5 : Fin 128))) := by
    unfold SendsOne
    decide
  obtain ⟨s, ran, received, _⟩ :=
    start.step (fun _ => 0) pingProto_lawful ping_receivable reads sends one
  exact ⟨s, .step (.init rfl) ⟨⟨⟨sends, one⟩, start.fits⟩, reads, ran⟩, received⟩

/-- **A TLS connection hands on what it decrypts.** In every run in which the peer sends the
frames of `msgs` and the block is not larger than half an `int`, whatever `SSL_read` returns:
the messages dispatched are the first `n`, the bytes stored are their frames followed by what
waits in the input buffer, `SSL_read` is always offered room, and no further such event
faults. -/
theorem tls_input_reads (lawful : pb.Lawful) (receivable : Receivable pbMap msgs)
    {events : List SslRead}
    (run : ((tlsSys junk pbMap getMsgCallback).restrict
      fun s r => SendsFrames msgs s r ∧ FitsInt s).Run events s) :
    ∃ n ≤ msgs.length, s.receiver.dispatched.map (·.msg) = msgs.take n ∧
      s.received = frames pb (msgs.take n) ++ s.receiver.buffer.readable ∧
      (FitsInt s → 0 < offered s.receiver.buffer) ∧
      ∀ r, SslReads s.receiver.buffer r → SendsFrames msgs s r → FitsInt s →
        ∃ s', s.sslHandlerRead junk pbMap getMsgCallback r = .ok s' := by
  obtain ⟨n, reading⟩ : ∃ n, Reading getMsgCallback msgs s n := by
    refine run.invariant (I := fun _ s => ∃ n, Reading getMsgCallback msgs s n) ?_ ?_
    · intro s fresh
      rw [show s = _ from fresh]
      exact ⟨0, .start junk⟩
    · intro events s r s' _ before step
      obtain ⟨n, reading⟩ := before
      obtain ⟨⟨sends, fits⟩, reads, ran⟩ := step
      obtain ⟨s'', n', ran', _, reading', _⟩ :=
        reading.step junk lawful receivable fits reads sends
      cases ran.symm.trans ran'
      exact ⟨n', reading'⟩
  refine ⟨n, reading.input.count, reading.dispatched_msgs, reading.input.bytes, ?_, ?_⟩
  · intro fits
    have room := reading.room
    rw [offered_eq reading.input.wf fits]
    omega
  · intro r reads sends fits
    obtain ⟨s', _, ran, _⟩ := reading.step junk lawful receivable fits reads sends
    exact ⟨s', ran⟩

theorem tls_input_reads_ping :
    ∃ s : TlsInput pingProto Unit, s.received = frameLayout pingProto (5 : Fin 128) ∧
      ∃ n ≤ 1, s.receiver.dispatched.map (·.msg) = [(5 : Fin 128)].take n := by
  obtain ⟨s, run, received⟩ := tls_ping_run
  obtain ⟨n, count, dispatched, _⟩ := tls_input_reads (fun _ => 0) pingProto_lawful ping_receivable
    (run.weaken fun _ _ all => ⟨all.1.1, all.2⟩)
  exact ⟨s, received, n, count, dispatched⟩

/-- **A TLS connection keeps up with an unhurried peer.** If no event completes more than one
frame then, without any bound on the block, every message whose frame has been decrypted whole
has been dispatched, no frame waits, the block has less than the bytes of seven frames, and
`SSL_read` is always offered room. -/
theorem tls_input_keeps_up (lawful : pb.Lawful) (receivable : Receivable pbMap msgs)
    {events : List SslRead}
    (run : ((tlsSys junk pbMap getMsgCallback).restrict
      fun s r => SendsFrames msgs s r ∧ SendsOne msgs s r).Run events s) :
    s.receiver.dispatched.map (·.msg) = msgs.take (completed pb msgs s.received.length) ∧
      ¬ HasFrame s.receiver.buffer.readable ∧ s.receiver.buffer.len < 7 * maxFrame ∧
      0 < offered s.receiver.buffer := by
  have attentive : Attentive getMsgCallback msgs s := by
    refine run.invariant (I := fun _ s => Attentive getMsgCallback msgs s) ?_ ?_
    · intro s fresh
      rw [show s = _ from fresh]
      exact .start junk
    · intro events s r s' _ before step
      obtain ⟨⟨sends, one⟩, reads, ran⟩ := step
      obtain ⟨s'', ran', _, after⟩ := before.step junk lawful receivable reads sends one
      cases ran.symm.trans ran'
      exact after
  have room := attentive.reading.room
  have small := attentive.small
  refine ⟨attentive.reading.dispatched_msgs, ?_, ?_, ?_⟩
  · intro frame
    rw [attentive.reading.input.hasFrame_iff getMsgCallback lawful receivable
      attentive.reading.sent] at frame
    exact absurd frame (Nat.lt_irrefl _)
  · unfold maxFrame kCheapPrepend at *
    omega
  · rw [offered_eq attentive.reading.input.wf attentive.fits]
    omega

theorem tls_input_keeps_up_ping :
    ∃ s : TlsInput pingProto Unit, s.receiver.dispatched.map (·.msg) = [(5 : Fin 128)] := by
  obtain ⟨s, run, received⟩ := tls_ping_run
  obtain ⟨dispatched, _⟩ :=
    tls_input_keeps_up (fun _ => 0) pingProto_lawful ping_receivable
      (run.weaken fun _ _ all => all.1)
  have whole : completed pingProto [(5 : Fin 128)] s.received.length = 1 := by
    rw [received]
    decide
  rw [whole] at dispatched
  exact ⟨s, dispatched⟩

end Step

end GpBase.Ipc

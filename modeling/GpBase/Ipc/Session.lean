import GpBase.Codec.Pacing
import GpBase.Conn.Output
import GpBase.Conn.Read
import GpBase.Lib.Outcome

/-!
# A session of the message server

One connection of a `gp_ipc_server` seen from the loop: `connection_handler_read` of
`gp_conn.c` calls `on_message`, which decodes a frame and calls the callback registered for
its type, which answers with `conn_send`; `connection_handler_write` sends what could not be
sent at once. The bytes that go out are then a function of the messages that came in.
-/

namespace GpBase.Ipc

open GpBase.Lib GpBase.Buffer GpBase.Codec GpBase.Conn GpBase.Event

/-- What the registered callbacks do with a message: the blocks that they hand to
`conn_send`, in order. -/
structure Application (pb : ProtobufC) (Callback : Type) where
  replies : Callback → pb.Msg → List (List UInt8)

/-- A connection with the input that its handlers have seen. -/
structure Session (pb : ProtobufC) (Callback : Type) where
  conn : GpConnection
  inputBuffer : GpBuffer
  /-- every byte that `readv` has taken from the socket -/
  received : List UInt8
  dispatched : List (Dispatch pb Callback)

/-- The events that `handle_event` passes on, with the outcomes of the system calls: the
`write()` calls of a read event are those of the callback, numbered from 0. -/
inductive SessionEvent
  | readable (r : ReadResult) (ws : Nat → WriteResult)
  | writable (w : WriteResult)

/-- `conn_send` on the loop thread. -/
def connSend (junk : Nat → UInt8) (w : WriteResult) (c : GpConnection) (data : List UInt8) :
    Except Fault GpConnection :=
  if c.state = .connected then c.connSendInLoop junk w data else .ok c

/-- The calls of `conn_send` that a callback makes. -/
def connSends (junk : Nat → UInt8) :
    (Nat → WriteResult) → GpConnection → List (List UInt8) → Except Fault GpConnection
  | _, c, [] => .ok c
  | ws, c, data :: rest => do
    let c ← connSend junk (ws 0) c data
    connSends junk (fun i => ws (i + 1)) c rest

section

variable {pb : ProtobufC} {Callback : Type} (app : Application pb Callback)

/-- What is sent for a dispatch: `protobuf_default_callback` sends nothing. -/
def Application.answer (d : Dispatch pb Callback) : List (List UInt8) :=
  match d.callback with
  | some cb => app.replies cb d.msg
  | none => []

namespace Session

variable (junk : Nat → UInt8) (pbMap : CString → Option pb.Desc)
  (getMsgCallback : CString → Option Callback) (s : Session pb Callback)

/-- `on_message` with the callback that it calls. -/
def onMessage (ws : Nat → WriteResult) : Except Fault (Session pb Callback) := do
  let (b, out) ← Codec.onMessage pbMap getMsgCallback s.inputBuffer
  match out with
  | none => return { s with inputBuffer := b }
  | some d =>
    let conn ← connSends junk ws s.conn (app.answer d)
    return { s with conn := conn, inputBuffer := b, dispatched := s.dispatched ++ [d] }

/-- `connection_handler_read`. A connection that is closed gets no more events. -/
def connectionHandlerRead (r : ReadResult) (ws : Nat → WriteResult) :
    Except Fault (Session pb Callback) := do
  let (b, n, _) ← s.inputBuffer.bufferReadFd junk r 0
  let s := { s with inputBuffer := b, received := s.received ++ taken s.inputBuffer r }
  -- `n` is a `size_t`: a failed `readv` counts as positive
  if 0 < n then s.onMessage app junk pbMap getMsgCallback ws
  else if n = 0 then
    return { s with conn := GpConnection.disableAll { s.conn with state := .disconnected } }
  else return s

def exec : SessionEvent → Except Fault (Session pb Callback)
  | .readable r ws => s.connectionHandlerRead app junk pbMap getMsgCallback r ws
  | .writable w => do
    let conn ← s.conn.connectionHandlerWrite w
    return { s with conn := conn }

end Session

/-- The events of a connection that has just been established. -/
def sessionSys (junk : Nat → UInt8) (pbMap : CString → Option pb.Desc)
    (getMsgCallback : CString → Option Callback) : TSys (Session pb Callback) SessionEvent where
  init s := s.conn.state = .connected ∧ s.conn.outputBuffer = .initGpBuffer junk ∧
    s.conn.accepted = [] ∧ s.inputBuffer = .initGpBuffer junk ∧ s.received = [] ∧
    s.dispatched = []
  step s ev s' := s.conn.state = .connected ∧ s.exec app junk pbMap getMsgCallback ev = .ok s'

/-- The bytes that answer a list of messages. -/
def serve (getMsgCallback : CString → Option Callback) (msgs : List pb.Msg) : List UInt8 :=
  msgs.flatMap fun msg => (app.answer (dispatchOf getMsgCallback msg)).flatten

/-- The peer sends the frames of `msgs`, and no `write()` meets a broken connection or fails
while bytes are queued for a `POLLOUT` event. -/
def Orderly (msgs : List pb.Msg) (s : Session pb Callback) : SessionEvent → Prop
  | .readable r ws => s.received ++ taken s.inputBuffer r <+: frames pb msgs ∧
      ∀ i, GpConnection.faultError (ws i) = false
  | .writable w => KeepsStream s.conn (.pollOut w)

/-- The bytes that an event takes from the socket. -/
def arriving (s : Session pb Callback) : SessionEvent → List UInt8
  | .readable r _ => taken s.inputBuffer r
  | .writable _ => []

/-- The event completes at most one frame. -/
def Unhurried (msgs : List pb.Msg) (s : Session pb Callback) (ev : SessionEvent) : Prop :=
  completed pb msgs (s.received ++ arriving s ev).length ≤
    completed pb msgs s.received.length + 1

/-! ## Read events -/

section ReadEvent

variable (junk : Nat → UInt8) (pbMap : CString → Option pb.Desc)
  (getMsgCallback : CString → Option Callback)

/-- `on_message` as the message callback of a read event, and nothing for the others. -/
def onMessageCallbacks (ws : Nat → WriteResult) : Callbacks where
  message t :=
    match Session.onMessage app junk pbMap getMsgCallback ⟨t.conn, t.inputBuffer, [], []⟩ ws with
    | .ok s => { t with conn := s.conn, inputBuffer := s.inputBuffer }
    | .error _ => t
  connection := id
  close := id

/-- `on_message` does not look at what has been recorded. -/
theorem onMessage_message {s s' : Session pb Callback} {ws : Nat → WriteResult}
    (done : s.onMessage app junk pbMap getMsgCallback ws = .ok s') (t : InputSide)
    (conn : t.conn = s.conn) (inputBuffer : t.inputBuffer = s.inputBuffer) :
    (onMessageCallbacks app junk pbMap getMsgCallback ws).message t =
      { t with conn := s'.conn, inputBuffer := s'.inputBuffer } := by
  obtain ⟨⟨b, out⟩, decoded, done⟩ := bind_eq_ok done
  unfold onMessageCallbacks Session.onMessage
  dsimp only
  rw [conn, inputBuffer, decoded]
  cases out with
  | none =>
      cases done
      rfl
  | some d =>
      obtain ⟨c, sent, done⟩ := bind_eq_ok done
      cases done
      simp only [ok_bind]
      rw [sent]
      rfl

/-- A session reads as `connection_handler_read` does with these callbacks. -/
theorem connectionHandlerRead_inputSide {s s' : Session pb Callback} {r : ReadResult}
    {ws : Nat → WriteResult}
    (done : s.connectionHandlerRead app junk pbMap getMsgCallback r ws = .ok s')
    (t : InputSide) (conn : t.conn = s.conn) (inputBuffer : t.inputBuffer = s.inputBuffer) :
    ∃ t' calls, t.connectionHandlerRead (onMessageCallbacks app junk pbMap getMsgCallback ws)
        junk r = .ok (t', calls) ∧
      t'.conn = s'.conn ∧ t'.inputBuffer = s'.inputBuffer := by
  obtain ⟨⟨b, n, errno⟩, read, done⟩ := bind_eq_ok done
  unfold InputSide.connectionHandlerRead
  rw [inputBuffer, read, ok_bind]
  dsimp only at done ⊢
  split at done
  · rename_i positive
    rw [if_pos positive]
    have called := onMessage_message app junk pbMap getMsgCallback done
      (InputSide.connRefInc { t with inputBuffer := b }) conn (by rfl)
    refine ⟨_, _, rfl, ?_⟩
    rw [called]
    exact ⟨rfl, rfl⟩
  · rename_i notPositive
    rw [if_neg notPositive]
    split at done
    · rename_i eof
      cases done
      rw [if_pos eof]
      refine ⟨_, _, rfl, ?_, rfl⟩
      show GpConnection.disableAll { t.conn with state := .disconnected } = _
      rw [conn]
    · rename_i failed
      cases done
      rw [if_neg failed]
      exact ⟨_, _, rfl, conn, rfl⟩

end ReadEvent

/-! ## Sending -/

theorem connSends_spec (junk : Nat → UInt8) (blocks : List (List UInt8)) :
    ∀ (ws : Nat → WriteResult) (c : GpConnection), c.outputBuffer.WF → c.state = .connected →
      (∀ i, GpConnection.faultError (ws i) = false) →
      ∃ c', connSends junk ws c blocks = .ok c' ∧ c'.outputBuffer.WF ∧ c'.state = .connected ∧
        c'.stream = c.stream ++ blocks.flatten := by
  induction blocks with
  | nil =>
      intro ws c wf connected _
      exact ⟨c, rfl, wf, connected, by simp⟩
  | cons data rest ih =>
      intro ws c wf connected sound
      obtain ⟨c₁, sent, wf₁, state₁, stream₁⟩ := c.connSendInLoop_spec junk wf (ws 0) data
      have alive : c.state ≠ .disconnected := by
        rw [connected]
        decide
      obtain ⟨c', later, wf', state', stream'⟩ := ih (fun i => ws (i + 1)) c₁ wf₁
        (state₁.trans connected) (fun i => sound (i + 1))
      refine ⟨c', ?_, wf', state', ?_⟩
      · show (connSend junk (ws 0) c data >>= fun c =>
          connSends junk (fun i => ws (i + 1)) c rest) = .ok c'
        rw [connSend, if_pos connected, sent]
        exact later
      · rw [stream', stream₁ alive (sound 0), List.flatten_cons, List.append_assoc]

theorem serve_append (getMsgCallback : CString → Option Callback) (msgs msgs' : List pb.Msg) :
    serve app getMsgCallback (msgs ++ msgs') =
      serve app getMsgCallback msgs ++ serve app getMsgCallback msgs' :=
  List.flatMap_append

/-! ## The invariant -/

/-- After `n` messages of `msgs`: they have been dispatched, what is behind them waits in the
input buffer, and their answers are on the wire or queued. -/
structure Serving (getMsgCallback : CString → Option Callback) (msgs : List pb.Msg)
    (s : Session pb Callback) (n : Nat) : Prop where
  input : InStep getMsgCallback msgs s.received ⟨s.inputBuffer, s.dispatched⟩ n
  sent : s.received <+: frames pb msgs
  output : s.conn.outputBuffer.WF
  stream : s.conn.stream = serve app getMsgCallback (msgs.take n)

variable {app} (junk : Nat → UInt8) {pbMap : CString → Option pb.Desc}
  {getMsgCallback : CString → Option Callback} {msgs : List pb.Msg} {s : Session pb Callback}
  {n : Nat}

theorem Serving.dispatched_msgs (serving : Serving app getMsgCallback msgs s n) :
    s.dispatched.map (·.msg) = msgs.take n := by
  show (Receiver.dispatched ⟨s.inputBuffer, s.dispatched⟩).map (·.msg) = _
  rw [serving.input.dispatched, List.map_map]
  exact (List.map_congr_left fun _ _ => rfl).trans (List.map_id _)

/-- `on_message` serves the next message when its frame is complete. -/
theorem Serving.onMessage (lawful : pb.Lawful) (receivable : Receivable pbMap msgs)
    (serving : Serving app getMsgCallback msgs s n) (connected : s.conn.state = .connected)
    {ws : Nat → WriteResult}
    (sound : ∀ i, GpConnection.faultError (ws i) = false) :
    ∃ s', s.onMessage app junk pbMap getMsgCallback ws = .ok s' ∧
      s'.received = s.received ∧ s'.conn.state = .connected ∧
      Serving app getMsgCallback msgs s'
        (if HasFrame s.inputBuffer.readable then n + 1 else n) := by
  have rest : Receivable pbMap (msgs.drop n) :=
    fun msg member => receivable msg (List.mem_of_mem_drop member)
  have start := serving.input.start getMsgCallback serving.sent
  unfold Session.onMessage
  obtain ⟨waiting, b', returned, wf', same⟩ | ⟨frame, msg, later, b', first, returned, wf', split⟩ :=
    onMessage_stream getMsgCallback lawful rest serving.input.wf start
  · rw [if_neg waiting, returned]
    refine ⟨{ s with inputBuffer := b' }, rfl, rfl, connected, ⟨wf', serving.input.count,
      serving.input.dispatched, ?_⟩, serving.sent, serving.output, serving.stream⟩
    rw [serving.input.bytes, same]
  · rw [if_pos frame, returned]
    obtain ⟨c', answered, output, open_, stream⟩ := connSends_spec junk
      (app.answer (dispatchOf getMsgCallback msg)) ws s.conn serving.output connected sound
    have inRange : n < msgs.length := by
      by_contra past
      rw [List.drop_eq_nil_of_le (by omega)] at first
      cases first
    have next : msgs.take (n + 1) = msgs.take n ++ [msg] := by
      rw [List.drop_eq_getElem_cons inRange, List.cons.injEq] at first
      rw [List.take_succ_eq_append_getElem inRange, first.1]
    simp only [bind, Except.bind, pure, Except.pure, answered]
    refine ⟨_, rfl, rfl, open_, ⟨wf', inRange, ?_, ?_⟩, serving.sent, output, ?_⟩
    · show s.dispatched ++ [dispatchOf getMsgCallback msg] = _
      rw [next, List.map_append, ← serving.input.dispatched]
      rfl
    · show s.received = _
      rw [next, frames_append, serving.input.bytes, split]
      simp [frames]
    · rw [stream, serving.stream, next, serve_append]
      simp [serve]

/-- What a read event makes of `n` served messages: the callback serves one more if its frame
has ended; at the end of the stream it is not called. -/
def Advances (msgs : List pb.Msg) (s s' : Session pb Callback) (n n' : Nat) : Prop :=
  (n' = if n < completed pb msgs s'.received.length then n + 1 else n) ∨
    (n' = n ∧ s'.received = s.received)

/-- A read event hands on what it received. -/
theorem Serving.read (lawful : pb.Lawful) (receivable : Receivable pbMap msgs)
    (serving : Serving app getMsgCallback msgs s n) (connected : s.conn.state = .connected)
    {r : ReadResult} {ws : Nat → WriteResult} (orderly : Orderly msgs s (.readable r ws)) :
    ∃ s' n', s.connectionHandlerRead app junk pbMap getMsgCallback r ws = .ok s' ∧
      s'.received = s.received ++ taken s.inputBuffer r ∧
      (taken s.inputBuffer r ≠ [] → s'.conn.state = .connected) ∧
      Serving app getMsgCallback msgs s' n' ∧ Advances msgs s s' n n' := by
  obtain ⟨sent, sound⟩ := orderly
  -- the connection as the callback finds it
  have found : ∀ {b : GpBuffer}, b.WF →
      b.readable = s.inputBuffer.readable ++ taken s.inputBuffer r → ∀ conn : GpConnection,
      conn.outputBuffer = s.conn.outputBuffer → conn.accepted = s.conn.accepted →
      Serving app getMsgCallback msgs
        { s with
          conn := conn
          inputBuffer := b
          received := s.received ++ taken s.inputBuffer r } n := by
    intro b wf readable conn buffer accepted
    refine ⟨⟨wf, serving.input.count, serving.input.dispatched, ?_⟩, sent,
      buffer ▸ serving.output, ?_⟩
    · show s.received ++ _ = _ ++ b.readable
      rw [readable, serving.input.bytes, List.append_assoc]
    · rw [← serving.stream, GpConnection.stream, GpConnection.stream, buffer, accepted]
  have called : ∀ {b : GpBuffer}, b.WF →
      b.readable = s.inputBuffer.readable ++ taken s.inputBuffer r →
      ∃ s' n', Session.onMessage app junk pbMap getMsgCallback
          { s with inputBuffer := b, received := s.received ++ taken s.inputBuffer r } ws = .ok s' ∧
        s'.received = s.received ++ taken s.inputBuffer r ∧
        (taken s.inputBuffer r ≠ [] → s'.conn.state = .connected) ∧
        Serving app getMsgCallback msgs s' n' ∧ Advances msgs s s' n n' := by
    intro b wf readable
    have here := found wf readable s.conn rfl rfl
    obtain ⟨s', ran, same, open_, serving'⟩ :=
      here.onMessage junk lawful receivable connected sound
    refine ⟨s', _, ran, same, fun _ => open_, serving', .inl ?_⟩
    rw [same]
    simp only [here.input.hasFrame_iff getMsgCallback lawful receivable sent]
  unfold Session.connectionHandlerRead
  cases r with
  | error errno => exact called serving.input.wf (by simp [taken])
  | data avail =>
      obtain ⟨b, read, wf, readable⟩ := serving.input.wf.bufferReadFd_data junk avail 0
      simp only [read, bind, Except.bind, pure, Except.pure]
      by_cases some_ : 0 < (avail.take s.inputBuffer.readvLimit).length
      · rw [if_pos some_]
        exact called wf readable
      · -- the peer has closed the connection
        have nothing : taken s.inputBuffer (.data avail) = [] := by
          apply List.eq_nil_of_length_eq_zero
          show (avail.take s.inputBuffer.readvLimit).length = 0
          omega
        rw [if_neg some_, if_pos (by omega)]
        refine ⟨_, n, rfl, rfl, fun some_ => absurd nothing some_, found wf readable _ rfl rfl,
          .inr ⟨rfl, ?_⟩⟩
        show s.received ++ _ = s.received
        rw [nothing, List.append_nil]

/-- Writable events do not touch the input. -/
theorem Serving.write (serving : Serving app getMsgCallback msgs s n) {w : WriteResult}
    (orderly : Orderly msgs s (.writable w)) :
    ∃ c, s.conn.connectionHandlerWrite w = .ok c ∧
      Serving app getMsgCallback msgs { s with conn := c } n := by
  obtain ⟨c, wrote, output, _, stream⟩ :=
    GpConnection.connectionHandlerWrite_spec serving.output w
  refine ⟨c, wrote, serving.input, serving.sent, output, ?_⟩
  show c.stream = _
  rw [stream orderly.2, serving.stream]

/-- One event. -/
theorem Serving.step (lawful : pb.Lawful) (receivable : Receivable pbMap msgs)
    (serving : Serving app getMsgCallback msgs s n) (connected : s.conn.state = .connected)
    {ev : SessionEvent} (orderly : Orderly msgs s ev) :
    ∃ s' n', s.exec app junk pbMap getMsgCallback ev = .ok s' ∧
      Serving app getMsgCallback msgs s' n' ∧ Advances msgs s s' n n' ∧
      s'.received = s.received ++ arriving s ev ∧
      (arriving s ev ≠ [] → s'.conn.state = .connected) := by
  cases ev with
  | readable r ws =>
      obtain ⟨s', n', ran, received, open_, serving', advances⟩ :=
        serving.read junk lawful receivable connected orderly
      exact ⟨s', n', ran, serving', advances, received, open_⟩
  | writable w =>
      obtain ⟨c, wrote, serving'⟩ := serving.write orderly
      refine ⟨{ s with conn := c }, n, ?_, serving', .inr ⟨rfl, rfl⟩, (List.append_nil _).symm,
        fun some_ => absurd rfl some_⟩
      show (s.conn.connectionHandlerWrite w >>= fun c => pure { s with conn := c }) = _
      rw [wrote]
      rfl

theorem Serving.start (fresh : (sessionSys app junk pbMap getMsgCallback).init s) :
    Serving app getMsgCallback msgs s 0 := by
  obtain ⟨_, output, accepted, input, received, dispatched⟩ := fresh
  refine ⟨⟨?_, Nat.zero_le _, ?_, ?_⟩, ?_, ?_, ?_⟩
  · show s.inputBuffer.WF
    rw [input]
    exact .init junk
  · simp [dispatched]
  · rw [received]
    show [] = [] ++ s.inputBuffer.readable
    rw [input, GpBuffer.readable_init]
    rfl
  · rw [received]
    exact List.nil_prefix
  · rw [output]
    exact .init junk
  · rw [GpConnection.stream, accepted, output, GpBuffer.readable_init]
    rfl

/-! ## Whole sessions -/

/-- **A session answers what it receives.** In every orderly run, however the requests are
cut into read events and however short the writes are: the messages dispatched are the first
`n` that the peer has sent, the bytes received are their frames followed by what waits in the
input buffer, the bytes on the wire and in the output buffer are the answers to these `n`
messages in order, and no further orderly event faults. -/
theorem session_serves (lawful : pb.Lawful) (receivable : Receivable pbMap msgs)
    {events : List SessionEvent}
    (run : ((sessionSys app junk pbMap getMsgCallback).restrict (Orderly msgs)).Run events s) :
    ∃ n ≤ msgs.length, s.dispatched.map (·.msg) = msgs.take n ∧
      s.received = frames pb (msgs.take n) ++ s.inputBuffer.readable ∧
      s.conn.accepted ++ s.conn.outputBuffer.readable =
        serve app getMsgCallback (msgs.take n) ∧
      ∀ ev, s.conn.state = .connected → Orderly msgs s ev →
        ∃ s', s.exec app junk pbMap getMsgCallback ev = .ok s' := by
  obtain ⟨n, serving⟩ : ∃ n, Serving app getMsgCallback msgs s n := by
    refine run.invariant (I := fun _ s => ∃ n, Serving app getMsgCallback msgs s n) ?_ ?_
    · intro s fresh
      have fresh : (sessionSys app junk pbMap getMsgCallback).init s := fresh
      exact ⟨0, .start junk fresh⟩
    · intro events s ev s' _ served step
      obtain ⟨n, serving⟩ := served
      obtain ⟨orderly, connected, ran⟩ := step
      obtain ⟨s'', n', ran', serving', _⟩ :=
        serving.step junk lawful receivable connected orderly
      cases ran.symm.trans ran'
      exact ⟨n', serving'⟩
  refine ⟨n, serving.input.count, serving.dispatched_msgs, serving.input.bytes, serving.stream, ?_⟩
  intro ev connected orderly
  obtain ⟨s', _, ran, _⟩ := serving.step junk lawful receivable connected orderly
  exact ⟨s', ran⟩

/-- In an unhurried run no complete frame waits. -/
theorem Serving.keeps_up {s' : Session pb Callback} {n' : Nat} {ev : SessionEvent}
    (upToDate : n = completed pb msgs s.received.length) (advances : Advances msgs s s' n n')
    (received : s'.received = s.received ++ arriving s ev) (unhurried : Unhurried msgs s ev) :
    n' = completed pb msgs s'.received.length := by
  have more : completed pb msgs s.received.length ≤ completed pb msgs s'.received.length := by
    apply completed_mono
    rw [received, List.length_append]
    exact Nat.le_add_right _ _
  rw [Unhurried, ← received] at unhurried
  obtain next | ⟨same, nothing⟩ := advances
  · rw [next]
    split <;> omega
  · rw [same, nothing, upToDate]

/-- Unhurried runs are up to date. -/
theorem Serving.of_run (lawful : pb.Lawful) (receivable : Receivable pbMap msgs)
    {events : List SessionEvent}
    (run : ((sessionSys app junk pbMap getMsgCallback).restrict
      fun s ev => Orderly msgs s ev ∧ Unhurried msgs s ev).Run events s) :
    Serving app getMsgCallback msgs s (completed pb msgs s.received.length) := by
  refine run.invariant (I := fun _ s =>
    Serving app getMsgCallback msgs s (completed pb msgs s.received.length)) ?_ ?_
  · intro s fresh
    have fresh : (sessionSys app junk pbMap getMsgCallback).init s := fresh
    have none : completed pb msgs s.received.length = 0 := by
      rw [fresh.2.2.2.2.1]
      cases msgs with
      | nil => rfl
      | cons msg rest => simp [completed, frameLayout]
    rw [none]
    exact .start junk fresh
  · intro events s ev s' _ serving step
    obtain ⟨⟨orderly, unhurried⟩, connected, ran⟩ := step
    obtain ⟨s'', n', ran', serving', advances, received, _⟩ :=
      serving.step junk lawful receivable connected orderly
    cases ran.symm.trans ran'
    rw [← Serving.keeps_up rfl advances received unhurried]
    exact serving'

/-- **A session keeps up with an unhurried peer.** When moreover no read event completes more
than one frame, every message whose frame has been received whole has been dispatched, and
its answer is on the wire or queued. -/
theorem session_keeps_up (lawful : pb.Lawful) (receivable : Receivable pbMap msgs)
    {events : List SessionEvent}
    (run : ((sessionSys app junk pbMap getMsgCallback).restrict
      fun s ev => Orderly msgs s ev ∧ Unhurried msgs s ev).Run events s) :
    s.dispatched.map (·.msg) = msgs.take (completed pb msgs s.received.length) ∧
      ¬ HasFrame s.inputBuffer.readable ∧
      s.conn.accepted ++ s.conn.outputBuffer.readable =
        serve app getMsgCallback (msgs.take (completed pb msgs s.received.length)) := by
  have serving := Serving.of_run junk lawful receivable run
  refine ⟨serving.dispatched_msgs, ?_, serving.stream⟩
  intro frame
  rw [serving.input.hasFrame_iff getMsgCallback lawful receivable serving.sent] at frame
  exact absurd frame (Nat.lt_irrefl _)

end

/-! ## A request -/

/-- A connection that has just been established. -/
def opened (pb : ProtobufC) (Callback : Type) : Session pb Callback where
  conn := established
  inputBuffer := .initGpBuffer fun _ => 0
  received := []
  dispatched := []

/-- Small packets arrive whole. -/
theorem taken_data (b : GpBuffer) {avail : List UInt8} (small : avail.length ≤ extrabufSize) :
    taken b (.data avail) = avail := by
  apply List.take_of_length_le
  unfold GpBuffer.readvLimit
  split <;> omega

/-- Every message is answered with its own frame. -/
def echo : Application pingProto Unit where
  replies _ msg := [pingFrame msg]

theorem ping_receivable : Receivable (fun _ => some () : CString → Option pingProto.Desc)
    [(5 : Fin 128)] := fun _ _ => ⟨rfl, show 11 ≤ 65536 by decide⟩

/-- Unhurried sessions of the echo server with a peer that sends `Ping`s. -/
def echoSys (msgs : List pingProto.Msg) : TSys (Session pingProto Unit) SessionEvent :=
  (sessionSys echo (fun _ => 0) (fun _ => some ()) (fun _ => some ())).restrict
    fun s ev => Orderly msgs s ev ∧ Unhurried msgs s ev

theorem opened_init : (sessionSys echo (fun _ => 0) (fun _ => some ()) (fun _ => some ())).init
    (opened pingProto Unit) := ⟨rfl, rfl, rfl, rfl, rfl, rfl⟩

/-- A small packet arrives, and one byte of each answer can be written at once. -/
theorem echo_step {msgs : List pingProto.Msg} {s : Session pingProto Unit} {n : Nat}
    (receivable : Receivable (fun _ => some () : CString → Option pingProto.Desc) msgs)
    (serving : Serving echo (fun _ => some ()) msgs s n) (connected : s.conn.state = .connected)
    (avail : List UInt8) (small : avail.length ≤ extrabufSize) (some_ : avail ≠ [])
    (sends : s.received ++ avail <+: frames pingProto msgs)
    (unhurried : completed pingProto msgs (s.received ++ avail).length ≤
      completed pingProto msgs s.received.length + 1) :
    ∃ s' n', (echoSys msgs).step s (.readable (.data avail) fun _ => .wrote 1) s' ∧
      Serving echo (fun _ => some ()) msgs s' n' ∧ s'.received = s.received ++ avail ∧
      s'.conn.state = .connected := by
  have arrives : taken s.inputBuffer (.data avail) = avail := taken_data _ small
  have orderly : Orderly msgs s (.readable (.data avail) fun _ => .wrote 1) := by
    refine ⟨?_, fun _ => rfl⟩
    rw [arrives]
    exact sends
  have slow : Unhurried msgs s (.readable (.data avail) fun _ => .wrote 1) := by
    rw [Unhurried, arriving, arrives]
    exact unhurried
  obtain ⟨s', n', ran, serving', _, received, open_⟩ :=
    serving.step (fun _ => 0) pingProto_lawful receivable connected orderly
  rw [arriving, arrives] at received open_
  exact ⟨s', n', ⟨⟨orderly, slow⟩, connected, ran⟩, serving', received, open_ some_⟩

/-- The peer sends one `Ping`. -/
theorem echo_run :
    ∃ s, (echoSys [(5 : Fin 128)]).Run
      [.readable (.data (frameLayout pingProto (5 : Fin 128))) (fun _ => .wrote 1)] s ∧
      s.received = frameLayout pingProto (5 : Fin 128) ∧ s.conn.state = .connected ∧
      s.conn.outputBuffer.WF := by
  obtain ⟨s, _, step, serving, received, connected⟩ :=
    echo_step ping_receivable (Serving.start _ opened_init) rfl
      (frameLayout pingProto (5 : Fin 128)) (by decide) (by decide) ⟨[], rfl⟩ (by decide)
  have run₀ : (echoSys [(5 : Fin 128)]).Run [] (opened pingProto Unit) := .init opened_init
  exact ⟨s, run₀.step step, received, connected, serving.output⟩

/-- The peer sends two `Ping`s, cut inside the second one. -/
theorem echo_run_two :
    ∃ events s, (echoSys [(5 : Fin 128), (9 : Fin 128)]).Run events s ∧
      s.received = frames pingProto [(5 : Fin 128), (9 : Fin 128)] := by
  have receivable : Receivable (fun _ => some () : CString → Option pingProto.Desc)
      [(5 : Fin 128), (9 : Fin 128)] := fun _ _ => ⟨rfl, show 11 ≤ 65536 by decide⟩
  let stream := frames pingProto [(5 : Fin 128), (9 : Fin 128)]
  obtain ⟨s₁, n₁, step₁, serving₁, received₁, connected₁⟩ :=
    echo_step receivable (Serving.start _ opened_init) rfl (stream.take 25) (by decide)
      (by decide) (List.take_prefix 25 stream) (by decide)
  have first : s₁.received = stream.take 25 := received₁
  obtain ⟨s₂, _, step₂, _, received₂, _⟩ :=
    echo_step receivable serving₁ connected₁ (stream.drop 25) (by decide) (by decide)
      (by rw [first, List.take_append_drop]) (by rw [first]; decide)
  have run₀ : (echoSys [(5 : Fin 128), (9 : Fin 128)]).Run [] (opened pingProto Unit) :=
    .init opened_init
  refine ⟨_, s₂, (run₀.step step₁).step step₂, ?_⟩
  rw [received₂, first, List.take_append_drop]

/-- Both are dispatched and answered. -/
theorem session_serves_pings :
    ∃ s : Session pingProto Unit,
      s.received = frames pingProto [(5 : Fin 128), (9 : Fin 128)] ∧
      s.dispatched.map (·.msg) = [(5 : Fin 128), (9 : Fin 128)] ∧
      s.conn.accepted ++ s.conn.outputBuffer.readable = pingFrame 5 ++ pingFrame 9 := by
  have receivable : Receivable (fun _ => some () : CString → Option pingProto.Desc)
      [(5 : Fin 128), (9 : Fin 128)] := fun _ _ => ⟨rfl, show 11 ≤ 65536 by decide⟩
  obtain ⟨events, s, run, received⟩ := echo_run_two
  obtain ⟨n, count, dispatched, _, stream, _⟩ :=
    session_serves (fun _ => 0) pingProto_lawful receivable (run.weaken fun _ _ both => both.1)
  have all := (Serving.of_run (fun _ => 0) pingProto_lawful receivable run).dispatched_msgs
  have whole : completed pingProto [(5 : Fin 128), (9 : Fin 128)] s.received.length = 2 := by
    rw [received]
    decide
  rw [whole] at all
  have two : n = 2 := by
    have length := congrArg List.length (dispatched.symm.trans all)
    rw [List.length_take, Nat.min_eq_left count] at length
    exact length
  subst two
  exact ⟨s, received, dispatched, stream⟩

theorem session_keeps_up_ping :
    ∃ s : Session pingProto Unit, s.dispatched.map (·.msg) = [(5 : Fin 128)] ∧
      s.conn.accepted ++ s.conn.outputBuffer.readable = pingFrame 5 := by
  obtain ⟨s, run, received, _⟩ := echo_run
  obtain ⟨dispatched, _, stream⟩ :=
    session_keeps_up (fun _ => 0) pingProto_lawful ping_receivable run
  have whole : completed pingProto [(5 : Fin 128)] s.received.length = 1 := by
    rw [received]
    decide
  rw [whole] at dispatched stream
  exact ⟨s, dispatched, stream⟩

end GpBase.Ipc

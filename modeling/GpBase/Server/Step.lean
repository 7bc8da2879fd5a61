import GpBase.Server.Keep

/-!
# What each step of the loop keeps

The functions of the server, each with the invariant that it needs and keeps: the
calls of the application, the tasks, the callbacks of `handle_event` and the poll.
-/

namespace GpBase.Event

/-- A call that makes no request. -/
theorem Requests.none {α : Type*} {val : CtlRequest → α} {interest : Int → Option α}
    {h : Handler} {v : α} (follows : Follows interest h v) (value : ∀ q, val q = v) :
    Requests val interest h h [] := by
  refine ⟨by simp, rfl, by simp, fun v' value' => ?_⟩
  have same : v' = v := by
    rw [← value ⟨.add, h.fd, h.events⟩, value' ⟨.add, h.fd, h.events⟩ rfl]
  rw [same]
  exact follows

/-- A registered handler that is interested in reading stays registered, whatever else
its mask is changed to. -/
theorem Epoller.updateHandler_added (e : Epoller) {h : Handler} (added : h.index = .added)
    (reads : h.events &&& kreadEvent = kreadEvent) : (e.updateHandler h).2 = h := by
  have some : h.events ≠ knoneEvent := by
    intro none
    rw [none] at reads
    revert reads
    decide
  rcases e.updateHandler_cases h with ⟨other, _⟩ | ⟨_, _, ⟨none, _⟩ | ⟨_, _, same⟩⟩
  · exact absurd added other
  · exact absurd none some
  · exact same

theorem reads_enableWriting {events : Mask} (reads : events &&& kreadEvent = kreadEvent) :
    (events ||| kwriteEvent) &&& kreadEvent = kreadEvent := by
  rw [BitVec.and_or_distrib_right, reads]
  decide

theorem reads_disableWriting {events : Mask} (reads : events &&& kreadEvent = kreadEvent) :
    events &&& ~~~kwriteEvent &&& kreadEvent = kreadEvent := by
  rw [BitVec.and_assoc, show ~~~kwriteEvent &&& kreadEvent = kreadEvent by decide, reads]

end GpBase.Event

namespace GpBase.Server

open GpBase.Lib GpBase.Buffer GpBase.Event GpBase.Conn GpBase.Loop

section Steps

variable {s s' : ServerState} {walk walk' : List Task} {c c' : Nat} {r r' : Connection}
  {junk : Nat → UInt8}

/-- An operation runs through: it keeps the invariant and the phase, and only appends
tasks. -/
def Goes (s : ServerState) (walk : List Task) (m : Except Fault ServerState) : Prop :=
  ∃ s' tasks, m = .ok s' ∧ Inv s' walk ∧ s'.phase = s.phase ∧
    s'.pendingList = s.pendingList ++ tasks

theorem Goes.walked {m : Except Fault ServerState} (goes : Goes s s.walked m) :
    ∃ s', m = .ok s' ∧ Inv s' s'.walked := by
  obtain ⟨s', tasks, rfl, inv, phase, list⟩ := goes
  exact ⟨s', rfl, inv.mono fun c => walked_append phase list⟩

theorem Goes.refl (inv : Inv s walk) : Goes s walk (.ok s) :=
  ⟨s, [], rfl, inv, rfl, (List.append_nil _).symm⟩

/-! ## Operations on one connection -/

theorem ServerState.connRefInc_eq (known : s.conns c = some r) (alive : r.live = true) :
    s.connRefInc c = .ok { s with
      conns := Function.update s.conns c (some { r with ref := r.ref + 1 }) } := by
  simp only [ServerState.connRefInc, ServerState.conn_eq known alive, bind, Except.bind]
  rfl

theorem ServerState.onConn_eq (known : s.conns c = some r) (alive : r.live = true)
    {f : GpConnection → Except Fault GpConnection} {o : GpConnection}
    (done : f (s.view r) = .ok o) : s.onConn c f = .ok (s.takeOver c r o) := by
  simp only [ServerState.onConn, ServerState.conn_eq known alive, bind, Except.bind, done]
  rfl

theorem ServerState.onConn_ok (known : s.conns c = some r) (alive : r.live = true)
    (g : GpConnection → GpConnection) :
    s.onConn c (fun o => .ok (g o)) = .ok (s.takeOver c r (g (s.view r))) :=
  ServerState.onConn_eq known alive rfl

/-- What a function of `GpBase.Conn` may do to a connection that is not closed by it. -/
structure Touches (s : ServerState) (walk : List Task) (c : Nat) (r : Connection)
    (o : GpConnection) : Prop where
  requests : Requests (fun _ => c) s.interest r.handler o.handler o.epoller.requests
  state : o.state = .disconnected ↔ r.state = .disconnected
  watched : o.state ≠ .disconnected →
    o.handler.index = .added ∧ o.handler.events &&& kreadEvent = kreadEvent
  leftover : o.state = .disconnected → o.handler.index = .added → destroyTask c ∈ walk
  outputBuffer : o.outputBuffer.WF

theorem Inv.takeOver (inv : Inv s walk) (known : s.conns c = some r) (alive : r.live = true)
    {o : GpConnection} (touches : Touches s walk' c r o)
    (walks : ∀ c', c' ≠ c → destroyTask c' ∈ walk → destroyTask c' ∈ walk') :
    Inv (s.takeOver c r o) walk' := by
  have own := inv.conn c r known
  refine inv.modify known alive _ ⟨rfl, rfl, touches.requests.fd, fun fd other =>
    touches.requests.other (Ne.symm other), touches.requests.follows c fun _ _ => rfl,
    touches.state, touches.watched, touches.leftover, own.inputBuffer, touches.outputBuffer,
    .inl rfl⟩ walks

/-- A function that leaves the handler alone. -/
theorem Touches.of_same (own : ConnInv s walk c r) (alive : r.live = true) {o : GpConnection}
    (handler : o.handler = r.handler) (requests : o.epoller.requests = [])
    (state : o.state = .disconnected ↔ r.state = .disconnected) (wf : o.outputBuffer.WF) :
    Touches s walk c r o where
  requests := by
    rw [handler, requests]
    exact .none (own.follows alive) fun _ => rfl
  state := state
  watched isOpen := by
    rw [handler]
    exact own.watched ((not_congr state).mp isOpen)
  leftover closed added := by
    rw [handler] at added
    exact own.leftover (state.mp closed) added
  outputBuffer := wf

/-- A function that changes the mask of an open connection and keeps its interest in
reading. -/
theorem Touches.of_update (own : ConnInv s walk c r) (alive : r.live = true)
    (isOpen : r.state ≠ .disconnected) {o : GpConnection} {h : Handler}
    (fd : h.fd = r.handler.fd) (index : h.index = r.handler.index)
    (reads : h.events &&& kreadEvent = kreadEvent)
    (handler : o.handler = ((s.view r).epoller.updateHandler h).2)
    (requests : o.epoller.requests = ((s.view r).epoller.updateHandler h).1.requests)
    (state : o.state ≠ .disconnected) (wf : o.outputBuffer.WF) : Touches s walk c r o := by
  obtain ⟨qs, requested, made⟩ : ∃ qs, ((s.view r).epoller.updateHandler h).1.requests =
      [] ++ qs ∧ Requests (fun _ => c) s.interest r.handler
        ((s.view r).epoller.updateHandler h).2 qs :=
    (own.follows alive).updateHandler _ h fd index
  have added : h.index = .added := index.trans (own.watched isOpen).1
  constructor
  case requests =>
    rw [handler, requests, requested]
    exact made
  case state => exact iff_of_false state isOpen
  case watched =>
    intro _
    rw [handler, (s.view r).epoller.updateHandler_added added reads]
    exact ⟨added, reads⟩
  case leftover => exact fun closed => absurd closed state
  case outputBuffer => exact wf

theorem Touches.connSendInLoop (own : ConnInv s walk c r) (alive : r.live = true)
    (isOpen : r.state ≠ .disconnected) {o : GpConnection} {w : WriteResult} {msg : List UInt8}
    (sent : (s.view r).connSendInLoop junk w msg = .ok o) : Touches s walk c r o := by
  have reads := (own.watched isOpen).2
  rcases GpConnection.connSendInLoop_cases sent with same | ⟨o₁, rest, same, _, queued⟩
  · exact .of_same own alive same.handler (by rw [same.epoller]; rfl)
      (by rw [same.state]; exact Iff.rfl) (by rw [same.outputBuffer]; exact own.outputBuffer)
  have wf₁ : o₁.outputBuffer.WF := by
    rw [same.outputBuffer]
    exact own.outputBuffer
  obtain ⟨b, wf, _, rfl⟩ := GpConnection.queueRemaining_cases wf₁ queued
  split
  · exact .of_same own alive same.handler (by rw [show _ = o₁.epoller from rfl, same.epoller]; rfl)
      (by rw [show _ = o₁.state from rfl, same.state]; exact Iff.rfl) wf
  · refine .of_update own alive isOpen
      (h := { r.handler with addToLoop := true, events := r.handler.events ||| kwriteEvent })
      rfl rfl (reads_enableWriting reads) ?_ ?_ ?_ wf
    · show (o₁.epoller.enableWriting o₁.handler).2 = _
      rw [same.epoller, same.handler]
      rfl
    · show (o₁.epoller.enableWriting o₁.handler).1.requests = _
      rw [same.epoller, same.handler]
      rfl
    · show o₁.state ≠ .disconnected
      rw [same.state]
      exact isOpen

theorem Touches.connectionHandlerWrite (own : ConnInv s walk c r) (alive : r.live = true)
    (destroyed : r.state = .disconnected → destroyTask c ∈ walk) {o : GpConnection}
    {w : WriteResult} (written : (s.view r).connectionHandlerWrite w = .ok o) :
    Touches s walk c r o := by
  rcases GpConnection.connectionHandlerWrite_cases own.outputBuffer written with
    same | ⟨o₁, n, same, rfl⟩
  · exact .of_same own alive same.handler (by rw [same.epoller]; rfl)
      (by rw [same.state]; exact Iff.rfl) (by rw [same.outputBuffer]; exact own.outputBuffer)
  have wf : (r.outputBuffer.retrieve n).WF := own.outputBuffer.retrieve n
  split
  · -- the handler gives up its interest; a closed connection is registered again
    have drained : ∀ o₂ : GpConnection, o₂.outputDrained.handler = o₂.disableWriting.handler ∧
        o₂.outputDrained.epoller = o₂.disableWriting.epoller := by
      intro o₂
      unfold GpConnection.outputDrained
      split <;> exact ⟨rfl, rfl⟩
    have handler : (GpConnection.outputDrained { o₁ with
        outputBuffer := (s.view r).outputBuffer.retrieve n }).handler =
        ((s.view r).epoller.disableWriting r.handler).2 := by
      rw [(drained _).1]
      show (o₁.epoller.disableWriting o₁.handler).2 = _
      rw [same.epoller, same.handler]
      rfl
    have requests : (GpConnection.outputDrained { o₁ with
        outputBuffer := (s.view r).outputBuffer.retrieve n }).epoller.requests =
        ((s.view r).epoller.disableWriting r.handler).1.requests := by
      rw [(drained _).2]
      show (o₁.epoller.disableWriting o₁.handler).1.requests = _
      rw [same.epoller, same.handler]
      rfl
    have state : (GpConnection.outputDrained { o₁ with
        outputBuffer := (s.view r).outputBuffer.retrieve n }).state = r.state := by
      rw [GpConnection.outputDrained_state]
      exact same.state
    by_cases isOpen : r.state = .disconnected
    · obtain ⟨qs, requested, made⟩ :=
        HandlerOp.exec_requests (fun _ => c) (own.follows alive) (s.view r).epoller .disableWriting
      have none : ((s.view r).epoller.disableWriting r.handler).1.requests = qs := requested
      refine ⟨?_, by rw [state], ?_, fun _ _ => destroyed isOpen, ?_⟩
      · rw [handler, requests, none]
        exact made
      · exact fun h => absurd (state.trans isOpen) h
      · rw [GpConnection.outputDrained_outputBuffer]
        exact wf
    · refine .of_update own alive isOpen
        (h := { r.handler with addToLoop := true, events := r.handler.events &&& ~~~kwriteEvent })
        rfl rfl (reads_disableWriting (own.watched isOpen).2) handler requests
        (by rw [state]; exact isOpen) ?_
      rw [GpConnection.outputDrained_outputBuffer]
      exact wf
  · exact .of_same own alive same.handler (by rw [show _ = o₁.epoller from rfl, same.epoller]; rfl)
      (by rw [show _ = o₁.state from rfl, same.state]; exact Iff.rfl) wf

/-- `connection_handler_close` on a connection that is open. -/
theorem Inv.connectionHandlerClose (inv : Inv s walk) (known : s.conns c = some r)
    (isOpen : r.state ≠ .disconnected) (inactive : .conn c ∉ s.active)
    (last : ∀ callbacks, s.current = some (c, callbacks) → .close ∉ callbacks ∧
      (.read ∈ callbacks → hungUp r.revents = true)) :
    Goes s walk (s.connectionHandlerClose c) := by
  have own := inv.conn c r known
  have alive := own.alive_of_open known (.inl isOpen)
  have held := inv.hold known alive
  let s₁ : ServerState :=
    { s with conns := Function.update s.conns c (some { r with ref := r.ref + 1 })
             code := .connRefDec c :: s.code }
  have known₁ : s₁.conns c = some { r with ref := r.ref + 1 } := Function.update_self ..
  -- `disable_all` takes the handler out of the interest list
  let e : Epoller := { handlers := s.handlers, requests := [] }
  obtain ⟨qs, requested, requests⟩ :=
    HandlerOp.exec_requests (fun _ => c) (own.follows alive) e .disableAll
  have gone : (e.disableAll r.handler).2.index ≠ .added := by
    have added := (own.watched isOpen).1
    simp [Epoller.disableAll, Epoller.update, Epoller.updateHandler, added]
  have closed := (held.beginClose known₁ alive isOpen List.mem_cons_self
    (qs.foldl (epollCtl fun _ => c) s.interest) (e.disableAll r.handler).1.handlers
    (h := (e.disableAll r.handler).2) requests.fd
    (fun fd other => requests.other (Ne.symm other)) (requests.follows c fun _ _ => rfl) gone
    inactive last).callback
  refine ⟨_, [], ?_, closed, rfl, (List.append_nil _).symm⟩
  have requested' : (e.disableAll r.handler).1.requests = qs := requested
  have alive₁ : ({ r with ref := r.ref + 1 } : Connection).live = true := alive
  simp only [ServerState.connectionHandlerClose, ServerState.connRefInc_eq known alive, bind,
    Except.bind, ServerState.push, List.cons_append, List.nil_append]
  rw [ServerState.onConn_ok (Function.update_self ..) alive₁ fun o =>
    GpConnection.disableAll { o with state := .disconnected }]
  simp only [← requested']
  rfl

/-! ## Calls of the application -/

theorem Inv.gpQueueInLoop (inv : Inv s walk) (known : s.conns c = some r) (alive : r.live = true)
    {f : PendingFunc} (queueable : Queueable f) (other : f ≠ .destroyConn) :
    Goes s walk (s.gpQueueInLoop { pendingFunc := f, conn := c }) := by
  refine ⟨_, [{ pendingFunc := f, conn := c }], ?_, inv.queue known alive queueable other, rfl, rfl⟩
  simp only [ServerState.gpQueueInLoop, ServerState.connRefInc_eq known alive, bind, Except.bind]
  rfl

/-- A task of the application that is run at once. -/
theorem Inv.runUser (inv : Inv s walk) (known : s.conns c = some r) (alive : r.live = true) :
    Goes s walk (s.gpRunInLoop { pendingFunc := .user, conn := c }) := by
  refine ⟨_, [], ?_, (inv.hold known alive).callback, rfl, (List.append_nil _).symm⟩
  simp only [ServerState.gpRunInLoop, ServerState.connRefInc_eq known alive, bind, Except.bind]
  rfl

theorem Inv.runShutdown (inv : Inv s walk) (known : s.conns c = some r) (alive : r.live = true) :
    Goes s walk (s.gpRunInLoop { pendingFunc := .shutdown, conn := c }) := by
  have held := inv.hold known alive
  let s₁ : ServerState :=
    { s with conns := Function.update s.conns c (some { r with ref := r.ref + 1 })
             code := .connRefDec c :: s.code }
  have known₁ : s₁.conns c = some { r with ref := r.ref + 1 } := Function.update_self ..
  have own₁ := held.conn c _ known₁
  have touches : Touches s₁ walk c { r with ref := r.ref + 1 }
      (s₁.view { r with ref := r.ref + 1 }).runInLoopShutdown := by
    unfold GpConnection.runInLoopShutdown
    split
    · exact .of_same own₁ alive rfl rfl Iff.rfl own₁.outputBuffer
    · exact .of_same own₁ alive rfl rfl Iff.rfl own₁.outputBuffer
  refine ⟨_, [], ?_, held.takeOver known₁ alive touches fun _ _ h => h, rfl,
    (List.append_nil _).symm⟩
  simp only [ServerState.gpRunInLoop, ServerState.connRefInc_eq known alive, bind, Except.bind]
  exact ServerState.onConn_ok known₁ alive GpConnection.runInLoopShutdown

/-- Leaving an open connection to be shut down or closed. -/
theorem Inv.leaving (inv : Inv s walk) (known : s.conns c = some r) (alive : r.live = true)
    (isOpen : r.state ≠ .disconnected) :
    Inv (s.takeOver c r { s.view r with state := .disconnecting }) walk := by
  have own := inv.conn c r known
  exact inv.takeOver known alive (.of_same own alive rfl rfl
    (iff_of_false (by simp) isOpen) own.outputBuffer) fun _ _ h => h

theorem Inv.connSend (inv : Inv s walk) (known : s.conns c = some r) (alive : r.live = true)
    (msg : List UInt8) (w : WriteResult) : Goes s walk (s.connSend junk c msg w) := by
  have own := inv.conn c r known
  simp only [ServerState.connSend, ServerState.conn_eq known alive, bind, Except.bind]
  split
  · rename_i connected
    have isOpen : r.state ≠ .disconnected := by simp [connected]
    obtain ⟨o, sent, _⟩ :=
      GpConnection.connSendInLoop_spec (c := s.view r) junk own.outputBuffer w msg
    rw [ServerState.onConn_eq (f := fun o => o.connSendInLoop junk w msg) known alive sent]
    exact ⟨_, [], rfl, inv.takeOver known alive (.connSendInLoop own alive isOpen sent)
      fun _ _ h => h, rfl, (List.append_nil _).symm⟩
  · exact .refl inv

theorem Inv.connShutdown (inv : Inv s walk) (known : s.conns c = some r) (alive : r.live = true) :
    Goes s walk (s.connShutdown c) := by
  simp only [ServerState.connShutdown, ServerState.conn_eq known alive, bind, Except.bind]
  split
  · rename_i connected
    rw [ServerState.onConn_ok known alive fun o => { o with state := .disconnecting }]
    have left := inv.leaving known alive (by simp [connected])
    exact left.runShutdown (Function.update_self ..) alive
  · exact .refl inv

theorem Inv.connForceClose (inv : Inv s walk) (known : s.conns c = some r)
    (alive : r.live = true) : Goes s walk (s.connForceClose c) := by
  simp only [ServerState.connForceClose, ServerState.conn_eq known alive, bind, Except.bind]
  split
  · rename_i connected
    rw [ServerState.onConn_ok known alive fun o => { o with state := .disconnecting }]
    have isOpen : r.state ≠ .disconnected := by
      rcases connected with h | h <;> simp [h]
    have left := inv.leaving known alive isOpen
    exact left.gpQueueInLoop (Function.update_self ..) alive trivial (by simp)
  · exact .refl inv

/-- Every call of the application on a live connection. -/
theorem Inv.call (inv : Inv s walk) (u : UserCall) (known : s.conns u.conn = some r)
    (alive : r.live = true) : Goes s walk (u.exec junk s) := by
  cases u with
  | connSend c msg w => exact inv.connSend known alive msg w
  | connShutdown c => exact inv.connShutdown known alive
  | connForceClose c => exact inv.connForceClose known alive
  | gpQueueInLoop c => exact inv.gpQueueInLoop known alive trivial (by simp)
  | gpRunInLoop c => exact inv.runUser known alive

/-! ## Pending tasks -/

/-- A task other than the one that destroys a connection need not be walked again. -/
theorem Inv.skip {t : Task} {rest : List Task} (inv : Inv s (t :: rest))
    (other : t.pendingFunc ≠ .destroyConn) : Inv s rest := by
  refine inv.mono fun c there => ?_
  rcases List.mem_cons.mp there with rfl | there
  · exact absurd rfl other
  · exact there

/-- The front task runs; the tasks behind it are walked in this round. -/
theorem Inv.runTask {t : Task} {rest : List Task} (inv : Inv s (t :: rest))
    (list : s.pendingList = t :: rest) (phase : s.phase = .pending (rest.length + 1)) :
    ∃ s', s.pendingFunc t = .ok s' ∧ Inv s' s'.walked := by
  have task : t ∈ s.pendingList := by simp [list]
  have inactive : s.active = [] := by simp [ServerState.active, phase]
  have elsewhere : s.current = none := by simp [ServerState.current, phase]
  have walked : s.walked = rest := by simp [ServerState.walked, phase, list]
  obtain ⟨r, known, alive⟩ := inv.of_task task
  have own := inv.conn _ r known
  have conn := ServerState.conn_eq known alive
  have queueable := inv.tasks t task
  obtain ⟨f, c⟩ := t
  cases f with
  | forceClose =>
      have inv' := inv.skip (by simp)
      rw [← walked] at inv'
      simp only [ServerState.pendingFunc, ServerState.queueInLoopForceClose,
        show s.conn c = .ok r from conn, bind, Except.bind]
      split
      · rename_i connected
        refine Goes.walked (inv'.connectionHandlerClose known ?_ (by simp [inactive])
          (by simp [elsewhere]))
        rcases connected with h | h <;> simp [h]
      · exact Goes.walked (.refl inv')
  | user =>
      have inv' := inv.skip (by simp)
      rw [← walked] at inv'
      exact ⟨_, rfl, inv'.callback⟩
  | destroyConn =>
      have state := own.destroy task
      simp only [ServerState.pendingFunc, ServerState.connectionDestroyed,
        show s.conn c = .ok r from conn, bind, Except.bind, state, reduceCtorEq, if_false,
        ServerState.handlerRemove]
      rw [ServerState.onConn_ok known alive GpConnection.handlerRemove]
      obtain ⟨qs, requested, requests⟩ := HandlerOp.exec_requests (fun _ => c)
        (own.follows alive) (s.view r).epoller .handlerRemove
      have made : (s.view r).handlerRemove.epoller.requests = qs := requested
      have touches : Touches s rest c r (s.view r).handlerRemove := by
        refine ⟨by rw [made]; exact requests, Iff.rfl, fun h => absurd state h, ?_,
          own.outputBuffer⟩
        intro _ added
        simp [GpConnection.handlerRemove, Epoller.removeHandler] at added
      have kept := inv.takeOver known alive touches fun c' ne there => by
        rcases List.mem_cons.mp there with same | there
        · exact absurd (congrArg Task.conn same) ne
        · exact there
      refine ⟨_, rfl, ?_⟩
      rw [show (s.takeOver c r (s.view r).handlerRemove).walked = s.walked from rfl, walked]
      exact kept
  | createConn => cases queueable
  | shutdown => cases queueable
  | removeConn => cases queueable

/-- `do_pending_functors` reaches the front of the list. -/
theorem Inv.nextTask (inv : Inv s s.pendingList) : ∃ s', s.nextTask = .ok s' ∧
    Inv s' s'.walked := by
  cases list : s.pendingList with
  | nil =>
      rw [list] at inv
      have ended : s.nextTask = .ok { s with phase := .timers } := by
        rw [ServerState.nextTask, list]
        rfl
      exact ⟨_, ended, inv.leave .timers (List.nil_sublist _) rfl⟩
  | cons t rest =>
      rw [list] at inv
      have next : s.nextTask =
          ServerState.pendingFunc { s with phase := .pending (rest.length + 1) } t := by
        rw [ServerState.nextTask, list]
      rw [next]
      exact (inv.leave (.pending (rest.length + 1)) (List.nil_sublist _) rfl).runTask list rfl

/-- `conn_ref_dec` does not look at the tasks. -/
theorem ServerState.connRefDec_pendingList (s : ServerState) (c : Nat) (list : List Task) :
    ({ s with pendingList := list } : ServerState).connRefDec c =
      (s.connRefDec c).map fun s' => { s' with pendingList := list } := by
  simp only [ServerState.connRefDec, ServerState.conn]
  cases s.conns c with
  | none => rfl
  | some r =>
      simp only
      by_cases alive : r.live = true
      · simp only [alive, if_true, bind, Except.bind, pure, Except.pure, Except.map]
        split <;> rfl
      · simp only [alive, Bool.false_eq_true, if_false]
        rfl

/-- `do_pending_functors` is done with the front task. -/
theorem Inv.finishTask {reached : Nat} (inv : Inv s s.walked)
    (phase : s.phase = .pending reached) :
    ∃ s', s.finishTask reached = .ok s' ∧ Inv s' s'.walked := by
  cases list : s.pendingList with
  | nil =>
      have same : s.finishTask reached = .ok s := by
        rw [ServerState.finishTask, list]
        rfl
      exact ⟨s, same, inv⟩
  | cons t rest =>
  have task : t ∈ s.pendingList := by simp [list]
  have walked : s.walked = ((t :: rest).take reached).tail := by
    simp [ServerState.walked, phase, list]
  obtain ⟨r, known, alive⟩ := inv.of_task task
  have own := inv.conn _ r known
  have elsewhere : s.current = none := by simp [ServerState.current, phase]
  -- `conn_ref_dec` and the removal of the task commute
  have drops : Drops s { s with pendingList := rest } s.walked t.conn := by
    refine ⟨rfl, rfl, rfl, rfl, ?_, fun _ => Iff.rfl, fun c' ne => ?_, fun there => ?_,
      fun _ h => h, fun callbacks here => ?_, inv.code, fun t' there => ?_, inv.once⟩
    · simp only [ServerState.holders, ServerState.queued, ServerState.entry, ServerState.frames,
        list, List.countP_cons, decide_true, if_true]
      ring
    · refine ⟨rfl, ?_, rfl, rfl, Iff.rfl, ?_, id, fun _ h => h⟩
      · simp [ServerState.queued, list, Ne.symm ne]
      · rw [list, List.mem_cons]
        refine (or_iff_right fun same => ne ?_).symm
        exact congrArg Task.conn same
    · rw [list]
      exact List.mem_cons_of_mem _ there
    · rw [show ServerState.current { s with pendingList := rest } = s.current from rfl,
        elsewhere] at here
      cases here
    · exact inv.tasks t' (by rw [list]; exact List.mem_cons_of_mem _ there)
  obtain ⟨s₁, dropped, inv₁, _, list₁, phase₁⟩ := inv.drop known alive drops
  have finished : s.finishTask reached =
      if 1 < reached then s₁.nextTask else .ok { s₁ with phase := .timers } := by
    rw [ServerState.finishTask, list]
    rw [ServerState.connRefDec_pendingList] at dropped
    cases first : s.connRefDec t.conn with
    | error fault =>
        rw [first] at dropped
        cases dropped
    | ok s₀ =>
        rw [first] at dropped
        cases dropped
        simp only [first, bind, Except.bind]
        rfl
  rw [finished]
  rw [walked] at inv₁
  split
  · rename_i more
    refine (inv₁.mono fun c there => ?_).nextTask
    rw [list₁]
    obtain ⟨n, rfl⟩ : ∃ n, reached = n + 1 := ⟨reached - 1, by omega⟩
    exact List.mem_of_mem_take there
  · refine ⟨_, rfl, (inv₁.mono fun c there => ?_).leave .timers (List.nil_sublist _) rfl⟩
    rename_i last
    obtain rfl | rfl : reached = 0 ∨ reached = 1 := by omega
    · cases there
    · cases there


/-! ## Events -/

/-- The connection at hand is known, and alive between two callbacks. -/
theorem Inv.current_alive (inv : Inv s walk) {callbacks : List EventCallback}
    (here : s.current = some (c, callbacks)) (code : s.code = []) :
    ∃ r, s.conns c = some r ∧ r.live = true ∧
      (r.state = .disconnected → destroyTask c ∈ s.pendingList) := by
  cases known : s.conns c with
  | none => exact absurd here ((inv.unborn c known).current callbacks)
  | some r =>
      have own := inv.conn c r known
      have queued : r.state = .disconnected → destroyTask c ∈ s.pendingList := by
        intro state
        refine (own.kept callbacks here state).resolve_left ?_
        simp [ServerState.Closing, code]
      refine ⟨r, rfl, ?_, queued⟩
      by_cases state : r.state = .disconnected
      · exact own.alive_of_task (queued state) rfl
      · exact own.alive_of_open known (.inl state)

/-- One callback fewer is left to call. -/
theorem Inv.popCallback {callback : EventCallback} {rest : List EventCallback}
    {active : List Source} (inv : Inv s s.walked)
    (phase : s.phase = .events (some (.conn c, callback :: rest)) active) :
    Inv { s with phase := .events (some (.conn c, rest)) active }
      (ServerState.walked { s with phase := .events (some (.conn c, rest)) active }) := by
  have here : s.current = some (c, callback :: rest) := by simp [ServerState.current, phase]
  have walked : s.walked = s.pendingList := by simp [ServerState.walked, phase]
  have listed : s.active = active := by simp [ServerState.active, phase]
  rw [walked] at inv
  refine inv.setPhase _ (fun c' there => inv.active_open (listed ▸ there)) ?_ ?_
  · refine ⟨listed ▸ inv.once.1, fun c' callbacks now => ?_⟩
    cases now
    exact listed ▸ inv.once.2 c _ here
  · intro c' callbacks now
    cases now
    cases known : s.conns c with
    | none => exact absurd here ((inv.unborn c known).current _)
    | some r =>
        have own := inv.conn c r known
        refine ⟨r, rfl, (List.suffix_cons callback rest).trans (own.suffix _ here),
          own.kept _ here, fun closes => own.unclosed _ here ?_⟩
        rcases closes with close | ⟨read, hup⟩
        · exact .inl (List.mem_cons_of_mem _ close)
        · exact .inr ⟨List.mem_cons_of_mem _ read, hup⟩

/-- What is left to call after the close callback. -/
theorem after_close {rest : List EventCallback} {m : Mask}
    (suffix : .close :: rest <:+ handleEvent m) : hungUp m = true ∧ .close ∉ rest := by
  unfold handleEvent at suffix
  split_ifs at suffix with hup <;> simp [List.suffix_cons_iff] at suffix <;>
    exact ⟨hup, by simp [suffix]⟩

/-- What is left to call after the read callback. -/
theorem after_read {rest : List EventCallback} {m : Mask}
    (suffix : .read :: rest <:+ handleEvent m) : .close ∉ rest ∧ .read ∉ rest := by
  unfold handleEvent at suffix
  split_ifs at suffix <;> simp [List.suffix_cons_iff] at suffix <;> simp [suffix]

theorem Inv.close {rest : List EventCallback} {active : List Source} (inv : Inv s s.walked)
    (phase : s.phase = .events (some (.conn c, .close :: rest)) active) :
    ∃ s', ServerState.connectionHandlerClose
        { s with phase := .events (some (.conn c, rest)) active } c = .ok s' ∧
      Inv s' s'.walked := by
  have here : s.current = some (c, .close :: rest) := by simp [ServerState.current, phase]
  have listed : s.active = active := by simp [ServerState.active, phase]
  cases known : s.conns c with
  | none => exact absurd here ((inv.unborn c known).current _)
  | some r =>
      have own := inv.conn c r known
      obtain ⟨hup, noClose⟩ := after_close (own.suffix _ here)
      have isOpen := own.unclosed _ here (.inl List.mem_cons_self)
      refine Goes.walked ((inv.popCallback phase).connectionHandlerClose known isOpen ?_ ?_)
      · exact listed ▸ inv.once.2 c _ here
      · intro callbacks now
        cases now
        exact ⟨noClose, fun _ => hup⟩

/-- A read that finds the end of the stream is not made after the close callback. -/
theorem Inv.read {rest : List EventCallback} {active : List Source} (inv : Inv s s.walked)
    (phase : s.phase = .events (some (.conn c, .read :: rest)) active) (code : s.code = [])
    (res : ReadResult)
    (sound : ∀ r, s.conns c = some r → hungUp r.revents = true → res ≠ .data []) :
    ∃ s', ServerState.connectionHandlerRead
        { s with phase := .events (some (.conn c, rest)) active } junk c res = .ok s' ∧
      Inv s' s'.walked := by
  have here : s.current = some (c, .read :: rest) := by simp [ServerState.current, phase]
  have listed : s.active = active := by simp [ServerState.active, phase]
  obtain ⟨r, known, alive, _⟩ := inv.current_alive here code
  have own := inv.conn c r known
  have popped := inv.popCallback phase
  set s₀ : ServerState := { s with phase := .events (some (.conn c, rest)) active } with start
  have known₀ : s₀.conns c = some r := known
  have own₀ := popped.conn c r known₀
  obtain ⟨b, n, errno, received, wf, none⟩ : ∃ b n errno,
      r.inputBuffer.bufferReadFd junk res 0 = .ok (b, n, errno) ∧ b.WF ∧
        (n = 0 → res = .data []) := by
    cases res with
    | error errno =>
        have huge : sizeT (-1) ≠ 0 := by decide
        exact ⟨_, _, _, rfl, own.inputBuffer, fun h => absurd h huge⟩
    | data avail =>
        obtain ⟨b, received, wf, _⟩ := own.inputBuffer.bufferReadFd_data junk avail 0
        refine ⟨b, _, _, received, wf, fun h => ?_⟩
        have limit : 0 < r.inputBuffer.readvLimit := by
          unfold GpBuffer.readvLimit extrabufSize
          split <;> omega
        rw [List.length_take] at h
        have : avail.length = 0 := by omega
        rw [List.eq_nil_of_length_eq_zero this]
  have filled : Inv (s₀.put c { r with inputBuffer := b }) s₀.walked :=
    popped.modify known₀ alive s₀.handlers ⟨rfl, rfl, rfl, fun _ _ => rfl, own₀.follows alive,
      Iff.rfl, own₀.watched, own₀.leftover, wf, own₀.outputBuffer, .inl rfl⟩ fun _ _ h => h
  have known₁ : (s₀.put c { r with inputBuffer := b }).conns c =
      some { r with inputBuffer := b } := Function.update_self ..
  simp only [ServerState.connectionHandlerRead, ServerState.conn_eq known₀ alive, bind,
    Except.bind, received]
  split
  · refine ⟨_, ?_, (filled.hold known₁ alive).callback⟩
    rw [ServerState.connRefInc_eq known₁ alive]
    rfl
  · rename_i positive
    have eof := none (by omega)
    have open' : hungUp r.revents = false := by
      by_contra hup
      exact sound r known (by simpa using hup) eof
    have isOpen := own.unclosed _ here (.inr ⟨List.mem_cons_self, open'⟩)
    obtain ⟨noClose, noRead⟩ := after_read (own.suffix _ here)
    refine Goes.walked (filled.connectionHandlerClose known₁ isOpen ?_ ?_)
    · show .conn c ∉ active
      exact listed ▸ inv.once.2 c _ here
    · intro callbacks now
      cases now
      exact ⟨noClose, fun h => absurd h noRead⟩

theorem Inv.write {rest : List EventCallback} {active : List Source} (inv : Inv s s.walked)
    (phase : s.phase = .events (some (.conn c, .write :: rest)) active) (code : s.code = [])
    (w : WriteResult) :
    ∃ s', ServerState.connectionHandlerWrite
        { s with phase := .events (some (.conn c, rest)) active } c w = .ok s' ∧
      Inv s' s'.walked := by
  have here : s.current = some (c, .write :: rest) := by simp [ServerState.current, phase]
  obtain ⟨r, known, alive, queued⟩ := inv.current_alive here code
  have popped := inv.popCallback phase
  set s₀ : ServerState := { s with phase := .events (some (.conn c, rest)) active } with start
  have known₀ : s₀.conns c = some r := known
  have own := popped.conn c r known₀
  obtain ⟨o, written, _⟩ :=
    GpConnection.connectionHandlerWrite_spec (c := s₀.view r) own.outputBuffer w
  have done : s₀.connectionHandlerWrite c w = .ok (s₀.takeOver c r o) :=
    ServerState.onConn_eq known₀ alive written
  refine Goes.walked ⟨_, [], done, popped.takeOver known₀ alive
    (.connectionHandlerWrite own alive queued written) fun _ _ h => h, rfl,
    (List.append_nil _).symm⟩

theorem Inv.startEvent {source : Source} {active : List Source} (inv : Inv s s.walked)
    (phase : s.phase = .events none (source :: active)) :
    ∃ s', s.startEvent active source = .ok s' ∧ Inv s' s'.walked := by
  have listed : s.active = source :: active := by simp [ServerState.active, phase]
  have walked : s.walked = s.pendingList := by simp [ServerState.walked, phase]
  have nodup := inv.once.1
  rw [listed, List.nodup_cons] at nodup
  have waiting (c') (there : .conn c' ∈ active) :
      ∃ r, s.conns c' = some r ∧ r.state ≠ .disconnected :=
    inv.active_open (by rw [listed]; exact List.mem_cons_of_mem _ there)
  rw [walked] at inv
  cases source with
  | acceptor =>
      refine ⟨_, rfl, inv.leave _ ?_ rfl⟩
      rw [listed]
      exact List.sublist_cons_self _ _
  | conn c =>
      obtain ⟨r, known, isOpen⟩ := inv.active_open (by rw [listed]; exact List.mem_cons_self)
      have alive := (inv.conn c r known).alive_of_open known (.inl isOpen)
      simp only [ServerState.startEvent, ServerState.conn_eq known alive, bind, Except.bind]
      refine ⟨_, rfl, inv.setPhase _ waiting ⟨nodup.2, ?_⟩ ?_⟩
      · intro c' callbacks now
        cases now
        exact nodup.1
      · intro c' callbacks now
        cases now
        exact ⟨r, known, List.suffix_refl _, fun state => absurd state isOpen, fun _ => isOpen⟩

theorem Inv.endEvent {source : Source} {active : List Source} (inv : Inv s s.walked)
    (phase : s.phase = .events (some (source, [])) active) (code : s.code = []) :
    ∃ s', s.endEvent active source = .ok s' ∧ Inv s' s'.walked := by
  have listed : s.active = active := by simp [ServerState.active, phase]
  have walked : s.walked = s.pendingList := by simp [ServerState.walked, phase]
  have ended : Inv { s with phase := .events none active } s.pendingList := by
    rw [walked] at inv
    exact inv.leave _ (listed ▸ List.Sublist.refl _) rfl
  cases source with
  | acceptor => exact ⟨_, rfl, ended⟩
  | conn c =>
      have here : s.current = some (c, []) := by simp [ServerState.current, phase]
      obtain ⟨r, known, alive, _⟩ := inv.current_alive here code
      simp only [ServerState.endEvent, ServerState.conn_eq known alive, bind, Except.bind]
      exact ⟨_, rfl, ended⟩

/-! ## The poll -/

/-- The connection exists and is not closed. -/
def Open (s : ServerState) (c : Nat) : Prop :=
  ∃ r, s.conns c = some r ∧ r.state ≠ .disconnected

theorem Open.of_update (isOpen : Open s c') (conns : s'.conns = Function.update s.conns c (some r))
    (state : r.state ≠ .disconnected) : Open s' c' := by
  by_cases same : c' = c
  · subst same
    exact ⟨r, by rw [conns, Function.update_self], state⟩
  · obtain ⟨r', known, state'⟩ := isOpen
    exact ⟨r', by rw [conns, Function.update_of_ne same, known], state'⟩

theorem Inv.setRevents (inv : Inv s walk) (phase : s.phase = .timers) (isOpen : Open s c)
    (m : Mask) :
    ∃ s', s.setRevents m (.conn c) = .ok s' ∧ Inv s' walk ∧ s'.phase = .timers ∧
      ∀ c', Open s c' → Open s' c' := by
  obtain ⟨r, known, state⟩ := isOpen
  have own := inv.conn c r known
  have alive := own.alive_of_open known (.inl state)
  have elsewhere (callbacks) : s.current ≠ some (c, callbacks) := by
    simp [ServerState.current, phase]
  have noted : Inv (s.put c { r with revents := m }) walk :=
    inv.modify known alive s.handlers ⟨rfl, rfl, rfl, fun _ _ => rfl, own.follows alive, Iff.rfl,
      own.watched, own.leftover, own.inputBuffer, own.outputBuffer, .inr elsewhere⟩
      fun _ _ h => h
  have known₁ : (s.put c { r with revents := m }).conns c = some { r with revents := m } :=
    Function.update_self ..
  have own₁ := noted.conn c _ known₁
  have touches : Touches (s.put c { r with revents := m }) walk c { r with revents := m }
      ((s.put c { r with revents := m }).view { r with revents := m }).update :=
    .of_update own₁ alive state (h := { r.handler with addToLoop := true }) rfl rfl
      (own.watched state).2 rfl rfl state own.outputBuffer
  refine ⟨_, ?_, noted.takeOver known₁ alive touches fun _ _ h => h, phase, fun c' isOpen' => ?_⟩
  · simp only [ServerState.setRevents, ServerState.conn_eq known alive, bind, Except.bind]
    exact ServerState.onConn_ok known₁ alive GpConnection.update
  · have noted' : Open (s.put c { r with revents := m }) c' := isOpen'.of_update rfl state
    exact noted'.of_update rfl state

/-- `fill_active_handlers` on handlers of open connections. -/
theorem Inv.fillActiveHandlers (reported : List (Source × Mask)) (inv : Inv s walk)
    (phase : s.phase = .timers) (isOpen : ∀ c, .conn c ∈ reported.map Prod.fst → Open s c) :
    ∃ s', s.fillActiveHandlers reported = .ok s' ∧ Inv s' walk ∧
      ∀ c, .conn c ∈ reported.map Prod.fst → Open s' c := by
  -- every report keeps every connection open, also those reported before it
  suffices filled : ∃ s', s.fillActiveHandlers reported = .ok s' ∧ Inv s' walk ∧
      ∀ c, Open s c → Open s' c by
    obtain ⟨s', done, inv', kept⟩ := filled
    exact ⟨s', done, inv', fun c there => kept c (isOpen c there)⟩
  induction reported generalizing s with
  | nil => exact ⟨s, rfl, inv, fun _ h => h⟩
  | cons report rest ih =>
      obtain ⟨source, m⟩ := report
      cases source with
      | acceptor =>
          have noted := inv.acceptor s.listening m
          exact ih noted phase fun c there => isOpen c (List.mem_cons_of_mem _ there)
      | conn c =>
          obtain ⟨s₁, done, inv₁, phase₁, kept⟩ :=
            inv.setRevents phase (isOpen c List.mem_cons_self) m
          obtain ⟨s', done', inv', kept'⟩ := ih inv₁ phase₁ fun c' there =>
            kept c' (isOpen c' (List.mem_cons_of_mem _ there))
          refine ⟨s', ?_, inv', fun c' h => kept' c' (kept c' h)⟩
          simp only [ServerState.fillActiveHandlers, done, bind, Except.bind]
          exact done'

/-- At the poll, everything that is registered is open. -/
theorem Inv.registered_open (inv : Inv s []) {fd : Int} (registered : s.interest fd = some c) :
    Open s c := by
  obtain ⟨r, known, alive, rfl⟩ := inv.registered fd c registered
  have own := inv.conn c r known
  have follows := own.follows alive
  rw [Follows, registered] at follows
  refine ⟨r, known, fun state => ?_⟩
  by_cases added : r.handler.index = .added
  · exact absurd (own.leftover state added) (by simp)
  · simp [added] at follows

theorem Inv.poll {reported : List (Source × Mask)} (inv : Inv s s.walked)
    (phase : s.phase = .timers) (reports : Reports s reported) :
    ∃ s', s.pollerPoll reported = .ok s' ∧ Inv s' s'.walked := by
  have walked : s.walked = [] := by simp [ServerState.walked, phase]
  rw [walked] at inv
  obtain ⟨s₁, done, inv₁, isOpen⟩ := inv.fillActiveHandlers reported phase fun c there => by
    obtain ⟨fd, registered⟩ := reports.conn c there
    exact inv.registered_open registered
  refine ⟨{ s₁ with phase := .events none (reported.map Prod.fst) }, ?_, ?_⟩
  · simp only [ServerState.pollerPoll, done, bind, Except.bind]
    rfl
  · refine Inv.setPhase (inv₁.mono fun c there => ?_) _ isOpen ⟨reports.once, ?_⟩ ?_
    · cases there
    · intro c callbacks now
      cases now
    · intro c callbacks now
      cases now

/-! ## A new connection -/

/-- A connection as `connection_established` leaves it, with the count of its entry. -/
def establishedConnection (junk : Nat → UInt8) (fd : Int) : Connection :=
  { ServerState.createGpConnection junk fd with
    state := .connected
    handler := { addToLoop := true, index := .added, fd := fd, events := kreadEvent } }

/-- The entry, the registration and the connection come together. -/
theorem Inv.born (junk : Nat → UInt8) {fd : Int} (inv : Inv s walk) (accepts : Accepts s c fd)
    (handlers : Int → Bool) :
    Inv { s with conns := Function.update s.conns c (some (establishedConnection junk fd))
                 connections := Function.update s.connections fd (some c)
                 handlers := handlers
                 interest := Function.update s.interest fd (some c) } walk := by
  have unborn := inv.unborn c accepts.fresh
  have other (c' : Nat) (ne : c' ≠ c) : SameFor s
      { s with conns := Function.update s.conns c (some (establishedConnection junk fd))
               connections := Function.update s.connections fd (some c)
               handlers := handlers
               interest := Function.update s.interest fd (some c) } c' :=
    ⟨Function.update_of_ne ne _ _, rfl, rfl, rfl, Iff.rfl, Iff.rfl, id, fun _ h => h⟩
  have noEntry (c' : Nat) : s.connections fd ≠ some c' := by
    intro listed
    obtain ⟨r', known', same⟩ := inv.entries fd c' listed
    have own' := inv.conn c' r' known'
    have open' := own'.entry.mp (by rw [same]; exact listed)
    exact accepts.closed c' r' known' (own'.alive_of_open known' open') same
  constructor
  case conn =>
    intro c' r' known'
    by_cases ne : c' = c
    · subst ne
      cases (Function.update_self c' (some (establishedConnection junk fd)) s.conns).symm.trans
        known'
      have holders : ServerState.holders
          { s with conns := Function.update s.conns c' (some (establishedConnection junk fd))
                   connections := Function.update s.connections fd (some c')
                   handlers := handlers
                   interest := Function.update s.interest fd (some c') } c' = 1 := by
        rw [ServerState.holders, ServerState.entry_eq (Function.update_self ..)]
        have queued := unborn.queued
        have frames := unborn.frames
        unfold ServerState.queued at queued
        unfold ServerState.frames at frames
        simp only [ServerState.queued, ServerState.frames, queued, frames]
        simp [establishedConnection]
      have noTask : destroyTask c' ∉ s.pendingList := by
        intro task
        have := unborn.queued
        rw [ServerState.queued, List.countP_eq_zero] at this
        exact this _ task (by simp [destroyTask])
      constructor
      case ref => rw [holders]; rfl
      case live => rw [holders]; simp [establishedConnection, ServerState.createGpConnection]
      case destructs => exact unborn.destructs
      case entry =>
        refine iff_of_true ?_ (.inl (by simp [establishedConnection]))
        exact Function.update_self ..
      case closing => exact fun closing => absurd closing unborn.closing
      case follows =>
        intro _
        simp [Follows, establishedConnection]
      case watched => exact fun _ => ⟨rfl, by simp [establishedConnection]⟩
      case leftover => exact fun state => by simp [establishedConnection] at state
      case inputBuffer => exact .init junk
      case outputBuffer => exact .init junk
      case destroy => exact fun task => absurd task noTask
      case active => exact fun active => absurd active unborn.active
      case suffix => exact fun callbacks here => absurd here (unborn.current callbacks)
      case kept => exact fun callbacks here => absurd here (unborn.current callbacks)
      case unclosed => exact fun callbacks here => absurd here (unborn.current callbacks)
    · have known : s.conns c' = some r' := (other c' ne).conns.symm.trans known'
      have own := inv.conn c' r' known
      refine own.of_same known (other c' ne) ?_ (fun alive => ?_) id
      · by_cases same : r'.handler.fd = fd
        · rw [same]
          refine iff_of_false (fun listed => ?_) (noEntry c')
          cases (Function.update_self fd (some c) s.connections).symm.trans listed
          exact ne rfl
        · have kept : Function.update s.connections fd (some c) r'.handler.fd =
              s.connections r'.handler.fd := Function.update_of_ne same _ _
          show Function.update s.connections fd (some c) r'.handler.fd = some c' ↔ _
          rw [kept]
      · exact Function.update_of_ne (accepts.closed c' r' known alive) _ _
  case unborn =>
    intro c' unknown
    have ne : c' ≠ c := by
      rintro rfl
      simp at unknown
    exact (inv.unborn c' ((other c' ne).conns.symm.trans unknown)).of_same (other c' ne)
  case entries =>
    intro fd' c' listed
    by_cases same : fd' = fd
    · subst same
      cases (Function.update_self fd' (some c) s.connections).symm.trans listed
      exact ⟨_, Function.update_self .., rfl⟩
    · obtain ⟨r', known', rfl⟩ := inv.entries fd' c'
        ((Function.update_of_ne same _ _).symm.trans listed)
      have ne : c' ≠ c := by
        rintro rfl
        rw [accepts.fresh] at known'
        cases known'
      exact ⟨r', (other c' ne).conns.trans known', rfl⟩
  case registered =>
    intro fd' c' listed
    by_cases same : fd' = fd
    · subst same
      cases (Function.update_self fd' (some c) s.interest).symm.trans listed
      exact ⟨_, Function.update_self .., rfl, rfl⟩
    · obtain ⟨r', known', alive, rfl⟩ := inv.registered fd' c'
        ((Function.update_of_ne same _ _).symm.trans listed)
      have ne : c' ≠ c := by
        rintro rfl
        rw [accepts.fresh] at known'
        cases known'
      exact ⟨r', (other c' ne).conns.trans known', alive, rfl⟩
  case distinct =>
    intro c₁ c₂ r₁ r₂ known₁ known₂ alive₁ alive₂ same
    by_cases ne₁ : c₁ = c <;> by_cases ne₂ : c₂ = c
    · rw [ne₁, ne₂]
    · subst ne₁
      cases (Function.update_self c₁ (some (establishedConnection junk fd)) s.conns).symm.trans
        known₁
      exact absurd same.symm (accepts.closed c₂ r₂ ((other c₂ ne₂).conns.symm.trans known₂) alive₂)
    · subst ne₂
      cases (Function.update_self c₂ (some (establishedConnection junk fd)) s.conns).symm.trans
        known₂
      exact absurd same (accepts.closed c₁ r₁ ((other c₁ ne₁).conns.symm.trans known₁) alive₁)
    · exact inv.distinct c₁ c₂ r₁ r₂ ((other c₁ ne₁).conns.symm.trans known₁)
        ((other c₂ ne₂).conns.symm.trans known₂) alive₁ alive₂ same
  case code => exact inv.code
  case tasks => exact inv.tasks
  case once => exact inv.once

theorem Inv.accept {fd : Int} {rest : List EventCallback} {active : List Source}
    (inv : Inv s s.walked) (phase : s.phase = .events (some (.acceptor, .read :: rest)) active)
    (accepts : Accepts s c fd) :
    ∃ s', ServerState.newConnectionCallback
        { s with phase := .events (some (.acceptor, rest)) active } junk c fd = .ok s' ∧
      Inv s' s'.walked := by
  have listed : s.active = active := by simp [ServerState.active, phase]
  have walked : s.walked = s.pendingList := by simp [ServerState.walked, phase]
  rw [walked] at inv
  have popped : Inv { s with phase := .events (some (.acceptor, rest)) active } s.pendingList :=
    inv.leave _ (listed ▸ List.Sublist.refl _) rfl
  have noEntry : s.connections fd = none := by
    cases entry : s.connections fd with
    | none => rfl
    | some c' =>
        obtain ⟨r', known', same⟩ := inv.entries fd c' entry
        have own' := inv.conn c' r' known'
        have open' := own'.entry.mp (by rw [same]; exact entry)
        exact absurd same (accepts.closed c' r' known' (own'.alive_of_open known' open'))
  have noInterest : s.interest fd = none := by
    cases interest : s.interest fd with
    | none => rfl
    | some c' =>
        obtain ⟨r', known', alive', same⟩ := inv.registered fd c' interest
        exact absurd same (accepts.closed c' r' known' alive')
  have born := popped.born junk ⟨accepts.positive, accepts.closed, accepts.fresh⟩
    (Function.update s.handlers fd true)
  have held := born.hold (Function.update_self ..) rfl
  have kept := ((held.hold (Function.update_self ..) rfl).callback)
  refine ⟨_, ?_, kept⟩
  simp [ServerState.newConnectionCallback, ServerState.put, ServerState.connRefInc,
    ServerState.conn, ServerState.createGpConnection, ConnRec.connRefInc, noEntry, bind, Except.bind,
    pure, Except.pure, ServerState.push, ServerState.gpRunInLoop, ServerState.pendingFunc,
    ServerState.connectionEstablished, ServerState.onConn, ServerState.takeOver, ServerState.view,
    GpConnection.enableReading, Epoller.enableReading, Epoller.update, Epoller.updateHandler,
    Epoller.pollerUpdate, epollCtl, noInterest, establishedConnection]

end Steps

end GpBase.Server

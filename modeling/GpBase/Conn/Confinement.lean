import GpBase.Conn.Tls

/-!
# Confinement to the TLS session

`ssl_connection_init` installs the handshake as the read and the write callback, and the
handshake exchanges the read callback only: no event of the handler ever calls `write()`,
and none ever calls `SSL_write` either. What remains is the direct `write()` of
`conn_send_in_loop`, which asks neither for the server nor for the handshake.
-/

namespace GpBase.Conn

open GpBase.Lib GpBase.Buffer GpBase.Event

section Steps

variable {junk : Nat → UInt8} {s s' : TlsState} {c c' : GpConnection}

/-- `conn_send_in_loop` finds the output in use, or has nothing to send. -/
def GpConnection.Queues (c : GpConnection) (msg : List UInt8) : Prop :=
  c.state = .disconnected ∨ c.handler.isWriting = true ∨ c.outputBuffer.readableBytes ≠ 0 ∨ msg = []

theorem GpConnection.handed_eq_nil (c : GpConnection) (msg : List UInt8) :
    c.handed msg = [] ↔ c.Queues msg := by
  unfold handed Queues
  by_cases gone : c.state = .disconnected
  · simp [gone]
  · by_cases writing : c.handler.isWriting = true
    · simp [writing]
    · by_cases empty : c.outputBuffer.readableBytes = 0 <;> simp [gone, writing, empty]

/-- The kernel accepts a part of what it is handed, and nothing else. -/
theorem GpConnection.connSendInLoop_accepted {w : WriteResult} {msg : List UInt8}
    (sent : c.connSendInLoop junk w msg = .ok c') :
    ∃ taken, taken <+: c.handed msg ∧ c'.accepted = c.accepted ++ taken := by
  unfold GpConnection.connSendInLoop at sent
  unfold GpConnection.handed
  split at sent
  · rename_i gone
    cases sent
    exact ⟨[], List.nil_prefix, by simp⟩
  rename_i alive
  rw [if_neg alive]
  have ending : ∀ {c₁ : GpConnection} {more : Bool} {rest : List UInt8},
      (if more = true then c₁.queueRemaining junk rest else pure c₁) = .ok c' →
        c'.accepted = c₁.accepted := by
    intro c₁ more rest ended
    split at ended
    · obtain ⟨b, _, last⟩ := bind_eq_ok ended
      cases last
      split <;> rfl
    · cases ended
      rfl
  by_cases direct : (!c.handler.isWriting && decide (c.outputBuffer.readableBytes = 0)) = true
  · simp only [direct, if_true, Bool.true_and] at sent ⊢
    have written : ∃ taken, taken <+: msg ∧ (c.write msg w).1.accepted = c.accepted ++ taken := by
      cases w with
      | wrote n => exact ⟨_, List.take_prefix _ _, rfl⟩
      | error errno => exact ⟨[], List.nil_prefix, by simp [GpConnection.write]⟩
    obtain ⟨taken, part, accepted⟩ := written
    exact ⟨taken, part, (ending sent).trans accepted⟩
  · simp only [direct, Bool.false_eq_true, if_false, Bool.false_and] at sent ⊢
    exact ⟨[], List.nil_prefix, (ending sent).trans (List.append_nil _).symm⟩

/-- The condition: `conn_send` does not find the output idle, and no writable event after
the handshake finds output. -/
def Confined (s : TlsState) : TlsEvent → Prop
  | .connSend inLoop msg _ => s.conn.state = .connected → inLoop = true → s.conn.Queues msg
  | .runDeferred _ => ∀ msg rest, s.out.deferred = .trans msg :: rest → s.conn.Queues msg
  | .writable _ => s.handshaken = true → s.conn.outputBuffer.readable = []
  | .readable _ | .hangUp _ | .connShutdown _ | .connectionDestroyed => True

theorem confined_iff (s : TlsState) (ev : TlsEvent) :
    Confined s ev ↔ s.handedBy ev = [] ∧ s.owedBy ev = [] := by
  cases ev with
  | connSend inLoop msg w =>
      simp only [Confined, TlsState.handedBy, TlsState.owedBy, and_true]
      by_cases called : s.conn.state = .connected ∧ inLoop = true
      · rw [if_pos called, GpConnection.handed_eq_nil]
        exact ⟨fun queues => queues called.1 called.2, fun queues _ _ => queues⟩
      · rw [if_neg called]
        exact iff_of_true (fun state inside => absurd ⟨state, inside⟩ called) rfl
  | runDeferred w =>
      simp only [Confined, TlsState.handedBy, TlsState.owedBy, and_true]
      split
      · rename_i msg rest tasks
        rw [GpConnection.handed_eq_nil]
        refine ⟨fun queues => queues msg rest tasks, ?_⟩
        intro queues msg' rest' tasks'
        cases tasks.symm.trans tasks'
        exact queues
      · rename_i none
        exact iff_of_true (fun msg rest tasks => absurd tasks (none msg rest)) rfl
  | writable r =>
      simp only [Confined, TlsState.handedBy, TlsState.owedBy, true_and]
      by_cases found : s.handshaken = true ∧ s.conn.outputBuffer.readable ≠ []
      · rw [if_pos found]
        exact iff_of_false (fun quiet => found.2 (quiet found.1)) (List.cons_ne_nil _ _)
      · rw [if_neg found]
        exact iff_of_true (fun shaken => by_contra fun full => found ⟨shaken, full⟩) rfl
  | readable r | hangUp r | connShutdown inLoop | connectionDestroyed =>
      exact iff_of_true trivial ⟨rfl, rfl⟩

/-- The callbacks are those of the handshake, and `SSL_write` has not been called. -/
structure Shaking (s : TlsState) : Prop where
  read : s.readCallback = .sslHandlerHandshake ∨ s.readCallback = .sslHandlerRead
  write : s.writeCallback = .sslHandlerHandshake
  close : s.closeCallback = .sslHandlerClose
  ssl : s.toSsl = []
  wire : s.toWrite = [] → s.conn.accepted = []

/-- A step of the handler: callbacks and logs are those of the handshake still. -/
structure Inner (s s' : TlsState) : Prop where
  read : s'.readCallback = s.readCallback ∨ s'.readCallback = .sslHandlerRead
  write : s'.writeCallback = s.writeCallback
  close : s'.closeCallback = s.closeCallback
  ssl : s'.toSsl = s.toSsl
  toWrite : s'.toWrite = s.toWrite
  owed : s'.owed = s.owed
  accepted : s'.conn.accepted = s.conn.accepted

theorem Inner.refl (s : TlsState) : Inner s s := ⟨.inl rfl, rfl, rfl, rfl, rfl, rfl, rfl⟩

theorem Inner.setConn (s : TlsState) {c : GpConnection} (same : c.accepted = s.conn.accepted) :
    Inner s (s.setConn c) := ⟨.inl rfl, rfl, rfl, rfl, rfl, rfl, same⟩

theorem Inner.handshake (s : TlsState) (r : Handshake) : Inner s (s.sslHandlerHandshake r) := by
  cases r with
  | done => exact ⟨.inr rfl, rfl, rfl, rfl, rfl, rfl, rfl⟩
  | wantWrite => exact .setConn s rfl
  | wantRead => exact .setConn s rfl
  | error => exact .refl s

theorem Inner.sslRead (s : TlsState) (reset : Bool) : Inner s (s.sslHandlerRead reset) := by
  cases reset with
  | true => exact ⟨.inl rfl, rfl, rfl, rfl, rfl, rfl, rfl⟩
  | false => exact .refl s

theorem Inner.destroyed (s : TlsState) : Inner s s.connectionDestroyed := by
  unfold TlsState.connectionDestroyed
  split
  · -- the state is disconnected, so the connection callback installs nothing
    exact ⟨.inl rfl, rfl, rfl, rfl, rfl, rfl, rfl⟩
  · exact .setConn s rfl

/-- The installed callbacks leave the logs alone. -/
theorem Inner.call {r : Results} {f : Installed}
    (installed : f = .sslHandlerHandshake ∨ f = .sslHandlerRead ∨ f = .sslHandlerClose)
    (called : s.call r f = .ok s') : Inner s s' := by
  rcases installed with rfl | rfl | rfl
  · cases called
    exact .handshake s r.handshake
  · cases called
    exact .sslRead s r.sslReadReset
  · cases called
    exact ⟨.inl rfl, rfl, rfl, rfl, rfl, rfl, rfl⟩

theorem Shaking.inner (h : Shaking s) (inner : Inner s s') : Shaking s' where
  read := by
    rcases inner.read with same | done
    · rw [same]
      exact h.read
    · exact .inr done
  write := inner.write.trans h.write
  close := inner.close.trans h.close
  ssl := inner.ssl.trans h.ssl
  wire := by
    rw [inner.toWrite, inner.accepted]
    exact h.wire

/-- A call of `conn_send_in_loop` in the loop thread or by the pending list. -/
theorem connSend_accepted {out out' : WriteState} {w : WriteResult} {msg : List UInt8}
    (sent : out.connSendInLoop junk msg w = .ok out') :
    out.conn.handed msg = [] → out'.conn.accepted = out.conn.accepted := by
  intro none
  obtain ⟨c', inside, last⟩ := bind_eq_ok sent
  cases last
  obtain ⟨taken, part, accepted⟩ := GpConnection.connSendInLoop_accepted inside
  rw [none] at part
  rw [accepted, List.prefix_nil.mp part, List.append_nil]

/-- The state with the logs of a step. -/
def TlsState.logged (s : TlsState) (ev : TlsEvent) : TlsState :=
  { s with toWrite := s.toWrite ++ s.handedBy ev, owed := s.owed ++ s.owedBy ev }

theorem Shaking.logged (h : Shaking s) (ev : TlsEvent) : Shaking (s.logged ev) :=
  { h with wire := fun none => h.wire (List.append_eq_nil_iff.mp none).1 }

/-- The output of a connection is exchanged, and nothing is accepted that was not handed
to `write()`. -/
theorem Shaking.output (h : Shaking s) (ev : TlsEvent) {out : WriteState}
    (accepted : s.handedBy ev = [] → out.conn.accepted = s.conn.accepted) :
    Shaking { s.logged ev with out := out } :=
  { h.logged ev with
    wire := by
      intro none
      obtain ⟨before, quiet⟩ := List.append_eq_nil_iff.mp none
      exact (accepted quiet).trans (h.wire before) }

/-- What a step adds to the logs. -/
theorem Shaking.step (h : Shaking s) {ev : TlsEvent} (stepped : s.exec junk ev = .ok s') :
    Shaking s' ∧ s'.toWrite = s.toWrite ++ s.handedBy ev ∧ s'.owed = s.owed ++ s.owedBy ev := by
  have inside : Inner (s.logged ev) s' →
      Shaking s' ∧ s'.toWrite = s.toWrite ++ s.handedBy ev ∧ s'.owed = s.owed ++ s.owedBy ev :=
    fun inner => ⟨(h.logged ev).inner inner, inner.toWrite, inner.owed⟩
  cases ev with
  | readable r =>
      refine inside (.call ?_ stepped)
      rcases h.read with same | same
      · exact .inl same
      · exact .inr (.inl same)
  | writable r => exact inside (.call (.inl h.write) stepped)
  | hangUp r => exact inside (.call (.inr (.inr h.close)) stepped)
  | connSend inLoop msg w =>
      obtain ⟨out, sent, last⟩ := bind_eq_ok stepped
      cases last
      refine ⟨h.output (.connSend inLoop msg w) ?_, rfl, rfl⟩
      intro none
      change s.out.connSend junk inLoop msg w = .ok out at sent
      unfold WriteState.connSend at sent
      by_cases connected : s.out.conn.state = .connected
      · rw [if_pos connected] at sent
        cases inLoop with
        | true =>
            have handed : s.handedBy (.connSend true msg w) = s.conn.handed msg :=
              if_pos ⟨connected, rfl⟩
            exact connSend_accepted sent (handed.symm.trans none)
        | false =>
            cases sent
            rfl
      · rw [if_neg connected] at sent
        cases sent
        rfl
  | connShutdown inLoop =>
      cases stepped
      refine ⟨h.output (.connShutdown inLoop) ?_, rfl, rfl⟩
      intro _
      show (s.out.connShutdown inLoop).conn.accepted = s.out.conn.accepted
      unfold WriteState.connShutdown
      split
      · cases inLoop with
        | true =>
            show (GpConnection.runInLoopShutdown _).accepted = _
            unfold GpConnection.runInLoopShutdown
            split <;> rfl
        | false => rfl
      · rfl
  | runDeferred w =>
      obtain ⟨out, ran, last⟩ := bind_eq_ok stepped
      cases last
      refine ⟨h.output (.runDeferred w) ?_, rfl, rfl⟩
      intro none
      unfold TlsState.handedBy at none
      change s.out.runDeferred junk w = .ok out at ran
      unfold WriteState.runDeferred at ran
      split at ran
      · cases ran
        rfl
      · rename_i msg rest tasks
        simp only [tasks] at none
        have kept := connSend_accepted ran
        exact kept none
      · cases ran
        show (GpConnection.runInLoopShutdown _).accepted = _
        unfold GpConnection.runInLoopShutdown
        split <;> rfl
  | connectionDestroyed =>
      cases stepped
      refine inside ?_
      split
      · exact .destroyed _
      · exact .refl _

end Steps

/-! ## Whole runs -/

section Runs

variable {junk : Nat → UInt8} {events : List TlsEvent} {s : TlsState}

theorem run_shaking (run : (tlsSys junk).Run events s) : Shaking s := by
  refine run.invariant (I := fun _ s => Shaking s) ?_ ?_
  · rintro s ⟨fd, e, rfl⟩
    exact ⟨.inl rfl, rfl, rfl, rfl, fun _ => rfl⟩
  · intro events s ev s' _ h stepped
    exact (h.step stepped).1

/-- Steps that meet the condition add nothing to the logs. -/
theorem confined_logs (run : ((tlsSys junk).restrict Confined).Run events s) :
    s.toWrite = [] ∧ s.owed = [] := by
  induction run with
  | init start =>
      obtain ⟨fd, e, rfl⟩ := start
      exact ⟨rfl, rfl⟩
  | step before stepped ih =>
      obtain ⟨handed, owes⟩ := (confined_iff _ _).mp stepped.1
      obtain ⟨_, toWrite, owed⟩ := (run_shaking before.of_restrict).step stepped.2
      rw [toWrite, owed, ih.1, ih.2, handed, owes]
      exact ⟨rfl, rfl⟩

/-- A run without anything in its logs has met the condition in every step. -/
theorem confined_of_logs (run : (tlsSys junk).Run events s) (quiet : s.toWrite = [])
    (clear : s.owed = []) : ((tlsSys junk).restrict Confined).Run events s := by
  induction run with
  | init start => exact .init start
  | step before stepped ih =>
      obtain ⟨_, toWrite, owed⟩ := (run_shaking before).step stepped
      rw [toWrite, List.append_eq_nil_iff] at quiet
      rw [owed, List.append_eq_nil_iff] at clear
      exact .step (ih quiet.1 clear.1) ⟨(confined_iff _ _).mpr ⟨quiet.2, clear.2⟩, stepped⟩

/-- **Confinement.** A run keeps what is sent inside the TLS session exactly when each of
its steps meets the condition: no `conn_send` finds the output idle, and no writable event
after the handshake finds output. Then no byte has been handed to `write()`, and the kernel
has accepted none. -/
theorem tls_confined_iff (run : (tlsSys junk).Run events s) :
    (s.toWrite = [] ∧ s.toSsl = s.owed ↔ ((tlsSys junk).restrict Confined).Run events s) ∧
    (s.toWrite = [] → s.conn.accepted = []) := by
  have shaking := run_shaking run
  refine ⟨⟨?_, ?_⟩, shaking.wire⟩
  · rintro ⟨quiet, clear⟩
    exact confined_of_logs run quiet (clear.symm.trans shaking.ssl)
  · intro restricted
    obtain ⟨quiet, clear⟩ := confined_logs restricted
    exact ⟨quiet, shaking.ssl.trans clear.symm⟩

/-- A connection of a TLS server before the handshake. -/
def tlsEstablished : TlsState :=
  (TlsState.initGpConnection (fun _ => 0) 5 ⟨fun _ => false, []⟩).connectionEstablished

theorem run_of_exec {t : TlsState}
    (ran : events.foldlM (fun s ev => (s.exec (fun _ => 0) ev).toOption) tlsEstablished = some t) :
    (tlsSys fun _ => 0).Run events t := by
  have start : (tlsSys fun _ => 0).Run [] tlsEstablished := .init ⟨5, _, rfl⟩
  refine TSys.Run.exec (f := fun s ev => (TlsState.exec (fun _ => 0) s ev).toOption) ?_ start ran
  intro s ev t ran
  cases executed : TlsState.exec (fun _ => 0) s ev with
  | error fault =>
      rw [executed] at ran
      cases ran
  | ok s' =>
      rw [executed] at ran
      cases ran
      exact executed

/-- An event whose handshake has the given result. -/
def shakes (r : Handshake) : Results :=
  { handshake := r, sslReadReset := false, sslWrite := 0, bufferReadFd := 0, write := .wrote 0 }

/-- The handshake waits to write, and what is sent then is queued. -/
theorem tls_confined_iff_queued :
    ∃ s, (tlsSys fun _ => 0).Run
        [.readable (shakes .wantWrite), .connSend true [1, 2, 3] (.wrote 3)] s ∧
      ((tlsSys fun _ => 0).restrict Confined).Run
        [.readable (shakes .wantWrite), .connSend true [1, 2, 3] (.wrote 3)] s ∧
      s.conn.accepted = [] := by
  have ran : (([.readable (shakes .wantWrite), .connSend true [1, 2, 3] (.wrote 3)] :
      List TlsEvent).foldlM (fun s ev => (TlsState.exec (fun _ => 0) s ev).toOption)
        tlsEstablished).map (fun s => (s.toWrite, s.toSsl, s.owed)) = some ([], [], []) := by
    decide +kernel
  obtain ⟨s, ran, facts⟩ := Option.map_eq_some_iff.mp ran
  obtain ⟨quiet, ssl, owed⟩ : s.toWrite = [] ∧ s.toSsl = [] ∧ s.owed = [] := by simpa using facts
  have run := run_of_exec ran
  obtain ⟨confined, accepted⟩ := tls_confined_iff run
  exact ⟨s, run, confined.mp ⟨quiet, ssl.trans owed.symm⟩, accepted quiet⟩

/-- What is sent after the handshake goes to `write()` as it is, and what is queued is not
passed to `SSL_write`. -/
theorem tls_leaks :
    (∃ s, (tlsSys fun _ => 0).Run
        [.readable (shakes .done), .connSend true [1, 2, 3] (.wrote 3)] s ∧
      s.handshaken = true ∧ s.toWrite = [1, 2, 3] ∧ s.conn.accepted = [1, 2, 3]) ∧
    ∃ s, (tlsSys fun _ => 0).Run [.readable (shakes .wantWrite), .connSend true [4] (.wrote 1),
        .writable (shakes .done), .writable (shakes .done)] s ∧
      s.handshaken = true ∧ s.conn.outputBuffer.readable = [4] ∧ s.owed = [[4]] ∧ s.toSsl = [] := by
  constructor
  · have ran : (([.readable (shakes .done), .connSend true [1, 2, 3] (.wrote 3)] :
        List TlsEvent).foldlM (fun s ev => (TlsState.exec (fun _ => 0) s ev).toOption)
          tlsEstablished).map (fun s => (s.handshaken, s.toWrite, s.conn.accepted)) =
        some (true, [1, 2, 3], [1, 2, 3]) := by
      decide +kernel
    obtain ⟨s, ran, facts⟩ := Option.map_eq_some_iff.mp ran
    exact ⟨s, run_of_exec ran, by simpa using facts⟩
  · have ran : (([.readable (shakes .wantWrite), .connSend true [4] (.wrote 1),
        .writable (shakes .done), .writable (shakes .done)] : List TlsEvent).foldlM
          (fun s ev => (TlsState.exec (fun _ => 0) s ev).toOption) tlsEstablished).map
            (fun s => (s.handshaken, s.conn.outputBuffer.readable, s.owed, s.toSsl)) =
        some (true, [4], [[4]], []) := by
      decide +kernel
    obtain ⟨s, ran, facts⟩ := Option.map_eq_some_iff.mp ran
    exact ⟨s, run_of_exec ran, by simpa using facts⟩

end Runs

end GpBase.Conn

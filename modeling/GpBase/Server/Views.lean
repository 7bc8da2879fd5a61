import GpBase.Conn.Read
import GpBase.Lib.Outcome
import GpBase.Server.Model

/-!
# The server's functions in the other models

`gp_queue_in_loop`, `conn_force_close` and `conn_ref_dec` also belong to the model of the
loop and its tasks, and `connection_handler_read` to the model of a read event. What the
server does in them is what these models do: the records of the connections and the queue
stay in step, and a read event leaves to be done, in the order and on the connection that
the other model records, the calls recorded there.
-/

namespace GpBase.Server

open GpBase.Lib GpBase.Buffer GpBase.Event GpBase.Conn GpBase.Loop

variable {s s' : ServerState}

theorem conn_eq_ok {c : Nat} {r : Connection} (found : s.conn c = .ok r) :
    s.conns c = some r ∧ r.live = true := by
  unfold ServerState.conn at found
  split at found
  · rename_i known
    split at found
    · rename_i alive
      cases found
      exact ⟨known, alive⟩
    · cases found
  · cases found

/-! ## The loop and its tasks -/

/-- The model of the loop has the server's connections and its queue. -/
structure InLoop (s : ServerState) (l : LoopState) : Prop where
  conns : ∀ c r, s.conns c = some r → l.conns c = r.toConnRec
  pendingList : l.loop.pendingList.map (·.conn) = s.pendingList.map fun t => some t.conn

/-- Both change the record of one connection. -/
theorem InLoop.onConn {l : LoopState} (same : InLoop s l) (c : Nat) (r' : Connection)
    (conns : s'.conns = Function.update s.conns c (some r'))
    (pendingList : s'.pendingList = s.pendingList) (f : ConnRec → ConnRec)
    (changed : f (l.conns c) = r'.toConnRec) : InLoop s' (l.onConn c f) where
  conns := by
    intro d q known
    rw [conns] at known
    by_cases here : d = c
    · subst here
      rw [Function.update_self] at known
      obtain rfl := Option.some.inj known
      show Function.update l.conns d (f (l.conns d)) d = _
      rw [Function.update_self, changed]
    · rw [Function.update_of_ne here] at known
      show Function.update l.conns c (f (l.conns c)) d = _
      rw [Function.update_of_ne here]
      exact same.conns d q known
  pendingList := by
    rw [pendingList]
    exact same.pendingList

theorem InLoop.connRefInc {l : LoopState} (same : InLoop s l) {c : Nat}
    (done : s.connRefInc c = .ok s') : InLoop s' (l.onConn c .connRefInc) := by
  obtain ⟨r, found, done⟩ := bind_eq_ok done
  cases done
  obtain ⟨known, _⟩ := conn_eq_ok found
  refine same.onConn c { r with toConnRec := r.toConnRec.connRefInc } (by rfl) (by rfl) _ ?_
  rw [same.conns c r known]

/-- `conn_ref_dec`, also when it frees the connection. -/
theorem InLoop.connRefDec {l : LoopState} (same : InLoop s l) {c : Nat}
    (done : s.connRefDec c = .ok s') : InLoop s' (l.onConn c .connRefDec) := by
  obtain ⟨r, found, done⟩ := bind_eq_ok done
  obtain ⟨known, _⟩ := conn_eq_ok found
  have changed : (l.conns c).connRefDec = r.toConnRec.connRefDec := by rw [same.conns c r known]
  dsimp only at done
  split at done
  · cases done
    exact same.onConn c { r with toConnRec := r.toConnRec.connRefDec } (by rfl) (by rfl) _ changed
  · cases done
    exact same.onConn c _ (by rfl) (by rfl) _ changed

/-- `gp_queue_in_loop` on the loop thread. -/
theorem InLoop.gpQueueInLoop {l : LoopState} (same : InLoop s l) {t : Task} {p : PendingTask}
    (task : p.conn = some t.conn) (done : s.gpQueueInLoop t = .ok s') :
    ∃ l', l.gpQueueInLoop p = some l' ∧ InLoop s' l' := by
  obtain ⟨s₁, held, done⟩ := bind_eq_ok done
  cases done
  have counted := same.connRefInc held
  refine ⟨_, by rw [LoopState.gpQueueInLoop, LoopState.append, task]; rfl, ?_⟩
  have list : (l.loop.pendingList ++ [p]).map (·.conn) =
      (s₁.pendingList ++ [t]).map fun t => some t.conn := by
    rw [List.map_append, List.map_append, ← counted.pendingList, List.map_singleton,
      List.map_singleton, task]
    rfl
  dsimp only
  split
  · exact ⟨counted.conns, list⟩
  · exact ⟨counted.conns, list⟩

/-- `conn_force_close` on the loop thread. -/
theorem InLoop.connForceClose {l : LoopState} (same : InLoop s l) {c : Nat} {p : PendingTask}
    (task : Closes p c) (done : s.connForceClose c = .ok s') :
    ∃ l', l.connForceClose c p = some l' ∧ InLoop s' l' := by
  obtain ⟨r, found, done⟩ := bind_eq_ok done
  obtain ⟨known, alive⟩ := conn_eq_ok found
  have closable : l.closable c = true ↔ r.state = .connected ∨ r.state = .disconnecting := by
    rw [LoopState.closable, same.conns c r known]
    simp
  unfold LoopState.connForceClose
  split at done
  · rename_i isOpen
    obtain ⟨s₁, left, done⟩ := bind_eq_ok done
    rw [if_pos (closable.mpr isOpen)]
    obtain ⟨r₁, found₁, left⟩ := bind_eq_ok left
    cases found.symm.trans found₁
    cases left
    refine InLoop.gpQueueInLoop ?_ task.2 done
    refine same.onConn c { r with state := .disconnecting } (by rfl) (by rfl) _ ?_
    rw [same.conns c r known]
  · rename_i shut
    cases done
    rw [if_neg fun h => shut (closable.mp h)]
    exact ⟨l, rfl, same⟩

/-! ## Read events -/

/-- The connection as a read event sees it. -/
def ServerState.inputSide (s : ServerState) (r : Connection) : InputSide where
  conn := s.view r
  inputBuffer := r.inputBuffer
  ref := r.ref
  destructed := !r.live
  errno := 0

/-- The connection at a call is that of the server, whose kernel has carried out the requests
that it still lists. -/
structure Shows (s : ServerState) (r : Connection) (t : InputSide) : Prop where
  conn : t.conn = { s.view r with
    epoller := { handlers := s.handlers, requests := t.conn.epoller.requests } }
  inputBuffer : t.inputBuffer = r.inputBuffer
  ref : t.ref = r.ref

/-- The connection at a call. -/
def atCall : Called → InputSide
  | .messageCallback t | .connectionCallback t | .closeCallback t
  | .connectionHandlerError t => t

/-- What the server leaves to be done for a call. -/
def toDo (c : Nat) : Called → Stmt
  | .closeCallback _ => .closeCallback c
  | _ => .callback

/-- The server stops at the first call of `connection_handler_read`, and has left to do what
the other model records and the `conn_ref_dec` behind it. -/
theorem connectionHandlerRead_calls {junk : Nat → UInt8} {c : Nat} {res : ReadResult}
    {r : Connection} (known : s.conns c = some r) (cb : Callbacks)
    (done : s.connectionHandlerRead junk c res = .ok s') :
    ∃ t first rest r', (s.inputSide r).connectionHandlerRead cb junk res =
        .ok (t, first :: rest) ∧
      s'.conns c = some r' ∧ Shows s' r' (atCall first) ∧
      s'.code = (first :: rest).map (toDo c) ++ .connRefDec c :: s.code := by
  obtain ⟨r₁, found, done⟩ := bind_eq_ok done
  obtain ⟨known₁, alive⟩ := conn_eq_ok found
  obtain rfl := Option.some.inj (known.symm.trans known₁)
  obtain ⟨⟨b, n, errno⟩, read, done⟩ := bind_eq_ok done
  have filled : (s.put c { r with inputBuffer := b }).conns c =
      some { r with inputBuffer := b } := Function.update_self ..
  have same : (s.inputSide r).inputBuffer.bufferReadFd junk res 0 = .ok (b, n, errno) := read
  unfold InputSide.connectionHandlerRead
  rw [same]
  dsimp only at done
  split at done
  · rename_i positive
    obtain ⟨s₁, held, done⟩ := bind_eq_ok done
    cases done
    obtain ⟨r₂, found₂, held⟩ := bind_eq_ok held
    obtain rfl := Option.some.inj (filled.symm.trans (conn_eq_ok found₂).1)
    cases held
    simp only [ok_bind, if_pos positive]
    exact ⟨_, _, [], _, rfl, Function.update_self .., ⟨rfl, rfl, rfl⟩, rfl⟩
  · rename_i notPositive
    obtain rfl : n = 0 := Nat.eq_zero_of_not_pos notPositive
    obtain ⟨s₁, held, done⟩ := bind_eq_ok done
    obtain ⟨s₂, disabled, done⟩ := bind_eq_ok done
    cases done
    obtain ⟨r₂, found₂, held⟩ := bind_eq_ok held
    obtain rfl := Option.some.inj (filled.symm.trans (conn_eq_ok found₂).1)
    cases held
    obtain ⟨r₃, found₃, disabled⟩ := bind_eq_ok disabled
    obtain rfl : _ = r₃ :=
      Option.some.inj ((Function.update_self c _ _).symm.trans (conn_eq_ok found₃).1)
    cases disabled
    simp only [ok_bind, if_neg notPositive]
    exact ⟨_, _, [.closeCallback _], _, rfl, Function.update_self .., ⟨rfl, rfl, rfl⟩, rfl⟩

end GpBase.Server

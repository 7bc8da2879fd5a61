import GpBase.Buffer.Spec
import GpBase.Conn.Model

/-!
# Read events of a plain connection

Translation of `connection_handler_read` in `gp_conn.c` with the functions it calls. The
callbacks belong to the user and may do anything with the connection; the calls are
recorded with the connection as each of them finds it.

`buffer_read_fd` returns the `ssize_t` of `readv` as a `size_t`, so a failure arrives as the
largest `size_t`, which is positive: the third branch is never taken.
-/

namespace GpBase.Conn

open GpBase.Lib GpBase.Buffer GpBase.Event

/-- A connection as a read event sees it. -/
structure InputSide where
  conn : GpConnection
  inputBuffer : GpBuffer
  ref : Int
  /-- `destruct_gp_connection` has been called -/
  destructed : Bool
  /-- the `errno` of the thread -/
  errno : Int

/-- The functions that a read event calls. -/
inductive Called
  | messageCallback (s : InputSide)
  | connectionCallback (s : InputSide)
  | closeCallback (s : InputSide)
  | connectionHandlerError (s : InputSide)

/-- The user's functions. -/
structure Callbacks where
  message : InputSide → InputSide
  connection : InputSide → InputSide
  close : InputSide → InputSide

namespace InputSide

variable (cb : Callbacks) (s : InputSide)

def connRefInc : InputSide := { s with ref := s.ref + 1 }

def connRefDec : InputSide :=
  { s with ref := s.ref - 1, destructed := s.destructed || s.ref - 1 = 0 }

/-- `connection_handler_close`. -/
def connectionHandlerClose : InputSide × List Called :=
  let s := s.connRefInc
  let s := { s with conn := GpConnection.disableAll { s.conn with state := .disconnected } }
  let t := cb.connection s
  ((cb.close t).connRefDec, [.connectionCallback s, .closeCallback t])

/-- `connection_handler_error`, whose body is empty. -/
def connectionHandlerError : InputSide × List Called := (s, [.connectionHandlerError s])

/-- `connection_handler_read`; `r` is the outcome of `readv`. -/
def connectionHandlerRead (junk : Nat → UInt8) (r : ReadResult) :
    Except Fault (InputSide × List Called) := do
  let (b, n, savedErrno) ← s.inputBuffer.bufferReadFd junk r 0
  let s := { s with inputBuffer := b }
  -- `n` is a `size_t`
  if 0 < n then
    let s := s.connRefInc
    return ((cb.message s).connRefDec, [.messageCallback s])
  else if n = 0 then
    return s.connectionHandlerClose cb
  else
    return { s with errno := savedErrno }.connectionHandlerError

end InputSide

/-- The bytes that one `readv` takes from the socket. -/
def taken (b : GpBuffer) : ReadResult → List UInt8
  | .data avail => avail.take b.readvLimit
  | .error _ => []

/-- What `readv` returns. -/
def readv (b : GpBuffer) : ReadResult → Int
  | .data avail => (avail.take b.readvLimit).length
  | .error _ => -1

/-- What a read event is to do, by the sign of what `readv` returns. -/
structure ReadOutcome (s : InputSide) (r : ReadResult) (s' : InputSide) (calls : List Called) :
    Prop where
  message : (∃ t, .messageCallback t ∈ calls) ↔ 0 < readv s.inputBuffer r
  received : 0 < readv s.inputBuffer r → ∃ t, calls = [.messageCallback t] ∧ t.conn = s.conn ∧
    t.inputBuffer.WF ∧ t.inputBuffer.readable = s.inputBuffer.readable ++ taken s.inputBuffer r
  closed : readv s.inputBuffer r = 0 → ∃ t u, calls = [.connectionCallback t, .closeCallback u] ∧
    t.conn.state = .disconnected ∧ t.conn.handler.events = knoneEvent ∧
    t.inputBuffer.readable = s.inputBuffer.readable
  failed : readv s.inputBuffer r < 0 → s'.conn = s.conn ∧ s'.inputBuffer = s.inputBuffer ∧
    ∃ t, calls = [.connectionHandlerError t]

section Outcome

variable {junk : Nat → UInt8} {cb : Callbacks} {s : InputSide}

theorem disableAll_events (c : GpConnection) : c.disableAll.handler.events = knoneEvent := by
  unfold GpConnection.disableAll Epoller.disableAll Epoller.update Epoller.updateHandler
  cases c.handler.index <;> simp

/-- A `readv` that does not fail is handled as its result says. -/
theorem read_data (wf : s.inputBuffer.WF) (avail : List UInt8) :
    ∃ s' calls, s.connectionHandlerRead cb junk (.data avail) = .ok (s', calls) ∧
      ReadOutcome s (.data avail) s' calls := by
  obtain ⟨b', read, wf', appended⟩ := wf.bufferReadFd_data junk avail 0
  unfold InputSide.connectionHandlerRead
  simp only [read, bind, Except.bind, pure, Except.pure]
  by_cases some : 0 < (avail.take s.inputBuffer.readvLimit).length
  · rw [if_pos some]
    refine ⟨_, _, rfl, ?_, ?_, ?_, ?_⟩
    · show (∃ t, Called.messageCallback t ∈ [Called.messageCallback _]) ↔
        (0 : Int) < (avail.take s.inputBuffer.readvLimit).length
      exact ⟨fun _ => Int.natCast_pos.mpr some, fun _ => ⟨_, List.mem_singleton_self _⟩⟩
    · intro _
      exact ⟨_, rfl, rfl, wf', appended⟩
    · intro (none : ((avail.take s.inputBuffer.readvLimit).length : Int) = 0)
      omega
    · intro (negative : ((avail.take s.inputBuffer.readvLimit).length : Int) < 0)
      omega
  · have empty : avail.take s.inputBuffer.readvLimit = [] := by
      apply List.eq_nil_of_length_eq_zero
      omega
    rw [if_neg some, if_pos (by omega)]
    refine ⟨_, _, rfl, ?_, ?_, ?_, ?_⟩
    · show (∃ t, Called.messageCallback t ∈ [Called.connectionCallback _, .closeCallback _]) ↔
        (0 : Int) < (avail.take s.inputBuffer.readvLimit).length
      constructor
      · rintro ⟨t, called⟩
        simp at called
      · intro positive
        omega
    · intro (positive : (0 : Int) < (avail.take s.inputBuffer.readvLimit).length)
      omega
    · intro _
      refine ⟨_, _, rfl, rfl, disableAll_events _, ?_⟩
      show b'.readable = s.inputBuffer.readable
      rw [appended, empty, List.append_nil]
    · intro (negative : ((avail.take s.inputBuffer.readvLimit).length : Int) < 0)
      omega

/-- A `readv` that fails: the message callback is called on the old contents. -/
theorem read_error (errno : Int) :
    s.connectionHandlerRead cb junk (.error errno) =
      .ok ((cb.message s.connRefInc).connRefDec, [.messageCallback s.connRefInc]) := by
  unfold InputSide.connectionHandlerRead GpBuffer.bufferReadFd
  simp only [bind, Except.bind, pure, Except.pure]
  rw [if_pos (by decide)]

/-- **Read events do what `readv` returned unless it failed.** For every input buffer and every
outcome of `readv`, with any callbacks: a positive result is appended and announced, zero
closes the connection, and a negative one is left to the error handler, exactly when the
result is not negative. -/
theorem read_outcome_iff (junk : Nat → UInt8) (cb : Callbacks) (wf : s.inputBuffer.WF)
    (r : ReadResult) :
    (∃ s' calls, s.connectionHandlerRead cb junk r = .ok (s', calls) ∧
      ReadOutcome s r s' calls) ↔ 0 ≤ readv s.inputBuffer r := by
  cases r with
  | data avail =>
      constructor
      · intro _
        exact Int.natCast_nonneg _
      · intro _
        exact read_data wf avail
  | error errno =>
      constructor
      · rintro ⟨s', calls, ran, outcome⟩
        rw [read_error] at ran
        cases ran
        have positive := outcome.message.mp ⟨_, List.mem_singleton_self _⟩
        cases positive
      · intro (nonneg : (0 : Int) ≤ -1)
        omega

end Outcome

/-- A connected peer with nothing received, and callbacks that do nothing. -/
def quiet : InputSide where
  conn :=
    { state := .connected
      handler := { addToLoop := true, index := .added, fd := 4, events := kreadEvent }
      outputBuffer := .initGpBuffer fun _ => 0
      epoller := { handlers := fun fd => fd = 4, requests := [] }
      accepted := []
      shutdownWr := false }
  inputBuffer := .initGpBuffer fun _ => 0
  ref := 1
  destructed := false
  errno := 0

def idle : Callbacks := ⟨id, id, id⟩

theorem quiet_wf : quiet.inputBuffer.WF := GpBuffer.WF.init fun _ => 0

/-- The end of the stream. -/
theorem read_outcome_iff_closed :
    (∃ s' calls, quiet.connectionHandlerRead idle (fun _ => 0) (.data []) = .ok (s', calls) ∧
      ReadOutcome quiet (.data []) s' calls) ↔ 0 ≤ readv quiet.inputBuffer (.data []) :=
  read_outcome_iff (s := quiet) (fun _ => 0) idle quiet_wf (.data [])

/-- `EAGAIN`: the message callback is called although nothing was received, and the error
handler is not. -/
theorem read_eagain :
    ∃ s' t, quiet.connectionHandlerRead idle (fun _ => 0) (.error 11) =
        .ok (s', [.messageCallback t]) ∧
      t.inputBuffer = quiet.inputBuffer ∧ ¬ ReadOutcome quiet (.error 11) s' [.messageCallback t] := by
  refine ⟨_, _, read_error 11, rfl, ?_⟩
  intro outcome
  have positive := outcome.message.mp ⟨_, List.mem_singleton_self _⟩
  exact absurd positive (show ¬ (0 : Int) < -1 by decide)

end GpBase.Conn

import GpBase.Conn.Interest
import GpBase.Conn.Read

/-!
# Connections of a TLS server

Translation of `ssl_connection_init` and of the callbacks in `gp_ssl_server.c`. Which
function sends the output is decided by the callbacks that are installed in the handler,
and by the direct `write()` of `conn_send_in_loop`. The results of OpenSSL are inputs.

The input side is left out: `ssl_handler_read` fills the input buffer and calls the message
callback, whose calls of `conn_send` are steps of their own.
-/

namespace GpBase.Conn

open GpBase.Lib GpBase.Buffer GpBase.Event

/-- The functions that are installed as callbacks of a handler. -/
inductive Installed
  | connectionHandlerRead
  | connectionHandlerWrite
  | connectionHandlerClose
  | sslHandlerHandshake
  | sslHandlerRead
  | sslHandlerWrite
  | sslHandlerClose
  deriving DecidableEq, Repr

/-- `SSL_do_handshake` and `SSL_get_error`. -/
inductive Handshake
  | done
  | wantWrite
  | wantRead
  | error
  deriving DecidableEq, Repr

/-- What the calls of an event return, should they be made. -/
structure Results where
  handshake : Handshake
  /-- `SSL_read` has failed with `ECONNRESET` -/
  sslReadReset : Bool
  sslWrite : Int
  /-- `buffer_read_fd` -/
  bufferReadFd : Nat
  write : WriteResult
  deriving DecidableEq, Repr

structure TlsState where
  out : WriteState
  readCallback : Installed
  writeCallback : Installed
  closeCallback : Installed
  /-- `remove_conn` has been called -/
  removed : Bool
  /-- `SSL_do_handshake` has returned 1 -/
  handshaken : Bool
  /-- the bytes handed to `write()` so far -/
  toWrite : List UInt8
  /-- the arguments of the calls of `SSL_write` so far -/
  toSsl : List (List UInt8)
  /-- the output that the writable events after the handshake have found -/
  owed : List (List UInt8)

/-- The bytes that `conn_send_in_loop` hands to `write()`. -/
def GpConnection.handed (c : GpConnection) (msg : List UInt8) : List UInt8 :=
  if c.state = .disconnected then []
  else if !c.handler.isWriting && c.outputBuffer.readableBytes = 0 then msg
  else []

def GpConnection.disableReading (c : GpConnection) : GpConnection :=
  let (e, h) := c.epoller.disableReading c.handler
  { c with epoller := e, handler := h }

namespace TlsState

variable (junk : Nat → UInt8) (s : TlsState)

def conn : GpConnection := s.out.conn

def setConn (c : GpConnection) : TlsState := { s with out := { s.out with conn := c } }

/-- `init_gp_connection`. -/
def initGpConnection (fd : Int) (e : Epoller) : TlsState where
  out :=
    { conn :=
        { state := .connecting
          handler := { addToLoop := false, index := .new, fd := fd, events := 0 }
          outputBuffer := .initGpBuffer junk
          epoller := e
          accepted := []
          shutdownWr := false }
      deferred := [] }
  readCallback := .connectionHandlerRead
  writeCallback := .connectionHandlerWrite
  closeCallback := .connectionHandlerClose
  removed := false
  handshaken := false
  toWrite := []
  toSsl := []
  owed := []

/-- `ssl_connection_init`, the connection callback of the server. -/
def sslConnectionInit : TlsState :=
  if s.conn.state = .connected then
    { s with
      closeCallback := .sslHandlerClose
      readCallback := .sslHandlerHandshake
      writeCallback := .sslHandlerHandshake }
  else s

def connectionEstablished : TlsState :=
  (s.setConn (GpConnection.enableReading { s.conn with state := .connected })).sslConnectionInit

def connectionDestroyed : TlsState :=
  let s := if s.conn.state = .connected then
    (s.setConn (GpConnection.disableAll { s.conn with state := .disconnected })).sslConnectionInit
  else s
  s.setConn s.conn.handlerRemove

/-- `connection_handler_close`. -/
def connectionHandlerClose : TlsState :=
  let s := (s.setConn (GpConnection.disableAll { s.conn with state := .disconnected })).sslConnectionInit
  { s with removed := true }

/-- `connection_handler_read`, as far as the connection goes. -/
def connectionHandlerRead (n : Nat) : TlsState :=
  if n = 0 then s.connectionHandlerClose else s

/-- `connection_handler_write`. -/
def connectionHandlerWrite (w : WriteResult) : Except Fault TlsState := do
  let c ← s.conn.connectionHandlerWrite w
  return { s.setConn c with toWrite := s.toWrite ++ s.conn.outputBuffer.readable }

def sslHandlerHandshake : Handshake → TlsState
  | .done => { s with readCallback := .sslHandlerRead, handshaken := true }
  | .wantWrite => s.setConn s.conn.enableWriting.disableReading
  | .wantRead => s.setConn s.conn.enableReading.disableWriting
  | .error => s

/-- `ssl_handler_write`: as `connection_handler_write`, with `SSL_write`. -/
def sslHandlerWrite (n : Int) : Except Fault TlsState := do
  let bytes ← s.conn.outputBuffer.peekAt 0 s.conn.outputBuffer.readableBytes
  let s := { s with toSsl := s.toSsl ++ [bytes] }
  let n := sizeT n
  if 0 < n then
    let c := { s.conn with outputBuffer := s.conn.outputBuffer.retrieve n }
    return s.setConn (if c.outputBuffer.readableBytes = 0 then c.outputDrained else c)
  else
    return s

def sslHandlerClose : TlsState := { s with removed := true }

/-- `ssl_handler_read`, as far as the connection goes. -/
def sslHandlerRead (reset : Bool) : TlsState := if reset then s.sslHandlerClose else s

/-- Call an installed function. -/
def call (r : Results) : Installed → Except Fault TlsState
  | .connectionHandlerRead => return s.connectionHandlerRead r.bufferReadFd
  | .connectionHandlerWrite => s.connectionHandlerWrite r.write
  | .connectionHandlerClose => return s.connectionHandlerClose
  | .sslHandlerHandshake => return s.sslHandlerHandshake r.handshake
  | .sslHandlerRead => return s.sslHandlerRead r.sslReadReset
  | .sslHandlerWrite => s.sslHandlerWrite r.sslWrite
  | .sslHandlerClose => return s.sslHandlerClose

end TlsState

/-- Before `ssl_connection_init` has replaced it, the read callback does to the connection what
`GpBase.Conn.Read` says, and calls `remove_conn` when the close callback is called there. -/
theorem TlsState.connectionHandlerRead_inputSide {junk : Nat → UInt8} {s : TlsState}
    {t : InputSide} {r : ReadResult} {b : GpBuffer} {n : Nat} {errno : Int}
    (conn : t.conn = s.conn) (read : t.inputBuffer.bufferReadFd junk r 0 = .ok (b, n, errno)) :
    ∃ t' calls, t.connectionHandlerRead idle junk r = .ok (t', calls) ∧
      t'.conn = (s.connectionHandlerRead n).conn ∧
      ((s.connectionHandlerRead n).removed ↔
        s.removed ∨ ∃ u, Called.closeCallback u ∈ calls) := by
  unfold InputSide.connectionHandlerRead TlsState.connectionHandlerRead
  rw [read]
  simp only [bind, Except.bind, pure, Except.pure]
  by_cases eof : n = 0
  · have shut : (s.setConn
        (GpConnection.disableAll { s.conn with state := .disconnected })).conn.state ≠
          .connected := nofun
    have closed : s.connectionHandlerClose =
        { s.setConn (GpConnection.disableAll { s.conn with state := .disconnected }) with
          removed := true } := by
      unfold TlsState.connectionHandlerClose TlsState.sslConnectionInit
      dsimp only
      rw [if_neg shut]
    rw [if_neg (by omega), if_pos eof, if_pos eof, closed]
    refine ⟨_, _, rfl, ?_, ?_⟩
    · show GpConnection.disableAll { t.conn with state := .disconnected } = _
      rw [conn]
      rfl
    · exact iff_of_true rfl (.inr ⟨_, List.mem_cons_of_mem _ (List.mem_singleton_self _)⟩)
  · rw [if_pos (by omega), if_neg eof]
    refine ⟨_, _, rfl, conn, ?_⟩
    simp

/-- What happens to a connection. -/
inductive TlsEvent
  | readable (r : Results)
  | writable (r : Results)
  | hangUp (r : Results)
  | connSend (inLoop : Bool) (msg : List UInt8) (w : WriteResult)
  | connShutdown (inLoop : Bool)
  | runDeferred (w : WriteResult)
  | connectionDestroyed
  deriving DecidableEq, Repr

namespace TlsState

variable (junk : Nat → UInt8) (s : TlsState)

/-- The bytes that a call from outside hands to `write()`. -/
def handedBy : TlsEvent → List UInt8
  | .connSend inLoop msg _ => if s.conn.state = .connected ∧ inLoop then s.conn.handed msg else []
  | .runDeferred _ =>
    match s.out.deferred with
    | .trans msg :: _ => s.conn.handed msg
    | _ => []
  | _ => []

/-- The output that a writable event after the handshake finds. -/
def owedBy : TlsEvent → List (List UInt8)
  | .writable _ =>
    if s.handshaken ∧ s.conn.outputBuffer.readable ≠ [] then [s.conn.outputBuffer.readable] else []
  | _ => []

def exec (ev : TlsEvent) : Except Fault TlsState :=
  let s := { s with toWrite := s.toWrite ++ s.handedBy ev, owed := s.owed ++ s.owedBy ev }
  match ev with
  | .readable r => s.call r s.readCallback
  | .writable r => s.call r s.writeCallback
  | .hangUp r => s.call r s.closeCallback
  | .connSend inLoop msg w => do return { s with out := ← s.out.connSend junk inLoop msg w }
  | .connShutdown inLoop => return { s with out := s.out.connShutdown inLoop }
  | .runDeferred w => do return { s with out := ← s.out.runDeferred junk w }
  | .connectionDestroyed => return if s.removed then s.connectionDestroyed else s

end TlsState

/-- A connection of a TLS server, from `connection_established` on. -/
def tlsSys (junk : Nat → UInt8) : TSys TlsState TlsEvent where
  init s := ∃ fd e, s = (TlsState.initGpConnection junk fd e).connectionEstablished
  step s ev s' := s.exec junk ev = .ok s'

end GpBase.Conn

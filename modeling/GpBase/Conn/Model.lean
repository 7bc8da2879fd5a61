import GpBase.Buffer.Model
import GpBase.Event.Handler

/-!
# The output side of a plain connection

Translation of `conn_send_in_loop` and `connection_handler_write` in
`gp_conn.c`. Both may call `write()` once; its outcome is an input of the model.
The socket records the bytes that the kernel accepted, in order.
-/

namespace GpBase.Conn

open GpBase.Lib GpBase.Buffer GpBase.Event

/-- `enum gp_state`. -/
inductive GpState
  | disconnected
  | connecting
  | connected
  | disconnecting
  deriving DecidableEq, Repr

/-- The values of `errno` after a failed `write()` that the code tells apart. -/
inductive Errno
  | ewouldblock
  | eintr
  | epipe
  | econnreset
  | other (code : Nat)
  deriving DecidableEq, Repr

/-- The most that one `write()` transfers on Linux. -/
def writeMax : Nat := 0x7ffff000

/-- The outcome of one `write()`: at most `n` bytes are taken (all of them when
`n` is large enough), or `-1` with an `errno`. -/
inductive WriteResult
  | wrote (n : Nat)
  | error (errno : Errno)
  deriving DecidableEq, Repr

/-- A connection with the parts of its surroundings that its output touches. -/
structure GpConnection where
  state : GpState
  handler : Handler
  outputBuffer : GpBuffer
  epoller : Epoller
  /-- bytes accepted by the kernel so far -/
  accepted : List UInt8
  /-- `shutdown(fd, SHUT_WR)` has been called -/
  shutdownWr : Bool

namespace GpConnection

variable (c : GpConnection)

def enableReading : GpConnection :=
  let (e, h) := c.epoller.enableReading c.handler
  { c with epoller := e, handler := h }

def enableWriting : GpConnection :=
  let (e, h) := c.epoller.enableWriting c.handler
  { c with epoller := e, handler := h }

def disableWriting : GpConnection :=
  let (e, h) := c.epoller.disableWriting c.handler
  { c with epoller := e, handler := h }

def disableAll : GpConnection :=
  let (e, h) := c.epoller.disableAll c.handler
  { c with epoller := e, handler := h }

/-- `update`, as `set_revents` calls it. -/
def update : GpConnection :=
  let (e, h) := c.epoller.update c.handler
  { c with epoller := e, handler := h }

def handlerRemove : GpConnection :=
  let (e, h) := c.epoller.removeHandler { c.handler with addToLoop := false }
  { c with epoller := e, handler := h }

/-- `write(fd, bytes, length)`: the value returned and the socket afterwards. -/
def write (bytes : List UInt8) : WriteResult → GpConnection × Int
  | .wrote n =>
    let taken := bytes.take (min n writeMax)
    ({ c with accepted := c.accepted ++ taken }, taken.length)
  | .error _ => (c, -1)

/-- The fatal outcomes of a direct `write()`. -/
def faultError : WriteResult → Bool
  | .error .epipe | .error .econnreset => true
  | _ => false

/-- The end of `conn_send_in_loop`: what was not written is queued, and the
handler asks for `POLLOUT`. -/
def queueRemaining (junk : Nat → UInt8) (rest : List UInt8) : Except Fault GpConnection := do
  let b ← c.outputBuffer.bufferAppend junk rest
  let c := { c with outputBuffer := b }
  return if !c.handler.isWriting then c.enableWriting else c

/-- `conn_send_in_loop`; `w` is the outcome of `write()`, should it be called. -/
def connSendInLoop (junk : Nat → UInt8) (w : WriteResult) (msg : List UInt8) :
    Except Fault GpConnection :=
  if c.state = .disconnected then
    return c
  else
    -- nothing queued: try writing directly
    let direct := !c.handler.isWriting && c.outputBuffer.readableBytes = 0
    let (c, nwrote) := if direct then c.write msg w else (c, 0)
    let fault := direct && faultError w
    let remaining := if 0 ≤ nwrote then msg.length - nwrote.toNat else msg.length
    let nwrote := if 0 ≤ nwrote then nwrote.toNat else 0
    if !fault && 0 < remaining then c.queueRemaining junk (msg.drop nwrote)
    else return c

/-- `run_in_loop_shutdown`. -/
def runInLoopShutdown : GpConnection :=
  if c.handler.isWriting then c else { c with shutdownWr := true }

/-- What `connection_handler_write` does when the output buffer has run empty. -/
def outputDrained : GpConnection :=
  if c.state = .disconnecting then { c.disableWriting with shutdownWr := true }
  else c.disableWriting

@[simp] theorem outputDrained_state : c.outputDrained.state = c.state := by
  unfold outputDrained
  split <;> rfl

@[simp] theorem outputDrained_accepted : c.outputDrained.accepted = c.accepted := by
  unfold outputDrained
  split <;> rfl

@[simp] theorem outputDrained_outputBuffer :
    c.outputDrained.outputBuffer = c.outputBuffer := by
  unfold outputDrained
  split <;> rfl

/-- `connection_handler_write`: the result of `write()` is kept in a `size_t`. -/
def connectionHandlerWrite (w : WriteResult) : Except Fault GpConnection := do
  let bytes ← c.outputBuffer.peekAt 0 c.outputBuffer.readableBytes
  let (c, n) := c.write bytes w
  let n := sizeT n
  if 0 < n then
    let c := { c with outputBuffer := c.outputBuffer.retrieve n }
    return if c.outputBuffer.readableBytes = 0 then c.outputDrained else c
  else
    return c

end GpConnection

end GpBase.Conn

import Mathlib.Logic.Function.Basic

/-!
# Event handlers and the epoll interest list

Translation of the interest-mask part of `gp_handler.c` and of
`update_handler`/`remove_handler` in `gp_epoller.c`. A handler carries the mask
it wants to be polled for; every change of the mask goes through `update`,
which asks the kernel for the matching `epoll_ctl`.
-/

namespace GpBase.Event

/-- An event mask: an `int` of `POLL*` bits. -/
abbrev Mask := BitVec 32

def pollIn : Mask := 0x1
def pollPri : Mask := 0x2
def pollOut : Mask := 0x4
def pollErr : Mask := 0x8
def pollHup : Mask := 0x10
def pollNval : Mask := 0x20
def pollRdhup : Mask := 0x2000

def knoneEvent : Mask := 0
def kreadEvent : Mask := pollIn ||| pollPri
def kwriteEvent : Mask := pollOut

/-- `handler->index`: `k_new`, `k_added` or `k_deleted`. -/
inductive Index
  | new
  | added
  | deleted
  deriving DecidableEq, Repr

structure Handler where
  addToLoop : Bool
  index : Index
  fd : Int
  events : Mask
  deriving DecidableEq, Repr

inductive CtlOp
  | add
  | mod
  | del
  deriving DecidableEq, Repr

/-- One `epoll_ctl` call. -/
structure CtlRequest where
  op : CtlOp
  fd : Int
  mask : Mask
  deriving DecidableEq, Repr

/-- The poller: the fds that are keys of `epoller->handlers`, and the
`epoll_ctl` calls made so far. -/
structure Epoller where
  handlers : Int → Bool
  requests : List CtlRequest

namespace Epoller

/-- `poller_update`: one `epoll_ctl` for the handler. -/
def pollerUpdate (e : Epoller) (op : CtlOp) (h : Handler) : Epoller :=
  { e with requests := e.requests ++ [{ op := op, fd := h.fd, mask := h.events }] }

def updateHandler (e : Epoller) (h : Handler) : Epoller × Handler :=
  match h.index with
  | .new =>
    -- `dictAdd`
    let e := { e with handlers := Function.update e.handlers h.fd true }
    (e.pollerUpdate .add h, { h with index := .added })
  | .deleted => (e.pollerUpdate .add h, { h with index := .added })
  | .added =>
    if h.events = knoneEvent then (e.pollerUpdate .del h, { h with index := .deleted })
    else (e.pollerUpdate .mod h, h)

def removeHandler (e : Epoller) (h : Handler) : Epoller × Handler :=
  -- `dictDelete`
  let e := { e with handlers := Function.update e.handlers h.fd false }
  let e := if h.index = .added then e.pollerUpdate .del h else e
  (e, { h with index := .new })

/-- `update`, the common tail of every change of a mask. -/
def update (e : Epoller) (h : Handler) : Epoller × Handler :=
  e.updateHandler { h with addToLoop := true }

def enableReading (e : Epoller) (h : Handler) : Epoller × Handler :=
  e.update { h with events := h.events ||| kreadEvent }

def enableWriting (e : Epoller) (h : Handler) : Epoller × Handler :=
  e.update { h with events := h.events ||| kwriteEvent }

def disableReading (e : Epoller) (h : Handler) : Epoller × Handler :=
  e.update { h with events := h.events &&& ~~~kreadEvent }

def disableWriting (e : Epoller) (h : Handler) : Epoller × Handler :=
  e.update { h with events := h.events &&& ~~~kwriteEvent }

def disableAll (e : Epoller) (h : Handler) : Epoller × Handler :=
  e.update { h with events := knoneEvent }

end Epoller

/-- `is_writing`, as the truth value its callers use. -/
def Handler.isWriting (h : Handler) : Bool := h.events &&& kwriteEvent ≠ 0

/-- One `epoll_ctl` on the interest list of the kernel, which keeps the value
`val q` for the fd of a request: `EPOLL_CTL_ADD` refuses an fd that is there,
the other two an fd that is not. -/
def epollCtl {α : Type*} (val : CtlRequest → α) (interest : Int → Option α) (q : CtlRequest) :
    Int → Option α :=
  match q.op with
  | .add => if interest q.fd = none then Function.update interest q.fd (some (val q)) else interest
  | .mod => if interest q.fd = none then interest else Function.update interest q.fd (some (val q))
  | .del => Function.update interest q.fd none

/-- The callbacks that a handler is set up with. -/
inductive EventCallback
  | close
  | error
  | read
  | write
  deriving DecidableEq, Repr

/-- The peer has hung up and left nothing to read. -/
def hungUp (revents : Mask) : Bool := revents &&& pollHup ≠ 0 && revents &&& pollIn = 0

/-- `handle_event`: the callbacks that it calls for the mask `revents`, in order. -/
def handleEvent (revents : Mask) : List EventCallback :=
  (if hungUp revents then [.close] else []) ++
  (if revents &&& (pollErr ||| pollNval) ≠ 0 then [.error] else []) ++
  (if revents &&& (pollIn ||| pollPri ||| pollRdhup) ≠ 0 then [.read] else []) ++
  (if revents &&& pollOut ≠ 0 then [.write] else [])

end GpBase.Event

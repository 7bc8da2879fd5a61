import GpBase.Event.Handler
import GpBase.Lib.Run

/-!
# Handlers and what epoll knows of them

Three views of one fact: `handler->index`, the interest list of the kernel and
the keys of `epoller->handlers`. `updateHandler_cases` says once what an update
can do; every operation on a handler is an update of a new mask or a removal.
-/

namespace GpBase.Event

/-- The kernel accepts the request. -/
def Legal {α : Type*} (interest : Int → Option α) (q : CtlRequest) : Prop :=
  match q.op with
  | .add => interest q.fd = none
  | .mod | .del => interest q.fd ≠ none

section OneHandler

variable {α : Type*} {val : CtlRequest → α} {interest : Int → Option α} {e : Epoller}
  {h : Handler}

/-- The three branches of `update_handler`. -/
theorem Epoller.updateHandler_cases (e : Epoller) (h : Handler) :
    (h.index ≠ .added ∧
      (e.updateHandler h).1.requests = e.requests ++ [⟨.add, h.fd, h.events⟩] ∧
      (e.updateHandler h).1.handlers =
        (if h.index = .new then Function.update e.handlers h.fd true else e.handlers) ∧
      (e.updateHandler h).2 = { h with index := .added }) ∨
    (h.index = .added ∧ (e.updateHandler h).1.handlers = e.handlers ∧
      ((h.events = knoneEvent ∧
          (e.updateHandler h).1.requests = e.requests ++ [⟨.del, h.fd, h.events⟩] ∧
          (e.updateHandler h).2 = { h with index := .deleted }) ∨
        (h.events ≠ knoneEvent ∧
          (e.updateHandler h).1.requests = e.requests ++ [⟨.mod, h.fd, h.events⟩] ∧
          (e.updateHandler h).2 = h))) := by
  unfold Epoller.updateHandler
  cases index : h.index with
  | new => exact .inl ⟨by simp, rfl, by simp [Epoller.pollerUpdate], rfl⟩
  | deleted => exact .inl ⟨by simp, rfl, by simp [Epoller.pollerUpdate], rfl⟩
  | added =>
      refine .inr ⟨rfl, ?_⟩
      by_cases none : h.events = knoneEvent
      · simp [none, Epoller.pollerUpdate]
      · simp [none, Epoller.pollerUpdate]

/-- The interest list holds `v` for the fd of a registered handler and nothing
for that of another. -/
def Follows (interest : Int → Option α) (h : Handler) (v : α) : Prop :=
  interest h.fd = if h.index = .added then some v else none

/-- `qs` is what a call on the handler `h` requests: at most one `epoll_ctl`, a legal one
for its fd, after which the list follows the handler `h'` that the call leaves. -/
structure Requests (val : CtlRequest → α) (interest : Int → Option α) (h h' : Handler)
    (qs : List CtlRequest) : Prop where
  atMostOne : qs.length ≤ 1
  fd : h'.fd = h.fd
  legal : ∀ q ∈ qs, q.fd = h.fd ∧ Legal interest q
  follows : ∀ v, (∀ q, q.mask = h'.events → val q = v) →
    Follows (qs.foldl (epollCtl val) interest) h' v

/-- An update issues one request, whatever the new mask is. -/
theorem Follows.updateHandler {v : α} (follows : Follows interest h v) (e : Epoller)
    (h' : Handler) (fd : h'.fd = h.fd) (index : h'.index = h.index) :
    ∃ qs, (e.updateHandler h').1.requests = e.requests ++ qs ∧
      Requests val interest h (e.updateHandler h').2 qs := by
  unfold Follows at follows
  rw [← fd, ← index] at follows
  rcases e.updateHandler_cases h' with
    ⟨other, requests, _, same⟩ | ⟨added, _, ⟨_, requests, same⟩ | ⟨_, requests, same⟩⟩
  · rw [if_neg other] at follows
    refine ⟨_, requests, by simp, by rw [same, fd], ?_, fun v' value => ?_⟩
    · simpa [Legal] using ⟨fd, follows⟩
    · rw [same] at value ⊢
      simp [Follows, epollCtl, follows, value]
  · rw [if_pos added] at follows
    refine ⟨_, requests, by simp, by rw [same, fd], ?_, fun v' value => ?_⟩
    · simpa [Legal, follows] using fd
    · rw [same]
      simp [Follows, epollCtl]
  · rw [if_pos added] at follows
    refine ⟨_, requests, by simp, by rw [same, fd], ?_, fun v' value => ?_⟩
    · simpa [Legal, follows] using fd
    · rw [same] at value ⊢
      simp [Follows, epollCtl, follows, added, value]

/-- A removal issues a request only if the handler is registered. -/
theorem Follows.removeHandler {v : α} (follows : Follows interest h v) (e : Epoller)
    (h' : Handler) (fd : h'.fd = h.fd) (index : h'.index = h.index) :
    ∃ qs, (e.removeHandler h').1.requests = e.requests ++ qs ∧
      Requests val interest h (e.removeHandler h').2 qs := by
  unfold Follows at follows
  rw [← fd, ← index] at follows
  by_cases added : h'.index = .added
  · rw [if_pos added] at follows
    refine ⟨[⟨.del, h'.fd, h'.events⟩], ?_, by simp, fd, ?_, fun v' _ => ?_⟩
    · simp [Epoller.removeHandler, added, Epoller.pollerUpdate]
    · simpa [Legal, follows] using fd
    · simp [Follows, Epoller.removeHandler, epollCtl]
  · rw [if_neg added] at follows
    refine ⟨[], by simp [Epoller.removeHandler, added], by simp, fd, by simp, fun v' _ => ?_⟩
    simpa [Follows, Epoller.removeHandler] using follows

/-- A request for another fd is not seen. -/
theorem epollCtl_other {q : CtlRequest} {fd : Int} (other : q.fd ≠ fd) :
    epollCtl val interest q fd = interest fd := by
  have kept (o : Option α) : Function.update interest q.fd o fd = interest fd :=
    Function.update_of_ne (Ne.symm other) _ _
  unfold epollCtl
  cases q.op with
  | add => by_cases free : interest q.fd = none <;> simp [free, kept]
  | mod => by_cases free : interest q.fd = none <;> simp [free, kept]
  | del => exact kept none

theorem Requests.other {h' : Handler} {qs : List CtlRequest}
    (requests : Requests val interest h h' qs) {fd : Int} (other : h.fd ≠ fd) :
    qs.foldl (epollCtl val) interest fd = interest fd := by
  have fds : ∀ q ∈ qs, q.fd ≠ fd := by
    intro q hq
    rw [(requests.legal q hq).1]
    exact other
  clear requests
  induction qs generalizing interest with
  | nil => rfl
  | cons q qs ih =>
      rw [List.foldl_cons, ih fun q' hq' => fds q' (List.mem_cons_of_mem _ hq'),
        epollCtl_other (fds q List.mem_cons_self)]

end OneHandler

/-! ## Any number of handlers -/

/-- The calls on a handler; `_revents` is not part of a `Handler` here. -/
inductive HandlerOp
  | enableReading
  | enableWriting
  | disableReading
  | disableWriting
  | disableAll
  | setRevents (revt : Mask)
  | handlerRemove
  deriving DecidableEq, Repr

def HandlerOp.exec (e : Epoller) (h : Handler) : HandlerOp → Epoller × Handler
  | .enableReading => e.enableReading h
  | .enableWriting => e.enableWriting h
  | .disableReading => e.disableReading h
  | .disableWriting => e.disableWriting h
  | .disableAll => e.disableAll h
  | .setRevents _ => e.update h
  | .handlerRemove => e.removeHandler { h with addToLoop := false }

/-- Every call on a handler that the list follows requests what it should. -/
theorem HandlerOp.exec_requests {α : Type*} (val : CtlRequest → α) {interest : Int → Option α}
    {h : Handler} {v : α} (follows : Follows interest h v) (e : Epoller) (op : HandlerOp) :
    ∃ qs, (op.exec e h).1.requests = e.requests ++ qs ∧
      Requests val interest h (op.exec e h).2 qs := by
  cases op with
  | enableReading => exact follows.updateHandler e _ rfl rfl
  | enableWriting => exact follows.updateHandler e _ rfl rfl
  | disableReading => exact follows.updateHandler e _ rfl rfl
  | disableWriting => exact follows.updateHandler e _ rfl rfl
  | disableAll => exact follows.updateHandler e _ rfl rfl
  | setRevents revt => exact follows.updateHandler e _ rfl rfl
  | handlerRemove => exact follows.removeHandler e _ rfl rfl

/-- An update makes the fd a key, unless it was one. -/
theorem Epoller.updateHandler_keys (e : Epoller) (h : Handler)
    (keys : e.handlers h.fd = decide (h.index ≠ .new)) :
    (e.updateHandler h).1.handlers =
      Function.update e.handlers h.fd (decide ((e.updateHandler h).2.index ≠ .new)) := by
  rcases e.updateHandler_cases h with
    ⟨_, _, handlers, same⟩ | ⟨added, handlers, ⟨_, _, same⟩ | ⟨_, _, same⟩⟩
  · rw [handlers, same]
    by_cases new : h.index = .new
    · simp [new]
    · simp [new, keys]
  · rw [handlers, same]
    simp [added, keys]
  · rw [handlers, same]
    simp [added, keys]

/-- After every call the fd is a key exactly if the handler is not new. -/
theorem HandlerOp.exec_keys (e : Epoller) (h : Handler) (op : HandlerOp)
    (keys : e.handlers h.fd = decide (h.index ≠ .new)) :
    (op.exec e h).1.handlers =
      Function.update e.handlers h.fd (decide ((op.exec e h).2.index ≠ .new)) := by
  cases op with
  | enableReading => exact e.updateHandler_keys _ keys
  | enableWriting => exact e.updateHandler_keys _ keys
  | disableReading => exact e.updateHandler_keys _ keys
  | disableWriting => exact e.updateHandler_keys _ keys
  | disableAll => exact e.updateHandler_keys _ keys
  | setRevents revt => exact e.updateHandler_keys _ keys
  | handlerRemove =>
      by_cases added : h.index = .added
      · simp [HandlerOp.exec, Epoller.removeHandler, added, Epoller.pollerUpdate]
      · simp [HandlerOp.exec, Epoller.removeHandler, added]

/-- The handlers of a loop, and its poller. -/
structure HandlerState (ι : Type) where
  handler : ι → Handler
  epoller : Epoller

section ManyHandlers

variable {ι : Type} [DecidableEq ι]

/-- One call on the handler `i`. -/
def HandlerState.exec (s : HandlerState ι) (i : ι) (op : HandlerOp) : HandlerState ι where
  handler := Function.update s.handler i (op.exec s.epoller (s.handler i)).2
  epoller := (op.exec s.epoller (s.handler i)).1

/-- Calls on handlers with distinct fds, as `init_gp_handler` leaves them. -/
def handlerSys (ι : Type) [DecidableEq ι] : Lib.TSys (HandlerState ι) (ι × HandlerOp) where
  init s := (∀ i, (s.handler i).index = .new) ∧ (s.handler · |>.fd).Injective ∧
    s.epoller = { handlers := fun _ => false, requests := [] }
  step s call t := t = s.exec call.1 call.2

/-- The interest list after a sequence of requests: the mask for each fd. -/
def interestAfter (requests : List CtlRequest) : Int → Option Mask :=
  requests.foldl (epollCtl CtlRequest.mask) fun _ => none

/-- Every request was legal when it was made. -/
def AllLegal (requests : List CtlRequest) : Prop :=
  ∀ before q after, requests = before ++ q :: after → Legal (interestAfter before) q

/-- The three views agree. -/
structure Agree (s : HandlerState ι) : Prop where
  distinct : (s.handler · |>.fd).Injective
  legal : AllLegal s.epoller.requests
  registered : ∀ i, Follows (interestAfter s.epoller.requests) (s.handler i) (s.handler i).events
  nothingElse : ∀ fd, interestAfter s.epoller.requests fd ≠ none → ∃ i, (s.handler i).fd = fd
  keys : ∀ fd, s.epoller.handlers fd = true ↔
    ∃ i, (s.handler i).fd = fd ∧ (s.handler i).index ≠ .new

variable {s : HandlerState ι}

theorem interestAfter_append (before qs : List CtlRequest) :
    interestAfter (before ++ qs) = qs.foldl (epollCtl CtlRequest.mask) (interestAfter before) :=
  List.foldl_append

theorem AllLegal.append {requests qs : List CtlRequest} (legal : AllLegal requests)
    (short : qs.length ≤ 1) (next : ∀ q ∈ qs, Legal (interestAfter requests) q) :
    AllLegal (requests ++ qs) := by
  match qs, short, next with
  | [], _, _ => simpa using legal
  | [q], _, next =>
      intro before q' after split
      rcases List.eq_nil_or_concat after with rfl | ⟨after, last, rfl⟩
      · obtain ⟨rfl, same⟩ := List.append_inj' split rfl
        cases same
        exact next q (List.mem_singleton_self q)
      · rw [List.concat_eq_append, ← List.cons_append, ← List.append_assoc] at split
        exact legal before q' after (List.append_inj' split rfl).1

/-- What a call does to the three views. -/
theorem Agree.exec (agree : Agree s) (i : ι) (op : HandlerOp) : Agree (s.exec i op) := by
  obtain ⟨qs, requested, requests⟩ :=
    op.exec_requests CtlRequest.mask (agree.registered i) s.epoller
  have key : s.epoller.handlers (s.handler i).fd = decide ((s.handler i).index ≠ .new) := by
    rw [Bool.eq_iff_iff, agree.keys, decide_eq_true_iff]
    constructor
    · rintro ⟨j, same, listed⟩
      rwa [← agree.distinct same]
    · exact fun listed => ⟨i, rfl, listed⟩
  have keys := op.exec_keys s.epoller (s.handler i) key
  -- a call leaves every fd as it is
  have fds (j : ι) : ((s.exec i op).handler j).fd = (s.handler j).fd := by
    by_cases own : j = i
    · subst own
      simpa [HandlerState.exec] using requests.fd
    · simp [HandlerState.exec, own]
  have others (j : ι) (other : j ≠ i) : (s.exec i op).handler j = s.handler j := by
    simp [HandlerState.exec, other]
  have apart (j : ι) (other : j ≠ i) : (s.handler i).fd ≠ (s.handler j).fd :=
    fun same => other (agree.distinct same).symm
  have interest : interestAfter (s.exec i op).epoller.requests =
      qs.foldl (epollCtl CtlRequest.mask) (interestAfter s.epoller.requests) := by
    rw [← interestAfter_append, ← requested]
    rfl
  constructor
  case distinct => exact fun j k same => agree.distinct (by simpa only [fds] using same)
  case legal =>
    have := agree.legal.append requests.atMostOne fun q hq => (requests.legal q hq).2
    rwa [← requested] at this
  case registered =>
    intro j
    rw [interest]
    by_cases own : j = i
    · subst own
      simpa [HandlerState.exec] using requests.follows _ fun q same => same
    · have follows := agree.registered j
      rw [others j own]
      unfold Follows at follows ⊢
      rwa [requests.other (apart j own)]
  case nothingElse =>
    intro fd known
    simp only [fds]
    by_cases own : (s.handler i).fd = fd
    · exact ⟨i, own⟩
    · rw [interest, requests.other own] at known
      exact agree.nothingElse fd known
  case keys =>
    intro fd
    simp only [fds]
    change (op.exec s.epoller (s.handler i)).1.handlers fd = true ↔ _
    rw [keys]
    by_cases own : fd = (s.handler i).fd
    · subst own
      rw [Function.update_self, decide_eq_true_iff]
      constructor
      · exact fun listed => ⟨i, rfl, by simpa [HandlerState.exec] using listed⟩
      · rintro ⟨j, same, listed⟩
        rw [agree.distinct same] at listed
        simpa [HandlerState.exec] using listed
    · rw [Function.update_of_ne own, agree.keys]
      refine exists_congr fun j => and_congr_right fun same => ?_
      have other : j ≠ i := by
        rintro rfl
        exact own same.symm
      rw [others j other]

/-- The three views agree in every run. -/
theorem run_agree {calls : List (ι × HandlerOp)} (run : (handlerSys ι).Run calls s) :
    Agree s := by
  refine run.invariant (I := fun _ s => Agree s) ?_ ?_
  · rintro s ⟨new, distinct, fresh⟩
    refine ⟨distinct, ?_, ?_, ?_, ?_⟩
    · rw [fresh]
      intro before q after split
      simp at split
    · intro i
      simp [Follows, fresh, interestAfter, new i]
    · simp [fresh, interestAfter]
    · simp [fresh, new]
  · rintro calls s call t _ agree rfl
    exact agree.exec call.1 call.2

/-- **epoll registration agrees with the handlers.** After every sequence of calls on
handlers with distinct fds: every request was legal when it was made, a handler is
registered exactly when its index is `k_added`, with its mask, no other fd is registered,
and `epoller->handlers` has exactly the fds of the handlers that are not `k_new`. -/
theorem registration_agrees {calls : List (ι × HandlerOp)} (run : (handlerSys ι).Run calls s) :
    AllLegal s.epoller.requests ∧
    (∀ fd mask, interestAfter s.epoller.requests fd = some mask ↔
      ∃ i, (s.handler i).fd = fd ∧ (s.handler i).index = .added ∧
        (s.handler i).events = mask) ∧
    ∀ fd, s.epoller.handlers fd = true ↔
      ∃ i, (s.handler i).fd = fd ∧ (s.handler i).index ≠ .new := by
  have agree := run_agree run
  refine ⟨agree.legal, fun fd mask => ?_, agree.keys⟩
  constructor
  · intro known
    obtain ⟨i, rfl⟩ := agree.nothingElse fd (by simp [known])
    have follows := agree.registered i
    rw [Follows, known] at follows
    by_cases added : (s.handler i).index = .added
    · rw [if_pos added, Option.some.injEq] at follows
      exact ⟨i, rfl, added, follows.symm⟩
    · simp [added] at follows
  · rintro ⟨i, rfl, added, rfl⟩
    rw [agree.registered i, if_pos added]

end ManyHandlers

/-- Two handlers as `init_gp_handler` leaves them. -/
def twoHandlers : HandlerState Bool where
  handler i := { addToLoop := false, index := .new, fd := if i then 6 else 5, events := 0 }
  epoller := { handlers := fun _ => false, requests := [] }

/-- One handler is disabled twice, which registers it again, and the other removed. -/
theorem registration_agrees_two :
    ∃ s, (handlerSys Bool).Run [(true, .enableReading), (true, .disableAll),
        (false, .enableWriting), (true, .disableAll), (false, .handlerRemove)] s ∧
      s.epoller.requests.map CtlRequest.op = [.add, .del, .add, .add, .del] ∧
      AllLegal s.epoller.requests ∧
      (∀ fd mask, interestAfter s.epoller.requests fd = some mask ↔
        ∃ i, (s.handler i).fd = fd ∧ (s.handler i).index = .added ∧
          (s.handler i).events = mask) ∧
      ∀ fd, s.epoller.handlers fd = true ↔
        ∃ i, (s.handler i).fd = fd ∧ (s.handler i).index ≠ .new := by
  have init : (handlerSys Bool).Run [] twoHandlers := by
    refine .init ⟨fun _ => rfl, ?_, rfl⟩
    intro i j same
    revert same
    cases i <;> cases j <;> simp [twoHandlers]
  have run := ((((init.step (a := (true, .enableReading)) rfl).step
    (a := (true, .disableAll)) rfl).step (a := (false, .enableWriting)) rfl).step
    (a := (true, .disableAll)) rfl).step (a := (false, .handlerRemove)) rfl
  exact ⟨_, run, rfl, registration_agrees run⟩

end GpBase.Event

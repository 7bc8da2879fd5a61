import Mathlib.Algebra.BigOperators.Group.List.Basic
import Mathlib.Algebra.GroupWithZero.Nat
import GpBase.Lib.Outcome
import GpBase.Server.Refs

/-!
# The server settles

What the loop thread has left to do is counted: the statements of the calls that have not
returned, the queued tasks with what they push and queue, and the handlers that `epoll_wait`
has reported. Every step of its own makes that number smaller, and a call of the application,
a timer or a report raises it by a bounded amount, so the loop never keeps itself busy. When
nothing comes from outside it comes to rest, and at rest no closed connection is left.
-/

namespace GpBase.Server

open GpBase.Lib GpBase.Buffer GpBase.Event GpBase.Conn GpBase.Loop

/-! ## The work that is left -/

/-- A `close_callback` frees an entry, and queues the task that destroys the connection. -/
def Stmt.work : Stmt → Nat
  | .callback | .connRefDec _ | .handlerRemove _ => 1
  | .closeCallback _ => 10

/-- What `pending_func` pushes and queues. -/
def PendingFunc.work : PendingFunc → Nat
  | .shutdown => 0
  | .createConn | .user => 1
  | .destroyConn => 2
  | .removeConn => 8
  | .forceClose => 12

/-- A task is started and finished. -/
def Task.work (t : Task) : Nat := t.pendingFunc.work + 4

def callbackWork : EventCallback → Nat
  | .close | .read => 13
  | .error | .write => 1

def Phase.work : Phase → Nat
  | .timers | .pending _ => 0
  | .events none active => 30 * active.length + 1
  | .events (some (_, callbacks)) active =>
    (callbacks.map callbackWork).sum + 1 + (30 * active.length + 1)

namespace ServerState

variable (s : ServerState)

/-- The tasks: the front one has been started when the loop is in `do_pending_functors`, and
what is queued when the loop is about to poll costs another round. -/
def taskWork : Nat :=
  match s.phase with
  | .pending _ => (s.pendingList.tail.map Task.work).sum + 3
  | .timers => (s.pendingList.map Task.work).sum + if s.pendingList = [] then 0 else 2
  | .events _ _ => (s.pendingList.map Task.work).sum

/-- How many steps the loop thread can take by itself. -/
def work : Nat := (s.code.map Stmt.work).sum + s.taskWork + s.phase.work

end ServerState

/-- The steps that the loop thread takes whatever comes from outside. -/
def ServerEvent.own : ServerEvent → Bool
  | .go | .ret | .accept _ _ | .acceptFailed | .read _ | .write _ => true
  | .timer | .call _ | .poll _ => false

/-- The work that comes from outside. -/
def ServerEvent.cost : ServerEvent → Nat
  | .timer => 1
  | .call _ => 18
  | .poll reported => 30 * reported.length + 1
  | _ => 0

/-- The steps of a server to which nothing is reported: it polls as long as there are tasks. -/
def Settling (s : ServerState) : ServerEvent → Prop
  | .poll reported => reported = [] ∧ s.pendingList ≠ []
  | .timer | .call _ => False
  | _ => True

/-! ## What a function pushes and queues -/

/-- `s'` comes from `s` by a function that leaves statements and tasks of `n` steps. -/
def Costs (n : Nat) (s s' : ServerState) : Prop :=
  s'.phase = s.phase ∧ ∃ stmts tasks, s'.code = stmts ++ s.code ∧
    s'.pendingList = s.pendingList ++ tasks ∧
    (stmts.map Stmt.work).sum + (tasks.map Task.work).sum + 2 * tasks.length ≤ n

section Costs

variable {s s' s'' : ServerState} {n m : Nat}

theorem Costs.free (code : s'.code = s.code) (tasks : s'.pendingList = s.pendingList)
    (phase : s'.phase = s.phase) : Costs 0 s s' :=
  ⟨phase, [], [], code, by rw [tasks, List.append_nil], Nat.le_refl _⟩

theorem Costs.mono (costs : Costs n s s') (le : n ≤ m) : Costs m s s' := by
  obtain ⟨phase, stmts, tasks, code, list, bound⟩ := costs
  exact ⟨phase, stmts, tasks, code, list, bound.trans le⟩

theorem Costs.trans (first : Costs n s s') (second : Costs m s' s'') : Costs (n + m) s s'' := by
  obtain ⟨phase, stmts, tasks, code, list, bound⟩ := first
  obtain ⟨phase', stmts', tasks', code', list', bound'⟩ := second
  refine ⟨phase'.trans phase, stmts' ++ stmts, tasks ++ tasks', ?_, ?_, ?_⟩
  · rw [code', code, List.append_assoc]
  · rw [list', list, List.append_assoc]
  · simp only [List.map_append, List.sum_append, List.length_append]
    omega

theorem Costs.push (s : ServerState) (stmts : List Stmt) :
    Costs (stmts.map Stmt.work).sum s (s.push stmts) :=
  ⟨rfl, stmts, [], rfl, (List.append_nil _).symm, by simp⟩

theorem Costs.onConn {c : Nat} {f : GpConnection → Except Fault GpConnection}
    (done : s.onConn c f = .ok s') : Costs 0 s s' := by
  obtain ⟨r, _, done⟩ := bind_eq_ok done
  obtain ⟨o, _, done⟩ := bind_eq_ok done
  cases done
  exact .free rfl rfl rfl

theorem Costs.connRefInc {c : Nat} (done : s.connRefInc c = .ok s') : Costs 0 s s' := by
  obtain ⟨r, _, done⟩ := bind_eq_ok done
  cases done
  exact .free rfl rfl rfl

theorem Costs.connRefDec {c : Nat} (done : s.connRefDec c = .ok s') : Costs 0 s s' := by
  obtain ⟨r, _, done⟩ := bind_eq_ok done
  dsimp only at done
  split at done
  · cases done
    exact .free rfl rfl rfl
  · cases done
    exact .free rfl rfl rfl

theorem Costs.gpQueueInLoop {t : Task} (done : s.gpQueueInLoop t = .ok s') :
    Costs (t.work + 2) s s' := by
  obtain ⟨s₁, held, done⟩ := bind_eq_ok done
  cases done
  obtain ⟨phase, stmts, tasks, code, list, bound⟩ := Costs.connRefInc held
  refine ⟨phase, stmts, tasks ++ [t], code, ?_, ?_⟩
  · show s₁.pendingList ++ [t] = _
    rw [list, List.append_assoc]
  · simp only [List.map_append, List.sum_append, List.length_append, List.map_cons, List.map_nil,
      List.sum_singleton, List.length_singleton]
    omega

theorem Costs.connectionHandlerClose {c : Nat} (done : s.connectionHandlerClose c = .ok s') :
    Costs 12 s s' := by
  obtain ⟨s₁, held, done⟩ := bind_eq_ok done
  obtain ⟨s₂, closed, done⟩ := bind_eq_ok done
  cases done
  exact (Costs.connRefInc held).trans ((Costs.push s₁ _).trans
    ((Costs.onConn closed).trans (Costs.push s₂ [.callback])))

theorem Costs.connectionEstablished {c : Nat} (done : s.connectionEstablished c = .ok s') :
    Costs 1 s s' := by
  obtain ⟨s₁, enabled, done⟩ := bind_eq_ok done
  cases done
  exact (Costs.onConn enabled).trans (Costs.push s₁ [.callback])

theorem Costs.connectionDestroyed {c : Nat} (done : s.connectionDestroyed c = .ok s') :
    Costs 2 s s' := by
  obtain ⟨r, _, done⟩ := bind_eq_ok done
  split at done
  · obtain ⟨s₁, disabled, done⟩ := bind_eq_ok done
    cases done
    exact (Costs.push s [.handlerRemove c]).trans
      ((Costs.onConn disabled).trans (Costs.push s₁ [.callback]))
  · exact (Costs.onConn done).mono (by decide)

theorem Costs.pendingFunc {t : Task} (done : s.pendingFunc t = .ok s') :
    Costs t.pendingFunc.work s s' := by
  unfold ServerState.pendingFunc at done
  cases func : t.pendingFunc with
  | createConn =>
      rw [func] at done
      exact Costs.connectionEstablished done
  | shutdown =>
      rw [func] at done
      exact Costs.onConn done
  | forceClose =>
      rw [func] at done
      obtain ⟨r, _, done⟩ := bind_eq_ok done
      split at done
      · exact Costs.connectionHandlerClose done
      · cases done
        exact (Costs.free rfl rfl rfl).mono (Nat.zero_le _)
  | removeConn =>
      rw [func] at done
      exact Costs.gpQueueInLoop done
  | destroyConn =>
      rw [func] at done
      exact Costs.connectionDestroyed done
  | user =>
      rw [func] at done
      cases done
      exact Costs.push s [.callback]

theorem Costs.gpRunInLoop {t : Task} (done : s.gpRunInLoop t = .ok s') :
    Costs (t.pendingFunc.work + 1) s s' := by
  obtain ⟨s₁, held, done⟩ := bind_eq_ok done
  have costs := (Costs.connRefInc held).trans ((Costs.push s₁ [.connRefDec t.conn]).trans
    (Costs.pendingFunc done))
  exact costs.mono (by simp only [List.map_cons, List.map_nil, List.sum_singleton, Stmt.work]; omega)

theorem Costs.removeConn {c : Nat} (done : s.removeConn c = .ok s') : Costs 9 s s' := by
  obtain ⟨r, _, done⟩ := bind_eq_ok done
  obtain ⟨s₁, released, done⟩ := bind_eq_ok done
  have removed : Costs 0 s
      { s with connections := Function.update s.connections r.handler.fd none } :=
    .free rfl rfl rfl
  exact removed.trans ((Costs.connRefDec released).trans (Costs.gpRunInLoop done))

theorem Costs.call {junk : Nat → UInt8} {u : UserCall} (done : u.exec junk s = .ok s') :
    Costs 18 s s' := by
  cases u with
  | connSend c msg w =>
      obtain ⟨r, _, done⟩ := bind_eq_ok done
      split at done
      · exact (Costs.onConn done).mono (by decide)
      · cases done
        exact (Costs.free rfl rfl rfl).mono (by decide)
  | connShutdown c =>
      obtain ⟨r, _, done⟩ := bind_eq_ok done
      split at done
      · obtain ⟨s₁, left, done⟩ := bind_eq_ok done
        exact ((Costs.onConn left).trans (Costs.gpRunInLoop done)).mono (Nat.le_of_ble_eq_true rfl)
      · cases done
        exact (Costs.free rfl rfl rfl).mono (by decide)
  | connForceClose c =>
      obtain ⟨r, _, done⟩ := bind_eq_ok done
      split at done
      · obtain ⟨s₁, left, done⟩ := bind_eq_ok done
        exact ((Costs.onConn left).trans (Costs.gpQueueInLoop done)).mono (Nat.le_of_ble_eq_true rfl)
      · cases done
        exact (Costs.free rfl rfl rfl).mono (by decide)
  | gpQueueInLoop c => exact (Costs.gpQueueInLoop done).mono (Nat.le_of_ble_eq_true rfl)
  | gpRunInLoop c => exact (Costs.gpRunInLoop done).mono (Nat.le_of_ble_eq_true rfl)

theorem Costs.newConnectionCallback {junk : Nat → UInt8} {c : Nat} {fd : Int}
    (done : s.newConnectionCallback junk c fd = .ok s') : Costs 3 s s' := by
  obtain ⟨s₁, held, done⟩ := bind_eq_ok done
  have made : Costs 0 s s₁ := (Costs.free rfl rfl rfl).trans (Costs.connRefInc held)
  exact made.trans ((Costs.push s₁ [.connRefDec c]).trans (Costs.gpRunInLoop done))

theorem Costs.connectionHandlerRead {junk : Nat → UInt8} {c : Nat} {res : ReadResult}
    (done : s.connectionHandlerRead junk c res = .ok s') : Costs 12 s s' := by
  obtain ⟨r, _, done⟩ := bind_eq_ok done
  obtain ⟨⟨b, n, errno⟩, _, done⟩ := bind_eq_ok done
  have filled : Costs 0 s (s.put c { r with inputBuffer := b }) := .free rfl rfl rfl
  dsimp only at done
  split at done
  · obtain ⟨s₁, held, done⟩ := bind_eq_ok done
    cases done
    exact (filled.trans ((Costs.connRefInc held).trans (Costs.push s₁ _))).mono
      (Nat.le_of_ble_eq_true rfl)
  · exact filled.trans (Costs.connectionHandlerClose done)

theorem Costs.fillActiveHandlers {reported : List (Source × Mask)}
    (done : s.fillActiveHandlers reported = .ok s') : Costs 0 s s' := by
  induction reported generalizing s with
  | nil =>
      cases done
      exact .free rfl rfl rfl
  | cons head rest ih =>
      obtain ⟨source, revents⟩ := head
      obtain ⟨s₁, set, done⟩ := bind_eq_ok done
      have costs : Costs 0 s s₁ := by
        cases source with
        | acceptor =>
            cases set
            exact .free rfl rfl rfl
        | conn c =>
            obtain ⟨r, _, set⟩ := bind_eq_ok set
            have noted : Costs 0 s (s.put c { r with revents := revents }) := .free rfl rfl rfl
            exact noted.trans (Costs.onConn set)
      exact costs.trans (ih done)

/-- The work after such a function. -/
theorem Costs.work_le (costs : Costs n s s') : s'.work ≤ s.work + n := by
  obtain ⟨phase, stmts, tasks, code, list, bound⟩ := costs
  have pushed : (s'.code.map Stmt.work).sum =
      (stmts.map Stmt.work).sum + (s.code.map Stmt.work).sum := by
    rw [code, List.map_append, List.sum_append]
  have queued : s'.taskWork ≤ s.taskWork + (tasks.map Task.work).sum + 2 * tasks.length := by
    unfold ServerState.taskWork
    rw [phase, list]
    cases s.phase with
    | timers =>
        cases tasks with
        | nil => simp
        | cons t tasks =>
            simp only [List.map_append, List.sum_append, List.length_cons]
            split <;> split <;> omega
    | events handling active =>
        simp only [List.map_append, List.sum_append]
        omega
    | pending reached =>
        cases s.pendingList with
        | nil =>
            cases tasks with
            | nil => simp
            | cons t tasks =>
                simp only [List.nil_append, List.tail_cons, List.tail_nil, List.map_nil,
                  List.sum_nil, List.map_cons, List.sum_cons]
                omega
        | cons t rest =>
            simp only [List.cons_append, List.tail_cons, List.map_append, List.sum_append]
            omega
  unfold ServerState.work
  rw [phase]
  omega

end Costs

/-! ## Steps -/

/-- The acceptor's handler has a read callback only, and a pass over the tasks is at one. -/
structure Sane (s : ServerState) : Prop where
  acceptor : ∀ callbacks active, s.phase = .events (some (.acceptor, callbacks)) active →
    ∀ callback ∈ callbacks, callback = .read
  front : ∀ reached, s.phase = .pending reached → s.pendingList ≠ []

section Sane

variable {s s' : ServerState} {n : Nat}

theorem Costs.sane (costs : Costs n s s') (sane : Sane s) : Sane s' := by
  obtain ⟨phase, stmts, tasks, code, list, bound⟩ := costs
  refine ⟨phase ▸ sane.acceptor, ?_⟩
  intro reached pending
  rw [phase] at pending
  rw [list]
  exact List.append_ne_nil_of_left_ne_nil (sane.front reached pending) tasks

theorem Sane.of_events {handling : Option (Source × List EventCallback)} {active : List Source}
    (phase : s.phase = .events handling active)
    (reads : ∀ callbacks, handling = some (.acceptor, callbacks) →
      ∀ callback ∈ callbacks, callback = .read) : Sane s := by
  refine ⟨?_, ?_⟩
  · intro callbacks active' here
    rw [phase] at here
    obtain ⟨rfl, _⟩ := Phase.events.inj here
    exact reads callbacks rfl
  · intro reached here
    rw [phase] at here
    cases here

theorem Sane.of_timers (phase : s.phase = .timers) : Sane s := by
  constructor
  · intro callbacks active here
    rw [phase] at here
    cases here
  · intro reached here
    rw [phase] at here
    cases here

/-- One callback less. -/
theorem Sane.popCallback {source : Source} {callback : EventCallback} {rest : List EventCallback}
    {active : List Source} (sane : Sane s)
    (phase : s.phase = .events (some (source, callback :: rest)) active)
    (phase' : s'.phase = .events (some (source, rest)) active) : Sane s' := by
  refine Sane.of_events phase' ?_
  rintro _ ⟨⟩ callback' there
  exact sane.acceptor _ _ phase callback' (List.mem_cons_of_mem _ there)

/-- `do_pending_functors` is at the end of the list, or starts its front task. -/
theorem nextTask_cases (done : s.nextTask = .ok s') :
    (s.pendingList = [] ∧ s' = { s with phase := .timers }) ∨
      ∃ t rest, s.pendingList = t :: rest ∧
        ServerState.pendingFunc { s with phase := .pending (rest.length + 1) } t = .ok s' := by
  unfold ServerState.nextTask at done
  split at done
  · rename_i list
    cases done
    exact .inl ⟨list, rfl⟩
  · rename_i t rest list
    exact .inr ⟨t, rest, list, done⟩

theorem Sane.nextTask (done : s.nextTask = .ok s') : Sane s' := by
  obtain ⟨_, rfl⟩ | ⟨t, rest, list, done⟩ := nextTask_cases done
  · exact .of_timers rfl
  · refine (Costs.pendingFunc done).sane ⟨?_, ?_⟩
    · intro callbacks active here
      cases here
    · intro reached _
      show s.pendingList ≠ []
      rw [list]
      exact List.cons_ne_nil t rest

end Sane

theorem handleEvent_work (revents : Mask) :
    ((handleEvent revents).map callbackWork).sum ≤ 28 := by
  unfold handleEvent
  simp only [List.map_append, List.sum_append]
  split <;> split <;> split <;> split <;> decide

section Steps

variable {s s' : ServerState}

/-- The next task is started, and costs what it still has to do. -/
theorem nextTask_work (done : s.nextTask = .ok s') :
    s'.work ≤ (s.code.map Stmt.work).sum + (s.pendingList.map Task.work).sum := by
  obtain ⟨list, rfl⟩ | ⟨t, rest, list, done⟩ := nextTask_cases done
  · simp [ServerState.work, ServerState.taskWork, Phase.work, list]
  · have bound := (Costs.pendingFunc done).work_le
    have before : ServerState.work { s with phase := .pending (rest.length + 1) } =
        (s.code.map Stmt.work).sum + ((rest.map Task.work).sum + 3) := by
      simp [ServerState.work, ServerState.taskWork, Phase.work, list]
    rw [before] at bound
    rw [list, List.map_cons, List.sum_cons, Task.work]
    omega

/-- A statement is taken up. -/
theorem pop_work {stmt : Stmt} {rest : List Stmt} (code : s.code = stmt :: rest) :
    s.work = ServerState.work { s with code := rest } + stmt.work := by
  have sum : (s.code.map Stmt.work).sum = stmt.work + (rest.map Stmt.work).sum := by
    rw [code, List.map_cons, List.sum_cons]
  show _ + s.taskWork + s.phase.work = (rest.map Stmt.work).sum + s.taskWork + s.phase.work + _
  rw [sum]
  omega

theorem events_work {handling : Option (Source × List EventCallback)} {active : List Source}
    (phase : s.phase = .events handling active) :
    s.work = (s.code.map Stmt.work).sum + (s.pendingList.map Task.work).sum + s.phase.work := by
  rw [ServerState.work, ServerState.taskWork, phase]

/-- A callback is taken up. -/
theorem callback_work {source : Source} {callback : EventCallback} {rest : List EventCallback}
    {active : List Source} (phase : s.phase = .events (some (source, callback :: rest)) active) :
    s.work = ServerState.work { s with phase := .events (some (source, rest)) active } +
      callbackWork callback := by
  rw [events_work phase, phase]
  unfold ServerState.work ServerState.taskWork Phase.work
  simp only [List.map_cons, List.sum_cons]
  omega

/-- The task at the front is finished. -/
theorem finishTask_work {reached : Nat} (sane : Sane s) (phase : s.phase = .pending reached)
    (done : s.finishTask reached = .ok s') : Sane s' ∧ s'.work < s.work := by
  cases list : s.pendingList with
  | nil => exact absurd list (sane.front reached phase)
  | cons t rest =>
      have before : s.work = (s.code.map Stmt.work).sum + ((rest.map Task.work).sum + 3) := by
        simp [ServerState.work, ServerState.taskWork, Phase.work, phase, list]
      unfold ServerState.finishTask at done
      rw [list] at done
      obtain ⟨s₁, dropped, done⟩ := bind_eq_ok done
      have code : (s₁.code.map Stmt.work).sum ≤ (s.code.map Stmt.work).sum := by
        obtain ⟨_, stmts, tasks, code, _, bound⟩ := Costs.connRefDec dropped
        rw [code, List.map_append, List.sum_append]
        omega
      dsimp only at done
      split at done
      · refine ⟨Sane.nextTask done, ?_⟩
        have bound := nextTask_work done
        dsimp only at bound
        omega
      · cases done
        refine ⟨.of_timers rfl, ?_⟩
        rw [before]
        simp only [ServerState.work, ServerState.taskWork, Phase.work]
        split <;> omega

/-- The step lemma: an own step leaves less to do, and any other one adds its cost. -/
theorem ServerStep.work_le {junk : Nat → UInt8} {ev : ServerEvent} (sane : Sane s)
    (step : ServerStep junk s ev (.ok s')) :
    Sane s' ∧ s'.work + ev.own.toNat ≤ s.work + ev.cost := by
  generalize outcome : (Except.ok s' : Except Fault ServerState) = out at step
  cases step with
  | timer code phase =>
      cases outcome
      have costs := Costs.push s [.callback]
      exact ⟨costs.sane sane, costs.work_le⟩
  | call code known alive =>
      have costs := Costs.call outcome.symm
      exact ⟨costs.sane sane, costs.work_le⟩
  | ret code =>
      cases outcome
      exact ⟨⟨sane.acceptor, sane.front⟩, (pop_work code).ge⟩
  | @connRefDec c rest code =>
      have costs := Costs.connRefDec outcome.symm
      refine ⟨costs.sane ⟨sane.acceptor, sane.front⟩, ?_⟩
      have := costs.work_le
      have : Stmt.work (.connRefDec c) = 1 := rfl
      rw [pop_work code]
      simp only [ServerEvent.own, ServerEvent.cost, Bool.toNat_true]
      omega
  | @closeCallback c rest code =>
      have costs := Costs.removeConn outcome.symm
      refine ⟨costs.sane ⟨sane.acceptor, sane.front⟩, ?_⟩
      have := costs.work_le
      have : Stmt.work (.closeCallback c) = 10 := rfl
      rw [pop_work code]
      simp only [ServerEvent.own, ServerEvent.cost, Bool.toNat_true]
      omega
  | @handlerRemove c rest code =>
      have costs := Costs.onConn outcome.symm
      refine ⟨costs.sane ⟨sane.acceptor, sane.front⟩, ?_⟩
      have := costs.work_le
      have : Stmt.work (.handlerRemove c) = 1 := rfl
      rw [pop_work code]
      simp only [ServerEvent.own, ServerEvent.cost, Bool.toNat_true]
      omega
  | @poll reported code phase reports =>
      obtain ⟨s₁, filled, outcome⟩ := bind_eq_ok outcome.symm
      cases outcome
      refine ⟨Sane.of_events rfl nofun, ?_⟩
      have bound := (Costs.fillActiveHandlers filled).work_le
      obtain ⟨phase₁, _⟩ := Costs.fillActiveHandlers filled
      rw [phase] at phase₁
      simp only [ServerState.work, ServerState.taskWork, Phase.work, phase, phase₁, List.length_map,
        ServerEvent.own, ServerEvent.cost, Bool.toNat_false] at bound ⊢
      omega
  | @startEvent source active code phase =>
      have before : s.work = (s.pendingList.map Task.work).sum + (30 * (active.length + 1) + 1) := by
        simp [ServerState.work, ServerState.taskWork, Phase.work, code, phase]
      cases source with
      | acceptor =>
          cases outcome
          refine ⟨Sane.of_events rfl ?_, ?_⟩
          · rintro callbacks ⟨⟩ callback there
            simpa using (List.mem_filter.mp there).2
          · have bound := handleEvent_work s.acceptorRevents
            have fewer : (((handleEvent s.acceptorRevents).filter (· = .read)).map callbackWork).sum ≤
                ((handleEvent s.acceptorRevents).map callbackWork).sum :=
              (List.filter_sublist.map _).sum_le_sum fun _ _ => Nat.zero_le _
            rw [before]
            simp only [ServerState.work, ServerState.taskWork, Phase.work, code, List.map_nil,
              List.sum_nil, ServerEvent.own, ServerEvent.cost, Bool.toNat_true]
            omega
      | conn c =>
          obtain ⟨r, _, outcome⟩ := bind_eq_ok outcome.symm
          cases outcome
          refine ⟨Sane.of_events rfl ?_, ?_⟩
          · rintro callbacks ⟨⟩
          · have bound := handleEvent_work r.revents
            rw [before]
            simp only [ServerState.work, ServerState.taskWork, Phase.work, code, List.map_nil,
              List.sum_nil, ServerEvent.own, ServerEvent.cost, Bool.toNat_true]
            omega
  | close code phase =>
      have costs := Costs.connectionHandlerClose outcome.symm
      refine ⟨costs.sane (sane.popCallback phase rfl), ?_⟩
      rw [callback_work phase]
      exact Nat.succ_le_succ costs.work_le
  | error code phase =>
      cases outcome
      refine ⟨sane.popCallback phase rfl, ?_⟩
      rw [callback_work phase]
      exact Nat.le_refl _
  | read code phase =>
      have costs := Costs.connectionHandlerRead outcome.symm
      refine ⟨costs.sane (sane.popCallback phase rfl), ?_⟩
      rw [callback_work phase]
      exact Nat.succ_le_succ costs.work_le
  | write code phase =>
      have costs := Costs.onConn outcome.symm
      refine ⟨costs.sane (sane.popCallback phase rfl), ?_⟩
      rw [callback_work phase]
      exact Nat.succ_le_succ costs.work_le
  | accept code phase accepts =>
      have costs := (Costs.newConnectionCallback outcome.symm).mono (show 3 ≤ 12 by decide)
      refine ⟨costs.sane (sane.popCallback phase rfl), ?_⟩
      rw [callback_work phase]
      exact Nat.succ_le_succ costs.work_le
  | @acceptFailed rest active code phase =>
      cases outcome
      refine ⟨sane.popCallback phase rfl, ?_⟩
      rw [callback_work phase]
      show ServerState.work { s with phase := .events (some (.acceptor, rest)) active } + 1 ≤
        ServerState.work { s with phase := .events (some (.acceptor, rest)) active } + 13
      omega
  | @endEvent source active code phase =>
      have ended : s' = { s with phase := .events none active } := by
        cases source with
        | acceptor => exact Except.ok.inj outcome
        | conn c =>
            obtain ⟨r, _, outcome⟩ := bind_eq_ok outcome.symm
            exact (Except.ok.inj outcome).symm
      subst ended
      refine ⟨Sane.of_events rfl nofun, ?_⟩
      rw [events_work phase, phase]
      simp only [ServerState.work, ServerState.taskWork, Phase.work, List.map_nil, List.sum_nil,
        ServerEvent.own, ServerEvent.cost, Bool.toNat_true]
      omega
  | doPendingFunctors code phase =>
      refine ⟨Sane.nextTask outcome.symm, ?_⟩
      have bound := nextTask_work outcome.symm
      rw [events_work phase, phase]
      simp only [Phase.work, List.length_nil, ServerEvent.own, ServerEvent.cost, Bool.toNat_true]
      omega
  | finishTask code phase =>
      obtain ⟨sane', less⟩ := finishTask_work sane phase outcome.symm
      exact ⟨sane', less⟩

/-- A poll for the sake of the tasks is an own step as well. -/
theorem ServerStep.work_lt {junk : Nat → UInt8} {ev : ServerEvent} (sane : Sane s)
    (settling : Settling s ev) (step : ServerStep junk s ev (.ok s')) : s'.work < s.work := by
  obtain ⟨_, bound⟩ := step.work_le sane
  cases ev with
  | timer => exact settling.elim
  | call u => exact settling.elim
  | poll reported =>
      obtain ⟨rfl, tasks⟩ := settling
      generalize outcome : (Except.ok s' : Except Fault ServerState) = out at step
      cases step with
      | poll code phase reports =>
          obtain ⟨_, ⟨⟩, outcome⟩ := bind_eq_ok outcome.symm
          cases outcome
          simp only [ServerState.work, ServerState.taskWork, Phase.work, phase, if_neg tasks,
            List.map_nil, List.length_nil]
          omega
  | _ => exact bound

/-- The loop thread can go on until it is about to poll, and there is no task. -/
theorem Sane.rest (sane : Sane s) {junk : Nat → UInt8}
    (stuck : ∀ ev out, Settling s ev → Sound s ev → ¬ ServerStep junk s ev out) :
    s.code = [] ∧ s.phase = .timers ∧ s.pendingList = [] := by
  cases code : s.code with
  | cons stmt rest =>
      cases stmt with
      | callback => exact absurd (.ret code) (stuck .ret _ trivial trivial)
      | connRefDec c => exact absurd (.connRefDec code) (stuck .go _ trivial trivial)
      | closeCallback c => exact absurd (.closeCallback code) (stuck .go _ trivial trivial)
      | handlerRemove c => exact absurd (.handlerRemove code) (stuck .go _ trivial trivial)
  | nil =>
      cases phase : s.phase with
      | timers =>
          refine ⟨rfl, rfl, ?_⟩
          by_contra tasks
          have nothing : Reports s [] := ⟨List.nodup_nil, by simp, by simp⟩
          exact stuck (.poll []) _ ⟨rfl, tasks⟩ trivial (.poll code phase nothing)
      | pending reached => exact absurd (.finishTask code phase) (stuck .go _ trivial trivial)
      | events handling active =>
          cases handling with
          | none =>
              cases active with
              | nil => exact absurd (.doPendingFunctors code phase) (stuck .go _ trivial trivial)
              | cons source active => exact absurd (.startEvent code phase) (stuck .go _ trivial trivial)
          | some current =>
              obtain ⟨source, callbacks⟩ := current
              cases callbacks with
              | nil => exact absurd (.endEvent code phase) (stuck .go _ trivial trivial)
              | cons callback rest =>
                  cases source with
                  | acceptor =>
                      obtain rfl := sane.acceptor _ _ phase callback List.mem_cons_self
                      exact absurd (.acceptFailed code phase) (stuck .acceptFailed _ trivial trivial)
                  | conn c =>
                      cases callback with
                      | close => exact absurd (.close code phase) (stuck .go _ trivial trivial)
                      | error => exact absurd (.error code phase) (stuck .go _ trivial trivial)
                      | read =>
                          have sound : Sound s (.read (.error 0)) := by
                            intro c callbacks r _ _ _ same
                            cases same
                          exact absurd (.read code phase) (stuck (.read (.error 0)) _ trivial sound)
                      | write =>
                          exact absurd (.write code phase) (stuck (.write (.wrote 0)) _ trivial trivial)

end Steps

/-! ## Runs -/

section Runs

variable {junk : Nat → UInt8} {s : ServerState}

theorem run_sane {ok : ServerState → ServerEvent → Prop} {evs : List ServerEvent}
    (run : ((serverSys junk).restrict ok).Run evs s) : Sane s := by
  refine run.invariant (I := fun _ s => Sane s) ?_ ?_
  · rintro s rfl
    exact .of_timers rfl
  · rintro evs s ev t _ sane ⟨_, step⟩
    exact (step.work_le sane).1

/-- At rest a connection is either open, with its entry as its only holder and its handler
registered for reading, or it has been freed. -/
theorem Inv.rest {walk : List Task} (inv : Inv s walk) (code : s.code = []) (tasks : s.pendingList = [])
    {c : Nat} {r : Connection} (known : s.conns c = some r) :
    (r.state ≠ .disconnected ∧ r.live = true ∧ r.ref = 1 ∧ c ∉ s.destructs ∧
        s.connections r.handler.fd = some c ∧ r.handler.index = .added ∧
        r.handler.events &&& kreadEvent = kreadEvent) ∨
      (r.state = .disconnected ∧ r.live = false ∧ s.destructs.count c = 1 ∧
        s.connections r.handler.fd ≠ some c) := by
  have own := inv.conn c r known
  have idle : ¬ s.Closing c := by simp [ServerState.Closing, code]
  have holders : s.holders c = s.entry c := by
    simp [ServerState.holders, ServerState.queued, ServerState.frames, code, tasks]
  have entry := own.entry
  rw [or_iff_left idle] at entry
  by_cases state : r.state = .disconnected
  · have unlisted : s.connections r.handler.fd ≠ some c := fun listed => entry.mp listed state
    have dead : r.live = false := by
      rw [← Bool.not_eq_true, own.live, holders, ServerState.entry_eq known, if_neg unlisted]
      exact Nat.lt_irrefl 0
    refine .inr ⟨state, dead, ?_, unlisted⟩
    rw [own.destructs, dead]
    rfl
  · have listed : s.connections r.handler.fd = some c := entry.mpr state
    have one : s.holders c = 1 := by rw [holders, ServerState.entry_eq known, if_pos listed]
    have alive : r.live = true := own.live.mpr (by omega)
    obtain ⟨added, reading⟩ := own.watched state
    refine .inl ⟨state, alive, by rw [own.ref, one]; rfl, ?_, listed, added, reading⟩
    rw [← List.count_eq_zero, own.destructs, alive]
    rfl

/-- **The server settles.** In every run in which no read finds the end of the stream in the
handling of a mask with `POLLHUP` and without `POLLIN`: whatever comes from outside, the loop
thread takes no more steps of its own than it had left to do and was given to do. When
nothing is reported any more, no timer fires and the application makes no calls, it comes
to rest after at most `work` steps; and at rest every connection is open, with its entry as
its only holder and its handler registered, or it was closed and has been freed, once. -/
theorem server_settles {evs : List ServerEvent} (run : ((serverSys junk).restrict Sound).Run evs s) :
    (∀ more t, (((serverSys junk).restrict Sound).starting s).Run more t →
      more.countP ServerEvent.own + t.work ≤ s.work + (more.map ServerEvent.cost).sum) ∧
    (∀ more t, ((((serverSys junk).restrict Sound).restrict Settling).starting s).Run more t →
      more.length ≤ s.work) ∧
    ((∀ ev out, Settling s ev → Sound s ev → ¬ ServerStep junk s ev out) →
      s.phase = .timers ∧ s.pendingList = [] ∧ ∀ c r, s.conns c = some r →
        (r.state ≠ .disconnected ∧ r.live = true ∧ r.ref = 1 ∧ c ∉ s.destructs ∧
            s.connections r.handler.fd = some c ∧ r.handler.index = .added ∧
            r.handler.events &&& kreadEvent = kreadEvent) ∨
          (r.state = .disconnected ∧ r.live = false ∧ s.destructs.count c = 1 ∧
            s.connections r.handler.fd ≠ some c)) := by
  refine ⟨?_, ?_, ?_⟩
  · intro more t rest
    have bounded : Sane t ∧ more.countP ServerEvent.own + t.work ≤
        s.work + (more.map ServerEvent.cost).sum := by
      refine rest.invariant (I := fun more t => Sane t ∧
        more.countP ServerEvent.own + t.work ≤ s.work + (more.map ServerEvent.cost).sum) ?_ ?_
      · rintro _ rfl
        exact ⟨run_sane run, by simp⟩
      · rintro more u ev v _ ⟨sane, bounded⟩ ⟨_, step⟩
        obtain ⟨sane', less⟩ := step.work_le sane
        refine ⟨sane', ?_⟩
        rw [List.countP_append, List.countP_singleton, List.map_append, List.sum_append,
          List.map_singleton, List.sum_singleton]
        cases own : ev.own <;> simp [own] at less ⊢ <;> omega
    exact bounded.2
  · intro more t rest
    have bounded := rest.rank (I := Sane) (μ := ServerState.work) (n := s.work) ?_ ?_
    · omega
    · rintro _ rfl
      exact ⟨run_sane run, Nat.le_refl _⟩
    · rintro u ev v sane ⟨settling, _, step⟩
      exact ⟨(step.work_le sane).1, step.work_lt sane settling⟩
  · intro stuck
    obtain ⟨code, phase, tasks⟩ := (run_sane run).rest stuck
    exact ⟨phase, tasks, fun c r known => (run_inv run).rest code tasks known⟩

/-- A connection that has just been accepted: the application returns, two frames let go,
the event ends and there is no task. -/
theorem server_settles_accepted :
    ∃ s, ((serverSys fun _ => 0).restrict Sound).Run
        [.poll [(.acceptor, pollIn)], .go, .accept 0 5] s ∧ s.code.length = 3 ∧
      ∀ more t, ((((serverSys fun _ => 0).restrict Sound).restrict Settling).starting s).Run more t →
        more.length ≤ 5 := by
  have other (s : ServerState) (ev : ServerEvent) (ne : ∀ res, ev ≠ .read res) : Sound s ev := by
    cases ev with
    | read res => exact absurd rfl (ne res)
    | _ => trivial
  have observed : (accepted fun _ => 0).toOption.map (fun s => (s.code.length, s.work)) =
      some (3, 5) := by decide +kernel
  cases accepts : accepted fun _ => 0 with
  | error fault =>
      rw [accepts] at observed
      cases observed
  | ok s =>
      rw [accepts] at observed
      obtain ⟨code, work⟩ := Prod.mk.inj (Option.some.inj observed)
      have run : ((serverSys fun _ => 0).restrict Sound).Run
          [.poll [(.acceptor, pollIn)], .go, .accept 0 5] s := run_accepted accepts other
      exact ⟨s, run, code, fun more t rest => work ▸ (server_settles run).2.1 more t rest⟩

end Runs

end GpBase.Server

import GpBase.Server.Step

/-!
# Reference counts of a plain server

In every run the count of a connection is the number of its holders, and it is
freed when the last of them lets go, as long as one path is not taken:
`handle_event` may call the close callback and then the read callback for one
mask, and when that read finds the end of the stream the connection is closed a
second time. `queue_in_loop_force_close` asks for the state first;
`connection_handler_read` does not.
-/

namespace GpBase.Server

open GpBase.Lib GpBase.Buffer GpBase.Event GpBase.Conn GpBase.Loop

variable {junk : Nat → UInt8} {s : ServerState}

/-- A read that finds the end of the stream is not made for a mask with `POLLHUP` and
without `POLLIN`. -/
def Sound (s : ServerState) : ServerEvent → Prop
  | .read res => ∀ c callbacks r, s.current = some (c, callbacks) → s.conns c = some r →
      hungUp r.revents = true → res ≠ .data []
  | _ => True

/-- Every sound step goes through and keeps the invariant. -/
theorem Inv.step {ev : ServerEvent} {out : Except Fault ServerState} (inv : Inv s s.walked)
    (sound : Sound s ev) (step : ServerStep junk s ev out) :
    ∃ s', out = .ok s' ∧ Inv s' s'.walked := by
  cases step with
  | timer code phase => exact ⟨_, rfl, inv.callback⟩
  | call code known alive => exact (inv.call _ known alive).walked
  | ret code => exact ⟨_, rfl, inv.ret code⟩
  | connRefDec code =>
      obtain ⟨s', done, inv', _, list, phase⟩ := inv.release code
      refine ⟨s', done, inv'.mono fun c there => ?_⟩
      exact walked_append (s := s) phase (list.trans (List.append_nil _).symm) there
  | closeCallback code =>
      obtain ⟨s', done, inv', phase, list⟩ := inv.remove code
      exact ⟨s', done, inv'.mono fun c there => walked_append phase list there⟩
  | handlerRemove code =>
      have := inv.code
      rw [code] at this
      cases this
  | poll code phase reports => exact inv.poll phase reports
  | startEvent code phase => exact inv.startEvent phase
  | close code phase => exact inv.close phase
  | error code phase => exact ⟨_, rfl, inv.popCallback phase⟩
  | @read c rest active res code phase =>
      have here : s.current = some (c, .read :: rest) := by simp [ServerState.current, phase]
      exact inv.read phase code res fun r known hup => sound c _ r here known hup
  | write code phase => exact inv.write phase code _
  | accept code phase accepts => exact inv.accept phase accepts
  | @acceptFailed rest active code phase =>
      have listed : s.active = active := by simp [ServerState.active, phase]
      have walked : s.walked = s.pendingList := by simp [ServerState.walked, phase]
      rw [walked] at inv
      have popped := inv.leave (.events (some (.acceptor, rest)) active)
        (listed ▸ List.Sublist.refl _) rfl
      exact ⟨_, rfl, popped.acceptor false s.acceptorRevents⟩
  | endEvent code phase => exact inv.endEvent phase code
  | doPendingFunctors code phase =>
      have walked : s.walked = s.pendingList := by simp [ServerState.walked, phase]
      rw [walked] at inv
      exact inv.nextTask
  | finishTask code phase => exact inv.finishTask phase

theorem Inv.started : Inv started started.walked where
  conn c r known := by cases known
  unborn c _ := ⟨rfl, rfl, rfl, by simp [ServerState.Closing, Server.started],
    by simp [ServerState.active, Server.started], by simp [ServerState.current, Server.started]⟩
  entries fd c listed := by cases listed
  registered fd c listed := by cases listed
  distinct c c' r r' known := by cases known
  code := trivial
  tasks t there := by cases there
  once := ⟨List.nodup_nil, fun c callbacks here => by cases here⟩

/-- The invariant holds in every run of sound steps. -/
theorem run_inv {evs : List ServerEvent} (run : ((serverSys junk).restrict Sound).Run evs s) :
    Inv s s.walked := by
  refine run.invariant (I := fun _ s => Inv s s.walked) ?_ ?_
  · rintro s rfl
    exact Inv.started
  · rintro evs s ev t _ inv ⟨sound, step⟩
    obtain ⟨t', same, inv'⟩ := inv.step sound step
    cases same
    exact inv'

/-- The reference counts of a state are right. -/
structure Accounted (s : ServerState) : Prop where
  /-- the count is the number of holders -/
  ref : ∀ c r, s.conns c = some r → r.ref = s.holders c
  /-- a connection is destructed when the last holder has let go, once -/
  destructed : ∀ c r, s.conns c = some r →
    s.destructs.count c = if s.holders c = 0 then 1 else 0
  /-- and it is then that its memory is gone -/
  freed : ∀ c r, s.conns c = some r → (r.live = false ↔ c ∈ s.destructs)
  /-- `server->connections` has the connections that are not closed yet -/
  connections : ∀ fd c, s.connections fd = some c ↔ ∃ r, s.conns c = some r ∧
    r.handler.fd = fd ∧ (r.state ≠ .disconnected ∨ s.Closing c)

theorem Inv.accounted {walk : List Task} (inv : Inv s walk) : Accounted s where
  ref c r known := (inv.conn c r known).ref
  destructed c r known := by
    have own := inv.conn c r known
    rw [own.destructs]
    by_cases none : s.holders c = 0
    · have dead : r.live = false := by
        by_contra alive
        have := own.live.mp (by simpa using alive)
        omega
      simp [none, dead]
    · have alive : r.live = true := own.live.mpr (by omega)
      simp [none, alive]
  freed c r known := by
    have own := inv.conn c r known
    rw [← List.count_pos_iff, own.destructs]
    cases r.live <;> simp
  connections fd c := by
    constructor
    · intro listed
      obtain ⟨r, known, rfl⟩ := inv.entries fd c listed
      exact ⟨r, known, rfl, (inv.conn c r known).entry.mp listed⟩
    · rintro ⟨r, known, rfl, state⟩
      exact (inv.conn c r known).entry.mpr state

/-- **Reference counting.** In every run of the loop thread in which no read finds the end
of the stream in the handling of a mask with `POLLHUP` and without `POLLIN`: the count of
every connection is the number of its holders, it is destructed once, when that number has
become 0, `server->connections` has exactly the connections not yet closed, and no step
follows a pointer to a connection that has been freed. -/
theorem refs_accounted {evs : List ServerEvent}
    (run : ((serverSys junk).restrict Sound).Run evs s) :
    Accounted s ∧ ∀ ev out, Sound s ev → ServerStep junk s ev out → ∃ s', out = .ok s' := by
  have inv := run_inv run
  refine ⟨inv.accounted, fun ev out sound step => ?_⟩
  obtain ⟨s', done, _⟩ := inv.step sound step
  exact ⟨s', done⟩

/-! ## Runs that can be computed -/

/-- The step that the loop thread takes, as far as it is determined; `accept` is left out. -/
def ServerState.next (junk : Nat → UInt8) (s : ServerState) :
    ServerEvent → Option (Except Fault ServerState)
  | .go =>
    match s.code, s.phase with
    | .connRefDec c :: rest, _ => some ({ s with code := rest }.connRefDec c)
    | .closeCallback c :: rest, _ => some ({ s with code := rest }.removeConn c)
    | .handlerRemove c :: rest, _ => some ({ s with code := rest }.handlerRemove c)
    | [], .events none (source :: active) => some (s.startEvent active source)
    | [], .events none [] => some s.nextTask
    | [], .events (some (source, [])) active => some (s.endEvent active source)
    | [], .events (some (.conn c, .close :: rest)) active =>
      some ({ s with phase := .events (some (.conn c, rest)) active }.connectionHandlerClose c)
    | [], .pending reached => some (s.finishTask reached)
    | _, _ => none
  | .call u =>
    match s.code, s.conns u.conn with
    | .callback :: _, some r => if r.live then some (u.exec junk s) else none
    | _, _ => none
  | .ret =>
    match s.code with
    | .callback :: rest => some (.ok { s with code := rest })
    | _ => none
  | .poll reported =>
    match s.code, s.phase, reported with
    | [], .timers, [] => some (s.pollerPoll [])
    | [], .timers, [(.conn c, m)] =>
      match s.conns c with
      | some r =>
        if s.interest r.handler.fd = some c then some (s.pollerPoll [(.conn c, m)]) else none
      | none => none
    | _, _, _ => none
  | .read res =>
    match s.code, s.phase with
    | [], .events (some (.conn c, .read :: rest)) active =>
      some ({ s with phase := .events (some (.conn c, rest)) active }.connectionHandlerRead junk
        c res)
    | _, _ => none
  | _ => none

theorem ServerState.next_step {ev : ServerEvent} {out : Except Fault ServerState}
    (next : s.next junk ev = some out) : ServerStep junk s ev out := by
  unfold ServerState.next at next
  split at next
  · split at next
    all_goals cases next
    · exact .connRefDec ‹_›
    · exact .closeCallback ‹_›
    · exact .handlerRemove ‹_›
    · exact .startEvent ‹_› ‹_›
    · exact .doPendingFunctors ‹_› ‹_›
    · exact .endEvent ‹_› ‹_›
    · exact .close ‹_› ‹_›
    · exact .finishTask ‹_› ‹_›
  · split at next
    · split at next
      · cases next
        exact .call ‹_› ‹_› ‹_›
      · cases next
    · cases next
  · split at next
    · cases next
      exact .ret ‹_›
    · cases next
  · split at next
    · cases next
      exact .poll ‹_› ‹_› ⟨by simp, by simp, by simp⟩
    · split at next
      · split at next
        · rename_i c m _ _ r known registered
          cases next
          refine .poll ‹_› ‹_› ⟨by simp, by simp, ?_⟩
          intro c' there
          simp only [List.map_cons, List.map_nil, List.mem_singleton, Source.conn.injEq] at there
          exact ⟨_, there ▸ registered⟩
        · cases next
      · cases next
    · cases next
  · split at next
    · cases next
      exact .read ‹_› ‹_›
    · cases next
  · cases next

/-- Several steps. -/
def ServerState.nexts (junk : Nat → UInt8) (s : ServerState) :
    List ServerEvent → Option ServerState
  | [] => some s
  | ev :: evs =>
    match s.next junk ev with
    | some (.ok s') => s'.nexts junk evs
    | _ => none

theorem run_nexts {ok : ServerState → ServerEvent → Prop} {before evs : List ServerEvent}
    {t : ServerState} (run : ((serverSys junk).restrict ok).Run before s)
    (nexts : s.nexts junk evs = some t) (fine : ∀ s, ∀ ev ∈ evs, ok s ev) :
    ((serverSys junk).restrict ok).Run (before ++ evs) t := by
  induction evs generalizing s before with
  | nil =>
      cases nexts
      simpa using run
  | cons ev evs ih =>
      unfold ServerState.nexts at nexts
      split at nexts
      · rename_i s' next
        have stepped := run.step ⟨fine s ev List.mem_cons_self, ServerState.next_step next⟩
        have more := ih stepped nexts fun s ev' there => fine s ev' (List.mem_cons_of_mem _ there)
        rwa [List.append_assoc] at more
      · cases nexts

/-- A server about to accept. -/
def accepting : ServerState :=
  { started with acceptorRevents := pollIn, phase := .events (some (.acceptor, [.read])) [] }

/-- It has accepted the connection 0 on the fd 5. -/
def accepted (junk : Nat → UInt8) : Except Fault ServerState :=
  ServerState.newConnectionCallback
    { accepting with phase := .events (some (.acceptor, [])) [] } junk 0 5

theorem run_accepted {ok : ServerState → ServerEvent → Prop}
    (accepts : accepted junk = .ok s) (fine : ∀ s ev, (∀ res, ev ≠ .read res) → ok s ev) :
    ((serverSys junk).restrict ok).Run
      [.poll [(.acceptor, pollIn)], .go, .accept 0 5] s := by
  have run₀ : ((serverSys junk).restrict ok).Run [] started := .init rfl
  have polled : ServerStep junk started (.poll [(.acceptor, pollIn)])
      (.ok { started with acceptorRevents := pollIn, phase := .events none [.acceptor] }) :=
    .poll rfl rfl ⟨by simp, fun _ => rfl, by simp⟩
  have begun : ServerStep junk
      { started with acceptorRevents := pollIn, phase := .events none [.acceptor] } .go
      (.ok accepting) := ServerState.next_step rfl
  have taken : ServerStep junk accepting (.accept 0 5) (.ok s) := by
    have unused : Accepts accepting 0 5 := by
      refine ⟨by decide, fun c' r known => ?_, rfl⟩
      cases known
    rw [← accepts]
    exact .accept rfl rfl unused
  exact ((run₀.step ⟨fine _ _ (by simp), polled⟩).step ⟨fine _ _ (by simp), begun⟩).step
    ⟨fine _ _ (by simp), taken⟩

/-- What follows the accept when the peer hangs up with `POLLHUP | POLLPRI` and the read
finds the end of the stream. -/
def hangUp : List ServerEvent :=
  [.ret, .go, .go, .go, .go, .poll [(.conn 0, pollHup ||| pollPri)], .go,
    -- the close callback
    .go, .ret, .go, .go, .go,
    -- the read callback
    .read (.data []), .ret, .go, .go, .go,
    .go, .go]

/-- What can be seen of the connection 0: its holders, its count, whether it has been
destructed, and whether the next step faults. -/
def ServerState.observe (s : ServerState) : Nat × Option Int × Nat × Bool :=
  (s.holders 0, (s.conns 0).map (·.ref), s.destructs.count 0,
    match s.next (fun _ => 0) .go with
    | some (.error .dangling) => true
    | _ => false)

/-- A run from the accept on, and what can be seen at its end. -/
theorem run_observed (ok : ServerState → ServerEvent → Prop) (evs : List ServerEvent)
    (seen : Nat × Option Int × Nat × Bool)
    (observed : ((accepted fun _ => 0).toOption.bind fun s =>
      s.nexts (fun _ => 0) evs).map ServerState.observe = some seen)
    (fine : ∀ s ev, (∀ res, ev ≠ .read res) → ok s ev) (fine' : ∀ s, ∀ ev ∈ evs, ok s ev) :
    ∃ s, ((serverSys fun _ => 0).restrict ok).Run
      ([.poll [(.acceptor, pollIn)], .go, .accept 0 5] ++ evs) s ∧ s.observe = seen := by
  cases accepts : accepted fun _ => 0 with
  | error fault =>
      rw [accepts] at observed
      cases observed
  | ok s₀ =>
      rw [accepts] at observed
      obtain ⟨s, nexts, same⟩ := Option.map_eq_some_iff.mp observed
      exact ⟨s, run_nexts (run_accepted accepts fine) nexts fine', same⟩

/-- Two tasks hold the connection, its count is 1, and the second task uses it after the
first one has freed it. -/
theorem hang_up_closes_twice :
    ∃ s r, (serverSys fun _ => 0).Run
        ([.poll [(.acceptor, pollIn)], .go, .accept 0 5] ++ hangUp) s ∧
      s.conns 0 = some r ∧ r.ref = 1 ∧ s.holders 0 = 2 ∧
      ServerStep (fun _ => 0) s .go (.error .dangling) := by
  obtain ⟨s, run, seen⟩ := run_observed (fun _ _ => True) hangUp (2, some 1, 0, true)
    (by decide +kernel) (by simp) (by simp)
  simp only [ServerState.observe, Prod.mk.injEq, Option.map_eq_some_iff] at seen
  obtain ⟨holders, ⟨r, known, ref⟩, _, faults⟩ := seen
  refine ⟨s, r, run.of_restrict, known, ref, holders, ServerState.next_step ?_⟩
  split at faults
  · assumption
  · cases faults

/-- The application closes the connection that it has just been given. -/
def closeAtOnce : List ServerEvent :=
  [.call (.connForceClose 0), .ret, .go, .go, .go, .go,
    -- `queue_in_loop_force_close`, and the end of its task
    .ret, .go, .go, .go, .go,
    -- the next round destroys the connection
    .poll [], .go, .go]

theorem refs_accounted_close :
    ∃ s, ((serverSys fun _ => 0).restrict Sound).Run
        ([.poll [(.acceptor, pollIn)], .go, .accept 0 5] ++ closeAtOnce) s ∧
      s.holders 0 = 0 ∧ s.destructs.count 0 = 1 ∧ Accounted s := by
  have other (s : ServerState) (ev : ServerEvent) (ne : ∀ res, ev ≠ .read res) : Sound s ev := by
    cases ev with
    | read res => exact absurd rfl (ne res)
    | _ => trivial
  have noRead (s : ServerState) (ev : ServerEvent) (there : ev ∈ closeAtOnce) : Sound s ev := by
    refine other s ev fun res => ?_
    rintro rfl
    simp [closeAtOnce] at there
  obtain ⟨s, run, seen⟩ := run_observed Sound closeAtOnce (0, some 0, 1, false)
    (by decide +kernel) other noRead
  simp only [ServerState.observe, Prod.mk.injEq] at seen
  exact ⟨s, run, seen.1, seen.2.2.1, (refs_accounted run).1⟩

end GpBase.Server

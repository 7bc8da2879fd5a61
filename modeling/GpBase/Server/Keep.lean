import GpBase.Server.Invariant

/-!
# What each operation on a connection keeps

One lemma for each way in which the count of a connection, its tasks and its
frames change together. `Inv.update_own` carries everything that is not about
the connection itself.
-/

namespace GpBase.Server

open GpBase.Lib GpBase.Buffer GpBase.Event GpBase.Conn GpBase.Loop

variable {s s' : ServerState} {walk walk' : List Task} {c c' : Nat} {r r' : Connection}

/-- A step on the live connection `c`, which keeps its fd, leaves the others alone. -/
theorem Inv.update_own (inv : Inv s walk) (known : s.conns c = some r) (alive : r.live = true)
    (conns : s'.conns = Function.update s.conns c (some r'))
    (fd : r'.handler.fd = r.handler.fd) (own : ConnInv s' walk' c r')
    (others : ∀ c', c' ≠ c → SameFor s s' c')
    (connections : ∀ fd, fd ≠ r.handler.fd → s'.connections fd = s.connections fd)
    (ownEntry : ∀ c', s'.connections r.handler.fd = some c' → c' = c)
    (interest : ∀ fd, fd ≠ r.handler.fd → s'.interest fd = s.interest fd)
    (ownInterest : ∀ c', s'.interest r.handler.fd = some c' → c' = c ∧ r'.live = true)
    (walks : ∀ c', c' ≠ c → destroyTask c' ∈ walk → destroyTask c' ∈ walk')
    (code : CodeInv s'.code) (tasks : ∀ t ∈ s'.pendingList, Queueable t.pendingFunc)
    (once : s'.active.Nodup ∧ ∀ c callbacks, s'.current = some (c, callbacks) →
      .conn c ∉ s'.active) : Inv s' walk' := by
  have self : s'.conns c = some r' := by rw [conns, Function.update_self]
  have other (c') (ne : c' ≠ c) : s'.conns c' = s.conns c' := by
    rw [conns, Function.update_of_ne ne]
  constructor
  case conn =>
    intro c' r₁ known'
    by_cases ne : c' = c
    · subst ne
      rw [self, Option.some.injEq] at known'
      exact known' ▸ own
    rw [other c' ne] at known'
    have inv' := inv.conn c' r₁ known'
    refine inv'.of_same known' (others c' ne) ?_ (fun alive' => ?_) (walks c' ne)
    · by_cases same : r₁.handler.fd = r.handler.fd
      · -- the fd is used again: `c'` is gone
        rw [same]
        refine iff_of_false (fun h => ne (ownEntry c' h)) fun h => ?_
        rw [← same, inv'.entry] at h
        exact inv.fd_ne known alive known' (inv'.alive_of_open known' h) ne same
      · rw [connections _ same]
    · exact interest _ (inv.fd_ne known alive known' alive' ne)
  case unborn =>
    intro c' unknown
    have ne : c' ≠ c := by
      rintro rfl
      rw [self] at unknown
      cases unknown
    rw [other c' ne] at unknown
    exact (inv.unborn c' unknown).of_same (others c' ne)
  case entries =>
    intro fd' c' listed
    by_cases same : fd' = r.handler.fd
    · subst same
      cases ownEntry c' listed
      exact ⟨r', self, fd⟩
    · rw [connections fd' same] at listed
      obtain ⟨r₁, known', rfl⟩ := inv.entries fd' c' listed
      by_cases ne : c' = c
      · subst ne
        rw [known] at known'
        cases known'
        exact absurd rfl same
      · exact ⟨r₁, (other c' ne).trans known', rfl⟩
  case registered =>
    intro fd' c' listed
    by_cases same : fd' = r.handler.fd
    · subst same
      obtain ⟨rfl, alive'⟩ := ownInterest c' listed
      exact ⟨r', self, alive', fd⟩
    · rw [interest fd' same] at listed
      obtain ⟨r₁, known', alive', rfl⟩ := inv.registered fd' c' listed
      by_cases ne : c' = c
      · subst ne
        rw [known] at known'
        cases known'
        exact absurd rfl same
      · exact ⟨r₁, (other c' ne).trans known', alive', rfl⟩
  case distinct =>
    intro c₁ c₂ r₁ r₂ known₁ known₂ alive₁ alive₂ same
    by_cases ne₁ : c₁ = c <;> by_cases ne₂ : c₂ = c
    · rw [ne₁, ne₂]
    · subst ne₁
      rw [self, Option.some.injEq] at known₁
      rw [other c₂ ne₂] at known₂
      exact inv.distinct _ _ _ _ known known₂ alive alive₂ (by rw [← fd, known₁, same])
    · subst ne₂
      rw [self, Option.some.injEq] at known₂
      rw [other c₁ ne₁] at known₁
      exact inv.distinct _ _ _ _ known₁ known alive₁ alive (by rw [← fd, known₂, same])
    · rw [other c₁ ne₁] at known₁
      rw [other c₂ ne₂] at known₂
      exact inv.distinct _ _ _ _ known₁ known₂ alive₁ alive₂ same
  case code => exact code
  case tasks => exact tasks
  case once => exact once

/-- What the interest list and the entries say of a live connection's own fd. -/
theorem Inv.own_entry (inv : Inv s walk) (known : s.conns c = some r) (alive : r.live = true)
    (listed : s.connections r.handler.fd = some c') : c' = c := by
  obtain ⟨r₁, known', same⟩ := inv.entries _ c' listed
  have inv' := inv.conn c' r₁ known'
  by_contra ne
  refine inv.fd_ne known alive known' ?_ ne same
  exact inv'.alive_of_open known' (inv'.entry.mp (same.symm ▸ listed))

theorem own_interest {interest : Int → Option Nat} {h : Handler}
    (follows : Follows interest h c) (listed : interest h.fd = some c') : c' = c := by
  rw [follows] at listed
  split at listed
  · exact (Option.some.inj listed).symm
  · cases listed

/-- The part of `ConnInv` that counts. -/
structure Counted (s : ServerState) (c : Nat) (r : Connection) : Prop where
  ref : r.ref = s.holders c
  live : r.live = true ↔ 0 < s.holders c
  destructs : s.destructs.count c = if r.live then 0 else 1

theorem ConnInv.counted (inv : ConnInv s walk c r) : Counted s c r :=
  ⟨inv.ref, inv.live, inv.destructs⟩

/-- Only the count of the connection has changed. -/
theorem ConnInv.recount (inv : ConnInv s walk c r) {ref : Int}
    (counted : Counted s' c { r with ref := ref })
    (entry : s'.connections = s.connections) (interest : s'.interest = s.interest)
    (closing : s'.Closing c ↔ s.Closing c)
    (destroy : destroyTask c ∈ s'.pendingList ↔ destroyTask c ∈ s.pendingList)
    (active : .conn c ∈ s'.active → .conn c ∈ s.active)
    (current : ∀ callbacks, s'.current = some (c, callbacks) → s.current = some (c, callbacks))
    (walks : destroyTask c ∈ walk → destroyTask c ∈ walk') :
    ConnInv s' walk' c { r with ref := ref } where
  ref := counted.ref
  live := counted.live
  destructs := counted.destructs
  entry := by rw [entry, closing]; exact inv.entry
  closing h := inv.closing (closing.mp h)
  follows := interest ▸ inv.follows
  watched := inv.watched
  leftover state added := walks (inv.leftover state added)
  inputBuffer := inv.inputBuffer
  outputBuffer := inv.outputBuffer
  destroy h := inv.destroy (destroy.mp h)
  active h := inv.active (active h)
  suffix callbacks here := inv.suffix callbacks (current callbacks here)
  kept callbacks here := by
    rw [closing, destroy]
    exact inv.kept callbacks (current callbacks here)
  unclosed callbacks here := inv.unclosed callbacks (current callbacks here)

/-! ## Frames and tasks -/

/-- Code that says nothing of a connection. -/
theorem SameFor.code (stmts : List Stmt) {conns : Nat → Option Connection}
    (same : conns c' = s.conns c') (silent : ∀ stmt ∈ stmts, stmt ≠ .connRefDec c' ∧
      stmt ≠ .closeCallback c') :
    SameFor s { s with conns := conns, code := stmts ++ s.code } c' where
  conns := same
  queued := rfl
  frames := by
    have : stmts.count (.connRefDec c') = 0 :=
      List.count_eq_zero.mpr fun h => (silent _ h).1 rfl
    simp [ServerState.frames, this]
  destructs := rfl
  closing := by
    have : Stmt.closeCallback c' ∉ stmts := fun h => (silent _ h).2 rfl
    simp [ServerState.Closing, this]
  destroy := Iff.rfl
  active := id
  current _ h := h

/-- `conn_ref_inc` at the start of a frame. -/
theorem Inv.hold (inv : Inv s walk) (known : s.conns c = some r) (alive : r.live = true) :
    Inv { s with conns := Function.update s.conns c (some { r with ref := r.ref + 1 })
                 code := .connRefDec c :: s.code } walk := by
  have own := inv.conn c r known
  have holders : ServerState.holders
      { s with conns := Function.update s.conns c (some { r with ref := r.ref + 1 })
               code := .connRefDec c :: s.code } c = s.holders c + 1 := by
    simp only [ServerState.holders, ServerState.entry_eq known, ServerState.frames,
      ServerState.queued, List.count_cons_self]
    rw [ServerState.entry_eq (Function.update_self ..)]
    ring
  refine inv.update_own known alive rfl rfl ?_ ?_ (fun _ _ => rfl)
    (fun c' listed => inv.own_entry known alive listed) (fun _ _ => rfl)
    (fun c' listed => ⟨own_interest (own.follows alive) listed, alive⟩) (fun _ _ h => h) inv.code
    inv.tasks inv.once
  · refine own.recount ⟨?_, ?_, own.destructs⟩ rfl rfl (by simp [ServerState.Closing]) Iff.rfl id
      (fun _ h => h) id
    · rw [holders, own.ref]
      push_cast
      ring
    · rw [holders]
      simp [alive]
  · intro c' ne
    refine SameFor.code [.connRefDec c] (Function.update_of_ne ne _ _) ?_
    simpa using Ne.symm ne

/-- A task takes its place in the list. -/
theorem Inv.queue (inv : Inv s walk) (known : s.conns c = some r) (alive : r.live = true)
    {f : PendingFunc} (queueable : Queueable f) (other : f ≠ .destroyConn) :
    Inv { s with conns := Function.update s.conns c (some { r with ref := r.ref + 1 })
                 pendingList := s.pendingList ++ [{ pendingFunc := f, conn := c }] } walk := by
  have own := inv.conn c r known
  have holders : ServerState.holders
      { s with conns := Function.update s.conns c (some { r with ref := r.ref + 1 })
               pendingList := s.pendingList ++ [{ pendingFunc := f, conn := c }] } c =
        s.holders c + 1 := by
    simp only [ServerState.holders, ServerState.entry_eq known, ServerState.frames,
      ServerState.queued, List.countP_append, List.countP_singleton, decide_true, if_true]
    rw [ServerState.entry_eq (Function.update_self ..)]
    ring
  have destroys (c' : Nat) : destroyTask c' ∈ s.pendingList ++ [{ pendingFunc := f, conn := c }] ↔
      destroyTask c' ∈ s.pendingList := by
    simp [destroyTask, Ne.symm other]
  refine inv.update_own known alive rfl rfl ?_ ?_ (fun _ _ => rfl)
    (fun c' listed => inv.own_entry known alive listed) (fun _ _ => rfl)
    (fun c' listed => ⟨own_interest (own.follows alive) listed, alive⟩) (fun _ _ h => h) inv.code
    ?_ inv.once
  · refine own.recount ⟨?_, ?_, own.destructs⟩ rfl rfl Iff.rfl (destroys c) id (fun _ h => h) id
    · rw [holders, own.ref]
      push_cast
      ring
    · rw [holders]
      simp [alive]
  · intro c' ne
    exact ⟨Function.update_of_ne ne _ _,
      by simp [ServerState.queued, List.countP_append, Ne.symm ne], rfl, rfl, Iff.rfl,
      destroys c', id, fun _ h => h⟩
  · intro t task
    rcases List.mem_append.mp task with old | new
    · exact inv.tasks t old
    · rw [List.mem_singleton.mp new]
      exact queueable

/-- The application is called, or returns. -/
theorem Inv.callback (inv : Inv s walk) : Inv { s with code := .callback :: s.code } walk where
  conn c r known := (inv.conn c r known).of_same known
    (SameFor.code [.callback] rfl (by simp)) Iff.rfl (fun _ => rfl) id
  unborn c unknown := (inv.unborn c unknown).of_same
    (SameFor.code [.callback] rfl (by simp))
  entries := inv.entries
  registered := inv.registered
  distinct := inv.distinct
  code := inv.code
  tasks := inv.tasks
  once := inv.once

theorem Inv.ret {rest : List Stmt} (inv : Inv s walk) (code : s.code = .callback :: rest) :
    Inv { s with code := rest } walk := by
  have same (c : Nat) : SameFor s { s with code := rest } c :=
    ⟨rfl, rfl, by simp [ServerState.frames, code], rfl, by simp [ServerState.Closing, code],
      Iff.rfl, id, fun _ h => h⟩
  have inner : CodeInv rest := by simpa [code, CodeInv] using inv.code
  exact ⟨fun c r known => (inv.conn c r known).of_same known (same c) Iff.rfl (fun _ => rfl) id,
    fun c unknown => (inv.unborn c unknown).of_same (same c), inv.entries, inv.registered,
    inv.distinct, inner, inv.tasks, inv.once⟩

/-! ## Changes of a connection -/

/-- A change of a live connection that is not a close: what the interest list and the
handler become, and what of the record stays. -/
structure Modifies (s : ServerState) (walk : List Task) (c : Nat) (r r' : Connection)
    (interest : Int → Option Nat) : Prop where
  ref : r'.ref = r.ref
  live : r'.live = r.live
  fd : r'.handler.fd = r.handler.fd
  others : ∀ fd, fd ≠ r.handler.fd → interest fd = s.interest fd
  follows : Follows interest r'.handler c
  state : r'.state = .disconnected ↔ r.state = .disconnected
  watched : r'.state ≠ .disconnected →
    r'.handler.index = .added ∧ r'.handler.events &&& kreadEvent = kreadEvent
  leftover : r'.state = .disconnected → r'.handler.index = .added → destroyTask c ∈ walk
  inputBuffer : r'.inputBuffer.WF
  outputBuffer : r'.outputBuffer.WF
  revents : r'.revents = r.revents ∨ ∀ callbacks, s.current ≠ some (c, callbacks)

theorem Inv.modify (inv : Inv s walk) (known : s.conns c = some r) (alive : r.live = true)
    {interest : Int → Option Nat} (handlers : Int → Bool)
    (modifies : Modifies s walk' c r r' interest)
    (walks : ∀ c', c' ≠ c → destroyTask c' ∈ walk → destroyTask c' ∈ walk') :
    Inv { s with conns := Function.update s.conns c (some r')
                 handlers := handlers, interest := interest } walk' := by
  have own := inv.conn c r known
  have holders : ServerState.holders
      { s with conns := Function.update s.conns c (some r')
               handlers := handlers, interest := interest } c = s.holders c := by
    simp only [ServerState.holders, ServerState.entry_eq known, ServerState.frames,
      ServerState.queued]
    rw [ServerState.entry_eq (Function.update_self ..), modifies.fd]
  refine inv.update_own known alive rfl modifies.fd ?_ ?_ (fun _ _ => rfl)
    (fun c' listed => inv.own_entry known alive listed) modifies.others
    (fun c' listed => ⟨own_interest modifies.follows (modifies.fd ▸ listed),
      modifies.live.trans alive⟩) walks inv.code inv.tasks inv.once
  · constructor
    case ref => rw [holders, modifies.ref, own.ref]
    case live => rw [holders, modifies.live, own.live]
    case destructs => rw [modifies.live]; exact own.destructs
    case entry =>
      rw [modifies.fd, Ne, modifies.state]
      exact own.entry
    case closing => exact fun closing => modifies.state.mpr (own.closing closing)
    case follows => exact fun _ => modifies.follows
    case watched => exact modifies.watched
    case leftover => exact modifies.leftover
    case inputBuffer => exact modifies.inputBuffer
    case outputBuffer => exact modifies.outputBuffer
    case destroy => exact fun task => modifies.state.mpr (own.destroy task)
    case active => exact fun active => (not_congr modifies.state).mpr (own.active active)
    case suffix =>
      intro callbacks here
      rcases modifies.revents with same | elsewhere
      · rw [same]
        exact own.suffix callbacks here
      · exact absurd here (elsewhere callbacks)
    case kept =>
      intro callbacks here gone
      exact own.kept callbacks here (modifies.state.mp gone)
    case unclosed =>
      intro callbacks here closes
      rcases modifies.revents with same | elsewhere
      · rw [same] at closes
        exact (not_congr modifies.state).mpr (own.unclosed callbacks here closes)
      · exact absurd here (elsewhere callbacks)
  · intro c' ne
    exact ⟨Function.update_of_ne ne _ _, rfl, rfl, rfl, Iff.rfl, Iff.rfl, id, fun _ h => h⟩

/-- The start of a close, inside its frame. -/
theorem Inv.beginClose (inv : Inv s walk) (known : s.conns c = some r) (alive : r.live = true)
    (isOpen : r.state ≠ .disconnected) (frame : .connRefDec c ∈ s.code)
    (interest : Int → Option Nat) (handlers : Int → Bool) {h : Handler}
    (fd : h.fd = r.handler.fd) (others : ∀ fd, fd ≠ r.handler.fd → interest fd = s.interest fd)
    (follows : Follows interest h c) (gone : h.index ≠ .added) (inactive : .conn c ∉ s.active)
    (last : ∀ callbacks, s.current = some (c, callbacks) → .close ∉ callbacks ∧
      (.read ∈ callbacks → hungUp r.revents = true)) :
    Inv { s with conns := Function.update s.conns c
                   (some { r with state := .disconnected, handler := h })
                 handlers := handlers, interest := interest
                 code := .closeCallback c :: s.code } walk := by
  have own := inv.conn c r known
  have before : ¬ s.Closing c := fun closing => isOpen (own.closing closing)
  have holders : ServerState.holders
      { s with conns := Function.update s.conns c
                 (some { r with state := .disconnected, handler := h })
               handlers := handlers, interest := interest
               code := .closeCallback c :: s.code } c = s.holders c := by
    simp only [ServerState.holders, ServerState.entry_eq known, ServerState.frames,
      ServerState.queued]
    rw [ServerState.entry_eq (Function.update_self ..), fd]
    simp
  have closing : ServerState.Closing
      { s with conns := Function.update s.conns c
                 (some { r with state := .disconnected, handler := h })
               handlers := handlers, interest := interest
               code := .closeCallback c :: s.code } c := List.mem_cons_self
  refine inv.update_own known alive rfl fd ?_ ?_ (fun _ _ => rfl)
    (fun c' listed => inv.own_entry known alive listed) others
    (fun c' listed => ⟨own_interest follows (fd ▸ listed), alive⟩) (fun _ _ h => h)
    ⟨frame, before, inv.code⟩ inv.tasks inv.once
  · constructor
    case ref => rw [holders, own.ref]
    case live => rw [holders, own.live]
    case destructs => exact own.destructs
    case entry =>
      rw [fd]
      exact iff_of_true (own.entry.mpr (.inl isOpen)) (.inr closing)
    case closing => exact fun _ => rfl
    case follows => exact fun _ => follows
    case watched => exact fun h => absurd rfl h
    case leftover => exact fun _ added => absurd added gone
    case inputBuffer => exact own.inputBuffer
    case outputBuffer => exact own.outputBuffer
    case destroy => exact fun _ => rfl
    case active => exact fun active => absurd active inactive
    case suffix => exact own.suffix
    case kept => exact fun _ _ _ => .inl closing
    case unclosed =>
      rintro callbacks here (close | ⟨read, open'⟩)
      · exact absurd close (last callbacks here).1
      · rw [(last callbacks here).2 read] at open'
        cases open'
  · intro c' ne
    have silent : ∀ stmt ∈ [Stmt.closeCallback c], stmt ≠ .connRefDec c' ∧
        stmt ≠ .closeCallback c' := by simpa using Ne.symm ne
    have same : SameFor s { s with code := .closeCallback c :: s.code } c' :=
      SameFor.code [.closeCallback c] rfl silent
    exact ⟨Function.update_of_ne ne _ _, rfl, same.frames, rfl, same.closing, Iff.rfl, id,
      fun _ h => h⟩

/-! ## The last holder -/

/-- A holder lets go: `conn_ref_dec` in the state `s₁`, where one holder of `c` fewer is left
than in `s` and nothing else has changed. -/
structure Drops (s s₁ : ServerState) (walk : List Task) (c : Nat) : Prop where
  conns : s₁.conns = s.conns
  connections : s₁.connections = s.connections
  interest : s₁.interest = s.interest
  destructs : s₁.destructs = s.destructs
  holders : s₁.holders c + 1 = s.holders c
  closing : ∀ c, s₁.Closing c ↔ s.Closing c
  others : ∀ c', c' ≠ c → SameFor s s₁ c'
  destroy : destroyTask c ∈ s₁.pendingList → destroyTask c ∈ s.pendingList
  active : ∀ source, source ∈ s₁.active → source ∈ s.active
  current : ∀ callbacks, s₁.current = some (c, callbacks) →
    s.current = some (c, callbacks) ∧ s₁.pendingList = s.pendingList
  code : CodeInv s₁.code
  tasks : ∀ t ∈ s₁.pendingList, Queueable t.pendingFunc
  once : s₁.active.Nodup ∧ ∀ c callbacks, s₁.current = some (c, callbacks) →
    .conn c ∉ s₁.active

/-- A holder that is not the last one. -/
theorem Inv.drop_shared (inv : Inv s walk) (known : s.conns c = some r) (alive : r.live = true)
    {s₁ : ServerState} (drops : Drops s s₁ walk c) (shared : s₁.holders c ≠ 0) :
    Inv { s₁ with conns := Function.update s₁.conns c (some { r with ref := r.ref - 1 }) }
      walk := by
  have own := inv.conn c r known
  have holders : ServerState.holders
      { s₁ with conns := Function.update s₁.conns c (some { r with ref := r.ref - 1 }) } c =
        s₁.holders c := by
    simp only [ServerState.holders, ServerState.frames, ServerState.queued]
    rw [ServerState.entry_eq (Function.update_self ..),
      ServerState.entry_eq ((congrFun drops.conns c).trans known)]
  have conns : Function.update s₁.conns c (some { r with ref := r.ref - 1 }) =
      Function.update s.conns c (some { r with ref := r.ref - 1 }) := by rw [drops.conns]
  refine inv.update_own known alive conns rfl ?_ ?_
    (fun fd _ => congrFun drops.connections fd) ?_ (fun fd _ => congrFun drops.interest fd) ?_
    (fun _ _ h => h) drops.code drops.tasks drops.once
  · constructor
    case ref =>
      have count := drops.holders
      have ref := own.ref
      rw [holders]
      show r.ref - 1 = s₁.holders c
      omega
    case live =>
      rw [holders]
      simp only [alive, true_iff]
      omega
    case destructs =>
      simp only [drops.destructs]
      exact own.destructs
    case entry => simpa only [drops.connections, ServerState.Closing, drops.closing c] using
        own.entry.trans (or_congr_right (drops.closing c).symm)
    case closing => exact fun closing => own.closing ((drops.closing c).mp closing)
    case follows => simpa only [drops.interest] using own.follows
    case watched => exact own.watched
    case leftover => exact own.leftover
    case inputBuffer => exact own.inputBuffer
    case outputBuffer => exact own.outputBuffer
    case destroy => exact fun task => own.destroy (drops.destroy task)
    case active => exact fun active => own.active (drops.active _ active)
    case suffix => exact fun callbacks here => own.suffix callbacks (drops.current callbacks here).1
    case kept =>
      intro callbacks here state
      obtain ⟨here, list⟩ := drops.current callbacks here
      rcases own.kept callbacks here state with closing | task
      · exact .inl ((drops.closing c).mpr closing)
      · exact .inr (list ▸ task)
    case unclosed =>
      exact fun callbacks here => own.unclosed callbacks (drops.current callbacks here).1
  · intro c' ne
    have same := drops.others c' ne
    exact ⟨(Function.update_of_ne ne _ _).trans same.conns, same.queued, same.frames,
      same.destructs, same.closing, same.destroy, same.active, same.current⟩
  · intro c' listed
    exact inv.own_entry known alive (by rw [← drops.connections]; exact listed)
  · intro c' listed
    exact ⟨own_interest (own.follows alive) (by rw [← drops.interest]; exact listed), alive⟩

/-- The last holder: the connection is destructed. -/
theorem Inv.drop_last (inv : Inv s walk) (known : s.conns c = some r) (alive : r.live = true)
    {s₁ : ServerState} (drops : Drops s s₁ walk c) (last : s₁.holders c = 0)
    {interest : Int → Option Nat} (handlers : Int → Bool) {h : Handler}
    (fd : h.fd = r.handler.fd) (gone : h.index = .new)
    (others : ∀ fd, fd ≠ r.handler.fd → interest fd = s.interest fd)
    (unregistered : interest r.handler.fd = none) :
    Inv { s₁ with conns := Function.update s₁.conns c
                    (some { r with ref := r.ref - 1, live := false, handler := h })
                  handlers := handlers, interest := interest
                  destructs := s₁.destructs ++ [c] } walk := by
  have own := inv.conn c r known
  -- without a holder there is no entry, no task and no frame
  have entry : s₁.entry c = 0 := by unfold ServerState.holders at last; omega
  have noTask : destroyTask c ∉ s₁.pendingList := by
    intro task
    have : 0 < s₁.queued c := List.countP_pos_iff.mpr ⟨_, task, by simp [destroyTask]⟩
    unfold ServerState.holders at last
    omega
  have noEntry : ¬ s₁.connections r.handler.fd = some c := by
    rw [ServerState.entry_eq ((congrFun drops.conns c).trans known)] at entry
    intro listed
    simp [listed] at entry
  have closed : ¬ (r.state ≠ .disconnected ∨ s.Closing c) := by
    rw [← own.entry, ← drops.connections]
    exact noEntry
  have state : r.state = .disconnected := by
    by_contra isOpen
    exact closed (.inl isOpen)
  have elsewhere (callbacks) : s₁.current ≠ some (c, callbacks) := by
    intro here
    obtain ⟨here, list⟩ := drops.current callbacks here
    rcases own.kept callbacks here state with closing | task
    · exact closed (.inr closing)
    · exact noTask (list ▸ task)
  have conns : Function.update s₁.conns c
        (some { r with ref := r.ref - 1, live := false, handler := h }) =
      Function.update s.conns c
        (some { r with ref := r.ref - 1, live := false, handler := h }) := by rw [drops.conns]
  have holders : ServerState.holders
      { s₁ with conns := Function.update s₁.conns c
                  (some { r with ref := r.ref - 1, live := false, handler := h })
                handlers := handlers, interest := interest
                destructs := s₁.destructs ++ [c] } c = 0 := by
    rw [← last]
    simp only [ServerState.holders, ServerState.frames, ServerState.queued]
    rw [ServerState.entry_eq (Function.update_self ..), entry, fd, if_neg noEntry]
  refine inv.update_own known alive conns fd ?_ ?_ (fun fd _ => congrFun drops.connections fd) ?_
    others ?_ (fun _ _ h => h) drops.code drops.tasks drops.once
  · constructor
    case ref =>
      have count := drops.holders
      have ref := own.ref
      rw [holders]
      show r.ref - 1 = 0
      omega
    case live => simp [holders]
    case destructs =>
      have := own.destructs
      simp only [drops.destructs, List.count_append, this, alive]
      simp
    case entry =>
      rw [fd]
      refine iff_of_false noEntry ?_
      rintro (isOpen | closing)
      · exact isOpen state
      · exact closed (.inr ((drops.closing c).mp closing))
    case closing => exact fun _ => state
    case follows => exact fun h => by cases h
    case watched => exact fun isOpen => absurd state isOpen
    case leftover =>
      intro _ added
      rw [show _ = Index.new from gone] at added
      cases added
    case inputBuffer => exact own.inputBuffer
    case outputBuffer => exact own.outputBuffer
    case destroy => exact fun _ => state
    case active => exact fun active => own.active (drops.active _ active)
    case suffix => exact fun callbacks here => absurd here (elsewhere callbacks)
    case kept => exact fun callbacks here => absurd here (elsewhere callbacks)
    case unclosed => exact fun callbacks here => absurd here (elsewhere callbacks)
  · intro c' ne
    have same := drops.others c' ne
    refine ⟨(Function.update_of_ne ne _ _).trans same.conns, same.queued, same.frames, ?_,
      same.closing, same.destroy, same.active, same.current⟩
    simp only [List.count_append, List.count_singleton, same.destructs]
    simp [Ne.symm ne]
  · intro c' listed
    exact inv.own_entry known alive (by rw [← drops.connections]; exact listed)
  · intro c' listed
    have none : interest r.handler.fd = some c' := listed
    rw [unregistered] at none
    cases none

/-- What `conn_ref_dec` does when a holder lets go. -/
theorem Inv.drop (inv : Inv s walk) (known : s.conns c = some r) (alive : r.live = true)
    {s₁ : ServerState} (drops : Drops s s₁ walk c) :
    ∃ s', s₁.connRefDec c = .ok s' ∧ Inv s' walk ∧ s'.code = s₁.code ∧
      s'.pendingList = s₁.pendingList ∧ s'.phase = s₁.phase := by
  have own := inv.conn c r known
  have known₁ : s₁.conns c = some r := (congrFun drops.conns c).trans known
  have count := drops.holders
  have ref := own.ref
  by_cases last : s₁.holders c = 0
  · have zero : r.ref - 1 = 0 := by omega
    let removed := Epoller.removeHandler { handlers := s₁.handlers, requests := [] }
      { r.handler with addToLoop := false }
    obtain ⟨qs, requested, requests⟩ : ∃ qs, removed.1.requests = [] ++ qs ∧
        Requests (fun _ => c) s.interest r.handler removed.2 qs :=
      (own.follows alive).removeHandler _ _ rfl rfl
    have destructed : s₁.connRefDec c = .ok
        { s₁ with conns := Function.update s₁.conns c
                    (some { r with ref := r.ref - 1, live := false, handler := removed.2 })
                  handlers := removed.1.handlers
                  interest := Function.update (removed.1.requests.foldl (epollCtl fun _ => c)
                    s₁.interest) r.handler.fd none
                  destructs := s₁.destructs ++ [c] } := by
      simp only [ServerState.connRefDec, ServerState.conn_eq known₁ alive, bind, Except.bind,
        ConnRec.connRefDec, alive, zero]
      rfl
    refine ⟨_, destructed, inv.drop_last known alive drops last _ requests.fd rfl ?_ ?_, rfl, rfl,
      rfl⟩
    · intro fd other
      rw [Function.update_of_ne other, requested, List.nil_append, drops.interest]
      exact requests.other (Ne.symm other)
    · exact Function.update_self ..
  · have more : r.ref - 1 ≠ 0 := by omega
    have stays : (true && decide (r.ref - 1 ≠ 0)) = true := by simp [more]
    have counted : s₁.connRefDec c = .ok
        { s₁ with conns := Function.update s₁.conns c (some { r with ref := r.ref - 1 }) } := by
      simp only [ServerState.connRefDec, ServerState.conn_eq known₁ alive, bind, Except.bind,
        ConnRec.connRefDec, alive, stays, if_true]
      rfl
    exact ⟨_, counted, inv.drop_shared known alive drops last, rfl, rfl, rfl⟩

/-- The end of a frame. -/
theorem Inv.release {rest : List Stmt} (inv : Inv s walk) (code : s.code = .connRefDec c :: rest) :
    ∃ s', ({ s with code := rest } : ServerState).connRefDec c = .ok s' ∧ Inv s' walk ∧
      s'.code = rest ∧ s'.pendingList = s.pendingList ∧ s'.phase = s.phase := by
  have frame : 0 < s.frames c := by simp [ServerState.frames, code]
  cases known : s.conns c with
  | none =>
      have := (inv.unborn c known).frames
      omega
  | some r =>
      have alive := (inv.conn c r known).alive_of_frame (by simp [code])
      have closing (c' : Nat) :
          ServerState.Closing { s with code := rest } c' ↔ s.Closing c' := by
        simp [ServerState.Closing, code]
      refine inv.drop known alive ⟨rfl, rfl, rfl, rfl, ?_, closing, ?_, id, fun _ h => h,
        fun _ here => ⟨here, rfl⟩, ?_, inv.tasks, inv.once⟩
      · simp only [ServerState.holders, ServerState.frames, ServerState.queued, ServerState.entry,
          code, List.count_cons_self]
        ring
      · intro c' ne
        refine ⟨rfl, rfl, ?_, rfl, closing c', Iff.rfl, id, fun _ h => h⟩
        simp [ServerState.frames, code, Ne.symm ne]
      · simpa [code, CodeInv] using inv.code

/-- `remove_conn`: the entry goes, a frame and the task that destroys the connection come. -/
theorem Inv.remove {rest : List Stmt} (inv : Inv s walk)
    (code : s.code = .closeCallback c :: rest) :
    ∃ s', ({ s with code := rest } : ServerState).removeConn c = .ok s' ∧ Inv s' walk ∧
      s'.phase = s.phase ∧ s'.pendingList = s.pendingList ++ [destroyTask c] := by
  have closing : s.Closing c := by simp [ServerState.Closing, code]
  cases known : s.conns c with
  | none => exact absurd closing (inv.unborn c known).closing
  | some r =>
  have own := inv.conn c r known
  have alive := own.alive_of_open known (.inr closing)
  have listed := own.entry.mpr (.inr closing)
  obtain ⟨frame, once, inner⟩ : .connRefDec c ∈ rest ∧ .closeCallback c ∉ rest ∧
      CodeInv rest := by simpa [code, CodeInv] using inv.code
  -- the entry and the frame of `connection_handler_close` hold the connection
  have more : r.ref - 1 ≠ 0 := by
    have held : 0 < s.frames c := List.count_pos_iff.mpr (by simp [code, frame])
    have := own.ref
    rw [ServerState.holders, ServerState.entry_eq known, if_pos listed] at this
    omega
  have removed : ({ s with code := rest } : ServerState).removeConn c = .ok
      { s with connections := Function.update s.connections r.handler.fd none
               conns := Function.update s.conns c (some { r with ref := r.ref + 1 })
               code := .connRefDec c :: rest
               pendingList := s.pendingList ++ [destroyTask c] } := by
    simp [ServerState.removeConn, ServerState.conn, known, alive, bind, Except.bind, pure,
      Except.pure, ServerState.connRefDec, ConnRec.connRefDec, more, ServerState.put,
      ServerState.gpRunInLoop, ServerState.connRefInc, ConnRec.connRefInc, ServerState.push,
      ServerState.pendingFunc, ServerState.gpQueueInLoop, destroyTask]
  have holders : ServerState.holders
      { s with connections := Function.update s.connections r.handler.fd none
               conns := Function.update s.conns c (some { r with ref := r.ref + 1 })
               code := .connRefDec c :: rest
               pendingList := s.pendingList ++ [destroyTask c] } c = s.holders c + 1 := by
    simp only [ServerState.holders, ServerState.entry_eq known, if_pos listed, ServerState.frames,
      ServerState.queued, code, List.countP_append, List.count_cons_self]
    rw [ServerState.entry_eq (Function.update_self ..)]
    simp [destroyTask]
    ring
  have closes (c' : Nat) (ne : c' ≠ c) : .closeCallback c' ∈ Stmt.connRefDec c :: rest ↔
      s.Closing c' := by simp [ServerState.Closing, code, ne]
  refine ⟨_, removed, ?_, rfl, rfl⟩
  refine inv.update_own known alive rfl rfl ?_ ?_ (fun fd other => Function.update_of_ne other _ _)
    ?_ (fun _ _ => rfl) (fun c' there => ⟨own_interest (own.follows alive) there, alive⟩)
    (fun _ _ h => h) inner ?_ inv.once
  · have state := own.closing closing
    have notClosing : ¬ ServerState.Closing
        { s with connections := Function.update s.connections r.handler.fd none
                 conns := Function.update s.conns c (some { r with ref := r.ref + 1 })
                 code := .connRefDec c :: rest
                 pendingList := s.pendingList ++ [destroyTask c] } c := by
      simpa [ServerState.Closing] using once
    constructor
    case ref =>
      rw [holders, own.ref]
      push_cast
      ring
    case live =>
      rw [holders]
      simp [alive]
    case destructs => exact own.destructs
    case entry =>
      refine iff_of_false (by simp) ?_
      rintro (isOpen | again)
      · exact isOpen state
      · exact notClosing again
    case closing => exact fun _ => state
    case follows => exact own.follows
    case watched => exact own.watched
    case leftover => exact own.leftover
    case inputBuffer => exact own.inputBuffer
    case outputBuffer => exact own.outputBuffer
    case destroy => exact fun _ => state
    case active => exact own.active
    case suffix => exact own.suffix
    case kept => exact fun _ _ _ => .inr (by simp)
    case unclosed => exact own.unclosed
  · intro c' ne
    refine ⟨Function.update_of_ne ne _ _, ?_, ?_, rfl, closes c' ne, ?_, id, fun _ h => h⟩
    · simp [ServerState.queued, List.countP_append, destroyTask, Ne.symm ne]
    · simp [ServerState.frames, code, Ne.symm ne]
    · simp [destroyTask, ne]
  · intro c' there
    have gone : Function.update s.connections r.handler.fd none r.handler.fd = some c' := there
    rw [Function.update_self] at gone
    cases gone
  · intro t task
    rcases List.mem_append.mp task with old | new
    · exact inv.tasks t old
    · rw [List.mem_singleton.mp new]
      trivial

/-! ## Phases -/

/-- The loop goes on: what is said of the connection at hand is said of the new phase. -/
theorem Inv.setPhase (inv : Inv s walk) (phase : Phase)
    (active : ∀ c, .conn c ∈ ServerState.active { s with phase := phase } →
      ∃ r, s.conns c = some r ∧ r.state ≠ .disconnected)
    (once : (ServerState.active { s with phase := phase }).Nodup ∧ ∀ c callbacks,
      ServerState.current { s with phase := phase } = some (c, callbacks) →
        .conn c ∉ ServerState.active { s with phase := phase })
    (handling : ∀ c callbacks, ServerState.current { s with phase := phase } = some (c, callbacks) →
      ∃ r, s.conns c = some r ∧ callbacks <:+ handleEvent r.revents ∧
        (r.state = .disconnected → s.Closing c ∨ destroyTask c ∈ s.pendingList) ∧
        ((.close ∈ callbacks ∨ .read ∈ callbacks ∧ hungUp r.revents = false) →
          r.state ≠ .disconnected)) :
    Inv { s with phase := phase } walk where
  conn c r known := by
    have own := inv.conn c r known
    have here (callbacks) (h : ServerState.current { s with phase := phase } =
        some (c, callbacks)) : callbacks <:+ handleEvent r.revents ∧
        (r.state = .disconnected → s.Closing c ∨ destroyTask c ∈ s.pendingList) ∧
        ((.close ∈ callbacks ∨ .read ∈ callbacks ∧ hungUp r.revents = false) →
          r.state ≠ .disconnected) := by
      obtain ⟨r', known', facts⟩ := handling c callbacks h
      rw [known] at known'
      cases known'
      exact facts
    exact { own with
      active := fun h => by
        obtain ⟨r', known', isOpen⟩ := active c h
        rw [known] at known'
        cases known'
        exact isOpen
      suffix := fun callbacks h => (here callbacks h).1
      kept := fun callbacks h => (here callbacks h).2.1
      unclosed := fun callbacks h => (here callbacks h).2.2 }
  unborn c unknown := { inv.unborn c unknown with
    active := fun h => by
      obtain ⟨r, known, _⟩ := active c h
      rw [unknown] at known
      cases known
    current := fun callbacks h => by
      obtain ⟨r, known, _⟩ := handling c callbacks h
      rw [unknown] at known
      cases known }
  entries := inv.entries
  registered := inv.registered
  distinct := inv.distinct
  code := inv.code
  tasks := inv.tasks
  once := once

/-- A handler that waits for its turn belongs to an open connection. -/
theorem Inv.active_open (inv : Inv s walk) (there : .conn c ∈ s.active) :
    ∃ r, s.conns c = some r ∧ r.state ≠ .disconnected := by
  cases known : s.conns c with
  | none => exact absurd there (inv.unborn c known).active
  | some r => exact ⟨r, rfl, (inv.conn c r known).active there⟩

/-- A phase in which no connection is at hand. -/
theorem Inv.leave (inv : Inv s walk) (phase : Phase)
    (active : (ServerState.active { s with phase := phase }).Sublist s.active)
    (current : ServerState.current { s with phase := phase } = none) :
    Inv { s with phase := phase } walk := by
  refine inv.setPhase phase (fun c there => inv.active_open (active.subset there))
    ⟨inv.once.1.sublist active, ?_⟩ ?_
  · simp [current]
  · simp [current]

/-- What the acceptor keeps for itself. -/
theorem Inv.acceptor (inv : Inv s walk) (listening : Bool) (revents : Mask) :
    Inv { s with listening := listening, acceptorRevents := revents } walk where
  conn c r known := (inv.conn c r known).of_same known
    ⟨rfl, rfl, rfl, rfl, Iff.rfl, Iff.rfl, id, fun _ h => h⟩ Iff.rfl (fun _ => rfl) id
  unborn c unknown := (inv.unborn c unknown).of_same
    ⟨rfl, rfl, rfl, rfl, Iff.rfl, Iff.rfl, id, fun _ h => h⟩
  entries := inv.entries
  registered := inv.registered
  distinct := inv.distinct
  code := inv.code
  tasks := inv.tasks
  once := inv.once

/-- More tasks are walked when tasks are appended. -/
theorem walked_append {c : Nat} (phase : s'.phase = s.phase) {tasks : List Task}
    (list : s'.pendingList = s.pendingList ++ tasks) (there : destroyTask c ∈ s.walked) :
    destroyTask c ∈ s'.walked := by
  unfold ServerState.walked at there ⊢
  rw [phase, list]
  cases phase₀ : s.phase with
  | timers => simp [phase₀] at there
  | events handling active =>
      simp only [phase₀] at there
      exact List.mem_append_left _ there
  | pending reached =>
      simp only [phase₀] at there
      have more : s.pendingList.take reached <+: (s.pendingList ++ tasks).take reached := by
        rw [List.take_append]
        exact List.prefix_append _ _
      obtain ⟨rest, split⟩ := more
      show destroyTask c ∈ ((s.pendingList ++ tasks).take reached).tail
      rw [← split]
      cases front : s.pendingList.take reached with
      | nil => simp [front] at there
      | cons t ts =>
          rw [front] at there
          exact List.mem_append_left _ there

end GpBase.Server

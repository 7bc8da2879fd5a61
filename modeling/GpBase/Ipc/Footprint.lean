import GpBase.Buffer.Growth
import GpBase.Ipc.Session

/-!
# The memory of a session

What waits in the input buffer of a connection whose peer does not hurry is less than two
frames, so the block behind it stays small, however long the connection lives.
-/

namespace GpBase.Codec

open GpBase.Lib GpBase.Buffer

section Consuming

variable {pb : ProtobufC} {pbMap : CString → Option pb.Desc} {b b' : GpBuffer}

/-- `decode` consumes and does not write. -/
theorem decode_consumed (wf : b.WF) {msg : Option pb.Msg} (decoded : decode pbMap b = .ok (b', msg)) :
    Consumed b b' := by
  obtain ⟨magic, _, rest⟩ := bind_eq_ok decoded
  split at rest
  · cases rest
    exact wf.consumed_retrieveAll
  obtain ⟨be, _, rest⟩ := bind_eq_ok rest
  dsimp only at rest
  split at rest
  · cases rest
    exact wf.consumed_retrieveAll
  split at rest
  · -- behind the header
    have eight := wf.consumed_retrieve 8
    obtain ⟨⟨b₁, nameLen⟩, integer, rest⟩ := bind_eq_ok rest
    rw [GpBuffer.readInt32, eight.wf.readInt_eq] at integer
    split at integer
    swap
    · cases integer
    cases integer
    have twelve := eight.trans (eight.wf.consumed_retrieve 4)
    obtain ⟨⟨b₂, name⟩, string, rest⟩ := bind_eq_ok rest
    rw [twelve.wf.readStr_eq] at string
    split at string
    swap
    · cases string
    cases string
    have named : ∀ n, Consumed b (((b.retrieve 8).retrieve 4).retrieve n) :=
      fun n => twelve.trans (twelve.wf.consumed_retrieve n)
    dsimp only at rest
    split at rest
    · cases rest
      exact (named _).trans (named _).wf.consumed_retrieveAll
    · rw [(named _).wf.readPbMsg_eq] at rest
      split at rest
      · cases rest
        exact (named _).trans ((named _).wf.consumed_retrieve _)
      · cases rest
  · cases rest
    exact wf.consumed

theorem onMessage_consumed {Callback : Type} {getMsgCallback : CString → Option Callback}
    (wf : b.WF) {out : Option (Dispatch pb Callback)}
    (called : onMessage pbMap getMsgCallback b = .ok (b', out)) : Consumed b b' := by
  unfold onMessage at called
  split at called
  · obtain ⟨⟨b₁, msg⟩, decoded, rest⟩ := bind_eq_ok called
    cases rest
    exact decode_consumed wf decoded
  · cases called
    exact wf.consumed

end Consuming

/-! ## How much waits -/

/-- The longest frame that `decode` takes. -/
def maxFrame : Nat := 65536 + 8

/-- Fewer bytes than one frame more than have ended. -/
theorem lt_completed {pb : ProtobufC} (lawful : pb.Lawful) {todo : List pb.Msg}
    (legal : ∀ msg ∈ todo, lenField pb msg ≤ 65536) {n : Nat} (sent : n ≤ (frames pb todo).length) :
    n < (completed pb todo n + 1) * maxFrame := by
  induction todo generalizing n with
  | nil =>
      have none : n = 0 := Nat.le_zero.mp sent
      rw [none]
      exact Nat.zero_lt_succ _
  | cons msg rest ih =>
      have size := frameLayout_length lawful msg
      have small := legal msg List.mem_cons_self
      rw [frames, List.flatMap_cons, List.length_append] at sent
      rw [completed]
      unfold maxFrame at ih ⊢
      split
      · have behind := ih (fun m member => legal m (List.mem_cons_of_mem _ member))
          (show n - (frameLayout pb msg).length ≤ (frames pb rest).length by
            unfold frames
            omega)
        omega
      · omega

/-- Of a stream of which `n + k` frames have ended and `n` have been dispatched, less than
`k + 1` frames wait. -/
theorem waiting_lt {pb : ProtobufC} (lawful : pb.Lawful) {pbMap : CString → Option pb.Desc}
    {msgs : List pb.Msg} (receivable : Receivable pbMap msgs) {n k : Nat} {bs : List UInt8}
    (count : n ≤ msgs.length) (sent : frames pb (msgs.take n) ++ bs <+: frames pb msgs)
    (ended : completed pb msgs (frames pb (msgs.take n) ++ bs).length ≤ n + k) :
    bs.length < (k + 1) * maxFrame := by
  have legal : ∀ msg ∈ msgs.drop n, lenField pb msg ≤ 65536 :=
    fun msg member => (receivable msg (List.mem_of_mem_drop member)).2
  have start : bs <+: frames pb (msgs.drop n) := by
    have whole : frames pb msgs = frames pb (msgs.take n) ++ frames pb (msgs.drop n) := by
      rw [← frames_append, List.take_append_drop]
    rwa [whole, List.prefix_append_right_inj] at sent
  have behind := lt_completed lawful legal start.length_le
  rw [List.length_append, completed_take msgs _ n count] at ended
  have few : completed pb (msgs.drop n) bs.length + 1 ≤ k + 1 := by omega
  exact behind.trans_le (Nat.mul_le_mul_right maxFrame few)

end GpBase.Codec

namespace GpBase.Ipc

open GpBase.Lib GpBase.Buffer GpBase.Codec GpBase.Conn

section

variable {pb : ProtobufC} {Callback : Type} {app : Application pb Callback}
  (junk : Nat → UInt8) {pbMap : CString → Option pb.Desc}
  {getMsgCallback : CString → Option Callback} {msgs : List pb.Msg} {s s' : Session pb Callback}

/-- `on_message` leaves the size of the block. -/
theorem Session.onMessage_len (wf : s.inputBuffer.WF) {ws : Nat → WriteResult}
    (ran : s.onMessage app junk pbMap getMsgCallback ws = .ok s') :
    s'.inputBuffer.len = s.inputBuffer.len := by
  obtain ⟨⟨b, out⟩, called, rest⟩ := bind_eq_ok ran
  have kept := (onMessage_consumed wf called).len
  cases out with
  | none =>
      cases rest
      exact kept
  | some d =>
      obtain ⟨conn, _, rest⟩ := bind_eq_ok rest
      cases rest
      exact kept

/-- A read event leaves the size of the block, or makes it little more than what waits. -/
theorem Session.read_len (wf : s.inputBuffer.WF) {r : ReadResult} {ws : Nat → WriteResult}
    (ran : s.connectionHandlerRead app junk pbMap getMsgCallback r ws = .ok s') :
    s'.inputBuffer.len = s.inputBuffer.len ∨
      s'.inputBuffer.len < s.inputBuffer.readable.length + (taken s.inputBuffer r).length +
        maxFrame := by
  obtain ⟨⟨b, n, e⟩, read, rest⟩ := bind_eq_ok ran
  obtain ⟨wf', readable⟩ : b.WF ∧ b.readable = s.inputBuffer.readable ++ taken s.inputBuffer r := by
    cases r with
    | error errno =>
        cases read
        exact ⟨wf, (List.append_nil _).symm⟩
    | data avail =>
        obtain ⟨_, same, wf', readable⟩ := wf.bufferReadFd_data junk avail 0
        cases same.symm.trans read
        exact ⟨wf', readable⟩
  have kept : s'.inputBuffer.len = b.len := by
    dsimp only at rest
    split at rest
    · exact Session.onMessage_len junk wf' rest
    · split at rest
      · cases rest
        rfl
      · cases rest
        rfl
  have grown := wf.bufferReadFd_len read
  rw [readable, List.length_append] at grown
  rw [kept]
  unfold extrabufSize kCheapPrepend at grown
  unfold maxFrame
  omega

/-- **The input of a session stays small.** In every run with an unhurried peer the block
behind the input buffer has less than the bytes of three frames, however long the connection
lives. -/
theorem session_stays_small (lawful : pb.Lawful) (receivable : Receivable pbMap msgs)
    {events : List SessionEvent}
    (run : ((sessionSys app junk pbMap getMsgCallback).restrict
      fun s ev => Orderly msgs s ev ∧ Unhurried msgs s ev).Run events s) :
    s.inputBuffer.readable.length < maxFrame ∧ s.inputBuffer.len < 3 * maxFrame := by
  have waits : ∀ {events s}, ((sessionSys app junk pbMap getMsgCallback).restrict
      fun s ev => Orderly msgs s ev ∧ Unhurried msgs s ev).Run events s → ∀ (k : Nat) more,
      s.received ++ more <+: frames pb msgs →
      completed pb msgs (s.received ++ more).length ≤ completed pb msgs s.received.length + k →
      (s.inputBuffer.readable ++ more).length < (k + 1) * maxFrame := by
    intro events s run k more sent ended
    have input := (Serving.of_run junk lawful receivable run).input
    have bytes : s.received ++ more = frames pb (msgs.take (completed pb msgs s.received.length)) ++
        (s.inputBuffer.readable ++ more) := by
      rw [← List.append_assoc]
      exact congrArg (· ++ more) input.bytes
    rw [bytes] at sent ended
    exact waiting_lt lawful receivable input.count sent ended
  constructor
  · have none := waits run 0 [] (by
      rw [List.append_nil]
      exact (Serving.of_run junk lawful receivable run).sent) (by rw [List.append_nil]; omega)
    rw [List.append_nil] at none
    omega
  · refine run.invariant (I := fun _ s => s.inputBuffer.len < 3 * maxFrame) ?_ ?_
    · intro s fresh
      have fresh : (sessionSys app junk pbMap getMsgCallback).init s := fresh
      rw [fresh.2.2.2.1]
      show kCheapPrepend + kInitialSize < 3 * maxFrame
      decide
    · intro events s ev s' before small step
      have serving := Serving.of_run junk lawful receivable before
      obtain ⟨⟨orderly, unhurried⟩, connected, ran⟩ := step
      cases ev with
      | writable w =>
          obtain ⟨conn, _, rest⟩ := bind_eq_ok ran
          cases rest
          exact small
      | readable r ws =>
          obtain same | grown := Session.read_len junk serving.input.wf ran
          · omega
          · -- at most one frame and a part of one wait before the callback
            have two := waits before 1 _ orderly.1 unhurried
            rw [List.length_append] at two
            omega

/-- After a `Ping`. -/
theorem session_stays_small_ping :
    ∃ s : Session pingProto Unit, s.received = frameLayout pingProto (5 : Fin 128) ∧
      s.inputBuffer.readable.length < 65544 ∧ s.inputBuffer.len < 196632 := by
  obtain ⟨s, run, received, _⟩ := echo_run
  exact ⟨s, received, session_stays_small (fun _ => 0) pingProto_lawful ping_receivable run⟩

end

end GpBase.Ipc

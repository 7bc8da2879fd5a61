import GpBase.Codec.Stream

/-!
# Frames left waiting

`on_message` and `handle_ssl_msg` decode one frame for each read event. A read
event that completes two frames leaves the second one in the buffer until the
peer sends something more. The receiver keeps up with the stream exactly when
every read event completes at most one frame.
-/

namespace GpBase.Codec

open GpBase.Lib GpBase.Buffer

/-- The servers that install a frame-decoding `message_callback`. -/
inductive Server
  | ipc
  | ssl

section Deliver

variable {pb : ProtobufC} {Callback : Type} (junk : Nat → UInt8)
  (pbMap : CString → Option pb.Desc) (getMsgCallback : CString → Option Callback)

/-- `conn->message_callback` -/
def Server.messageCallback :
    Server → GpBuffer → Except Fault (GpBuffer × Option (Dispatch pb Callback))
  | .ipc => onMessage pbMap getMsgCallback
  | .ssl => handleSslMsg pbMap getMsgCallback

/-- One read event: the bytes read go to the input buffer and the callback runs
once. The chunk is empty when the read fails: its `-1` counts as `n > 0`. -/
def Receiver.readEvent (server : Server) (r : Receiver pb Callback) (chunk : List UInt8) :
    Except Fault (Receiver pb Callback) := do
  let b ← r.buffer.bufferAppend junk chunk
  let (b, out) ← server.messageCallback pbMap getMsgCallback b
  return { buffer := b, dispatched := r.dispatched ++ out.toList }

/-- The read events of a connection with a fresh input buffer. -/
def deliver (server : Server) (chunks : List (List UInt8)) :
    Except Fault (Receiver pb Callback) :=
  chunks.foldlM (Receiver.readEvent junk pbMap getMsgCallback server)
    { buffer := .initGpBuffer junk, dispatched := [] }

theorem readEvent_eq (server : Server) (r : Receiver pb Callback) (chunk : List UInt8) :
    r.readEvent junk pbMap getMsgCallback server chunk =
      r.step junk pbMap getMsgCallback (.append chunk) >>= fun r =>
        r.step junk pbMap getMsgCallback .onMessage := by
  have same : server.messageCallback pbMap getMsgCallback = onMessage pbMap getMsgCallback := by
    cases server <;> rfl
  simp only [Receiver.readEvent, Receiver.step, same, bind_assoc, pure_bind]

end Deliver

/-! ## How many frames have ended -/

section Completed

variable (pb : ProtobufC)

/-- The number of frames that end within the first `n` bytes of the stream. -/
def completed : List pb.Msg → Nat → Nat
  | [], _ => 0
  | msg :: rest, n =>
    if (frameLayout pb msg).length ≤ n then
      completed rest (n - (frameLayout pb msg).length) + 1
    else 0

/-- The length of what the first `k` read events deliver. -/
def arrived (chunks : List (List UInt8)) (k : Nat) : Nat := (chunks.take k).flatten.length

/-- No read event completes more than one frame. -/
def Paced (msgs : List pb.Msg) (chunks : List (List UInt8)) : Prop :=
  ∀ k < chunks.length,
    completed pb msgs (arrived chunks (k + 1)) ≤ completed pb msgs (arrived chunks k) + 1

/-- The number of messages dispatched after `k` read events. -/
def handled (msgs : List pb.Msg) (chunks : List (List UInt8)) : Nat → Nat
  | 0 => 0
  | k + 1 =>
    if handled msgs chunks k < completed pb msgs (arrived chunks (k + 1)) then
      handled msgs chunks k + 1
    else handled msgs chunks k

variable {pb}

theorem completed_take (msgs : List pb.Msg) (m n : Nat) (inRange : n ≤ msgs.length) :
    completed pb msgs ((frames pb (msgs.take n)).length + m) =
      n + completed pb (msgs.drop n) m := by
  induction msgs generalizing n with
  | nil =>
      have zero : n = 0 := by simpa using inRange
      simp [zero, frames]
  | cons msg rest ih =>
      cases n with
      | zero => simp [frames]
      | succ n =>
          have tail := ih n (by simpa using inRange)
          -- the first frame is taken off both sides
          have split : (frames pb ((msg :: rest).take (n + 1))).length + m =
              (frameLayout pb msg).length + ((frames pb (rest.take n)).length + m) := by
            simp [frames]
            omega
          rw [split, completed, if_pos (Nat.le_add_right _ _), Nat.add_sub_cancel_left, tail,
            List.drop_succ_cons]
          omega

theorem completed_mono (msgs : List pb.Msg) {m n : Nat} (longer : m ≤ n) :
    completed pb msgs m ≤ completed pb msgs n := by
  induction msgs generalizing m n with
  | nil => simp [completed]
  | cons msg rest ih =>
      simp only [completed]
      split
      · rw [if_pos (by omega)]
        exact Nat.succ_le_succ (ih (by omega))
      · exact Nat.zero_le _

theorem completed_all (msgs : List pb.Msg) :
    completed pb msgs (frames pb msgs).length = msgs.length := by
  have all := completed_take msgs 0 msgs.length (Nat.le_refl _)
  simpa [completed] using all

/-- The readable bytes start with a whole frame when one has ended in them. -/
theorem hasFrame_iff_completed (lawful : pb.Lawful) {todo : List pb.Msg}
    (legal : ∀ msg ∈ todo, lenField pb msg ≤ 65536) {bs : List UInt8}
    (start : bs <+: frames pb todo) : HasFrame bs ↔ 0 < completed pb todo bs.length := by
  cases todo with
  | nil =>
      rw [frames, List.flatMap_nil, List.prefix_nil] at start
      simp [start, HasFrame, completed]
  | cons msg rest =>
      rw [frames, List.flatMap_cons] at start
      have small := legal msg List.mem_cons_self
      by_cases complete : (frameLayout pb msg).length ≤ bs.length
      · obtain ⟨left, split⟩ :=
          List.prefix_of_prefix_length_le (List.prefix_append _ _) start complete
        have frame : HasFrame bs := split ▸ hasFrame_frame lawful small left
        simp [completed, complete, frame]
      · obtain ⟨missing, cut⟩ :=
          List.prefix_of_prefix_length_le start (List.prefix_append _ _) (by omega)
        have incomplete : missing ≠ [] := by
          intro none
          rw [none, List.append_nil] at cut
          simp [cut] at complete
        simp [completed, complete, not_hasFrame_of_cut lawful small cut incomplete]

theorem arrived_mono (chunks : List (List UInt8)) {k k' : Nat} (later : k ≤ k') :
    arrived chunks k ≤ arrived chunks k' := by
  unfold arrived
  rw [← List.take_append_drop k (chunks.take k'), List.take_take, Nat.min_eq_left later,
    List.flatten_append, List.length_append]
  exact Nat.le_add_right _ _

theorem handled_le (msgs : List pb.Msg) (chunks : List (List UInt8)) (k : Nat) :
    handled pb msgs chunks k ≤ completed pb msgs (arrived chunks k) := by
  induction k with
  | zero => exact Nat.zero_le _
  | succ k ih =>
      have more := completed_mono msgs (arrived_mono chunks (Nat.le_add_right k 1))
      rw [handled]
      split <;> omega

/-- Dispatching keeps up at every read event exactly when the stream is paced. -/
theorem handled_iff_paced (msgs : List pb.Msg) (chunks : List (List UInt8)) :
    (∀ k ≤ chunks.length,
      handled pb msgs chunks k = completed pb msgs (arrived chunks k)) ↔
      Paced pb msgs chunks := by
  have empty : completed pb msgs (arrived chunks 0) = 0 := by
    cases msgs with
    | nil => rfl
    | cons msg rest => simp [arrived, completed, frameLayout]
  constructor
  · intro upToDate k inRange
    rw [← upToDate (k + 1) inRange, ← upToDate k (by omega), handled]
    split <;> omega
  · -- induction over the read events: no more than one frame is ever behind
    intro paced k inRange
    induction k with
    | zero => rw [empty, handled]
    | succ k ih =>
        have before := ih (by omega)
        have one := paced k inRange
        have more := completed_mono msgs (arrived_mono chunks (Nat.le_add_right k 1))
        rw [handled]
        split <;> omega

end Completed

/-! ## Read events -/

section Events

variable {pb : ProtobufC} {Callback : Type} (junk : Nat → UInt8)
  {pbMap : CString → Option pb.Desc} (getMsgCallback : CString → Option Callback)

/-- A frame waits in the buffer when fewer messages have been dispatched than
frames have ended. -/
theorem InStep.hasFrame_iff (lawful : pb.Lawful) {msgs : List pb.Msg}
    (receivable : Receivable pbMap msgs) {bytes : List UInt8} {r : Receiver pb Callback}
    {n : Nat} (h : InStep getMsgCallback msgs bytes r n) (sent : bytes <+: frames pb msgs) :
    HasFrame r.buffer.readable ↔ n < completed pb msgs bytes.length := by
  have legal : ∀ msg ∈ msgs.drop n, lenField pb msg ≤ 65536 :=
    fun msg hmsg => (receivable msg (List.mem_of_mem_drop hmsg)).2
  rw [hasFrame_iff_completed lawful legal (h.start getMsgCallback sent), h.bytes,
    List.length_append, completed_take msgs _ n h.count]
  omega

/-- One read event dispatches the next message if its frame has ended. -/
theorem InStep.readEvent (lawful : pb.Lawful) {msgs : List pb.Msg}
    (receivable : Receivable pbMap msgs) (server : Server) {bytes chunk : List UInt8}
    {r : Receiver pb Callback} {n : Nat} (h : InStep getMsgCallback msgs bytes r n)
    (sent : bytes ++ chunk <+: frames pb msgs) :
    ∃ r', r.readEvent junk pbMap getMsgCallback server chunk = .ok r' ∧
      InStep getMsgCallback msgs (bytes ++ chunk) r'
        (if n < completed pb msgs (bytes ++ chunk).length then n + 1 else n) := by
  obtain ⟨r₁, appended, h₁⟩ := h.append junk getMsgCallback pbMap chunk
  obtain ⟨r₂, called, h₂⟩ := h₁.onMessage junk getMsgCallback lawful receivable sent
  refine ⟨r₂, ?_, ?_⟩
  · rw [readEvent_eq, appended]
    exact called
  · simpa only [h₁.hasFrame_iff getMsgCallback lawful receivable sent] using h₂

theorem deliver_inStep (lawful : pb.Lawful) {msgs : List pb.Msg}
    (receivable : Receivable pbMap msgs) (server : Server) (chunks : List (List UInt8))
    (cut : chunks.flatten = frames pb msgs) (k : Nat) (inRange : k ≤ chunks.length) :
    ∃ r, deliver junk pbMap getMsgCallback server (chunks.take k) = .ok r ∧
      InStep getMsgCallback msgs (chunks.take k).flatten r (handled pb msgs chunks k) := by
  induction k with
  | zero =>
      refine ⟨_, rfl, .init junk, Nat.zero_le _, rfl, ?_⟩
      rw [GpBuffer.readable_init]
      rfl
  | succ k ih =>
      obtain ⟨r, before, h⟩ := ih (by omega)
      -- read event `k`
      have next : chunks.take (k + 1) = chunks.take k ++ [chunks[k]] :=
        List.take_succ_eq_append_getElem inRange
      have bytes : (chunks.take (k + 1)).flatten = (chunks.take k).flatten ++ chunks[k] := by
        rw [next, List.flatten_append, List.flatten_singleton]
      have sent : (chunks.take k).flatten ++ chunks[k] <+: frames pb msgs := by
        rw [← bytes, ← cut]
        exact ⟨(chunks.drop (k + 1)).flatten, by
          rw [← List.flatten_append, List.take_append_drop]⟩
      obtain ⟨r', read, h'⟩ := h.readEvent junk getMsgCallback lawful receivable server sent
      refine ⟨r', ?_, ?_⟩
      · rw [next, deliver, List.foldlM_append, ← deliver, before]
        change (Receiver.readEvent junk pbMap getMsgCallback server r chunks[k] >>= pure) = .ok r'
        rw [read]
        rfl
      · rw [← bytes] at h'
        exact h'

/-- **Frames left waiting.** Registered, size-legal messages are sent and their
stream is cut into read events in any way. After each event the input buffer
holds no complete frame, and at the end every message has been dispatched, if
and only if no read event completes more than one frame. -/
theorem no_frame_waits_iff_paced (lawful : pb.Lawful) (beyond : UInt8) (server : Server)
    (msgs : List pb.Msg) (receivable : Receivable pbMap msgs) (chunks : List (List UInt8))
    (cut : chunks.flatten = msgs.flatMap fun msg => (encode pb junk beyond msg).frame) :
    ((∀ k ≤ chunks.length, ∃ r,
        deliver junk pbMap getMsgCallback server (chunks.take k) = .ok r ∧
          ¬ HasFrame r.buffer.readable) ∧
      ∃ r, deliver junk pbMap getMsgCallback server chunks = .ok r ∧
        r.dispatched.map (·.msg) = msgs) ↔
      Paced pb msgs chunks := by
  rw [receivable.encoded junk lawful beyond] at cut
  have sent : ∀ k, (chunks.take k).flatten <+: frames pb msgs := by
    intro k
    rw [← cut]
    exact ⟨(chunks.drop k).flatten, by rw [← List.flatten_append, List.take_append_drop]⟩
  rw [← handled_iff_paced]
  constructor
  · intro ⟨keptUp, _⟩ k inRange
    obtain ⟨r, ran, h⟩ :=
      deliver_inStep junk getMsgCallback lawful receivable server chunks cut k inRange
    obtain ⟨r', ran', none⟩ := keptUp k inRange
    rw [ran, Except.ok.injEq] at ran'
    subst ran'
    -- no frame waits: as many are dispatched as have ended
    rw [h.hasFrame_iff getMsgCallback lawful receivable (sent k)] at none
    have bound := handled_le msgs chunks k
    unfold arrived at bound ⊢
    omega
  · intro upToDate
    refine ⟨?_, ?_⟩
    · intro k inRange
      obtain ⟨r, ran, h⟩ :=
        deliver_inStep junk getMsgCallback lawful receivable server chunks cut k inRange
      refine ⟨r, ran, ?_⟩
      rw [h.hasFrame_iff getMsgCallback lawful receivable (sent k), upToDate k inRange, arrived]
      exact Nat.lt_irrefl _
    · obtain ⟨r, ran, h⟩ :=
        deliver_inStep junk getMsgCallback lawful receivable server chunks cut _ (Nat.le_refl _)
      -- all frames have ended, so all messages have been dispatched
      have all := upToDate _ (Nat.le_refl _)
      rw [arrived, List.take_length, cut, completed_all] at all
      rw [List.take_length] at ran
      refine ⟨r, ran, ?_⟩
      rw [h.dispatched, all, List.take_length, List.map_map]
      exact (List.map_congr_left fun _ _ => rfl).trans (List.map_id _)

end Events

/-- The frame of a `Ping`. -/
def pingFrame (id : Fin 128) : List UInt8 := (encode pingProto (fun _ => 0) 0 id).frame

theorem pings_receivable : Receivable (fun _ => some () : CString → Option pingProto.Desc)
    [(5 : Fin 128), (6 : Fin 128)] := fun _ _ => ⟨rfl, show 11 ≤ 65536 by decide⟩

/-- Two `Ping`s, each in a read event of its own. -/
theorem no_frame_waits_iff_paced_pings :
    ∃ r : Receiver pingProto Unit,
      deliver (fun _ => 0) (fun _ => some ()) (fun _ => none) .ipc
        [pingFrame 5, pingFrame 6] = .ok r ∧
      r.dispatched.map (·.msg) = [(5 : Fin 128), (6 : Fin 128)] := by
  have paced : Paced pingProto [(5 : Fin 128), (6 : Fin 128)] [pingFrame 5, pingFrame 6] := by
    intro k inRange
    match k, inRange with
    | 0, _ => exact Nat.le_of_ble_eq_true rfl
    | 1, _ => exact Nat.le_of_ble_eq_true rfl
  exact ((no_frame_waits_iff_paced (fun _ => 0) (fun _ => (none : Option Unit)) pingProto_lawful
    0 .ipc [(5 : Fin 128), (6 : Fin 128)] pings_receivable [pingFrame 5, pingFrame 6]
    rfl).mpr paced).2

theorem deliver_two_pings (server : Server) :
    ∃ r : Receiver pingProto Unit,
      deliver (fun _ => 0) (fun _ => some ()) (fun _ => none) server
        [pingFrame 5 ++ pingFrame 6] = .ok r ∧
      HasFrame r.buffer.readable ∧ r.dispatched.map (·.msg) = [(5 : Fin 128)] := by
  have cut : [pingFrame 5 ++ pingFrame 6].flatten =
      frames pingProto [(5 : Fin 128), (6 : Fin 128)] := by
    rw [← pings_receivable.encoded (fun _ => 0) pingProto_lawful 0]
    rfl
  obtain ⟨r, ran, h⟩ := deliver_inStep (fun _ => 0) (fun _ => (none : Option Unit))
    pingProto_lawful pings_receivable server [pingFrame 5 ++ pingFrame 6] cut 1 (Nat.le_refl 1)
  have one : handled pingProto [(5 : Fin 128), (6 : Fin 128)] [pingFrame 5 ++ pingFrame 6] 1 = 1 :=
    rfl
  have two : completed pingProto [(5 : Fin 128), (6 : Fin 128)]
      ([pingFrame 5 ++ pingFrame 6].take 1).flatten.length = 2 := rfl
  rw [one] at h
  refine ⟨r, ran, ?_, by rw [h.dispatched]; rfl⟩
  rw [h.hasFrame_iff _ pingProto_lawful pings_receivable (cut ▸ List.prefix_refl _), two]
  exact Nat.one_lt_two

/-- Two `Ping`s that arrive together: either server dispatches the first and
leaves the second, complete, in its buffer. -/
theorem coalesced_pings_wait :
    (∃ r : Receiver pingProto Unit,
      deliver (fun _ => 0) (fun _ => some ()) (fun _ => none) .ipc
        [pingFrame 5 ++ pingFrame 6] = .ok r ∧
      HasFrame r.buffer.readable ∧ r.dispatched.map (·.msg) = [(5 : Fin 128)]) ∧
    ∃ r : Receiver pingProto Unit,
      deliver (fun _ => 0) (fun _ => some ()) (fun _ => none) .ssl
        [pingFrame 5 ++ pingFrame 6] = .ok r ∧
      HasFrame r.buffer.readable ∧ r.dispatched.map (·.msg) = [(5 : Fin 128)] :=
  ⟨deliver_two_pings .ipc, deliver_two_pings .ssl⟩

end GpBase.Codec

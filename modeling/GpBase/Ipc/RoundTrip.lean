import GpBase.Codec.Fragments
import GpBase.Ipc.Session
import GpBase.Sync.Transfer

/-!
# A request and its answer

`send_msg_and_recv` of `gp_sync_client.c` against a session of the message server: the client
writes the frame of a request with `send_all_sync`, the server cuts what arrives into read
events and answers, and the client reads the answer.
-/

namespace GpBase.Ipc

open GpBase.Lib GpBase.Buffer GpBase.Codec GpBase.Conn GpBase.Sync

variable {pb : ProtobufC} {Callback : Type}

/-- The server knows the type of the request and has a callback that answers it with the frame
of one message, and the client knows the type of that message. -/
structure Exchange (app : Application pb Callback) (serverMap clientMap : CString → Option pb.Desc)
    (getMsgCallback : CString → Option Callback) (junk : Nat → UInt8) (beyond : UInt8)
    (req resp : pb.Msg) : Prop where
  receivable : Receivable serverMap [req]
  answered : app.answer (dispatchOf getMsgCallback req) = [(encode pb junk beyond resp).frame]
  known : clientMap (pb.name (pb.descriptor resp)) = some (pb.descriptor resp)
  small : lenField pb resp ≤ 65536

/-- One frame is never more than one at a time. -/
theorem unhurried_single (req : pb.Msg) (s : Session pb Callback) (ev : SessionEvent) :
    Unhurried [req] s ev := by
  have one : ∀ m, completed pb [req] m ≤ 1 := by
    intro m
    simp only [completed]
    split <;> omega
  have bound := one (s.received ++ arriving s ev).length
  rw [Unhurried]
  omega

/-- **A request comes back answered.** The client writes the frame of a request with
`send_all_sync` and is told that all is written. However the frame is cut into read events,
however short the writes of the server are and however the answer arrives behind its header:
once the server has received the frame and its output buffer is empty, `send_msg_and_recv`
returns the message with which the callback answered. -/
theorem request_answered (lawful : pb.Lawful) {app : Application pb Callback}
    {serverMap clientMap : CString → Option pb.Desc}
    {getMsgCallback : CString → Option Callback} {junk : Nat → UInt8} {beyond : UInt8}
    {req resp : pb.Msg}
    (exchange : Exchange app serverMap clientMap getMsgCallback junk beyond req resp)
    {peer : Peer false} {n total : Int} {fuel : Nat} {log : List Int}
    (sent : sendAllSync peer (encode pb junk beyond req).frame.length n fuel =
      some (0, total, log))
    {events : List SessionEvent} {s : Session pb Callback}
    (run : ((sessionSys app junk serverMap getMsgCallback).restrict (Orderly [req])).Run events s)
    (delivered : s.received = (encode pb junk beyond req).frame.take total.toNat)
    (drained : s.conn.outputBuffer.readable = []) {p : Nat → Nat} (progress : ∀ i, 1 ≤ p i)
    (whole : HeaderWhole pb resp p) (g : Garbage) (closed : Bool) :
    (sendMsgAndRecv clientMap g true (inPieces s.conn.accepted p closed)).result =
      some (some resp) := by
  have legal := (exchange.receivable req List.mem_cons_self).2
  have received : s.received = frames pb [req] := by
    rw [delivered, sendAllSync_whole peer sent, Int.toNat_natCast, List.take_length,
      encode_frame junk beyond lawful req (by omega)]
    simp [frames]
  -- the request has been served, and nothing of the answer is queued
  have serving := Serving.of_run junk lawful exchange.receivable
    (run.weaken fun s ev orderly => ⟨orderly, unhurried_single req s ev⟩)
  have stream := serving.stream
  have small := exchange.small
  rw [received, completed_all, List.take_length, GpConnection.stream, drained,
    List.append_nil] at stream
  have wire : s.conn.accepted = frameLayout pb resp := by
    rw [stream, serve, List.flatMap_singleton, exchange.answered, List.flatten_singleton,
      encode_frame junk beyond lawful resp (by omega)]
  rw [wire]
  exact sendMsgAndRecv_whole lawful exchange.known exchange.small progress whole g

/-! ## An exchange of pings -/

/-- A `POLLOUT` event whose `write()` takes all that is queued. -/
theorem connectionHandlerWrite_drains {c : GpConnection} (wf : c.outputBuffer.WF) {k : Nat}
    (all : c.outputBuffer.readable.length ≤ min k writeMax) :
    ∃ c', c.connectionHandlerWrite (.wrote k) = .ok c' ∧ c'.outputBuffer.readable = [] := by
  have peeked := wf.peekAt_eq 0 c.outputBuffer.readableBytes (by rw [wf.readable_length]; simp)
  rw [List.drop_zero, ← wf.readable_length, List.take_length] at peeked
  have few : c.outputBuffer.readable.length ≤ 0x7ffff000 := all.trans (Nat.min_le_right _ _)
  unfold GpConnection.connectionHandlerWrite GpConnection.write
  rw [← wf.readable_length]
  simp only [peeked, bind, Except.bind, pure, Except.pure, List.take_of_length_le all]
  rw [sizeT_of_nonneg (by omega) (by omega), Int.toNat_natCast]
  have emptied : (c.outputBuffer.retrieve c.outputBuffer.readable.length).readable = [] := by
    rw [wf.readable_retrieve, List.drop_length]
  by_cases some_ : 0 < c.outputBuffer.readable.length
  · rw [if_pos some_]
    refine ⟨_, rfl, ?_⟩
    split
    · rw [GpConnection.outputDrained_outputBuffer]
      exact emptied
    · exact emptied
  · rw [if_neg some_]
    exact ⟨_, rfl, List.eq_nil_of_length_eq_zero (Nat.eq_zero_of_not_pos some_)⟩

/-- A socket that takes everything. -/
def ready : Peer false where
  reply _ left := left
  valid _ _ some_ := .inr (.inl ⟨some_, le_refl _⟩)

theorem ping_exchange : Exchange echo (fun _ => some ()) pingMap (fun _ => some ()) (fun _ => 0) 0
    (5 : Fin 128) (5 : Fin 128) where
  receivable := ping_receivable
  answered := rfl
  known := rfl
  small := show 11 ≤ 65536 by decide

/-- The answer to a `Ping` is written in two parts and read byte by byte behind its header. -/
theorem request_answered_ping :
    ∃ s : Session pingProto Unit,
      (sendMsgAndRecv pingMap (.zeros []) true
        (inPieces s.conn.accepted (fun i => if i < 4 then 5 else 1) true)).result =
      some (some (5 : Fin 128)) := by
  obtain ⟨s, run, received, connected, wf⟩ := echo_run
  have stream := (Serving.of_run (fun _ => 0) pingProto_lawful ping_receivable run).stream
  have queued : s.conn.outputBuffer.readable.length ≤ min 100 writeMax := by
    rw [received] at stream
    have length : s.conn.stream.length = 19 := (congrArg List.length stream).trans (by decide)
    rw [GpConnection.stream, List.length_append] at length
    exact le_min (by omega) (by unfold writeMax; omega)
  obtain ⟨c, wrote, drained⟩ := connectionHandlerWrite_drains wf queued
  have ran : s.exec echo (fun _ => 0) (fun _ => some ()) (fun _ => some ())
      (.writable (.wrote 100)) = .ok { s with conn := c } := by
    show (s.conn.connectionHandlerWrite (.wrote 100) >>= fun c => pure { s with conn := c }) = _
    rw [wrote]
    rfl
  have run' := (run.weaken fun _ _ both => both.1).step ⟨⟨rfl, .inl ⟨100, rfl⟩⟩, connected, ran⟩
  have frame : (encode pingProto (fun _ => 0) 0 (5 : Fin 128)).frame =
      frameLayout pingProto (5 : Fin 128) :=
    encode_frame _ _ pingProto_lawful _ (by decide)
  have progress : ∀ i, 1 ≤ (fun i => if i < 4 then 5 else 1) i := by
    intro i
    dsimp only
    split <;> omega
  have whole : HeaderWhole pingProto (5 : Fin 128) (fun i => if i < 4 then 5 else 1) :=
    ⟨by decide, by decide, by decide, by decide, List.cons_ne_nil _ _⟩
  have sent : sendAllSync ready (encode pingProto (fun _ => 0) 0 (5 : Fin 128)).frame.length 0 2 =
      some (0, 19, [19]) := by
    rw [frame]
    decide
  refine ⟨{ s with conn := c }, ?_⟩
  exact request_answered pingProto_lawful ping_exchange sent run'
    (by rw [received, frame]; rfl) drained progress whole (.zeros []) true

end GpBase.Ipc

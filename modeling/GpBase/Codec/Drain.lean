import GpBase.Codec.Pacing
import GpBase.Lib.Outcome

/-!
# The draining server

`on_message` of `guish_server.c` decodes frames as long as eight bytes are readable. It gets
ahead of coalesced frames, but a frame of which the header has arrived and the end has not
keeps it in the loop: `decode` leaves such a frame alone.
-/

namespace GpBase.Codec

open GpBase.Lib GpBase.Buffer

section

variable {pb : ProtobufC} {Callback : Type} (pbMap : CString → Option pb.Desc)
  (getMsgCallback : CString → Option Callback)

/-- `handle_msg`, run by the task that the loop submits and waits for. -/
def handleMsg (msg : pb.Msg) : Dispatch pb Callback :=
  { callback := getMsgCallback (pb.name (pb.descriptor msg)), msg := msg }

/-- `on_message` of the draining server; `none` when `fuel` rounds are not enough. -/
def drain : Nat → GpBuffer → Except Fault (Option (GpBuffer × List (Dispatch pb Callback)))
  | 0, _ => .ok none
  | fuel + 1, b =>
    if 8 ≤ b.readableBytes then do
      let (b, msg) ← decode pbMap b
      let rest ← drain fuel b
      return rest.map fun (b, ds) => (b, (msg.map (handleMsg getMsgCallback)).toList ++ ds)
    else .ok (some (b, []))

variable {pbMap}

/-- `decode` on a stream of frames: it takes the first frame, or leaves what there is of it. -/
theorem decode_stream (lawful : pb.Lawful) {todo : List pb.Msg}
    (receivable : Receivable pbMap todo) {b : GpBuffer} (wf : b.WF)
    (start : b.readable <+: frames pb todo) (header : 8 ≤ b.readable.length) :
    (completed pb todo b.readable.length = 0 ∧ ∃ b', decode pbMap b = .ok (b', none) ∧ b'.WF ∧
      b'.readable = b.readable) ∨
    ∃ msg rest b', todo = msg :: rest ∧ decode pbMap b = .ok (b', some msg) ∧ b'.WF ∧
      b.readable = frameLayout pb msg ++ b'.readable := by
  cases todo with
  | nil =>
      rw [frames, List.flatMap_nil, List.prefix_nil] at start
      simp [start] at header
  | cons msg rest =>
      obtain ⟨registered, small⟩ := receivable msg List.mem_cons_self
      rw [frames, List.flatMap_cons] at start
      by_cases complete : (frameLayout pb msg).length ≤ b.readable.length
      · obtain ⟨left, split⟩ :=
          List.prefix_of_prefix_length_le (List.prefix_append _ _) start complete
        have decoded := decodeBytes_frame pbMap lawful registered small left
        rw [split] at decoded
        obtain ⟨fault, _, same⟩ | ⟨b', left', msg', result, same, wf', readable⟩ :=
          decode_spec pbMap wf header
        · cases decoded.symm.trans same
        · cases decoded.symm.trans same
          exact .inr ⟨msg, rest, b', rfl, result, wf', by rw [readable, split]⟩
      · obtain ⟨missing, cut⟩ :=
          List.prefix_of_prefix_length_le start (List.prefix_append _ _) (by omega)
        have incomplete : missing ≠ [] := by
          intro none
          rw [none, List.append_nil] at cut
          simp [cut] at complete
        have decoded := decodeBytes_partial pbMap lawful small cut incomplete header
        obtain ⟨fault, _, same⟩ | ⟨b', left', msg', result, same, wf', readable⟩ :=
          decode_spec pbMap wf header
        · cases decoded.symm.trans same
        · cases decoded.symm.trans same
          exact .inl ⟨by simp [completed, complete], b', result, wf', readable⟩

/-- A frame whose header has arrived and whose end has not. -/
theorem drain_stuck (lawful : pb.Lawful) {todo : List pb.Msg} (receivable : Receivable pbMap todo)
    (fuel : Nat) : ∀ {b : GpBuffer}, b.WF → b.readable <+: frames pb todo →
      8 ≤ b.readable.length → completed pb todo b.readable.length = 0 →
      drain pbMap getMsgCallback fuel b = .ok none := by
  induction fuel with
  | zero =>
      intro b _ _ _ _
      rfl
  | succ fuel ih =>
      intro b wf start header none
      obtain ⟨_, b', decoded, wf', same⟩ | ⟨msg, rest, b', first, _, _, split⟩ :=
        decode_stream lawful receivable wf start header
      · rw [← same] at start header none
        rw [drain, if_pos (by rw [← wf.readable_length, ← same]; exact header), decoded]
        simp only [bind, Except.bind, ih wf' start header none]
        rfl
      · rw [first, split, completed, if_pos (by simp)] at none
        cases none

/-- What the first `n` bytes of a stream leave behind their last whole frame. -/
def behindFrames (todo : List pb.Msg) (bs : List UInt8) : List UInt8 :=
  bs.drop (frames pb (todo.take (completed pb todo bs.length))).length

theorem behindFrames_cons (msg : pb.Msg) (rest : List pb.Msg) (bs : List UInt8) :
    behindFrames (msg :: rest) (frameLayout pb msg ++ bs) = behindFrames rest bs := by
  have count : completed pb (msg :: rest) (frameLayout pb msg ++ bs).length =
      completed pb rest bs.length + 1 := by
    simp [completed]
  unfold behindFrames
  rw [count, List.take_succ_cons, frames, List.flatMap_cons, List.length_append,
    ← List.drop_drop, List.drop_left]
  rfl

/-- The rounds of the loop, one for each whole frame. -/
theorem drain_rounds (lawful : pb.Lawful) (todo : List pb.Msg) :
    ∀ {b : GpBuffer}, Receivable pbMap todo → b.WF → b.readable <+: frames pb todo →
      ((behindFrames todo b.readable).length < 8 ∧
        ∃ b', drain pbMap getMsgCallback (completed pb todo b.readable.length + 1) b =
            .ok (some (b', (todo.take (completed pb todo b.readable.length)).map
              (dispatchOf getMsgCallback))) ∧
          b'.readable = behindFrames todo b.readable) ∨
      (8 ≤ (behindFrames todo b.readable).length ∧
        ∀ fuel, drain pbMap getMsgCallback fuel b = .ok none) := by
  induction todo with
  | nil =>
      intro b _ wf start
      rw [frames, List.flatMap_nil, List.prefix_nil] at start
      have short : ¬ 8 ≤ b.readableBytes := by
        rw [← wf.readable_length, start]
        decide
      refine .inl ⟨by simp [behindFrames, start], b, ?_, by simp [behindFrames, start]⟩
      rw [start]
      show drain pbMap getMsgCallback 1 b = _
      rw [drain, if_neg short]
      rfl
  | cons msg rest ih =>
      intro b receivable wf start
      by_cases header : 8 ≤ b.readable.length
      · obtain ⟨none, _⟩ | ⟨msg', rest', b', first, decoded, wf', split⟩ :=
          decode_stream lawful receivable wf start header
        · refine .inr ⟨?_, fun fuel => drain_stuck getMsgCallback lawful receivable fuel wf start
            header none⟩
          simpa [behindFrames, none, frames] using header
        · cases first
          have receivable' : Receivable pbMap rest :=
            fun msg member => receivable msg (List.mem_cons_of_mem _ member)
          have start' : b'.readable <+: frames pb rest := by
            rw [split, frames, List.flatMap_cons] at start
            exact (List.prefix_append_right_inj _).mp start
          have round : ∀ fuel, drain pbMap getMsgCallback (fuel + 1) b =
              (drain pbMap getMsgCallback fuel b').map (Option.map fun (b, ds) =>
                (b, dispatchOf getMsgCallback msg :: ds)) := by
            intro fuel
            rw [drain, if_pos (by rw [← wf.readable_length]; exact header), decoded]
            simp only [bind, Except.bind]
            cases drain pbMap getMsgCallback fuel b' <;> rfl
          have count : completed pb (msg :: rest) b.readable.length =
              completed pb rest b'.readable.length + 1 := by
            rw [split]
            simp [completed]
          rw [split, behindFrames_cons, ← split, count]
          obtain ⟨short, b'', drained, left⟩ | ⟨long, stuck⟩ := ih receivable' wf' start'
          · refine .inl ⟨short, b'', ?_, left⟩
            rw [round, drained]
            rfl
          · refine .inr ⟨long, fun fuel => ?_⟩
            cases fuel with
            | zero => rfl
            | succ fuel =>
                rw [round, stuck]
                rfl
      · -- less than a header: the loop does not start
        have small := (receivable msg List.mem_cons_self).2
        have none : completed pb (msg :: rest) b.readable.length = 0 := by
          have frameLength := frameLayout_length lawful msg
          rw [completed, if_neg (by omega)]
        have behind : behindFrames (msg :: rest) b.readable = b.readable := by
          simp [behindFrames, none, frames]
        rw [behind, none]
        refine .inl ⟨by omega, b, ?_, rfl⟩
        rw [drain, if_neg (by rw [← wf.readable_length]; exact header)]
        rfl

/-- More rounds do not change how the loop ends. -/
theorem drain_more (fuel k : Nat) : ∀ {b : GpBuffer},
    drain pbMap getMsgCallback fuel b ≠ .ok none →
      drain pbMap getMsgCallback (fuel + k) b = drain pbMap getMsgCallback fuel b := by
  induction fuel with
  | zero =>
      intro b ended
      exact absurd rfl ended
  | succ fuel ih =>
      intro b ended
      rw [Nat.succ_add]
      rw [drain] at ended
      rw [drain, drain]
      split at ended
      · next more =>
          rw [if_pos more, if_pos more]
          cases decoded : decode pbMap b with
          | error fault => rfl
          | ok r =>
              have later : drain pbMap getMsgCallback fuel r.1 ≠ .ok none := by
                intro running
                apply ended
                simp only [decoded, bind, Except.bind, running]
                rfl
              simp only [bind, Except.bind, ih later]
      · next done => rw [if_neg done, if_neg done]

/-- **When the draining server comes back.** The readable bytes are the start of a stream of
registered, size-legal frames. `on_message` returns exactly when fewer than eight bytes lie
behind the last whole frame, and then it has dispatched all whole frames in order and left
the rest alone; otherwise it loops for ever, without a fault. -/
theorem drain_returns_iff (lawful : pb.Lawful) {todo : List pb.Msg}
    (receivable : Receivable pbMap todo) {b : GpBuffer} (wf : b.WF)
    (start : b.readable <+: frames pb todo) :
    ((∃ fuel r, drain pbMap getMsgCallback fuel b = .ok (some r)) ↔
      (behindFrames todo b.readable).length < 8) ∧
    ∀ fuel, drain pbMap getMsgCallback fuel b = .ok none ∨
      ∃ b' ds, drain pbMap getMsgCallback fuel b = .ok (some (b', ds)) ∧
        b'.readable = behindFrames todo b.readable ∧
        ds.map (·.msg) = todo.take (completed pb todo b.readable.length) := by
  obtain ⟨short, b', drained, left⟩ | ⟨long, stuck⟩ :=
    drain_rounds getMsgCallback lawful todo receivable wf start
  · refine ⟨iff_of_true ⟨_, _, drained⟩ short, fun fuel => ?_⟩
    by_cases running : drain pbMap getMsgCallback fuel b = .ok none
    · exact .inl running
    · right
      -- with the rounds of both, the loop ends as it does with those of either
      have here := drain_more getMsgCallback fuel (completed pb todo b.readable.length + 1) running
      have there := drain_more getMsgCallback (completed pb todo b.readable.length + 1) fuel
        (b := b) (by rw [drained]; simp)
      rw [Nat.add_comm, here] at there
      refine ⟨b', _, there.trans drained, left, ?_⟩
      rw [List.map_map]
      exact (List.map_congr_left fun _ _ => rfl).trans (List.map_id _)
  · refine ⟨iff_of_false ?_ (by omega), fun fuel => .inl (stuck fuel)⟩
    intro ⟨fuel, r, drained⟩
    rw [stuck] at drained
    cases drained

end

/-- The header of a second `Ping` has arrived: the server does not come back. -/
theorem drain_returns_iff_pings :
    ∃ b : GpBuffer, b.readable = frameLayout pingProto (5 : Fin 128) ++
        (frameLayout pingProto (6 : Fin 128)).take 8 ∧
      ¬ ∃ fuel r, drain (fun _ => some () : CString → Option pingProto.Desc)
        (fun _ => (none : Option Unit)) fuel b = .ok (some r) := by
  obtain ⟨b, _, wf, readable⟩ := (GpBuffer.WF.init fun _ => 0).bufferAppend_spec (fun _ => 0)
    (frameLayout pingProto (5 : Fin 128) ++ (frameLayout pingProto (6 : Fin 128)).take 8)
  rw [GpBuffer.readable_init, List.nil_append] at readable
  have start : b.readable <+: frames pingProto [(5 : Fin 128), (6 : Fin 128)] := by
    rw [readable]
    exact ⟨(frameLayout pingProto (6 : Fin 128)).drop 8, by decide⟩
  refine ⟨b, readable, ?_⟩
  rw [(drain_returns_iff _ pingProto_lawful pings_receivable wf start).1, readable]
  decide

end GpBase.Codec

import GpBase.Codec.Decode

/-!
# Reassembly of a fragmented stream

The sender concatenates frames, the network cuts the stream anywhere, and the
receiver appends each piece to its buffer and calls `on_message` once. At every
moment the received bytes are the frames of the messages dispatched so far
followed by the readable bytes: nothing is lost, repeated or reordered, and a
frame of which only a part has arrived is left alone.
-/

namespace GpBase.Codec

open GpBase.Lib GpBase.Buffer

section Frames

variable {pb : ProtobufC} (junk : Nat → UInt8) (beyond : UInt8)

/-- The layout of a frame, as the header comment of the codec draws it. -/
def frameLayout (pb : ProtobufC) (msg : pb.Msg) : List UInt8 :=
  be32 magicNumber ++ be32 (lenField pb msg) ++
    be32 ((pb.name (pb.descriptor msg)).bytes.length + 1) ++
    ((pb.name (pb.descriptor msg)).bytes ++ [0]) ++ pb.pack msg

@[simp] theorem be32_length (i : Int) : (be32 i).length = 4 := beBytes_length 4 _

@[simp] theorem be32_take (i : Int) : (be32 i).take 4 = be32 i :=
  List.take_of_length_le (be32_length i).le

theorem beInt_be32 {n : Nat} (small : n < 2 ^ 31) : beInt (be32 n) = n := by
  have same : uint32 n = n := by
    unfold uint32
    omega
  rw [be32, same, beInt_beBytes_four small]

/-- The sizes that `encode` computes in `int`s and `size_t`s, when the total fits an `int`. -/
theorem encode_sizes (msg : pb.Msg) (small : lenField pb msg + 8 < 2 ^ 31) {length : Nat}
    (name : (pb.name (pb.descriptor msg)).bytes.length = length) :
    int32 (pb.packedSize msg) = pb.packedSize msg ∧ int32 (length + 1) = length + 1 ∧
      int32 ((kHeader : Int) + kHeader + kHeader + (length + 1) + pb.packedSize msg) =
        (lenField pb msg + 8 : Nat) ∧
      sizeT ((length : Int) + 1 + 1) = length + 2 ∧ sizeT ((length : Int) + 1) = length + 1 := by
  unfold lenField kHeader at small ⊢
  rw [name] at small ⊢
  refine ⟨int32_of_range (by omega) (by omega), int32_of_range (by omega) (by omega), ?_, ?_, ?_⟩
  · rw [int32_of_range] <;> omega
  · rw [sizeT_of_nonneg] <;> omega
  · rw [sizeT_of_nonneg] <;> omega

/-- `encode` produces the drawn layout: the byte too many that the copy of the
name takes is overwritten by the message or lies behind the frame. -/
theorem encode_frame (lawful : pb.Lawful) (msg : pb.Msg)
    (small : lenField pb msg + 8 < 2 ^ 31) :
    (encode pb junk beyond msg).frame = frameLayout pb msg := by
  set name := (pb.name (pb.descriptor msg)).bytes with nameDef
  obtain ⟨tEq, nameEq, tmpEq, countEq, offEq⟩ := encode_sizes msg small (congrArg _ nameDef.symm)
  have lenEq : ((lenField pb msg + 8 : Nat) : Int) - (kHeader : Int) - (kHeader : Int) =
      lenField pb msg := by
    simp only [kHeader]
    omega
  have total : lenField pb msg + 8 = 4 + 4 + 4 + (name.length + 1) + (pb.pack msg).length := by
    simp only [lenField, kHeader, ← nameDef, lawful.packedSize_eq]
    omega
  simp only [Encoded.frame, encode, ← nameDef, tEq, nameEq, tmpEq, countEq, offEq, lenEq]
  rw [Int.toNat_natCast, total]
  unfold kHeader frameLayout
  -- the five copies, from the last one back
  rw [firstCells_splice _ _ _ (Nat.le_refl _), List.take_length]
  rw [firstCells_splice _ (4 + 4 + 4) _ (by simp)]
  rw [show (4 + 4 + 4 : Nat) = 4 + 4 + (be32 ((name.length : Int) + 1)).length by simp,
    firstCells_splice _ (4 + 4) _ (Nat.le_refl _)]
  rw [show (4 + 4 : Nat) = 4 + (be32 (lenField pb msg)).length by simp,
    firstCells_splice _ 4 _ (Nat.le_refl _)]
  have magic := firstCells_splice junk 0 (be32 magicNumber) (Nat.le_refl _)
  rw [be32_length, Nat.zero_add] at magic
  rw [magic]
  have nameCopy : ((name ++ [0, beyond]).take (name.length + 2)).take (name.length + 1) =
      name ++ [0] := by
    rw [List.take_take, Nat.min_eq_left (Nat.le_succ _),
      show name ++ [0, beyond] = (name ++ [0]) ++ [beyond] by simp]
    exact List.take_left' (by simp)
  rw [nameCopy]
  simp [firstCells, ← nameDef]

end Frames

/-! ## Whole and partial frames -/

section Frame

variable {pb : ProtobufC} (pbMap : CString → Option pb.Desc) {msg : pb.Msg}

/-- The parts of a header that a frame starts with. -/
theorem frameLayout_header (pb : ProtobufC) (msg : pb.Msg)
    (small : lenField pb msg < 2 ^ 31) (rest : List UInt8) :
    beInt ((frameLayout pb msg ++ rest).take 4) = magicNumber ∧
    beInt (((frameLayout pb msg ++ rest).drop 4).take 4) = lenField pb msg := by
  unfold frameLayout
  constructor
  · have magic : beInt (be32 magicNumber) = magicNumber := beInt_be32 (n := 0x1343EA4) (by decide)
    simpa [List.take_append] using magic
  · have len := beInt_be32 (n := lenField pb msg) small
    simpa [List.take_append, List.drop_append] using len

theorem frameLayout_length (lawful : pb.Lawful) (msg : pb.Msg) :
    (frameLayout pb msg).length = lenField pb msg + 8 := by
  simp only [frameLayout, List.length_append, be32_length, List.length_singleton, lenField,
    kHeader, lawful.packedSize_eq]
  omega

/-- A complete frame of a registered type is consumed and gives its message. -/
theorem decodeBytes_frame (lawful : pb.Lawful)
    (registered : pbMap (pb.name (pb.descriptor msg)) = some (pb.descriptor msg))
    (small : lenField pb msg ≤ 65536) (rest : List UInt8) :
    decodeBytes pbMap (frameLayout pb msg ++ rest) = .ok (rest, some msg) := by
  obtain ⟨magic, len⟩ := frameLayout_header pb msg (by omega) rest
  have frameLength := frameLayout_length lawful msg
  have complete : sizeT ((lenField pb msg : Int) + 8) ≤ (frameLayout pb msg ++ rest).length := by
    rw [sizeT_of_nonneg (by omega) (by omega), List.length_append, frameLength]
    omega
  unfold decodeBytes
  simp only [magic, len]
  rw [if_neg (by simp), if_neg (by omega), if_pos complete]
  -- what follows the header
  set name := (pb.name (pb.descriptor msg)).bytes with nameDef
  have body : (frameLayout pb msg ++ rest).drop 8 =
      be32 ((name.length + 1 : Nat) : Int) ++ ((name ++ [0]) ++ (pb.pack msg ++ rest)) := by
    simp [frameLayout, List.drop_append, ← nameDef]
  have nameSmall : name.length + 1 < 2 ^ 31 := by
    rw [lenField, ← nameDef] at small
    omega
  have payload : sizeT (int32 ((lenField pb msg : Int) - 4 - ((name.length + 1 : Nat) : Int))) =
      (pb.pack msg).length := by
    have exact : (lenField pb msg : Int) - 4 - ((name.length + 1 : Nat) : Int) =
        (pb.pack msg).length := by
      simp only [lenField, kHeader, ← nameDef, lawful.packedSize_eq]
      omega
    have bound : (pb.pack msg).length ≤ 65536 := by
      simp only [lenField, lawful.packedSize_eq] at small
      omega
    rw [exact, int32_of_range (by omega) (by omega), sizeT_of_nonneg (by omega) (by omega),
      Int.toNat_natCast]
  have nameSize : sizeT ((name.length + 1 : Nat) : Int) = (name ++ [0]).length := by
    rw [sizeT_of_nonneg (by omega) (by omega), Int.toNat_natCast, List.length_append,
      List.length_singleton]
  rw [body]
  unfold decodeBody
  rw [if_pos (by simp)]
  simp only [List.take_left' (be32_length _), List.drop_left' (be32_length _),
    beInt_be32 nameSmall, payload]
  rw [if_pos (by rw [nameSize]; simp), List.take_left' nameSize.symm,
    List.drop_left' nameSize.symm, nameDef, CString.ofBytes_append_nul, registered]
  simp [lawful.unpack_pack]

/-- A header that announces no more bytes than have been received. -/
def HasFrame (bs : List UInt8) : Prop :=
  8 ≤ bs.length ∧ beInt (bs.take 4) = magicNumber ∧
    0 ≤ beInt ((bs.drop 4).take 4) ∧ beInt ((bs.drop 4).take 4) ≤ 65536 ∧
    beInt ((bs.drop 4).take 4) + 8 ≤ bs.length

instance (bs : List UInt8) : Decidable (HasFrame bs) :=
  inferInstanceAs (Decidable (_ ∧ _))

theorem hasFrame_frame (lawful : pb.Lawful) (small : lenField pb msg ≤ 65536)
    (rest : List UInt8) : HasFrame (frameLayout pb msg ++ rest) := by
  obtain ⟨magic, len⟩ := frameLayout_header pb msg (by omega) rest
  have frameLength := frameLayout_length lawful msg
  refine ⟨?_, magic, ?_, ?_, ?_⟩ <;> simp only [len, List.length_append, frameLength] <;> omega

/-- The header of a frame whose end has not arrived. -/
theorem header_of_cut (small : lenField pb msg ≤ 65536) {bs missing : List UInt8}
    (cut : bs ++ missing = frameLayout pb msg) (header : 8 ≤ bs.length) :
    beInt (bs.take 4) = magicNumber ∧ beInt ((bs.drop 4).take 4) = lenField pb msg := by
  obtain ⟨magic, len⟩ := frameLayout_header pb msg (by omega) []
  rw [List.append_nil, ← cut] at magic len
  rw [List.take_append_of_le_length (by omega)] at magic
  rw [List.drop_append_of_le_length (by omega), List.take_append_of_le_length (by simp; omega)]
    at len
  exact ⟨magic, len⟩

theorem not_hasFrame_of_cut (lawful : pb.Lawful) (small : lenField pb msg ≤ 65536)
    {bs missing : List UInt8} (cut : bs ++ missing = frameLayout pb msg)
    (incomplete : missing ≠ []) : ¬ HasFrame bs := by
  intro ⟨header, _, _, _, complete⟩
  have frameLength := frameLayout_length lawful msg
  have := List.length_pos_of_ne_nil incomplete
  rw [(header_of_cut small cut header).2] at complete
  rw [← cut, List.length_append] at frameLength
  omega

/-- A frame of which only a part has arrived is left untouched. -/
theorem decodeBytes_partial (lawful : pb.Lawful) (small : lenField pb msg ≤ 65536)
    {bs missing : List UInt8} (cut : bs ++ missing = frameLayout pb msg)
    (incomplete : missing ≠ []) (header : 8 ≤ bs.length) :
    decodeBytes pbMap bs = .ok (bs, none) := by
  obtain ⟨magic, len⟩ := header_of_cut small cut header
  have frameLength := frameLayout_length lawful msg
  rw [← cut, List.length_append] at frameLength
  have short : ¬ sizeT ((lenField pb msg : Int) + 8) ≤ bs.length := by
    have := List.length_pos_of_ne_nil incomplete
    rw [sizeT_of_nonneg (by omega) (by omega)]
    omega
  unfold decodeBytes
  simp only [magic, len]
  rw [if_neg (by simp), if_neg (by omega), if_neg short]

end Frame

/-! ## The receiver -/

/-- The receiving end: its input buffer and the callbacks made so far. -/
structure Receiver (pb : ProtobufC) (Callback : Type) where
  buffer : GpBuffer
  dispatched : List (Dispatch pb Callback)

/-- What happens at the receiving end. -/
inductive RecvOp
  | append (chunk : List UInt8)
  | onMessage

/-- Each chunk is appended and `on_message` called once after it. -/
def schedule (chunks : List (List UInt8)) : List RecvOp :=
  chunks.flatMap fun chunk => [.append chunk, .onMessage]

/-- The bytes received in a sequence of events. -/
def received (ops : List RecvOp) : List UInt8 :=
  ops.flatMap fun
    | .append chunk => chunk
    | .onMessage => []

section Receive

variable {pb : ProtobufC} {Callback : Type} (junk : Nat → UInt8)
  (pbMap : CString → Option pb.Desc) (getMsgCallback : CString → Option Callback)

def Receiver.step (r : Receiver pb Callback) : RecvOp → Except Fault (Receiver pb Callback)
  | .append chunk => do
    let b ← r.buffer.bufferAppend junk chunk
    return { r with buffer := b }
  | .onMessage => do
    let (b, out) ← onMessage pbMap getMsgCallback r.buffer
    return { buffer := b, dispatched := r.dispatched ++ out.toList }

/-- The events at a receiver with a fresh buffer. -/
def receive (ops : List RecvOp) : Except Fault (Receiver pb Callback) :=
  ops.foldlM (Receiver.step junk pbMap getMsgCallback)
    { buffer := .initGpBuffer junk, dispatched := [] }

/-- The stream that carries a list of messages. -/
def frames (pb : ProtobufC) (msgs : List pb.Msg) : List UInt8 :=
  msgs.flatMap (frameLayout pb)

/-- The messages that the receiving end can take: registered and size-legal. -/
def Receivable (msgs : List pb.Msg) : Prop :=
  ∀ msg ∈ msgs, pbMap (pb.name (pb.descriptor msg)) = some (pb.descriptor msg) ∧
    lenField pb msg ≤ 65536

variable {pbMap}

/-- `on_message` when the readable bytes start the stream of `todo`: either the
first frame is complete and dispatched, or the readable bytes stay. -/
theorem onMessage_stream (lawful : pb.Lawful) {todo : List pb.Msg}
    (receivable : Receivable pbMap todo) {b : GpBuffer} (wf : b.WF)
    (start : b.readable <+: frames pb todo) :
    (¬ HasFrame b.readable ∧ ∃ b', onMessage pbMap getMsgCallback b = .ok (b', none) ∧ b'.WF ∧
      b'.readable = b.readable) ∨
    (HasFrame b.readable ∧ ∃ msg rest b', todo = msg :: rest ∧
      onMessage pbMap getMsgCallback b = .ok (b', some (dispatchOf getMsgCallback msg)) ∧
      b'.WF ∧ b.readable = frameLayout pb msg ++ b'.readable) := by
  by_cases header : 8 ≤ b.readable.length
  swap
  · exact .inl ⟨fun frame => header frame.1, b,
      onMessage_short pbMap getMsgCallback wf (by omega), wf, rfl⟩
  cases todo with
  | nil =>
      rw [frames, List.flatMap_nil, List.prefix_nil] at start
      simp [start] at header
  | cons msg rest =>
      rw [frames, List.flatMap_cons] at start
      obtain ⟨registered, small⟩ := receivable msg List.mem_cons_self
      by_cases complete : (frameLayout pb msg).length ≤ b.readable.length
      · -- the readable bytes reach past the first frame of `todo`
        right
        obtain ⟨left, split⟩ :=
          List.prefix_of_prefix_length_le (List.prefix_append _ _) start complete
        have decoded := decodeBytes_frame pbMap lawful registered small left
        rw [split] at decoded
        obtain ⟨b', returned, wf', leftover⟩ :=
          onMessage_ok pbMap getMsgCallback wf header decoded
        exact ⟨split ▸ hasFrame_frame lawful small left, msg, rest, b', rfl, returned, wf',
          by rw [leftover, split]⟩
      · -- the first frame is cut, so `decode` waits for the rest
        left
        obtain ⟨missing, cut⟩ :=
          List.prefix_of_prefix_length_le start (List.prefix_append _ _) (by omega)
        have incomplete : missing ≠ [] := by
          rintro rfl
          rw [List.append_nil] at cut
          simp [cut] at complete
        have decoded := decodeBytes_partial pbMap lawful small cut incomplete header
        exact ⟨not_hasFrame_of_cut lawful small cut incomplete,
          onMessage_ok pbMap getMsgCallback wf header decoded⟩

/-- The receiver has dispatched the first `n` messages, and the bytes received
are their frames followed by the readable bytes. -/
structure InStep (msgs : List pb.Msg) (bytes : List UInt8) (r : Receiver pb Callback)
    (n : Nat) : Prop where
  wf : r.buffer.WF
  count : n ≤ msgs.length
  dispatched : r.dispatched = (msgs.take n).map (dispatchOf getMsgCallback)
  bytes : bytes = frames pb (msgs.take n) ++ r.buffer.readable

theorem InStep.append (pbMap : CString → Option pb.Desc) {msgs : List pb.Msg}
    {bytes : List UInt8} {r : Receiver pb Callback} {n : Nat}
    (h : InStep getMsgCallback msgs bytes r n) (chunk : List UInt8) :
    ∃ r', r.step junk pbMap getMsgCallback (.append chunk) = .ok r' ∧
      InStep getMsgCallback msgs (bytes ++ chunk) r' n := by
  obtain ⟨b, appended, wf, back⟩ := h.wf.bufferAppend_spec junk chunk
  refine ⟨{ r with buffer := b }, ?_, wf, h.count, h.dispatched, ?_⟩
  · simp [Receiver.step, appended, bind, Except.bind, pure, Except.pure]
  · rw [h.bytes, back, List.append_assoc]

theorem frames_append (pb : ProtobufC) (l l' : List pb.Msg) :
    frames pb (l ++ l') = frames pb l ++ frames pb l' := List.flatMap_append

/-- The readable bytes start the stream of the messages still to come. -/
theorem InStep.start {msgs : List pb.Msg} {bytes : List UInt8} {r : Receiver pb Callback}
    {n : Nat} (h : InStep getMsgCallback msgs bytes r n)
    (sent : bytes <+: frames pb msgs) : r.buffer.readable <+: frames pb (msgs.drop n) := by
  rw [h.bytes, ← List.take_append_drop n msgs, frames_append, List.take_append_drop] at sent
  exact (List.prefix_append_right_inj _).mp sent

theorem InStep.onMessage (lawful : pb.Lawful) {msgs : List pb.Msg}
    (receivable : Receivable pbMap msgs) {bytes : List UInt8} {r : Receiver pb Callback}
    {n : Nat} (h : InStep getMsgCallback msgs bytes r n) (sent : bytes <+: frames pb msgs) :
    ∃ r', r.step junk pbMap getMsgCallback .onMessage = .ok r' ∧
      InStep getMsgCallback msgs bytes r' (if HasFrame r.buffer.readable then n + 1 else n) := by
  have receivable' : Receivable pbMap (msgs.drop n) :=
    fun msg hmsg => receivable msg (List.mem_of_mem_drop hmsg)
  rcases onMessage_stream getMsgCallback lawful receivable' h.wf
      (h.start getMsgCallback sent) with
    ⟨waiting, b', returned, wf', same⟩ | ⟨frame, msg, rest, b', first, returned, wf', split⟩
  · rw [if_neg waiting]
    refine ⟨{ r with buffer := b' }, ?_, wf', h.count, h.dispatched, by rw [same, h.bytes]⟩
    simp [Receiver.step, returned, bind, Except.bind, pure, Except.pure]
  · -- the `n`-th message is the one dispatched
    have inRange : n < msgs.length := by
      by_contra past
      rw [List.drop_eq_nil_of_le (by omega)] at first
      cases first
    have next : msgs.take (n + 1) = msgs.take n ++ [msg] := by
      rw [List.drop_eq_getElem_cons inRange, List.cons.injEq] at first
      rw [List.take_succ_eq_append_getElem inRange, first.1]
    rw [if_pos frame]
    refine ⟨{ buffer := b', dispatched := r.dispatched ++ [dispatchOf getMsgCallback msg] },
      ?_, wf', inRange, ?_, ?_⟩
    · simp [Receiver.step, returned, bind, Except.bind, pure, Except.pure]
    · simp [next, h.dispatched]
    · rw [h.bytes, next, split, frames, frames, List.flatMap_append]
      simp

/-- Any interleaving of arriving bytes and `on_message` calls keeps the receiver
in step with the sender. -/
theorem receive_inStep (lawful : pb.Lawful) {msgs : List pb.Msg}
    (receivable : Receivable pbMap msgs) (ops : List RecvOp)
    (sent : received ops <+: frames pb msgs) :
    ∃ r n, receive junk pbMap getMsgCallback ops = .ok r ∧
      InStep getMsgCallback msgs (received ops) r n := by
  induction ops using List.reverseRecOn with
  | nil =>
      refine ⟨_, 0, rfl, .init junk, Nat.zero_le _, by simp, ?_⟩
      rw [GpBuffer.readable_init]
      rfl
  | append_singleton ops op ih =>
      -- the last event is the one that is added, as in `foldlM`
      have split : received (ops ++ [op]) = received ops ++ received [op] := by
        simp [received]
      obtain ⟨r, n, before, h⟩ := ih ((split ▸ List.prefix_append _ _).trans sent)
      rw [receive, List.foldlM_append, ← receive, before]
      cases op with
      | append chunk =>
          obtain ⟨r', stepped, h'⟩ := h.append junk getMsgCallback pbMap chunk
          refine ⟨r', n, ?_, ?_⟩
          · simp [bind, Except.bind, stepped]
            rfl
          · rw [split]
            simpa [received] using h'
      | onMessage =>
          have same : received (ops ++ [.onMessage]) = received ops := by
            rw [split]
            simp [received]
          rw [same] at sent ⊢
          obtain ⟨r', stepped, h'⟩ :=
            h.onMessage junk getMsgCallback lawful receivable sent
          refine ⟨r', _, ?_, h'⟩
          simp [bind, Except.bind, stepped]
          rfl

theorem received_schedule (chunks : List (List UInt8)) :
    received (schedule chunks) = chunks.flatten := by
  induction chunks with
  | nil => rfl
  | cons chunk rest ih =>
      rw [List.flatten_cons, ← ih]
      simp [schedule, received]

/-- The encoded frames of receivable messages are their stream. -/
theorem Receivable.encoded (lawful : pb.Lawful) (beyond : UInt8) {msgs : List pb.Msg}
    (receivable : Receivable pbMap msgs) :
    (msgs.flatMap fun msg => (encode pb junk beyond msg).frame) = frames pb msgs := by
  refine List.flatMap_congr fun msg hmsg => ?_
  have small := (receivable msg hmsg).2
  exact encode_frame junk beyond lawful msg (by omega)

/-- **Reassembly.** Messages of registered types with a legal `len` field are
encoded, their frames concatenated, and the stream cut into chunks in any way.
If each chunk is appended to a fresh buffer and `on_message` called once after
it, then at every moment no call has faulted, the messages dispatched so far
are a prefix of those sent, and the bytes received are the frames of that
prefix followed by exactly the readable bytes. -/
theorem stream_reassembled (lawful : pb.Lawful) (beyond : UInt8) (msgs : List pb.Msg)
    (receivable : Receivable pbMap msgs) (chunks : List (List UInt8))
    (cut : chunks.flatten = msgs.flatMap fun msg => (encode pb junk beyond msg).frame)
    (moment : List RecvOp) (reached : moment <+: schedule chunks) :
    ∃ r n, receive junk pbMap getMsgCallback moment = .ok r ∧ n ≤ msgs.length ∧
      r.dispatched.map (·.msg) = msgs.take n ∧
      received moment =
        ((msgs.take n).flatMap fun msg => (encode pb junk beyond msg).frame) ++
          r.buffer.readable := by
  have sent : received moment <+: frames pb msgs := by
    obtain ⟨rest, split⟩ := reached
    rw [← receivable.encoded junk lawful beyond, ← cut, ← received_schedule, ← split]
    exact ⟨received rest, by simp [received]⟩
  obtain ⟨r, n, run, h⟩ := receive_inStep junk getMsgCallback lawful receivable moment sent
  refine ⟨r, n, run, h.count, ?_, ?_⟩
  · rw [h.dispatched, List.map_map]
    exact (List.map_congr_left fun _ _ => rfl).trans (List.map_id _)
  · have taken : Receivable pbMap (msgs.take n) :=
      fun msg hmsg => receivable msg (List.mem_of_mem_take hmsg)
    rw [taken.encoded junk lawful beyond]
    exact h.bytes

end Receive

/-- `message Ping { required uint32 id = 1; }` for ids of one varint byte. -/
def pingProto : ProtobufC where
  Msg := Fin 128
  Desc := Unit
  descriptor _ := ()
  name _ := ⟨[80, 105, 110, 103], by decide⟩
  packedSize _ := 2
  pack id := [8, UInt8.ofNat id]
  unpack _ bytes :=
    match bytes with
    | [8, b] => if h : b.toNat < 128 then some ⟨b.toNat, h⟩ else none
    | _ => none

theorem pingProto_lawful : pingProto.Lawful where
  packedSize_eq _ := rfl
  unpack_pack := by
    intro (id : Fin 128)
    have small : (UInt8.ofNat id).toNat = id := by
      rw [UInt8.toNat_ofNat']
      omega
    simp [pingProto, small]

/-- The bytes of two `Ping`s, of 19 bytes each. -/
def twoPings : List UInt8 :=
  (encode pingProto (fun _ => 0) 0 (5 : Fin 128)).frame ++
    (encode pingProto (fun _ => 0) 0 (9 : Fin 128)).frame

/-- They are cut inside the first and inside the second one: both are dispatched. -/
theorem stream_reassembled_pings :
    ∃ r : Receiver pingProto Unit,
      receive (fun _ => 0) (fun _ => some ()) (fun _ => none)
        (schedule [twoPings.take 10, (twoPings.drop 10).take 20, twoPings.drop 30]) = .ok r ∧
      r.dispatched.map (·.msg) = [(5 : Fin 128), (9 : Fin 128)] := by
  have receivable : Receivable (fun _ => some () : CString → Option pingProto.Desc)
      [(5 : Fin 128), (9 : Fin 128)] := fun _ _ => ⟨rfl, show 11 ≤ 65536 by decide⟩
  have cut : [twoPings.take 10, (twoPings.drop 10).take 20, twoPings.drop 30].flatten =
      [(5 : Fin 128), (9 : Fin 128)].flatMap
        fun msg => (encode pingProto (fun _ => 0) 0 msg).frame := by decide +kernel
  obtain ⟨r, n, run, count, dispatched, _⟩ :=
    stream_reassembled (fun _ => 0) (fun _ => (none : Option Unit)) pingProto_lawful 0
      [(5 : Fin 128), (9 : Fin 128)] receivable
      [twoPings.take 10, (twoPings.drop 10).take 20, twoPings.drop 30] cut _ (List.prefix_refl _)
  have both : (receive (fun _ => 0) (fun _ => some ()) (fun _ => (none : Option Unit))
      (schedule [twoPings.take 10, (twoPings.drop 10).take 20, twoPings.drop 30])).toOption.map
        (fun r : Receiver pingProto Unit => r.dispatched.length) = some 2 := by decide +kernel
  have two : n = 2 := by
    rw [run] at both
    have called : r.dispatched.length = 2 := Option.some.inj both
    have length := congrArg List.length dispatched
    rw [List.length_map, called, List.length_take, Nat.min_eq_left count] at length
    exact length.symm
  exact ⟨r, run, by rw [dispatched, two]; rfl⟩

end GpBase.Codec

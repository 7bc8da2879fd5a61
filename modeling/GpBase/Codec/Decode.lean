import GpBase.Buffer.Spec
import GpBase.Codec.Model

/-!
# Decoding as a function of the received bytes

`decode` looks at the buffer only through its readable bytes. `decodeBytes` is
that function of the bytes, and `decode_spec` the simulation: the same fault,
or the same message with the remaining bytes readable. Everything about frames
is then proved over byte strings.
-/

namespace GpBase.Codec

open GpBase.Lib GpBase.Buffer

section

variable {pb : ProtobufC} (pbMap : CString → Option pb.Desc)

/-- What is decoded from the bytes behind a complete header, `len` being the
announced length. -/
def decodeBody (len : Int) (bs : List UInt8) :
    Except Fault (List UInt8 × Option pb.Msg) :=
  if 4 ≤ bs.length then
    let nameLen := beInt (bs.take 4)
    let rest := bs.drop 4
    if sizeT nameLen ≤ rest.length then
      match pbMap (.ofBytes (rest.take (sizeT nameLen))) with
      | none => .ok ([], none)
      | some desc =>
        let rest := rest.drop (sizeT nameLen)
        let n := sizeT (int32 (len - 4 - nameLen))
        if n ≤ rest.length then .ok (rest.drop n, pb.unpack desc (rest.take n))
        else .error .abort
    else .error .abort
  else .error .abort

/-- `decode` on a byte string of at least eight bytes. -/
def decodeBytes (bs : List UInt8) : Except Fault (List UInt8 × Option pb.Msg) :=
  let len := beInt ((bs.drop 4).take 4)
  if beInt (bs.take 4) ≠ magicNumber then .ok ([], none)
  else if len > 65536 ∨ len < 0 then .ok ([], none)
  else if sizeT (len + 8) ≤ bs.length then decodeBody pbMap len (bs.drop 8)
  else .ok (bs, none)

/-- `b` is left with the bytes and the message that the byte-level function
computes, or with its fault. -/
def Simulates (result : Except Fault (GpBuffer × Option pb.Msg))
    (bytes : Except Fault (List UInt8 × Option pb.Msg)) : Prop :=
  (∃ fault, result = .error fault ∧ bytes = .error fault) ∨
  ∃ b rest msg, result = .ok (b, msg) ∧ bytes = .ok (rest, msg) ∧ b.WF ∧ b.readable = rest

end

/-- A terminating NUL behind the copy does not change the C string. -/
theorem CString.ofBytes_terminated (block : List UInt8) :
    CString.ofBytes (block ++ [0]) = CString.ofBytes block := by
  simp only [CString.ofBytes, CString.mk.injEq]
  induction block with
  | nil => rfl
  | cons c rest ih =>
      by_cases hc : c = 0
      · simp [hc]
      · simp only [List.cons_append, List.takeWhile_cons, ne_eq, hc, not_false_eq_true,
          decide_true, if_true, ih]

/-- The C string of a NUL-terminated copy is the string itself. -/
theorem CString.ofBytes_append_nul (s : CString) (rest : List UInt8) :
    CString.ofBytes (s.bytes ++ 0 :: rest) = s := by
  obtain ⟨bytes, noNul⟩ := s
  simp only [CString.ofBytes, CString.mk.injEq]
  induction bytes with
  | nil => rfl
  | cons c tail ih =>
      simp only [List.mem_cons, not_or] at noNul
      have hc : c ≠ 0 := fun h => noNul.1 h.symm
      simp only [List.cons_append, List.takeWhile_cons, ne_eq, hc, not_false_eq_true,
        decide_true, if_true, ih noNul.2]

section

variable {pb : ProtobufC} (pbMap : CString → Option pb.Desc) {b : GpBuffer}

/-- The part of `decode` behind `retrieve(buffer, 8)`. -/
private def decodeTail (len : Int) (b : GpBuffer) :
    Except Fault (GpBuffer × Option pb.Msg) := do
  let (b, nameLen) ← b.readInt32
  let (b, name) ← b.readStr nameLen
  match pbMap (.ofBytes name) with
  | none => return (b.retrieveAll, none)
  | some desc => b.readPbMsg (pb.unpack desc) (int32 (len - 4 - nameLen))

private theorem decodeTail_spec (len : Int) (wf : b.WF) :
    Simulates (decodeTail pbMap len b) (decodeBody pbMap len b.readable) := by
  unfold decodeTail decodeBody
  rw [GpBuffer.readInt32, wf.readInt_eq]
  by_cases four : 4 ≤ b.readable.length
  swap
  · exact .inl ⟨.abort, by simp only [if_neg four]; rfl, by simp only [if_neg four]⟩
  simp only [if_pos four, bind, Except.bind]
  have wf₁ := wf.retrieve 4
  rw [wf₁.readStr_eq, wf.readable_retrieve]
  generalize beInt (b.readable.take 4) = nameLen
  by_cases named : sizeT nameLen ≤ (b.readable.drop 4).length
  swap
  · exact .inl ⟨.abort, by simp only [if_neg named], by simp only [if_neg named]⟩
  simp only [if_pos named, CString.ofBytes_terminated]
  cases pbMap (.ofBytes ((b.readable.drop 4).take (sizeT nameLen))) with
  | none =>
      exact .inr ⟨_, _, none, rfl, rfl, (wf₁.retrieve _).retrieveAll, by simp⟩
  | some desc =>
      have wf₂ := wf₁.retrieve (sizeT nameLen)
      simp only
      rw [wf₂.readPbMsg_eq, wf₁.readable_retrieve, wf.readable_retrieve]
      split
      · exact .inr ⟨_, _, _, rfl, rfl, wf₂.retrieve _, by
          rw [wf₂.readable_retrieve, wf₁.readable_retrieve, wf.readable_retrieve]⟩
      · exact .inl ⟨.abort, rfl, rfl⟩

/-- `decode` computes `decodeBytes` on the readable bytes. -/
theorem decode_spec (wf : b.WF) (header : 8 ≤ b.readable.length) :
    Simulates (decode pbMap b) (decodeBytes pbMap b.readable) := by
  unfold decode decodeBytes
  rw [GpBuffer.peekInt32, wf.peekInt_eq, if_pos (by omega)]
  simp only [bind, Except.bind, pure, Except.pure]
  split
  · exact .inr ⟨_, _, none, rfl, rfl, wf.retrieveAll, by simp⟩
  rw [wf.peekAt_eq 4 4 (by omega)]
  simp only
  split
  · exact .inr ⟨_, _, none, rfl, rfl, wf.retrieveAll, by simp⟩
  rw [← wf.readable_length]
  split
  · have tail := decodeTail_spec pbMap (beInt ((b.readable.drop 4).take 4)) (wf.retrieve 8)
    rw [wf.readable_retrieve] at tail
    exact tail
  · exact .inr ⟨_, _, none, rfl, rfl, wf, rfl⟩

/-! ## `on_message` -/

variable {Callback : Type} (getMsgCallback : CString → Option Callback)

/-- The dispatch that `on_message` performs for a decoded message. -/
def dispatchOf (msg : pb.Msg) : Dispatch pb Callback :=
  { callback := getMsgCallback (pb.name (pb.descriptor msg)), msg := msg }

/-- With less than a header received `on_message` does nothing. -/
theorem onMessage_short (wf : b.WF) (short : b.readable.length < 8) :
    onMessage pbMap getMsgCallback b = .ok (b, none) := by
  unfold onMessage
  rw [← wf.readable_length, if_neg (by omega)]
  rfl

theorem onMessage_error (wf : b.WF) (header : 8 ≤ b.readable.length) {fault : Fault}
    (bytes : decodeBytes pbMap b.readable = .error fault) :
    onMessage pbMap getMsgCallback b = .error fault := by
  unfold onMessage
  rw [← wf.readable_length, if_pos header]
  rcases decode_spec pbMap wf header with ⟨fault', failed, same⟩ | ⟨_, _, _, _, ok, _⟩
  · rw [bytes, Except.error.injEq] at same
    rw [failed, same]
    rfl
  · rw [bytes] at ok
    cases ok

theorem onMessage_ok (wf : b.WF) (header : 8 ≤ b.readable.length) {rest : List UInt8}
    {msg : Option pb.Msg} (bytes : decodeBytes pbMap b.readable = .ok (rest, msg)) :
    ∃ b', onMessage pbMap getMsgCallback b = .ok (b', msg.map (dispatchOf getMsgCallback)) ∧
      b'.WF ∧ b'.readable = rest := by
  unfold onMessage
  rw [← wf.readable_length, if_pos header]
  rcases decode_spec pbMap wf header with ⟨_, _, same⟩ | ⟨b', _, _, decoded, ok, wf', left⟩
  · rw [bytes] at same
    cases same
  · rw [bytes, Except.ok.injEq, Prod.mk.injEq] at ok
    obtain ⟨rfl, rfl⟩ := ok
    exact ⟨b', by rw [decoded]; rfl, wf', left⟩

end

end GpBase.Codec

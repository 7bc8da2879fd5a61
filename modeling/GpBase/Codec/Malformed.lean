import GpBase.Codec.Stream

/-!
# Malformed frames

`decode` checks that `len` lies in `[0, 65536]` and that so many bytes have
arrived, and then trusts the frame: `name_len` and the payload length that
follows from it go to readers that `abort()` on underflow. `onMessage_survives_iff`
is the exact condition on the received bytes under which `on_message` comes
back; every frame outside it lets a peer kill the process.
-/

namespace GpBase.Codec

open GpBase.Lib GpBase.Buffer

/-! ## The lengths that a peer sends -/

/-- The `len` field of the frame at the start of `bs`. -/
def lenOf (bs : List UInt8) : Int := beInt ((bs.drop 4).take 4)

/-- The `name_len` field. -/
def nameLenOf (bs : List UInt8) : Int := beInt ((bs.drop 8).take 4)

/-- The name, as `read_str` cuts it out and `dictFetchValue` reads it. -/
def nameOf (bs : List UInt8) : CString :=
  .ofBytes ((bs.drop 12).take (nameLenOf bs).toNat)

/-- `bs` starts with a header that `decode` accepts and with all the bytes it
announces. -/
def AcceptedHeader (bs : List UInt8) : Prop :=
  beInt (bs.take 4) = magicNumber ∧ 0 ≤ lenOf bs ∧ lenOf bs ≤ 65536 ∧
    lenOf bs + 8 ≤ bs.length

/-- A frame with an inconsistent length: `len` negative, too large or too short
for the `name_len` field, `name_len` negative, or a name longer than the frame
(a negative payload). -/
def Inconsistent (bs : List UInt8) : Prop :=
  beInt (bs.take 4) = magicNumber ∧
    (lenOf bs < 4 ∨ 65536 < lenOf bs ∨
      (lenOf bs + 8 ≤ bs.length ∧ (nameLenOf bs < 0 ∨ lenOf bs < nameLenOf bs + 4)))

section

variable {pb : ProtobufC} (pbMap : CString → Option pb.Desc)
  {Callback : Type} (getMsgCallback : CString → Option Callback)

/-- What is asked of `on_message`: it returns, and an inconsistent frame gives
no message. -/
def Survives (b : GpBuffer) : Prop :=
  (∃ b' out, onMessage pbMap getMsgCallback b = .ok (b', out)) ∧
  (Inconsistent b.readable → ∃ b', onMessage pbMap getMsgCallback b = .ok (b', none))

/-- The lengths behind an accepted header that keep every reader inside the
received bytes. -/
def Guarded (bs : List UInt8) : Prop :=
  AcceptedHeader bs →
    12 ≤ bs.length ∧ 0 ≤ nameLenOf bs ∧ nameLenOf bs + 12 ≤ bs.length ∧
    (pbMap (nameOf bs) ≠ none → nameLenOf bs + 4 ≤ lenOf bs)

variable {bs : List UInt8}

/-- Without an accepted header `decode` drops or keeps the bytes. -/
theorem decodeBytes_of_not_accepted (rejected : ¬ AcceptedHeader bs) :
    ∃ rest, decodeBytes pbMap bs = .ok (rest, none) := by
  unfold decodeBytes
  simp only [show beInt ((bs.drop 4).take 4) = lenOf bs from rfl]
  split
  · exact ⟨[], rfl⟩
  rename_i magic
  split
  · exact ⟨[], rfl⟩
  rename_i range
  rw [if_neg]
  · exact ⟨bs, rfl⟩
  · intro complete
    rw [sizeT_of_nonneg (by omega) (by omega)] at complete
    exact rejected ⟨by simpa using magic, by omega, by omega, by omega⟩

theorem decodeBytes_of_accepted (accepted : AcceptedHeader bs) :
    decodeBytes pbMap bs = decodeBody pbMap (lenOf bs) (bs.drop 8) := by
  obtain ⟨magic, low, high, complete⟩ := accepted
  unfold decodeBytes
  simp only [show beInt ((bs.drop 4).take 4) = lenOf bs from rfl]
  rw [if_neg (by simpa using magic), if_neg (by omega), if_pos]
  rw [sizeT_of_nonneg (by omega) (by omega)]
  omega

theorem nameLenOf_range (enough : 12 ≤ bs.length) :
    -2 ^ 31 ≤ nameLenOf bs ∧ nameLenOf bs < 2 ^ 31 :=
  beInt_range (by simp; omega)

/-- The body of an accepted frame, when the name lies inside the received
bytes. -/
theorem decodeBody_named {len : Int} (enough : 12 ≤ bs.length)
    (nonneg : 0 ≤ nameLenOf bs) (named : nameLenOf bs + 12 ≤ bs.length) :
    decodeBody pbMap len (bs.drop 8) =
      match pbMap (nameOf bs) with
      | none => .ok ([], none)
      | some desc =>
        let rest := bs.drop (12 + (nameLenOf bs).toNat)
        let n := sizeT (int32 (len - 4 - nameLenOf bs))
        if n ≤ rest.length then .ok (rest.drop n, pb.unpack desc (rest.take n))
        else .error .abort := by
  have range := nameLenOf_range enough
  have size : sizeT (nameLenOf bs) = (nameLenOf bs).toNat :=
    sizeT_of_nonneg nonneg (by omega)
  unfold decodeBody
  rw [if_pos (by simp; omega)]
  simp only [show beInt ((bs.drop 8).take 4) = nameLenOf bs from rfl, size, List.drop_drop]
  rw [if_pos (by simp; omega)]
  rfl

/-- A reader aborts when the name does not lie inside the received bytes. -/
theorem decodeBody_unnamed {len : Int} (memory : bs.length < 2 ^ 63)
    (outside : ¬ (12 ≤ bs.length ∧ 0 ≤ nameLenOf bs ∧ nameLenOf bs + 12 ≤ bs.length)) :
    decodeBody pbMap len (bs.drop 8) = .error .abort := by
  unfold decodeBody
  split
  swap
  · rfl
  rename_i four
  have enough : 12 ≤ bs.length := by
    rw [List.length_drop] at four
    omega
  have range := nameLenOf_range enough
  simp only [show beInt ((bs.drop 8).take 4) = nameLenOf bs from rfl]
  rw [if_neg]
  rw [List.length_drop, List.length_drop]
  by_cases neg : nameLenOf bs < 0
  · have := sizeT_of_neg neg range.1
    omega
  · rw [sizeT_of_nonneg (by omega) (by omega)]
    omega

/-- The payload length of a registered frame: non-negative and then inside the
received bytes, or negative and refused by `read_pb_msg`. -/
theorem payload_fits_iff (memory : bs.length < 2 ^ 63) (accepted : AcceptedHeader bs)
    (nonneg : 0 ≤ nameLenOf bs) (named : nameLenOf bs + 12 ≤ bs.length)
    (noOverflow : nameLenOf bs + 4 ≤ 2 ^ 31) :
    sizeT (int32 (lenOf bs - 4 - nameLenOf bs)) ≤
        (bs.drop (12 + (nameLenOf bs).toNat)).length ↔
      nameLenOf bs + 4 ≤ lenOf bs := by
  obtain ⟨_, low, high, complete⟩ := accepted
  rw [int32_of_range (by omega) (by omega), List.length_drop]
  by_cases fits : nameLenOf bs + 4 ≤ lenOf bs
  · rw [sizeT_of_nonneg (by omega) (by omega)]
    omega
  · have := sizeT_of_neg (i := lenOf bs - 4 - nameLenOf bs) (by omega) (by omega)
    omega

/-- Exactly the guarded byte strings are decoded without an abort, and a
message only ever comes out of a consistent frame. -/
theorem decodeBytes_total (memory : bs.length < 2 ^ 63)
    (noOverflow : nameLenOf bs + 4 ≤ 2 ^ 31 ∨ bs.length < nameLenOf bs + 12) :
    (Guarded pbMap bs ∧ ∃ rest msg, decodeBytes pbMap bs = .ok (rest, msg) ∧
      (Inconsistent bs → msg = none)) ∨
    (¬ Guarded pbMap bs ∧ decodeBytes pbMap bs = .error .abort) := by
  by_cases accepted : AcceptedHeader bs
  swap
  · obtain ⟨rest, decoded⟩ := decodeBytes_of_not_accepted pbMap accepted
    exact .inl ⟨fun h => absurd h accepted, rest, none, decoded, fun _ => rfl⟩
  rw [decodeBytes_of_accepted pbMap accepted]
  by_cases inside : 12 ≤ bs.length ∧ 0 ≤ nameLenOf bs ∧ nameLenOf bs + 12 ≤ bs.length
  swap
  · refine .inr ⟨fun guarded => inside ?_, decodeBody_unnamed pbMap memory inside⟩
    obtain ⟨enough, nonneg, named, _⟩ := guarded accepted
    exact ⟨enough, nonneg, named⟩
  obtain ⟨enough, nonneg, named⟩ := inside
  rw [decodeBody_named pbMap enough nonneg named]
  cases lookup : pbMap (nameOf bs) with
  | none =>
      refine .inl ⟨fun _ => ⟨enough, nonneg, named, fun h => absurd lookup h⟩, [], none, rfl,
        fun _ => rfl⟩
  | some desc =>
      have fits := payload_fits_iff memory accepted nonneg named (by omega)
      simp only
      split
      · rename_i room
        have consistent := fits.mp room
        refine .inl ⟨fun _ => ⟨enough, nonneg, named, fun _ => consistent⟩, _, _, rfl, ?_⟩
        rintro ⟨_, short | long | ⟨_, bad⟩⟩
        · omega
        · exact absurd accepted.2.2.1 (by omega)
        · omega
      · rename_i refused
        refine .inr ⟨fun guarded => refused (fits.mpr ?_), rfl⟩
        exact (guarded accepted).2.2.2 (by simp [lookup])

/-- **Malformed input.** For every input buffer of at least eight readable
bytes, `on_message` returns and rejects inconsistent frames if and only if
the received bytes are guarded: behind an accepted header there are twelve
bytes, `name_len` is not negative, the name lies inside the received bytes,
and a registered name leaves room for a payload. (A `name_len` next to
`INT_MAX` whose name has really arrived overflows `int` arithmetic and is
left out, like buffers that no memory can hold.) -/
theorem onMessage_survives_iff {b : GpBuffer} (wf : b.WF) (header : 8 ≤ b.readable.length)
    (memory : b.readable.length < 2 ^ 63)
    (noOverflow : nameLenOf b.readable + 4 ≤ 2 ^ 31 ∨
      b.readable.length < nameLenOf b.readable + 12) :
    Survives pbMap getMsgCallback b ↔ Guarded pbMap b.readable := by
  rcases decodeBytes_total pbMap memory noOverflow with
    ⟨guarded, rest, msg, decoded, rejects⟩ | ⟨unguarded, aborted⟩
  · obtain ⟨b', returned, _⟩ := onMessage_ok pbMap getMsgCallback wf header decoded
    refine ⟨fun _ => guarded, fun _ => ⟨⟨b', _, returned⟩, fun inconsistent => ⟨b', ?_⟩⟩⟩
    rw [returned, rejects inconsistent]
    rfl
  · have failed := onMessage_error pbMap getMsgCallback wf header aborted
    refine ⟨fun ⟨⟨b', out, returned⟩, _⟩ => ?_, fun guarded => absurd guarded unguarded⟩
    rw [failed] at returned
    cases returned

end

/-- The shortest killer: a correct magic, `len = 0`, and nothing behind. -/
def emptyFrame : List UInt8 := [0x01, 0x34, 0x3E, 0xA4, 0, 0, 0, 0]

/-- Eight bytes that arrive at a fresh connection abort the process. -/
theorem emptyFrame_aborts :
    ∃ b, (GpBuffer.initGpBuffer fun _ => 0).bufferAppend (fun _ => 0) emptyFrame = .ok b ∧
      b.readable = emptyFrame ∧
      onMessage (fun _ => some () : CString → Option pingProto.Desc)
        (fun _ => (none : Option Unit)) b = .error .abort ∧
      ¬ Survives (fun _ => some () : CString → Option pingProto.Desc)
        (fun _ => (none : Option Unit)) b := by
  obtain ⟨b, appended, wf, contents⟩ :=
    (GpBuffer.WF.init fun _ => 0).bufferAppend_spec (fun _ => 0) emptyFrame
  rw [GpBuffer.readable_init, List.nil_append] at contents
  have header : 8 ≤ b.readable.length := by
    rw [contents]
    decide
  have accepted : AcceptedHeader emptyFrame :=
    ⟨by decide, by decide, by decide, by decide⟩
  have decoded : decodeBytes (fun _ => some () : CString → Option pingProto.Desc)
      emptyFrame = .error .abort := by
    rw [decodeBytes_of_accepted _ accepted]
    exact decodeBody_unnamed _ (by decide) (by decide)
  have aborted : onMessage (fun _ => some () : CString → Option pingProto.Desc)
      (fun _ => (none : Option Unit)) b = .error .abort :=
    onMessage_error _ _ wf header (by rw [contents]; exact decoded)
  refine ⟨b, appended, contents, aborted, fun ⟨⟨b', out, returned⟩, _⟩ => ?_⟩
  rw [aborted] at returned
  cases returned

/-- The condition decided on the killer frame. -/
theorem onMessage_survives_iff_emptyFrame :
    ∃ b : GpBuffer, b.readable = emptyFrame ∧
      (Survives (fun _ => some () : CString → Option pingProto.Desc)
        (fun _ => (none : Option Unit)) b ↔
          Guarded (fun _ => some () : CString → Option pingProto.Desc) emptyFrame) := by
  obtain ⟨b, _, wf, contents⟩ :=
    (GpBuffer.WF.init fun _ => 0).bufferAppend_spec (fun _ => 0) emptyFrame
  rw [GpBuffer.readable_init, List.nil_append] at contents
  refine ⟨b, contents, ?_⟩
  have iff := onMessage_survives_iff (fun _ => some () : CString → Option pingProto.Desc)
    (fun _ => (none : Option Unit)) wf (by rw [contents]; decide) (by rw [contents]; decide)
    (by rw [contents]; decide)
  rwa [contents] at iff

end GpBase.Codec

import GpBase.Codec.Stream

/-!
# The bounds of `encode`

`name_len` counts the NUL of the type name already, and the copy of the name takes
`name_len + 1` bytes: it reads one byte behind the string, and the byte it writes too many
lies inside the allocation only when a packed message follows. On the other side `decode`
refuses a `len` above 65536, a limit that `encode` does not know.
-/

namespace GpBase.Codec

open GpBase.Lib GpBase.Buffer

section Bounds

variable {pb : ProtobufC} (junk : Nat → UInt8) (beyond : UInt8)

/-- Every byte written lies inside the `*len` bytes that were allocated. -/
def Encoded.WritesInside (e : Encoded) : Prop := ∀ w ∈ e.writes, ((w.1 + w.2 : Nat) : Int) ≤ e.len

/-- Every byte read from the descriptor name belongs to the string or is its NUL. -/
def Encoded.ReadsInside (e : Encoded) (name : CString) : Prop := e.nameRead ≤ name.bytes.length + 1

instance (e : Encoded) : Decidable e.WritesInside :=
  inferInstanceAs (Decidable (∀ w ∈ e.writes, ((w.1 + w.2 : Nat) : Int) ≤ e.len))

/-- What `encode` copies and allocates, when the total fits an `int`. -/
theorem encode_ranges (msg : pb.Msg)
    (packs : (pb.pack msg).length = pb.packedSize msg) (int : lenField pb msg + 8 < 2 ^ 31) :
    (encode pb junk beyond msg).len = (lenField pb msg + 8 : Nat) ∧
      (encode pb junk beyond msg).nameRead = (pb.name (pb.descriptor msg)).bytes.length + 2 ∧
      (encode pb junk beyond msg).writes =
        [(0, 4), (4, 4), (8, 4), (12, (pb.name (pb.descriptor msg)).bytes.length + 2),
          (12 + ((pb.name (pb.descriptor msg)).bytes.length + 1), pb.packedSize msg)] := by
  set name := (pb.name (pb.descriptor msg)).bytes with nameDef
  obtain ⟨tEq, nameEq, tmpEq, countEq, offEq⟩ := encode_sizes msg int (congrArg _ nameDef.symm)
  simp only [encode, ← nameDef, tEq, nameEq, tmpEq, countEq, offEq, packs]
  exact ⟨trivial, trivial, rfl⟩

/-- The writes stay inside exactly when the packed message is not empty. -/
theorem encode_writesInside_iff (msg : pb.Msg)
    (packs : (pb.pack msg).length = pb.packedSize msg) (int : lenField pb msg + 8 < 2 ^ 31) :
    (encode pb junk beyond msg).WritesInside ↔ 0 < pb.packedSize msg := by
  obtain ⟨len, _, writes⟩ := encode_ranges junk beyond msg packs int
  unfold Encoded.WritesInside
  rw [len, writes]
  simp only [List.forall_mem_cons, List.not_mem_nil, IsEmpty.forall_iff, implies_true, and_true,
    Nat.cast_le, lenField, kHeader]
  omega

/-- **`encode` never stays inside its buffers.** For every message whose frame fits an `int`,
it reads one byte behind the NUL of the type name; what it writes stays inside the allocation
exactly when the packed message is not empty. -/
theorem encode_never_inside (msg : pb.Msg)
    (packs : (pb.pack msg).length = pb.packedSize msg) (int : lenField pb msg + 8 < 2 ^ 31) :
    ¬ ((encode pb junk beyond msg).WritesInside ∧
        (encode pb junk beyond msg).ReadsInside (pb.name (pb.descriptor msg))) ∧
      ((encode pb junk beyond msg).WritesInside ↔ 0 < pb.packedSize msg) := by
  obtain ⟨_, nameRead, _⟩ := encode_ranges junk beyond msg packs int
  refine ⟨?_, encode_writesInside_iff junk beyond msg packs int⟩
  rintro ⟨_, reads⟩
  unfold Encoded.ReadsInside at reads
  rw [nameRead] at reads
  omega

/-- A `Ping`: its two bytes hide the write, not the read. -/
theorem encode_never_inside_ping :
    ¬ ((encode pingProto (fun _ => 0) 0 (5 : Fin 128)).WritesInside ∧
        (encode pingProto (fun _ => 0) 0 (5 : Fin 128)).ReadsInside (pingProto.name ())) ∧
      ((encode pingProto (fun _ => 0) 0 (5 : Fin 128)).WritesInside ↔ 0 < 2) :=
  @encode_never_inside pingProto (fun _ => 0) 0 (5 : Fin 128) rfl (by decide)

/-- `message Done {}`: nothing follows the name. -/
def doneProto : ProtobufC where
  Msg := Unit
  Desc := Unit
  descriptor _ := ()
  name _ := ⟨[68, 111, 110, 101], by decide⟩
  packedSize _ := 0
  pack _ := []
  unpack _ bytes := if bytes = [] then some () else none

/-- The frame of `Done` has 17 bytes, and 18 are written; 6 bytes are read from a name of 5. -/
theorem done_overrun :
    (encode doneProto (fun _ => 0) 0 ()).len = 17 ∧
      (12, 6) ∈ (encode doneProto (fun _ => 0) 0 ()).writes ∧
      ¬ (encode doneProto (fun _ => 0) 0 ()).WritesInside ∧
      ¬ (encode doneProto (fun _ => 0) 0 ()).ReadsInside (doneProto.name ()) :=
  ⟨by decide, by decide, by decide, by unfold Encoded.ReadsInside; decide⟩

end Bounds

/-! ## Which frames are accepted -/

section Accepted

variable {pb : ProtobufC} {pbMap : CString → Option pb.Desc} {msg : pb.Msg}

/-- A frame above the limit empties the buffer. -/
theorem decodeBytes_oversized (int : lenField pb msg < 2 ^ 31)
    (large : 65536 < lenField pb msg) (rest : List UInt8) :
    decodeBytes pbMap (frameLayout pb msg ++ rest) = .ok ([], none) := by
  obtain ⟨magic, len⟩ := frameLayout_header pb msg int rest
  unfold decodeBytes
  simp only [magic, len]
  rw [if_neg (by simp), if_pos (by omega)]

/-- `decode` in front of a frame: the message and the bytes behind it, or an empty buffer. -/
theorem decode_frame_cases (lawful : pb.Lawful)
    (registered : pbMap (pb.name (pb.descriptor msg)) = some (pb.descriptor msg))
    (int : lenField pb msg < 2 ^ 31) {b : GpBuffer} (wf : b.WF) {rest : List UInt8}
    (readable : b.readable = frameLayout pb msg ++ rest) :
    ∃ b', decode pbMap b = .ok (b', if lenField pb msg ≤ 65536 then some msg else none) ∧
      b'.WF ∧ b'.readable = if lenField pb msg ≤ 65536 then rest else [] := by
  have enough : 8 ≤ b.readable.length := by
    rw [readable, List.length_append, frameLayout_length lawful]
    omega
  have bytes : decodeBytes pbMap b.readable =
      .ok (if lenField pb msg ≤ 65536 then rest else [],
        if lenField pb msg ≤ 65536 then some msg else none) := by
    rw [readable]
    split
    · rename_i small
      exact decodeBytes_frame pbMap lawful registered small rest
    · exact decodeBytes_oversized int (by omega) rest
  rcases decode_spec pbMap wf enough with ⟨fault, _, failed⟩ | ⟨b', left, got, ran, same, kept, now⟩
  · cases bytes.symm.trans failed
  · cases bytes.symm.trans same
    exact ⟨b', ran, kept, now⟩

/-- **A frame is accepted exactly when its `len` field is at most 65536.** For every message of
a registered type whose frame fits an `int`, the `len` field that `encode` writes is the number
of bytes behind the header; in front of any other bytes `decode` then gives the message back
and leaves these bytes, or, above the limit, returns nothing and leaves nothing. -/
theorem frame_accepted_iff (lawful : pb.Lawful) (junk : Nat → UInt8) (beyond : UInt8)
    (registered : pbMap (pb.name (pb.descriptor msg)) = some (pb.descriptor msg))
    (int : lenField pb msg + 8 < 2 ^ 31) :
    let frame := (encode pb junk beyond msg).frame
    frame.length = lenField pb msg + 8 ∧ beInt ((frame.drop 4).take 4) = lenField pb msg ∧
      ∀ (b : GpBuffer) (rest : List UInt8), b.WF → b.readable = frame ++ rest →
        ((∃ b', decode pbMap b = .ok (b', some msg) ∧ b'.WF ∧ b'.readable = rest) ↔
          lenField pb msg ≤ 65536) ∧
        (65536 < lenField pb msg →
          ∃ b', decode pbMap b = .ok (b', none) ∧ b'.WF ∧ b'.readable = []) := by
  intro frame
  have layout : frame = frameLayout pb msg := encode_frame junk beyond lawful msg int
  rw [layout]
  have header := (frameLayout_header pb msg (by omega) []).2
  rw [List.append_nil] at header
  refine ⟨frameLayout_length lawful msg, header, ?_⟩
  intro b rest wf readable
  obtain ⟨b', ran, kept, now⟩ := decode_frame_cases lawful registered (by omega) wf readable
  refine ⟨⟨?_, ?_⟩, ?_⟩
  · rintro ⟨b'', accepted, _⟩
    by_contra large
    rw [if_neg large] at ran
    cases ran.symm.trans accepted
  · intro small
    rw [if_pos small] at ran now
    exact ⟨b', ran, kept, now⟩
  · intro large
    rw [if_neg (by omega)] at ran now
    exact ⟨b', ran, kept, now⟩

def anyPing : CString → Option pingProto.Desc := fun _ => some ()

/-- A `Ping` is far below the limit. -/
theorem frame_accepted_iff_ping :
    let frame := (encode pingProto (fun _ => 0) 0 (5 : Fin 128)).frame
    frame.length = 11 + 8 ∧ beInt ((frame.drop 4).take 4) = 11 ∧
      ∀ (b : GpBuffer) (rest : List UInt8), b.WF → b.readable = frame ++ rest →
        ((∃ b', decode anyPing b = .ok (b', some (5 : Fin 128)) ∧
            b'.WF ∧ b'.readable = rest) ↔ 11 ≤ 65536) ∧
        (65536 < 11 → ∃ b', decode anyPing b = .ok (b', none) ∧
          b'.WF ∧ b'.readable = []) :=
  @frame_accepted_iff pingProto anyPing (5 : Fin 128) pingProto_lawful (fun _ => 0) 0 rfl
    (by decide)

/-- 65524 bytes of data behind their tag and the varint of their number. -/
def blobBytes : List UInt8 := [0x0A, 0xF4, 0xFF, 0x03] ++ List.replicate 65524 0

/-- `message Blob { required bytes data = 1; }`, with this one message of it. -/
def blobProto : ProtobufC where
  Msg := Unit
  Desc := Unit
  descriptor _ := ()
  name _ := ⟨[66, 108, 111, 98], by decide⟩
  packedSize _ := 65528
  pack _ := blobBytes
  unpack _ bytes := if bytes = blobBytes then some () else none

def anyBlob : CString → Option blobProto.Desc := fun _ => some ()

theorem blobBytes_length : blobBytes.length = 65528 := by
  unfold blobBytes
  rw [List.length_append, List.length_replicate]
  rfl

theorem blobProto_lawful : blobProto.Lawful where
  packedSize_eq _ := blobBytes_length.symm
  unpack_pack _ := by
    simp only [blobProto, if_true]
    rfl

/-- A `Blob` of a registered type with a `Ping` behind it: both are dropped. -/
theorem blob_dropped :
    ∃ b b' : GpBuffer, b.WF ∧
      b.readable = (encode blobProto (fun _ => 0) 0 ()).frame ++
        (encode pingProto (fun _ => 0) 0 (5 : Fin 128)).frame ∧
      decode anyBlob b = .ok (b', none) ∧ b'.readable = [] := by
  have len : lenField blobProto () = 65537 := rfl
  obtain ⟨b, _, wf, readable⟩ := (GpBuffer.WF.init fun _ => 0).bufferAppend_spec (fun _ => 0)
    ((encode blobProto (fun _ => 0) 0 ()).frame ++
      (encode pingProto (fun _ => 0) 0 (5 : Fin 128)).frame)
  rw [GpBuffer.readable_init, List.nil_append] at readable
  have layout := readable
  rw [encode_frame (fun _ => 0) 0 blobProto_lawful () (by rw [len]; decide)] at layout
  obtain ⟨b', ran, _, now⟩ := @decode_frame_cases blobProto anyBlob ()
    blobProto_lawful rfl (by rw [len]; decide) b wf _ layout
  rw [if_neg (by rw [len]; decide)] at ran now
  exact ⟨b, b', wf, readable, ran, now⟩

end Accepted

end GpBase.Codec

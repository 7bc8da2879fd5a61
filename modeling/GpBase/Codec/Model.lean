import Mathlib.Data.List.TakeWhile
import GpBase.Buffer.Model

/-!
# Framing of protobuf messages

Translation of `gp_codec.c` and of `on_message` in `gp_ipc_server.c`. A frame
is magic, `len`, `name_len`, the NUL-terminated type name and the packed
message; `len` counts everything behind itself.

What belongs to protobuf-c is the parameter `ProtobufC`; the two dictionaries
`pb_map` and `callback_map` are the lookup functions they implement.
-/

namespace GpBase.Codec

open GpBase.Lib GpBase.Buffer

/-- A C string: the bytes in front of the terminating NUL. -/
structure CString where
  bytes : List UInt8
  noNul : (0 : UInt8) ∉ bytes
  deriving DecidableEq

/-- The C string stored at the start of a block that holds a NUL. -/
def CString.ofBytes (block : List UInt8) : CString where
  bytes := block.takeWhile (· ≠ 0)
  noNul h := by simpa using List.mem_takeWhile_imp h

/-- What the codec uses of protobuf-c. -/
structure ProtobufC where
  Msg : Type
  Desc : Type
  /-- `msg->descriptor` -/
  descriptor : Msg → Desc
  /-- `descriptor->name` -/
  name : Desc → CString
  /-- `protobuf_c_message_get_packed_size` -/
  packedSize : Msg → Nat
  /-- the bytes that `protobuf_c_message_pack` writes -/
  pack : Msg → List UInt8
  /-- `protobuf_c_message_unpack`, `none` for the `NULL` of a parse error -/
  unpack : Desc → List UInt8 → Option Msg

/-- The documented behaviour of protobuf-c that the codec relies on. -/
structure ProtobufC.Lawful (pb : ProtobufC) : Prop where
  packedSize_eq : ∀ msg, pb.packedSize msg = (pb.pack msg).length
  unpack_pack : ∀ msg, pb.unpack (pb.descriptor msg) (pb.pack msg) = some msg

def kHeader : Nat := 4
def magicNumber : Int := 0x1343EA4

/-- `htonl` followed by a `memcpy` of the four bytes. -/
def be32 (i : Int) : List UInt8 := beBytes 4 (uint32 i)

/-! ## Encoding -/

/-- What `encode` leaves behind: the memory from `str` on, the length reported
in `*len`, and the ranges (offset, count) it wrote there and read from the
descriptor name. -/
structure Encoded where
  str : Nat → UInt8
  len : Int
  writes : List (Nat × Nat)
  nameRead : Nat

/-- The `*len` bytes at `*buf`. -/
def Encoded.frame (e : Encoded) : List UInt8 := firstCells e.str e.len.toNat

section Encode

variable (pb : ProtobufC)

/-- `junk` is what memory held before, `beyond` the byte behind the NUL of the
descriptor name: the copy of the name takes `name_len + 1` bytes although
`name_len` already counts the NUL. -/
def encode (junk : Nat → UInt8) (beyond : UInt8) (msg : pb.Msg) : Encoded :=
  let name := (pb.name (pb.descriptor msg)).bytes
  let t := int32 (pb.packedSize msg)
  let nameLen := int32 (name.length + 1)
  let tmpLen := int32 (kHeader + kHeader + kHeader + nameLen + t)
  let str := splice junk 0 (be32 magicNumber)
  let str := splice str kHeader (be32 (tmpLen - kHeader - kHeader))
  let str := splice str (kHeader + kHeader) (be32 nameLen)
  let nameCount := sizeT (nameLen + 1)
  let str := splice str (kHeader + kHeader + kHeader)
    ((name ++ [0, beyond]).take nameCount)
  let packOff := kHeader + kHeader + kHeader + sizeT nameLen
  let str := splice str packOff (pb.pack msg)
  { str := str
    len := tmpLen
    writes := [(0, 4), (kHeader, 4), (kHeader + kHeader, 4),
      (kHeader + kHeader + kHeader, nameCount), (packOff, (pb.pack msg).length)]
    nameRead := nameCount }

/-- The value of the `len` field: `name_len`, the name with its NUL and the
packed message. -/
def lenField (msg : pb.Msg) : Nat :=
  kHeader + ((pb.name (pb.descriptor msg)).bytes.length + 1) + pb.packedSize msg

/-- `encode_errcode`: an answer without a message. -/
def encodeErrcode (junk : Nat → UInt8) (errcode : Int) : Encoded :=
  let str := splice junk 0 (be32 magicNumber)
  let str := splice str kHeader (be32 errcode)
  { str := str, len := kHeader + kHeader, writes := [(0, 4), (kHeader, 4)], nameRead := 0 }

end Encode

/-! ## Decoding -/

section Decode

-- `pbMap` is `dictFetchValue(get_pb_map(), ·)`
variable {pb : ProtobufC} (pbMap : CString → Option pb.Desc)

/-- `decode`; `none` is the `NULL` result. -/
def decode (b : GpBuffer) : Except Fault (GpBuffer × Option pb.Msg) := do
  let magic ← b.peekInt32
  if magic ≠ magicNumber then
    return (b.retrieveAll, none)
  else
    let be ← b.peekAt 4 4
    let len := beInt be
    if len > 65536 ∨ len < 0 then
      return (b.retrieveAll, none)
    else if sizeT (len + 8) ≤ b.readableBytes then
      let b := b.retrieve 8
      let (b, nameLen) ← b.readInt32
      let (b, name) ← b.readStr nameLen
      match pbMap (.ofBytes name) with
      | none => return (b.retrieveAll, none)
      | some desc => b.readPbMsg (pb.unpack desc) (int32 (len - 4 - nameLen))
    else
      return (b, none)

/-- One call of a message callback: the registered one, or the default callback
of the server when there is none. -/
structure Dispatch (pb : ProtobufC) (Callback : Type) where
  callback : Option Callback
  msg : pb.Msg

/-- `on_message`: at most one message is decoded and dispatched. `getMsgCallback`
is the lookup in `callback_map`. -/
def onMessage {Callback : Type} (getMsgCallback : CString → Option Callback)
    (b : GpBuffer) : Except Fault (GpBuffer × Option (Dispatch pb Callback)) := do
  if 8 ≤ b.readableBytes then
    let (b, msg) ← decode pbMap b
    return (b, msg.map fun msg =>
      { callback := getMsgCallback (pb.name (pb.descriptor msg)), msg := msg })
  else
    return (b, none)

/-- `handle_ssl_msg`: the body of `on_message`, with `ssl_protobuf_default_callback`
in the place of the other default. -/
def handleSslMsg {Callback : Type} (getMsgCallback : CString → Option Callback)
    (b : GpBuffer) : Except Fault (GpBuffer × Option (Dispatch pb Callback)) := do
  if 8 ≤ b.readableBytes then
    let (b, msg) ← decode pbMap b
    return (b, msg.map fun msg =>
      { callback := getMsgCallback (pb.name (pb.descriptor msg)), msg := msg })
  else
    return (b, none)

end Decode

end GpBase.Codec

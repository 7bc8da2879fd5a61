import GpBase.Lib.Mem
import GpBase.Lib.Word

/-!
# `gp_buffer`: the growable byte buffer

Translation of `gp_buffer.c`. The block behind `buffer->buffer` is the list of
its bytes, and every `memcpy`, `memmove` and `readv` goes through
`Lib.load`/`Lib.store`, so a copy that leaves the block is an `outOfBounds`
fault of the model. The `len` field is kept apart from the size of the block,
as in the source. `size_t` values are `Nat`: nothing below `2 ^ 62` wraps, and
the one place where a negative value becomes a `size_t` (the `int32_t` length
of `peek_str`) is converted explicitly with `sizeT`. Allocation succeeds.
-/

namespace GpBase.Buffer

open GpBase.Lib

def kCheapPrepend : Nat := 8
def kInitialSize : Nat := 8192

/-- `sizeof extrabuf` in `buffer_read_fd`. -/
def extrabufSize : Nat := 65536

structure GpBuffer where
  buffer : List UInt8
  len : Nat
  readerIndex : Nat
  writerIndex : Nat
  deriving DecidableEq, Repr

/-- The outcome of one `readv`: the bytes the socket had ready, or `-1` with
an `errno`. The call itself takes no more of them than its vectors hold. -/
inductive ReadResult
  | data (avail : List UInt8)
  | error (errno : Int)
  deriving DecidableEq, Repr

namespace GpBuffer

variable (b : GpBuffer)

def readableBytes : Nat := b.writerIndex - b.readerIndex
def writableBytes : Nat := b.len - b.writerIndex
def prependableBytes : Nat := b.readerIndex

/-- The bytes that a reader of the buffer sees. -/
def readable : List UInt8 := window b.buffer b.readerIndex b.writerIndex

/-- `memcpy` of `n` bytes starting at `peek(buffer) + off`. -/
def peekAt (off n : Nat) : Except Fault (List UInt8) :=
  load b.buffer (b.readerIndex + off) n

def retrieveAll : GpBuffer :=
  { b with readerIndex := kCheapPrepend, writerIndex := kCheapPrepend }

def hasWritten (n : Nat) : GpBuffer := { b with writerIndex := b.writerIndex + n }

def retrieve (n : Nat) : GpBuffer :=
  if n < b.readableBytes then { b with readerIndex := b.readerIndex + n }
  else b.retrieveAll

def retrieveAsString (n : Nat) : Except Fault (GpBuffer × List UInt8) := do
  let tmp ← b.peekAt 0 n
  return (b.retrieve n, tmp)

def retrieveAllAsString : Except Fault (GpBuffer × List UInt8) :=
  b.retrieveAsString b.readableBytes

section Allocation

-- `junk i` is what freshly allocated memory happens to hold at offset `i`.
variable (junk : Nat → UInt8)

def initGpBuffer : GpBuffer where
  buffer := (List.range (kCheapPrepend + kInitialSize)).map junk
  len := kCheapPrepend + kInitialSize
  readerIndex := kCheapPrepend
  writerIndex := kCheapPrepend

/-- `realloc`: the old contents up to the smaller size, then unspecified bytes. -/
def realloc (block : List UInt8) (size : Nat) : List UInt8 :=
  block.take size ++ (List.range (size - block.length)).map junk

def makeSpace (n : Nat) : Except Fault GpBuffer :=
  if b.writableBytes + b.prependableBytes < n + kCheapPrepend then
    return { b with
      buffer := realloc junk b.buffer (b.writerIndex + n)
      len := n + b.writerIndex }
  else do
    let readable := b.readableBytes
    let data ← load b.buffer b.readerIndex readable
    let block ← store b.buffer kCheapPrepend data
    return { b with
      buffer := block
      readerIndex := kCheapPrepend
      writerIndex := kCheapPrepend + readable }

def ensureWritableBytes (n : Nat) : Except Fault GpBuffer :=
  if b.writableBytes < n then b.makeSpace junk n else return b

def bufferAppend (str : List UInt8) : Except Fault GpBuffer := do
  let b ← b.ensureWritableBytes junk str.length
  let block ← store b.buffer b.writerIndex str
  return hasWritten { b with buffer := block } str.length

/-- `buffer_read_fd`, with the value left in `*saved_errno`. `readv` fills the
writable part of the block first and `extrabuf` behind it; the second vector
is offered only when the first is shorter than `extrabuf`. -/
def bufferReadFd (r : ReadResult) (savedErrno : Int) :
    Except Fault (GpBuffer × Nat × Int) :=
  match r with
  | .error errno => return (b, sizeT (-1), errno)
  | .data avail => do
    let writable := b.writableBytes
    let iovLen := if writable < extrabufSize then writable + extrabufSize else writable
    let got := avail.take iovLen
    let block ← store b.buffer b.writerIndex (got.take writable)
    let extrabuf := got.drop writable
    if got.length ≤ writable then
      return ({ b with buffer := block, writerIndex := b.writerIndex + got.length },
        got.length, savedErrno)
    else
      let b' ← bufferAppend { b with buffer := block, writerIndex := b.len } junk extrabuf
      return (b', got.length, savedErrno)

end Allocation

/-! ## Typed reads -/

/-- The common body of `peek_int8`, `peek_int16`, `peek_int32` and
`peek_int64`: `width` bytes in network order, or `abort()`. -/
def peekInt (width : Nat) : Except Fault Int :=
  if width ≤ b.readableBytes then do
    let be ← b.peekAt 0 width
    return beInt be
  else throw .abort

def peekInt8 : Except Fault Int := b.peekInt 1
def peekInt16 : Except Fault Int := b.peekInt 2
def peekInt32 : Except Fault Int := b.peekInt 4
def peekInt64 : Except Fault Int := b.peekInt 8

/-- The common body of the `read_int*` functions. -/
def readInt (width : Nat) : Except Fault (GpBuffer × Int) := do
  let result ← b.peekInt width
  return (b.retrieve width, result)

def readInt8 : Except Fault (GpBuffer × Int) := b.readInt 1
def readInt16 : Except Fault (GpBuffer × Int) := b.readInt 2
def readInt32 : Except Fault (GpBuffer × Int) := b.readInt 4
def readInt64 : Except Fault (GpBuffer × Int) := b.readInt 8

/-- `peek_str`: a fresh copy of `n` bytes with a terminating NUL. The
comparison `readable_bytes(buffer) >= len` converts `len` to `size_t`. -/
def peekStr (n : Int) : Except Fault (List UInt8) :=
  if sizeT n ≤ b.readableBytes then do
    let msg ← b.peekAt 0 (sizeT n)
    return msg ++ [0]
  else throw .abort

def readStr (n : Int) : Except Fault (GpBuffer × List UInt8) := do
  let result ← b.peekStr n
  return (b.retrieve (sizeT n), result)

/-- `peek_pb_msg`, with `protobuf_c_message_unpack` for one descriptor as a
parameter (`none` is the `NULL` it returns for bytes it cannot parse). -/
def peekPbMsg {Msg : Type} (unpack : List UInt8 → Option Msg) (n : Int) :
    Except Fault (Option Msg) :=
  if sizeT n ≤ b.readableBytes then do
    let bytes ← b.peekAt 0 (sizeT n)
    return unpack bytes
  else throw .abort

def readPbMsg {Msg : Type} (unpack : List UInt8 → Option Msg) (n : Int) :
    Except Fault (GpBuffer × Option Msg) := do
  let result ← b.peekPbMsg unpack n
  return (b.retrieve (sizeT n), result)

end GpBuffer

end GpBase.Buffer

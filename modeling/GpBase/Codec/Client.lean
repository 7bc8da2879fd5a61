import GpBase.Codec.Model

/-!
# The synchronous client

`read_pb_header`, `read_all_sync` and `send_msg_and_recv` over the `read()` calls that
they make. How many bytes a `read()` returns is up to the environment; bytes of a
variable or of a block that no `read()` has written hold what memory held before.
-/

namespace GpBase.Codec

open GpBase.Lib

/-- What a socket has to say. -/
structure Socket where
  /-- the bytes not read yet -/
  rest : List UInt8
  /-- the outcomes of the next calls of `read()`: `none` for `-1`, `some k` for at most `k` bytes -/
  reads : Nat → Option Nat
  /-- `read()` returns 0 when nothing is left, and does not wait -/
  closed : Bool

/-- How a function that reads from a socket ends. -/
inductive Call (α : Type)
  | /-- it waits for ever -/ hangs
  | /-- it closes the socket and fails -/ fails
  | returns (a : α) (fd : Socket)

def Call.andThen {α β : Type} : Call α → (α → Socket → Call β) → Call β
  | .hangs, _ => .hangs
  | .fails, _ => .fails
  | .returns a fd, next => next a fd

@[simp] theorem Call.andThen_returns {α β : Type} (a : α) (fd : Socket)
    (next : α → Socket → Call β) : (Call.returns a fd).andThen next = next a fd := rfl

/-- `read(fd, …, count)`, with every caller's test for a failure. -/
def Socket.read (fd : Socket) (count : Nat) : Call (List UInt8) :=
  match fd.reads 0 with
  | none => .fails
  | some k =>
    if count ≠ 0 ∧ fd.rest = [] ∧ fd.closed = false then .hangs
    else .returns (fd.rest.take (min k count))
      { fd with rest := fd.rest.drop (min k count), reads := fun i => fd.reads (i + 1) }

/-- What memory held before: the local variables of `read_pb_header`, the block that
`malloc` returns for the name with what follows it up to a NUL, and the variable `n` of
`read_all_sync`. -/
structure Garbage where
  magic : Nat → UInt8
  len : Nat → UInt8
  nameLen : Nat → UInt8
  name : List UInt8
  n : Int

/-- `ntohl` of a variable of which `bytes` have been read. -/
def ntohl (junk : Nat → UInt8) (bytes : List UInt8) : Int :=
  beInt (firstCells (splice junk 0 bytes) 4)

/-- `read_pb_header`: the name and `msg_len`. -/
def readPbHeader (g : Garbage) (fd : Socket) : Call (CString × Int) :=
  (fd.read 4).andThen fun magic fd =>
  if ntohl g.magic magic ≠ magicNumber then .fails
  else (fd.read 4).andThen fun len fd =>
  let len := ntohl g.len len
  (fd.read 4).andThen fun nameLen fd =>
  let nameLen := ntohl g.nameLen nameLen
  -- `malloc` has no block of such a size, and `read()` fails on `NULL`
  if nameLen < 0 then .fails
  else (fd.read nameLen.toNat).andThen fun name fd =>
  .returns (.ofBytes (name ++ g.name.drop name.length), int32 (len - 4 - nameLen)) fd

/-- The loop of `read_all_sync`, with `bytesleft` and the bytes read so far; `n` is what
the last `read()` has returned. -/
def readAllLoop (n : Int) (bytesleft : Nat) (msg : List UInt8) (fd : Socket) :
    Call (List UInt8 × Int) :=
  if 0 < bytesleft then
    match fd.read bytesleft with
    | .hangs => .hangs
    | .fails => .returns (msg, -1) fd
    -- at the end of the stream `total` does not grow any more
    | .returns [] _ => .hangs
    | .returns (b :: bs) fd =>
      readAllLoop ((b :: bs).length : Nat) (bytesleft - (b :: bs).length) (msg ++ b :: bs) fd
  else .returns (msg, n) fd
termination_by bytesleft
decreasing_by
  simp only [List.length_cons]
  omega

/-- `read_all_sync`, with the test of its result. -/
def readAllSync (g : Garbage) (len : Int) (fd : Socket) : Call (List UInt8) :=
  (readAllLoop g.n len.toNat [] fd).andThen fun (msg, n) fd =>
  if n = -1 then .fails else .returns msg fd

section

-- `pbMap` is `dictFetchValue(get_sync_client_pb_map(), ·)`
variable {pb : ProtobufC} (pbMap : CString → Option pb.Desc)

/-- `send_msg_and_recv` behind `send_all`, which has `sent` the request or has failed. -/
def sendMsgAndRecv (g : Garbage) (sent : Bool) (fd : Socket) : Call (Option pb.Msg) :=
  if sent then
    (readPbHeader g fd).andThen fun (name, msgLen) fd =>
    match pbMap name with
    | none => .fails
    | some desc =>
      (readAllSync g msgLen fd).andThen fun msg fd => .returns (pb.unpack desc msg) fd
  else .fails

end

end GpBase.Codec

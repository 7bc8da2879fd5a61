import GpBase.Codec.Client
import GpBase.Sync.Transfer

/-!
# Reading from a socket

The model of the client reads the bytes of a socket, that of the blocking transfers sees the
results of the calls only. Their loops of `read_all_sync` are one: the results that a socket
gives to the loop make a peer, and the two end alike with it.
-/

namespace GpBase.Sync

open GpBase.Codec

/-- What `read(fd, …, count)` returns, and the socket at the next call. A call that finds
nothing, or that never returns, is one that returns 0 again and again. -/
def readResult (fd : Socket) (count : Nat) : Int × Socket :=
  match fd.read count with
  | .returns (b :: bs) fd => ((b :: bs).length, fd)
  | .returns [] _ | .hangs => (0, fd)
  | .fails => (-1, fd)

/-- The results of the calls of a loop that wants `bytesleft` bytes, were the last of them
for `left` bytes. -/
def replies (fd : Socket) (bytesleft : Nat) : Nat → Int → Int
  | 0, left => (readResult fd left.toNat).1
  | k + 1, left =>
    let (n, fd) := readResult fd bytesleft
    replies fd (bytesleft - n.toNat) k left

theorem readResult_valid (fd : Socket) (count : Nat) :
    (readResult fd count).1 = -1 ∨
      (0 < (readResult fd count).1 ∧ (readResult fd count).1 ≤ count) ∨
      (readResult fd count).1 = 0 := by
  unfold readResult
  cases read : fd.read count with
  | hangs => exact .inr (.inr rfl)
  | fails => exact .inl rfl
  | returns bytes fd' =>
      cases bytes with
      | nil => exact .inr (.inr rfl)
      | cons b bs =>
          refine .inr (.inl ⟨Int.natCast_pos.mpr (Nat.succ_pos _), ?_⟩)
          have short : (b :: bs).length ≤ count := by
            unfold Socket.read at read
            split at read
            · cases read
            · split at read
              · cases read
              · obtain ⟨taken, _⟩ := Call.returns.inj read
                rw [← taken, List.length_take]
                omega
          exact Int.ofNat_le.mpr short

/-- The socket as a peer of the loop. -/
def peerOf (fd : Socket) (bytesleft : Nat) : Peer true where
  reply := replies fd bytesleft
  valid k left wanted := by
    induction k generalizing fd bytesleft with
    | zero =>
        have valid := readResult_valid fd left.toNat
        rw [Int.toNat_of_nonneg wanted.le] at valid
        exact valid.imp id fun h => h.imp id fun zero => ⟨rfl, zero⟩
    | succ k ih => exact ih _ _

/-- The calls from the second on. -/
theorem transferLoop_shift (reply : Nat → Int → Int) (len : Int) (fuel : Nat) :
    ∀ (k : Nat) (total left n : Int), transferLoop reply len fuel (k + 1) total left n =
      transferLoop (fun j => reply (j + 1)) len fuel k total left n := by
  induction fuel with
  | zero => exact fun _ _ _ _ => rfl
  | succ fuel ih =>
      intro k total left n
      simp only [transferLoop, ih]

/-- The loop of the blocking transfers ends as that of the client does. -/
def SameEnd (run : Nat → Option Left) : Call (List UInt8 × Int) → Prop
  | .hangs => ∀ fuel, run fuel = none
  | .fails => False
  | .returns (msg, n) _ => ∃ fuel log, run fuel = some ⟨n, msg.length, log⟩

/-- A socket that gives nothing now never will. -/
theorem replies_nothing {fd : Socket} {bytesleft : Nat}
    (nothing : readResult fd bytesleft = (0, fd)) (k : Nat) :
    replies fd bytesleft k bytesleft = 0 := by
  induction k with
  | zero =>
      rw [replies, Int.toNat_natCast, nothing]
  | succ k ih =>
      rw [replies, nothing]
      exact ih

section Loop

variable {fd fd' : Socket} {bytesleft : Nat} {len : Int} {msg bytes : List UInt8}

/-- A socket that gives nothing keeps the loop for ever. -/
theorem transferLoop_nothing (nothing : readResult fd bytesleft = (0, fd)) (wanted : 0 < bytesleft)
    (whole : len = msg.length + bytesleft) (n : Int) (fuel : Nat) :
    transferLoop (replies fd bytesleft) len fuel 0 msg.length bytesleft n = none := by
  refine EndsEarly.hangs (.eof (by omega) fun k _ => replies_nothing nothing k) fuel _ n ?_
  omega

/-- A round that reads something goes on with the socket that it leaves. -/
theorem SameEnd.round (result : readResult fd bytesleft = ((bytes.length : Int), fd'))
    (fits : bytes.length ≤ bytesleft) (wanted : 0 < bytesleft)
    (whole : len = msg.length + bytesleft) (n : Int) {ended : Call (List UInt8 × Int)}
    (rest : SameEnd (fun fuel => transferLoop (replies fd' (bytesleft - bytes.length)) len fuel 0
      (msg ++ bytes).length (bytesleft - bytes.length : Nat) bytes.length) ended) :
    SameEnd (fun fuel =>
      transferLoop (replies fd bytesleft) len fuel 0 msg.length bytesleft n) ended := by
  have first : replies fd bytesleft 0 bytesleft = bytes.length := by
    rw [replies, Int.toNat_natCast, result]
  have later : (fun k => replies fd bytesleft (k + 1)) =
      replies fd' (bytesleft - bytes.length) := by
    funext k left
    rw [replies, result]
    show replies fd' (bytesleft - (bytes.length : Int).toNat) k left = _
    rw [Int.toNat_natCast]
  have unfolded : ∀ fuel,
      transferLoop (replies fd bytesleft) len (fuel + 1) 0 msg.length bytesleft n =
        (transferLoop (replies fd' (bytesleft - bytes.length)) len fuel 0 (msg ++ bytes).length
          (bytesleft - bytes.length : Nat) bytes.length).map
          fun last => { last with log := bytes.length :: last.log } := by
    intro fuel
    rw [transferLoop_round (by omega) (by rw [first]; omega), transferLoop_shift, later, first,
      List.length_append, Nat.cast_add, Nat.cast_sub fits]
  cases ended with
  | fails => exact rest
  | hangs =>
      intro fuel
      cases fuel with
      | zero => rfl
      | succ fuel =>
          dsimp only
          rw [unfolded]
          exact congrArg (Option.map _) (rest fuel)
  | returns result socket =>
      obtain ⟨fuel, log, ran⟩ := rest
      refine ⟨fuel + 1, bytes.length :: log, ?_⟩
      dsimp only at ran ⊢
      rw [unfolded, ran]
      rfl

/-- The client's loop, from any point on. -/
theorem readAllLoop_sameEnd (n : Int) (whole : len = msg.length + bytesleft) :
    SameEnd (fun fuel => transferLoop (replies fd bytesleft) len fuel 0 msg.length bytesleft n)
      (readAllLoop n bytesleft msg fd) := by
  induction bytesleft using Nat.strongRecOn generalizing msg n fd with
  | ind bytesleft ih =>
      by_cases wanted : 0 < bytesleft
      · rw [readAllLoop, if_pos wanted]
        cases read : fd.read bytesleft with
        | hangs =>
            exact transferLoop_nothing (by rw [readResult, read]) wanted whole n
        | fails =>
            have failed : replies fd bytesleft 0 bytesleft = -1 := by
              rw [replies, Int.toNat_natCast, readResult, read]
            refine ⟨1, [-1], ?_⟩
            dsimp only
            rw [transferLoop, if_pos (by omega), failed]
            rfl
        | returns bytes fd' =>
            cases bytes with
            | nil => exact transferLoop_nothing (by rw [readResult, read]) wanted whole n
            | cons b bs =>
                have result : readResult fd bytesleft = (((b :: bs).length : Int), fd') := by
                  rw [readResult, read]
                have valid := readResult_valid fd bytesleft
                rw [result] at valid
                simp only [List.length_cons] at valid
                refine .round result ?_ wanted whole n (ih _ ?_ _ ?_)
                · rw [List.length_cons]
                  omega
                · rw [List.length_cons]
                  omega
                · rw [List.length_append, List.length_cons]
                  omega
      · rw [readAllLoop, if_neg wanted]
        refine ⟨1, [], ?_⟩
        dsimp only
        rw [transferLoop, if_neg (by omega)]

end Loop

/-- A call of `read_all_sync` in one model and in the other. -/
def SameCall (run : Nat → Option (Int × Int × List Int)) : Call (List UInt8) → Prop
  | .hangs => ∀ fuel, run fuel = none
  | .fails => ∃ fuel total log, run fuel = some (-1, total, log)
  | .returns msg _ => ∃ fuel log, run fuel = some (0, (msg.length : Int), log)

/-- The two translations of `read_all_sync` return together: 0 and the number of bytes where
the client goes on with them, -1 where it closes the socket. -/
theorem readAllSync_socket (g : Garbage) (len : Int) (fd : Socket) :
    SameCall (readAllSync (peerOf fd len.toNat) len g.n) (Codec.readAllSync g len fd) := by
  have same : SameEnd (fun fuel => transferLoop (replies fd len.toNat) len fuel 0 0 len g.n)
      (readAllLoop g.n len.toNat [] fd) := by
    by_cases nonneg : 0 ≤ len
    · have same : SameEnd (fun fuel => transferLoop (replies fd len.toNat) len fuel 0
          ([] : List UInt8).length len.toNat g.n) (readAllLoop g.n len.toNat [] fd) :=
        readAllLoop_sameEnd g.n (by simp [nonneg])
      rwa [Int.toNat_of_nonneg nonneg] at same
    · -- neither loop makes a call
      rw [readAllLoop, if_neg (by omega)]
      refine ⟨1, [], ?_⟩
      dsimp only
      rw [transferLoop, if_neg (by omega)]
      rfl
  unfold Codec.readAllSync
  generalize readAllLoop g.n len.toNat [] fd = ended at same
  cases ended with
  | fails => exact same.elim
  | hangs =>
      intro fuel
      have never : transferLoop (replies fd len.toNat) len fuel 0 0 len g.n = none := same fuel
      show transferAll (replies fd len.toNat) len g.n fuel = none
      rw [transferAll, never]
      rfl
  | returns result socket =>
      obtain ⟨msg, n⟩ := result
      obtain ⟨fuel, log, ran⟩ := same
      dsimp only at ran
      by_cases failed : n = -1
      · rw [Call.andThen_returns]
        dsimp only
        rw [if_pos failed]
        refine ⟨fuel, msg.length, log, ?_⟩
        show transferAll (replies fd len.toNat) len g.n fuel = _
        rw [transferAll, ran]
        simp [failed]
      · rw [Call.andThen_returns]
        dsimp only
        rw [if_neg failed]
        refine ⟨fuel, log, ?_⟩
        show transferAll (replies fd len.toNat) len g.n fuel = _
        rw [transferAll, ran]
        simp [failed]

end GpBase.Sync

import GpBase.Codec.Client
import GpBase.Codec.Stream

/-!
# Responses that arrive in pieces

`read_all_sync` reads until it has all it was asked for. `read_pb_header` reads each part
of the header with a single `read()`: a part that arrives in pieces is cut short, the
bytes behind the cut are what memory held before, and the next part begins too early.
-/

namespace GpBase.Codec

open GpBase.Lib GpBase.Buffer

/-- What a call returns, if it does. -/
def Call.result {α : Type} : Call α → Option α
  | .hangs => none
  | .fails => none
  | .returns a _ => some a

theorem Call.result_andThen {α β : Type} {call : Call α} {next : α → Socket → Call β} {b : β}
    (result : (call.andThen next).result = some b) :
    ∃ a fd, call = .returns a fd ∧ (next a fd).result = some b := by
  cases call with
  | hangs => cases result
  | fails => cases result
  | returns a fd => exact ⟨a, fd, rfl, result⟩

/-! ## Reading -/

section Reading

variable {bytes : List UInt8} {p : Nat → Nat} {closed : Bool}

/-- A socket whose `read()` calls return at most `p 0`, `p 1`, … bytes. -/
def inPieces (bytes : List UInt8) (p : Nat → Nat) (closed : Bool) : Socket :=
  { rest := bytes, reads := fun i => some (p i), closed := closed }

theorem read_inPieces (left : bytes ≠ []) (count : Nat) :
    (inPieces bytes p closed).read count = .returns (bytes.take (min (p 0) count))
      (inPieces (bytes.drop (min (p 0) count)) (fun i => p (i + 1)) closed) := by
  simp [Socket.read, inPieces, left]

/-- What the second `read()` of a header stores in `len`. -/
def lenBytes (bytes : List UInt8) (p : Nat → Nat) : List UInt8 :=
  (bytes.drop (min (p 0) 4)).take (min (p 1) 4)

def nameLenBytes (bytes : List UInt8) (p : Nat → Nat) : List UInt8 :=
  ((bytes.drop (min (p 0) 4)).drop (min (p 1) 4)).take (min (p 2) 4)

/-- What the bytes of the name and the message are taken from. -/
def behindNameLen (bytes : List UInt8) (p : Nat → Nat) : List UInt8 :=
  ((bytes.drop (min (p 0) 4)).drop (min (p 1) 4)).drop (min (p 2) 4)

def nameBytes (bytes : List UInt8) (p : Nat → Nat) (nameLen : Int) : List UInt8 :=
  (behindNameLen bytes p).take (min (p 3) nameLen.toNat)

/-- No `read()` of a header waits. -/
theorem readPbHeader_inPieces (long : 13 ≤ bytes.length) (g : Garbage) :
    readPbHeader g (inPieces bytes p closed) =
      let nameLen := ntohl g.nameLen (nameLenBytes bytes p)
      let name := nameBytes bytes p nameLen
      if ntohl g.magic (bytes.take (min (p 0) 4)) ≠ magicNumber ∨ nameLen < 0 then .fails
      else .returns
        (.ofBytes (name ++ g.name.drop name.length),
          int32 (ntohl g.len (lenBytes bytes p) - 4 - nameLen))
        (inPieces ((behindNameLen bytes p).drop (min (p 3) nameLen.toNat)) (fun i => p (i + 4))
          closed) := by
  have left : ∀ {n}, n ≤ 12 → bytes.drop n ≠ [] := by
    intro n few
    rw [ne_eq, List.drop_eq_nil_iff]
    omega
  have all : bytes ≠ [] := by
    rintro rfl
    simp at long
  unfold readPbHeader
  rw [read_inPieces all, Call.andThen_returns]
  by_cases magic : ntohl g.magic (bytes.take (min (p 0) 4)) ≠ magicNumber
  · rw [if_pos magic]
    simp [magic]
  · rw [if_neg magic, read_inPieces (left (by omega)), Call.andThen_returns]
    simp only [magic, false_or]
    rw [read_inPieces (by rw [List.drop_drop]; exact left (by omega)), Call.andThen_returns]
    simp only [Nat.zero_add]
    split
    · rename_i negative
      rw [if_pos (show ntohl g.nameLen (nameLenBytes bytes p) < 0 from negative)]
    · rename_i positive
      rw [if_neg (show ¬ ntohl g.nameLen (nameLenBytes bytes p) < 0 from positive),
        read_inPieces (by rw [List.drop_drop, List.drop_drop]; exact left (by omega)),
        Call.andThen_returns]
      rfl

/-- The loop gets all the bytes, in whatever pieces. -/
theorem readAllLoop_inPieces (closed : Bool) (bytes : List UInt8) (p : Nat → Nat)
    (progress : ∀ i, 1 ≤ p i) (n : Int)
    (msg : List UInt8) (got : n ≠ -1 ∨ bytes ≠ []) :
    ∃ n' fd, readAllLoop n bytes.length msg (inPieces bytes p closed) =
      .returns (msg ++ bytes, n') fd ∧ n' ≠ -1 := by
  generalize length : bytes.length = k
  induction k using Nat.strong_induction_on generalizing bytes p n msg with
  | _ k ih =>
      rw [readAllLoop]
      split
      · rename_i more
        have left : bytes ≠ [] := by
          rintro rfl
          simp [← length] at more
        rw [read_inPieces left]
        obtain ⟨b, bs, rfl⟩ := List.exists_cons_of_ne_nil left
        obtain ⟨j, first⟩ : ∃ j, min (p 0) k = j + 1 :=
          Nat.exists_eq_succ_of_ne_zero (by have := progress 0; omega)
        rw [first, List.take_succ_cons, List.drop_succ_cons]
        simp only [List.length_cons] at length
        have whole : (b :: bs.take j).length = j + 1 := by
          simp only [List.length_cons, List.length_take]
          omega
        obtain ⟨n', fd, rest, fine⟩ := ih (k - (j + 1)) (by omega) (bs.drop j) (fun i => p (i + 1))
          (fun i => progress (i + 1)) ((j + 1 : Nat) : Int) (msg ++ b :: bs.take j) (.inl (by omega))
          (by simp only [List.length_drop]; omega)
        refine ⟨n', fd, ?_, fine⟩
        simp only [whole]
        rw [rest]
        simp [List.append_assoc]
      · rename_i done
        have none : bytes = [] := List.length_eq_zero_iff.mp (by omega)
        subst none
        refine ⟨n, inPieces [] p closed, by simp, ?_⟩
        simpa using got

end Reading

/-! ## Header reads that are cut short -/

section Short

variable {pb : ProtobufC} {pbMap : CString → Option pb.Desc} {msg : pb.Msg} {g : Garbage}
  {bytes : List UInt8} {p : Nat → Nat} {closed : Bool}

/-- Names stand for the types they are the names of, and what is unpacked has the type
asked for. -/
structure Typed (pb : ProtobufC) (pbMap : CString → Option pb.Desc) : Prop where
  named : ∀ name desc, pbMap name = some desc → pb.name desc = name
  unpacked : ∀ desc bytes msg, pb.unpack desc bytes = some msg → pb.descriptor msg = desc

/-- A call that returns the message has read a good header. -/
theorem header_of_result (typed : Typed pb pbMap) (long : 13 ≤ bytes.length)
    (result : (sendMsgAndRecv pbMap g true (inPieces bytes p closed)).result = some (some msg)) :
    let nameLen := ntohl g.nameLen (nameLenBytes bytes p)
    let name := nameBytes bytes p nameLen
    ntohl g.magic (bytes.take (min (p 0) 4)) = magicNumber ∧ 0 ≤ nameLen ∧
      CString.ofBytes (name ++ g.name.drop name.length) = pb.name (pb.descriptor msg) ∧
      (int32 (ntohl g.len (lenBytes bytes p) - 4 - nameLen) ≤ 0 → g.n ≠ -1) := by
  intro nameLen name
  unfold sendMsgAndRecv at result
  rw [if_pos rfl, readPbHeader_inPieces long] at result
  by_cases bad : ntohl g.magic (bytes.take (min (p 0) 4)) ≠ magicNumber ∨ nameLen < 0
  · simp only [] at result
    rw [if_pos bad] at result
    cases result
  · simp only [] at result
    rw [if_neg bad, Call.andThen_returns] at result
    simp only [] at result
    split at result
    · cases result
    · rename_i desc found
      obtain ⟨payload, fd, read, unpacked⟩ := Call.result_andThen result
      have type := typed.unpacked desc payload msg (Option.some.inj unpacked)
      refine ⟨by_contra fun h => bad (.inl h), by omega, ?_, ?_⟩
      · rw [type]
        exact (typed.named _ desc found).symm
      · intro empty
        unfold readAllSync at read
        rw [Int.toNat_of_nonpos empty, readAllLoop, if_neg (Nat.lt_irrefl 0),
          Call.andThen_returns] at read
        simp only [] at read
        split at read
        · cases read
        · assumption

/-- A name of which the NUL has not been read can be any longer name. -/
theorem nul_of_ofBytes {bytes : List UInt8} {name : CString}
    (same : ∀ junk : List UInt8, CString.ofBytes (bytes ++ junk.drop bytes.length) = name) :
    (0 : UInt8) ∈ bytes := by
  by_contra none
  have whole : ∀ rest : List UInt8, (CString.ofBytes (bytes ++ rest)).bytes =
      bytes ++ rest.takeWhile (· ≠ 0) := by
    intro rest
    show (bytes ++ rest).takeWhile _ = _
    rw [List.takeWhile_append_of_pos]
    intro b mem
    have : b ≠ 0 := fun zero => none (zero ▸ mem)
    simpa using this
  have short := same (List.replicate bytes.length 0)
  have longer := same (List.replicate bytes.length 0 ++ [1])
  rw [← longer] at short
  have lengths := congrArg (fun name => name.bytes.length) short
  simp only [whole] at lengths
  simp at lengths

/-- A header word of four bytes. -/
theorem beInt_four (a b c d : UInt8) :
    (beInt [a, b, c, d] = a.toNat * 16777216 + b.toNat * 65536 + c.toNat * 256 + d.toNat ∧
      a.toNat < 128) ∨ beInt [a, b, c, d] < 0 := by
  have value : beNat [a, b, c, d] =
      a.toNat * 16777216 + b.toNat * 65536 + c.toNat * 256 + d.toNat := by
    simp only [beNat, List.foldl_cons, List.foldl_nil]
    omega
  have bytes := And.intro a.toNat_lt (And.intro b.toNat_lt (And.intro c.toNat_lt d.toNat_lt))
  simp only [beInt, value, List.length_cons, List.length_nil, Int.bmod_def]
  omega

theorem beInt_four_zero (b c d : UInt8) :
    beInt [0, b, c, d] = b.toNat * 65536 + c.toNat * 256 + d.toNat := by
  simp only [beInt, beNat, List.foldl_cons, List.foldl_nil, List.length_cons, List.length_nil,
    Int.bmod_def]
  have bytes := And.intro b.toNat_lt (And.intro c.toNat_lt d.toNat_lt)
  simp only [UInt8.toNat_zero]
  omega

theorem be32_of_lt {n : Nat} (small : n < 16777216) :
    ∃ b c d : UInt8, be32 n = [0, b, c, d] ∧ b.toNat * 65536 + c.toNat * 256 + d.toNat = n := by
  have same : uint32 n = n := by
    unfold uint32
    omega
  refine ⟨UInt8.ofNat (n / 256 / 256), UInt8.ofNat (n / 256), UInt8.ofNat n, ?_, ?_⟩
  · have high : n / 256 / 256 / 256 = 0 := by omega
    rw [be32, same]
    simp [beBytes, high]
  · simp only [UInt8.toNat_ofNat']
    omega

/-- What follows the header of a frame. -/
def frameBody (pb : ProtobufC) (msg : pb.Msg) : List UInt8 :=
  (pb.name (pb.descriptor msg)).bytes ++ 0 :: pb.pack msg

/-- The header of a frame, byte by byte. -/
structure Header (pb : ProtobufC) (msg : pb.Msg) (l₁ l₂ l₃ n₂ n₃ : UInt8) : Prop where
  layout : frameLayout pb msg =
    [1, 0x34, 0x3E, 0xA4, 0, l₁, l₂, l₃, 0, 0, n₂, n₃] ++ frameBody pb msg
  len : l₁.toNat * 65536 + l₂.toNat * 256 + l₃.toNat = lenField pb msg
  nameLen : n₂.toNat * 256 + n₃.toNat = (pb.name (pb.descriptor msg)).bytes.length + 1

theorem frameLayout_bytes (small : lenField pb msg ≤ 65536) :
    ∃ l₁ l₂ l₃ n₂ n₃, Header pb msg l₁ l₂ l₃ n₂ n₃ := by
  have short : (pb.name (pb.descriptor msg)).bytes.length + 1 < 65536 := by
    unfold lenField kHeader at small
    omega
  obtain ⟨l₁, l₂, l₃, len, lenEq⟩ := be32_of_lt (n := lenField pb msg) (by omega)
  obtain ⟨n₁, n₂, n₃, nameLen, nameEq⟩ :=
    be32_of_lt (n := (pb.name (pb.descriptor msg)).bytes.length + 1) (by omega)
  have zero : n₁ = 0 := by
    apply UInt8.toNat_inj.mp
    rw [UInt8.toNat_zero]
    omega
  subst zero
  refine ⟨l₁, l₂, l₃, n₂, n₃, ?_, lenEq, by simpa using nameEq⟩
  have magic : be32 magicNumber = [1, 0x34, 0x3E, 0xA4] := by decide
  rw [Nat.cast_add, Nat.cast_one] at nameLen
  rw [frameLayout, magic, len, nameLen]
  simp [frameBody]

/-- Memory that held zeros, and `-1` in the variable `n` of `read_all_sync`. -/
def Garbage.zeros (name : List UInt8) : Garbage :=
  { magic := fun _ => 0, len := fun _ => 0, nameLen := fun _ => 0, name := name, n := -1 }

/-- `name_len` as it is read into a variable that held zeros. -/
def nameLenRead (bytes : List UInt8) (p : Nat → Nat) : Int :=
  ntohl (fun _ => 0) (nameLenBytes bytes p)

/-- What a header has to be when memory held zeros and the message is returned whatever
the block for the name held. -/
structure GoodHeader (bytes : List UInt8) (p : Nat → Nat) (name : CString) : Prop where
  magic : ntohl (fun _ => 0) (bytes.take (min (p 0) 4)) = magicNumber
  nameLen : 0 ≤ nameLenRead bytes p
  msgLen : 0 < int32 (ntohl (fun _ => 0) (lenBytes bytes p) - 4 - nameLenRead bytes p)
  nul : (0 : UInt8) ∈ nameBytes bytes p (nameLenRead bytes p)
  name : CString.ofBytes (nameBytes bytes p (nameLenRead bytes p)) = name

theorem goodHeader_of_results (typed : Typed pb pbMap) (long : 13 ≤ bytes.length)
    (results : ∀ name, (sendMsgAndRecv pbMap (.zeros name) true
      (inPieces bytes p closed)).result = some (some msg)) :
    GoodHeader bytes p (pb.name (pb.descriptor msg)) := by
  have header := fun name => header_of_result typed long (results name)
  obtain ⟨magic, nameLen, named, msgLen⟩ := header []
  refine ⟨magic, nameLen, ?_, nul_of_ofBytes fun junk => (header junk).2.2.1, ?_⟩
  · by_contra empty
    exact msgLen (by simpa [nameLenRead, Garbage.zeros] using empty) rfl
  · rw [← named]
    simp [Garbage.zeros, nameLenRead]

variable {l₁ l₂ l₃ n₂ n₃ : UInt8} {name : CString}

theorem cut_cases {q : Nat} (progress : 1 ≤ q) :
    min q 4 = 1 ∨ min q 4 = 2 ∨ min q 4 = 3 ∨ min q 4 = 4 ∧ 4 ≤ q := by
  omega

theorem GoodHeader.magic_read (good : GoodHeader (frameLayout pb msg) p name)
    (header : Header pb msg l₁ l₂ l₃ n₂ n₃) (progress : 1 ≤ p 0) : 4 ≤ p 0 := by
  have magic := good.magic
  rw [header.layout] at magic
  rcases cut_cases progress with cut | cut | cut | ⟨_, all⟩
  · rw [cut] at magic
    exact absurd (show ntohl (fun _ => 0) [1] = magicNumber from magic) (by decide)
  · rw [cut] at magic
    exact absurd (show ntohl (fun _ => 0) [1, 0x34] = magicNumber from magic) (by decide)
  · rw [cut] at magic
    exact absurd (show ntohl (fun _ => 0) [1, 0x34, 0x3E] = magicNumber from magic) (by decide)
  · exact all

/-- No name is read where `name_len` is zero. -/
theorem GoodHeader.nameLen_ne (good : GoodHeader bytes p name) : nameLenRead bytes p ≠ 0 := by
  intro zero
  have nul := good.nul
  rw [zero, nameBytes] at nul
  simp at nul

theorem GoodHeader.msgLen_lt (good : GoodHeader bytes p name) {len nameLen : Int}
    (lenEq : ntohl (fun _ => 0) (lenBytes bytes p) = len) (nameEq : nameLenRead bytes p = nameLen)
    (range : 0 ≤ len ∧ len < 2 ^ 30 ∧ nameLen < 2 ^ 31 - 4) : nameLen + 4 < len := by
  have positive := good.msgLen
  have above := good.nameLen
  rw [lenEq, nameEq] at positive
  rw [nameEq] at above
  rw [int32_of_range (by omega) (by omega)] at positive
  omega

/-- A name that begins with the last byte of `name_len` and ends too early. -/
theorem GoodHeader.not_early (good : GoodHeader (frameLayout pb msg) p (pb.name (pb.descriptor msg)))
    (header : Header pb msg l₁ l₂ l₃ n₂ n₃) {r : Nat}
    (early : nameBytes (frameLayout pb msg) p (nameLenRead (frameLayout pb msg) p) =
      (n₃ :: frameBody pb msg).take r)
    (few : r ≤ (pb.name (pb.descriptor msg)).bytes.length + 1) : False := by
  have nul := good.nul
  have named := good.name
  have length := header.nameLen
  rw [early] at nul named
  cases r with
  | zero => simp at nul
  | succ r =>
      rw [List.take_succ_cons, frameBody, List.take_append_of_le_length (by omega)] at nul named
      rcases List.mem_cons.mp nul with zero | inside
      · -- the name would be empty
        rw [← zero] at named length
        have empty := congrArg CString.bytes named
        rw [show (CString.ofBytes (0 :: _)).bytes = [] from rfl] at empty
        rw [← empty] at length
        simp at length
      · exact (pb.name (pb.descriptor msg)).noNul (List.mem_of_mem_take inside)

/-- A word that is cut short, with zeros in the place of the bytes that are missing. -/
theorem ntohl_cut (a b c d : UInt8) (rest : List UInt8) {q : Nat} (progress : 1 ≤ q)
    (above : 0 ≤ ntohl (fun _ => 0) ((a :: b :: c :: d :: rest).take (min q 4))) :
    ∃ x y z : Nat, ntohl (fun _ => 0) ((a :: b :: c :: d :: rest).take (min q 4)) =
        ((a.toNat * 16777216 + x * 65536 + y * 256 + z : Nat) : Int) ∧ a.toNat < 128 ∧
      (x = 0 ∨ x = b.toNat) ∧ (y = 0 ∨ y = c.toNat) ∧ (z = 0 ∨ z = d.toNat ∧ 4 ≤ q) := by
  have word : ∀ b c d : UInt8, 0 ≤ beInt [a, b, c, d] → beInt [a, b, c, d] =
      ((a.toNat * 16777216 + b.toNat * 65536 + c.toNat * 256 + d.toNat : Nat) : Int) ∧
        a.toNat < 128 := by
    intro b c d above
    rcases beInt_four a b c d with ⟨value, high⟩ | negative
    · exact ⟨by rw [value]; push_cast; rfl, high⟩
    · omega
  rcases cut_cases progress with cut | cut | cut | ⟨cut, all⟩ <;> rw [cut] at above ⊢
  · obtain ⟨value, high⟩ := word 0 0 0 above
    exact ⟨_, _, _, value, high, .inl rfl, .inl rfl, .inl rfl⟩
  · obtain ⟨value, high⟩ := word b 0 0 above
    exact ⟨_, _, _, value, high, .inr rfl, .inl rfl, .inl rfl⟩
  · obtain ⟨value, high⟩ := word b c 0 above
    exact ⟨_, _, _, value, high, .inr rfl, .inr rfl, .inl rfl⟩
  · obtain ⟨value, high⟩ := word b c d above
    exact ⟨_, _, _, value, high, .inr rfl, .inr rfl, .inr ⟨rfl, all⟩⟩

theorem GoodHeader.nameLen_cut (good : GoodHeader bytes p name) (progress : 1 ≤ p 2) (a b c d : UInt8)
    (rest : List UInt8)
    (stream : (bytes.drop (min (p 0) 4)).drop (min (p 1) 4) = a :: b :: c :: d :: rest) :
    ∃ x y z : Nat, nameLenRead bytes p =
        ((a.toNat * 16777216 + x * 65536 + y * 256 + z : Nat) : Int) ∧ a.toNat < 128 ∧
      (x = 0 ∨ x = b.toNat) ∧ (y = 0 ∨ y = c.toNat) ∧ (z = 0 ∨ z = d.toNat ∧ 4 ≤ p 2) := by
  have above := good.nameLen
  unfold nameLenRead nameLenBytes at above ⊢
  rw [stream] at above ⊢
  exact ntohl_cut a b c d rest progress above

/-- With a `len` cut short `name_len` is zero, larger than `len` or the high byte of the
real one. -/
theorem GoodHeader.len_read (good : GoodHeader (frameLayout pb msg) p (pb.name (pb.descriptor msg)))
    (header : Header pb msg l₁ l₂ l₃ n₂ n₃) (small : lenField pb msg ≤ 65536) (first : 4 ≤ p 0)
    (progress : ∀ i, 1 ≤ p i) : 4 ≤ p 1 := by
  have lenEq := header.len
  have nameEq := header.nameLen
  have layout := header.layout
  have whole : min (p 0) 4 = 4 := by omega
  have nonzero := good.nameLen_ne
  have zero : (0 : UInt8).toNat = 0 := rfl
  have low := l₃.toNat_lt
  rcases cut_cases (progress 1) with cut | cut | cut | ⟨_, all⟩
  · have len : ntohl (fun _ => 0) (lenBytes (frameLayout pb msg) p) = 0 := by
      rw [lenBytes, layout, whole, cut]
      exact beInt_four_zero 0 0 0
    obtain ⟨x, y, z, value, _, b, c, d⟩ := good.nameLen_cut (progress 2) l₁ l₂ l₃ 0
      (0 :: n₂ :: n₃ :: frameBody pb msg) (by rw [layout, whole, cut]; rfl)
    have bound : ((l₁.toNat * 16777216 + x * 65536 + y * 256 + z : Nat) : Int) < 2 ^ 31 - 4 := by
      have := l₂.toNat_lt
      omega
    have := good.msgLen_lt len value ⟨by omega, by omega, bound⟩
    omega
  · have len : ntohl (fun _ => 0) (lenBytes (frameLayout pb msg) p) = l₁.toNat * 65536 := by
      rw [lenBytes, layout, whole, cut]
      exact (beInt_four_zero l₁ 0 0).trans (by simp)
    obtain ⟨x, y, z, value, _, b, c, d⟩ := good.nameLen_cut (progress 2) l₂ l₃ 0 0
      (n₂ :: n₃ :: frameBody pb msg) (by rw [layout, whole, cut]; rfl)
    have := good.msgLen_lt len value ⟨by omega, by omega, by omega⟩
    rw [value] at nonzero
    clear good header layout value len
    omega
  · have len : ntohl (fun _ => 0) (lenBytes (frameLayout pb msg) p) =
        l₁.toNat * 65536 + l₂.toNat * 256 := by
      rw [lenBytes, layout, whole, cut]
      exact (beInt_four_zero l₁ l₂ 0).trans (by simp)
    have few : n₂.toNat ≤ (pb.name (pb.descriptor msg)).bytes.length + 1 := by omega
    have high := n₂.toNat_lt
    obtain ⟨x, y, z, value, _, b, c, d⟩ := good.nameLen_cut (progress 2) l₃ 0 0 n₂
      (n₃ :: frameBody pb msg) (by rw [layout, whole, cut]; rfl)
    have := good.msgLen_lt len value ⟨by omega, by omega, by omega⟩
    obtain ⟨same, four⟩ : nameLenRead (frameLayout pb msg) p = n₂.toNat ∧ 4 ≤ p 2 := by
      rw [value] at nonzero ⊢
      omega
    refine (good.not_early header (r := min (p 3) n₂.toNat) ?_ ((Nat.min_le_right _ _).trans few)).elim
    have third : min (p 2) 4 = 4 := by omega
    rw [nameBytes, same, behindNameLen, layout, whole, cut, third]
    rfl
  · exact all

/-- A `name_len` cut short is zero or smaller than the real one. -/
theorem GoodHeader.nameLen_read
    (good : GoodHeader (frameLayout pb msg) p (pb.name (pb.descriptor msg)))
    (header : Header pb msg l₁ l₂ l₃ n₂ n₃) (first : 4 ≤ p 0) (second : 4 ≤ p 1)
    (progress : ∀ i, 1 ≤ p i) : 4 ≤ p 2 := by
  have layout := header.layout
  have whole : min (p 0) 4 = 4 := by omega
  have whole' : min (p 1) 4 = 4 := by omega
  have nonzero := good.nameLen_ne
  rcases cut_cases (progress 2) with cut | cut | cut | ⟨_, all⟩
  · refine absurd ?_ nonzero
    rw [nameLenRead, nameLenBytes, layout, whole, whole', cut]
    exact beInt_four_zero 0 0 0
  · refine absurd ?_ nonzero
    rw [nameLenRead, nameLenBytes, layout, whole, whole', cut]
    exact beInt_four_zero 0 0 0
  · have value : nameLenRead (frameLayout pb msg) p = (n₂.toNat * 256 : Nat) := by
      rw [nameLenRead, nameLenBytes, layout, whole, whole', cut]
      exact (beInt_four_zero 0 n₂ 0).trans (by simp)
    have few : n₂.toNat * 256 ≤ (pb.name (pb.descriptor msg)).bytes.length + 1 := by
      rw [← header.nameLen]
      exact Nat.le_add_right ..
    refine (good.not_early header (r := min (p 3) (n₂.toNat * 256)) ?_
      ((Nat.min_le_right _ _).trans few)).elim
    rw [nameBytes, value, Int.toNat_natCast, behindNameLen, layout, whole, whole', cut]
    rfl
  · exact all

/-- The values that a complete header is read with. -/
theorem Header.values (header : Header pb msg l₁ l₂ l₃ n₂ n₃) (first : 4 ≤ p 0) (second : 4 ≤ p 1)
    (third : 4 ≤ p 2) (junk : Nat → UInt8) :
    ntohl junk (lenBytes (frameLayout pb msg) p) = lenField pb msg ∧
    ntohl junk (nameLenBytes (frameLayout pb msg) p) =
      ((pb.name (pb.descriptor msg)).bytes.length + 1 : Nat) ∧
    behindNameLen (frameLayout pb msg) p = frameBody pb msg := by
  have layout := header.layout
  have whole : min (p 0) 4 = 4 := by omega
  have whole' : min (p 1) 4 = 4 := by omega
  have whole'' : min (p 2) 4 = 4 := by omega
  refine ⟨?_, ?_, ?_⟩
  · rw [lenBytes, layout, whole, whole', ← header.len]
    exact (beInt_four_zero l₁ l₂ l₃).trans (by push_cast; rfl)
  · rw [nameLenBytes, layout, whole, whole', whole'', ← header.nameLen]
    exact (beInt_four_zero 0 n₂ n₃).trans (by simp)
  · rw [behindNameLen, layout, whole, whole', whole'']
    rfl

/-- A name cut short has no NUL. -/
theorem GoodHeader.name_read
    (good : GoodHeader (frameLayout pb msg) p (pb.name (pb.descriptor msg)))
    (header : Header pb msg l₁ l₂ l₃ n₂ n₃) (lawful : pb.Lawful) (small : lenField pb msg ≤ 65536)
    (first : 4 ≤ p 0) (second : 4 ≤ p 1) (third : 4 ≤ p 2) :
    (pb.name (pb.descriptor msg)).bytes.length + 1 ≤ p 3 ∧ pb.pack msg ≠ [] := by
  obtain ⟨len, nameLen, behind⟩ := header.values first second third fun _ => 0
  constructor
  · by_contra short
    have nul := good.nul
    rw [nameBytes, nameLenRead, nameLen, Int.toNat_natCast, behind, frameBody,
      List.take_append_of_le_length (by omega)] at nul
    exact (pb.name (pb.descriptor msg)).noNul (List.mem_of_mem_take nul)
  · intro empty
    have bound : (pb.name (pb.descriptor msg)).bytes.length < 65536 := by
      unfold lenField kHeader at small
      omega
    have := good.msgLen_lt len nameLen ⟨by omega, by omega, by omega⟩
    rw [lenField, lawful.packedSize_eq, empty, kHeader] at this
    simp only [List.length_nil] at this
    omega

end Short

/-! ## The condition -/

section Whole

variable {pb : ProtobufC} {msg : pb.Msg} {p : Nat → Nat} {closed : Bool}

/-- Each `read()` of the header returns all that it was asked for, and the message is not
empty. -/
def HeaderWhole (pb : ProtobufC) (msg : pb.Msg) (p : Nat → Nat) : Prop :=
  4 ≤ p 0 ∧ 4 ≤ p 1 ∧ 4 ≤ p 2 ∧ (pb.name (pb.descriptor msg)).bytes.length + 1 ≤ p 3 ∧
    pb.pack msg ≠ []

theorem sendMsgAndRecv_whole {pbMap : CString → Option pb.Desc} (lawful : pb.Lawful)
    (registered : pbMap (pb.name (pb.descriptor msg)) = some (pb.descriptor msg))
    (small : lenField pb msg ≤ 65536) (progress : ∀ i, 1 ≤ p i) (whole : HeaderWhole pb msg p)
    (g : Garbage) :
    (sendMsgAndRecv pbMap g true (inPieces (frameLayout pb msg) p closed)).result =
      some (some msg) := by
  obtain ⟨first, second, third, fourth, payload⟩ := whole
  have all : min (p 3) ((pb.name (pb.descriptor msg)).bytes.length + 1) =
      ((pb.name (pb.descriptor msg)).bytes ++ [0]).length := by
    rw [List.length_append, List.length_singleton]
    omega
  have msgLen : int32 ((lenField pb msg : Int) - 4 -
      ((pb.name (pb.descriptor msg)).bytes.length + 1 : Nat)) = (pb.pack msg).length := by
    unfold lenField kHeader at small ⊢
    rw [lawful.packedSize_eq] at small ⊢
    rw [int32_of_range (by omega) (by omega)]
    omega
  obtain ⟨l₁, l₂, l₃, n₂, n₃, header⟩ := frameLayout_bytes small
  have long : 13 ≤ (frameLayout pb msg).length := by
    rw [header.layout]
    simp [frameBody]
    omega
  have magic : ntohl g.magic ((frameLayout pb msg).take (min (p 0) 4)) = magicNumber := by
    rw [header.layout, show min (p 0) 4 = 4 by omega]
    show beInt [1, 0x34, 0x3E, 0xA4] = magicNumber
    decide
  obtain ⟨_, nameLen, behind⟩ := header.values first second third g.nameLen
  obtain ⟨len, _, _⟩ := header.values first second third g.len
  have body : frameBody pb msg = ((pb.name (pb.descriptor msg)).bytes ++ [0]) ++ pb.pack msg := by
    simp [frameBody]
  unfold sendMsgAndRecv
  rw [if_pos rfl, readPbHeader_inPieces long]
  simp only [magic, nameLen, len, nameBytes, behind, body, Int.toNat_natCast, all, msgLen,
    List.take_left, List.drop_left]
  have fine : ¬ (magicNumber ≠ magicNumber ∨
      (((pb.name (pb.descriptor msg)).bytes.length + 1 : Nat) : Int) < 0) := by
    rintro (other | negative)
    · exact other rfl
    · exact absurd negative (Int.not_lt.mpr (Int.natCast_nonneg _))
  rw [if_neg fine, Call.andThen_returns]
  simp only [List.append_assoc, List.singleton_append, CString.ofBytes_append_nul, registered]
  obtain ⟨n', fd, read, fine⟩ := readAllLoop_inPieces closed (pb.pack msg)
    (fun i => p (i + 4)) (fun i => progress (i + 4)) g.n [] (.inr payload)
  rw [readAllSync, Int.toNat_natCast, read, Call.andThen_returns]
  simp only []
  rw [if_neg fine, Call.andThen_returns, List.nil_append, lawful.unpack_pack]
  rfl

/-- The server decodes the frame of a registered message. -/
theorem decode_frame {pbMap : CString → Option pb.Desc} (lawful : pb.Lawful)
    (registered : pbMap (pb.name (pb.descriptor msg)) = some (pb.descriptor msg))
    (small : lenField pb msg ≤ 65536) {b : GpBuffer} (wf : b.WF)
    (readable : b.readable = frameLayout pb msg) :
    ∃ b', decode pbMap b = .ok (b', some msg) := by
  have enough : 8 ≤ b.readable.length := by
    rw [readable, frameLayout_length lawful]
    exact Nat.le_add_left ..
  have whole := decodeBytes_frame pbMap lawful registered small []
  rw [List.append_nil, ← readable] at whole
  rcases decode_spec pbMap wf enough with ⟨fault, _, bytes⟩ | ⟨b', rest, msg', result, bytes, _⟩
  · cases whole.symm.trans bytes
  · cases whole.symm.trans bytes
    exact ⟨b', result⟩

/-- **The client and the server agree on a response** exactly when each `read()` of the
header returns all that it was asked for and the message is not empty: then
`send_msg_and_recv` returns the message, whatever memory held before and however the rest
of the response arrives, and it is the message that `decode` gets from the same bytes. -/
theorem client_agrees_iff (clientMap serverMap : CString → Option pb.Desc) (lawful : pb.Lawful)
    (typed : Typed pb clientMap)
    (registered : clientMap (pb.name (pb.descriptor msg)) = some (pb.descriptor msg))
    (served : serverMap (pb.name (pb.descriptor msg)) = some (pb.descriptor msg))
    (small : lenField pb msg ≤ 65536) (junk : Nat → UInt8) (beyond : UInt8)
    (progress : ∀ i, 1 ≤ p i) (closed : Bool) :
    ((∀ g, (sendMsgAndRecv clientMap g true
        (inPieces (encode pb junk beyond msg).frame p closed)).result = some (some msg)) ∧
      ∀ b : GpBuffer, b.WF → b.readable = (encode pb junk beyond msg).frame →
        ∃ b', decode serverMap b = .ok (b', some msg)) ↔
    HeaderWhole pb msg p := by
  rw [encode_frame junk beyond lawful msg (by omega)]
  constructor
  · rintro ⟨results, _⟩
    obtain ⟨l₁, l₂, l₃, n₂, n₃, header⟩ := frameLayout_bytes small
    have long : 13 ≤ (frameLayout pb msg).length := by
      rw [header.layout]
      simp [frameBody]
      omega
    have good := goodHeader_of_results typed long fun name => results (.zeros name)
    have first := good.magic_read header (progress 0)
    have second := good.len_read header small first progress
    have third := good.nameLen_read header first second progress
    obtain ⟨fourth, payload⟩ := good.name_read header lawful small first second third
    exact ⟨first, second, third, fourth, payload⟩
  · intro whole
    refine ⟨sendMsgAndRecv_whole lawful registered small progress whole, ?_⟩
    intro b wf readable
    exact decode_frame lawful served small wf readable

end Whole

/-- The one registered type. -/
def pingMap (name : CString) : Option pingProto.Desc :=
  if name = pingProto.name () then some () else none

theorem pingMap_typed : Typed pingProto pingMap where
  named := by
    intro name desc found
    unfold pingMap at found
    split at found
    · rename_i same
      exact same.symm
    · cases found
  unpacked := fun _ _ _ _ => rfl

/-- A `Ping` whose header arrives in whole parts and whose payload arrives byte by byte. -/
theorem client_agrees_iff_ping :
    (sendMsgAndRecv pingMap (.zeros []) true
      (inPieces (encode pingProto (fun _ => 0) 0 (5 : Fin 128)).frame
        (fun i => if i < 4 then 5 else 1) true)).result = some (some (5 : Fin 128)) := by
  have progress : ∀ i, 1 ≤ (fun i => if i < 4 then 5 else 1) i := by
    intro i
    dsimp only
    split <;> omega
  have whole : HeaderWhole pingProto (5 : Fin 128) (fun i => if i < 4 then 5 else 1) :=
    ⟨by decide, by decide, by decide, by decide, List.cons_ne_nil _ _⟩
  exact ((client_agrees_iff pingMap pingMap pingProto_lawful pingMap_typed rfl rfl
    (show 11 ≤ 65536 by decide) (fun _ => 0) 0 progress true).mpr whole).1 (.zeros [])

/-- The name of a `Ping` arrives in two pieces: the client looks up a type `Pi`. -/
theorem name_in_pieces :
    (sendMsgAndRecv pingMap (.zeros []) true
      (inPieces (encode pingProto (fun _ => 0) 0 (5 : Fin 128)).frame
        (fun i => if i = 3 then 2 else 4) true)).result = none := by
  decide +kernel

end GpBase.Codec

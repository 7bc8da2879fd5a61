import GpBase.Buffer.Model

/-!
# What each buffer operation does

`GpBuffer.WF` is the layout invariant of `gp_buffer`. For every operation one
lemma says what it does from a well-formed buffer: which fault it can raise,
that the layout is kept, and what becomes of the readable bytes. Callers cite
these lemmas and never unfold an operation.
-/

namespace GpBase.Buffer

open GpBase.Lib

namespace GpBuffer

/-- The layout invariant: the indices are ordered, the cheap-prepend area is
kept free, and `len` is the size of the block. -/
structure WF (b : GpBuffer) : Prop where
  prepend : kCheapPrepend ≤ b.readerIndex
  order : b.readerIndex ≤ b.writerIndex
  bound : b.writerIndex ≤ b.len
  size : b.buffer.length = b.len

variable {b : GpBuffer}

theorem WF.init (junk : Nat → UInt8) : (initGpBuffer junk).WF where
  prepend := Nat.le_refl _
  order := Nat.le_refl _
  bound := Nat.le_add_right _ _
  size := by simp [initGpBuffer]

theorem readable_init (junk : Nat → UInt8) : (initGpBuffer junk).readable = [] :=
  window_empty _ _

theorem WF.readable_length (wf : b.WF) : b.readable.length = b.readableBytes :=
  window_length (by rw [wf.size]; exact wf.bound)

/-! ## Consuming -/

theorem WF.retrieveAll (wf : b.WF) : b.retrieveAll.WF where
  prepend := Nat.le_refl _
  order := Nat.le_refl _
  bound := wf.prepend.trans (wf.order.trans wf.bound)
  size := wf.size

@[simp] theorem readable_retrieveAll (b : GpBuffer) : b.retrieveAll.readable = [] :=
  window_empty _ _

theorem WF.retrieve (wf : b.WF) (n : Nat) : (b.retrieve n).WF := by
  unfold GpBuffer.retrieve
  split
  · rename_i short
    unfold readableBytes at short
    exact ⟨wf.prepend.trans (Nat.le_add_right _ _), by simp only; omega, wf.bound, wf.size⟩
  · exact wf.retrieveAll

/-- `retrieve` drops from the front; asking for more than there is empties
the buffer, which is what dropping too many means. -/
theorem WF.readable_retrieve (wf : b.WF) (n : Nat) :
    (b.retrieve n).readable = b.readable.drop n := by
  unfold GpBuffer.retrieve
  split
  · exact (window_drop _ _ _ _).symm
  · rename_i enough
    rw [readable_retrieveAll, List.drop_eq_nil_of_le]
    rw [wf.readable_length]
    omega

/-- Every read of readable bytes succeeds and returns them. -/
theorem WF.peekAt_eq (wf : b.WF) (off n : Nat) (enough : off + n ≤ b.readable.length) :
    b.peekAt off n = .ok ((b.readable.drop off).take n) := by
  rw [wf.readable_length] at enough
  have order := wf.order
  unfold readableBytes at enough
  rw [GpBuffer.peekAt, readable, window_drop]
  exact load_window (by omega) (by rw [wf.size]; exact wf.bound)

/-- A peek that asks for room first: it aborts exactly on underflow. -/
theorem WF.guarded_peek (wf : b.WF) (n : Nat) {β : Type} (k : List UInt8 → β) :
    (if n ≤ b.readableBytes then b.peekAt 0 n >>= fun bytes => .ok (k bytes)
      else .error .abort) =
      if n ≤ b.readable.length then .ok (k (b.readable.take n)) else .error .abort := by
  rw [← wf.readable_length]
  split
  · rw [wf.peekAt_eq 0 n (by omega), List.drop_zero]
    rfl
  · rfl

theorem WF.peekInt_eq (wf : b.WF) (width : Nat) :
    b.peekInt width =
      if width ≤ b.readable.length then .ok (beInt (b.readable.take width))
      else .error .abort :=
  wf.guarded_peek width beInt

/-- The typed reads abort exactly on underflow. -/
theorem WF.readInt_eq (wf : b.WF) (width : Nat) :
    b.readInt width =
      if width ≤ b.readable.length then
        .ok (b.retrieve width, beInt (b.readable.take width))
      else .error .abort := by
  rw [readInt, wf.peekInt_eq]
  split <;> rfl

theorem WF.readStr_eq (wf : b.WF) (n : Int) :
    b.readStr n =
      if sizeT n ≤ b.readable.length then
        .ok (b.retrieve (sizeT n), b.readable.take (sizeT n) ++ [0])
      else .error .abort := by
  have peeked : b.peekStr n = _ := wf.guarded_peek (sizeT n) (· ++ [0])
  rw [readStr, peeked]
  split <;> rfl

theorem WF.readPbMsg_eq (wf : b.WF) {Msg : Type} (unpack : List UInt8 → Option Msg)
    (n : Int) :
    b.readPbMsg unpack n =
      if sizeT n ≤ b.readable.length then
        .ok (b.retrieve (sizeT n), unpack (b.readable.take (sizeT n)))
      else .error .abort := by
  have peeked : b.peekPbMsg unpack n = _ := wf.guarded_peek (sizeT n) unpack
  rw [readPbMsg, peeked]
  split <;> rfl

/-! ## Making room -/

theorem realloc_length (junk : Nat → UInt8) (block : List UInt8) (size : Nat) :
    (realloc junk block size).length = size := by
  simp only [realloc, List.length_append, List.length_take, List.length_map,
    List.length_range]
  omega

/-- Growing keeps the data where it is; sliding moves it to the front. Either
way the readable bytes survive and the requested room is there. -/
theorem WF.makeSpace_spec (wf : b.WF) (junk : Nat → UInt8) {n : Nat}
    (short : b.writableBytes < n) :
    ∃ b', b.makeSpace junk n = .ok b' ∧ b'.WF ∧ b'.readable = b.readable ∧
      n ≤ b'.writableBytes := by
  have ⟨prepend, order, bound, size⟩ := wf
  unfold GpBuffer.makeSpace
  unfold writableBytes at short ⊢
  split
  · refine ⟨_, rfl, ⟨prepend, order, by simp, ?_⟩, ?_, by simp⟩
    · simp only [realloc_length]
      omega
    · exact window_take_append (Nat.le_add_right _ _) (by rw [size]; exact bound)
  · rename_i room
    unfold prependableBytes kCheapPrepend at room
    unfold kCheapPrepend at prepend
    have dataLength : b.readable.length = b.readableBytes := wf.readable_length
    have loaded : load b.buffer b.readerIndex b.readableBytes = .ok b.readable := by
      have := wf.peekAt_eq 0 b.readableBytes (by omega)
      simpa [peekAt, ← dataLength] using this
    unfold readableBytes at dataLength loaded
    have fits : kCheapPrepend + b.readable.length ≤ b.buffer.length := by
      unfold kCheapPrepend; omega
    simp only [readableBytes, loaded, store_ok fits, bind, Except.bind, pure, Except.pure]
    refine ⟨_, rfl, ⟨Nat.le_refl _, by simp, ?_, ?_⟩, ?_, ?_⟩
    · simp only [kCheapPrepend]
      omega
    · simp only [store_length fits, size]
    · rw [← dataLength]
      have := window_store (Nat.le_refl kCheapPrepend) fits
      simpa [readable] using this
    · simp only [kCheapPrepend]
      omega

theorem WF.ensureWritableBytes_spec (wf : b.WF) (junk : Nat → UInt8) (n : Nat) :
    ∃ b', b.ensureWritableBytes junk n = .ok b' ∧ b'.WF ∧ b'.readable = b.readable ∧
      n ≤ b'.writableBytes := by
  unfold GpBuffer.ensureWritableBytes
  split
  · rename_i short
    exact wf.makeSpace_spec junk short
  · exact ⟨b, rfl, wf, rfl, by omega⟩

/-- Bytes stored right behind the writer index become readable. -/
theorem WF.stored (wf : b.WF) (str : List UInt8) (room : str.length ≤ b.writableBytes) :
    ∃ block, store b.buffer b.writerIndex str = .ok block ∧
      (hasWritten { b with buffer := block } str.length).WF ∧
      (hasWritten { b with buffer := block } str.length).readable = b.readable ++ str := by
  have ⟨prepend, order, bound, size⟩ := wf
  unfold writableBytes at room
  have fits : b.writerIndex + str.length ≤ b.buffer.length := by omega
  refine ⟨_, store_ok fits, ⟨prepend, ?_, ?_, ?_⟩, ?_⟩
  · simp only [hasWritten]
    omega
  · simp only [hasWritten]
    omega
  · simp only [hasWritten, store_length fits, size]
  · exact window_store order fits

theorem WF.bufferAppend_spec (wf : b.WF) (junk : Nat → UInt8) (str : List UInt8) :
    ∃ b', b.bufferAppend junk str = .ok b' ∧ b'.WF ∧ b'.readable = b.readable ++ str := by
  obtain ⟨b₁, ensured, wf₁, same, room⟩ := wf.ensureWritableBytes_spec junk str.length
  obtain ⟨block, stored, wf₂, extended⟩ := wf₁.stored str room
  refine ⟨hasWritten { b₁ with buffer := block } str.length, ?_, wf₂, ?_⟩
  · simp [GpBuffer.bufferAppend, ensured, stored, bind, Except.bind, pure, Except.pure]
  · rw [extended, same]

/-- The number of bytes that one `readv` of `buffer_read_fd` can take. -/
def readvLimit (b : GpBuffer) : Nat :=
  if b.writableBytes < extrabufSize then b.writableBytes + extrabufSize else b.writableBytes

/-- A successful `readv` appends exactly what it received. -/
theorem WF.bufferReadFd_data (wf : b.WF) (junk : Nat → UInt8) (avail : List UInt8)
    (savedErrno : Int) :
    ∃ b', b.bufferReadFd junk (.data avail) savedErrno =
        .ok (b', (avail.take b.readvLimit).length, savedErrno) ∧
      b'.WF ∧ b'.readable = b.readable ++ avail.take b.readvLimit := by
  set got := avail.take b.readvLimit with gotDef
  obtain ⟨block, stored, wf₁, extended⟩ :=
    wf.stored (got.take b.writableBytes) (by simp)
  unfold GpBuffer.bufferReadFd
  simp only [← readvLimit.eq_def, ← gotDef, stored, bind, Except.bind, pure, Except.pure]
  split
  · rename_i fits
    have whole : got.take b.writableBytes = got := List.take_of_length_le fits
    rw [whole] at wf₁ extended
    exact ⟨_, rfl, wf₁, extended⟩
  · rename_i spill
    -- the block is full: the writer index is at `len` and `extrabuf` is appended
    have full : (got.take b.writableBytes).length = b.writableBytes := by simp; omega
    have atLen : b.writerIndex + b.writableBytes = b.len := by
      have := wf.bound
      unfold writableBytes
      omega
    rw [full, hasWritten] at wf₁ extended
    simp only [atLen] at wf₁ extended
    obtain ⟨b₂, appended, wf₂, rest⟩ := wf₁.bufferAppend_spec junk (got.drop b.writableBytes)
    rw [appended]
    refine ⟨b₂, rfl, wf₂, ?_⟩
    rw [rest, extended, List.append_assoc, List.take_append_drop]

end GpBuffer

end GpBase.Buffer

import GpBase.Buffer.Spec
import GpBase.Lib.Outcome

/-!
# How far a buffer grows

Only `make_space` changes the size of the block, and only where sliding the data to the front
does not make room. Consuming never moves the writer index on.
-/

namespace GpBase.Buffer

open GpBase.Lib

/-- `b'` is `b` after some of the data has been consumed. -/
structure Consumed (b b' : GpBuffer) : Prop where
  len : b'.len = b.len
  writer : b'.writerIndex ≤ b.writerIndex
  wf : b'.WF

theorem Consumed.trans {b b' b'' : GpBuffer} (first : Consumed b b') (second : Consumed b' b'') :
    Consumed b b'' :=
  ⟨second.len.trans first.len, second.writer.trans first.writer, second.wf⟩

namespace GpBuffer

variable {b b' : GpBuffer} {junk : Nat → UInt8}

theorem WF.consumed (wf : b.WF) : Consumed b b := ⟨rfl, le_refl _, wf⟩

theorem WF.consumed_retrieveAll (wf : b.WF) : Consumed b b.retrieveAll :=
  ⟨rfl, wf.prepend.trans wf.order, wf.retrieveAll⟩

theorem WF.consumed_retrieve (wf : b.WF) (n : Nat) : Consumed b (b.retrieve n) := by
  have kept := wf.retrieve n
  unfold GpBuffer.retrieve at kept ⊢
  split at kept
  · next short =>
      rw [if_pos short]
      exact ⟨rfl, le_refl _, kept⟩
  · next all =>
      rw [if_neg all]
      exact wf.consumed_retrieveAll

/-- The block grows only when the request does not fit beside the data. -/
theorem makeSpace_len {n : Nat} (made : b.makeSpace junk n = .ok b') :
    b'.len = b.len ∨
      b.writableBytes + b.prependableBytes < n + kCheapPrepend ∧ b'.len = n + b.writerIndex := by
  unfold makeSpace at made
  split at made
  · next tight =>
      cases made
      exact .inr ⟨tight, rfl⟩
  · obtain ⟨data, _, made⟩ := bind_eq_ok made
    obtain ⟨block, _, made⟩ := bind_eq_ok made
    cases made
    exact .inl rfl

theorem ensureWritableBytes_len {n : Nat} (ensured : b.ensureWritableBytes junk n = .ok b') :
    b'.len = b.len ∨
      b.writableBytes + b.prependableBytes < n + kCheapPrepend ∧ b'.len = n + b.writerIndex := by
  unfold ensureWritableBytes at ensured
  split at ensured
  · exact makeSpace_len ensured
  · cases ensured
    exact .inl rfl

/-- `buffer_append`, where the data is what the block cannot take. -/
theorem bufferAppend_len {str : List UInt8} (appended : b.bufferAppend junk str = .ok b') :
    b'.len = b.len ∨
      b.writableBytes + b.prependableBytes < str.length + kCheapPrepend ∧
        b'.len = str.length + b.writerIndex := by
  obtain ⟨b₁, ensured, rest⟩ := bind_eq_ok appended
  obtain ⟨block, _, rest⟩ := bind_eq_ok rest
  cases rest
  show b₁.len = _ ∨ _ ∧ b₁.len = _
  exact ensureWritableBytes_len ensured

/-- A read leaves the size of the block, or makes it little more than the data. -/
theorem WF.bufferReadFd_len (wf : b.WF) {r : ReadResult} {e e' : Int} {n : Nat}
    (read : b.bufferReadFd junk r e = .ok (b', n, e')) :
    b'.len = b.len ∨ b'.len < b'.readable.length + extrabufSize + kCheapPrepend := by
  have bound := wf.bound
  have order := wf.order
  cases r with
  | error errno =>
      cases read
      exact .inl rfl
  | data avail =>
      obtain ⟨_, same, _, readable⟩ := wf.bufferReadFd_data junk avail e
      cases same.symm.trans read
      obtain ⟨block, _, rest⟩ := bind_eq_ok read
      change (if (avail.take b.readvLimit).length ≤ b.writableBytes then _ else _) = _ at rest
      split at rest
      · cases rest
        exact .inl rfl
      · next spill =>
          obtain ⟨grown, appended, rest⟩ := bind_eq_ok rest
          cases rest
          obtain same | ⟨tight, larger⟩ := bufferAppend_len appended
          · exact .inl same
          · right
            change b.len - b.len + b.readerIndex <
              ((avail.take b.readvLimit).drop b.writableBytes).length + kCheapPrepend at tight
            change _ = ((avail.take b.readvLimit).drop b.writableBytes).length + b.len at larger
            have data := wf.readable_length
            have limit : (avail.take b.readvLimit).length ≤ b.readvLimit := List.length_take_le ..
            rw [List.length_drop] at tight larger
            rw [larger, readable, List.length_append, data]
            generalize (avail.take b.readvLimit).length = got at *
            unfold readvLimit at limit
            unfold readableBytes writableBytes at *
            split at limit <;> omega

end GpBuffer

end GpBase.Buffer

import GpBase.Lib.Run
import GpBase.Buffer.Spec

/-!
# `gp_buffer` is a byte queue

A client of the buffer sees a queue of bytes: appends go to the back, reads
and retrievals take from the front, and where the bytes lie in the block is
never visible. `run_refines_queue` says so for every sequence of calls from
`init_gp_buffer`, whatever the mix of growing, sliding and `readv` spills.
-/

namespace GpBase.Buffer

open GpBase.Lib

/-- One call on a buffer. -/
inductive Op
  | bufferAppend (str : List UInt8)
  | ensureWritableBytes (n : Nat)
  | retrieve (n : Nat)
  | retrieveAll
  | readInt8
  | readInt16
  | readInt32
  | readInt64
  | readStr (n : Int)
  | bufferReadFd (r : ReadResult)
  deriving DecidableEq, Repr

/-- What a call returns. -/
inductive Out
  | unit
  | int (v : Int)
  | str (s : List UInt8)
  | read (n : Nat) (savedErrno : Int)
  deriving DecidableEq, Repr

/-- Run one call on the buffer. -/
def Op.exec (junk : Nat → UInt8) (b : GpBuffer) : Op → Except Fault (GpBuffer × Out)
  | .bufferAppend str => do return (← b.bufferAppend junk str, .unit)
  | .ensureWritableBytes n => do return (← b.ensureWritableBytes junk n, .unit)
  | .retrieve n => return (b.retrieve n, .unit)
  | .retrieveAll => return (b.retrieveAll, .unit)
  | .readInt8 => do let (b', v) ← b.readInt8; return (b', .int v)
  | .readInt16 => do let (b', v) ← b.readInt16; return (b', .int v)
  | .readInt32 => do let (b', v) ← b.readInt32; return (b', .int v)
  | .readInt64 => do let (b', v) ← b.readInt64; return (b', .int v)
  | .readStr n => do let (b', s) ← b.readStr n; return (b', .str s)
  | .bufferReadFd r => do
    let (b', n, savedErrno) ← b.bufferReadFd junk r 0
    return (b', .read n savedErrno)

/-- The calls on one buffer, from `init_gp_buffer`; a call that faults has no
successor state. -/
def bufferSys (junk : Nat → UInt8) : TSys GpBuffer (Op × Out) where
  init b := b = .initGpBuffer junk
  step b call b' := call.1.exec junk b = .ok (b', call.2)

/-! ## The abstract queue -/

/-- The front of the queue that a call consumes; a read needs all of it. -/
def Op.takes : Op → Nat
  | .retrieve n => n
  | .readInt8 => 1
  | .readInt16 => 2
  | .readInt32 => 4
  | .readInt64 => 8
  | .readStr n => sizeT n
  | _ => 0

/-- Effect of a call with its returned value on the queue of bytes. -/
def queueStep (q : List UInt8) : Op × Out → List UInt8
  | (.bufferAppend str, _) => q ++ str
  | (.bufferReadFd (.data avail), .read n _) => q ++ avail.take n
  | (.retrieveAll, _) => []
  | (op, _) => q.drop op.takes

/-- The value that a read must return when `q` is queued. -/
def queueValue (q : List UInt8) : Op → Out → Prop
  | .readInt8, out => out = .int (beInt (q.take 1))
  | .readInt16, out => out = .int (beInt (q.take 2))
  | .readInt32, out => out = .int (beInt (q.take 4))
  | .readInt64, out => out = .int (beInt (q.take 8))
  | .readStr n, out => out = .str (q.take (sizeT n) ++ [0])
  | .bufferReadFd (.data avail), out => ∃ n, out = .read n 0 ∧ n ≤ avail.length
  | .bufferReadFd (.error errno), out => out = .read (sizeT (-1)) errno
  | _, out => out = .unit

/-- The bytes appended in a history of calls and not yet retrieved. -/
def queueOf (calls : List (Op × Out)) : List UInt8 := calls.foldl queueStep []

theorem queueOf_snoc (calls : List (Op × Out)) (call : Op × Out) :
    queueOf (calls ++ [call]) = queueStep (queueOf calls) call := by
  simp [queueOf]

/-! ## Refinement -/

/-- The four integer reads are one argument at four widths. -/
private theorem Op.exec_readInt (junk : Nat → UInt8) {b : GpBuffer} (wf : b.WF) (op : Op)
    (width : Nat)
    (body : op.exec junk b = (do let (b', v) ← b.readInt width; return (b', .int v)))
    (takes : op.takes = width)
    (effect : ∀ out, queueStep b.readable (op, out) = b.readable.drop width)
    (value : queueValue b.readable op (.int (beInt (b.readable.take width)))) :
    (∃ b' out, op.exec junk b = .ok (b', out) ∧ b'.WF ∧
      b'.readable = queueStep b.readable (op, out) ∧ queueValue b.readable op out) ∨
    (op.exec junk b = .error .abort ∧ b.readable.length < op.takes) := by
  rw [body, wf.readInt_eq, takes]
  by_cases enough : width ≤ b.readable.length
  · refine .inl ⟨_, _, by rw [if_pos enough]; rfl, wf.retrieve width, ?_, value⟩
    rw [effect, wf.readable_retrieve]
  · exact .inr ⟨by rw [if_neg enough]; rfl, Nat.lt_of_not_le enough⟩

/-- What one call does: it returns, keeping the layout and acting on the
readable bytes as on a queue, or it is a read that hits `abort()` because the
queue is too short. -/
theorem Op.exec_spec (junk : Nat → UInt8) {b : GpBuffer} (wf : b.WF) (op : Op) :
    (∃ b' out, op.exec junk b = .ok (b', out) ∧ b'.WF ∧
      b'.readable = queueStep b.readable (op, out) ∧ queueValue b.readable op out) ∨
    (op.exec junk b = .error .abort ∧ b.readable.length < op.takes) := by
  cases op with
  | bufferAppend str =>
      obtain ⟨b', appended, wf', back⟩ := wf.bufferAppend_spec junk str
      exact .inl ⟨b', .unit, by simp [Op.exec, appended, bind, Except.bind, pure, Except.pure],
        wf', back, rfl⟩
  | ensureWritableBytes n =>
      obtain ⟨b', ensured, wf', same, _⟩ := wf.ensureWritableBytes_spec junk n
      exact .inl ⟨b', .unit, by simp [Op.exec, ensured, bind, Except.bind, pure, Except.pure],
        wf', same, rfl⟩
  | retrieve n =>
      exact .inl ⟨_, .unit, rfl, wf.retrieve n, wf.readable_retrieve n, rfl⟩
  | retrieveAll => exact .inl ⟨_, .unit, rfl, wf.retrieveAll, b.readable_retrieveAll, rfl⟩
  | readInt8 => exact Op.exec_readInt junk wf _ 1 rfl rfl (fun _ => rfl) rfl
  | readInt16 => exact Op.exec_readInt junk wf _ 2 rfl rfl (fun _ => rfl) rfl
  | readInt32 => exact Op.exec_readInt junk wf _ 4 rfl rfl (fun _ => rfl) rfl
  | readInt64 => exact Op.exec_readInt junk wf _ 8 rfl rfl (fun _ => rfl) rfl
  | readStr n =>
      by_cases enough : sizeT n ≤ b.readable.length
      · refine .inl ⟨_, _, ?_, wf.retrieve _, wf.readable_retrieve _, rfl⟩
        simp only [Op.exec, wf.readStr_eq, if_pos enough]
        rfl
      · refine .inr ⟨?_, Nat.lt_of_not_le enough⟩
        simp only [Op.exec, wf.readStr_eq, if_neg enough]
        rfl
  | bufferReadFd r =>
      cases r with
      | error errno => exact .inl ⟨b, _, rfl, wf, rfl, rfl⟩
      | data avail =>
          obtain ⟨b', received, wf', back⟩ := wf.bufferReadFd_data junk avail 0
          refine .inl ⟨b', .read (avail.take b.readvLimit).length 0, ?_, wf', ?_,
            (avail.take b.readvLimit).length, rfl, ?_⟩
          · simp only [Op.exec, received]
            rfl
          · rw [back, queueStep, List.length_take]
            congr 1
            rw [← List.take_take, List.take_length]
          · simp

/-- No call copies outside the block. -/
theorem Op.exec_inBounds (junk : Nat → UInt8) {b : GpBuffer} (wf : b.WF) (op : Op) :
    op.exec junk b ≠ .error .outOfBounds := by
  rcases op.exec_spec junk wf with ⟨_, _, returned, _⟩ | ⟨aborted, _⟩
  · simp [returned]
  · simp [aborted]

/-- The layout invariant and the queue contents hold along every run. -/
theorem run_wf_queue (junk : Nat → UInt8) {calls : List (Op × Out)} {b : GpBuffer}
    (run : (bufferSys junk).Run calls b) : b.WF ∧ b.readable = queueOf calls := by
  refine run.invariant (I := fun calls b => b.WF ∧ b.readable = queueOf calls) ?_ ?_
  · rintro _ rfl
    exact ⟨.init junk, GpBuffer.readable_init junk⟩
  · rintro calls b ⟨op, out⟩ b' _ ⟨wf, contents⟩ stepped
    rcases op.exec_spec junk wf with ⟨_, _, returned, wf', queued, _⟩ | ⟨aborted, _⟩
    · simp only [bufferSys, returned, Except.ok.injEq, Prod.mk.injEq] at stepped
      obtain ⟨rfl, rfl⟩ := stepped
      exact ⟨wf', by rw [queued, contents, queueOf_snoc]⟩
    · simp [bufferSys, aborted] at stepped

/-- **Byte-queue refinement.** After every sequence of calls from
`init_gp_buffer` that does not abort: the indices are ordered inside `len` and
the block has `len` bytes; the readable bytes are those appended and not yet
retrieved; the next call, whichever it is, stays inside the block, and either
returns what the queue says or is a read that asks for more than is queued;
`ensure_writable_bytes` provides the room asked for; a failed `readv` changes
nothing. -/
theorem run_refines_queue (junk : Nat → UInt8) {calls : List (Op × Out)} {b : GpBuffer}
    (run : (bufferSys junk).Run calls b) :
    (8 ≤ b.readerIndex ∧ b.readerIndex ≤ b.writerIndex ∧ b.writerIndex ≤ b.len ∧
      b.buffer.length = b.len) ∧
    b.readable = queueOf calls ∧
    (∀ op : Op, op.exec junk b ≠ .error .outOfBounds) ∧
    (∀ op : Op,
      (∃ b' out, op.exec junk b = .ok (b', out) ∧ queueValue (queueOf calls) op out) ∨
      (op.exec junk b = .error .abort ∧ (queueOf calls).length < op.takes)) ∧
    (∀ n, ∃ b', (Op.ensureWritableBytes n).exec junk b = .ok (b', .unit) ∧
      n ≤ b'.writableBytes) ∧
    (∀ errno, (Op.bufferReadFd (.error errno)).exec junk b =
      .ok (b, .read (sizeT (-1)) errno)) := by
  obtain ⟨wf, contents⟩ := run_wf_queue junk run
  refine ⟨⟨wf.prepend, wf.order, wf.bound, wf.size⟩, contents,
    Op.exec_inBounds junk wf, ?_, ?_, fun _ => rfl⟩
  · intro op
    rw [← contents]
    rcases op.exec_spec junk wf with ⟨b', out, returned, _, _, value⟩ | aborted
    · exact .inl ⟨b', out, returned, value⟩
    · exact .inr aborted
  · intro n
    obtain ⟨b', ensured, _, _, room⟩ := wf.ensureWritableBytes_spec junk n
    exact ⟨b', by simp [Op.exec, ensured, bind, Except.bind, pure, Except.pure], room⟩

/-- A call that returns what it is said to return, computed. -/
def Op.after (b : GpBuffer) (call : Op × Out) : Option GpBuffer :=
  match call.1.exec (fun _ => 0) b with
  | .ok (b', out) => if out = call.2 then some b' else none
  | .error _ => none

theorem Op.after_step (b : GpBuffer) (call : Op × Out) (b' : GpBuffer)
    (ran : Op.after b call = some b') : (bufferSys fun _ => 0).step b call b' := by
  unfold Op.after at ran
  split at ran
  · rename_i b₁ out returned
    split at ran
    · rename_i same
      cases ran
      rw [← show (call.1, out) = call from Prod.ext rfl same]
      exact returned
    · cases ran
  · cases ran

/-- Eight thousand bytes come and all but two of them go; then the block has no room for 500
bytes behind them, and room enough when they have been moved to its front. -/
def slidingCalls : List (Op × Out) :=
  [(.bufferAppend (List.replicate 8000 7), .unit), (.retrieve 7998, .unit),
    (.ensureWritableBytes 500, .unit), (.bufferAppend [1, 2, 3], .unit)]

theorem run_refines_queue_sliding :
    ∃ b, (bufferSys fun _ => 0).Run slidingCalls b ∧ b.len = 8200 ∧ b.readerIndex = 8 ∧
      b.readable = [7, 7, 1, 2, 3] := by
  have ran : (slidingCalls.foldlM Op.after (.initGpBuffer fun _ => 0)).map
      (fun b => (b.len, b.readerIndex)) = some (8200, 8) := by decide +kernel
  obtain ⟨b, ran, block⟩ := Option.map_eq_some_iff.mp ran
  have run : (bufferSys fun _ => 0).Run slidingCalls b :=
    TSys.Run.exec Op.after_step (.init rfl) ran
  have queue : queueOf slidingCalls = [7, 7, 1, 2, 3] := by decide +kernel
  exact ⟨b, run, congrArg Prod.fst block, congrArg Prod.snd block,
    (run_refines_queue _ run).2.1.trans queue⟩

end GpBase.Buffer

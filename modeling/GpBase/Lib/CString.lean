import GpBase.Lib.Mem

/-!
# Strings in memory blocks

A block of bytes holds a string at an offset when a NUL comes before its end.
Every function here reads byte by byte, and a read outside the block is a fault.
-/

namespace GpBase.Lib

/-- One byte, at an offset that may be negative. -/
def readByte (block : List UInt8) (i : Int) : Except Fault UInt8 :=
  if 0 ≤ i then
    match block[i.toNat]? with
    | some c => .ok c
    | none => .error .outOfBounds
  else .error .outOfBounds

/-- Write one byte. -/
def writeByte (block : List UInt8) (i : Int) (c : UInt8) : Except Fault (List UInt8) :=
  if 0 ≤ i ∧ i < block.length then .ok (block.set i.toNat c) else .error .outOfBounds

/-- `strlen`, from the start of the rest of a block. -/
def strlen : List UInt8 → Except Fault Nat
  | [] => .error .outOfBounds
  | c :: block => if c = 0 then .ok 0 else (strlen block).map (· + 1)

/-- `strchr` for a key other than NUL, as an offset. -/
def strchr (key : UInt8) : List UInt8 → Except Fault (Option Nat)
  | [] => .error .outOfBounds
  | c :: block =>
    if c = key then .ok (some 0)
    else if c = 0 then .ok none
    else (strchr key block).map (Option.map (· + 1))

/-- The string at the start of a block. -/
def cstr (block : List UInt8) : List UInt8 := block.takeWhile (· ≠ 0)

section

variable {s rest : List UInt8} {key c : UInt8}

theorem strlen_append (clean : 0 ∉ s) : strlen (s ++ 0 :: rest) = .ok s.length := by
  induction s with
  | nil => rfl
  | cons c s ih =>
      obtain ⟨first, clean⟩ := not_or.mp (fun h => clean (List.mem_cons.mpr h))
      rw [List.cons_append, strlen, if_neg (Ne.symm first), ih clean]
      rfl

theorem cstr_append (clean : 0 ∉ s) : cstr (s ++ 0 :: rest) = s := by
  have plain : ∀ c ∈ s, decide (c ≠ 0) = true := by
    intro c mem
    apply decide_eq_true
    rintro rfl
    exact clean mem
  rw [cstr, List.takeWhile_append_of_pos plain]
  simp

/-- The search passes a string without the key. -/
theorem strchr_pass (clean : 0 ∉ s) (missing : key ∉ s) :
    strchr key (s ++ rest) = (strchr key rest).map (Option.map (· + s.length)) := by
  induction s with
  | nil =>
      show strchr key rest = _
      cases strchr key rest with
      | error fault => rfl
      | ok found => cases found <;> rfl
  | cons c s ih =>
      obtain ⟨first, clean⟩ := not_or.mp (fun h => clean (List.mem_cons.mpr h))
      obtain ⟨other, missing⟩ := not_or.mp (fun h => missing (List.mem_cons.mpr h))
      rw [List.cons_append, strchr, if_neg (Ne.symm other), if_neg (Ne.symm first),
        ih clean missing]
      cases strchr key rest with
      | error fault => rfl
      | ok found => cases found <;> rfl

theorem strchr_none (clean : 0 ∉ s) (missing : key ∉ s) (nonzero : key ≠ 0) :
    strchr key (s ++ 0 :: rest) = .ok none := by
  rw [strchr_pass clean missing, strchr, if_neg (Ne.symm nonzero), if_pos rfl]
  rfl

/-- The first one is found. -/
theorem strchr_append (clean : 0 ∉ s) (missing : key ∉ s) :
    strchr key (s ++ key :: rest) = .ok (some s.length) := by
  rw [strchr_pass clean missing, strchr, if_pos rfl]
  show Except.ok (some (0 + s.length)) = _
  rw [Nat.zero_add]

theorem readByte_append : readByte (s ++ c :: rest) s.length = .ok c := by
  simp [readByte]

theorem writeByte_append (c' : UInt8) :
    writeByte (s ++ c :: rest) s.length c' = .ok (s ++ c' :: rest) := by
  have inside : (0 : Int) ≤ s.length ∧ (s.length : Int) < (s ++ c :: rest).length := by
    rw [List.length_append, List.length_cons]
    omega
  rw [writeByte, if_pos inside]
  simp

end

end GpBase.Lib

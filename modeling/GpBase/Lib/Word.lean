import Mathlib.Data.List.Basic
import Mathlib.Tactic.Ring
import Mathlib.Tactic.Positivity

/-!
# Machine words

Conversions between the integer types of C (two's complement, 64-bit
`size_t`) and the big-endian byte order in which words are sent.
-/

namespace GpBase.Lib

/-! ## Integer conversions -/

/-- Conversion of a signed integer to `size_t`. -/
def sizeT (i : Int) : Nat := (i % 2 ^ 64).toNat

/-- Conversion to `int32_t`. -/
def int32 (i : Int) : Int := i.bmod (2 ^ 32)

/-- Conversion to `uint32_t`. -/
def uint32 (i : Int) : Nat := (i % 2 ^ 32).toNat

theorem sizeT_of_nonneg {i : Int} (nonneg : 0 ≤ i) (bound : i < 2 ^ 64) :
    sizeT i = i.toNat := by
  rw [sizeT, Int.emod_eq_of_lt nonneg bound]

/-- A negative `int32_t` becomes a huge `size_t`. -/
theorem sizeT_of_neg {i : Int} (neg : i < 0) (bound : -2 ^ 31 ≤ i) :
    2 ^ 63 ≤ sizeT i := by
  unfold sizeT
  omega

/-- A sum that fits. -/
theorem uint32_add {m n : Nat} (bound : m + n < 2 ^ 32) : uint32 ((m : Int) + n) = m + n := by
  unfold uint32
  omega

theorem int32_of_range {i : Int} (low : -2 ^ 31 ≤ i) (high : i < 2 ^ 31) :
    int32 i = i := by
  unfold int32
  rw [Int.bmod_eq_of_le] <;> omega

theorem int32_range (i : Int) : -2 ^ 31 ≤ int32 i ∧ int32 i < 2 ^ 31 := by
  unfold int32
  have low := Int.le_bmod (x := i) (m := 2 ^ 32) (by decide)
  have high := Int.bmod_lt (x := i) (m := 2 ^ 32) (by decide)
  omega

/-- Wrapping leads down, from the smallest value on. -/
theorem int32_le {i : Int} (low : -2 ^ 31 ≤ i) : int32 i ≤ i := by
  by_cases high : i < 2 ^ 31
  · rw [int32_of_range low high]
  · have range := int32_range i
    omega

/-! ## Big-endian byte strings -/

/-- The number that a byte string spells, most significant byte first. -/
def beNat (bytes : List UInt8) : Nat :=
  bytes.foldl (fun acc b => acc * 256 + b.toNat) 0

/-- The `k` low bytes of `n`, most significant byte first. -/
def beBytes : Nat → Nat → List UInt8
  | 0, _ => []
  | k + 1, n => beBytes k (n / 256) ++ [UInt8.ofNat n]

@[simp] theorem beBytes_length (k n : Nat) : (beBytes k n).length = k := by
  induction k generalizing n with
  | zero => rfl
  | succ k ih => simp [beBytes, ih]

theorem beNat_append_singleton (bytes : List UInt8) (b : UInt8) :
    beNat (bytes ++ [b]) = beNat bytes * 256 + b.toNat := by
  simp [beNat]

/-- Writing a number and reading it back. -/
theorem beNat_beBytes {k n : Nat} (bound : n < 256 ^ k) : beNat (beBytes k n) = n := by
  induction k generalizing n with
  | zero => simp at bound; simp [beBytes, beNat, bound]
  | succ k ih =>
      rw [Nat.pow_succ] at bound
      rw [beBytes, beNat_append_singleton, ih (by omega), UInt8.toNat_ofNat']
      omega

/-- The two's complement reading of a big-endian byte string. -/
def beInt (bytes : List UInt8) : Int := (beNat bytes : Int).bmod (256 ^ bytes.length)

theorem beInt_range {bytes : List UInt8} (four : bytes.length = 4) :
    -2 ^ 31 ≤ beInt bytes ∧ beInt bytes < 2 ^ 31 := by
  have range := int32_range (beNat bytes)
  unfold int32 at range
  rw [beInt, four]
  exact range

/-- A non-negative `int32_t` survives the trip over the wire. -/
theorem beInt_beBytes_four {n : Nat} (bound : n < 2 ^ 31) :
    beInt (beBytes 4 n) = n := by
  rw [beInt, beNat_beBytes (by omega), beBytes_length]
  exact int32_of_range (by omega) (by omega)

/-! ## Little-endian words -/

/-- The number that a byte string spells, least significant byte first. -/
def leNat : List UInt8 → Nat
  | [] => 0
  | b :: bytes => b.toNat + 256 * leNat bytes

/-- The `w`-bit word that a little-endian machine loads from a byte string. -/
def leWord (w : Nat) (bytes : List UInt8) : BitVec w := BitVec.ofNat w (leNat bytes)

@[simp] theorem leWord_nil (w : Nat) : leWord w [] = 0#w := rfl

/-- A load, assembled byte by byte. -/
theorem leWord_cons (w : Nat) (b : UInt8) (bytes : List UInt8) :
    leWord w (b :: bytes) = BitVec.ofNat w b.toNat ||| leWord w bytes <<< 8 := by
  have low : b.toNat < 2 ^ 8 := b.toNat_lt
  have split : leNat (b :: bytes) = b.toNat ||| leNat bytes <<< 8 := by
    rw [leNat, Nat.shiftLeft_eq, Nat.add_comm, Nat.mul_comm _ (2 ^ 8), Nat.or_comm,
      ← Nat.two_pow_add_eq_or_of_lt low]
  rw [leWord, split, BitVec.ofNat_or]
  apply congrArg (BitVec.ofNat w b.toNat ||| ·)
  apply BitVec.eq_of_toNat_eq
  simp [leWord, Nat.shiftLeft_eq, Nat.mod_mul_mod]

/-- The word of eight bytes as a chain of shifts. -/
theorem leWord_eight (b0 b1 b2 b3 b4 b5 b6 b7 : UInt8) :
    leWord 64 [b0, b1, b2, b3, b4, b5, b6, b7] =
      BitVec.ofNat 64 b0.toNat ||| BitVec.ofNat 64 b1.toNat <<< 8 |||
        BitVec.ofNat 64 b2.toNat <<< 16 ||| BitVec.ofNat 64 b3.toNat <<< 24 |||
        BitVec.ofNat 64 b4.toNat <<< 32 ||| BitVec.ofNat 64 b5.toNat <<< 40 |||
        BitVec.ofNat 64 b6.toNat <<< 48 ||| BitVec.ofNat 64 b7.toNat <<< 56 := by
  simp only [leWord_cons, leWord_nil, BitVec.shiftLeft_or_distrib, ← BitVec.shiftLeft_add,
    BitVec.or_assoc]
  simp

end GpBase.Lib

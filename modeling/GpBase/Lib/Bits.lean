import Mathlib.Data.Nat.Size
import Mathlib.Data.Nat.Bitwise
import Mathlib.Tactic.Common

/-!
# Bit tricks

Or-ing a word with its own right shifts by 1, 2, 4, … spreads every set bit
downwards; after enough steps the word is all ones below its top bit.
-/

namespace GpBase.Lib

/-- `y` has bit `i` exactly when `x` has one of the `w` bits from `i` on. -/
def Smeared (w x y : Nat) : Prop :=
  ∀ i, y.testBit i = true ↔ ∃ j < w, x.testBit (i + j) = true

theorem Smeared.refl (x : Nat) : Smeared 1 x x := by
  intro i
  constructor
  · intro bit
    exact ⟨0, by omega, bit⟩
  · rintro ⟨j, small, bit⟩
    obtain rfl : j = 0 := by omega
    exact bit

/-- One step of the trick doubles the reach. -/
theorem Smeared.double {w x y : Nat} (h : Smeared w x y) :
    Smeared (w + w) x (y ||| y >>> w) := by
  intro i
  rw [Nat.testBit_or, Bool.or_eq_true, Nat.testBit_shiftRight, h i, h (w + i)]
  constructor
  · rintro (⟨j, small, bit⟩ | ⟨j, small, bit⟩)
    · exact ⟨j, by omega, bit⟩
    · exact ⟨w + j, by omega, by rwa [show i + (w + j) = w + i + j by omega]⟩
  · rintro ⟨j, small, bit⟩
    by_cases near : j < w
    · exact .inl ⟨j, near, bit⟩
    · exact .inr ⟨j - w, by omega, by rwa [show w + i + (j - w) = i + j by omega]⟩

/-- Smeared over its whole width, a word is all ones up to its top bit. -/
theorem Smeared.eq_ones {w x y : Nat} (h : Smeared w x y) (narrow : x < 2 ^ w) :
    y = 2 ^ x.size - 1 := by
  apply Nat.eq_of_testBit_eq
  intro i
  rw [Bool.eq_iff_iff, h i, Nat.testBit_two_pow_sub_one, decide_eq_true_eq, Nat.lt_size]
  constructor
  · rintro ⟨j, _, bit⟩
    calc 2 ^ i ≤ 2 ^ (i + j) := Nat.pow_le_pow_right (by omega) (by omega)
      _ ≤ x := Nat.ge_two_pow_of_testBit bit
  · intro reach
    -- the top bit of `x` is at least `i` and within reach
    obtain ⟨k, above, bit⟩ := Nat.exists_ge_and_testBit_of_ge_two_pow reach
    have inside : k < w := by
      by_contra far
      have small : x < 2 ^ k :=
        Nat.lt_of_lt_of_le narrow (Nat.pow_le_pow_right (by omega) (by omega))
      rw [Nat.testBit_lt_two_pow small] at bit
      cases bit
    exact ⟨k - i, by omega, by rwa [show i + (k - i) = k by omega]⟩

end GpBase.Lib

import GpBase.Dictionary.Invariant

/-!
# The cursor of `dictScan`

The cursor counts in bit-reversed order. `position` is the number that it counts:
a bucket of a table of `2 ^ k` buckets is an aligned interval of `2 ^ (64 - k)`
positions, whatever `k` is, and one increment goes to the end of the interval.
-/

namespace GpBase.Dictionary

open GpBase.Lib

/-! ## Bit reversal -/

/-- One round of `rev`: exchange neighbouring groups of `s` bits. -/
def revStep (s : Nat) (mask v : BitVec 64) : BitVec 64 :=
  ((v >>> s) &&& mask) ||| ((v <<< s) &&& ~~~mask)

/-- The loop of `rev`, at most `rounds` times. -/
def revLoop : Nat → Nat → BitVec 64 → BitVec 64 → BitVec 64
  | 0, _, _, v => v
  | rounds + 1, s, mask, v =>
    let s := s >>> 1
    if 0 < s then
      let mask := mask ^^^ (mask <<< s)
      revLoop rounds s mask (revStep s mask v)
    else v

def rev (v : BitVec 64) : BitVec 64 := revLoop 7 64 (~~~0) v

theorem rev_eq (v : BitVec 64) :
    rev v = revStep 1 0x5555555555555555 (revStep 2 0x3333333333333333
      (revStep 4 0x0F0F0F0F0F0F0F0F (revStep 8 0x00FF00FF00FF00FF
        (revStep 16 0x0000FFFF0000FFFF (revStep 32 0x00000000FFFFFFFF v))))) := rfl

/-- A mask that selects the lower of each pair of groups. -/
def Lower (s : Nat) (mask : BitVec 64) : Prop :=
  ∀ i : Fin 64, (mask.getLsbD i = true ∧ i + s = i.val ^^^ s ∧ i + s < 64) ∨
    (mask.getLsbD i = false ∧ s ≤ i ∧ i - s = i.val ^^^ s)

instance (s : Nat) (mask : BitVec 64) : Decidable (Lower s mask) :=
  inferInstanceAs (Decidable (∀ _ : Fin 64, _ ∨ _))

theorem revStep_getLsbD {s : Nat} {mask : BitVec 64} (lower : Lower s mask) (v : BitVec 64)
    {i : Nat} (inside : i < 64) : (revStep s mask v).getLsbD i = v.getLsbD (i ^^^ s) := by
  unfold revStep
  rw [BitVec.getLsbD_or, BitVec.getLsbD_and, BitVec.getLsbD_and, BitVec.getLsbD_not,
    BitVec.getLsbD_ushiftRight, BitVec.getLsbD_shiftLeft]
  rcases lower ⟨i, inside⟩ with ⟨low, partner, _⟩ | ⟨high, above, partner⟩
  · simp only at low partner
    rw [low, ← partner, Nat.add_comm s i]
    simp
  · simp only at high above partner
    rw [high, ← partner]
    simp [inside, Nat.not_lt.mpr above]

/-- `rev` reverses the 64 bits. -/
theorem rev_getLsbD (v : BitVec 64) {i : Nat} (inside : i < 64) :
    (rev v).getLsbD i = v.getLsbD (63 - i) := by
  have reversal : ∀ i : Fin 64, i.val ^^^ 1 < 64 ∧ i.val ^^^ 1 ^^^ 2 < 64 ∧
      i.val ^^^ 1 ^^^ 2 ^^^ 4 < 64 ∧ i.val ^^^ 1 ^^^ 2 ^^^ 4 ^^^ 8 < 64 ∧
      i.val ^^^ 1 ^^^ 2 ^^^ 4 ^^^ 8 ^^^ 16 < 64 ∧
      i.val ^^^ 1 ^^^ 2 ^^^ 4 ^^^ 8 ^^^ 16 ^^^ 32 = 63 - i.val := by decide
  obtain ⟨h₁, h₂, h₄, h₈, h₁₆, total⟩ := reversal ⟨i, inside⟩
  simp only at h₁ h₂ h₄ h₈ h₁₆ total
  rw [rev_eq, revStep_getLsbD (by decide) _ inside, revStep_getLsbD (by decide) _ h₁,
    revStep_getLsbD (by decide) _ h₂, revStep_getLsbD (by decide) _ h₄,
    revStep_getLsbD (by decide) _ h₈, revStep_getLsbD (by decide) _ h₁₆, total]

theorem rev_rev (v : BitVec 64) : rev (rev v) = v := by
  apply BitVec.eq_of_getLsbD_eq
  intro i inside
  rw [rev_getLsbD _ inside, rev_getLsbD _ (by omega), show 63 - (63 - i) = i by omega]

/-! ## Positions -/

/-- The place of a cursor, or of a hash, in the order of the scan. -/
def position (v : BitVec 64) : Nat := (rev v).toNat

/-- The number of positions that a bucket covers in a table of `2 ^ k` buckets. -/
def width (k : Nat) : Nat := 2 ^ (64 - k)

/-- The mask of a table of `2 ^ k` buckets. -/
def maskOf (k : Nat) : BitVec 64 := BitVec.ofNat 64 (2 ^ k - 1)

theorem width_pos (k : Nat) : 0 < width k := Nat.two_pow_pos _

theorem position_lt (v : BitVec 64) : position v < 2 ^ 64 := (rev v).isLt

theorem position_zero_iff (v : BitVec 64) : position v = 0 ↔ v = 0 := by
  constructor
  · intro zero
    have : rev v = 0 := BitVec.eq_of_toNat_eq zero
    rw [← rev_rev v, this]
    decide
  · rintro rfl
    decide

theorem position_testBit (v : BitVec 64) {i : Nat} (inside : i < 64) :
    (position v).testBit i = v.getLsbD (63 - i) := by
  rw [position, BitVec.testBit_toNat, rev_getLsbD v inside]

theorem maskOf_getLsbD {k : Nat} (narrow : k ≤ 63) (i : Nat) :
    (maskOf k).getLsbD i = decide (i < k) := by
  rw [maskOf, BitVec.getLsbD_ofNat, Nat.testBit_two_pow_sub_one]
  by_cases small : i < k
  · simp [small, show i < 64 by omega]
  · simp [small]

/-- Hashes of one interval share their bucket. -/
theorem slot_eq_of_interval {k : Nat} (narrow : k ≤ 63) {h v : BitVec 64}
    (same : position h / width k = position v / width k) :
    slot h (maskOf k) = slot v (maskOf k) := by
  rw [slot, slot]
  congr 1
  apply BitVec.eq_of_getLsbD_eq
  intro i inside
  rw [BitVec.getLsbD_and, BitVec.getLsbD_and, maskOf_getLsbD narrow]
  by_cases low : i < k
  · -- bit `i` of the hash is bit `63 - i` of its position, above the interval
    have bit := congrArg (fun n => n.testBit (k - 1 - i)) same
    simp only [width, Nat.testBit_div_two_pow] at bit
    rw [show k - 1 - i + (64 - k) = 63 - i by omega, position_testBit h (by omega),
      position_testBit v (by omega), show 63 - (63 - i) = i by omega] at bit
    rw [bit]
  · simp [low]

/-- The cursor after a bucket of a table with this mask. -/
def advance (mask v : BitVec 64) : BitVec 64 := rev (rev (v ||| ~~~mask) + 1)

/-- Setting the unmasked bits goes to the last position of the interval. -/
theorem position_or_not_mask {k : Nat} (narrow : k ≤ 63) (v : BitVec 64) :
    position (v ||| ~~~maskOf k) = width k * (position v / width k) + (width k - 1) := by
  apply Nat.eq_of_testBit_eq
  intro i
  have last : 2 ^ (64 - k) - 1 < 2 ^ (64 - k) := Nat.sub_lt (width_pos k) Nat.one_pos
  rw [width, Nat.testBit_two_pow_mul_add _ last, Nat.testBit_two_pow_sub_one]
  by_cases inside : i < 64
  · rw [position_testBit _ inside, BitVec.getLsbD_or, BitVec.getLsbD_not, maskOf_getLsbD narrow]
    split
    · rename_i below
      simp [below, show ¬ 63 - i < k by omega, show 63 - i < 64 by omega]
    · rename_i above
      rw [Nat.testBit_div_two_pow, show i - (64 - k) + (64 - k) = i by omega,
        position_testBit v inside]
      simp [show 63 - i < k by omega]
  · rw [Nat.testBit_lt_two_pow (Nat.lt_of_lt_of_le (position_lt _)
      (Nat.pow_le_pow_right (by omega) (by omega))), if_neg (by omega),
      Nat.testBit_div_two_pow, Nat.testBit_lt_two_pow (Nat.lt_of_lt_of_le (position_lt _)
      (Nat.pow_le_pow_right (by omega) (by omega)))]

/-- The end of the interval that holds a position. -/
def stop (k n : Nat) : Nat := width k * (n / width k + 1)

/-- Incrementing the reversed cursor goes to the end of the interval. -/
theorem position_advance {k : Nat} (narrow : k ≤ 63) (v : BitVec 64) :
    position (advance (maskOf k) v) = stop k (position v) % 2 ^ 64 := by
  have last := position_or_not_mask narrow v
  have pos := width_pos k
  rw [position] at last
  rw [position, advance, rev_rev, BitVec.toNat_add, last, stop, Nat.mul_add, Nat.mul_one]
  congr 1
  show _ + 1 = _
  omega

theorem width_dvd (k : Nat) (narrow : k ≤ 63) : width k * 2 ^ k = 2 ^ 64 := by
  rw [width, ← Nat.pow_add, show 64 - k + k = 64 by omega]

theorem lt_stop (k n : Nat) : n < stop k n := by
  have := Nat.lt_mul_div_succ n (width_pos k)
  exact this

theorem stop_le {k n : Nat} (narrow : k ≤ 63) (inside : n < 2 ^ 64) : stop k n ≤ 2 ^ 64 := by
  rw [← width_dvd k narrow] at inside ⊢
  exact Nat.mul_le_mul_left _ (Nat.div_lt_of_lt_mul inside)

/-! ## Two tables -/

theorem mod_two_pow_eq_zero_iff (n k : Nat) :
    n % 2 ^ k = 0 ↔ ∀ i < k, n.testBit i = false := by
  constructor
  · intro zero i small
    have bit := congrArg (fun m => m.testBit i) zero
    simpa [Nat.testBit_mod_two_pow, small] using bit
  · intro clear
    apply Nat.eq_of_testBit_eq
    intro i
    rw [Nat.testBit_mod_two_pow, Nat.zero_testBit]
    by_cases small : i < k
    · simp [clear i small]
    · simp [small]

/-- On the boundaries of the finer table, the bits of the mask difference are
clear exactly on the boundaries of the coarser one. -/
theorem and_mask_diff_eq_zero_iff {a b : Nat} (finer : a < b) (narrow : b ≤ 63) {v : BitVec 64}
    (boundary : position v % width b = 0) :
    v &&& (maskOf a ^^^ maskOf b) = 0 ↔ position v % width a = 0 := by
  have fine : ∀ i < 64 - b, (position v).testBit i = false :=
    (mod_two_pow_eq_zero_iff _ _).mp boundary
  have diff : ∀ i, (v &&& (maskOf a ^^^ maskOf b)).getLsbD i =
      (v.getLsbD i && decide (a ≤ i ∧ i < b)) := by
    intro i
    rw [BitVec.getLsbD_and, BitVec.getLsbD_xor, maskOf_getLsbD (by omega), maskOf_getLsbD narrow]
    by_cases low : i < a
    · simp [low, show i < b by omega]
    · simp [low, show a ≤ i by omega]
  rw [width, mod_two_pow_eq_zero_iff]
  constructor
  · intro clear i small
    rcases Nat.lt_or_ge i (64 - b) with below | above
    · exact fine i below
    · have bit := congrArg (fun w => w.getLsbD (63 - i)) clear
      simp only [diff] at bit
      rw [position_testBit v (by omega)]
      simpa [show a ≤ 63 - i by omega, show 63 - i < b by omega] using bit
  · intro clear
    apply BitVec.eq_of_getLsbD_eq
    intro i inside
    rw [diff i]
    by_cases between : a ≤ i ∧ i < b
    · have bit := clear (63 - i) (by omega)
      rw [position_testBit v (by omega), show 63 - (63 - i) = i by omega] at bit
      simp [bit]
    · simp [between]

end GpBase.Dictionary

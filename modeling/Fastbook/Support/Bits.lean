import Mathlib.Data.Nat.Bitwise

/-!
# Bit scans of machine words

The two bit scans of the C++ standard library, on words of `w` bits given as
natural numbers below `2 ^ w`: the number of zero bits below the lowest set
bit, and above the highest one.  Also the bytes a word is made of.
-/

namespace Fastbook.Support

/-- `std::countr_zero` of a `w`-bit word; `w` when no bit is set. -/
def countrZero (w n : ℕ) : ℕ :=
  ((List.range w).find? fun i => n.testBit i).getD w

/-- `std::countl_zero` of a `w`-bit word; `w` when no bit is set. -/
def countlZero (w n : ℕ) : ℕ :=
  ((List.range w).find? fun i => n.testBit (w - 1 - i)).getD w

/-- The scan from below stops at the lowest set bit. -/
theorem countrZero_eq {w n i : ℕ} (hi : i < w) (hbit : n.testBit i = true)
    (hlow : ∀ j < i, n.testBit j = false) : countrZero w n = i := by
  have hfind : (List.range w).find? (fun i => n.testBit i) = some i := by
    rw [List.find?_range_eq_some]
    refine ⟨hbit, List.mem_range.mpr hi, ?_⟩
    intro j hj
    simp [hlow j hj]
  simp [countrZero, hfind]

/-- The scan from above stops at the highest set bit. -/
theorem countlZero_eq {w n i : ℕ} (hi : i < w) (hbit : n.testBit i = true)
    (hhigh : ∀ j < w, i < j → n.testBit j = false) :
    countlZero w n = w - 1 - i := by
  have hfind : (List.range w).find? (fun j => n.testBit (w - 1 - j)) =
      some (w - 1 - i) := by
    rw [List.find?_range_eq_some]
    refine ⟨?_, List.mem_range.mpr (by omega), ?_⟩
    · rw [show w - 1 - (w - 1 - i) = i by omega]
      exact hbit
    · intro j hj
      simp [hhigh (w - 1 - j) (by omega) (by omega)]
  simp [countlZero, hfind]

theorem countrZero_two_pow {w k : ℕ} (hk : k < w) :
    countrZero w (2 ^ k) = k := by
  apply countrZero_eq hk
  · simp
  · intro j hj
    simp [Nat.testBit_two_pow]
    omega

theorem countrZero_zero (w : ℕ) : countrZero w 0 = w := by
  have hnone : (List.range w).find? (fun i => (0 : ℕ).testBit i) = none :=
    List.find?_eq_none.mpr (by simp)
  simp only [countrZero, hnone, Option.getD_none]

theorem countlZero_zero (w : ℕ) : countlZero w 0 = w := by
  have hnone : (List.range w).find? (fun i => (0 : ℕ).testBit (w - 1 - i)) =
      none := List.find?_eq_none.mpr (by simp)
  simp only [countlZero, hnone, Option.getD_none]

/-! ## Complements and masks -/

theorem testBit_not (x : UInt64) {p : ℕ} (hp : p < 64) :
    (~~~x).toNat.testBit p = !x.toNat.testBit p := by
  rw [UInt64.toNat_not]
  have hsize : UInt64.size - 1 - x.toNat = 2 ^ 64 - (x.toNat + 1) := by
    have hx := x.toNat_lt
    change 2 ^ 64 - 1 - x.toNat = _
    omega
  rw [hsize, Nat.testBit_two_pow_sub_succ x.toNat_lt]
  simp [hp]

/-- Clearing the lower `k` bits rounds down. -/
theorem toNat_and_not {x m : UInt64} {k : ℕ} (hm : m.toNat = 2 ^ k - 1) :
    (x &&& ~~~m).toNat = x.toNat / 2 ^ k * 2 ^ k := by
  apply Nat.eq_of_testBit_eq
  intro p
  rw [UInt64.toNat_and, Nat.testBit_and, Nat.testBit_mul_two_pow,
    Nat.testBit_div_two_pow]
  by_cases hp : p < 64
  · rw [testBit_not _ hp, hm, Nat.testBit_two_pow_sub_one]
    by_cases hk : k ≤ p
    · simp [hk, Nat.not_lt.mpr hk]
    · simp [hk, Nat.lt_of_not_le hk]
  · have hx : x.toNat.testBit p = false := by
      apply Nat.testBit_lt_two_pow
      exact lt_of_lt_of_le x.toNat_lt (Nat.pow_le_pow_right (by decide) (by omega))
    by_cases hk : k ≤ p
    · simp [hk, hx]
    · simp [hk, hx]

/-! ## Bytes of a word -/

/-- Byte `i` of a word, counted from the least significant one. -/
def byteAt (n i : ℕ) : ℕ :=
  n / 2 ^ (8 * i) % 2 ^ 8

theorem testBit_byteAt (n i : ℕ) {j : ℕ} (hj : j < 8) :
    (byteAt n i).testBit j = n.testBit (i * 8 + j) := by
  rw [byteAt, Nat.testBit_mod_two_pow, Nat.testBit_div_two_pow, Nat.mul_comm,
    Nat.add_comm]
  simp [hj]

theorem byteAt_xor (a b i : ℕ) :
    byteAt (a ^^^ b) i = byteAt a i ^^^ byteAt b i := by
  rw [byteAt, byteAt, byteAt, Nat.xor_div_two_pow, Nat.xor_mod_two_pow]

end Fastbook.Support

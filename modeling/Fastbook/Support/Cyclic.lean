import Mathlib.Data.Nat.Bitwise
import Mathlib.Tactic.Positivity
import Mathlib.Tactic.Ring

/-!
# Cyclic distances on a ring of slots

Open addressing, ring buffers and group probing all walk a ring of `n` slots
and wrap at the end.  This module fixes the forward distance between two slots
of such a ring and relates it to the masked machine arithmetic that programs
use for rings whose size is a power of two.
-/

namespace Fastbook.Support

/-- Forward distance from slot `a` to slot `b` on a ring of `n` slots. -/
def cyclicDist (n a b : ℕ) : ℕ :=
  if a ≤ b then b - a else b + n - a

/-- The slot `d` steps after `a` on a ring of `n` slots, for `d < n`. -/
def cyclicAdd (n a d : ℕ) : ℕ :=
  if a + d < n then a + d else a + d - n

theorem cyclicDist_self (n a : ℕ) : cyclicDist n a a = 0 := by
  simp [cyclicDist]

theorem cyclicDist_lt {n a b : ℕ} (hb : b < n) : cyclicDist n a b < n := by
  unfold cyclicDist
  split <;> omega

theorem cyclicAdd_lt {n a d : ℕ} (ha : a < n) (hd : d < n) :
    cyclicAdd n a d < n := by
  unfold cyclicAdd
  split <;> omega

theorem cyclicAdd_cyclicDist {n a b : ℕ} (ha : a < n) (hb : b < n) :
    cyclicAdd n a (cyclicDist n a b) = b := by
  unfold cyclicAdd cyclicDist
  split <;> split <;> omega

theorem cyclicDist_cyclicAdd {n a d : ℕ} (ha : a < n) (hd : d < n) :
    cyclicDist n a (cyclicAdd n a d) = d := by
  unfold cyclicAdd cyclicDist
  split <;> split <;> omega

/-- After a full turn a walk is back at its start. -/
theorem cyclicAdd_self (n a : ℕ) : cyclicAdd n a n = a := by
  unfold cyclicAdd
  split <;> omega

theorem cyclicAdd_succ {n a d : ℕ} (ha : a < n) (hd : d < n) :
    cyclicAdd n a (d + 1) = cyclicAdd n (cyclicAdd n a d) 1 := by
  unfold cyclicAdd
  split_ifs <;> omega

theorem cyclicDist_pos {n a b : ℕ} (ha : a < n) (hne : b ≠ a) :
    0 < cyclicDist n a b := by
  unfold cyclicDist
  split <;> omega

/-- A slot `c` met between `b` and `s` lies before `s` on every path to `s`
that goes through `b`. -/
theorem cyclicDist_lt_of_between {n h b c s : ℕ}
    (hh : h < n) (hb : b < n) (hc : c < n) (hs : s < n)
    (hbs : cyclicDist n h b < cyclicDist n h s)
    (hcs : cyclicDist n b c < cyclicDist n b s) :
    cyclicDist n h c < cyclicDist n h s := by
  unfold cyclicDist at *
  split_ifs at * <;> omega

/-- Masked addition on a ring of `2 ^ k` slots. -/
theorem add_and_mask {k a d : ℕ} (ha : a < 2 ^ k) (hd : d < 2 ^ k) :
    (a + d) &&& (2 ^ k - 1) = cyclicAdd (2 ^ k) a d := by
  rw [Nat.and_two_pow_sub_one_eq_mod]
  unfold cyclicAdd
  split
  · next h => exact Nat.mod_eq_of_lt h
  · next h =>
    rw [Nat.mod_eq_sub_mod (by omega), Nat.mod_eq_of_lt (by omega)]

/-- Unsigned 64-bit subtraction, which wraps. -/
def subU64 (a b : ℕ) : ℕ :=
  (a + 2 ^ 64 - b) % 2 ^ 64

theorem subU64_of_le {a b : ℕ} (h : b ≤ a) (ha : a < 2 ^ 64) :
    subU64 a b = a - b := by
  rw [subU64, Nat.add_comm, Nat.add_sub_assoc h, Nat.add_mod_left]
  exact Nat.mod_eq_of_lt (by omega)

/-- The unsigned wrap-around of a subtraction is absorbed by the mask. -/
theorem subU64_and_mask_eq_mod {k a b : ℕ} (hk : k ≤ 64) (ha : a ≤ 2 ^ k) :
    subU64 b a &&& (2 ^ k - 1) = (b + 2 ^ k - a) % 2 ^ k := by
  have hdvd : 2 ^ k ∣ 2 ^ 64 := Nat.pow_dvd_pow 2 hk
  rw [Nat.and_two_pow_sub_one_eq_mod, subU64, Nat.mod_mod_of_dvd _ hdvd]
  obtain ⟨c, hc⟩ := hdvd
  have hcpos : 0 < c := by
    rcases Nat.eq_zero_or_pos c with rfl | hpos
    · simp at hc
    · exact hpos
  obtain ⟨c', rfl⟩ : ∃ c', c = c' + 1 := ⟨c - 1, by omega⟩
  have hsum : b + 2 ^ 64 - a = (b + 2 ^ k - a) + 2 ^ k * c' := by
    rw [hc, Nat.mul_succ]
    omega
  rw [hsum, Nat.add_mul_mod_self_left]

/-- The masked difference of two slots is their cyclic distance. -/
theorem subU64_and_mask {k a b : ℕ} (hk : k ≤ 64)
    (ha : a < 2 ^ k) (hb : b < 2 ^ k) :
    subU64 b a &&& (2 ^ k - 1) = cyclicDist (2 ^ k) a b := by
  rw [subU64_and_mask_eq_mod hk ha.le]
  unfold cyclicDist
  split
  · next h =>
    rw [Nat.add_comm, Nat.add_sub_assoc h, Nat.add_mod_left,
      Nat.mod_eq_of_lt (by omega)]
  · next h => rw [Nat.mod_eq_of_lt (by omega)]

/-- Two counters less than a lap apart are at the same place only if they are
equal. -/
theorem eq_of_mod_eq {n a b : ℕ} (hle : a ≤ b) (hlt : b < a + n)
    (h : a % n = b % n) : a = b := by
  have hdvd : n ∣ b - a :=
    Nat.dvd_of_mod_eq_zero (Nat.sub_mod_eq_zero_of_mod_eq h.symm)
  have hzero := Nat.eq_zero_of_dvd_of_lt hdvd (by omega)
  omega

end Fastbook.Support

import Mathlib.Data.Fintype.EquivFin
import Mathlib.Data.Nat.Prime.Basic
import Mathlib.Tactic.Ring

/-!
# Triangular probing

A probe that moves on by one, two, three, … windows visits the windows whose
numbers are the triangular numbers.  On a ring of `2 ^ m` windows the first
`2 ^ m` triangular numbers are pairwise distinct, so that the probe visits
every window once.  The windows need not be aligned: they start wherever the
probe does, and every slot of the ring lies in one of them.
-/

namespace Fastbook.Support

/-- The sum of the numbers up to `j`. -/
def triangle : ℕ → ℕ
  | 0 => 0
  | j + 1 => triangle j + (j + 1)

theorem two_mul_triangle (j : ℕ) : 2 * triangle j = j * (j + 1) := by
  induction j with
  | zero => rfl
  | succ j ih =>
      rw [triangle, Nat.mul_add, ih]
      ring

/-- A power of two that divides a product of an even and an odd number divides
one of the two. -/
theorem two_pow_dvd_of_dvd_mul {m a b : ℕ} (h : 2 ^ m ∣ a * b)
    (hodd : a % 2 = 1 ∨ b % 2 = 1) : 2 ^ m ∣ a ∨ 2 ^ m ∣ b := by
  rcases hodd with ha | hb
  · right
    have hcop : Nat.Coprime (2 ^ m) a :=
      Nat.Coprime.pow_left m (Nat.coprime_two_left.mpr (Nat.odd_iff.mpr ha))
    exact hcop.dvd_of_dvd_mul_left h
  · left
    have hcop : Nat.Coprime (2 ^ m) b :=
      Nat.Coprime.pow_left m (Nat.coprime_two_left.mpr (Nat.odd_iff.mpr hb))
    exact hcop.dvd_of_dvd_mul_right h

theorem triangle_mod_ne {m i j : ℕ} (hij : i < j) (hj : j < 2 ^ m) :
    triangle i % 2 ^ m ≠ triangle j % 2 ^ m := by
  intro h
  have hdvd : 2 ^ m ∣ triangle j - triangle i :=
    Nat.dvd_of_mod_eq_zero (Nat.sub_mod_eq_zero_of_mod_eq h.symm)
  obtain ⟨d, rfl⟩ : ∃ d, j = i + (d + 1) := ⟨j - i - 1, by omega⟩
  -- Twice the difference factors into numbers of opposite parity.
  have hfactor : 2 * (triangle (i + (d + 1)) - triangle i) =
      (d + 1) * (2 * i + d + 2) := by
    have hi := two_mul_triangle i
    have hj := two_mul_triangle (i + (d + 1))
    have hsum : 2 * triangle (i + (d + 1)) =
        2 * triangle i + (d + 1) * (2 * i + d + 2) := by
      rw [hj, hi]
      ring
    omega
  have hmul : 2 ^ (m + 1) ∣ (d + 1) * (2 * i + d + 2) := by
    rw [← hfactor, pow_succ, Nat.mul_comm]
    exact Nat.mul_dvd_mul_left 2 hdvd
  have hpow : 2 ^ (m + 1) = 2 ^ m * 2 := pow_succ 2 m
  rcases two_pow_dvd_of_dvd_mul hmul (by omega) with hleft | hright
  · have hle := Nat.le_of_dvd (by omega) hleft
    omega
  · have hle := Nat.le_of_dvd (by omega) hright
    omega

/-- Every window number of a ring of `2 ^ m` windows is met. -/
theorem exists_triangle_mod_eq {m q : ℕ} (hq : q < 2 ^ m) :
    ∃ j < 2 ^ m, triangle j % 2 ^ m = q := by
  let visit : Fin (2 ^ m) → Fin (2 ^ m) := fun j =>
    ⟨triangle j % 2 ^ m, Nat.mod_lt _ (Nat.two_pow_pos m)⟩
  have hinj : Function.Injective visit := by
    intro i j h
    have hval : triangle i % 2 ^ m = triangle j % 2 ^ m := congrArg Fin.val h
    rcases Nat.lt_trichotomy i j with hlt | heq | hgt
    · exact absurd hval (triangle_mod_ne hlt j.isLt)
    · exact Fin.ext heq
    · exact absurd hval.symm (triangle_mod_ne hgt i.isLt)
  obtain ⟨j, hj⟩ := (Finite.injective_iff_surjective.mp hinj) ⟨q, hq⟩
  exact ⟨j, j.isLt, congrArg Fin.val hj⟩

/-- Where the `j`-th window of the probe from slot `h` starts, on a ring of `n`
slots with windows of `w` slots. -/
def windowStart (n w h j : ℕ) : ℕ :=
  (h + w * triangle j) % n

theorem windowStart_zero {n w h : ℕ} (hh : h < n) :
    windowStart n w h 0 = h := by
  simp [windowStart, triangle, Nat.mod_eq_of_lt hh]

theorem windowStart_succ (n w h j : ℕ) :
    windowStart n w h (j + 1) = (windowStart n w h j + w * (j + 1)) % n := by
  rw [windowStart, windowStart, triangle, Nat.mod_add_mod, Nat.mul_add,
    Nat.add_assoc]

theorem windowStart_lt {n w h j : ℕ} (hn : 0 < n) : windowStart n w h j < n :=
  Nat.mod_lt _ hn

/-- The windows of the probe cover the ring: slot `s` is the `i`-th slot of one
of the first `n / w` windows. -/
theorem exists_window {k m h s : ℕ} (hmk : m ≤ k) (hh : h < 2 ^ k)
    (hs : s < 2 ^ k) :
    ∃ j < 2 ^ (k - m), ∃ i < 2 ^ m,
      (windowStart (2 ^ k) (2 ^ m) h j + i) % 2 ^ k = s := by
  have hsplit : 2 ^ m * 2 ^ (k - m) = 2 ^ k := by
    rw [← pow_add, Nat.add_sub_cancel' hmk]
  have hpos : 0 < 2 ^ m := Nat.two_pow_pos m
  -- The distance from the home slot, in whole windows and a rest.
  let d := (s + 2 ^ k - h) % 2 ^ k
  have hd : d < 2 ^ k := Nat.mod_lt _ (Nat.two_pow_pos k)
  have hq : d / 2 ^ m < 2 ^ (k - m) := by
    apply Nat.div_lt_of_lt_mul
    rw [hsplit]
    exact hd
  obtain ⟨j, hj, htri⟩ := exists_triangle_mod_eq hq
  refine ⟨j, hj, d % 2 ^ m, Nat.mod_lt _ hpos, ?_⟩
  have hwhole : 2 ^ m * triangle j % 2 ^ k = 2 ^ m * (d / 2 ^ m) := by
    rw [← hsplit, Nat.mul_mod_mul_left, htri]
  calc (windowStart (2 ^ k) (2 ^ m) h j + d % 2 ^ m) % 2 ^ k
      = (h + d % 2 ^ m + 2 ^ m * triangle j) % 2 ^ k := by
        rw [windowStart, Nat.mod_add_mod, Nat.add_right_comm]
    _ = (h + d % 2 ^ m + 2 ^ m * (d / 2 ^ m)) % 2 ^ k := by
        rw [← Nat.add_mod_mod, hwhole]
    _ = (h + d) % 2 ^ k := by
        rw [Nat.add_assoc, Nat.mod_add_div]
    _ = (s + 2 ^ k) % 2 ^ k := by
        rw [Nat.add_mod_mod]
        congr 1
        omega
    _ = s := by
        rw [Nat.add_mod_right, Nat.mod_eq_of_lt hs]

end Fastbook.Support

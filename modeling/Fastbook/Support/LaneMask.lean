import Fastbook.Support.Bits
import Mathlib.Algebra.Order.Group.Nat
import Mathlib.Data.Nat.Find

/-!
# Lane masks

A comparison of several bytes at once reports its result as a mask: a word
split into lanes of `l` bits, one for each byte, whose top bit says whether the
byte passed.  With `l = 1` these are the masks of the vector compare
instructions, with `l = 8` those of arithmetic on a whole word.

`Flags w l P m` says that `m` flags exactly the lanes below `w` with `P`.  The
bit scans then find the first and the last flagged lane, and `m &&& (m - 1)`
drops the first one.
-/

namespace Fastbook.Support

/-- The mask `m` has, of its `w` lanes of `l` bits, exactly those with `P`
flagged, each by its top bit. -/
def Flags (w l : ℕ) (P : ℕ → Prop) (m : ℕ) : Prop :=
  ∀ p, m.testBit p = true ↔ ∃ i < w, P i ∧ p = i * l + (l - 1)

/-- Lanes that come later flag higher bits. -/
theorem laneBit_lt {l i j : ℕ} (hl : 0 < l) (hij : i < j) :
    i * l + (l - 1) < j * l + (l - 1) := by
  have hmul := Nat.mul_lt_mul_of_pos_right hij hl
  omega

theorem laneBit_inj {l i j : ℕ} (hl : 0 < l)
    (h : i * l + (l - 1) = j * l + (l - 1)) : i = j := by
  rcases Nat.lt_trichotomy i j with hlt | heq | hgt
  · have hbit := laneBit_lt hl hlt
    omega
  · exact heq
  · have hbit := laneBit_lt hl hgt
    omega

/-- The top bit of a lane lies inside the lane. -/
theorem laneBit_div {l i : ℕ} (hl : 0 < l) : (i * l + (l - 1)) / l = i := by
  rw [Nat.mul_comm, Nat.mul_add_div hl, Nat.div_eq_of_lt (by omega)]
  exact Nat.add_zero i

theorem laneBit_lt_width {w l i : ℕ} (hl : 0 < l) (hi : i < w) :
    i * l + (l - 1) < w * l := by
  have hmul := Nat.mul_le_mul_right l (Nat.succ_le_of_lt hi)
  rw [Nat.succ_mul] at hmul
  omega

/-- `m - 1` keeps every bit of `m` above the lowest set one. -/
theorem testBit_pred_of_lt {m a p : ℕ} (hbit : m.testBit a = true)
    (hap : a < p) : (m - 1).testBit p = m.testBit p := by
  have hrest : m % 2 ^ p ≠ 0 := by
    intro hzero
    have hmod := Nat.testBit_mod_two_pow m p a
    rw [hzero, Nat.zero_testBit, hbit] at hmod
    simp [hap] at hmod
  have hpos : 0 < 2 ^ p := Nat.two_pow_pos p
  have hlt := Nat.mod_lt m hpos
  have hdiv : (m - 1) / 2 ^ p = m / 2 ^ p := by
    have hsum := Nat.div_add_mod m (2 ^ p)
    have hpred : m - 1 = 2 ^ p * (m / 2 ^ p) + (m % 2 ^ p - 1) := by omega
    have hzero : (m % 2 ^ p - 1) / 2 ^ p = 0 := Nat.div_eq_of_lt (by omega)
    rw [hpred, Nat.mul_add_div hpos, hzero, Nat.add_zero]
  rw [Nat.testBit_eq_decide_div_mod_eq, Nat.testBit_eq_decide_div_mod_eq, hdiv]

/-- `m - 1` clears the lowest set bit of `m`. -/
theorem testBit_pred_self {m a : ℕ} (hbit : m.testBit a = true)
    (hlow : ∀ b < a, m.testBit b = false) : (m - 1).testBit a = false := by
  have hpos : 0 < 2 ^ a := Nat.two_pow_pos a
  have hrest : m % 2 ^ a = 0 := by
    apply Nat.eq_of_testBit_eq
    intro b
    rw [Nat.testBit_mod_two_pow, Nat.zero_testBit]
    by_cases hb : b < a
    · simp [hlow b hb]
    · simp [hb]
  rw [Nat.testBit_eq_decide_div_mod_eq] at hbit ⊢
  have hodd : m / 2 ^ a % 2 = 1 := by simpa using hbit
  have hquot : 1 ≤ m / 2 ^ a := by
    rcases Nat.eq_zero_or_pos (m / 2 ^ a) with hzero | hpos
    · simp [hzero] at hodd
    · exact hpos
  have hsum := Nat.div_add_mod m (2 ^ a)
  -- `m` is an odd multiple of `2 ^ a`, so one less has an even quotient.
  have hdiv : (m - 1) / 2 ^ a = m / 2 ^ a - 1 := by
    have hpred : m - 1 = 2 ^ a * (m / 2 ^ a - 1) + (2 ^ a - 1) := by
      have hstep : 2 ^ a * (m / 2 ^ a) = 2 ^ a * (m / 2 ^ a - 1) + 2 ^ a := by
        rw [← Nat.mul_succ, Nat.succ_eq_add_one, Nat.sub_add_cancel hquot]
      omega
    have hzero : (2 ^ a - 1) / 2 ^ a = 0 := Nat.div_eq_of_lt (by omega)
    rw [hpred, Nat.mul_add_div hpos, hzero, Nat.add_zero]
  rw [hdiv]
  simp
  omega

/-- `m &&& (m - 1)` drops the lowest set bit and no other. -/
theorem testBit_and_pred {m a : ℕ} (hbit : m.testBit a = true)
    (hlow : ∀ b < a, m.testBit b = false) (p : ℕ) :
    (m &&& (m - 1)).testBit p = true ↔ m.testBit p = true ∧ p ≠ a := by
  rw [Nat.testBit_and, Bool.and_eq_true]
  rcases Nat.lt_trichotomy p a with hlt | rfl | hgt
  · simp [hlow p hlt]
  · simp [testBit_pred_self hbit hlow]
  · rw [testBit_pred_of_lt hbit hgt]
    simp [Nat.ne_of_gt hgt]

theorem and_pred_lt {m : ℕ} (hm : m ≠ 0) : m &&& (m - 1) < m := by
  have hle : m &&& (m - 1) ≤ m - 1 := Nat.and_le_right
  omega

/-- The lanes that the loop `for (; m != 0; m &= m - 1)` visits. -/
def lanes (w l m : ℕ) : List ℕ :=
  if m = 0 then []
  else countrZero (w * l) m / l :: lanes w l (m &&& (m - 1))
  termination_by m
  decreasing_by exact and_pred_lt ‹_›

namespace Flags

variable {w l m : ℕ} {P Q : ℕ → Prop}

theorem congr (h : Flags w l P m) (hPQ : ∀ i < w, (P i ↔ Q i)) :
    Flags w l Q m := by
  intro p
  rw [h p]
  constructor
  · rintro ⟨i, hi, hP, rfl⟩
    exact ⟨i, hi, (hPQ i hi).mp hP, rfl⟩
  · rintro ⟨i, hi, hQ, rfl⟩
    exact ⟨i, hi, (hPQ i hi).mpr hQ, rfl⟩

theorem unique {m' : ℕ} (h : Flags w l P m) (h' : Flags w l P m') : m = m' := by
  apply Nat.eq_of_testBit_eq
  intro p
  rw [Bool.eq_iff_iff, h p, h' p]

/-- The lower lanes of a mask with one bit for each lane. -/
theorem lower {v : ℕ} (h : Flags w 1 P m) (hv : v ≤ w) :
    Flags v 1 P (m % 2 ^ v) := by
  intro p
  rw [Nat.testBit_mod_two_pow, Bool.and_eq_true, decide_eq_true_eq, h p]
  constructor
  · rintro ⟨hp, i, -, hP, rfl⟩
    exact ⟨i, by omega, hP, rfl⟩
  · rintro ⟨i, hi, hP, rfl⟩
    exact ⟨by omega, i, by omega, hP, rfl⟩

theorem ne_zero_iff (h : Flags w l P m) : m ≠ 0 ↔ ∃ i < w, P i := by
  constructor
  · intro hm
    obtain ⟨p, hp⟩ := Nat.exists_testBit_of_ne_zero hm
    obtain ⟨i, hi, hP, -⟩ := (h p).mp hp
    exact ⟨i, hi, hP⟩
  · rintro ⟨i, hi, hP⟩ rfl
    have hbit := (h _).mpr ⟨i, hi, hP, rfl⟩
    simp at hbit

theorem eq_zero_iff (h : Flags w l P m) : m = 0 ↔ ∀ i < w, ¬P i := by
  have hiff := h.ne_zero_iff
  constructor
  · intro hm i hi hP
    exact hiff.mpr ⟨i, hi, hP⟩ hm
  · intro hall
    by_contra hm
    obtain ⟨i, hi, hP⟩ := hiff.mp hm
    exact hall i hi hP

/-- The lowest set bit of a mask, and the lane it flags. -/
theorem exists_first (h : Flags w l P m) (hl : 0 < l) (hm : m ≠ 0) :
    ∃ i < w, P i ∧ (∀ j < i, ¬P j) ∧ m.testBit (i * l + (l - 1)) = true ∧
      ∀ b < i * l + (l - 1), m.testBit b = false := by
  classical
  have hex := h.ne_zero_iff.mp hm
  obtain ⟨hlt, hP⟩ := Nat.find_spec hex
  have hmin : ∀ j < Nat.find hex, ¬P j := by
    intro j hj hPj
    exact Nat.find_min hex hj ⟨by omega, hPj⟩
  refine ⟨Nat.find hex, hlt, hP, hmin, (h _).mpr ⟨_, hlt, hP, rfl⟩, ?_⟩
  intro b hb
  by_contra hset
  obtain ⟨j, hj, hPj, rfl⟩ := (h b).mp (by simpa using hset)
  by_cases hjf : j < Nat.find hex
  · exact hmin j hjf hPj
  · rcases Nat.lt_or_eq_of_le (Nat.le_of_not_lt hjf) with hlt' | heq
    · have hbit := laneBit_lt hl hlt'
      omega
    · rw [heq] at hb
      exact Nat.lt_irrefl _ hb

/-- The scan from below finds the first flagged lane. -/
theorem first (h : Flags w l P m) (hl : 0 < l) (hm : m ≠ 0) :
    countrZero (w * l) m / l < w ∧ P (countrZero (w * l) m / l) ∧
      (∀ j < countrZero (w * l) m / l, ¬P j) ∧
      Flags w l (fun i => P i ∧ i ≠ countrZero (w * l) m / l)
        (m &&& (m - 1)) := by
  obtain ⟨i, hi, hP, hmin, hbit, hlow⟩ := h.exists_first hl hm
  have hscan := countrZero_eq (laneBit_lt_width hl hi) hbit hlow
  rw [hscan, laneBit_div hl]
  refine ⟨hi, hP, hmin, ?_⟩
  intro p
  rw [testBit_and_pred hbit hlow, h p]
  constructor
  · rintro ⟨⟨j, hj, hPj, rfl⟩, hne⟩
    refine ⟨j, hj, ⟨hPj, ?_⟩, rfl⟩
    rintro rfl
    exact hne rfl
  · rintro ⟨j, hj, ⟨hPj, hne⟩, rfl⟩
    refine ⟨⟨j, hj, hPj, rfl⟩, ?_⟩
    intro heq
    exact hne (laneBit_inj hl heq)

/-- The scan from above finds the last flagged lane. -/
theorem exists_last (h : Flags w l P m) (hl : 0 < l) (hm : m ≠ 0) :
    ∃ i < w, P i ∧ (∀ j < w, P j → j ≤ i) ∧
      countlZero (w * l) m / l = w - 1 - i := by
  classical
  obtain ⟨i₀, hi₀, hP₀⟩ := h.ne_zero_iff.mp hm
  let i := Nat.findGreatest (fun i => i < w ∧ P i) w
  obtain ⟨hi, hP⟩ : i < w ∧ P i :=
    Nat.findGreatest_spec (P := fun i => i < w ∧ P i) hi₀.le ⟨hi₀, hP₀⟩
  have hmax : ∀ j < w, P j → j ≤ i := fun j hj hPj =>
    Nat.le_findGreatest (P := fun i => i < w ∧ P i) hj.le ⟨hj, hPj⟩
  have hbit : m.testBit (i * l + (l - 1)) = true := (h _).mpr ⟨i, hi, hP, rfl⟩
  have hhigh : ∀ b < w * l, i * l + (l - 1) < b → m.testBit b = false := by
    intro b _ hb
    by_contra hset
    obtain ⟨j, hj, hPj, rfl⟩ := (h b).mp (by simpa using hset)
    have hmul := Nat.mul_le_mul_right l (hmax j hj hPj)
    omega
  have hscan := countlZero_eq (laneBit_lt_width hl hi) hbit hhigh
  have hlanes : w * l - 1 - (i * l + (l - 1)) = (w - 1 - i) * l := by
    have hw : w * l = (w - 1 - i) * l + (i + 1) * l := by
      rw [← Nat.add_mul]
      congr 1
      omega
    rw [hw, Nat.succ_mul]
    omega
  refine ⟨i, hi, hP, hmax, ?_⟩
  rw [hscan, hlanes, Nat.mul_div_cancel _ hl]

theorem last (h : Flags w l P m) (hl : 0 < l) (hm : m ≠ 0) :
    countlZero (w * l) m / l < w ∧ P (w - 1 - countlZero (w * l) m / l) := by
  obtain ⟨i, hi, hP, -, hscan⟩ := h.exists_last hl hm
  rw [hscan]
  refine ⟨by omega, ?_⟩
  rw [show w - 1 - (w - 1 - i) = i by omega]
  exact hP

/-! ### Masks that flag the same lanes

The scans and the step to the next lane do not depend on the width of a
lane. -/

variable {l' m' : ℕ}

theorem zero_iff_zero (h : Flags w l P m) (h' : Flags w l' P m') :
    m = 0 ↔ m' = 0 := by
  rw [h.eq_zero_iff, h'.eq_zero_iff]

theorem countrZero_div (h : Flags w l P m) (h' : Flags w l' P m') (hl : 0 < l)
    (hl' : 0 < l') :
    countrZero (w * l) m / l = countrZero (w * l') m' / l' := by
  by_cases hm : m = 0
  · have hm' := (h.zero_iff_zero h').mp hm
    rw [hm, hm', countrZero_zero, countrZero_zero, Nat.mul_div_cancel _ hl,
      Nat.mul_div_cancel _ hl']
  · have hm' : m' ≠ 0 := fun hzero => hm ((h.zero_iff_zero h').mpr hzero)
    obtain ⟨-, hP, hmin, -⟩ := h.first hl hm
    obtain ⟨-, hP', hmin', -⟩ := h'.first hl' hm'
    apply Nat.le_antisymm
    · by_contra hlt
      exact hmin _ (Nat.lt_of_not_le hlt) hP'
    · by_contra hlt
      exact hmin' _ (Nat.lt_of_not_le hlt) hP

theorem countlZero_div (h : Flags w l P m) (h' : Flags w l' P m') (hl : 0 < l)
    (hl' : 0 < l') :
    countlZero (w * l) m / l = countlZero (w * l') m' / l' := by
  by_cases hm : m = 0
  · have hm' := (h.zero_iff_zero h').mp hm
    rw [hm, hm', countlZero_zero, countlZero_zero, Nat.mul_div_cancel _ hl,
      Nat.mul_div_cancel _ hl']
  · have hm' : m' ≠ 0 := fun hzero => hm ((h.zero_iff_zero h').mpr hzero)
    obtain ⟨i, hi, hP, hmax, hscan⟩ := h.exists_last hl hm
    obtain ⟨i', hi', hP', hmax', hscan'⟩ := h'.exists_last hl' hm'
    have heq : i = i' :=
      Nat.le_antisymm (hmax' i hi hP) (hmax i' hi' hP')
    rw [hscan, hscan', heq]

/-- The mask without its first lane, whichever lane that is. -/
theorem exists_clear (h : Flags w l P m) (h' : Flags w l' P m') (hl : 0 < l)
    (hl' : 0 < l') :
    ∃ Q, Flags w l Q (m &&& (m - 1)) ∧ Flags w l' Q (m' &&& (m' - 1)) := by
  by_cases hm : m = 0
  · have hm' := (h.zero_iff_zero h').mp hm
    subst hm hm'
    exact ⟨P, h, h'⟩
  · have hm' : m' ≠ 0 := fun hzero => hm ((h.zero_iff_zero h').mpr hzero)
    obtain ⟨-, -, -, hrest⟩ := h.first hl hm
    obtain ⟨-, -, -, hrest'⟩ := h'.first hl' hm'
    rw [← h.countrZero_div h' hl hl'] at hrest'
    exact ⟨_, hrest, hrest'⟩

theorem lanes_eq (h : Flags w l P m) (h' : Flags w l' P m') (hl : 0 < l)
    (hl' : 0 < l') : lanes w l m = lanes w l' m' := by
  induction m using Nat.strongRecOn generalizing P m' with
  | ind m ih =>
      rw [lanes, lanes.eq_def w l' m']
      by_cases hm : m = 0
      · rw [if_pos hm, if_pos ((h.zero_iff_zero h').mp hm)]
      · have hm' : m' ≠ 0 := fun hzero => hm ((h.zero_iff_zero h').mpr hzero)
        obtain ⟨Q, hrest, hrest'⟩ := h.exists_clear h' hl hl'
        rw [if_neg hm, if_neg hm', h.countrZero_div h' hl hl',
          ih _ (and_pred_lt hm) hrest hrest']

end Flags

/-! ## Collecting one bit for each lane -/

/-- The word whose bit `i` is `f i`, for `i < w`: the loop `m |= f(i) << i`. -/
def packBits (w : ℕ) (f : ℕ → ℕ) : ℕ :=
  (List.range w).foldl (fun m i => m ||| f i <<< i) 0

theorem testBit_packBits {w : ℕ} {f : ℕ → ℕ} (hf : ∀ i < w, f i ≤ 1) (p : ℕ) :
    (packBits w f).testBit p = true ↔ p < w ∧ f p = 1 := by
  induction w with
  | zero => simp [packBits]
  | succ w ih =>
      have hlast : packBits (w + 1) f = packBits w f ||| f w <<< w := by
        simp [packBits, List.range_succ]
      have hbit : (f w <<< w).testBit p = true ↔ p = w ∧ f w = 1 := by
        have hle := hf w (Nat.lt_succ_self w)
        rcases Nat.le_one_iff_eq_zero_or_eq_one.mp hle with hzero | hone
        · simp [hzero]
        · simp [hone, Nat.one_shiftLeft, Nat.testBit_two_pow, eq_comm]
      rw [hlast, Nat.testBit_or, Bool.or_eq_true,
        ih fun i hi => hf i (Nat.lt_succ_of_lt hi), hbit]
      constructor
      · rintro (⟨hp, hone⟩ | ⟨rfl, hone⟩)
        · exact ⟨Nat.lt_succ_of_lt hp, hone⟩
        · exact ⟨Nat.lt_succ_self p, hone⟩
      · rintro ⟨hp, hone⟩
        rcases Nat.lt_succ_iff_lt_or_eq.mp hp with hlt | rfl
        · exact Or.inl ⟨hlt, hone⟩
        · exact Or.inr ⟨rfl, hone⟩

theorem flags_packBits {w : ℕ} {f : ℕ → ℕ} (hf : ∀ i < w, f i ≤ 1) :
    Flags w 1 (fun i => f i = 1) (packBits w f % 2 ^ w) := by
  intro p
  rw [Nat.testBit_mod_two_pow, Bool.and_eq_true, decide_eq_true_eq,
    testBit_packBits hf]
  constructor
  · rintro ⟨-, hp, hone⟩
    exact ⟨p, hp, hone, by simp⟩
  · rintro ⟨i, hi, hone, rfl⟩
    simp [hi, hone]

end Fastbook.Support

import Fastbook.Common.SwissTable

/-!
# The word group against the scalar definition

`SwarGroup` finds the zero bytes of a word by a subtraction whose borrows run
into the lanes above.  `match` therefore flags, besides the lanes that hold the
byte looked for, the lanes above a flagged one that differ from it in the lowest
bit only.  These are full lanes, and never the lowest flagged lane.  The other
two masks are exact.

A mask of the word group and the scalar mask with one bit for each lane give
the table the same lanes, in the same order.
-/

namespace Fastbook.Swiss

open Support
open SwissTable (firstLane lastLanesClear)

namespace SwarGroup

/-! ## Borrows -/

/-- The subtraction of `LSBS` borrows from lane `i`. -/
def Borrows (x i : ℕ) : Prop :=
  x % 2 ^ (8 * i) < lsbs.toNat % 2 ^ (8 * i)

theorem not_borrows_zero (x : ℕ) : ¬Borrows x 0 := by
  simp [Borrows, Nat.mod_one]

/-- A lane borrows if it is zero, or if it is one and has been borrowed
from. -/
theorem borrows_succ {x i : ℕ} (hi : i < 8) :
    Borrows x (i + 1) ↔ byteAt x i = 0 ∨ byteAt x i = 1 ∧ Borrows x i := by
  rw [Borrows, Borrows, byteAt, show lsbs.toNat = 72340172838076673 from rfl]
  interval_cases i <;> omega

/-- The top bit of a small lane is set by a borrow out of it. -/
theorem testBit_sub_lsbs_iff {x : UInt64} {i : ℕ} (hi : i < 8)
    (hsmall : byteAt x.toNat i < 128) :
    (x - lsbs).toNat.testBit (i * 8 + 7) = true ↔ Borrows x.toNat (i + 1) := by
  have hx := x.toNat_lt
  rw [UInt64.toNat_sub, Borrows, show lsbs.toNat = 72340172838076673 from rfl,
    Nat.testBit_eq_decide_div_mod_eq, decide_eq_true_eq]
  rw [byteAt] at hsmall
  interval_cases i <;> omega

/-! ## The lanes of a mask -/

/-- Lane `i` of a mask is set. -/
def Lane (m i : ℕ) : Prop :=
  m.testBit (i * 8 + 7) = true

theorem lane_and_msbs (m : UInt64) {i : ℕ} (hi : i < 8) :
    Lane (m &&& msbs).toNat i ↔ m.toNat.testBit (i * 8 + 7) = true := by
  rw [Lane, flags_and_msbs m]
  constructor
  · rintro ⟨j, -, hbit, hij⟩
    obtain rfl : i = j := by omega
    exact hbit
  · intro hbit
    exact ⟨i, hi, hbit, rfl⟩

theorem xor_eq_zero_iff (c b : UInt8) : c.toNat ^^^ b.toNat = 0 ↔ c = b := by
  rw [Nat.xor_eq_zero_iff, UInt8.toNat_inj]

theorem xor_eq_one_iff (c b : UInt8) :
    c.toNat ^^^ b.toNat = 1 ↔ c = b ^^^ 1 := by
  rw [← UInt8.toNat_inj, UInt8.toNat_xor]
  constructor
  · intro h
    rw [UInt8.toNat_one, ← h, Nat.xor_comm c.toNat, ← Nat.xor_assoc,
      Nat.xor_self, Nat.zero_xor]
  · intro h
    rw [h, Nat.xor_right_comm, Nat.xor_self, Nat.zero_xor]
    rfl

theorem testBit_seven_eq_false (n i : ℕ) :
    (byteAt n i).testBit 7 = false ↔ byteAt n i < 128 := by
  have hlt : byteAt n i < 2 ^ 8 := Nat.mod_lt _ (by decide)
  rw [Nat.testBit_eq_decide_div_mod_eq, decide_eq_false_iff_not]
  omega

/-- `match` flags the lanes that borrow. -/
theorem lane_matchByte (ctrl : ℕ → UInt8) (b : UInt8) {i : ℕ} (hi : i < 8) :
    Lane (matchByte ctrl b) i ↔
      Borrows (load ctrl ^^^ b.toUInt64 * lsbs).toNat (i + 1) := by
  rw [matchByte, lane_and_msbs _ hi, UInt64.toNat_and, Nat.testBit_and,
    Bool.and_eq_true, testBit_not _ (by omega), Bool.not_eq_true',
    ← testBit_byteAt (UInt64.toNat (_ ^^^ _)) _ (by omega),
    testBit_seven_eq_false]
  constructor
  · rintro ⟨hbit, hsmall⟩
    exact (testBit_sub_lsbs_iff hi hsmall).mp hbit
  · intro hborrow
    have hsmall : byteAt (load ctrl ^^^ b.toUInt64 * lsbs).toNat i < 128 := by
      rcases (borrows_succ hi).mp hborrow with hzero | ⟨hone, -⟩ <;> omega
    exact ⟨(testBit_sub_lsbs_iff hi hsmall).mpr hborrow, hsmall⟩

/-- The lowest lane is flagged by its own byte only. -/
theorem lane_matchByte_zero (ctrl : ℕ → UInt8) (b : UInt8) :
    Lane (matchByte ctrl b) 0 ↔ ctrl 0 = b := by
  rw [lane_matchByte ctrl b (by decide), borrows_succ (by decide),
    byteAt_xor_broadcast ctrl b (by decide), xor_eq_zero_iff]
  simp [not_borrows_zero]

/-- A lane is flagged by its own byte, or by a byte that differs in the lowest
bit above a flagged lane. -/
theorem lane_matchByte_succ (ctrl : ℕ → UInt8) (b : UInt8) {i : ℕ}
    (hi : i + 1 < 8) :
    Lane (matchByte ctrl b) (i + 1) ↔ ctrl (i + 1) = b ∨
      ctrl (i + 1) = b ^^^ 1 ∧ Lane (matchByte ctrl b) i := by
  rw [lane_matchByte ctrl b hi, borrows_succ hi,
    byteAt_xor_broadcast ctrl b hi, xor_eq_zero_iff, xor_eq_one_iff,
    lane_matchByte ctrl b (by omega)]

/-- Below a lane that is flagged by mistake, the flagged lanes go down to one
that holds the byte. -/
theorem exists_match_below {ctrl : ℕ → UInt8} {b : UInt8} {i : ℕ} (hi : i < 8)
    (hlane : Lane (matchByte ctrl b) i) :
    ∃ j ≤ i, ctrl j = b ∧ ∀ k, j < k → k ≤ i → ctrl k = b ^^^ 1 ∧
      Lane (matchByte ctrl b) (k - 1) := by
  induction i with
  | zero =>
      refine ⟨0, le_rfl, (lane_matchByte_zero ctrl b).mp hlane, ?_⟩
      intro k hk hk'
      omega
  | succ i ih =>
      rcases (lane_matchByte_succ ctrl b hi).mp hlane with heq | ⟨hxor, hbelow⟩
      · refine ⟨i + 1, le_rfl, heq, ?_⟩
        intro k hk hk'
        omega
      · obtain ⟨j, hj, heq, hchain⟩ := ih (by omega) hbelow
        refine ⟨j, by omega, heq, ?_⟩
        intro k hjk hki
        rcases Nat.lt_succ_iff_lt_or_eq.mp (Nat.lt_succ_of_le hki) with hlt | rfl
        · exact hchain k hjk (by omega)
        · exact ⟨hxor, hbelow⟩

/-- What `match` flags. -/
structure Matches (ctrl : ℕ → UInt8) (b : UInt8) (m : ℕ) : Prop where
  /-- Only the top bits of the lanes are used. -/
  tops : ∀ p, m.testBit p = true → ∃ i < 8, p = i * 8 + 7
  hit : ∀ i < 8, ctrl i = b → Lane m i
  /-- Another flagged lane is full, holds the byte with its lowest bit flipped,
  and lies above a chain of flagged lanes that starts with a hit. -/
  extra : ∀ i < 8, Lane m i → ctrl i ≠ b →
    Control.isFull (ctrl i) = true ∧ ctrl i ≠ Control.empty ∧
      ctrl i ≠ Control.deleted ∧ ctrl i = b ^^^ 1 ∧
      ∃ j < i, ctrl j = b ∧ ∀ k, j ≤ k → k < i → Lane m k
  lowest : m ≠ 0 → firstLane swarGroup m < 8 ∧ Lane m (firstLane swarGroup m) ∧
    ctrl (firstLane swarGroup m) = b

theorem isFull_xor_one {b : UInt8} (hb : Control.isFull b = true) :
    Control.isFull (b ^^^ 1) = true := by
  rw [Control.isFull_iff] at hb ⊢
  rw [UInt8.toNat_xor]
  exact Nat.xor_lt_two_pow (n := 7) hb (by decide)

theorem flags_matchByte (ctrl : ℕ → UInt8) (b : UInt8) :
    Flags 8 8 (Lane (matchByte ctrl b)) (matchByte ctrl b) := by
  refine (flags_and_msbs _).congr fun i hi => ?_
  exact (lane_and_msbs _ hi).symm

theorem matchByte_matches (ctrl : ℕ → UInt8) {b : UInt8}
    (hb : Control.isFull b = true) : Matches ctrl b (matchByte ctrl b) := by
  have hflags := flags_matchByte ctrl b
  refine ⟨?_, ?_, ?_, ?_⟩
  · intro p hp
    obtain ⟨i, hi, -, rfl⟩ := (hflags p).mp hp
    exact ⟨i, hi, rfl⟩
  · intro i hi heq
    rw [lane_matchByte ctrl b hi, borrows_succ hi,
      byteAt_xor_broadcast ctrl b hi, xor_eq_zero_iff]
    exact Or.inl heq
  · intro i hi hlane hne
    obtain ⟨j, hj, heq, hchain⟩ := exists_match_below hi hlane
    have hlt : j < i := by
      rcases Nat.lt_or_eq_of_le hj with hlt | rfl
      · exact hlt
      · exact absurd heq hne
    have hxor := (hchain i hlt le_rfl).1
    have hfull : Control.isFull (ctrl i) = true := by
      rw [hxor]
      exact isFull_xor_one hb
    refine ⟨hfull, Control.ne_empty_of_isFull hfull, ?_, hxor, j, hlt, heq, ?_⟩
    · intro hdel
      rw [hdel, Control.isFull_deleted] at hfull
      cases hfull
    · intro k hjk hki
      exact (hchain (k + 1) (by omega) (by omega)).2
  · intro hm
    obtain ⟨hlt, hlane, hmin, -⟩ := hflags.first (by decide) hm
    refine ⟨hlt, hlane, ?_⟩
    obtain ⟨j, hj, heq, hchain⟩ := exists_match_below hlt hlane
    -- A hit strictly below would be flagged below the lowest flag.
    rcases Nat.lt_or_eq_of_le hj with hbelow | hsame
    · have hprev := (hchain _ hbelow le_rfl).2
      exact absurd hprev (hmin _ (by omega))
    · rw [hsame] at heq
      exact heq

/-! ## The scalar masks -/

/-- The mask with one bit for each lane. -/
def scalarMask (m : ℕ) : ℕ :=
  packBits 8 (fun i => (m.testBit (i * 8 + 7)).toNat) % 2 ^ 8

/-- The lanes of a mask come in the order in which those of its scalar mask
do. -/
structure EnumeratesAsScalar (m : ℕ) : Prop where
  first : firstLane swarGroup m = countrZero 8 (scalarMask m)
  last : lastLanesClear swarGroup m = countlZero 8 (scalarMask m)
  clear : scalarMask (m &&& (m - 1)) = scalarMask m &&& (scalarMask m - 1)
  lanes : lanes 8 8 m = lanes 8 1 (scalarMask m)

theorem flags_scalarMask {P : ℕ → Prop} {m : ℕ} (h : Flags 8 8 P m) :
    Flags 8 1 P (scalarMask m) := by
  have hflags := flags_packBits (w := 8)
    (f := fun i => (m.testBit (i * 8 + 7)).toNat) fun i _ => Bool.toNat_le _
  refine hflags.congr fun i hi => ?_
  rw [Bool.toNat_eq_one, h]
  constructor
  · rintro ⟨j, -, hP, hij⟩
    obtain rfl : i = j := by omega
    exact hP
  · intro hP
    exact ⟨i, hi, hP, rfl⟩

theorem enumeratesAsScalar {P : ℕ → Prop} {m : ℕ} (h : Flags 8 8 P m) :
    EnumeratesAsScalar m := by
  have hscalar := flags_scalarMask h
  refine ⟨?_, ?_, ?_, h.lanes_eq hscalar (by decide) (by decide)⟩
  · have hscan := h.countrZero_div hscalar (by decide) (by decide)
    rwa [Nat.div_one] at hscan
  · have hscan := h.countlZero_div hscalar (by decide) (by decide)
    rwa [Nat.div_one] at hscan
  · obtain ⟨Q, hrest, hrest'⟩ :=
      h.exists_clear hscalar (by decide) (by decide)
    exact (flags_scalarMask hrest).unique hrest'

/-- A lane that is not full is empty or deleted. -/
theorem isFull_eq_false_iff_of_valid {c : UInt8} (hc : Control.Valid c) :
    Control.isFull c = false ↔ c = Control.empty ∨ c = Control.deleted := by
  constructor
  · intro hfree
    rcases hc with hempty | hdel | hfull
    · exact Or.inl hempty
    · exact Or.inr hdel
    · rw [hfull] at hfree
      cases hfree
  · rintro (rfl | rfl)
    · exact Control.isFull_empty
    · exact Control.isFull_deleted

/-- The word group and the scalar definition, on eight control bytes and a
fingerprint. -/
theorem agrees_with_scalar (ctrl : ℕ → UInt8) (b : UInt8)
    (hctrl : ∀ i < 8, Control.Valid (ctrl i)) (hb : b < 0x80) :
    Matches ctrl b (matchByte ctrl b) ∧
    Flags 8 8 (fun i => ctrl i = Control.empty) (matchEmpty ctrl) ∧
    Flags 8 8 (fun i => ctrl i = Control.empty ∨ ctrl i = Control.deleted)
      (matchEmptyOrDeleted ctrl) ∧
    scalarMask (matchEmpty ctrl) = ScalarGroup.matchEmpty ctrl % 2 ^ 8 ∧
    scalarMask (matchEmptyOrDeleted ctrl) =
      ScalarGroup.matchEmptyOrDeleted ctrl % 2 ^ 8 ∧
    ∀ m ∈ [matchByte ctrl b, matchEmpty ctrl, matchEmptyOrDeleted ctrl],
      EnumeratesAsScalar m := by
  have hfull : Control.isFull b = true := (Control.isFull_iff b).mpr hb
  have hempty := matchEmpty_flags ctrl hctrl
  have hfree := matchEmptyOrDeleted_flags ctrl
  have hfree' := hfree.congr fun i hi =>
    isFull_eq_false_iff_of_valid (hctrl i hi)
  refine ⟨matchByte_matches ctrl hfull, hempty, hfree', ?_, ?_, ?_⟩
  · have hscalar := ScalarGroup.matchByte_flags ctrl Control.empty
    exact (flags_scalarMask hempty).unique (hscalar.lower (by decide))
  · have hscalar := scalarGroup_lawful.matchEmptyOrDeleted_flags ctrl
    exact (flags_scalarMask hfree).unique (hscalar.lower (by decide))
  · intro m hm
    simp only [List.mem_cons, List.not_mem_nil, or_false] at hm
    rcases hm with rfl | rfl | rfl
    · exact enumeratesAsScalar (flags_matchByte ctrl b)
    · exact enumeratesAsScalar hempty
    · exact enumeratesAsScalar hfree

/-- A hit in the lowest lane and a lane above it that is flagged by mistake. -/
def borrowed : ℕ → UInt8 :=
  fun i => [5, 4, Control.empty, Control.deleted].getD i 7

theorem agrees_with_scalar_borrowed :
    (∀ i < 8, Control.Valid (borrowed i)) ∧ (5 : UInt8) < 0x80 ∧
    Lane (matchByte borrowed 5) 1 ∧
    Matches borrowed 5 (matchByte borrowed 5) := by
  have hvalid : ∀ i < 8, Control.Valid (borrowed i) := by
    unfold Control.Valid
    decide
  have hlt : (5 : UInt8) < 0x80 := by
    decide
  have hlane : Lane (matchByte borrowed 5) 1 := by
    unfold Lane
    decide
  exact ⟨hvalid, hlt, hlane, (agrees_with_scalar borrowed 5 hvalid hlt).1⟩

end SwarGroup

end Fastbook.Swiss

import Fastbook.Support.LaneMask
import Mathlib.Data.Nat.Digits.Defs
import Mathlib.Tactic.IntervalCases

/-!
# Control bytes and groups of the Swiss table

A model of `namespace swiss` (`common/swiss_table.hpp`).  A group compares
`WIDTH` control bytes at once; the pointer it is given is the function from the
offset to the byte there, and the masks it returns are natural numbers.  The
vector intrinsics are taken lane by lane, as they are documented.

`Group.Lawful` states what the table needs of a group, and all four groups of
the source have it.  Their `match` may flag a lane whose byte differs from the
one looked for, but only a full one.
-/

namespace Fastbook.Swiss

open Support

namespace Control

def empty : UInt8 := 0x80

def deleted : UInt8 := 0xFE

def setFull (fprint : UInt8) : UInt8 :=
  fprint &&& 0x7F

def isFull (data : UInt8) : Bool :=
  data &&& 0x80 == 0

/-- The bytes a control byte can hold. -/
def Valid (data : UInt8) : Prop :=
  data = empty ∨ data = deleted ∨ isFull data = true

end Control

/-- The interface of a group: `WIDTH`, `LANE_BITS` and the three matches. -/
structure Group where
  width : ℕ
  laneBits : ℕ
  matchByte : (ℕ → UInt8) → UInt8 → ℕ
  matchEmpty : (ℕ → UInt8) → ℕ
  matchEmptyOrDeleted : (ℕ → UInt8) → ℕ

namespace ScalarGroup

def matchByte (ctrl : ℕ → UInt8) (b : UInt8) : ℕ :=
  packBits 16 (fun i => (ctrl i == b).toNat) % 2 ^ 16

def matchEmpty (ctrl : ℕ → UInt8) : ℕ :=
  matchByte ctrl Control.empty

def matchEmptyOrDeleted (ctrl : ℕ → UInt8) : ℕ :=
  packBits 16 (fun i => (ctrl i >>> 7).toNat) % 2 ^ 16

end ScalarGroup

def scalarGroup : Group where
  width := 16
  laneBits := 1
  matchByte := ScalarGroup.matchByte
  matchEmpty := ScalarGroup.matchEmpty
  matchEmptyOrDeleted := ScalarGroup.matchEmptyOrDeleted

namespace SwarGroup

def lsbs : UInt64 := 0x0101010101010101

def msbs : UInt64 := 0x8080808080808080

/-- The `memcpy` of eight control bytes into a little-endian word. -/
def load (ctrl : ℕ → UInt8) : UInt64 :=
  UInt64.ofNat (Nat.ofDigits 256 ((List.range 8).map fun i => (ctrl i).toNat))

def matchByte (ctrl : ℕ → UInt8) (b : UInt8) : ℕ :=
  let test := b.toUInt64 * lsbs
  let x := load ctrl ^^^ test
  ((x - lsbs) &&& ~~~x &&& msbs).toNat

def matchEmpty (ctrl : ℕ → UInt8) : ℕ :=
  let g := load ctrl
  (g &&& ~~~(g <<< 6) &&& msbs).toNat

def matchEmptyOrDeleted (ctrl : ℕ → UInt8) : ℕ :=
  (load ctrl &&& msbs).toNat

end SwarGroup

def swarGroup : Group where
  width := 8
  laneBits := 8
  matchByte := SwarGroup.matchByte
  matchEmpty := SwarGroup.matchEmpty
  matchEmptyOrDeleted := SwarGroup.matchEmptyOrDeleted

/-! ## Vector intrinsics

`_mm_…` and `_mm256_…` differ only in the number `w` of bytes of a vector. -/

/-- `_mm_set1_epi8`: one byte in every lane. -/
def set1Epi8 (b : UInt8) : ℕ → UInt8 :=
  fun _ => b

/-- `_mm_cmpeq_epi8`: all ones in the lanes that agree, zero in the others. -/
def cmpeqEpi8 (a b : ℕ → UInt8) : ℕ → UInt8 :=
  fun i => if a i = b i then 0xFF else 0

/-- `_mm_movemask_epi8`: the most significant bits of the lanes. -/
def movemaskEpi8 (w : ℕ) (a : ℕ → UInt8) : ℕ :=
  packBits w fun i => (a i >>> 7).toNat

/-- `Sse2Group` and `Avx2Group`, with the number of bytes of the vector. -/
def vectorGroup (w : ℕ) : Group where
  width := w
  laneBits := 1
  matchByte := fun ctrl b =>
    movemaskEpi8 w (cmpeqEpi8 ctrl (set1Epi8 b)) % 2 ^ w
  matchEmpty := fun ctrl =>
    movemaskEpi8 w (cmpeqEpi8 ctrl (set1Epi8 Control.empty)) % 2 ^ w
  matchEmptyOrDeleted := fun ctrl => movemaskEpi8 w ctrl % 2 ^ w

def sse2Group : Group :=
  vectorGroup 16

def avx2Group : Group :=
  vectorGroup 32

def groups : List Group :=
  [scalarGroup, swarGroup, sse2Group, avx2Group]

/-! ## What the table needs of a group -/

structure Group.Lawful (G : Group) : Prop where
  width_eq : ∃ e, 3 ≤ e ∧ G.width = 2 ^ e
  laneBits_pos : 0 < G.laneBits
  matchByte_flags : ∀ ctrl b, Control.isFull b = true →
    ∃ P, Flags G.width G.laneBits P (G.matchByte ctrl b) ∧
      (∀ i < G.width, ctrl i = b → P i) ∧
      ∀ i < G.width, P i → Control.isFull (ctrl i) = true
  matchEmpty_flags : ∀ ctrl, (∀ i < G.width, Control.Valid (ctrl i)) →
    Flags G.width G.laneBits (fun i => ctrl i = Control.empty)
      (G.matchEmpty ctrl)
  matchEmptyOrDeleted_flags : ∀ ctrl,
    Flags G.width G.laneBits (fun i => Control.isFull (ctrl i) = false)
      (G.matchEmptyOrDeleted ctrl)

/-! ## The control byte -/

theorem Control.isFull_iff (c : UInt8) :
    Control.isFull c = true ↔ c.toNat < 128 := by
  have hlt := c.toNat_lt
  have htop : (c &&& 0x80).toNat = (c.toNat / 128 % 2) * 128 := by
    rw [UInt8.toNat_and, show (0x80 : UInt8).toNat = 2 ^ 7 from rfl,
      Nat.and_two_pow, Nat.testBit_eq_decide_div_mod_eq]
    rcases Nat.mod_two_eq_zero_or_one (c.toNat / 128) with h | h
    · simp [h]
    · simp [h]
  rw [Control.isFull, beq_iff_eq, ← UInt8.toNat_inj, htop]
  change _ = 0 ↔ _
  omega

theorem Control.isFull_eq_false_iff (c : UInt8) :
    Control.isFull c = false ↔ 128 ≤ c.toNat := by
  rw [← Bool.not_eq_true, Control.isFull_iff, Nat.not_lt]

theorem Control.isFull_setFull (fprint : UInt8) :
    Control.isFull (Control.setFull fprint) = true := by
  rw [Control.isFull_iff, Control.setFull, UInt8.toNat_and]
  exact Nat.lt_succ_of_le Nat.and_le_right

theorem Control.isFull_empty : Control.isFull Control.empty = false := rfl

theorem Control.isFull_deleted : Control.isFull Control.deleted = false := rfl

theorem Control.deleted_ne_empty : Control.deleted ≠ Control.empty := by
  decide

theorem Control.ne_empty_of_isFull {c : UInt8} (h : Control.isFull c = true) :
    c ≠ Control.empty := by
  rintro rfl
  rw [Control.isFull_empty] at h
  cases h

/-- The top bit of a byte, shifted down. -/
theorem toNat_shiftRight_seven (c : UInt8) :
    (c >>> 7).toNat = c.toNat / 128 := by
  rw [UInt8.toNat_shiftRight, Nat.shiftRight_eq_div_pow]
  rfl

theorem toNat_shiftRight_seven_le (c : UInt8) : (c >>> 7).toNat ≤ 1 := by
  have hlt := c.toNat_lt
  rw [toNat_shiftRight_seven]
  omega

theorem toNat_shiftRight_seven_eq_one (c : UInt8) :
    (c >>> 7).toNat = 1 ↔ Control.isFull c = false := by
  have hlt := c.toNat_lt
  rw [toNat_shiftRight_seven, Control.isFull_eq_false_iff]
  omega

/-! ## Groups that compare lane by lane -/

/-- The flags of `movemask` are the lanes whose top bit is set. -/
theorem flags_movemask (w : ℕ) (a : ℕ → UInt8) :
    Flags w 1 (fun i => Control.isFull (a i) = false)
      (movemaskEpi8 w a % 2 ^ w) := by
  have hflags := flags_packBits (w := w) (f := fun i => (a i >>> 7).toNat)
    fun i _ => toNat_shiftRight_seven_le (a i)
  exact hflags.congr fun i _ => toNat_shiftRight_seven_eq_one (a i)

theorem isFull_cmpeqEpi8 (a : ℕ → UInt8) (b : UInt8) (i : ℕ) :
    Control.isFull (cmpeqEpi8 a (set1Epi8 b) i) = false ↔ a i = b := by
  unfold cmpeqEpi8 set1Epi8
  split
  · next h => exact iff_of_true rfl h
  · next h => exact iff_of_false (by decide) h

theorem flags_cmpeq (w : ℕ) (ctrl : ℕ → UInt8) (b : UInt8) :
    Flags w 1 (fun i => ctrl i = b)
      (movemaskEpi8 w (cmpeqEpi8 ctrl (set1Epi8 b)) % 2 ^ w) :=
  (flags_movemask w _).congr fun i _ => isFull_cmpeqEpi8 ctrl b i

/-- A group whose masks flag exactly the lanes asked for is lawful. -/
theorem lawful_of_exact {G : Group} (hwidth : ∃ e, 3 ≤ e ∧ G.width = 2 ^ e)
    (hlane : G.laneBits = 1)
    (hbyte : ∀ ctrl b, Flags G.width 1 (fun i => ctrl i = b)
      (G.matchByte ctrl b))
    (hempty : ∀ ctrl, G.matchEmpty ctrl = G.matchByte ctrl Control.empty)
    (hfree : ∀ ctrl,
      Flags G.width 1 (fun i => Control.isFull (ctrl i) = false)
        (G.matchEmptyOrDeleted ctrl)) : G.Lawful where
  width_eq := hwidth
  laneBits_pos := by omega
  matchByte_flags := by
    intro ctrl b hb
    rw [hlane]
    refine ⟨_, hbyte ctrl b, fun i _ h => h, ?_⟩
    intro i _ h
    rw [h, hb]
  matchEmpty_flags := by
    intro ctrl _
    rw [hlane, hempty]
    exact hbyte ctrl Control.empty
  matchEmptyOrDeleted_flags := by
    intro ctrl
    rw [hlane]
    exact hfree ctrl

theorem vectorGroup_lawful {e : ℕ} (he : 3 ≤ e) :
    (vectorGroup (2 ^ e)).Lawful :=
  lawful_of_exact ⟨e, he, rfl⟩ rfl (fun ctrl b => flags_cmpeq _ ctrl b)
    (fun _ => rfl) (fun ctrl => flags_movemask _ ctrl)

theorem ScalarGroup.matchByte_flags (ctrl : ℕ → UInt8) (b : UInt8) :
    Flags 16 1 (fun i => ctrl i = b) (ScalarGroup.matchByte ctrl b) := by
  have hflags := flags_packBits (w := 16) (f := fun i => (ctrl i == b).toNat)
    fun i _ => Bool.toNat_le (ctrl i == b)
  exact hflags.congr fun i _ => by simp

theorem scalarGroup_lawful : scalarGroup.Lawful := by
  apply lawful_of_exact ⟨4, by decide, rfl⟩ rfl
  · exact ScalarGroup.matchByte_flags
  · intro ctrl
    rfl
  · intro ctrl
    exact flags_movemask 16 ctrl

/-! ## The group that computes on a whole word -/

namespace SwarGroup

theorem byteAt_load (ctrl : ℕ → UInt8) {i : ℕ} (hi : i < 8) :
    byteAt (load ctrl).toNat i = (ctrl i).toNat := by
  have hbyte : ∀ j, (ctrl j).toNat < 256 := fun j => (ctrl j).toNat_lt
  have h0 := hbyte 0
  have h1 := hbyte 1
  have h2 := hbyte 2
  have h3 := hbyte 3
  have h4 := hbyte 4
  have h5 := hbyte 5
  have h6 := hbyte 6
  have h7 := hbyte 7
  rw [load, UInt64.toNat_ofNat', byteAt]
  simp only [List.range, List.range.loop, List.map_cons, List.map_nil,
    Nat.ofDigits_cons, Nat.ofDigits_nil]
  interval_cases i <;> omega

/-- Bit `j` of lane `i` of the loaded word is bit `j` of byte `i`. -/
theorem testBit_load (ctrl : ℕ → UInt8) {i j : ℕ} (hi : i < 8) (hj : j < 8) :
    (load ctrl).toNat.testBit (i * 8 + j) = (ctrl i).toNat.testBit j := by
  rw [← testBit_byteAt _ _ hj, byteAt_load ctrl hi]

theorem testBit_msbs (p : ℕ) :
    msbs.toNat.testBit p = true ↔ ∃ i < 8, p = i * 8 + 7 := by
  by_cases hp : p < 64
  · have hall : ∀ p < 64, msbs.toNat.testBit p = decide (p % 8 = 7) := by
      decide
    rw [hall p hp, decide_eq_true_eq]
    constructor
    · intro h
      exact ⟨p / 8, by omega, by omega⟩
    · rintro ⟨i, -, rfl⟩
      omega
  · have hlt : msbs.toNat < 2 ^ p :=
      lt_of_lt_of_le msbs.toNat_lt (Nat.pow_le_pow_right (by omega) (by omega))
    rw [Nat.testBit_lt_two_pow hlt]
    constructor
    · intro h
      cases h
    · rintro ⟨i, hi, rfl⟩
      omega

/-- Masking with `MSBS` leaves one flag for each lane. -/
theorem flags_and_msbs (m : UInt64) :
    Flags 8 8 (fun i => m.toNat.testBit (i * 8 + 7) = true)
      (m &&& msbs).toNat := by
  intro p
  rw [UInt64.toNat_and, Nat.testBit_and, Bool.and_eq_true, testBit_msbs]
  constructor
  · rintro ⟨hbit, i, hi, rfl⟩
    exact ⟨i, hi, hbit, rfl⟩
  · rintro ⟨i, hi, hbit, rfl⟩
    exact ⟨hbit, i, hi, rfl⟩

/-- The multiplication by `LSBS` puts a byte into every lane. -/
theorem broadcast_eq_load (b : UInt8) :
    b.toUInt64 * lsbs = load fun _ => b := by
  have hb := b.toNat_lt
  apply UInt64.toNat_inj.mp
  rw [load, UInt64.toNat_mul, UInt64.toNat_ofNat', UInt8.toNat_toUInt64,
    show lsbs.toNat = 72340172838076673 from rfl]
  simp only [List.range, List.range.loop, List.map_cons, List.map_nil,
    Nat.ofDigits_cons, Nat.ofDigits_nil]
  omega

/-- A zero lane has its top bit set after the subtraction, whatever is borrowed
from it. -/
theorem testBit_sub_lsbs {x : UInt64} {i : ℕ} (hi : i < 8)
    (hzero : byteAt x.toNat i = 0) :
    (x - lsbs).toNat.testBit (i * 8 + 7) = true := by
  have hx := x.toNat_lt
  rw [UInt64.toNat_sub, show lsbs.toNat = 72340172838076673 from rfl,
    Nat.testBit_eq_decide_div_mod_eq, decide_eq_true_eq]
  rw [byteAt] at hzero
  interval_cases i <;> omega

/-- Lane `i` of the word that `match` computes on. -/
theorem byteAt_xor_broadcast (ctrl : ℕ → UInt8) (b : UInt8) {i : ℕ}
    (hi : i < 8) :
    byteAt (load ctrl ^^^ b.toUInt64 * lsbs).toNat i =
      (ctrl i).toNat ^^^ b.toNat := by
  rw [UInt64.toNat_xor, byteAt_xor, byteAt_load ctrl hi, broadcast_eq_load,
    byteAt_load _ hi]

/-- A lane that `match` flags has the top bit of the byte looked for. -/
theorem isFull_of_xor {c b : UInt8} (hb : Control.isFull b = true)
    (hbit : (c.toNat ^^^ b.toNat).testBit 7 = false) :
    Control.isFull c = true := by
  have hc := c.toNat_lt
  rw [Control.isFull_iff] at hb ⊢
  rw [Nat.testBit_xor, Nat.testBit_lt_two_pow (i := 7) hb, Bool.xor_false,
    Nat.testBit_eq_decide_div_mod_eq, decide_eq_false_iff_not] at hbit
  omega

theorem matchByte_flags (ctrl : ℕ → UInt8) {b : UInt8}
    (hb : Control.isFull b = true) :
    ∃ P, Flags 8 8 P (matchByte ctrl b) ∧
      (∀ i < 8, ctrl i = b → P i) ∧
      ∀ i < 8, P i → Control.isFull (ctrl i) = true := by
  refine ⟨_, flags_and_msbs _, ?_, ?_⟩
  · intro i hi heq
    have hzero := byteAt_xor_broadcast ctrl b hi
    rw [heq, Nat.xor_self] at hzero
    rw [UInt64.toNat_and, Nat.testBit_and, testBit_sub_lsbs hi hzero,
      testBit_not _ (by omega), ← testBit_byteAt _ _ (by omega), hzero]
    rfl
  · intro i hi hflag
    rw [UInt64.toNat_and, Nat.testBit_and, Bool.and_eq_true,
      testBit_not _ (by omega)] at hflag
    obtain ⟨-, hnot⟩ := hflag
    rw [← testBit_byteAt _ _ (by omega), byteAt_xor_broadcast ctrl b hi] at hnot
    exact isFull_of_xor hb (by simpa using hnot)

/-- The bit test of `match_empty` picks `EMPTY` among the bytes a control byte
can hold. -/
theorem testBit_empty_iff {c : UInt8} (hc : Control.Valid c) :
    (c.toNat.testBit 7 && !c.toNat.testBit 1) = true ↔ c = Control.empty := by
  rcases hc with rfl | rfl | hfull
  · decide
  · decide
  · have hlt := (Control.isFull_iff c).mp hfull
    rw [Nat.testBit_lt_two_pow (i := 7) hlt]
    exact iff_of_false (by simp) (Control.ne_empty_of_isFull hfull)

theorem matchEmpty_flags (ctrl : ℕ → UInt8)
    (hvalid : ∀ i < 8, Control.Valid (ctrl i)) :
    Flags 8 8 (fun i => ctrl i = Control.empty) (matchEmpty ctrl) := by
  refine (flags_and_msbs _).congr ?_
  intro i hi
  have hshift : (load ctrl <<< 6).toNat.testBit (i * 8 + 7) =
      (ctrl i).toNat.testBit 1 := by
    rw [UInt64.toNat_shiftLeft, Nat.testBit_mod_two_pow,
      show (6 : UInt64).toNat % 64 = 6 from rfl, Nat.testBit_shiftLeft,
      show i * 8 + 7 - 6 = i * 8 + 1 by omega, testBit_load ctrl hi (by omega)]
    have hlt : i * 8 + 7 < 64 := by omega
    simp [hlt]
  rw [UInt64.toNat_and, Nat.testBit_and, testBit_not _ (by omega), hshift,
    testBit_load ctrl hi (by omega)]
  exact testBit_empty_iff (hvalid i hi)

theorem matchEmptyOrDeleted_flags (ctrl : ℕ → UInt8) :
    Flags 8 8 (fun i => Control.isFull (ctrl i) = false)
      (matchEmptyOrDeleted ctrl) := by
  refine (flags_and_msbs _).congr ?_
  intro i hi
  have hlt := (ctrl i).toNat_lt
  rw [testBit_load ctrl hi (by omega), Control.isFull_eq_false_iff,
    Nat.testBit_eq_decide_div_mod_eq, decide_eq_true_eq]
  omega

end SwarGroup

theorem swarGroup_lawful : swarGroup.Lawful where
  width_eq := ⟨3, by decide, rfl⟩
  laneBits_pos := by decide
  matchByte_flags := fun ctrl _ hb => SwarGroup.matchByte_flags ctrl hb
  matchEmpty_flags := SwarGroup.matchEmpty_flags
  matchEmptyOrDeleted_flags := SwarGroup.matchEmptyOrDeleted_flags

/-- All four groups are lawful. -/
theorem lawful_of_mem_groups {G : Group} (hG : G ∈ groups) : G.Lawful := by
  simp only [groups, List.mem_cons, List.not_mem_nil, or_false] at hG
  rcases hG with rfl | rfl | rfl | rfl
  · exact scalarGroup_lawful
  · exact swarGroup_lawful
  · exact vectorGroup_lawful (e := 4) (by decide)
  · exact vectorGroup_lawful (e := 5) (by decide)

end Fastbook.Swiss

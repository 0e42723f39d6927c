import Mathlib.Data.List.Basic

/-!
# Mapped memory

The regions of memory that are mapped, each with its base and its length.  A
region to be mapped has to be free; what is unmapped is any range.
-/

namespace Fastbook.Support

abbrev AddressSpace := List (ℕ × ℕ)

namespace AddressSpace

variable {m : AddressSpace} {base len a : ℕ}

def Covers (m : AddressSpace) (a : ℕ) : Prop :=
  ∃ r ∈ m, r.1 ≤ a ∧ a < r.1 + r.2

def Free (m : AddressSpace) (base len : ℕ) : Prop :=
  ∀ r ∈ m, r.1 + r.2 ≤ base ∨ base + len ≤ r.1

instance : Decidable (Free m base len) :=
  inferInstanceAs (Decidable (∀ r ∈ m, _))

def mmap (m : AddressSpace) (base len : ℕ) : AddressSpace :=
  (base, len) :: m

/-- What is left of a region on either side of a range. -/
def remainder (base len : ℕ) (r : ℕ × ℕ) : AddressSpace :=
  [(r.1, min r.2 (base - r.1)),
    (max r.1 (base + len), r.1 + r.2 - max r.1 (base + len))].filter (0 < ·.2)

def munmap (m : AddressSpace) (base len : ℕ) : AddressSpace :=
  m.flatMap (remainder base len)

theorem Free.not_covers (h : Free m base len) (hle : base ≤ a)
    (hlt : a < base + len) : ¬ Covers m a := by
  rintro ⟨r, hr, hra, har⟩
  have := h r hr
  omega

theorem covers_mmap :
    Covers (mmap m base len) a ↔ base ≤ a ∧ a < base + len ∨ Covers m a := by
  simp [Covers, mmap]

theorem covers_remainder {r : ℕ × ℕ} :
    Covers (remainder base len r) a ↔
      (r.1 ≤ a ∧ a < r.1 + r.2) ∧ ¬ (base ≤ a ∧ a < base + len) := by
  constructor
  · rintro ⟨r', hr', hle, hlt⟩
    rw [remainder, List.mem_filter] at hr'
    simp only [List.mem_cons, List.not_mem_nil, or_false] at hr'
    obtain ⟨rfl | rfl, -⟩ := hr'
    · simp only at hle hlt
      omega
    · simp only at hle hlt
      omega
  · rintro ⟨⟨hle, hlt⟩, hout⟩
    by_cases ha : a < base
    · refine ⟨(r.1, min r.2 (base - r.1)), ?_, hle, ?_⟩
      · simp only [remainder, List.mem_filter, List.mem_cons, true_or, true_and,
          decide_eq_true_eq]
        omega
      · simp only
        omega
    · refine ⟨(max r.1 (base + len), r.1 + r.2 - max r.1 (base + len)),
        ?_, ?_, ?_⟩
      · simp only [remainder, List.mem_filter, List.mem_cons, true_or, or_true,
          true_and, decide_eq_true_eq]
        omega
      · simp only
        omega
      · simp only
        omega

theorem covers_munmap :
    Covers (munmap m base len) a ↔
      Covers m a ∧ ¬ (base ≤ a ∧ a < base + len) := by
  constructor
  · rintro ⟨r', hr', ha⟩
    obtain ⟨r, hr, hr'⟩ := List.mem_flatMap.mp hr'
    have := covers_remainder.mp ⟨r', hr', ha⟩
    exact ⟨⟨r, hr, this.1⟩, this.2⟩
  · rintro ⟨⟨r, hr, ha⟩, hout⟩
    obtain ⟨r', hr', ha'⟩ := covers_remainder.mpr ⟨ha, hout⟩
    exact ⟨r', List.mem_flatMap.mpr ⟨r, hr, hr'⟩, ha'⟩

end AddressSpace

end Fastbook.Support

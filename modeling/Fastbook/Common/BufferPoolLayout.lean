import Fastbook.Common.BufferPoolPlaces

/-!
# How the chunks are laid out

Chunks are aligned, mapped and apart from each other.  The blocks are those of
the claimed runs of the small chunks, so an address tells the chunk, the run and
the class of its block.
-/

namespace Fastbook.BufferPool

open Support

/-! ## Sizes -/

theorem classOf_lt {sz : ℕ} (h : sz ≤ maxClassSize) : classOf sz < nClasses := by
  have hclog : Nat.clog 2 sz ≤ Nat.clog 2 (2 ^ 13) := Nat.clog_mono_right 2 h
  rw [Nat.clog_pow 2 13 Nat.one_lt_two] at hclog
  have hn : nClasses = 10 := rfl
  have hm : minShift = 4 := rfl
  simp only [classOf]
  split <;> omega

theorem clsOf_val {sz : ℕ} (h : sz ≤ maxClassSize) :
    (clsOf sz : ℕ) = classOf sz :=
  Nat.mod_eq_of_lt (classOf_lt h)

theorem le_sizeofClass {sz : ℕ} (h : sz ≤ maxClassSize) :
    sz ≤ sizeofClass (clsOf sz) := by
  rw [clsOf_val h]
  calc sz ≤ 2 ^ Nat.clog 2 sz := Nat.le_pow_clog Nat.one_lt_two sz
    _ ≤ 2 ^ (classOf sz + minShift) := by
        apply Nat.pow_le_pow_right Nat.two_pos
        simp only [classOf]
        split <;> omega

theorem sizeofClass_le (c : Cls) : sizeofClass c ≤ maxClassSize := by
  have hle : (c : ℕ) + minShift ≤ 13 := by
    have := c.isLt
    have : nClasses = 10 := rfl
    have : minShift = 4 := rfl
    omega
  exact Nat.pow_le_pow_right Nat.two_pos hle

theorem clsOf_sizeofClass (c : Cls) : clsOf (sizeofClass c) = c := by
  apply Fin.ext
  rw [clsOf_val (sizeofClass_le c)]
  simp only [classOf, sizeofClass, Nat.clog_pow 2 _ Nat.one_lt_two]
  rw [if_neg (by omega)]
  omega

theorem roundToCnkSz_spec {val : ℕ} (h : val ≤ 2 ^ 41) :
    val ≤ roundToCnkSz val ∧ chunkSize ∣ roundToCnkSz val := by
  refine ⟨?_, Nat.dvd_mul_left _ _⟩
  unfold roundToCnkSz
  rw [Nat.mod_eq_of_lt (by simp only [chunkSize]; omega)]
  simp only [chunkSize]
  omega

/-! ## The bitmap of runs -/

theorem countrOne_mask (w u : ℕ) : countrOne w (2 ^ u - 1) = min w u := by
  induction w generalizing u with
  | zero => simp [countrOne]
  | succ w ih =>
      cases u with
      | zero => simp [countrOne]
      | succ u =>
          have hpos := Nat.two_pow_pos u
          have hpow : 2 ^ (u + 1) = 2 * 2 ^ u := Nat.pow_succ'
          have hodd : (2 ^ (u + 1) - 1) % 2 = 1 := by omega
          have hhalf : (2 ^ (u + 1) - 1) / 2 = 2 ^ u - 1 := by omega
          rw [countrOne, if_pos hodd, hhalf, ih]
          omega

theorem mask_or (u : ℕ) : (2 ^ u - 1) ||| 2 ^ u = 2 ^ (u + 1) - 1 := by
  have hpos := Nat.two_pow_pos u
  have hor := Nat.two_pow_add_eq_or_of_lt (b := 2 ^ u - 1) (i := u) (by omega) 1
  rw [Nat.mul_one] at hor
  rw [Nat.or_comm, ← hor, Nat.pow_succ]
  omega

/-- The number of the next run to be claimed; the first one is the header's. -/
def Header.used (h : Header) : ℕ :=
  nRuns - h.freeRuns

structure Header.Wf (h : Header) : Prop where
  lt : h.freeRuns < nRuns
  bmap : h.bmap = 2 ^ h.used - 1

theorem Header.wf_new : ({} : Header).Wf :=
  ⟨by decide, by decide⟩

/-- The header after a run has been claimed. -/
def Header.claimed (h : Header) (cls : Cls) : Header :=
  { h with
    runClass := Function.update h.runClass h.used cls
    bmap := h.bmap ||| 2 ^ h.used
    freeRuns := h.freeRuns - 1 }

theorem Header.claimRun_eq {h : Header} (hwf : h.Wf) (hfree : 0 < h.freeRuns)
    (this : ℕ) (cls : Cls) :
    h.claimRun this cls = some (this + h.used * runSize, h.claimed cls) := by
  have hfirst : countrOne 32 h.bmap = h.used := by
    rw [hwf.bmap, countrOne_mask]
    have : nRuns = 32 := by decide
    have := hwf.lt
    simp only [used]
    omega
  have hlt : ¬ nRuns ≤ h.used := by
    have := hwf.lt
    simp only [used]
    omega
  simp only [claimRun, hfirst, if_neg hlt, claimed]

theorem Header.used_claimed {h : Header} (hwf : h.Wf) (hfree : 0 < h.freeRuns)
    (cls : Cls) : (h.claimed cls).used = h.used + 1 := by
  have := hwf.lt
  simp only [used, claimed]
  omega

theorem Header.Wf.claimed {h : Header} (hwf : h.Wf) (hfree : 0 < h.freeRuns)
    (cls : Cls) : (h.claimed cls).Wf := by
  refine ⟨?_, ?_⟩
  · have := hwf.lt
    simp only [Header.claimed]
    omega
  · rw [used_claimed hwf hfree]
    simp only [Header.claimed, hwf.bmap, mask_or]

/-! ## Blocks and addresses -/

theorem index_end_le {k : Cls} {i : ℕ} (h : i < runSize / sizeofClass k) :
    i * sizeofClass k + sizeofClass k ≤ runSize :=
  calc i * sizeofClass k + sizeofClass k = (i + 1) * sizeofClass k :=
        (Nat.succ_mul _ _).symm
    _ ≤ runSize / sizeofClass k * sizeofClass k := Nat.mul_le_mul_right _ h
    _ ≤ runSize := Nat.div_mul_le_self _ _

/-- An address inside a run of a chunk. -/
theorem run_of_address {c run off : ℕ} (hc : chunkSize ∣ c) (hrun : run < nRuns)
    (hoff : off < runSize) :
    baseOf (c + run * runSize + off) = c ∧
      (c + run * runSize + off - c) / runSize = run := by
  obtain ⟨q, rfl⟩ := hc
  have hn : nRuns = 32 := by decide
  simp only [baseOf, chunkSize, runSize] at *
  omega

/-- Block `i` of a claimed run. -/
structure BlockAt (a : Arena) (x : ℕ) (k : Cls) (c run i : ℕ) : Prop where
  chunk : c ∈ a.chunks
  small : (a.header c).isLarge = false
  run_pos : 0 < run
  run_lt : run < (a.header c).used
  cls : (a.header c).runClass run = k
  index : i < runSize / sizeofClass k
  address : x = c + run * runSize + i * sizeofClass k

/-- The memory of a chunk, its header included. -/
def Arena.extent (a : Arena) (c : ℕ) : ℕ :=
  if (a.header c).isLarge then (a.header c).sz else chunkSize

structure Layout (a : Arena) : Prop where
  nodup : a.chunks.Nodup
  pos : ∀ c ∈ a.chunks, 0 < c
  aligned : ∀ c ∈ a.chunks, chunkSize ∣ c
  mapped : ∀ c ∈ a.chunks, ∀ x, c ≤ x → x < c + a.extent c → a.mapped.Covers x
  apart : ∀ c ∈ a.chunks, ∀ c' ∈ a.chunks, c ≠ c' →
    c + a.extent c ≤ c' ∨ c' + a.extent c' ≤ c
  small : ∀ c ∈ a.chunks, (a.header c).isLarge = false → (a.header c).Wf
  extent_le : ∀ c ∈ a.chunks, chunkSize ≤ a.extent c

namespace BlockAt

variable {a : Arena} {x x' c c' run run' i i' : ℕ} {k k' : Cls}

theorem extent_eq (h : BlockAt a x k c run i) : a.extent c = chunkSize := by
  simp [Arena.extent, h.small]

theorem run_lt_nRuns (h : BlockAt a x k c run i) : run < nRuns :=
  h.run_lt.trans_le (Nat.sub_le _ _)

theorem run_le (h : BlockAt a x k c run i) : c + run * runSize ≤ x := by
  have := h.address
  omega

theorem end_le_run (h : BlockAt a x k c run i) :
    x + sizeofClass k ≤ c + (run + 1) * runSize := by
  have hend := index_end_le h.index
  have := h.address
  rw [Nat.succ_mul]
  omega

/-- A block lies in its chunk, after the first run. -/
theorem header_le (h : BlockAt a x k c run i) : c + runSize ≤ x := by
  have hrun := h.run_le
  have hpos := Nat.mul_le_mul_right runSize h.run_pos
  omega

theorem end_le (h : BlockAt a x k c run i) : x + sizeofClass k ≤ c + chunkSize := by
  have hend := h.end_le_run
  have hrun : (run + 1) * runSize ≤ nRuns * runSize :=
    Nat.mul_le_mul_right _ h.run_lt_nRuns
  have hchunk : nRuns * runSize = chunkSize := by decide
  omega

/-- The chunk and the class are read off the address. -/
theorem baseCls (h : BlockAt a x k c run i) (hc : chunkSize ∣ c) :
    baseClsFromPtr a.header x = (c, k) := by
  have hoff : i * sizeofClass k < runSize := by
    have hend := index_end_le h.index
    have := sizeofClass_pos k
    omega
  have hrun := run_of_address hc h.run_lt_nRuns hoff
  rw [← h.address] at hrun
  simp only [baseClsFromPtr, hrun, h.cls]

/-- Blocks do not overlap. -/
theorem apart (h : BlockAt a x k c run i) (h' : BlockAt a x' k' c' run' i')
    (ha : Layout a) (hne : x ≠ x') :
    x + sizeofClass k ≤ x' ∨ x' + sizeofClass k' ≤ x := by
  by_cases hc : c = c'
  · subst hc
    rcases Nat.lt_trichotomy run run' with hlt | rfl | hlt
    · left
      calc x + sizeofClass k ≤ c + (run + 1) * runSize := h.end_le_run
        _ ≤ c + run' * runSize :=
            Nat.add_le_add_left (Nat.mul_le_mul_right _ hlt) _
        _ ≤ x' := h'.run_le
    · obtain rfl : k = k' := h.cls.symm.trans h'.cls
      have hx := h.address
      have hx' := h'.address
      rcases Nat.lt_trichotomy i i' with hlt | rfl | hlt
      · have := Nat.mul_le_mul_right (sizeofClass k) hlt
        rw [Nat.succ_mul] at this
        omega
      · exact absurd (hx.trans hx'.symm) hne
      · have := Nat.mul_le_mul_right (sizeofClass k) hlt
        rw [Nat.succ_mul] at this
        omega
    · right
      calc x' + sizeofClass k' ≤ c + (run' + 1) * runSize := h'.end_le_run
        _ ≤ c + run * runSize :=
            Nat.add_le_add_left (Nat.mul_le_mul_right _ hlt) _
        _ ≤ x := h.run_le
  · have hextent := h.extent_eq
    have hextent' := h'.extent_eq
    have hend := h.end_le
    have hend' := h'.end_le
    have hstart := h.header_le
    have hstart' := h'.header_le
    rcases ha.apart c h.chunk c' h'.chunk hc with hle | hle <;> omega

theorem aligned (h : BlockAt a x k c run i) (hc : chunkSize ∣ c) :
    sizeofClass k ∣ x := by
  have hrun := sizeofClass_dvd_runSize k
  have hchunk : runSize ∣ chunkSize := by decide
  rw [h.address]
  have hbase : sizeofClass k ∣ c := Nat.dvd_trans hrun (Nat.dvd_trans hchunk hc)
  exact Nat.dvd_add (Nat.dvd_add hbase (Nat.dvd_mul_left_of_dvd hrun run))
    (Nat.dvd_mul_left _ _)

end BlockAt

end Fastbook.BufferPool

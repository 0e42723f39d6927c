import Fastbook.Common.BufferPoolLayout

/-!
# Mapping, claiming and unmapping chunks

`ArenaInv` joins the layout of the chunks to the blocks that have been carved,
the large allocations and the stack of chunks with free runs.  What is done to
a chunk keeps it.
-/

namespace Fastbook.BufferPool

open Support AddressSpace

/-! ## New memory -/

theorem alignUp_spec (raw : ℕ) :
    chunkSize ∣ alignUp raw ∧ raw ≤ alignUp raw ∧
      alignUp raw < raw + chunkSize := by
  refine ⟨Nat.dvd_mul_left _ _, ?_⟩
  simp only [alignUp, chunkSize]
  omega

/-- `c` has been added to what is mapped. -/
structure Fresh (m m' : AddressSpace) (c sz : ℕ) : Prop where
  pos : 0 < c
  aligned : chunkSize ∣ c
  not_covers : ∀ x, c ≤ x → x < c + sz → ¬ m.Covers x
  covers : ∀ x, m'.Covers x ↔ m.Covers x ∨ c ≤ x ∧ x < c + sz

theorem covers_slack {m : AddressSpace} {base n x : ℕ} :
    (if n = 0 then m else m.munmap base n).Covers x ↔
      m.Covers x ∧ ¬ (base ≤ x ∧ x < base + n) := by
  split
  · next hn =>
      have : ¬ (base ≤ x ∧ x < base + n) := by omega
      exact (and_iff_left this).symm
  · exact covers_munmap

/-- A mapping is undone. -/
theorem covers_undone {m : AddressSpace} {base n : ℕ} (h : m.Free base n) (x : ℕ) :
    ((m.mmap base n).munmap base n).Covers x ↔ m.Covers x := by
  rw [covers_munmap, covers_mmap]
  by_cases hx : base ≤ x ∧ x < base + n
  · simp [hx, h.not_covers hx.1 hx.2]
  · simp [hx]

/-- Either memory is as before, or a chunk is new. -/
theorem allocateNewChunk_spec {m : AddressSpace} {sz : ℕ} {reply : MapReply}
    (h : reply.Valid m sz) :
    match allocateNewChunk m sz reply with
    | (none, m') => ∀ x, m'.Covers x ↔ m.Covers x
    | (some c, m') => Fresh m m' c sz := by
  unfold allocateNewChunk
  cases hhuge : reply.huge with
  | some a =>
      obtain ⟨hpos, hfree⟩ := h.1 a hhuge
      by_cases ha : a % chunkSize ≠ 0
      · simp only [if_pos ha]
        exact covers_undone hfree
      · simp only [if_neg ha]
        refine ⟨hpos, Nat.dvd_of_mod_eq_zero (not_not.mp ha), ?_, ?_⟩
        · intro x hle hlt
          exact hfree.not_covers hle hlt
        · intro x
          rw [covers_mmap, or_comm]
  | none =>
      cases hraw : reply.raw with
      | none => simp
      | some raw =>
          obtain ⟨hpos, hfree⟩ := h.2 raw hraw
          obtain ⟨hdvd, hle, hlt⟩ := alignUp_spec raw
          have hmod : ¬ alignUp raw % chunkSize ≠ 0 :=
            not_not.mpr (Nat.mod_eq_zero_of_dvd hdvd)
          by_cases hadv : reply.advised = true
          · simp only [hadv, not_true_eq_false, if_false, if_neg hmod]
            refine ⟨by omega, hdvd, ?_, ?_⟩
            · intro x hx hx'
              exact hfree.not_covers (by omega) (by omega)
            · intro x
              rw [covers_slack, covers_slack, covers_mmap]
              have hout : m.Covers x →
                  ¬ (raw ≤ x ∧ x < raw + (sz + chunkSize)) :=
                fun hx hin => hfree.not_covers hin.1 hin.2 hx
              by_cases hx : m.Covers x
              · have := hout hx
                simp only [hx, or_true, true_or, true_and, iff_true]
                omega
              · simp only [hx, or_false, false_or]
                omega
          · simp only [hadv]
            exact covers_undone hfree

/-! ## The invariant -/

variable {T : Type*}

/-- The blocks are those of the claimed runs. -/
def Carving (a : Arena) (carved : ℕ → Option Cls) : Prop :=
  ∀ x k, carved x = some k ↔ ∃ c run i, BlockAt a x k c run i

/-- A large allocation follows the header of its own chunk. -/
structure Allocations (a : Arena) (live : List (ℕ × ℕ)) : Prop where
  nodup : (live.map Prod.fst).Nodup
  large : ∀ e ∈ live, maxClassSize < e.2 → e.2 ≤ 2 ^ 40 ∧
    ∃ c ∈ a.chunks, e.1 = c + sizeofChunk ∧ (a.header c).isLarge = true ∧
      (a.header c).sz = roundToCnkSz (e.2 + sizeofChunk)

/-- The chunks of the stack and those that the threads have in hand. -/
structure FreeChunks (a : Arena) (held : T → Option ℕ) (l : List ℕ) : Prop where
  chain : Chain (fun c => (a.header c).next) a.freeChunks l
  nodup : l.Nodup
  stack : ∀ c ∈ l, c ∈ a.chunks ∧ (a.header c).isLarge = false ∧
    0 < (a.header c).freeRuns
  hand : ∀ t c, held t = some c →
    c ∈ a.chunks ∧ (a.header c).isLarge = false ∧ c ∉ l
  hand_inj : ∀ t u c, held t = some c → held u = some c → t = u

structure ArenaInv (a : Arena) (carved : ℕ → Option Cls) (live : List (ℕ × ℕ))
    (held : T → Option ℕ) (l : List ℕ) : Prop where
  layout : Layout a
  carving : Carving a carved
  allocations : Allocations a live
  freeChunks : FreeChunks a held l

/-! ## Layout -/

theorem Layout.remap {a : Arena} {m : AddressSpace} (h : Layout a)
    (hm : ∀ x, m.Covers x ↔ a.mapped.Covers x) : Layout { a with mapped := m } :=
  { h with
    mapped := fun c hc x hle hlt => (hm x).mpr (h.mapped c hc x hle hlt) }

/-- A new chunk is not one of the old ones. -/
theorem Layout.notMem_of_fresh {a : Arena} {m : AddressSpace} {c sz : ℕ}
    (h : Layout a) (hfresh : Fresh a.mapped m c sz) (hsz : 0 < sz) :
    c ∉ a.chunks := by
  intro hc
  have hpos := h.extent_le c hc
  have hchunk : 0 < chunkSize := by decide
  exact hfresh.not_covers c (Nat.le_refl c) (by omega)
    (h.mapped c hc c (Nat.le_refl c) (by omega))

/-- The arena with a new chunk. -/
def Arena.add (a : Arena) (m : AddressSpace) (c : ℕ) (hd : Header) : Arena :=
  { a with
    mapped := m
    header := Function.update a.header c hd
    chunks := c :: a.chunks }

theorem Layout.add {a : Arena} {m : AddressSpace} {c : ℕ} {hd : Header}
    (h : Layout a)
    (hfresh : Fresh a.mapped m c (if hd.isLarge then hd.sz else chunkSize))
    (hsz : chunkSize ≤ if hd.isLarge then hd.sz else chunkSize)
    (hwf : hd.isLarge = false → hd.Wf) : Layout (a.add m c hd) := by
  have hchunk : 0 < chunkSize := by decide
  have hnew := h.notMem_of_fresh hfresh (by omega)
  have hextent : (a.add m c hd).extent c =
      if hd.isLarge then hd.sz else chunkSize := by
    simp [Arena.extent, Arena.add]
  have hheader : ∀ c' ∈ a.chunks, (a.add m c hd).header c' = a.header c' := by
    intro c' hc'
    exact Function.update_of_ne (ne_of_mem_of_not_mem hc' hnew) _ _
  have hextent' : ∀ c' ∈ a.chunks, (a.add m c hd).extent c' = a.extent c' := by
    intro c' hc'
    simp only [Arena.extent, hheader c' hc']
  -- the old chunks are mapped, so the new one is apart from them
  have hapart : ∀ c' ∈ a.chunks,
      c + (a.add m c hd).extent c ≤ c' ∨ c' + a.extent c' ≤ c := by
    intro c' hc'
    by_contra hover
    have hextent_le := h.extent_le c' hc'
    exact hfresh.not_covers (max c c') (by omega) (by omega)
      (h.mapped c' hc' _ (by omega) (by omega))
  refine ⟨List.nodup_cons.mpr ⟨hnew, h.nodup⟩, ?_, ?_, ?_, ?_, ?_, ?_⟩
  · exact List.forall_mem_cons.mpr ⟨hfresh.pos, h.pos⟩
  · exact List.forall_mem_cons.mpr ⟨hfresh.aligned, h.aligned⟩
  · refine List.forall_mem_cons.mpr ⟨?_, ?_⟩
    · intro x hle hlt
      rw [hextent] at hlt
      exact (hfresh.covers x).mpr (.inr ⟨hle, hlt⟩)
    · intro c' hc' x hle hlt
      rw [hextent' c' hc'] at hlt
      exact (hfresh.covers x).mpr (.inl (h.mapped c' hc' x hle hlt))
  · refine List.forall_mem_cons.mpr
      ⟨List.forall_mem_cons.mpr ⟨fun hne => absurd rfl hne, ?_⟩, ?_⟩
    · intro c' hc' _
      rw [hextent' c' hc']
      exact hapart c' hc'
    · intro c' hc'
      refine List.forall_mem_cons.mpr ⟨?_, ?_⟩
      · intro _
        rw [hextent' c' hc']
        exact (hapart c' hc').symm
      · intro c'' hc'' hne
        rw [hextent' c' hc', hextent' c'' hc'']
        exact h.apart c' hc' c'' hc'' hne
  · refine List.forall_mem_cons.mpr ⟨?_, ?_⟩
    · simpa [Arena.add] using hwf
    · intro c' hc'
      rw [hheader c' hc']
      exact h.small c' hc'
  · refine List.forall_mem_cons.mpr ⟨?_, ?_⟩
    · rwa [hextent]
    · intro c' hc'
      rw [hextent' c' hc']
      exact h.extent_le c' hc'

/-- Another header for a small chunk. -/
theorem Layout.setHeader {a : Arena} {c : ℕ} {hd : Header} (h : Layout a)
    (hsmall : (a.header c).isLarge = false) (hsmall' : hd.isLarge = false)
    (hwf : hd.Wf) : Layout { a with header := Function.update a.header c hd } := by
  have hextent : ∀ c', { a with header := Function.update a.header c hd }.extent c' =
      a.extent c' := by
    intro c'
    by_cases hc : c' = c
    · subst hc
      simp [Arena.extent, hsmall, hsmall']
    · simp [Arena.extent, Function.update_of_ne hc]
  refine ⟨h.nodup, h.pos, h.aligned, ?_, ?_, ?_, ?_⟩
  · intro c' hc' x hle hlt
    rw [hextent] at hlt
    exact h.mapped c' hc' x hle hlt
  · intro c' hc' c'' hc'' hne
    rw [hextent, hextent]
    exact h.apart c' hc' c'' hc'' hne
  · intro c' hc'
    by_cases hc : c' = c
    · subst hc
      simpa using fun _ => hwf
    · simp only [Function.update_of_ne hc]
      exact h.small c' hc'
  · intro c' hc'
    rw [hextent]
    exact h.extent_le c' hc'

/-- A chunk is unmapped. -/
theorem Layout.remove {a : Arena} {c : ℕ} (h : Layout a) (hc : c ∈ a.chunks) :
    Layout { a with
      mapped := a.mapped.munmap c (a.extent c)
      chunks := a.chunks.erase c } := by
  have hmem : ∀ c' ∈ a.chunks.erase c, c' ∈ a.chunks ∧ c' ≠ c := fun c' hc' =>
    ((h.nodup.mem_erase_iff).mp hc').symm
  refine ⟨h.nodup.erase c, ?_, ?_, ?_, ?_, ?_, ?_⟩
  · exact fun c' hc' => h.pos c' (hmem c' hc').1
  · exact fun c' hc' => h.aligned c' (hmem c' hc').1
  · intro c' hc' x hle hlt
    have hlt' : x < c' + a.extent c' := hlt
    have hout := h.apart c' (hmem c' hc').1 c hc (hmem c' hc').2
    exact covers_munmap.mpr ⟨h.mapped c' (hmem c' hc').1 x hle hlt', by omega⟩
  · exact fun c' hc' c'' hc'' => h.apart c' (hmem c' hc').1 c'' (hmem c'' hc'').1
  · exact fun c' hc' => h.small c' (hmem c' hc').1
  · exact fun c' hc' => h.extent_le c' (hmem c' hc').1

/-! ## Blocks -/

/-- A block of a chunk whose runs are the same in another arena. -/
theorem BlockAt.transfer {a a' : Arena} {x c run i : ℕ} {k : Cls}
    (h : BlockAt a x k c run i) (hchunk : c ∈ a'.chunks)
    (hlarge : (a'.header c).isLarge = (a.header c).isLarge)
    (hused : (a'.header c).used = (a.header c).used)
    (hclass : (a'.header c).runClass = (a.header c).runClass) :
    BlockAt a' x k c run i := by
  obtain ⟨-, hsmall, hpos, hlt, hcls, hindex, haddr⟩ := h
  rw [← hlarge] at hsmall
  rw [← hused] at hlt
  rw [← hclass] at hcls
  exact ⟨hchunk, hsmall, hpos, hlt, hcls, hindex, haddr⟩

theorem BlockAt.of_header_eq {a a' : Arena} {x c run i : ℕ} {k : Cls}
    (h : BlockAt a x k c run i) (hchunk : c ∈ a'.chunks)
    (hheader : a'.header c = a.header c) : BlockAt a' x k c run i :=
  h.transfer hchunk (by rw [hheader]) (by rw [hheader]) (by rw [hheader])

/-- What `BlockAt` looks at. -/
theorem Carving.congr {a a' : Arena} {carved : ℕ → Option Cls}
    (h : Carving a carved)
    (ha : ∀ x k c run i, BlockAt a' x k c run i ↔ BlockAt a x k c run i) :
    Carving a' carved := by
  intro x k
  rw [h x k]
  simp only [ha]

/-- A new chunk has no blocks yet. -/
theorem Carving.add {a : Arena} {carved : ℕ → Option Cls} {m : AddressSpace}
    {c : ℕ} {hd : Header} (h : Carving a carved) (hnew : c ∉ a.chunks)
    (hnone : hd.isLarge = true ∨ hd.used = 1) : Carving (a.add m c hd) carved := by
  apply h.congr
  intro x k c' run i
  constructor
  · intro hb
    by_cases hc : c' = c
    · subst hc
      obtain ⟨-, hsmall, hpos, hlt, -⟩ := hb
      simp only [Arena.add, Function.update_self] at hsmall hlt
      rcases hnone with hlarge | hused
      · rw [hlarge] at hsmall
        cases hsmall
      · omega
    · exact hb.of_header_eq ((List.mem_cons.mp hb.chunk).resolve_left hc)
        (Function.update_of_ne hc _ _).symm
  · intro hb
    have hc : c' ≠ c := ne_of_mem_of_not_mem hb.chunk hnew
    exact hb.of_header_eq (List.mem_cons_of_mem _ hb.chunk)
      (Function.update_of_ne hc _ _)

/-- The blocks of a run that is to be claimed are new. -/
theorem Carving.fresh {a : Arena} {carved : ℕ → Option Cls} {c : ℕ}
    (h : Carving a carved) (ha : Layout a) (hc : c ∈ a.chunks)
    (hsmall : (a.header c).isLarge = false) (hfree : 0 < (a.header c).freeRuns)
    (cls : Cls) :
    ∀ x ∈ runBlocks (c + (a.header c).used * runSize) cls, carved x = none := by
  intro x hx
  simp only [runBlocks, List.mem_map, List.mem_range] at hx
  obtain ⟨i, hi, rfl⟩ := hx
  have hwf := ha.small c hc hsmall
  have hused : (a.header c).used < nRuns := by
    have := hwf.lt
    simp only [Header.used]
    omega
  have hoff : i * sizeofClass cls < runSize := by
    have := index_end_le hi
    have := sizeofClass_pos cls
    omega
  obtain ⟨hbase, hrun⟩ := run_of_address (ha.aligned c hc) hused hoff
  cases hcarved :
      carved (c + (a.header c).used * runSize + i * sizeofClass cls) with
  | none => rfl
  | some k =>
      obtain ⟨c', run, j, hblock⟩ := (h _ _).mp hcarved
      have hoff' : j * sizeofClass k < runSize := by
        have := index_end_le hblock.index
        have := sizeofClass_pos k
        omega
      obtain ⟨hbase', hrun'⟩ := run_of_address (ha.aligned c' hblock.chunk)
        hblock.run_lt_nRuns hoff'
      rw [← hblock.address] at hbase' hrun'
      obtain rfl : c = c' := hbase.symm.trans hbase'
      have := hblock.run_lt
      omega

/-- The arena after a run of chunk `c` has been claimed. -/
def Arena.claimed (a : Arena) (c : ℕ) (cls : Cls) : Arena :=
  { a with header := Function.update a.header c ((a.header c).claimed cls) }

/-- The blocks of the other runs are as they were. -/
theorem blockAt_claimed_iff {a : Arena} {x c c' run i : ℕ} {k : Cls}
    (hwf : (a.header c).Wf) (hfree : 0 < (a.header c).freeRuns) (cls : Cls)
    (hne : run ≠ (a.header c).used ∨ c' ≠ c) :
    BlockAt (a.claimed c cls) x k c' run i ↔ BlockAt a x k c' run i := by
  have hused := Header.used_claimed hwf hfree cls
  by_cases hc' : c' = c
  · subst hc'
    have hrun : run ≠ (a.header c').used := hne.resolve_right fun h => h rfl
    constructor
    · rintro ⟨hchunk, hsmall, hpos, hlt, hcls, hindex, haddr⟩
      simp only [Arena.claimed, Function.update_self, hused] at hsmall hlt hcls
      simp only [Header.claimed, Function.update_of_ne hrun] at hsmall hcls
      exact ⟨hchunk, hsmall, hpos, by omega, hcls, hindex, haddr⟩
    · rintro ⟨hchunk, hsmall, hpos, hlt, hcls, hindex, haddr⟩
      refine ⟨hchunk, ?_, hpos, ?_, ?_, hindex, haddr⟩
      · simpa only [Arena.claimed, Function.update_self, Header.claimed]
          using hsmall
      · simp only [Arena.claimed, Function.update_self, hused]
        omega
      · simpa only [Arena.claimed, Function.update_self, Header.claimed,
          Function.update_of_ne hrun] using hcls
  · have hheader : (a.claimed c cls).header c' = a.header c' :=
      Function.update_of_ne hc' _ _
    exact ⟨fun hb => hb.of_header_eq hb.chunk hheader.symm,
      fun hb => hb.of_header_eq hb.chunk hheader⟩

/-- The blocks of the run that has been claimed. -/
theorem blockAt_claimed {a : Arena} {c i : ℕ} (hc : c ∈ a.chunks)
    (hsmall : (a.header c).isLarge = false) (hwf : (a.header c).Wf)
    (hfree : 0 < (a.header c).freeRuns) {cls : Cls}
    (hi : i < runSize / sizeofClass cls) :
    BlockAt (a.claimed c cls)
      (c + (a.header c).used * runSize + i * sizeofClass cls) cls c
      (a.header c).used i := by
  have hused := Header.used_claimed hwf hfree cls
  have hpos : 0 < (a.header c).used := by
    have := hwf.lt
    simp only [Header.used]
    omega
  refine ⟨hc, ?_, hpos, ?_, ?_, hi, rfl⟩
  · simpa only [Arena.claimed, Function.update_self, Header.claimed] using hsmall
  · simp only [Arena.claimed, Function.update_self, hused]
    omega
  · simp [Arena.claimed, Header.claimed]

/-- The blocks after a run has been claimed. -/
theorem Carving.claim {a : Arena} {carved : ℕ → Option Cls} {c : ℕ}
    (h : Carving a carved) (ha : Layout a) (hc : c ∈ a.chunks)
    (hsmall : (a.header c).isLarge = false) (hfree : 0 < (a.header c).freeRuns)
    (cls : Cls) :
    Carving (a.claimed c cls)
      (fun x => if x ∈ runBlocks (c + (a.header c).used * runSize) cls then some cls
        else carved x) := by
  have hwf := ha.small c hc hsmall
  intro x k
  beta_reduce
  by_cases hx : x ∈ runBlocks (c + (a.header c).used * runSize) cls
  · rw [if_pos hx]
    have hnone := h.fresh ha hc hsmall hfree cls x hx
    simp only [runBlocks, List.mem_map, List.mem_range] at hx
    obtain ⟨i, hi, rfl⟩ := hx
    have hnew := blockAt_claimed hc hsmall hwf hfree hi
    constructor
    · intro hk
      cases hk
      exact ⟨c, _, i, hnew⟩
    · rintro ⟨c', run, j, hblock⟩
      by_cases hne : run ≠ (a.header c).used ∨ c' ≠ c
      · have := (h _ k).mpr
          ⟨c', run, j, (blockAt_claimed_iff hwf hfree cls hne).mp hblock⟩
        rw [hnone] at this
        cases this
      · simp only [not_or, not_not] at hne
        obtain ⟨rfl, rfl⟩ := hne
        exact congrArg some (hnew.cls.symm.trans hblock.cls)
  · rw [if_neg hx, h x k]
    refine exists_congr fun c' => exists_congr fun run => exists_congr fun i => ?_
    by_cases hne : run ≠ (a.header c).used ∨ c' ≠ c
    · exact (blockAt_claimed_iff hwf hfree cls hne).symm
    · simp only [not_or, not_not] at hne
      obtain ⟨rfl, rfl⟩ := hne
      constructor
      · intro hblock
        exact absurd hblock.run_lt (Nat.lt_irrefl _)
      · intro hblock
        have hcls : cls = k := by
          simpa [Arena.claimed, Header.claimed] using hblock.cls
        subst hcls
        refine absurd ?_ hx
        simp only [runBlocks, List.mem_map, List.mem_range]
        exact ⟨i, hblock.index, hblock.address.symm⟩

/-! ## Allocations -/

namespace Allocations

variable {a : Arena} {live : List (ℕ × ℕ)} {c : ℕ}

/-- The chunks of the large allocations keep their headers. -/
theorem congr {a' : Arena} (h : Allocations a live)
    (hchunk : ∀ c ∈ a.chunks, (a.header c).isLarge = true →
      c ∈ a'.chunks ∧ a'.header c = a.header c) : Allocations a' live := by
  refine ⟨h.nodup, fun e he hsz => ?_⟩
  obtain ⟨hle, c, hc, heq, hlarge, hcsz⟩ := h.large e he hsz
  obtain ⟨hc', hhd⟩ := hchunk c hc hlarge
  exact ⟨hle, c, hc', heq, by rw [hhd, hlarge], by rw [hhd, hcsz]⟩

/-- An allocation of a size class. -/
theorem cons_small (h : Allocations a live) {x sz : ℕ} (hsz : sz ≤ maxClassSize)
    (hnew : x ∉ live.map Prod.fst) : Allocations a ((x, sz) :: live) := by
  refine ⟨List.nodup_cons.mpr ⟨hnew, h.nodup⟩, List.forall_mem_cons.mpr ⟨?_, ?_⟩⟩
  · intro hlt
    exact absurd hsz (Nat.not_le_of_lt hlt)
  · exact h.large

theorem sublist {live' : List (ℕ × ℕ)} (h : Allocations a live)
    (hsub : live'.Sublist live) : Allocations a live' :=
  ⟨h.nodup.sublist (hsub.map _), fun e he => h.large e (hsub.subset he)⟩

end Allocations

/-! ## The stack of chunks -/

namespace FreeChunks

variable [DecidableEq T] {a : Arena} {held : T → Option ℕ} {l : List ℕ} {t : T}
  {c : ℕ}

/-- A chunk that is not on the stack is taken in hand. -/
theorem take (h : FreeChunks a (Function.update held t none) l)
    (hc : c ∈ a.chunks) (hsmall : (a.header c).isLarge = false) (hout : c ∉ l)
    (hfree : ∀ u, u ≠ t → held u ≠ some c) :
    FreeChunks a (Function.update held t (some c)) l := by
  have hother : ∀ {u c'}, u ≠ t → Function.update held t (some c) u = some c' →
      Function.update held t none u = some c' := by
    intro u c' hu hheld
    rwa [Function.update_of_ne hu] at hheld ⊢
  have hself : ∀ {u c'}, u = t → Function.update held t (some c) u = some c' →
      c' = c := by
    rintro u c' rfl hheld
    rw [Function.update_self] at hheld
    exact (Option.some.inj hheld).symm
  refine ⟨h.chain, h.nodup, h.stack, ?_, ?_⟩
  · intro u c' hheld
    by_cases hu : u = t
    · rw [hself hu hheld]
      exact ⟨hc, hsmall, hout⟩
    · exact h.hand u c' (hother hu hheld)
  · intro u u' c' hheld hheld'
    by_cases hu : u = t <;> by_cases hu' : u' = t
    · rw [hu, hu']
    · rw [hself hu hheld, Function.update_of_ne hu'] at hheld'
      exact absurd hheld' (hfree u' hu')
    · rw [hself hu' hheld', Function.update_of_ne hu] at hheld
      exact absurd hheld (hfree u hu)
    · exact h.hand_inj u u' c' (hother hu hheld) (hother hu' hheld')

/-- A chunk with no run left is let go. -/
theorem drop (h : FreeChunks a (Function.update held t (some c)) l) :
    FreeChunks a (Function.update held t none) l := by
  have hother : ∀ {u c'}, Function.update held t none u = some c' →
      Function.update held t (some c) u = some c' := by
    intro u c' hheld
    have hu : u ≠ t := by
      rintro rfl
      rw [Function.update_self] at hheld
      cases hheld
    rwa [Function.update_of_ne hu] at hheld ⊢
  exact ⟨h.chain, h.nodup, h.stack, fun u c' hc' => h.hand u c' (hother hc'),
    fun u u' c' hc hc' => h.hand_inj u u' c' (hother hc) (hother hc')⟩

omit [DecidableEq T] in
/-- The headers of the chunks that are on the stack or in hand are those of
before. -/
theorem congr {a' : Arena} (h : FreeChunks a held l)
    (htop : a'.freeChunks = a.freeChunks)
    (hchunk : ∀ c, c ∈ a.chunks → (a.header c).isLarge = false →
      c ∈ a'.chunks ∧ (a'.header c).isLarge = false ∧
        (c ∈ l → a'.header c = a.header c)) : FreeChunks a' held l := by
  refine ⟨?_, h.nodup, ?_, ?_, h.hand_inj⟩
  · rw [htop]
    apply h.chain.congr
    intro c hc
    obtain ⟨hmem, hsmall, -⟩ := h.stack c hc
    rw [(hchunk c hmem hsmall).2.2 hc]
  · intro c hc
    obtain ⟨hmem, hsmall, hfree⟩ := h.stack c hc
    obtain ⟨hmem', hsmall', hhd⟩ := hchunk c hmem hsmall
    exact ⟨hmem', hsmall', by rwa [hhd hc]⟩
  · intro t c hc
    obtain ⟨hmem, hsmall, hout⟩ := h.hand t c hc
    obtain ⟨hmem', hsmall', -⟩ := hchunk c hmem hsmall
    exact ⟨hmem', hsmall', hout⟩

/-- The top of the stack is taken in hand. -/
theorem pop (h : FreeChunks a (Function.update held t none) (c :: l)) :
    FreeChunks { a with freeChunks := (a.header c).next }
      (Function.update held t (some c)) l := by
  have hnodup := List.nodup_cons.mp h.nodup
  obtain ⟨hmem, hsmall, -⟩ := h.stack c (by simp)
  have htail : FreeChunks { a with freeChunks := (a.header c).next }
      (Function.update held t none) l := by
    refine ⟨h.chain.2, hnodup.2, fun c' hc' => h.stack c' (by simp [hc']), ?_,
      h.hand_inj⟩
    intro u c' hc'
    obtain ⟨hmem', hsmall', hout⟩ := h.hand u c' hc'
    exact ⟨hmem', hsmall', fun hin => hout (by simp [hin])⟩
  refine htail.take hmem hsmall hnodup.1 ?_
  intro u hu hc
  refine (h.hand u c ?_).2.2 (by simp)
  rwa [Function.update_of_ne hu]

/-- A chunk is put on the stack. -/
theorem push (h : FreeChunks a (Function.update held t (some c)) l)
    (hfree : 0 < (a.header c).freeRuns) :
    FreeChunks
      { a with
        header := Function.update a.header c
          { a.header c with next := a.freeChunks }
        freeChunks := some c }
      (Function.update held t none) (c :: l) := by
  obtain ⟨hmem, hsmall, hout⟩ := h.hand t c (Function.update_self ..)
  refine ⟨⟨rfl, ?_⟩, List.nodup_cons.mpr ⟨hout, h.nodup⟩, ?_, ?_, h.drop.hand_inj⟩
  · simp only [Function.update_self]
    apply h.chain.congr
    intro c' hc'
    rw [Function.update_of_ne (ne_of_mem_of_not_mem hc' hout)]
  · refine List.forall_mem_cons.mpr ⟨?_, ?_⟩
    · simpa using ⟨hmem, hsmall, hfree⟩
    · intro c' hc'
      simp only [Function.update_of_ne (ne_of_mem_of_not_mem hc' hout)]
      exact h.stack c' hc'
  · intro u c' hc'
    have hu : u ≠ t := by
      rintro rfl
      rw [Function.update_self] at hc'
      cases hc'
    rw [Function.update_of_ne hu] at hc'
    have hne : c' ≠ c := by
      rintro rfl
      refine hu (h.hand_inj u t c' ?_ (Function.update_self ..))
      rwa [Function.update_of_ne hu]
    have hhand := h.hand u c' (by rwa [Function.update_of_ne hu])
    simp only [Function.update_of_ne hne]
    exact ⟨hhand.1, hhand.2.1, by simp [hne, hhand.2.2]⟩

end FreeChunks

/-! ## The whole arena -/

namespace ArenaInv

variable {a : Arena} {carved : ℕ → Option Cls} {live : List (ℕ × ℕ)}
  {held : T → Option ℕ} {l : List ℕ} {c : ℕ}

theorem remap {m : AddressSpace} (h : ArenaInv a carved live held l)
    (hm : ∀ x, m.Covers x ↔ a.mapped.Covers x) :
    ArenaInv { a with mapped := m } carved live held l where
  layout := h.layout.remap hm
  carving := h.carving.congr fun _ _ _ _ _ =>
    ⟨fun hb => { hb with }, fun hb => { hb with }⟩
  allocations := h.allocations.congr fun _ hc _ => ⟨hc, rfl⟩
  freeChunks := h.freeChunks.congr rfl fun _ hc hs => ⟨hc, hs, fun _ => rfl⟩

theorem setLive {live' : List (ℕ × ℕ)} (h : ArenaInv a carved live held l)
    (hlive : Allocations a live') : ArenaInv a carved live' held l :=
  { h with allocations := hlive }

/-- A chunk is mapped that no thread knows of yet. -/
theorem add {m : AddressSpace} {hd : Header} (h : ArenaInv a carved live held l)
    (hfresh : Fresh a.mapped m c (if hd.isLarge then hd.sz else chunkSize))
    (hsz : chunkSize ≤ if hd.isLarge then hd.sz else chunkSize)
    (hwf : hd.isLarge = false → hd.Wf) (hnone : hd.isLarge = true ∨ hd.used = 1) :
    ArenaInv (a.add m c hd) carved live held l := by
  have hpos : 0 < chunkSize := by decide
  have hnew := h.layout.notMem_of_fresh hfresh (by omega)
  have hheader : ∀ c' ∈ a.chunks, (a.add m c hd).header c' = a.header c' := by
    intro c' hc'
    exact Function.update_of_ne (ne_of_mem_of_not_mem hc' hnew) _ _
  refine ⟨h.layout.add hfresh hsz hwf, h.carving.add hnew hnone, ?_, ?_⟩
  · apply h.allocations.congr
    intro c' hc' _
    exact ⟨List.mem_cons_of_mem _ hc', hheader c' hc'⟩
  · refine h.freeChunks.congr (by rfl) ?_
    intro c' hc' hsmall
    refine ⟨List.mem_cons_of_mem _ hc', ?_, fun _ => hheader c' hc'⟩
    rw [hheader c' hc', hsmall]

/-- A large allocation.  Its address is not one of those that are live. -/
theorem addLarge {m : AddressSpace} {sz : ℕ} (h : ArenaInv a carved live held l)
    (hlive : ∀ e ∈ live, e.2 ≤ maxClassSize → ∃ k, carved e.1 = some k)
    (hlt : maxClassSize < sz) (hle : sz ≤ 2 ^ 40)
    (hfresh : Fresh a.mapped m c (roundToCnkSz (sz + sizeofChunk))) :
    ArenaInv
      (a.add m c { isLarge := true, sz := roundToCnkSz (sz + sizeofChunk) })
      carved ((c + sizeofChunk, sz) :: live) held l := by
  have hheader : sizeofChunk = 64 := rfl
  have hround := @roundToCnkSz_spec (sz + sizeofChunk) (by omega)
  have hpos : 0 < roundToCnkSz (sz + sizeofChunk) := by omega
  have hadd : ArenaInv
      (a.add m c { isLarge := true, sz := roundToCnkSz (sz + sizeofChunk) })
      carved live held l :=
    h.add hfresh (Nat.le_of_dvd hpos hround.2) (fun hd => by cases hd) (.inl rfl)
  have hnew := h.layout.notMem_of_fresh hfresh hpos
  refine hadd.setLive ⟨List.nodup_cons.mpr ⟨?_, h.allocations.nodup⟩,
    List.forall_mem_cons.mpr ⟨?_, hadd.allocations.large⟩⟩
  · intro hmem
    obtain ⟨e, he, heq⟩ := List.mem_map.mp hmem
    by_cases hsz : e.2 ≤ maxClassSize
    · obtain ⟨k, hk⟩ := hlive e he hsz
      obtain ⟨c', run, i, hblock⟩ := (h.carving e.1 k).mp hk
      have hstart := hblock.header_le
      have hend := hblock.end_le
      have hsize := sizeofClass_pos k
      have hextent := hblock.extent_eq
      exact hfresh.not_covers e.1 (by omega) (by omega)
        (h.layout.mapped c' hblock.chunk e.1 (by omega) (by omega))
    · obtain ⟨-, c', hc', heq', -⟩ := h.allocations.large e he (by omega)
      have hcc : c' = c := by omega
      exact hnew (hcc ▸ hc')
  · intro _
    refine ⟨hle, c, List.mem_cons_self .., rfl, ?_, ?_⟩ <;> simp [Arena.add]

/-- A large allocation is unmapped. -/
theorem removeLarge {sz : ℕ} (h : ArenaInv a carved live held l)
    (hmem : (c + sizeofChunk, sz) ∈ live) (hc : c ∈ a.chunks)
    (hlarge : (a.header c).isLarge = true) :
    ArenaInv
      { a with
        mapped := a.mapped.munmap c (a.header c).sz
        chunks := a.chunks.erase c }
      carved (live.eraseP (·.1 = c + sizeofChunk)) held l := by
  have hextent : a.extent c = (a.header c).sz := by simp [Arena.extent, hlarge]
  have hsmall : ∀ c' ∈ a.chunks, (a.header c').isLarge = false →
      c' ∈ a.chunks.erase c := by
    intro c' hc' hs
    refine (h.layout.nodup.mem_erase_iff).mpr ⟨?_, hc'⟩
    rintro rfl
    rw [hlarge] at hs
    cases hs
  have hgone : c + sizeofChunk ∉
      (live.eraseP (·.1 = c + sizeofChunk)).map Prod.fst := by
    have hperm := (live_perm h.allocations.nodup hmem).map Prod.fst
    exact (List.nodup_cons.mp (hperm.nodup_iff.mp h.allocations.nodup)).1
  have hsub : (live.eraseP (·.1 = c + sizeofChunk)).Sublist live :=
    List.eraseP_sublist
  refine ⟨?_, ?_, ⟨h.allocations.nodup.sublist (hsub.map _), ?_⟩, ?_⟩
  · rw [← hextent]
    exact h.layout.remove hc
  · apply h.carving.congr
    intro x k c' run i
    constructor
    · intro hb
      exact { hb with chunk := List.mem_of_mem_erase hb.chunk }
    · intro hb
      exact { hb with chunk := hsmall c' hb.chunk hb.small }
  · intro e he hsz
    obtain ⟨hle, c', hc', heq, hlarge', hcsz⟩ :=
      h.allocations.large e (hsub.subset he) hsz
    refine ⟨hle, c', (h.layout.nodup.mem_erase_iff).mpr ⟨?_, hc'⟩, heq, hlarge',
      hcsz⟩
    rintro rfl
    have hfst := List.mem_map_of_mem (f := Prod.fst) he
    rw [heq] at hfst
    exact hgone hfst
  · refine h.freeChunks.congr (by rfl) ?_
    intro c' hc' hs
    exact ⟨hsmall c' hc' hs, hs, fun _ => rfl⟩

variable [DecidableEq T] {t : T}

theorem addSmall {m : AddressSpace}
    (h : ArenaInv a carved live (Function.update held t none) l)
    (hfresh : Fresh a.mapped m c chunkSize) :
    ArenaInv (a.add m c {}) carved live (Function.update held t (some c)) l := by
  have hpos : 0 < chunkSize := by decide
  have hnew := h.layout.notMem_of_fresh hfresh hpos
  have hadd : ArenaInv (a.add m c {}) carved live (Function.update held t none) l :=
    h.add hfresh (Nat.le_refl _) (fun _ => Header.wf_new) (.inr (by decide))
  refine { hadd with freeChunks := hadd.freeChunks.take ?_ ?_ ?_ ?_ }
  · exact List.mem_cons_self ..
  · simp [Arena.add]
  · exact fun hc => hnew (h.freeChunks.stack c hc).1
  · intro u hu hc
    refine hnew (h.freeChunks.hand u c ?_).1
    rwa [Function.update_of_ne hu]

theorem pop (h : ArenaInv a carved live (Function.update held t none) (c :: l)) :
    ArenaInv { a with freeChunks := (a.header c).next } carved live
      (Function.update held t (some c)) l where
  layout := { h.layout with }
  carving := h.carving.congr fun _ _ _ _ _ =>
    ⟨fun hb => { hb with }, fun hb => { hb with }⟩
  allocations := h.allocations.congr fun _ hc _ => ⟨hc, rfl⟩
  freeChunks := h.freeChunks.pop

theorem drop (h : ArenaInv a carved live (Function.update held t (some c)) l) :
    ArenaInv a carved live (Function.update held t none) l :=
  { h with freeChunks := h.freeChunks.drop }

theorem push (h : ArenaInv a carved live (Function.update held t (some c)) l)
    (hfree : 0 < (a.header c).freeRuns) :
    ArenaInv
      { a with
        header := Function.update a.header c
          { a.header c with next := a.freeChunks }
        freeChunks := some c }
      carved live (Function.update held t none) (c :: l) := by
  obtain ⟨hmem, hsmall, -⟩ := h.freeChunks.hand t c (Function.update_self ..)
  have hwf := h.layout.small c hmem hsmall
  have hlayout : Layout
      { a with
        header := Function.update a.header c
          { a.header c with next := a.freeChunks } } :=
    h.layout.setHeader hsmall hsmall ⟨hwf.lt, hwf.bmap⟩
  refine ⟨{ hlayout with }, ?_, ?_, h.freeChunks.push hfree⟩
  · apply h.carving.congr
    intro x k c' run i
    by_cases hc : c' = c
    · subst hc
      constructor
      · intro hb
        exact hb.transfer hb.chunk (by simp) (by simp [Header.used]) (by simp)
      · intro hb
        exact hb.transfer hb.chunk (by simp) (by simp [Header.used]) (by simp)
    · have hheader := Function.update_of_ne hc
        { a.header c with next := a.freeChunks } a.header
      exact ⟨fun hb => hb.of_header_eq hb.chunk hheader.symm,
        fun hb => hb.of_header_eq hb.chunk hheader⟩
  · apply h.allocations.congr
    intro c' hc' hlarge
    have hne : c' ≠ c := by
      rintro rfl
      rw [hsmall] at hlarge
      cases hlarge
    exact ⟨hc', Function.update_of_ne hne _ _⟩

/-- The thread that has a chunk in hand claims a run. -/
theorem claim (h : ArenaInv a carved live (Function.update held t (some c)) l)
    (hfree : 0 < (a.header c).freeRuns) (cls : Cls) :
    ArenaInv
      { a with header := Function.update a.header c ((a.header c).claimed cls) }
      (fun x => if x ∈ runBlocks (c + (a.header c).used * runSize) cls then some cls
        else carved x)
      live (Function.update held t (some c)) l := by
  obtain ⟨hmem, hsmall, hout⟩ := h.freeChunks.hand t c (Function.update_self ..)
  have hwf := h.layout.small c hmem hsmall
  refine ⟨h.layout.setHeader hsmall hsmall (hwf.claimed hfree cls),
    h.carving.claim h.layout hmem hsmall hfree cls, ?_, ?_⟩
  · apply h.allocations.congr
    intro c' hc' hlarge
    have hne : c' ≠ c := by
      rintro rfl
      rw [hsmall] at hlarge
      cases hlarge
    exact ⟨hc', Function.update_of_ne hne _ _⟩
  · refine h.freeChunks.congr (by rfl) ?_
    intro c' hc' hsmall'
    by_cases hc : c' = c
    · subst hc
      refine ⟨hc', ?_, fun hin => absurd hin hout⟩
      simpa [Header.claimed] using hsmall
    · simp only [Function.update_of_ne hc]
      exact ⟨hc', hsmall', fun _ => trivial⟩

end ArenaInv

end Fastbook.BufferPool

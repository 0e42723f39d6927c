import Fastbook.Common.BufferPoolStep

/-!
# No two allocations overlap

What the invariant says to a client: where the live allocations lie, what `free`
finds for them, and where every block is.
-/

namespace Fastbook.BufferPool

open Support

/-- The bytes of the block that an allocation of `sz` bytes starts. -/
def blockSize (sz : ℕ) : ℕ :=
  if sz ≤ maxClassSize then sizeofClass (classOf sz)
  else roundToCnkSz (sz + sizeofChunk) - sizeofChunk

variable {T : Type*}

namespace Pool

/-- The blocks of class `c` at a place. -/
def BlocksAt (s : Pool T) (c : Cls) (w : Where T) (l : List ℕ) : Prop :=
  s.Holds (fun u => (s.pc u).held) c w l

/-- A block is in exactly one place, and there once. -/
def OnePlace (s : Pool T) (x : ℕ) (c : Cls) (w : Where T) : Prop :=
  (∃ l, s.BlocksAt c w l ∧ l.count x = 1) ∧
    ∀ c' w' l, s.BlocksAt c' w' l → x ∈ l → c' = c ∧ w' = w

structure Sound (s : Pool T) : Prop where
  /-- An allocation starts a block of its size, all of it mapped. -/
  size : ∀ e ∈ s.live, 0 < e.1 ∧ e.2 ≤ blockSize e.2 ∧
    ∀ x, e.1 ≤ x → x < e.1 + blockSize e.2 → s.mapped.Covers x
  apart : s.live.Pairwise fun e e' =>
    e.1 + blockSize e.2 ≤ e'.1 ∨ e'.1 + blockSize e'.2 ≤ e.1
  headers : ∀ e ∈ s.live, ∀ c ∈ s.chunks,
    c + sizeofChunk ≤ e.1 ∨ e.1 + blockSize e.2 ≤ c
  aligned : ∀ e ∈ s.live, e.2 ≤ maxClassSize → sizeofClass (classOf e.2) ∣ e.1
  /-- What `free` reads: the class a block was carved for, and the class it was
  asked for; or the size of a large mapping. -/
  found_small : ∀ e ∈ s.live, e.2 ≤ maxClassSize →
    (s.header (baseClsFromPtr s.header e.1).1).isLarge = false ∧
      s.carved e.1 = some (baseClsFromPtr s.header e.1).2 ∧
      ((baseClsFromPtr s.header e.1).2 : ℕ) = classOf e.2
  found_large : ∀ e ∈ s.live, maxClassSize < e.2 →
    (s.header (baseClsFromPtr s.header e.1).1).isLarge = true ∧
      (s.header (baseClsFromPtr s.header e.1).1).sz =
        roundToCnkSz (e.2 + sizeofChunk)
  /-- A block is live, in a magazine or on a global stack, or on the chain of a
  call that has yet to push back its excess. -/
  place : ∀ x c, s.carved x = some c → ∃ w, s.OnePlace x c w ∧
    ∀ t, w = .hand t → s.pc t ≠ .idle
  /-- The chunks of the stack are there once, each with a run to claim. -/
  stack : ∃ l, Chain (fun c => (s.header c).next) s.freeChunks l ∧ l.Nodup ∧
    ∀ c ∈ l, (∃ run < nRuns, (s.header c).bmap.testBit run = false) ∧
      ∀ cls, (s.header c).claimRun c cls ≠ none
  claim : ∀ t caller cnk, s.pc t = .refillClaim caller cnk →
    (s.header cnk).claimRun cnk caller.cls ≠ none
  no_fault : ∀ t, s.pc t ≠ .fault

variable {s : Pool T} {loc : Cls × Where T → List ℕ} {l : List ℕ}
  {hands : T → Cls → Option ℕ} {held : T → Option ℕ} {e e' : ℕ × ℕ}

/-- Where an allocation lies: in a chunk, after the header. -/
theorem live_extent (howned : s.Owned hands loc)
    (harena : ArenaInv s.toArena s.carved s.live held l) (he : e ∈ s.live) :
    e.2 ≤ blockSize e.2 ∧ baseOf e.1 ∈ s.chunks ∧
      baseOf e.1 + sizeofChunk ≤ e.1 ∧
      e.1 + blockSize e.2 ≤ baseOf e.1 + s.extent (baseOf e.1) := by
  by_cases hsz : e.2 ≤ maxClassSize
  · obtain ⟨c, run, i, hblock, hbase⟩ := baseCls_of_small howned harena he hsz
    have hc : baseOf e.1 = c := congrArg Prod.fst hbase
    have hstart := hblock.header_le
    have hend := hblock.end_le
    have hsizes : sizeofChunk ≤ runSize := by decide
    have hle := le_sizeofClass hsz
    rw [clsOf_val hsz] at hend hle
    simp only [blockSize, if_pos hsz, hc, hblock.extent_eq]
    exact ⟨hle, hblock.chunk, by omega, hend⟩
  · obtain ⟨hle, -⟩ := harena.allocations.large e he (Nat.lt_of_not_le hsz)
    obtain ⟨hc, heq, hlarge, hcsz⟩ :=
      base_of_large harena he (Nat.lt_of_not_le hsz)
    have hheader : sizeofChunk = 64 := rfl
    have hround := (@roundToCnkSz_spec (e.2 + sizeofChunk) (by omega)).1
    have hextent : s.extent (baseOf e.1) = roundToCnkSz (e.2 + sizeofChunk) := by
      simp [Arena.extent, hlarge, hcsz]
    simp only [blockSize, if_neg hsz, hextent]
    exact ⟨by omega, hc, by omega, by omega⟩

/-- Two allocations in one chunk are both of a size class. -/
theorem small_of_baseOf_eq (howned : s.Owned hands loc)
    (harena : ArenaInv s.toArena s.carved s.live held l) (he : e ∈ s.live)
    (he' : e' ∈ s.live) (hne : e.1 ≠ e'.1) (hbase : baseOf e.1 = baseOf e'.1) :
    e.2 ≤ maxClassSize := by
  by_contra hsz
  obtain ⟨-, heq, hlarge, -⟩ := base_of_large harena he (Nat.lt_of_not_le hsz)
  by_cases hsz' : e'.2 ≤ maxClassSize
  · obtain ⟨c, run, i, hblock, hbase'⟩ := baseCls_of_small howned harena he' hsz'
    have hc : baseOf e'.1 = c := congrArg Prod.fst hbase'
    rw [hbase, hc, hblock.small] at hlarge
    cases hlarge
  · obtain ⟨-, heq', -⟩ := base_of_large harena he' (Nat.lt_of_not_le hsz')
    rw [hbase] at heq
    exact hne (heq.trans heq'.symm)

theorem live_apart (howned : s.Owned hands loc)
    (harena : ArenaInv s.toArena s.carved s.live held l) (he : e ∈ s.live)
    (he' : e' ∈ s.live) (hne : e.1 ≠ e'.1) :
    e.1 + blockSize e.2 ≤ e'.1 ∨ e'.1 + blockSize e'.2 ≤ e.1 := by
  by_cases hbase : baseOf e.1 = baseOf e'.1
  · have hsz := small_of_baseOf_eq howned harena he he' hne hbase
    have hsz' := small_of_baseOf_eq howned harena he' he hne.symm hbase.symm
    obtain ⟨c, run, i, hblock, -⟩ := baseCls_of_small howned harena he hsz
    obtain ⟨c', run', i', hblock', -⟩ := baseCls_of_small howned harena he' hsz'
    simp only [blockSize, if_pos hsz, if_pos hsz']
    rw [← clsOf_val hsz, ← clsOf_val hsz']
    exact hblock.apart hblock' harena.layout hne
  · obtain ⟨-, hc, hstart, hend⟩ := live_extent howned harena he
    obtain ⟨-, hc', hstart', hend'⟩ := live_extent howned harena he'
    rcases harena.layout.apart _ hc _ hc' hbase with hle | hle <;> omega

/-- No allocation reaches into the header of a chunk. -/
theorem live_header (howned : s.Owned hands loc)
    (harena : ArenaInv s.toArena s.carved s.live held l) (he : e ∈ s.live)
    {c : ℕ} (hc : c ∈ s.chunks) :
    c + sizeofChunk ≤ e.1 ∨ e.1 + blockSize e.2 ≤ c := by
  obtain ⟨-, hbase, hstart, hend⟩ := live_extent howned harena he
  by_cases hne : c = baseOf e.1
  · left
    rwa [hne]
  · have hextent := harena.layout.extent_le c hc
    have hsizes : sizeofChunk ≤ chunkSize := by decide
    rcases harena.layout.apart c hc _ hbase hne with hle | hle <;> omega

/-- A chunk with a free run. -/
theorem claimRun_ne_none {h : Header} (hwf : h.Wf) (hfree : 0 < h.freeRuns)
    (this : ℕ) (cls : Cls) : h.claimRun this cls ≠ none := by
  rw [Header.claimRun_eq hwf hfree]
  exact Option.some_ne_none _

theorem exists_unclaimed {h : Header} (hwf : h.Wf) (hfree : 0 < h.freeRuns) :
    ∃ run < nRuns, h.bmap.testBit run = false := by
  refine ⟨h.used, ?_, ?_⟩
  · have := hwf.lt
    simp only [Header.used]
    omega
  · rw [hwf.bmap, Nat.testBit_two_pow_sub_one]
    exact decide_eq_false (Nat.lt_irrefl _)

theorem Inv.onePlace (h : s.Inv) {x : ℕ} {c : Cls} (hx : s.carved x = some c) :
    ∃ w, s.OnePlace x c w ∧ ∀ t, w = .hand t → s.pc t ≠ .idle := by
  obtain ⟨loc, l, howned, -, -⟩ := h
  obtain ⟨w, hw⟩ := (howned.carved x c).mp hx
  refine ⟨w, ⟨⟨loc (c, w), howned.holds c w, howned.exclusive.count_eq_one hw⟩, ?_⟩,
    ?_⟩
  · intro c' w' l' hl' hx'
    rw [hl'.unique (howned.holds c' w')] at hx'
    exact Prod.ext_iff.mp (howned.exclusive.eq_of_mem hx' hw)
  · rintro t rfl hidle
    have hchain := howned.holds c (.hand t)
    simp only [Blocks.Holds, hidle, Pc.held, chain_none] at hchain
    rw [hchain] at hw
    cases hw

theorem Inv.sound (h : s.Inv) : s.Sound := by
  have hplace := fun x c => h.onePlace (x := x) (c := c)
  obtain ⟨loc, l, howned, harena, hok⟩ := h
  refine ⟨?_, ?_, ?_, ?_, ?_, ?_, hplace, ?_, ?_, ?_⟩
  · intro e he
    obtain ⟨hsize, hc, hstart, hend⟩ := live_extent howned harena he
    have hpos := harena.layout.pos _ hc
    refine ⟨by omega, hsize, ?_⟩
    intro x hle hlt
    exact harena.layout.mapped _ hc x (by omega) (by omega)
  · have hnodup : s.live.Pairwise fun e e' => e.1 ≠ e'.1 :=
      List.pairwise_map.mp harena.allocations.nodup
    exact hnodup.imp_of_mem fun he he' => live_apart howned harena he he'
  · intro e he c hc
    exact live_header howned harena he hc
  · intro e he hsz
    obtain ⟨c, run, i, hblock, -⟩ := baseCls_of_small howned harena he hsz
    rw [← clsOf_val hsz]
    exact hblock.aligned (harena.layout.aligned c hblock.chunk)
  · intro e he hsz
    obtain ⟨c, run, i, hblock, hbase⟩ := baseCls_of_small howned harena he hsz
    rw [hbase]
    exact ⟨hblock.small, (carved_of_live howned he hsz).2, clsOf_val hsz⟩
  · intro e he hsz
    exact (base_of_large harena he hsz).2.2
  · refine ⟨l, harena.freeChunks.chain, harena.freeChunks.nodup, ?_⟩
    intro c hc
    obtain ⟨hmem, hsmall, hfree⟩ := harena.freeChunks.stack c hc
    have hwf := harena.layout.small c hmem hsmall
    exact ⟨exists_unclaimed hwf hfree, claimRun_ne_none hwf hfree c⟩
  · intro t caller cnk hpc
    obtain ⟨hmem, hsmall, -⟩ := harena.freeChunks.hand t cnk (by rw [hpc]; rfl)
    have hwf := harena.layout.small cnk hmem hsmall
    have hready := hok t
    rw [hpc] at hready
    exact claimRun_ne_none hwf hready.2 cnk caller.cls
  · intro t hpc
    have hfault := hok t
    rw [hpc] at hfault
    exact hfault

end Pool

/-- In every state that the threads can reach, no two live allocations overlap
and every block is in one place. -/
theorem reachable_sound [DecidableEq T] {s : Pool T} (h : (system T).Reachable s) :
    s.Sound :=
  (reachable_inv h).sound

/-- Two threads allocate eight kilobytes each.  The second finds the chunk that the
first has mapped, which has given it back after its own run. -/
def twoThreads : List (Action Bool) :=
  [.alloc true 8192, .alloc false 8192, .step true {}, .step true {}, .step false {},
    .step true { huge := some (2 * chunkSize) }, .step true {}, .step true {},
    .step false {}, .step false {}, .step false {}]

/-- Each of them has the last of the eight blocks of its run. -/
theorem reachable_sound_twoThreads :
    ∃ s, (system Bool).run {} twoThreads = some s ∧
      s.live = [(2 * chunkSize + 2 * runSize + 7 * 8192, 8192),
        (2 * chunkSize + runSize + 7 * 8192, 8192)] ∧ s.Sound := by
  obtain ⟨s, hrun, hlive⟩ : ∃ s, (system Bool).run {} twoThreads = some s ∧
      s.live = [(2 * chunkSize + 2 * runSize + 7 * 8192, 8192),
        (2 * chunkSize + runSize + 7 * 8192, 8192)] :=
    ⟨_, rfl, rfl⟩
  have hreach := TransitionSystem.Reachable.start.run hrun
  exact ⟨s, hrun, hlive, reachable_sound hreach⟩

/-! ## Between two operations -/

/-- While a call looks for the tail of its excess, the excess is in its hand. -/
theorem Pool.Inv.spill_onePlace {s : Pool T} {t : T} {c : Cls} {head rtail : ℕ}
    {after : Resume} (h : s.Inv) (hpc : s.pc t = .spill c head rtail after) :
    s.carved rtail = some c ∧ ∀ c' w, s.OnePlace rtail c' w → w = .hand t := by
  obtain ⟨loc, l, howned, -, hok⟩ := h
  have hmem := hok t
  rw [hpc] at hmem
  refine ⟨howned.carved_of_mem hmem.1, fun c' w hplace => ?_⟩
  exact (hplace.2 c (.hand t) _ (howned.holds c (.hand t)) hmem.1).2.symm

/-- A run with more blocks than a magazine holds leaves an excess. -/
theorem Pool.refillClaim_spills [DecidableEq T] {s : Pool T} {t : T}
    {caller : Caller} {cnk : ℕ} (hwf : (s.header cnk).Wf)
    (hfree : 0 < (s.header cnk).freeRuns)
    (hblocks : cacheSize < runSize / sizeofClass caller.cls) :
    ∃ x, (s.refillClaim t caller cnk).pc t =
      .spill caller.cls x x (.refill caller cnk) := by
  have hchain := @chain_link ℕ s.next _ _
    (runBlocks_nodup (cnk + (s.header cnk).used * runSize) caller.cls)
  rw [← carveRunInBlocks_eq, runBlocks_head?] at hchain
  unfold Pool.refillClaim
  simp only [Header.claimRun_eq hwf hfree, Pool.refillFromChain, Pool.takeChain,
    fill_eq hchain]
  split
  · next hnone =>
      rw [List.head?_eq_none_iff, List.drop_eq_nil_iff, runBlocks, List.length_map,
        List.length_range] at hnone
      omega
  · next x _ => exact ⟨x, by simp [Pool.setPc]⟩

/-- A first allocation, up to the claim of a run. -/
def firstAlloc (sz : ℕ) : List (Action Unit) :=
  [.alloc () sz, .step () {}, .step () {},
    .step () { huge := some (2 * chunkSize) }]

/-- The first allocation of 16 bytes carves 4096 blocks.  Of these 3072 are
neither live nor in the magazine nor on the global stack before they are pushed
there. -/
theorem excess_in_hand :
    ¬ ∀ s : Pool Unit, (system Unit).Reachable s →
      ∀ x c, s.carved x = some c → ∃ w, s.OnePlace x c w ∧ ∀ t, w ≠ .hand t := by
  intro h
  obtain ⟨s, hrun, hpc, hheader⟩ : ∃ s, (system Unit).run {} (firstAlloc 16) =
      some s ∧ s.pc () = .refillClaim (.alloc 16) (2 * chunkSize) ∧
      s.header (2 * chunkSize) = {} :=
    ⟨_, rfl, rfl, rfl⟩
  have hreach := TransitionSystem.Reachable.start.run hrun
  have hstep : (system Unit).step s (.step () {}) =
      some (s.refillClaim () (.alloc 16) (2 * chunkSize)) := by
    simp only [system, Pool.act, Pool.stepThread, hpc]
  have hwf : (s.header (2 * chunkSize)).Wf := by
    rw [hheader]
    exact Header.wf_new
  have hfree : 0 < (s.header (2 * chunkSize)).freeRuns := by
    rw [hheader]
    decide
  have hblocks : cacheSize < runSize / sizeofClass (Caller.alloc 16).cls := by
    decide
  obtain ⟨x, hx⟩ := Pool.refillClaim_spills (t := ()) hwf hfree hblocks
  have hreach' := hreach.step hstep
  obtain ⟨hcarved, hhand⟩ := (reachable_inv hreach').spill_onePlace hx
  obtain ⟨w, hplace, hw⟩ := h _ hreach' _ _ hcarved
  exact hw () (hhand _ w hplace)

end Fastbook.BufferPool

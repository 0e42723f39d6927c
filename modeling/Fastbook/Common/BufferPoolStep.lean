import Fastbook.Common.BufferPoolInvariant

/-!
# Every step keeps the invariant
-/

namespace Fastbook.BufferPool

open Support

variable {T : Type*} [DecidableEq T]

namespace Pool

variable {s : Pool T} {t : T} {loc : Cls × Where T → List ℕ} {l : List ℕ} {c : Cls}
  {sz : ℕ}

theorem setMag_mag_other {b : Blocks T} {u : T} {stk : List ℕ} (hu : u ≠ t) :
    (b.setMag t c stk).mag u = b.mag u :=
  Function.update_of_ne hu _ _

/-! ## Allocations -/

omit [DecidableEq T] in
/-- A live allocation of a size class is a block. -/
theorem carved_of_live {hands : T → Cls → Option ℕ} (h : s.Owned hands loc)
    {e : ℕ × ℕ} (he : e ∈ s.live) (hsz : e.2 ≤ maxClassSize) :
    e.1 ∈ loc (clsOf e.2, .live) ∧ s.carved e.1 = some (clsOf e.2) := by
  have hmem : e.1 ∈ loc (clsOf e.2, .live) := by
    rw [show loc (clsOf e.2, .live) = _ from h.holds (clsOf e.2) .live]
    exact List.mem_map_of_mem (List.mem_filter.mpr ⟨he, by simpa using hsz⟩)
  exact ⟨hmem, h.carved_of_mem hmem⟩

/-- What is in a magazine is not live. -/
theorem Mid.notMem_live {hand : Cls → Option ℕ} {cnk : Option ℕ} {x : ℕ}
    (h : s.Mid t hand cnk loc l) (hx : x ∈ s.mag t c) :
    x ∉ s.live.map Prod.fst := by
  intro hlive
  obtain ⟨e, he, rfl⟩ := List.mem_map.mp hlive
  have hmag : e.1 ∈ loc (c, .mag t) := by
    rwa [show loc (c, .mag t) = _ from h.owned.holds c (.mag t)]
  by_cases hsz : e.2 ≤ maxClassSize
  · have := h.owned.exclusive.eq_of_mem hmag (carved_of_live h.owned he hsz).1
    simp at this
  · obtain ⟨-, c', hc', heq, hlarge, -⟩ :=
      h.arena.allocations.large e he (Nat.lt_of_not_le hsz)
    obtain ⟨c'', run, i, hblock⟩ :=
      (h.arena.carving e.1 c).mp (h.owned.carved_of_mem hmag)
    have hne : c' ≠ c'' := by
      rintro rfl
      rw [hblock.small] at hlarge
      cases hlarge
    -- the header of the large chunk would lie in the small one
    have hstart := hblock.header_le
    have hend := hblock.end_le
    have hextent := hblock.extent_eq
    have hextent' := h.arena.layout.extent_le c' hc'
    have hpos := sizeofClass_pos c
    have hsizes : sizeofChunk < runSize ∧ runSize < chunkSize := by decide
    rcases h.arena.layout.apart c' hc' c'' hblock.chunk hne with hle | hle <;> omega

theorem Mid.popTop (h : s.Mid t (fun _ => none) none loc l)
    (hsz : sz ≤ maxClassSize) (hmag : s.mag t (clsOf sz) ≠ []) :
    (s.popTop t sz).Inv := by
  unfold Pool.popTop
  split
  · next hnil => exact absurd hnil hmag
  · next x stk hcons =>
      have hnew := h.notMem_live (x := x) (c := clsOf sz) (by simp [hcons])
      have hmid := h.setBlocks (h.owned.popTop hcons hsz) rfl
        (h.arena.allocations.cons_small hsz hnew)
        (fun u hu => setMag_mag_other hu)
        (fun u _ c => Exclusive.move_of_ne (by simp) (by simp))
      exact hmid.setPc (p := .idle) trivial

theorem Mid.pop (h : s.Mid t (fun _ => none) none loc l) (hsz : sz ≤ maxClassSize)
    (last : Bool) : (s.pop t sz last).Inv := by
  unfold Pool.pop
  split
  · next hnil => exact Mid.setPc (p := .popTake sz last) { h with } ⟨hsz, hnil⟩
  · next hne => exact h.popTop hsz hne

theorem Mid.resume {after : Resume} (h : s.Mid t (fun _ => none) after.chunk loc l)
    (hof : after.Of c) (hserved : after.Served (s.mag t c)) :
    (s.resume t after).Inv := by
  cases after with
  | pop sz =>
      obtain ⟨hsz, rfl⟩ := hof
      exact h.popTop hsz hserved
  | refill caller cnk => exact h.setPc (p := .refillPush caller cnk) hof
  | reserve sz => exact h.setPc (p := .reserveTake sz) hof

/-- A magazine is filled from the chain in hand. -/
theorem Mid.takeChain {head : Option ℕ} {n : ℕ} {after : Resume}
    (h : s.Mid t (handOf c head) after.chunk loc l)
    (hn : n ≤ cacheSize - (s.mag t c).length) (hof : after.Of c)
    (hserved : head ≠ none ∧ 0 < n ∨ ∀ stk, after.Served stk) :
    (s.takeChain t c n head after).Inv := by
  have hchain : Chain s.next head (loc (c, .hand t)) := by
    have := h.owned.holds c (.hand t)
    simpa [Blocks.Holds] using this
  have hmid := h.setBlocks (h.owned.fill hn) rfl h.arena.allocations
    (fun u hu => setMag_mag_other hu)
    (fun u hu c => Exclusive.move_of_ne (by simp [hu]) (by simp))
  have hstk : after.Served (fill s.next n (s.mag t c) head).1 := by
    rcases hserved with ⟨hhead, hpos⟩ | hall
    · cases after with
      | pop sz =>
          rw [fill_eq hchain]
          simp only [Resume.Served, ne_eq, List.append_eq_nil_iff,
            List.reverse_eq_nil_iff, List.take_eq_nil_iff, not_and]
          rintro (hzero | hnil)
          · omega
          · rw [hnil, chain_nil] at hchain
            exact absurd hchain hhead
      | refill caller cnk => trivial
      | reserve sz => trivial
    · exact hall _
  unfold Pool.takeChain
  simp only
  split
  · next hrest =>
      rw [hrest, handOf_none] at hmid
      exact hmid.resume hof (by simpa using hstk)
  · next x hrest =>
      rw [hrest] at hmid
      refine hmid.setPc (p := .spill c x x after) ⟨?_, hof, by simpa using hstk⟩
      have hx := hmid.owned.holds c (.hand t)
      simp only [Blocks.Holds, Function.update_self, handOf_self] at hx
      exact List.mem_of_mem_head? hx.head_eq.symm

theorem Mid.refillReturn {caller : Caller} (h : s.Mid t (fun _ => none) none loc l)
    (hsmall : caller.Small) (ok : Bool) : (s.refillReturn t caller ok).Inv := by
  cases caller with
  | alloc sz =>
      cases ok with
      | false => exact h.setPc (p := .idle) trivial
      | true => exact h.pop hsmall true
  | reserve sz =>
      cases ok with
      | false => exact h.setPc (p := .idle) trivial
      | true => exact h.setPc (p := .reserveTake sz) hsmall

/-- The global stack of a class is taken in hand. -/
theorem Mid.takeAll {cnk : Option ℕ} (h : s.Mid t (fun _ => none) cnk loc l)
    (c : Cls) :
    ∃ loc', { s with classes := Function.update s.classes c none }.Mid t
      (handOf c (s.classes c)) cnk loc' l := by
  rw [← handOf_none c] at h
  exact ⟨_, h.setBlocks h.owned.takeAll rfl h.arena.allocations (fun _ _ => rfl)
    (fun u hu c => Exclusive.move_of_ne (by simp) (by simp [hu]))⟩

/-! ## The points of a call -/

theorem Inv.takeBatch {last : Bool} (h : s.Inv) (hpc : s.pc t = .popTake sz last) :
    (s.takeBatch t sz last).Inv := by
  obtain ⟨loc, l, hmid, hok⟩ := h.mid t
  rw [hpc] at hmid hok
  obtain ⟨hsz, hmag⟩ := hok
  obtain ⟨loc', hmid'⟩ := hmid.takeAll (clsOf sz)
  unfold Pool.takeBatch
  simp only [TreiberStack.takeAll]
  split
  · next hnone =>
      rw [hnone, handOf_none] at hmid'
      cases last with
      | false => exact hmid'.setPc (p := .refillPop (.alloc sz)) hsz
      | true => exact hmid'.setPc (p := .idle) trivial
  · next x hsome =>
      rw [hsome] at hmid' ⊢
      apply hmid'.takeChain
      · exact Nat.min_le_right _ _
      · exact ⟨hsz, rfl⟩
      · refine .inl ⟨by simp, ?_⟩
        simp only [hmag]
        decide

theorem Inv.spill {head rtail : ℕ} {after : Resume} (h : s.Inv)
    (hpc : s.pc t = .spill c head rtail after) :
    (s.spill t c head rtail after).Inv := by
  obtain ⟨loc, l, hmid, hok⟩ := h.mid t
  rw [hpc] at hmid hok
  obtain ⟨hmem, hof, hserved⟩ := hok
  have hchain := hmid.owned.holds c (.hand t)
  simp only [Blocks.Holds, Function.update_self, Pc.held, handOf_self] at hchain
  unfold Pool.spill
  split
  · next r hr =>
      exact hmid.setPc (p := .spill c head r after)
        ⟨hchain.next_mem hmem hr, hof, hserved⟩
  · next hend =>
      have hmid' := hmid.setBlocks (hmid.owned.pushChain hmem hend) rfl
        hmid.arena.allocations (fun _ _ => rfl)
        (fun u hu c => Exclusive.move_of_ne (by simp [hu]) (by simp))
      rw [handOf_none] at hmid'
      exact hmid'.resume hof hserved

theorem Inv.refillPop {caller : Caller} (h : s.Inv)
    (hpc : s.pc t = .refillPop caller) : (s.refillPop t caller).Inv := by
  obtain ⟨loc, l, hmid, hok⟩ := h.mid t
  rw [hpc] at hmid hok
  have hchain := hmid.arena.freeChunks.chain
  unfold Pool.refillPop
  cases hfree : s.freeChunks with
  | none => exact hmid.setPc (p := .refillMap caller) hok
  | some x =>
      rw [hfree] at hchain
      cases l with
      | nil => cases hchain
      | cons y l =>
          cases hchain.1
          have hmid' := hmid.setArena hmid.arena.pop (fun _ _ _ _ => rfl)
          exact hmid'.setPc (p := .refillClaim caller x)
            ⟨hok, (hmid.arena.freeChunks.stack x (by simp)).2.2⟩

theorem Inv.refillMap {caller : Caller} {reply : MapReply} (h : s.Inv)
    (hpc : s.pc t = .refillMap caller) (hreply : reply.Valid s.mapped chunkSize) :
    (s.refillMap t caller reply).Inv := by
  obtain ⟨loc, l, hmid, hok⟩ := h.mid t
  rw [hpc] at hmid hok
  have hspec := allocateNewChunk_spec hreply
  unfold Pool.refillMap
  split
  · next m hres =>
      rw [hres] at hspec
      have hmid' := hmid.setArena (hmid.arena.remap hspec) (fun _ _ _ _ => rfl)
      exact hmid'.refillReturn hok false
  · next x m hres =>
      rw [hres] at hspec
      have hnew := hmid.arena.layout.notMem_of_fresh hspec (by decide)
      have hmid' := hmid.setArena (hmid.arena.addSmall hspec)
        fun u hu y hy => Function.update_of_ne (hmid.chunk_ne_new hnew hu hy) _ _
      refine hmid'.setPc (p := .refillClaim caller x) ⟨hok, ?_⟩
      simp [Arena.add]
      decide

theorem Inv.refillClaim {caller : Caller} {cnk : ℕ} (h : s.Inv)
    (hpc : s.pc t = .refillClaim caller cnk) :
    (s.refillClaim t caller cnk).Inv := by
  obtain ⟨loc, l, hmid, hok⟩ := h.mid t
  rw [hpc] at hmid hok
  obtain ⟨hsmall, hfree⟩ := hok
  obtain ⟨hmem, hsmallc, -⟩ :=
    hmid.arena.freeChunks.hand t cnk (Function.update_self ..)
  have hwf := hmid.arena.layout.small cnk hmem hsmallc
  have hfresh := hmid.arena.carving.fresh hmid.arena.layout hmem hsmallc hfree
    caller.cls
  have harena := hmid.arena.claim hfree caller.cls
  have howned := hmid.owned
  rw [show (Pc.refillClaim caller cnk).held = handOf caller.cls none by
    rw [handOf_none]; rfl] at howned
  unfold Pool.refillClaim
  simp only [Header.claimRun_eq hwf hfree]
  refine Mid.takeChain ⟨howned.carve hfresh, harena, ?_⟩ (Nat.le_refl _) hsmall
    (.inr fun _ => trivial)
  intro u hu
  refine (hmid.others u hu).congr ?_
    fun c => Function.update_of_ne (by simp [hu]) _ _
  intro x hx
  exact Function.update_of_ne (hmid.chunk_ne_own hu hx) _ _

theorem Inv.refillPush {caller : Caller} {cnk : ℕ} (h : s.Inv)
    (hpc : s.pc t = .refillPush caller cnk) : (s.refillPush t caller cnk).Inv := by
  obtain ⟨loc, l, hmid, hok⟩ := h.mid t
  rw [hpc] at hmid hok
  unfold Pool.refillPush
  simp only
  split
  · next hfree =>
      have hfree' : 0 < (s.header cnk).freeRuns := by
        simpa [Header.hasFreeRuns] using hfree
      have hmid' := hmid.setArena (hmid.arena.push hfree')
        fun u hu x hx => Function.update_of_ne (hmid.chunk_ne_own hu hx) _ _
      exact hmid'.refillReturn hok true
  · exact Mid.refillReturn { hmid with arena := hmid.arena.drop } hok true

theorem Inv.reserveTake (h : s.Inv) (hpc : s.pc t = .reserveTake sz) :
    (s.reserveTake t sz).Inv := by
  obtain ⟨loc, l, hmid, hok⟩ := h.mid t
  rw [hpc] at hmid hok
  obtain ⟨loc', hmid'⟩ := hmid.takeAll (clsOf sz)
  unfold Pool.reserveTake
  simp only [TreiberStack.takeAll]
  split
  · exact hmid.setPc (p := .idle) trivial
  · split
    · next hnone =>
        rw [hnone, handOf_none] at hmid'
        exact hmid'.setPc (p := .refillPop (.reserve sz)) hok
    · next x hsome =>
        rw [hsome] at hmid' ⊢
        exact hmid'.takeChain (Nat.le_refl _) hok (.inr fun _ => trivial)

theorem Inv.mapLarge {reply : MapReply} (h : s.Inv) (hpc : s.pc t = .mapLarge sz)
    (hreply : reply.Valid s.mapped (roundToCnkSz (sz + sizeofChunk))) :
    (s.mapLarge t sz reply).Inv := by
  obtain ⟨loc, l, hmid, hok⟩ := h.mid t
  rw [hpc] at hmid hok
  have hspec := allocateNewChunk_spec hreply
  have hround : sz + sizeofChunk ≤ roundToCnkSz (sz + sizeofChunk) := by
    apply (roundToCnkSz_spec _).1
    have := hok.2
    simp only [sizeofChunk]
    omega
  unfold Pool.mapLarge
  simp only
  split
  · next m hres =>
      rw [hres] at hspec
      have hmid' := hmid.setArena (hmid.arena.remap hspec) (fun _ _ _ _ => rfl)
      exact hmid'.setPc (p := .idle) trivial
  · next x m hres =>
      rw [hres] at hspec
      have hnew := hmid.arena.layout.notMem_of_fresh hspec (by
        simp only [sizeofChunk] at hround ⊢
        omega)
      have harena := hmid.arena.addLarge
        (fun e he hsz => ⟨_, (carved_of_live hmid.owned he hsz).2⟩) hok.1 hok.2
        hspec
      have hlive : ∀ c, Blocks.liveBlocks
          { s.toBlocks with live := (x + sizeofChunk, sz) :: s.live } c =
            s.liveBlocks c := by
        intro c
        have hnot : ¬ sz ≤ maxClassSize := Nat.not_le_of_lt hok.1
        simp [Blocks.liveBlocks, hnot]
      have hmid' : Mid
          { s.addChunk m x
              { isLarge := true, sz := roundToCnkSz (sz + sizeofChunk) } with
            live := (x + sizeofChunk, sz) :: s.live }
          t (fun _ => none) none loc l := by
        refine ⟨hmid.owned.setLive hlive, harena, ?_⟩
        intro u hu
        refine (hmid.others u hu).congr ?_ fun _ => rfl
        intro y hy
        exact Function.update_of_ne (hmid.chunk_ne_new hnew hu hy) _ _
      exact hmid'.setPc (p := .idle) trivial

theorem Inv.flush {n : ℕ} (h : s.Inv) (hpc : s.pc t = .flush n) :
    (s.flush t n).Inv := by
  obtain ⟨loc, l, hmid, hok⟩ := h.mid t
  rw [hpc] at hmid
  unfold Pool.flush
  split
  · next hn =>
      obtain ⟨loc', howned, -, hloc⟩ := hmid.owned.donateTop t ⟨n, hn⟩
        (s.mag t ⟨n, hn⟩).length
      have hmid' := hmid.setBlocks howned (Blocks.donateTop_carved ..)
        (by rw [Blocks.donateTop_live]; exact hmid.arena.allocations)
        (fun u hu => Blocks.donateTop_mag_other hu ..)
        (fun u _ c => hloc _ (by simp) (by simp))
      exact hmid'.setPc (p := .flush (n + 1)) trivial
  · exact Mid.setPc (p := .idle) { hmid with } trivial

/-! ## Calls -/

theorem Inv.alloc (h : s.Inv) (hpc : s.pc t = .idle) (hsz : sz ≤ 2 ^ 40) :
    (s.alloc t sz).Inv := by
  obtain ⟨loc, l, hmid, -⟩ := h.mid t
  rw [hpc] at hmid
  unfold Pool.alloc
  split
  · next hlt => exact hmid.setPc (p := .mapLarge sz) ⟨hlt, hsz⟩
  · next hle => exact hmid.pop (Nat.le_of_not_lt hle) false

theorem Inv.reserve (h : s.Inv) (hpc : s.pc t = .idle) (hsz : sz ≤ maxClassSize) :
    (s.reserve t sz).Inv := by
  obtain ⟨loc, l, hmid, -⟩ := h.mid t
  rw [hpc] at hmid
  exact Mid.setPc (s := s.threadInit t) (p := .reserveTake sz) { hmid with } hsz

theorem Inv.exit (h : s.Inv) (hpc : s.pc t = .idle) : (s.exit t).Inv := by
  obtain ⟨loc, l, hmid, -⟩ := h.mid t
  rw [hpc] at hmid
  unfold Pool.exit
  split
  · exact hmid.setPc (p := .flush 0) trivial
  · exact h

omit [DecidableEq T] in
/-- The chunk and the class of a small allocation. -/
theorem baseCls_of_small {hands : T → Cls → Option ℕ} {held : T → Option ℕ}
    (howned : s.Owned hands loc)
    (harena : ArenaInv s.toArena s.carved s.live held l) {e : ℕ × ℕ}
    (he : e ∈ s.live) (hsz : e.2 ≤ maxClassSize) :
    ∃ c run i, BlockAt s.toArena e.1 (clsOf e.2) c run i ∧
      baseClsFromPtr s.header e.1 = (c, clsOf e.2) := by
  obtain ⟨c, run, i, hblock⟩ :=
    (harena.carving e.1 _).mp (carved_of_live howned he hsz).2
  exact ⟨c, run, i, hblock,
    hblock.baseCls (harena.layout.aligned c hblock.chunk)⟩

omit [DecidableEq T] in
/-- The chunk of a large allocation. -/
theorem base_of_large {held : T → Option ℕ}
    (harena : ArenaInv s.toArena s.carved s.live held l) {e : ℕ × ℕ}
    (he : e ∈ s.live) (hsz : maxClassSize < e.2) :
    baseOf e.1 ∈ s.chunks ∧ e.1 = baseOf e.1 + sizeofChunk ∧
      (s.header (baseOf e.1)).isLarge = true ∧
      (s.header (baseOf e.1)).sz = roundToCnkSz (e.2 + sizeofChunk) := by
  obtain ⟨-, c, hc, heq, hlarge, hcsz⟩ := harena.allocations.large e he hsz
  have hbase := (@run_of_address c 0 sizeofChunk (harena.layout.aligned c hc)
    (by decide) (by decide)).1
  rw [Nat.zero_mul, Nat.add_zero, ← heq] at hbase
  rw [hbase]
  exact ⟨hc, heq, hlarge, hcsz⟩

/-- The pointer is found to be the block, or the large chunk, it was returned
for. -/
theorem Inv.free {ptr : ℕ} (h : s.Inv) (hpc : s.pc t = .idle)
    (hmem : ptr ∈ s.live.map Prod.fst) : (s.free t ptr).Inv := by
  obtain ⟨loc, l, howned, harena, hok⟩ := h
  obtain ⟨e, he, rfl⟩ := List.mem_map.mp hmem
  have hnodup := harena.allocations.nodup
  unfold Pool.free
  simp only
  by_cases hsz : e.2 ≤ maxClassSize
  · obtain ⟨c, run, i, hblock, hbase⟩ := baseCls_of_small howned harena he hsz
    obtain ⟨loc', howned', hloc⟩ := howned.push t hnodup he hsz
    rw [hbase]
    simp only [hblock.small, Bool.false_eq_true, if_false]
    refine ⟨loc', l, howned', ?_, ?_⟩
    · rw [Blocks.push_live, Blocks.push_carved]
      exact harena.setLive (harena.allocations.sublist List.eraseP_sublist)
    · intro u
      by_cases hu : u = t
      · subst hu
        rw [hpc]
        exact trivial
      · rw [Blocks.push_mag_other hu]
        exact (hok u).congr (fun _ _ => rfl) (hloc u)
  · obtain ⟨hc, heq, hlarge, -⟩ := base_of_large harena he (Nat.lt_of_not_le hsz)
    have hentry : (baseOf e.1 + sizeofChunk, e.2) ∈ s.live := by
      rw [← heq]
      exact he
    have harena' := harena.removeLarge hentry hc hlarge
    simp only [baseClsFromPtr, hlarge, if_true]
    refine ⟨loc, l, ?_, ?_, hok⟩
    · apply howned.setLive
      intro c
      exact liveBlocks_erase hnodup he fun hcls => hsz hcls.1
    · rw [← heq] at harena'
      exact harena'

omit [DecidableEq T] in
theorem Inv.write {ptr : ℕ} (h : s.Inv) (value : Option ℕ)
    (hmem : ∃ e ∈ s.live, e.1 = ptr ∧ e.2 ≤ maxClassSize) :
    { s with next := Function.update s.next ptr value }.Inv := by
  obtain ⟨loc, l, howned, harena, hok⟩ := h
  obtain ⟨e, he, rfl, hsz⟩ := hmem
  refine ⟨loc, l, howned.write (c := clsOf e.2) value ?_, harena, hok⟩
  exact List.mem_map_of_mem (List.mem_filter.mpr ⟨he, by simpa using hsz⟩)

theorem Inv.steps {s' : Pool T} {reply : MapReply} (h : s.Inv)
    (hstep : s.Steps t reply s') : s'.Inv := by
  cases hstep with
  | popTake sz last hpc => exact h.takeBatch hpc
  | spill c head rtail after hpc => exact h.spill hpc
  | refillPop caller hpc => exact h.refillPop hpc
  | refillMap caller hpc hreply => exact h.refillMap hpc hreply
  | refillClaim caller cnk hpc => exact h.refillClaim hpc
  | refillPush caller cnk hpc => exact h.refillPush hpc
  | reserveTake sz hpc => exact h.reserveTake hpc
  | mapLarge sz hpc hreply => exact h.mapLarge hpc hreply
  | flush n hpc => exact h.flush hpc

theorem Inv.act {s' : Pool T} {a : Action T} (h : s.Inv)
    (hact : s.act a = some s') : s'.Inv := by
  cases acts_of_act hact with
  | alloc t sz hready hsz => exact h.alloc hready.1 hsz
  | free t ptr hready hmem => exact h.free hready.1 hmem
  | reserve t sz hready hsz => exact h.reserve hready.1 hsz
  | threadInit t => exact h
  | exit t hready => exact h.exit hready.1
  | step t reply _ hstep => exact h.steps hstep
  | write ptr value hmem => exact h.write value hmem

theorem inv_start : (system T).start.Inv := by
  refine ⟨fun _ => [], [], ?_, ?_, fun _ => trivial⟩
  · refine ⟨?_, ⟨by simp, by simp⟩, by simp [system], by simp [system]⟩
    intro c w
    cases w <;> simp [system, Blocks.Holds, Blocks.liveBlocks, Pc.held]
  · refine ⟨⟨?_, ?_, ?_, ?_, ?_, ?_, ?_⟩, ?_, ⟨?_, ?_⟩, ⟨rfl, ?_, ?_, ?_, ?_⟩⟩
    case refine_8 =>
      intro x k
      constructor
      · intro hk
        cases hk
      · rintro ⟨c, run, i, hblock⟩
        cases hblock.chunk
    all_goals simp [system, Pc.chunk]

end Pool

/-- Every state that the threads can reach. -/
theorem reachable_inv {s : Pool T} (h : (system T).Reachable s) : s.Inv :=
  h.invariant Pool.inv_start fun _ _ _ hs hact => hs.act hact

end Fastbook.BufferPool

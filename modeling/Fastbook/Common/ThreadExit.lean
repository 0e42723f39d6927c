import Fastbook.Common.BufferPoolSafety

/-!
# Threads that exit

The exit hook gives the blocks of a thread's magazines back, if the thread has
set the key.  `thread_init`, `reserve` and a `pop` from an empty magazine set
it; `free` does not.  So a thread that has only freed blocks takes them along.
-/

namespace Fastbook.BufferPool

open Support

variable {T : Type*}

/-- A thread that exits has set the key, or has nothing in its magazines. -/
def HookSet (s : Pool T) : Action T → Prop
  | .exit t => s.registered t = true ∨ ∀ c, s.mag t c = []
  | _ => True

namespace Pool

/-- On the global stack of its class. -/
def OnGlobal (s : Pool T) (c : Cls) (x : ℕ) : Prop :=
  ∃ l, Chain s.next (s.classes c) l ∧ x ∈ l

/-- Live, in the magazine of a thread that has not exited, or on the global
stack. -/
def Kept (s : Pool T) (c : Cls) (x : ℕ) : Prop :=
  (∃ sz, (x, sz) ∈ s.live) ∨ (∃ t, s.exited t = false ∧ x ∈ s.mag t c) ∨
    s.OnGlobal c x

/-- On the chain that a call has in hand. -/
def InTransit (s : Pool T) (c : Cls) (x : ℕ) : Prop :=
  ∃ t l, s.pc t ≠ .idle ∧ Chain s.next ((s.pc t).held c) l ∧ x ∈ l

/-- A thread that has exited has left nothing behind; one that is about to has
cleared the classes it has passed. -/
structure Cleared (s : Pool T) : Prop where
  exited : ∀ t, s.exited t = true → s.pc t = .idle ∧ ∀ c, s.mag t c = []
  flush : ∀ t n, s.pc t = .flush n → ∀ c : Cls, c < n → s.mag t c = []

variable [DecidableEq T]

/-- A step of thread `t` that is not part of its exit. -/
structure Ordinary (t : T) (s s' : Pool T) : Prop where
  mag : ∀ u, u ≠ t → s'.mag u = s.mag u
  pc : ∀ u, u ≠ t → s'.pc u = s.pc u
  exited : s'.exited = s.exited
  stays : ∀ n, s'.pc t ≠ .flush n

variable {s s' : Pool T} {t : T} {c : Cls} {sz : ℕ}

theorem Cleared.ordinary (h : s.Cleared) (ht : s.exited t = false)
    (hs : Ordinary t s s') : s'.Cleared := by
  refine ⟨?_, ?_⟩
  · intro u hu
    rw [hs.exited] at hu
    have hne : u ≠ t := by
      rintro rfl
      rw [ht] at hu
      cases hu
    rw [hs.pc u hne, hs.mag u hne]
    exact h.exited u hu
  · intro u n hpc
    by_cases hu : u = t
    · subst hu
      exact absurd hpc (hs.stays n)
    · rw [hs.pc u hu] at hpc
      rw [hs.mag u hu]
      exact h.flush u n hpc

theorem ordinary_setPc (s : Pool T) (t : T) {p : Pc} (hp : ∀ n, p ≠ .flush n) :
    Ordinary t s (s.setPc t p) where
  mag := fun _ _ => rfl
  pc := fun _ hu => Function.update_of_ne hu _ _
  exited := rfl
  stays := by
    intro n
    simpa [setPc] using hp n

omit [DecidableEq T] in
/-- What an ordinary step looks at of the state before. -/
theorem Ordinary.of_same {s₁ : Pool T} (h : Ordinary t s₁ s')
    (hmag : s₁.mag = s.mag) (hpc : s₁.pc = s.pc) (hexited : s₁.exited = s.exited) :
    Ordinary t s s' where
  mag := fun u hu => (h.mag u hu).trans (by rw [hmag])
  pc := fun u hu => (h.pc u hu).trans (by rw [hpc])
  exited := h.exited.trans hexited
  stays := h.stays

theorem Ordinary.of_setMag {stk : List ℕ}
    (h : Ordinary t { s with toBlocks := s.setMag t c stk } s') :
    Ordinary t s s' where
  mag := fun u hu => (h.mag u hu).trans (setMag_mag_other hu)
  pc := h.pc
  exited := h.exited
  stays := h.stays

theorem ordinary_popTop (s : Pool T) (t : T) (sz : ℕ) :
    Ordinary t s (s.popTop t sz) := by
  unfold popTop
  split
  · exact ordinary_setPc s t (by simp)
  · next b stk _ =>
      have h := ordinary_setPc { s with toBlocks := s.setMag t (clsOf sz) stk } t
        (p := .idle) (by simp)
      exact Ordinary.of_setMag (c := clsOf sz) { h with }

theorem ordinary_pop (s : Pool T) (t : T) (sz : ℕ) (last : Bool) :
    Ordinary t s (s.pop t sz last) := by
  unfold pop
  split
  · have h := ordinary_setPc s t (p := .popTake sz last) (by simp)
    exact { h with }
  · exact ordinary_popTop s t sz

theorem ordinary_resume (s : Pool T) (t : T) (after : Resume) :
    Ordinary t s (s.resume t after) := by
  cases after with
  | pop sz => exact ordinary_popTop s t sz
  | refill caller cnk => exact ordinary_setPc s t (by simp)
  | reserve sz => exact ordinary_setPc s t (by simp)

theorem ordinary_takeChain (s : Pool T) (t : T) (c : Cls) (n : ℕ)
    (head : Option ℕ) (after : Resume) :
    Ordinary t s (s.takeChain t c n head after) := by
  unfold takeChain
  apply Ordinary.of_setMag (c := c)
  simp only
  split
  · exact ordinary_resume _ t after
  · exact ordinary_setPc _ t (by simp)

theorem ordinary_refillReturn (s : Pool T) (t : T) (caller : Caller) (ok : Bool) :
    Ordinary t s (s.refillReturn t caller ok) := by
  cases caller with
  | alloc sz =>
      cases ok with
      | false => exact ordinary_setPc s t (by simp)
      | true => exact ordinary_pop s t sz true
  | reserve sz =>
      cases ok with
      | false => exact ordinary_setPc s t (by simp)
      | true => exact ordinary_setPc s t (by simp)

/-- Every step of a call is an ordinary one. -/
theorem ordinary_steps {reply : MapReply} (hstep : s.Steps t reply s')
    (hflush : ∀ n, s.pc t ≠ .flush n) : Ordinary t s s' := by
  cases hstep with
  | flush n hpc => exact absurd hpc (hflush n)
  | popTake sz last =>
      simp only [takeBatch, TreiberStack.takeAll]
      split
      · have h := ordinary_setPc s t
          (p := if last then .idle else .refillPop (.alloc sz))
          (by cases last <;> simp)
        exact { h with }
      · exact (ordinary_takeChain _ t _ _ _ _).of_same rfl rfl rfl
  | spill c head rtail after =>
      unfold spill
      split
      · exact ordinary_setPc s t (by simp)
      · exact (ordinary_resume _ t after).of_same rfl rfl rfl
  | refillPop caller =>
      unfold refillPop
      simp only
      split
      · exact ordinary_setPc s t (by simp)
      · exact (ordinary_setPc _ t (by simp)).of_same rfl rfl rfl
  | refillMap caller =>
      unfold refillMap
      split
      · exact (ordinary_refillReturn _ t caller false).of_same rfl rfl rfl
      · exact (ordinary_setPc _ t (by simp)).of_same rfl rfl rfl
  | refillClaim caller cnk =>
      unfold refillClaim
      simp only
      split
      · exact ordinary_refillReturn s t caller false
      · exact (ordinary_takeChain _ t _ _ _ _).of_same rfl rfl rfl
  | refillPush caller cnk =>
      unfold refillPush
      simp only
      split
      · exact (ordinary_refillReturn _ t caller true).of_same rfl rfl rfl
      · exact ordinary_refillReturn s t caller true
  | reserveTake sz =>
      simp only [reserveTake, TreiberStack.takeAll]
      split
      · exact ordinary_setPc s t (by simp)
      · split
        · exact (ordinary_setPc _ t (by simp)).of_same rfl rfl rfl
        · exact (ordinary_takeChain _ t _ _ _ _).of_same rfl rfl rfl
  | mapLarge sz =>
      unfold mapLarge
      simp only
      split
      · exact (ordinary_setPc _ t (by simp)).of_same rfl rfl rfl
      · have h := ordinary_setPc s t (p := .idle) (by simp)
        exact { h with }

/-- Only a thread in a call takes a step. -/
theorem pc_ne_idle_of_steps {reply : MapReply} (h : s.Steps t reply s') :
    s.pc t ≠ .idle := by
  cases h <;> simp_all

omit [DecidableEq T] in
theorem Cleared.exited_eq_false (h : s.Cleared) (hpc : s.pc t ≠ .idle) :
    s.exited t = false := by
  cases hexited : s.exited t with
  | false => rfl
  | true => exact absurd (h.exited t hexited).1 hpc

/-- The step of the exit hook for one class, or its end. -/
theorem Cleared.flush_step {n : ℕ} (h : s.Cleared) (hpc : s.pc t = .flush n) :
    (s.flush t n).Cleared := by
  have hout := h.exited_eq_false (t := t) (by simp [hpc])
  have hne : ∀ u, s.exited u = true → u ≠ t := by
    rintro u hu rfl
    rw [hout] at hu
    cases hu
  unfold Pool.flush
  split
  · next hn =>
      refine ⟨?_, ?_⟩
      · intro u hu
        have hut := hne u hu
        simp only [setPc, Function.update_of_ne hut, Blocks.donateClass,
          Blocks.donateTop_mag_other hut]
        exact h.exited u hu
      · intro u m hm c hc
        by_cases hut : u = t
        · subst hut
          simp only [setPc, Function.update_self, Pc.flush.injEq] at hm
          subst hm
          by_cases hcn : c = ⟨n, hn⟩
          · subst hcn
            simp [setPc, Blocks.donateClass, Blocks.donateTop_mag]
          · have hlt : c.val < n := by
              have : c.val ≠ n := fun heq => hcn (Fin.ext heq)
              omega
            simp only [setPc, Blocks.donateClass, Blocks.donateTop_mag_of_ne hcn]
            exact h.flush u n hpc c hlt
        · simp only [setPc, Function.update_of_ne hut] at hm
          simp only [setPc, Blocks.donateClass, Blocks.donateTop_mag_other hut]
          exact h.flush u m hm c hc
  · next hn =>
      refine ⟨?_, ?_⟩
      · intro u hu
        by_cases hut : u = t
        · subst hut
          refine ⟨by simp [setPc], fun c => h.flush u n hpc c ?_⟩
          have := c.isLt
          omega
        · simp only [Function.update_of_ne hut] at hu
          simp only [setPc, Function.update_of_ne hut]
          exact h.exited u hu
      · intro u m hm
        by_cases hut : u = t
        · subst hut
          simp [setPc] at hm
        · simp only [setPc, Function.update_of_ne hut] at hm
          exact h.flush u m hm

theorem Cleared.exit (h : s.Cleared) (hready : s.Ready t)
    (hhook : HookSet s (.exit t)) : (s.exit t).Cleared := by
  have hne : ∀ u, s.exited u = true → u ≠ t := by
    rintro u hu rfl
    rw [hready.2] at hu
    cases hu
  unfold Pool.exit
  split
  · refine ⟨?_, ?_⟩
    · intro u hu
      simp only [setPc, Function.update_of_ne (hne u hu)]
      exact h.exited u hu
    · intro u m hm c hc
      by_cases hut : u = t
      · subst hut
        simp only [setPc, Function.update_self, Pc.flush.injEq] at hm
        omega
      · simp only [setPc, Function.update_of_ne hut] at hm
        exact h.flush u m hm c hc
  · next hreg =>
      refine ⟨?_, h.flush⟩
      intro u hu
      by_cases hut : u = t
      · subst hut
        exact ⟨hready.1, hhook.resolve_left hreg⟩
      · simp only [Function.update_of_ne hut] at hu
        exact h.exited u hu

theorem Cleared.act {a : Action T} (h : s.Cleared) (hhook : HookSet s a)
    (hact : s.act a = some s') : s'.Cleared := by
  cases acts_of_act hact with
  | alloc t sz hready =>
      refine h.ordinary (t := t) hready.2 ?_
      unfold alloc
      split
      · exact ordinary_setPc s t (by simp)
      · exact ordinary_pop s t sz false
  | free t ptr hready =>
      refine h.ordinary (t := t) hready.2 ?_
      have hidle : ∀ n, s.pc t ≠ .flush n := by simp [hready.1]
      unfold free
      simp only
      split
      · exact ⟨fun _ _ => rfl, fun _ _ => rfl, rfl, hidle⟩
      · exact ⟨fun u hu => Blocks.push_mag_other hu .., fun _ _ => rfl, rfl,
          hidle⟩
  | reserve t sz hready =>
      refine h.ordinary (t := t) hready.2 ?_
      exact (ordinary_setPc _ t (by simp)).of_same rfl rfl rfl
  | threadInit t => exact { h with }
  | exit t hready => exact h.exit hready hhook
  | step t reply _ hstep =>
      by_cases hflush : ∃ n, s.pc t = .flush n
      · obtain ⟨n, hpc⟩ := hflush
        have hsame : s' = s.flush t n := by
          cases hstep <;> simp_all
        exact hsame ▸ h.flush_step hpc
      · have hexited := h.exited_eq_false (pc_ne_idle_of_steps hstep)
        exact h.ordinary hexited
          (ordinary_steps hstep fun n hn => hflush ⟨n, hn⟩)
  | write ptr value => exact { h with }

/-! ## Getting a block from a global stack -/

/-- The actions of thread `u` in calls of `alloc`. -/
def AllocBy (u : T) : Action T → Prop
  | .alloc t _ => t = u
  | .step t _ => t = u
  | _ => False

/-- Thread `u` can make allocations of which the last returns `x`. -/
def Obtainable (s : Pool T) (u : T) (x : ℕ) : Prop :=
  ∃ acts s' sz live, (∀ a ∈ acts, AllocBy u a) ∧ (system T).run s acts = some s' ∧
    s'.live = (x, sz) :: live ∧ s.live <:+ live

/-- The state after one allocation, from the blocks `l` that the thread can
reach. -/
structure Served (s : Pool T) (u : T) (c : Cls) (l : List ℕ) (s' : Pool T) :
    Prop where
  ready : s'.Ready u
  served : ∃ b rest, s'.live = (b, sizeofClass c) :: s.live ∧
    Chain s'.next (s'.classes c) rest ∧ (b :: (s'.mag u c ++ rest)).Perm l

theorem popTop_served {u : T} {b : ℕ} {stk rest : List ℕ} (h : s.exited u = false)
    (hmag : s.mag u c = b :: stk) (hchain : Chain s.next (s.classes c) rest) :
    Served s u c (b :: (stk ++ rest)) (s.popTop u (sizeofClass c)) := by
  have hpop : s.popTop u (sizeofClass c) =
      returnBlock { s with toBlocks := s.setMag u c stk } u b (sizeofClass c) := by
    simp only [popTop, clsOf_sizeofClass, hmag]
  rw [hpop]
  refine ⟨⟨by simp [returnBlock, setPc], h⟩, b, rest, rfl, hchain, ?_⟩
  simp [returnBlock, setPc]

/-- The walk to the tail, and the push at its end. -/
theorem run_walk {head rtail : ℕ} {rest : List ℕ} {after : Resume}
    (hpc : s.pc t = .spill c head rtail after)
    (hchain : Chain s.next (some rtail) (rtail :: rest)) :
    ∃ n last, s.next last = none ∧
      (system T).run s (List.replicate n (.step t {})) =
        some (resume
          { s with
            next := Function.update s.next last (s.classes c)
            classes := Function.update s.classes c (some head)
            pc := Function.update s.pc t (.spill c head last after) } t after) := by
  induction rest generalizing s rtail with
  | nil =>
      have hend : s.next rtail = none := hchain.2
      refine ⟨1, rtail, hend, ?_⟩
      rw [← hpc, Function.update_eq_self]
      simp [TransitionSystem.run, system, act, stepThread, hpc, spill, hend,
        TreiberStack.pushChain]
  | cons r rest ih =>
      have hnext : s.next rtail = some r := hchain.2.1
      have hpc' : (s.setPc t (.spill c head r after)).pc t =
          .spill c head r after := by
        simp [setPc]
      obtain ⟨n, last, hend, hrun⟩ := ih hpc' (hnext ▸ hchain.2)
      refine ⟨n + 1, last, hend, ?_⟩
      simp only [setPc, Function.update_idem] at hrun
      simpa [List.replicate_succ, TransitionSystem.run, system, act, stepThread, hpc,
        spill, hnext, setPc] using hrun

/-- The whole stack has been taken and the magazine holds `stk`. -/
def taken (s : Pool T) (u : T) (c : Cls) (stk : List ℕ) : Pool T :=
  { s with
    toBlocks := Blocks.setMag
      { s.toBlocks with classes := Function.update s.classes c none } u c stk }

theorem takeBatch_eq {u : T} {l stk : List ℕ} (hmag : s.mag u c = [])
    (hchain : Chain s.next (s.classes c) l) (hne : l ≠ [])
    (hstk : (l.take batchSize).reverse = stk) :
    s.takeBatch u (sizeofClass c) false =
      match (l.drop batchSize).head? with
      | none => (s.taken u c stk).popTop u (sizeofClass c)
      | some h => (s.taken u c stk).setPc u (.spill c h h (.pop (sizeofClass c))) := by
  obtain ⟨x, hx⟩ : ∃ x, s.classes c = some x := by
    cases hc : s.classes c with
    | none => exact absurd (chain_none.mp (hc ▸ hchain)) hne
    | some x => exact ⟨x, rfl⟩
  have hfill := fill_eq hchain batchSize []
  rw [hstk, List.append_nil, hx] at hfill
  have hroom : min batchSize (cacheSize - ([] : List ℕ).length) = batchSize := rfl
  simp only [takeBatch, clsOf_sizeofClass, TreiberStack.takeAll, hx, takeChain, hmag,
    hroom, hfill]
  cases (l.drop batchSize).head? <;> rfl

/-- `take_batch` from a stack that is not empty. -/
theorem takeBatch_served {u : T} {l : List ℕ} (hexited : s.exited u = false)
    (hpc : s.pc u = .popTake (sizeofClass c) false) (hmag : s.mag u c = [])
    (hchain : Chain s.next (s.classes c) l) (hne : l ≠ []) :
    ∃ n s', (system T).run s (List.replicate n (.step u {})) = some s' ∧
      Served s u c l s' := by
  obtain ⟨b, stk, hstk⟩ : ∃ b stk, (l.take batchSize).reverse = b :: stk := by
    apply List.exists_cons_of_ne_nil
    simp [hne, batchSize]
  have hperm : (b :: (stk ++ l.drop batchSize)).Perm l := by
    rw [← List.cons_append, ← hstk]
    nth_rewrite 3 [← List.take_append_drop batchSize l]
    exact (List.reverse_perm _).append_right _
  have hbatch := takeBatch_eq hmag hchain hne hstk
  have hstep : (system T).step s (.step u {}) =
      some (s.takeBatch u (sizeofClass c) false) := by
    simp only [system, act, stepThread, hpc]
  have htop : (s.taken u c (b :: stk)).mag u c = b :: stk := by simp [taken]
  cases hrest : l.drop batchSize with
  | nil =>
      rw [hrest] at hbatch hperm
      have hempty : Chain (s.taken u c (b :: stk)).next
          ((s.taken u c (b :: stk)).classes c) [] := by
        simp [taken, Blocks.setMag]
      have hserved :=
        popTop_served (s := s.taken u c (b :: stk)) hexited htop hempty
      obtain ⟨b', rest, hlive, hchain', hperm'⟩ := hserved.served
      refine ⟨1, _, ?_, hserved.ready, b', rest, hlive, hchain', hperm'.trans hperm⟩
      simp only [List.replicate_one, TransitionSystem.run, hstep, hbatch]
      rfl
  | cons h rest =>
      rw [hrest] at hbatch hperm
      have hdrop : Chain s.next (some h) (h :: rest) := by
        have := hchain.drop batchSize
        rwa [hrest] at this
      have hspill : ((s.taken u c (b :: stk)).setPc u
          (.spill c h h (.pop (sizeofClass c)))).pc u =
            .spill c h h (.pop (sizeofClass c)) := by
        simp [setPc]
      obtain ⟨n, last, hend, hrun⟩ := run_walk hspill hdrop
      -- the last link was null before and is null again
      have hnext : Function.update s.next last none = s.next := by
        rw [← show s.next last = none from hend, Function.update_eq_self]
      have hglobal : Chain (Function.update s.next last none)
          (Function.update (Function.update s.classes c none) c (some h) c)
          (h :: rest) := by
        rw [hnext, Function.update_self]
        exact hdrop
      have hserved := popTop_served
        (s := { (s.taken u c (b :: stk)) with
          next := Function.update s.next last none
          classes := Function.update
            (Function.update s.classes c none) c (some h)
          pc := Function.update s.pc u
            (.spill c h last (.pop (sizeofClass c))) })
        hexited htop hglobal
      obtain ⟨b', rest', hlive, hchain', hperm'⟩ := hserved.served
      refine ⟨n + 1, _, ?_, hserved.ready, b', rest', hlive, hchain',
        hperm'.trans hperm⟩
      rw [List.replicate_succ, TransitionSystem.run, hstep, hbatch]
      refine Eq.trans hrun ?_
      simp [resume, taken, setPc, Blocks.setMag]

/-- One allocation, with no other thread in between. -/
theorem exists_served {u : T} {l : List ℕ} (hready : s.Ready u)
    (hchain : Chain s.next (s.classes c) l) (hne : s.mag u c ++ l ≠ []) :
    ∃ acts s', (∀ a ∈ acts, AllocBy u a) ∧ (system T).run s acts = some s' ∧
      Served s u c (s.mag u c ++ l) s' := by
  have hsz := sizeofClass_le c
  have hcall : (system T).step s (.alloc u (sizeofClass c)) =
      some (s.pop u (sizeofClass c) false) := by
    have hle : sizeofClass c ≤ 2 ^ 40 := hsz.trans (by decide)
    simp only [system, act, if_pos (And.intro hready hle), alloc,
      if_neg (Nat.not_lt_of_le hsz)]
  cases hmag : s.mag u c with
  | cons b stk =>
      refine ⟨[.alloc u (sizeofClass c)], s.popTop u (sizeofClass c), ?_, ?_, ?_⟩
      · simp [AllocBy]
      · simp only [TransitionSystem.run, hcall, pop, clsOf_sizeofClass, hmag]
        rfl
      · exact popTop_served hready.2 hmag hchain
  | nil =>
      rw [hmag, List.nil_append] at hne
      -- the call finds the magazine empty and takes the whole stack
      have hpop : s.pop u (sizeofClass c) false =
          { s.setPc u (.popTake (sizeofClass c) false) with
            registered := Function.update s.registered u true } := by
        simp only [pop, clsOf_sizeofClass, hmag, if_true]
      obtain ⟨n, s', hrun, hserved⟩ := takeBatch_served
        (s := s.pop u (sizeofClass c) false) (c := c) (l := l)
        (by rw [hpop]; exact hready.2) (by rw [hpop]; simp [setPc])
        (by rw [hpop]; exact hmag) (by rw [hpop]; exact hchain) hne
      obtain ⟨b, rest, hlive, hchain', hperm⟩ := hserved.served
      have hsame : (s.pop u (sizeofClass c) false).live = s.live := by
        rw [hpop]
        rfl
      refine ⟨.alloc u (sizeofClass c) :: List.replicate n (.step u {}), s', ?_, ?_,
        hserved.ready, b, rest, hsame ▸ hlive, hchain', hperm⟩
      · intro a ha
        rcases List.mem_cons.mp ha with rfl | ha
        · rfl
        · rw [List.eq_of_mem_replicate ha]
          rfl
      · simp only [TransitionSystem.run, hcall]
        exact hrun

/-- A block in the thread's magazine or on the global stack can be had by
allocating until it comes up. -/
theorem obtainable {u : T} {l : List ℕ} {x : ℕ} (hready : s.Ready u)
    (hchain : Chain s.next (s.classes c) l) (hx : x ∈ s.mag u c ++ l) :
    s.Obtainable u x := by
  induction hn : (s.mag u c ++ l).length generalizing s l with
  | zero =>
      rw [List.length_eq_zero_iff] at hn
      rw [hn] at hx
      cases hx
  | succ n ih =>
      obtain ⟨acts, s', hby, hrun, hready', b, rest, hlive, hchain', hperm⟩ :=
        exists_served hready hchain (List.ne_nil_of_mem hx)
      rcases List.mem_cons.mp (hperm.symm.subset hx) with rfl | hx'
      · exact ⟨acts, s', _, _, hby, hrun, hlive, List.suffix_refl _⟩
      · have hlen : (s'.mag u c ++ rest).length = n := by
          have := hperm.length_eq
          rw [List.length_cons] at this
          omega
        obtain ⟨acts', s'', sz, live, hby', hrun', hlive', hsuffix⟩ :=
          ih hready' hchain' hx' hlen
        refine ⟨acts ++ acts', s'', sz, live, ?_, ?_, hlive', ?_⟩
        · exact List.forall_mem_append.mpr ⟨hby, hby'⟩
        · rw [TransitionSystem.run_append, hrun]
          exact hrun'
        · rw [hlive] at hsuffix
          exact (List.suffix_cons _ _).trans hsuffix

/-! ## The exit hook -/

/-- What the hook does for one class. -/
theorem Inv.flush_onGlobal {n : ℕ} (h : s.Inv) (hn : n < nClasses) :
    (∀ c x, s.OnGlobal c x → (s.flush t n).OnGlobal c x) ∧
      (∀ x ∈ s.mag t ⟨n, hn⟩, (s.flush t n).OnGlobal ⟨n, hn⟩ x) ∧
      (∀ c, c ≠ ⟨n, hn⟩ → (s.flush t n).mag t c = s.mag t c) ∧
      (s.flush t n).pc t = .flush (n + 1) := by
  obtain ⟨loc, l, howned, -, -⟩ := h
  obtain ⟨loc', howned', hglobal, hloc⟩ := howned.donateTop t ⟨n, hn⟩
    (s.mag t ⟨n, hn⟩).length
  rw [List.take_length] at hglobal
  simp only [Pool.flush, dif_pos hn]
  refine ⟨?_, ?_, ?_, by simp [setPc]⟩
  · rintro c x ⟨l', hl', hx⟩
    obtain rfl := Chain.unique hl' (howned.holds c .global)
    refine ⟨loc' (c, .global), howned'.holds c .global, ?_⟩
    by_cases hc : c = ⟨n, hn⟩
    · subst hc
      rw [hglobal]
      exact List.mem_append_right _ hx
    · rw [hloc _ (by simp) (by simp [hc])]
      exact hx
  · intro x hx
    refine ⟨loc' (⟨n, hn⟩, .global), howned'.holds _ .global, ?_⟩
    rw [hglobal]
    exact List.mem_append_left _ hx
  · intro c hc
    exact Blocks.donateTop_mag_of_ne hc _ _ _

theorem Ready.flush {u : T} (h : s.Ready u) (hu : u ≠ t) (n : ℕ) :
    (s.flush t n).Ready u := by
  unfold Pool.flush
  split
  · exact ⟨(Function.update_of_ne hu _ _).trans h.1, h.2⟩
  · exact ⟨(Function.update_of_ne hu _ _).trans h.1,
      (Function.update_of_ne hu _ _).trans h.2⟩

/-- The hook runs to its end and leaves everything on the global stacks. -/
theorem run_flush {n k : ℕ} (h : s.Inv) (hpc : s.pc t = .flush n)
    (hk : n + k = nClasses) :
    ∃ s', (system T).run s (List.replicate (k + 1) (.step t {})) = some s' ∧
      s'.exited t = true ∧ (∀ c x, s.OnGlobal c x → s'.OnGlobal c x) ∧
      (∀ c : Cls, n ≤ c → ∀ x ∈ s.mag t c, s'.OnGlobal c x) ∧
      ∀ u, u ≠ t → s.Ready u → s'.Ready u := by
  have hstep : (system T).step s (.step t {}) = some (s.flush t n) := by
    simp only [system, act, stepThread, hpc]
  induction k generalizing s n with
  | zero =>
      have hn : ¬ n < nClasses := by omega
      refine ⟨s.flush t n, ?_, ?_, ?_, ?_, fun u hu hready => hready.flush hu n⟩
      · rw [List.replicate_succ, TransitionSystem.run, hstep]
        rfl
      · simp [Pool.flush, hn]
      · intro c x hx
        unfold Pool.flush
        rw [dif_neg hn]
        exact hx
      · intro c hc
        have := c.isLt
        omega
  | succ k ih =>
      have hn : n < nClasses := by omega
      obtain ⟨hglobal, hmoved, hrest, hpc'⟩ := h.flush_onGlobal (t := t) hn
      obtain ⟨s', hrun, hexited, hglobal', hmoved', hready⟩ :=
        ih (h.flush hpc) hpc' (by omega)
          (by simp only [system, act, stepThread, hpc'])
      refine ⟨s', ?_, hexited, fun c x hx => hglobal' c x (hglobal c x hx), ?_,
        fun u hu hu' => hready u hu (hu'.flush hu n)⟩
      · rw [List.replicate_succ, TransitionSystem.run, hstep]
        exact hrun
      · intro c hc x hx
        by_cases hcn : c = ⟨n, hn⟩
        · subst hcn
          exact hglobal' _ x (hmoved x hx)
        · have hlt : n + 1 ≤ c.val := by
            have : c.val ≠ n := fun heq => hcn (Fin.ext heq)
            omega
          exact hmoved' c hlt x (by rwa [hrest c hcn])

/-- What a thread has in its magazines when it exits is on the global stacks
afterwards. -/
theorem run_exit {x : ℕ} (h : s.Inv) (hready : s.Ready t)
    (hhook : HookSet s (.exit t)) (hx : x ∈ s.mag t c) :
    ∃ s', (system T).run s
        (.exit t :: List.replicate (nClasses + 1) (.step t {})) = some s' ∧
      s'.exited t = true ∧ s'.OnGlobal c x ∧
      ∀ u, u ≠ t → s.Ready u → s'.Ready u := by
  have hreg : s.registered t = true := by
    refine hhook.resolve_right fun hempty => ?_
    rw [hempty c] at hx
    cases hx
  have hstep : (system T).step s (.exit t) = some (s.setPc t (.flush 0)) := by
    simp only [system, act, if_pos hready, exit, hreg, if_true]
  have hinv : (s.setPc t (.flush 0)).Inv := h.act (a := .exit t) hstep
  obtain ⟨s', hrun, hexited, -, hmoved, hothers⟩ :=
    run_flush (t := t) (n := 0) (k := nClasses) hinv (by simp [setPc])
      (Nat.zero_add _)
  refine ⟨s', ?_, hexited, hmoved c (Nat.zero_le _) x hx, ?_⟩
  · rw [TransitionSystem.run, hstep]
    exact hrun
  · intro u hu hready'
    exact hothers u hu ⟨(Function.update_of_ne hu _ _).trans hready'.1, hready'.2⟩

/-- What is said of a pool whose threads exit. -/
structure NoneLost (s : Pool T) : Prop where
  /-- In the middle of a call, blocks may be on the chain that it has in hand. -/
  kept : ∀ x c, s.carved x = some c → s.Kept c x ∨ s.InTransit c x
  /-- Between calls every block is where it should be. -/
  kept_idle : (∀ t, s.pc t = .idle) → ∀ x c, s.carved x = some c → s.Kept c x
  /-- What is on a global stack can be had by any thread. -/
  global : ∀ c x, s.OnGlobal c x → ∀ u, s.Ready u → s.Obtainable u x
  /-- What a thread had when it exits can be had by another. -/
  exit : ∀ t c x, s.Ready t → HookSet s (.exit t) → x ∈ s.mag t c →
    ∃ s', (system T).run s
        (.exit t :: List.replicate (nClasses + 1) (.step t {})) = some s' ∧
      s'.exited t = true ∧ ∀ u, u ≠ t → s.Ready u → s'.Obtainable u x

omit [DecidableEq T] in
theorem Inv.kept_or_inTransit {x : ℕ} (h : s.Inv) (hclear : s.Cleared)
    (hx : s.carved x = some c) : s.Kept c x ∨ s.InTransit c x := by
  obtain ⟨w, ⟨⟨l, hl, hcount⟩, -⟩, hhand⟩ := h.onePlace hx
  have hmem : x ∈ l := List.count_pos_iff.mp (by omega)
  cases w with
  | live =>
      simp only [BlocksAt, Blocks.Holds, Blocks.liveBlocks] at hl
      rw [hl] at hmem
      obtain ⟨e, he, rfl⟩ := List.mem_map.mp hmem
      exact .inl (.inl ⟨e.2, List.mem_of_mem_filter he⟩)
  | global => exact .inl (.inr (.inr ⟨l, hl, hmem⟩))
  | mag t =>
      have hmag : x ∈ s.mag t c := by rwa [show l = s.mag t c from hl] at hmem
      refine .inl (.inr (.inl ⟨t, ?_, hmag⟩))
      cases hexited : s.exited t with
      | false => rfl
      | true =>
          rw [(hclear.exited t hexited).2 c] at hmag
          cases hmag
  | hand t => exact .inr ⟨t, l, hhand t rfl, hl, hmem⟩

theorem Inv.noneLost (h : s.Inv) (hclear : s.Cleared) : s.NoneLost where
  kept := fun x c hx => h.kept_or_inTransit hclear hx
  kept_idle := by
    intro hidle x c hx
    refine (h.kept_or_inTransit hclear hx).resolve_right ?_
    rintro ⟨t, l, hpc, -⟩
    exact hpc (hidle t)
  global := by
    rintro c x ⟨l, hl, hx⟩ u hu
    exact obtainable hu hl (List.mem_append_right _ hx)
  exit := by
    intro t c x hready hhook hx
    obtain ⟨s', hrun, hexited, ⟨l, hl, hx'⟩, hothers⟩ := run_exit h hready hhook hx
    refine ⟨s', hrun, hexited, fun u hu hu' => ?_⟩
    exact obtainable (hothers u hu hu') hl (List.mem_append_right _ hx')

end Pool

theorem cleared_start [DecidableEq T] : (system T).start.Cleared where
  exited := by
    intro t ht
    cases ht
  flush := by
    intro t n ht
    cases ht

/-- No block is lost as long as every thread that exits with blocks has set the
key. -/
theorem exits_lose_nothing [DecidableEq T] {s : Pool T}
    (h : (system T).ReachableVia HookSet s) : s.NoneLost := by
  refine (reachable_inv h.reachable).noneLost ?_
  exact h.invariant cleared_start fun _ _ _ hs hhook hact => hs.act hhook hact

/-- The last block of the first run. -/
def lastBlock : ℕ :=
  2 * chunkSize + runSize + 7 * 8192

/-- Thread `false` allocates 8192 bytes. -/
def allocated : List (Action Bool) :=
  [.alloc false 8192, .step false {}, .step false {},
    .step false { huge := some (2 * chunkSize) }, .step false {}, .step false {}]

/-- Thread `true` sets the key, frees the block and exits. -/
theorem exits_lose_nothing_registered :
    ∃ s, (system Bool).ReachableVia HookSet s ∧ s.exited true = true ∧
      s.carved lastBlock = some 9 ∧ s.NoneLost := by
  obtain ⟨s₁, s₂, s₃, hrun₁, hreg, hexit, hrun₃, hexited, hcarved⟩ : ∃ s₁ s₂ s₃,
      (system Bool).run {}
        (.threadInit true :: allocated ++ [.free true lastBlock]) = some s₁ ∧
      s₁.registered true = true ∧
      (system Bool).step s₁ (.exit true) = some s₂ ∧
      (system Bool).run s₂ (List.replicate (nClasses + 1) (.step true {})) =
        some s₃ ∧
      s₃.exited true = true ∧ s₃.carved lastBlock = some 9 := by
    refine ⟨_, _, _, rfl, rfl, rfl, rfl, rfl, ?_⟩
    decide +kernel
  have hreach₁ : (system Bool).ReachableVia HookSet s₁ := by
    refine TransitionSystem.ReachableVia.start.run ?_ hrun₁
    simp [allocated, HookSet]
  have hhook : HookSet s₁ (.exit true) := Or.inl hreg
  have hreach₃ : (system Bool).ReachableVia HookSet s₃ := by
    refine (hreach₁.step hhook hexit).run ?_ hrun₃
    intro a ha
    rw [List.eq_of_mem_replicate ha]
    exact fun _ => trivial
  exact ⟨s₃, hreach₃, hexited, hcarved, exits_lose_nothing hreach₃⟩

/-- Thread `true` frees the block and exits without having set the key. -/
theorem freed_block_lost :
    ¬ ∀ s : Pool Bool, (system Bool).Reachable s → (∀ t, s.pc t = .idle) →
      ∀ x c, s.carved x = some c → s.Kept c x := by
  intro h
  obtain ⟨s, hrun, hpc, hcarved, hlive, hmag, hexited, hglobal⟩ :
      ∃ s, (system Bool).run {}
          (allocated ++ [.free true lastBlock, .exit true]) = some s ∧
        (∀ t, s.pc t = .idle) ∧ s.carved lastBlock = some 9 ∧ s.live = [] ∧
        lastBlock ∉ s.mag false 9 ∧ s.exited true = true ∧ s.classes 9 = none := by
    refine ⟨_, rfl, ?_, ?_, ?_, ?_, ?_, ?_⟩
    all_goals decide +kernel
  have hreach := TransitionSystem.Reachable.start.run hrun
  obtain ⟨sz, hmem⟩ | ⟨t, ht, hmem⟩ | ⟨l, hl, hmem⟩ := h s hreach hpc _ _ hcarved
  · rw [hlive] at hmem
    cases hmem
  · cases t with
    | false => exact hmag hmem
    | true =>
        rw [hexited] at ht
        cases ht
  · rw [hglobal, chain_none] at hl
    rw [hl] at hmem
    cases hmem

end Fastbook.BufferPool

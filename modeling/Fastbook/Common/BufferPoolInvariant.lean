import Fastbook.Common.BufferPoolChunks

/-!
# The invariant of the pool

Every thread is at a point of its call that goes with what it has in hand.
`Mid` is the invariant while one thread is in the middle of a step: it says
nothing of that thread's point, only what the thread holds.
-/

namespace Fastbook.BufferPool

open Support

/-! ## What a thread holds -/

def Resume.chunk : Resume → Option ℕ
  | .refill _ cnk => some cnk
  | _ => none

/-- The heads of the chains in the hand of a thread. -/
def Pc.held : Pc → Cls → Option ℕ
  | .spill c head _ _ => handOf c (some head)
  | _ => fun _ => none

/-- The chunk in the hand of a thread. -/
def Pc.chunk : Pc → Option ℕ
  | .spill _ _ _ after => after.chunk
  | .refillClaim _ cnk => some cnk
  | .refillPush _ cnk => some cnk
  | _ => none

def Caller.Small : Caller → Prop
  | .alloc sz => sz ≤ maxClassSize
  | .reserve sz => sz ≤ maxClassSize

/-- The call that goes on after a chain of class `c`. -/
def Resume.Of (c : Cls) : Resume → Prop
  | .pop sz => sz ≤ maxClassSize ∧ c = clsOf sz
  | .refill caller _ => caller.Small
  | .reserve sz => sz ≤ maxClassSize

/-- `pop` goes on with a block in the magazine. -/
def Resume.Served (stk : List ℕ) : Resume → Prop
  | .pop _ => stk ≠ []
  | _ => True

/-- A thread at this point, with its magazines and the chains in its hand. -/
def Pc.Ok (mag : Cls → List ℕ) (header : ℕ → Header) (hand : Cls → List ℕ) :
    Pc → Prop
  | .idle => True
  | .popTake sz _ => sz ≤ maxClassSize ∧ mag (clsOf sz) = []
  | .spill c _ rtail after => rtail ∈ hand c ∧ after.Of c ∧ after.Served (mag c)
  | .refillPop caller => caller.Small
  | .refillMap caller => caller.Small
  | .refillClaim caller cnk => caller.Small ∧ 0 < (header cnk).freeRuns
  | .refillPush caller _ => caller.Small
  | .reserveTake sz => sz ≤ maxClassSize
  | .mapLarge sz => maxClassSize < sz ∧ sz ≤ 2 ^ 40
  | .flush _ => True
  | .fault => False

/-- A point depends on the header of the chunk in hand only. -/
theorem Pc.Ok.congr {mag : Cls → List ℕ} {header header' : ℕ → Header}
    {hand hand' : Cls → List ℕ} {p : Pc} (h : p.Ok mag header hand)
    (hheader : ∀ c, p.chunk = some c → header' c = header c)
    (hhand : ∀ c, hand' c = hand c) : p.Ok mag header' hand' := by
  obtain rfl : hand' = hand := funext hhand
  cases p with
  | refillClaim caller cnk =>
      refine ⟨h.1, ?_⟩
      rw [hheader cnk rfl]
      exact h.2
  | _ => exact h

variable {T : Type*}

namespace Pool

/-- What holds of every state. -/
def Inv (s : Pool T) : Prop :=
  ∃ loc l, s.Owned (fun u => (s.pc u).held) loc ∧
    ArenaInv s.toArena s.carved s.live (fun u => (s.pc u).chunk) l ∧
    ∀ u, (s.pc u).Ok (s.mag u) s.header fun c => loc (c, .hand u)

variable [DecidableEq T]

/-- What holds while thread `t` makes a step. -/
structure Mid (s : Pool T) (t : T) (hand : Cls → Option ℕ) (cnk : Option ℕ)
    (loc : Cls × Where T → List ℕ) (l : List ℕ) : Prop where
  owned : s.Owned (Function.update (fun u => (s.pc u).held) t hand) loc
  arena : ArenaInv s.toArena s.carved s.live
    (Function.update (fun u => (s.pc u).chunk) t cnk) l
  others : ∀ u, u ≠ t →
    (s.pc u).Ok (s.mag u) s.header fun c => loc (c, .hand u)

variable {s : Pool T} {t : T} {hand : Cls → Option ℕ} {cnk : Option ℕ}
  {loc : Cls × Where T → List ℕ} {l : List ℕ} {c : Cls} {sz : ℕ}

/-- A step begins. -/
theorem Inv.mid (h : s.Inv) (t : T) :
    ∃ loc l, s.Mid t (s.pc t).held (s.pc t).chunk loc l ∧
      (s.pc t).Ok (s.mag t) s.header fun c => loc (c, .hand t) := by
  obtain ⟨loc, l, howned, harena, hok⟩ := h
  refine ⟨loc, l, ⟨?_, ?_, fun u _ => hok u⟩, hok t⟩
  · rwa [Function.update_eq_self t fun u => (s.pc u).held]
  · rwa [Function.update_eq_self t fun u => (s.pc u).chunk]

namespace Mid

/-- A step ends. -/
theorem setPc {p : Pc} (h : s.Mid t p.held p.chunk loc l)
    (hok : p.Ok (s.mag t) s.header fun c => loc (c, .hand t)) :
    (s.setPc t p).Inv := by
  have hheld : (fun u => ((s.setPc t p).pc u).held) =
      Function.update (fun u => (s.pc u).held) t p.held := by
    funext u
    by_cases hu : u = t
    · subst hu
      simp [Pool.setPc]
    · simp [Pool.setPc, Function.update_of_ne hu]
  have hchunk : (fun u => ((s.setPc t p).pc u).chunk) =
      Function.update (fun u => (s.pc u).chunk) t p.chunk := by
    funext u
    by_cases hu : u = t
    · subst hu
      simp [Pool.setPc]
    · simp [Pool.setPc, Function.update_of_ne hu]
  refine ⟨loc, l, ?_, ?_, ?_⟩
  · rw [hheld]
    exact h.owned
  · rw [hchunk]
    exact h.arena
  · intro u
    by_cases hu : u = t
    · subst hu
      simpa [Pool.setPc] using hok
    · simpa [Pool.setPc, Function.update_of_ne hu] using h.others u hu

/-- The blocks of the thread are moved. -/
theorem setBlocks {b : Blocks T} {hand' : Cls → Option ℕ}
    {loc' : Cls × Where T → List ℕ} (h : s.Mid t hand cnk loc l)
    (howned : b.Owned (Function.update (fun u => (s.pc u).held) t hand') loc')
    (hcarved : b.carved = s.carved) (hlive : Allocations s.toArena b.live)
    (hmag : ∀ u, u ≠ t → b.mag u = s.mag u)
    (hloc : ∀ u, u ≠ t → ∀ c, loc' (c, .hand u) = loc (c, .hand u)) :
    { s with toBlocks := b }.Mid t hand' cnk loc' l where
  owned := howned
  arena := hcarved ▸ h.arena.setLive hlive
  others := by
    intro u hu
    rw [hmag u hu]
    exact (h.others u hu).congr (fun _ _ => rfl) (hloc u hu)

/-- The chunks are changed, those in the hands of other threads excepted. -/
theorem setArena {a : Arena} {cnk' : Option ℕ} {l' : List ℕ}
    (h : s.Mid t hand cnk loc l)
    (harena : ArenaInv a s.carved s.live
      (Function.update (fun u => (s.pc u).chunk) t cnk') l')
    (hheader : ∀ u, u ≠ t → ∀ c, (s.pc u).chunk = some c →
      a.header c = s.header c) :
    { s with toArena := a }.Mid t hand cnk' loc l' where
  owned := h.owned
  arena := harena
  others := fun u hu => (h.others u hu).congr (hheader u hu) (fun _ => rfl)

/-- The chunk in the hand of another thread is not a new one. -/
theorem chunk_ne_new (h : s.Mid t hand cnk loc l) {u : T} {x y : ℕ}
    (hnew : x ∉ s.chunks) (hu : u ≠ t) (hy : (s.pc u).chunk = some y) :
    y ≠ x := by
  rintro rfl
  refine hnew (h.arena.freeChunks.hand u y ?_).1
  rwa [Function.update_of_ne hu]

/-- The chunk in the hand of another thread is not the one in the thread's
own. -/
theorem chunk_ne_own {x y : ℕ} (h : s.Mid t hand (some x) loc l) {u : T}
    (hu : u ≠ t) (hy : (s.pc u).chunk = some y) : y ≠ x := by
  rintro rfl
  refine hu (h.arena.freeChunks.hand_inj u t y ?_ (Function.update_self ..))
  rwa [Function.update_of_ne hu]

end Mid

/-! ## Actions -/

/-- What a step of a thread does, by the point of its call. -/
inductive Steps (s : Pool T) (t : T) (reply : MapReply) : Pool T → Prop
  | popTake (sz : ℕ) (last : Bool) (hpc : s.pc t = .popTake sz last) :
      Steps s t reply (s.takeBatch t sz last)
  | spill (c : Cls) (head rtail : ℕ) (after : Resume)
      (hpc : s.pc t = .spill c head rtail after) :
      Steps s t reply (s.spill t c head rtail after)
  | refillPop (caller : Caller) (hpc : s.pc t = .refillPop caller) :
      Steps s t reply (s.refillPop t caller)
  | refillMap (caller : Caller) (hpc : s.pc t = .refillMap caller)
      (hreply : reply.Valid s.mapped chunkSize) :
      Steps s t reply (s.refillMap t caller reply)
  | refillClaim (caller : Caller) (cnk : ℕ)
      (hpc : s.pc t = .refillClaim caller cnk) :
      Steps s t reply (s.refillClaim t caller cnk)
  | refillPush (caller : Caller) (cnk : ℕ)
      (hpc : s.pc t = .refillPush caller cnk) :
      Steps s t reply (s.refillPush t caller cnk)
  | reserveTake (sz : ℕ) (hpc : s.pc t = .reserveTake sz) :
      Steps s t reply (s.reserveTake t sz)
  | mapLarge (sz : ℕ) (hpc : s.pc t = .mapLarge sz)
      (hreply : reply.Valid s.mapped (roundToCnkSz (sz + sizeofChunk))) :
      Steps s t reply (s.mapLarge t sz reply)
  | flush (n : ℕ) (hpc : s.pc t = .flush n) : Steps s t reply (s.flush t n)

theorem steps_of_stepThread {s' : Pool T} {reply : MapReply}
    (h : s.stepThread t reply = some s') : s.Steps t reply s' := by
  unfold stepThread at h
  split at h
  · cases h
  · cases h
  · next hpc => exact Option.some.inj h ▸ .popTake _ _ hpc
  · next hpc => exact Option.some.inj h ▸ .spill _ _ _ _ hpc
  · next hpc => exact Option.some.inj h ▸ .refillPop _ hpc
  · next hpc =>
    obtain ⟨hreply, heq⟩ := Option.ite_none_right_eq_some.mp h
    exact Option.some.inj heq ▸ .refillMap _ hpc hreply
  · next hpc => exact Option.some.inj h ▸ .refillClaim _ _ hpc
  · next hpc => exact Option.some.inj h ▸ .refillPush _ _ hpc
  · next hpc => exact Option.some.inj h ▸ .reserveTake _ hpc
  · next hpc =>
    obtain ⟨hreply, heq⟩ := Option.ite_none_right_eq_some.mp h
    exact Option.some.inj heq ▸ .mapLarge _ hpc hreply
  · next hpc => exact Option.some.inj h ▸ .flush _ hpc

/-- What an action does, and when it is possible. -/
inductive Acts (s : Pool T) : Action T → Pool T → Prop
  | alloc (t : T) (sz : ℕ) (hready : s.Ready t) (hsz : sz ≤ 2 ^ 40) :
      Acts s (.alloc t sz) (s.alloc t sz)
  | free (t : T) (ptr : ℕ) (hready : s.Ready t)
      (hmem : ptr ∈ s.live.map Prod.fst) : Acts s (.free t ptr) (s.free t ptr)
  | reserve (t : T) (sz : ℕ) (hready : s.Ready t) (hsz : sz ≤ maxClassSize) :
      Acts s (.reserve t sz) (s.reserve t sz)
  | threadInit (t : T) (hready : s.Ready t) :
      Acts s (.threadInit t) (s.threadInit t)
  | exit (t : T) (hready : s.Ready t) : Acts s (.exit t) (s.exit t)
  | step (t : T) (reply : MapReply) (s' : Pool T)
      (hstep : s.Steps t reply s') : Acts s (.step t reply) s'
  | write (ptr : ℕ) (value : Option ℕ)
      (hmem : ∃ e ∈ s.live, e.1 = ptr ∧ e.2 ≤ maxClassSize) :
      Acts s (.write ptr value)
        { s with next := Function.update s.next ptr value }

theorem acts_of_act {s' : Pool T} {a : Action T} (h : s.act a = some s') :
    s.Acts a s' := by
  cases a with
  | alloc t sz =>
      obtain ⟨⟨hready, hsz⟩, heq⟩ := Option.ite_none_right_eq_some.mp h
      exact Option.some.inj heq ▸ .alloc t sz hready hsz
  | free t ptr =>
      obtain ⟨⟨hready, hmem⟩, heq⟩ := Option.ite_none_right_eq_some.mp h
      exact Option.some.inj heq ▸ .free t ptr hready hmem
  | reserve t sz =>
      obtain ⟨⟨hready, hsz⟩, heq⟩ := Option.ite_none_right_eq_some.mp h
      exact Option.some.inj heq ▸ .reserve t sz hready hsz
  | threadInit t =>
      obtain ⟨hready, heq⟩ := Option.ite_none_right_eq_some.mp h
      exact Option.some.inj heq ▸ .threadInit t hready
  | exit t =>
      obtain ⟨hready, heq⟩ := Option.ite_none_right_eq_some.mp h
      exact Option.some.inj heq ▸ .exit t hready
  | step t reply => exact .step t reply s' (steps_of_stepThread h)
  | write ptr value =>
      obtain ⟨hmem, heq⟩ := Option.ite_none_right_eq_some.mp h
      exact Option.some.inj heq ▸ .write ptr value hmem

end Pool

end Fastbook.BufferPool

import Fastbook.Common.TreiberThreads
import Mathlib.Data.Fintype.Defs

/-!
# The nodes of a stack under threads

The invariant of the runs of `threads`, and what it says of the stacks: the nodes
that can be reached from the head form a list, nobody owns them, and every node is
pushed and handed out in turn.

A `pop` is in danger if the head comes back to what it was, with other nodes behind
it.  The tag prevents this as long as it counts the updates of the head, and
`take_all` is the one operation that may set it back: it takes the tag from an
earlier load, whatever the exchange then finds.
-/

namespace Fastbook.TreiberStack

open Support

variable {P T : Type} {policy : TagPolicy P}

theorem TagPolicy.tag_pack_succ (p : Option P) (r : policy.Repr) :
    (policy.tag (policy.pack p (policy.tag r + 1))).toNat ≡
      (policy.tag r).toNat + 1 [MOD 2 ^ policy.bits] := by
  have hdvd : 2 ^ policy.bits ∣ 2 ^ 64 := Nat.pow_dvd_pow 2 policy.bits_le
  rw [policy.tag_pack, UInt64.toNat_add, UInt64.toNat_one]
  unfold Nat.ModEq
  rw [Nat.mod_mod, Nat.mod_mod_of_dvd _ hdvd]

/-- What has happened to a node, last first, if it is pushed and handed out in
turn, and whether it is on the stack now. -/
def Alternates : List Event → Bool → Prop
  | [], on => on = false
  | .pushed :: events, on => on = true ∧ Alternates events false
  | .handed :: events, on => on = false ∧ Alternates events true

/-- Between the load of the head and the compare-and-exchange of a `pop`. -/
def Pc.Popping : Pc policy → Prop
  | .pop _ _ => True
  | .popCas _ _ _ _ => True
  | _ => False

namespace Threads

variable {s s' : Threads policy T} {l chain : List P} {t u : T} {n : P}
  {old : policy.Repr} {loaded : ℕ}

/-- What the head says about a load: the tag has counted the updates since. -/
structure Since (s : Threads policy T) (old : policy.Repr) (loaded : ℕ) : Prop where
  tagged : policy.tagged
  le : loaded ≤ s.updates
  tag : (policy.tag s.head).toNat ≡
    (policy.tag old).toNat + (s.updates - loaded) [MOD 2 ^ policy.bits]
  head : s.updates = loaded → s.head = old

def PcInv (s : Threads policy T) (t : T) : Pc policy → Prop
  | .idle => True
  | .push chain _ => s.OwnedChain t chain
  | .pushCas chain old => s.OwnedChain t chain ∧
      ∀ last, chain.getLast? = some last → s.next last = policy.ptr old
  | .pop old loaded => s.Since old loaded
  | .popCas old n nxt loaded => s.Since old loaded ∧ policy.ptr old = some n ∧
      (s.updates = loaded → s.next n = nxt)
  | .takeAll _ => True

/-- A `pop` that has just loaded the head. -/
theorem Since.now (htagged : policy.tagged) : s.Since s.head s.updates := by
  refine ⟨htagged, Nat.le_refl _, ?_, fun _ => rfl⟩
  rw [Nat.sub_self]
  exact .rfl

/-- The head that a `pop` finds again is the one it loaded, with nothing in
between. -/
theorem Since.updates_eq (h : s.Since s.head loaded)
    (hlt : s.updates - loaded < 2 ^ policy.bits) : s.updates = loaded := by
  have htag := h.tag
  have hle := h.le
  have hzero : s.updates - loaded ≡ 0 [MOD 2 ^ policy.bits] :=
    (Nat.ModEq.add_left_cancel' _ (htag.trans rfl)).symm
  have hmod : s.updates - loaded = 0 := by
    rw [← Nat.mod_eq_of_lt hlt]
    exact hzero
  omega

theorem OwnedChain.congr (h : s.OwnedChain t chain)
    (howner : ∀ n, s.owner n = some t → s'.owner n = some t)
    (hnext : ∀ n, s.owner n = some t → s'.next n = s.next n) :
    s'.OwnedChain t chain := by
  obtain ⟨hne, hnodup, howned, hlinked⟩ := h
  exact ⟨hne, hnodup, fun n hn => howner n (howned n hn),
    hlinked.congr fun n hn => hnext n (howned n hn)⟩

/-- A thread does not notice what happens to nodes that are neither its own nor on
the stack. -/
theorem PcInv.congr {pc : Pc policy} (h : s.PcInv u pc)
    (hchain : Chain s.next (policy.ptr s.head) l) (hhead : s'.head = s.head)
    (hupdates : s'.updates = s.updates)
    (howner : ∀ n, s.owner n = some u → s'.owner n = some u)
    (hnext : ∀ n, s.owner n = some u ∨ n ∈ l → s'.next n = s.next n) :
    s'.PcInv u pc := by
  have hsince : ∀ {old loaded}, s.Since old loaded → s'.Since old loaded := by
    intro old loaded hs
    refine ⟨hs.tagged, ?_, ?_, ?_⟩
    · rw [hupdates]
      exact hs.le
    · rw [hupdates, hhead]
      exact hs.tag
    · rw [hupdates, hhead]
      exact hs.head
  cases pc with
  | idle => trivial
  | push => exact OwnedChain.congr h howner fun n hn => hnext n (.inl hn)
  | pushCas chain old =>
    obtain ⟨hown, hlast⟩ := h
    refine ⟨hown.congr howner fun n hn => hnext n (.inl hn), ?_⟩
    intro last hl
    rw [hnext last (.inl (hown.2.2.1 last (List.mem_of_getLast? hl)))]
    exact hlast last hl
  | pop => exact hsince h
  | popCas old n nxt loaded =>
    obtain ⟨hs, hptr, hread⟩ := h
    refine ⟨hsince hs, hptr, ?_⟩
    intro heq
    rw [hupdates] at heq
    -- nothing has happened since the load, so the node is the first one
    have hmem : n ∈ l := by
      have hfirst := hchain.head_eq
      rw [hs.head heq, hptr] at hfirst
      exact List.mem_of_mem_head? hfirst.symm
    rw [hnext n (.inr hmem)]
    exact hread heq
  | takeAll => trivial

/-- If a `pop` is about to exchange the head, the tag cannot have come round since
it was loaded. -/
def InWindow (s : Threads policy T) : Pc policy → Prop
  | .popCas _ _ _ loaded => s.updates - loaded < 2 ^ policy.bits
  | _ => True

/-- If a `take_all` is about to exchange the head, it finds the tag that it loaded,
or no `pop` under way. -/
def InStep (s : Threads policy T) : Pc policy → Prop
  | .takeAll old => policy.tag s.head = policy.tag old ∨ ∀ u, ¬ (s.pc u).Popping
  | _ => True

/-- What the steps must not run into. -/
def Guarded (s : Threads policy T) : Action P T → Prop
  | .cas t _ => s.InWindow (s.pc t)
  | .exchange t _ => s.InStep (s.pc t)
  | _ => True

/-- Only `push` and `pop` are called, and fewer than `2 ^ bits` updates of the head
succeed between the load of a `pop` and its compare-and-exchange. -/
def PushPop (s : Threads policy T) : Action P T → Prop
  | .pushChain _ _ => False
  | .takeAll _ => False
  | .exchange _ _ => False
  | .cas t _ => s.InWindow (s.pc t)
  | _ => True

theorem PushPop.guarded {a : Action P T} (h : s.PushPop a) : s.Guarded a := by
  cases a with
  | exchange => cases h
  | cas => exact h
  | _ => trivial

section Decidable

instance (pc : Pc policy) : Decidable pc.Popping :=
  match pc with
  | .pop _ _ | .popCas _ _ _ _ => isTrue trivial
  | .idle | .push _ _ | .pushCas _ _ | .takeAll _ => isFalse id

instance (s : Threads policy T) (pc : Pc policy) : Decidable (s.InWindow pc) :=
  match pc with
  | .popCas _ _ _ loaded => inferInstanceAs (Decidable (s.updates - loaded < _))
  | .idle | .push _ _ | .pushCas _ _ | .pop _ _ | .takeAll _ => isTrue trivial

instance [Fintype T] (s : Threads policy T) (pc : Pc policy) : Decidable (s.InStep pc) :=
  match pc with
  | .takeAll old => inferInstanceAs (Decidable (policy.tag s.head = policy.tag old ∨
      ∀ u, ¬ (s.pc u).Popping))
  | .idle | .push _ _ | .pushCas _ _ | .pop _ _ | .popCas _ _ _ _ => isTrue trivial

instance [Fintype T] (s : Threads policy T) (a : Action P T) : Decidable (s.Guarded a) :=
  match a with
  | .cas t _ => inferInstanceAs (Decidable (s.InWindow (s.pc t)))
  | .exchange t _ => inferInstanceAs (Decidable (s.InStep (s.pc t)))
  | .push _ _ | .pushChain _ _ | .pop _ | .takeAll _ | .link _ | .readNext _
  | .write _ _ _ | .give _ _ _ => isTrue trivial

instance (s : Threads policy T) (a : Action P T) : Decidable (s.PushPop a) :=
  match a with
  | .cas t _ => inferInstanceAs (Decidable (s.InWindow (s.pc t)))
  | .pushChain _ _ | .takeAll _ | .exchange _ _ => isFalse id
  | .push _ _ | .pop _ | .link _ | .readNext _ | .write _ _ _ | .give _ _ _ =>
    isTrue trivial

end Decidable

variable [DecidableEq P]

/-- The nodes of the stack are those of the list, each once, and nobody owns them;
and no node is handed out twice for one push. -/
structure Intact (s : Threads policy T) (l : List P) : Prop where
  chain : Chain s.next (policy.ptr s.head) l
  nodup : l.Nodup
  apart : ∀ n ∈ l, ∀ t, s.owner n ≠ some t
  history : ∀ n, Alternates (s.history n) (decide (n ∈ l))

/-- The call of the thread is over, and the nodes have changed hands. -/
structure Moved [DecidableEq T] (s : Threads policy T) (t : T) (nodes : List P)
    (owner : Option T) (e : Event) (s' : Threads policy T) : Prop where
  pc : s'.pc = Function.update s.pc t .idle
  owner : ∀ n, s'.owner n = if n ∈ nodes then owner else s.owner n
  history : ∀ n, s'.history n = if n ∈ nodes then e :: s.history n else s.history n

/-- The stack stays as it is. -/
structure Quiet (s : Threads policy T) (l : List P) (s' : Threads policy T)
    (l' : List P) : Prop where
  nodes : l' = l
  head : s'.head = s.head
  owner : ∀ n ∈ l, s'.owner n = s.owner n
  history : s'.history = s.history

/-- Where the call of a client begins, with the head loaded. -/
def entered (s : Threads policy T) : Action P T → Pc policy
  | .push _ n => .push [n] s.head
  | .pushChain _ chain => .push chain s.head
  | .pop _ => .pop s.head s.updates
  | .takeAll _ => .takeAll s.head
  | _ => .idle

/-- What a step does to the nodes of the stack.  A compare-and-exchange that
succeeds and the exchange do the whole operation at once: a push puts the nodes that
it was given before the others, and `pop` and `take_all` hand out the nodes that they
take off.  No other step does anything to them. -/
def Effect [DecidableEq T] (s : Threads policy T) (l : List P) (a : Action P T)
    (s' : Threads policy T) (l' : List P) : Prop :=
  match s.pc (thread a), a with
  | .idle, a => s.Quiet l s' l' ∧ s'.pc = Function.update s.pc (thread a) (s.entered a)
  | .pushCas chain old, .cas t spurious =>
    if s.head = old ∧ spurious = false then
      l' = chain ++ l ∧ (∀ n ∈ chain, s.owner n = some t) ∧
      s.Moved t chain none .pushed s' ∧
      ∃ first last, chain.head? = some first ∧ chain.getLast? = some last ∧
        pushChain s.next (policy.ptr s.head) first last = (s'.next, policy.ptr s'.head)
    else s.Quiet l s' l'
  | .popCas old n _ _, .cas t spurious =>
    if s.head = old ∧ spurious = false then
      l = n :: l' ∧ s.Moved t [n] (some t) .handed s' ∧
      TreiberStack.pop s.next (policy.ptr s.head) = (some n, policy.ptr s'.head)
    else s.Quiet l s' l'
  | .takeAll _, .exchange t taken =>
    taken = l ∧ l' = [] ∧ s.Moved t l (some t) .handed s' ∧
    TreiberStack.takeAll (policy.ptr s.head) = (l.head?, policy.ptr s'.head)
  | _, _ => s.Quiet l s' l'

structure Inv (s : Threads policy T) (l : List P) : Prop extends Intact s l where
  threads : ∀ t, s.PcInv t (s.pc t)

/-- The nodes of the stack are not those of a thread. -/
theorem Inv.ne_of_owner (h : s.Inv l) (hn : s.owner n = some t) : ∀ m ∈ l, m ≠ n := by
  rintro m hm rfl
  exact h.apart m hm t hn

/-- Without tag bits there is no `pop`, and the tags are all the same. -/
theorem Inv.guarded_of_untagged (h : s.Inv l) (hbits : policy.bits = 0)
    (a : Action P T) : s.Guarded a := by
  have htagged : ¬ policy.tagged := by simp [TagPolicy.tagged, hbits]
  have hzero : ∀ r, policy.tag r = 0 := by
    intro r
    have hlt := policy.tag_lt r
    rw [hbits] at hlt
    exact UInt64.toNat_inj.mp (by simpa using hlt)
  cases a with
  | cas t spurious =>
    have hpc := h.threads t
    rw [Guarded]
    cases heq : s.pc t with
    | popCas =>
      rw [heq] at hpc
      exact absurd hpc.1.tagged htagged
    | _ => trivial
  | exchange t taken =>
    rw [Guarded]
    cases s.pc t with
    | takeAll old => exact .inl ((hzero _).trans (hzero old).symm)
    | _ => trivial
  | _ => trivial

variable [DecidableEq T]

/-! ## Steps that leave the head -/

theorem Inv.goto (h : s.Inv l) {pc : Pc policy} (hpc : s.PcInv t pc) :
    (s.goto t pc).Inv l := by
  refine ⟨⟨h.chain, h.nodup, h.apart, h.history⟩, ?_⟩
  intro u
  have hsame : ∀ q, s.PcInv u q → (s.goto t pc).PcInv u q := by
    intro q hq
    cases q with
    | idle => trivial
    | push => exact hq
    | pushCas => exact hq
    | pop => exact ⟨hq.tagged, hq.le, hq.tag, hq.head⟩
    | popCas =>
      obtain ⟨hsince, hrest⟩ := hq
      exact ⟨⟨hsince.tagged, hsince.le, hsince.tag, hsince.head⟩, hrest⟩
    | takeAll => trivial
  by_cases hut : u = t
  · subst hut
    rw [goto_pc_self]
    exact hsame _ hpc
  · rw [goto_pc_of_ne _ _ hut]
    exact hsame _ (h.threads u)

/-- A thread writes to a node of its own. -/
theorem Inv.write (h : s.Inv l) (hn : s.owner n = some t) (nxt : Option P)
    (hpc : { s with next := Function.update s.next n nxt }.PcInv t (s.pc t)) :
    { s with next := Function.update s.next n nxt }.Inv l := by
  have hne := h.ne_of_owner hn
  refine ⟨⟨?_, h.nodup, h.apart, h.history⟩, ?_⟩
  · exact h.chain.congr fun m hm => Function.update_of_ne (hne m hm) _ _
  · intro u
    by_cases hut : u = t
    · subst hut
      exact hpc
    · refine (h.threads u).congr h.chain rfl rfl (fun _ hm => hm) ?_
      intro m hm
      refine Function.update_of_ne ?_ _ _
      rintro rfl
      rcases hm with hm | hm
      · exact hut (Option.some.inj (hm.symm.trans hn))
      · exact hne m hm rfl

theorem Inv.give (h : s.Inv l) (hn : s.owner n = some t) (hidle : s.pc t = .idle) (u : T) :
    { s with owner := Function.update s.owner n (some u) }.Inv l := by
  have hne := h.ne_of_owner hn
  refine ⟨⟨h.chain, h.nodup, ?_, h.history⟩, ?_⟩
  · intro m hm v
    have hm' : Function.update s.owner n (some u) m = s.owner m :=
      Function.update_of_ne (hne m hm) _ _
    exact fun hv => h.apart m hm v (hm'.symm.trans hv)
  · intro v
    by_cases hvt : v = t
    · subst hvt
      rw [hidle]
      trivial
    · refine (h.threads v).congr h.chain rfl rfl ?_ fun _ _ => rfl
      intro m hm
      have hmn : m ≠ n := by
        rintro rfl
        exact hvt (Option.some.inj (hm.symm.trans hn))
      exact (Function.update_of_ne hmn _ _).trans hm

/-! ## Updates of the head -/

theorem Since.commit (h : s.Since old loaded) {head : policy.Repr} {nodes : List P}
    {owner : Option T} {e : Event}
    (htag : (policy.tag head).toNat ≡ (policy.tag s.head).toNat + 1
      [MOD 2 ^ policy.bits]) :
    (s.commit t head nodes owner e).Since old loaded := by
  have hle := h.le
  refine ⟨h.tagged, Nat.le_succ_of_le hle, ?_, ?_⟩
  · have hsub : s.updates + 1 - loaded = s.updates - loaded + 1 := by omega
    change (policy.tag head).toNat ≡
      (policy.tag old).toNat + (s.updates + 1 - loaded) [MOD 2 ^ policy.bits]
    rw [hsub, ← Nat.add_assoc]
    exact htag.trans (h.tag.add_right 1)
  · intro heq
    change s.updates + 1 = loaded at heq
    omega

/-- The other threads after an update of the head.  The nodes that change hands were
not theirs. -/
theorem PcInv.commit {pc : Pc policy} (h : s.PcInv u pc) {head : policy.Repr}
    {nodes : List P} {owner : Option T} {e : Event}
    (hnodes : ∀ n ∈ nodes, s.owner n ≠ some u)
    (htag : pc.Popping → (policy.tag head).toNat ≡ (policy.tag s.head).toNat + 1
      [MOD 2 ^ policy.bits]) :
    (s.commit t head nodes owner e).PcInv u pc := by
  have howner : ∀ n, s.owner n = some u →
      (s.commit t head nodes owner e).owner n = some u := by
    intro n hn
    have hmem : n ∉ nodes := fun hmem => hnodes n hmem hn
    exact (if_neg hmem).trans hn
  cases pc with
  | idle => trivial
  | push => exact OwnedChain.congr h howner fun _ _ => rfl
  | pushCas chain old => exact ⟨h.1.congr howner fun _ _ => rfl, h.2⟩
  | pop => exact Since.commit h (htag trivial)
  | popCas old n nxt loaded =>
    obtain ⟨hs, hptr, -⟩ := h
    refine ⟨hs.commit (htag trivial), hptr, ?_⟩
    intro heq
    -- the head has been updated since the load
    have hle := hs.le
    change s.updates + 1 = loaded at heq
    omega
  | takeAll => trivial

/-- An update keeps the invariant if it leaves a list of nodes that nobody owns, and
the tag goes on counting for the calls of `pop` under way. -/
theorem Inv.commit (h : s.Inv l) {head : policy.Repr} {nodes l' : List P}
    {owner : Option T} {e : Event}
    (hchain : Chain s.next (policy.ptr head) l') (hnodup : l'.Nodup)
    (hnodes : ∀ n ∈ nodes, ∀ u, u ≠ t → s.owner n ≠ some u)
    (hapart : ∀ n ∈ l', ∀ u, (s.commit t head nodes owner e).owner n ≠ some u)
    (hhistory : ∀ n,
      Alternates ((s.commit t head nodes owner e).history n) (decide (n ∈ l')))
    (htag : ∀ u, (s.pc u).Popping → (policy.tag head).toNat ≡
      (policy.tag s.head).toNat + 1 [MOD 2 ^ policy.bits]) :
    (s.commit t head nodes owner e).Inv l' := by
  refine ⟨⟨hchain, hnodup, hapart, hhistory⟩, ?_⟩
  intro u
  by_cases hut : u = t
  · subst hut
    have hidle : (s.commit u head nodes owner e).pc u = .idle :=
      Function.update_self _ _ _
    rw [hidle]
    trivial
  · have hsame : (s.commit t head nodes owner e).pc u = s.pc u :=
      Function.update_of_ne hut _ _
    rw [hsame]
    exact (h.threads u).commit (fun n hn => hnodes n hn u hut) (htag u)

/-- A chain that is linked to the head it replaces. -/
theorem Inv.pushed (h : s.Inv l) (hpc : s.pc t = .pushCas chain s.head) :
    (s.commit t (policy.pack chain.head? (policy.tag s.head + 1)) chain none
      .pushed).Inv (chain ++ l) := by
  have hinv := h.threads t
  rw [hpc] at hinv
  obtain ⟨⟨hne, hnodup, howned, hlinked⟩, hlink⟩ := hinv
  have hdisjoint : ∀ n ∈ chain, n ∉ l :=
    fun n hn hl => h.apart n hl t (howned n hn)
  apply h.commit
  · obtain ⟨last, hlast⟩ := Option.ne_none_iff_exists'.mp
      (mt List.getLast?_eq_none_iff.mp hne)
    rw [policy.ptr_pack]
    apply hlinked.chain_append hlast
    rw [hlink last hlast]
    exact h.chain
  · refine List.nodup_append.mpr ⟨hnodup, h.nodup, ?_⟩
    rintro n hn _ hl rfl
    exact hdisjoint n hn hl
  · intro n hn u hut hu
    exact hut (Option.some.inj (hu.symm.trans (howned n hn)))
  · intro n hn u
    by_cases hmem : n ∈ chain
    · simp [Threads.commit, hmem]
    · have hl := (List.mem_append.mp hn).resolve_left hmem
      simpa [Threads.commit, hmem] using h.apart n hl u
  · intro n
    have hold := h.history n
    by_cases hmem : n ∈ chain
    · have hl := hdisjoint n hmem
      simpa [Threads.commit, hmem, hl, Alternates] using hold
    · simpa [Threads.commit, hmem] using hold
  · intro u _
    exact policy.tag_pack_succ _ _

/-- The first node, with the link that it has now. -/
theorem Inv.popped (h : s.Inv l) (hfirst : policy.ptr s.head = some n) :
    (s.commit t (policy.pack (s.next n) (policy.tag s.head + 1)) [n] (some t)
      .handed).Inv l.tail := by
  have hchain := h.chain
  cases l with
  | nil =>
    rw [chain_nil, hfirst] at hchain
    cases hchain
  | cons m l =>
    obtain ⟨hm, hrest⟩ := hchain
    obtain rfl : n = m := Option.some.inj (hfirst.symm.trans hm)
    have hnodup := List.nodup_cons.mp h.nodup
    rw [List.tail_cons]
    apply h.commit
    · rw [policy.ptr_pack]
      exact hrest
    · exact hnodup.2
    · intro k hk u _
      rw [List.mem_singleton.mp hk]
      exact h.apart n List.mem_cons_self u
    · intro k hk u
      have hne : k ≠ n := ne_of_mem_of_not_mem hk hnodup.1
      simpa [Threads.commit, hne] using h.apart k (List.mem_cons_of_mem _ hk) u
    · intro k
      have hold := h.history k
      by_cases hk : k = n
      · subst hk
        simpa [Threads.commit, hnodup.1, Alternates] using hold
      · simpa [Threads.commit, hk] using hold
    · intro u _
      exact policy.tag_pack_succ _ _

/-- All nodes, if the tag goes on counting or nobody counts on it. -/
theorem Inv.taken (h : s.Inv l)
    (htag : policy.tag s.head = policy.tag old ∨ ∀ u, ¬ (s.pc u).Popping) :
    (s.commit t (policy.pack none (policy.tag old + 1)) l (some t) .handed).Inv [] := by
  apply h.commit
  · rw [policy.ptr_pack]
    rfl
  · exact List.nodup_nil
  · intro n hn u _
    exact h.apart n hn u
  · intro n hn
    cases hn
  · intro n
    have hold := h.history n
    by_cases hn : n ∈ l
    · simpa [Threads.commit, hn, Alternates] using hold
    · simpa [Threads.commit, hn] using hold
  · intro u hu
    rcases htag with htag | hnone
    · rw [htag]
      exact policy.tag_pack_succ _ _
    · exact absurd hu (hnone u)

/-! ## Runs -/

theorem Inv.client (h : s.Inv l) {a : Action P T} (hidle : s.pc (thread a) = .idle)
    (hstep : s.client a = some s') : s'.Inv l := by
  cases a with
  | push t n =>
    rw [Threads.client] at hstep
    split at hstep
    · next hn =>
      cases hstep
      refine h.goto ⟨List.cons_ne_nil _ _, List.nodup_singleton n, ?_, .singleton n⟩
      simpa using hn
    · cases hstep
  | pushChain t chain =>
    rw [Threads.client] at hstep
    split at hstep
    · next hown =>
      cases hstep
      exact h.goto hown
    · cases hstep
  | pop t =>
    rw [Threads.client] at hstep
    split at hstep
    · next htagged =>
      cases hstep
      exact h.goto (Since.now htagged)
    · cases hstep
  | takeAll t =>
    cases hstep
    exact h.goto trivial
  | link t => cases hstep
  | readNext t => cases hstep
  | cas t spurious => cases hstep
  | exchange t taken => cases hstep
  | write t n nxt =>
    rw [Threads.client] at hstep
    split at hstep
    · next hn =>
      cases hstep
      refine h.write hn nxt ?_
      change s.pc t = .idle at hidle
      rw [hidle]
      trivial
    · cases hstep
  | give t u n =>
    rw [Threads.client] at hstep
    split at hstep
    · next hn =>
      cases hstep
      exact h.give hn hidle u
    · cases hstep

theorem Inv.link (h : s.Inv l) {last : P} (hpc : s.pc t = .push chain old)
    (hlast : chain.getLast? = some last) :
    { s.goto t (.pushCas chain old) with
      next := Function.update s.next last (policy.ptr old) }.Inv l := by
  have hown := h.threads t
  rw [hpc] at hown
  obtain ⟨hne, hnodup, howned, hlinked⟩ := hown
  have hlinked' := hlinked.update_last hnodup hlast (policy.ptr old)
  have hwritten := h.write (howned last (List.mem_of_getLast? hlast)) (policy.ptr old)
    (by rw [hpc]; exact ⟨hne, hnodup, howned, hlinked'⟩)
  refine hwritten.goto ⟨⟨hne, hnodup, howned, hlinked'⟩, ?_⟩
  intro m hm
  obtain rfl : last = m := Option.some.inj (hlast.symm.trans hm)
  exact Function.update_self _ _ _

theorem Inv.readNext (h : s.Inv l) (hpc : s.pc t = .pop old loaded)
    (hptr : policy.ptr old = some n) :
    (s.goto t (.popCas old n (s.next n) loaded)).Inv l := by
  have hsince := h.threads t
  rw [hpc] at hsince
  exact h.goto ⟨hsince, hptr, fun _ => rfl⟩

theorem commit_moved (s : Threads policy T) (t : T) (head : policy.Repr)
    (nodes : List P) (owner : Option T) (e : Event) :
    s.Moved t nodes owner e (s.commit t head nodes owner e) :=
  ⟨rfl, fun _ => rfl, fun _ => rfl⟩

omit [DecidableEq P] in
theorem goto_quiet (s : Threads policy T) (l : List P) (t : T) (pc : Pc policy) :
    s.Quiet l (s.goto t pc) l :=
  ⟨rfl, rfl, fun _ _ => rfl, rfl⟩

theorem Inv.client_quiet (h : s.Inv l) {a : Action P T} (hidle : s.pc (thread a) = .idle)
    (hstep : s.client a = some s') :
    s.Quiet l s' l ∧ s'.pc = Function.update s.pc (thread a) (s.entered a) := by
  have hstays : s.pc = Function.update s.pc (thread a) .idle := by
    rw [← hidle, Function.update_eq_self]
  unfold Threads.client at hstep
  split at hstep
  · split at hstep
    · cases hstep
      exact ⟨goto_quiet s l _ _, rfl⟩
    · cases hstep
  · split at hstep
    · cases hstep
      exact ⟨goto_quiet s l _ _, rfl⟩
    · cases hstep
  · split at hstep
    · cases hstep
      exact ⟨goto_quiet s l _ _, rfl⟩
    · cases hstep
  · cases hstep
    exact ⟨goto_quiet s l _ _, rfl⟩
  · split at hstep
    · cases hstep
      exact ⟨⟨rfl, rfl, fun _ _ => rfl, rfl⟩, hstays⟩
    · cases hstep
  · next t u n =>
    split at hstep
    · next hn =>
      cases hstep
      have hne := h.ne_of_owner hn
      exact ⟨⟨rfl, rfl, fun m hm => Function.update_of_ne (hne m hm) _ _, rfl⟩, hstays⟩
    · cases hstep
  · cases hstep

theorem Inv.pushCas (h : s.Inv l) {spurious : Bool} (hpc : s.pc t = .pushCas chain old) :
    ∃ l', (s.pushCas t spurious chain old).Inv l' ∧
      s.Effect l (.cas t spurious) (s.pushCas t spurious chain old) l' := by
  have hthread : s.pc (thread (.cas t spurious : Action P T)) = .pushCas chain old := hpc
  have hown := h.threads t
  rw [hpc] at hown
  obtain ⟨hchain, hlink⟩ := hown
  unfold Effect
  rw [hthread]
  unfold Threads.pushCas
  by_cases hsame : s.head = old ∧ spurious = false
  · simp only [if_pos hsame]
    obtain ⟨rfl, -⟩ := hsame
    refine ⟨_, h.pushed hpc, rfl, hchain.2.2.1, commit_moved _ _ _ _ _ _, ?_⟩
    obtain ⟨first, hfirst⟩ := Option.ne_none_iff_exists'.mp
      (mt List.head?_eq_none_iff.mp hchain.1)
    obtain ⟨last, hlast⟩ := Option.ne_none_iff_exists'.mp
      (mt List.getLast?_eq_none_iff.mp hchain.1)
    refine ⟨first, last, hfirst, hlast, ?_⟩
    -- the last node has been linked to the head before
    simp only [pushChain, Threads.commit, policy.ptr_pack, hfirst]
    rw [← hlink last hlast, Function.update_eq_self]
  · simp only [if_neg hsame]
    exact ⟨l, h.goto hchain, goto_quiet s l _ _⟩

theorem Inv.popCas (h : s.Inv l) {spurious : Bool} {nxt : Option P}
    (hpc : s.pc t = .popCas old n nxt loaded)
    (hlt : s.updates - loaded < 2 ^ policy.bits) :
    ∃ l', (s.popCas t spurious old n nxt).Inv l' ∧
      s.Effect l (.cas t spurious) (s.popCas t spurious old n nxt) l' := by
  have hthread : s.pc (thread (.cas t spurious : Action P T)) = .popCas old n nxt loaded :=
    hpc
  have hinv := h.threads t
  rw [hpc] at hinv
  obtain ⟨hsince, hptr, hread⟩ := hinv
  unfold Effect
  rw [hthread]
  unfold Threads.popCas
  by_cases hsame : s.head = old ∧ spurious = false
  · simp only [if_pos hsame]
    obtain ⟨rfl, -⟩ := hsame
    rw [← hread (hsince.updates_eq hlt)]
    refine ⟨_, h.popped hptr, ?_, commit_moved _ _ _ _ _ _, ?_⟩
    · have hfirst := h.chain.head_eq
      rw [hptr] at hfirst
      exact (List.cons_head?_tail hfirst.symm).symm
    · simp [TreiberStack.pop, hptr, Threads.commit, policy.ptr_pack]
  · simp only [if_neg hsame]
    exact ⟨l, h.goto (Since.now hsince.tagged), goto_quiet s l _ _⟩

theorem Inv.exchange (h : s.Inv l) {taken : List P} (hpc : s.pc t = .takeAll old)
    (htag : policy.tag s.head = policy.tag old ∨ ∀ u, ¬ (s.pc u).Popping)
    (hstep : s.exchange t taken old = some s') :
    ∃ l', s'.Inv l' ∧ s.Effect l (.exchange t taken) s' l' := by
  have hthread : s.pc (thread (.exchange t taken)) = .takeAll old := hpc
  unfold Effect
  rw [hthread]
  unfold Threads.exchange at hstep
  split at hstep
  · next hchain =>
    cases hstep
    obtain rfl := h.chain.unique hchain
    refine ⟨[], h.taken htag, rfl, rfl, commit_moved _ _ _ _ _ _, ?_⟩
    rw [TreiberStack.takeAll, h.chain.head_eq]
    simp [Threads.commit, policy.ptr_pack]
  · cases hstep

/-- Every step keeps the stack intact and does its part. -/
theorem Inv.step (h : s.Inv l) {a : Action P T} (hguard : s.Guarded a)
    (hstep : s.step a = some s') : ∃ l', s'.Inv l' ∧ s.Effect l a s' l' := by
  unfold Threads.step at hstep
  split at hstep
  · next hidle =>
    refine ⟨l, h.client hidle hstep, ?_⟩
    unfold Effect
    rw [hidle]
    exact h.client_quiet hidle hstep
  · next chain old t hpc =>
    split at hstep
    · cases hstep
    · next last hlast =>
      cases hstep
      refine ⟨l, h.link hpc hlast, ?_⟩
      unfold Effect
      rw [hpc]
      exact ⟨rfl, rfl, fun _ _ => rfl, rfl⟩
  · next chain old t spurious hpc =>
    cases hstep
    exact h.pushCas hpc
  · next old loaded t hpc =>
    have heffect : ∀ pc, s.Effect l (.readNext t) (s.goto t pc) l := by
      intro pc
      unfold Effect
      rw [hpc]
      exact goto_quiet s l t pc
    split at hstep
    · cases hstep
      exact ⟨l, h.goto trivial, heffect _⟩
    · next n hptr =>
      cases hstep
      exact ⟨l, h.readNext hpc hptr, heffect _⟩
  · next old n nxt loaded t spurious hpc =>
    cases hstep
    change s.pc t = _ at hpc
    rw [Guarded, hpc] at hguard
    exact h.popCas hpc hguard
  · next old t taken hpc =>
    change s.pc t = _ at hpc
    rw [Guarded, hpc] at hguard
    exact h.exchange hpc hguard hstep
  · cases hstep

/-- A call is never stuck: the exchange of `take_all`, say, takes the nodes of the
list. -/
theorem Inv.not_stuck (h : s.Inv l) (hcall : s.pc t ≠ .idle) :
    ∃ a, thread a = t ∧ (s.step a).isSome := by
  have hinv := h.threads t
  cases hpc : s.pc t with
  | idle => exact absurd hpc hcall
  | push chain old =>
    rw [hpc] at hinv
    obtain ⟨last, hlast⟩ := Option.ne_none_iff_exists'.mp
      (mt List.getLast?_eq_none_iff.mp hinv.1)
    refine ⟨.link t, rfl, ?_⟩
    simp [Threads.step, thread, hpc, hlast]
  | pushCas chain old =>
    refine ⟨.cas t false, rfl, ?_⟩
    simp [Threads.step, thread, hpc]
  | pop old loaded =>
    refine ⟨.readNext t, rfl, ?_⟩
    cases hptr : policy.ptr old <;> simp [Threads.step, thread, hpc, hptr]
  | popCas old n nxt loaded =>
    refine ⟨.cas t false, rfl, ?_⟩
    simp [Threads.step, thread, hpc]
  | takeAll old =>
    refine ⟨.exchange t l, rfl, ?_⟩
    simp [Threads.step, thread, hpc, Threads.exchange, h.chain]

theorem inv_start (next : P → Option P) (owner : P → Option T) :
    (threads policy next owner).start.Inv [] := by
  refine ⟨⟨policy.ptr_pack none 0, List.nodup_nil, ?_, fun _ => rfl⟩, fun _ => trivial⟩
  intro n hn
  cases hn

theorem inv_of_guarded {next : P → Option P} {owner : P → Option T}
    (h : (threads policy next owner).ReachableVia Guarded s) : ∃ l, s.Inv l := by
  apply h.invariant (P := fun s : Threads _ T => ∃ l, s.Inv l) ⟨[], inv_start next owner⟩
  rintro s a s' ⟨l, hs⟩ hguard hstep
  obtain ⟨l', hs', -⟩ := hs.step hguard hstep
  exact ⟨l', hs'⟩

theorem intact_of_guarded {next : P → Option P} {owner : P → Option T}
    (h : (threads policy next owner).ReachableVia Guarded s) : ∃ l, s.Intact l := by
  obtain ⟨l, hs⟩ := inv_of_guarded h
  exact ⟨l, hs.toIntact⟩

/-- Without tag bits no step needs a guard. -/
theorem reachableVia_of_untagged {next : P → Option P} {owner : P → Option T}
    (hbits : policy.bits = 0) (h : (threads policy next owner).Reachable s) :
    (threads policy next owner).ReachableVia Guarded s := by
  have hboth : (threads policy next owner).ReachableVia Guarded s ∧ ∃ l, s.Inv l := by
    apply h.invariant (P := fun s : Threads _ T =>
      (threads policy next owner).ReachableVia Guarded s ∧ ∃ l, s.Inv l)
      ⟨.start, [], inv_start next owner⟩
    rintro s a s' ⟨hvia, l, hs⟩ hstep
    have hguard := hs.guarded_of_untagged hbits a
    obtain ⟨l', hs', -⟩ := hs.step hguard hstep
    exact ⟨hvia.step hguard hstep, l', hs'⟩
  exact hboth.1

end Threads

open Threads TagPolicy

/-- The stacks of the buffer pool, under any number of threads: the untagged one,
which has no `pop`, and the tagged one with `push` and `pop`.  In every state the
nodes form a list, no call is stuck, and every step does its part. -/
theorem stacks_intact {T : Type} [DecidableEq T] :
    (∀ (next : Node 0 → Option (Node 0)) (owner : Node 0 → Option T)
      (s : Threads untagged T), (threads untagged next owner).Reachable s →
        ∃ l, s.Intact l ∧
          (∀ t, s.pc t ≠ .idle → ∃ a, thread a = t ∧ (s.step a).isSome) ∧
          ∀ a s', s.step a = some s' → ∃ l', s'.Intact l' ∧ s.Effect l a s' l') ∧
    (∀ (tagBits : Fin 64) (next : Node tagBits → Option (Node tagBits))
      (owner : Node tagBits → Option T) (s : Threads (packedTag tagBits) T),
      (threads (packedTag tagBits) next owner).ReachableVia PushPop s →
        ∃ l, s.Intact l ∧
          (∀ t, s.pc t ≠ .idle → ∃ a, thread a = t ∧ (s.step a).isSome) ∧
          ∀ a s', s.PushPop a → s.step a = some s' →
            ∃ l', s'.Intact l' ∧ s.Effect l a s' l') := by
  constructor
  · intro next owner s h
    obtain ⟨l, hs⟩ := inv_of_guarded (reachableVia_of_untagged rfl h)
    refine ⟨l, hs.toIntact, fun t => hs.not_stuck, fun a s' hstep => ?_⟩
    obtain ⟨l', hs', heffect⟩ := hs.step (hs.guarded_of_untagged rfl a) hstep
    exact ⟨l', hs'.toIntact, heffect⟩
  · intro tagBits next owner s h
    obtain ⟨l, hs⟩ := inv_of_guarded (h.mono fun _ _ => PushPop.guarded)
    refine ⟨l, hs.toIntact, fun t => hs.not_stuck, fun a s' hpush hstep => ?_⟩
    obtain ⟨l', hs', heffect⟩ := hs.step hpush.guarded hstep
    exact ⟨l', hs'.toIntact, heffect⟩

/-- A node that is aligned for up to twelve tag bits. -/
def node (tagBits : Fin 64) (h : (4096 : UInt64) &&& tagMask tagBits = 0) : Node tagBits :=
  ⟨4096, by decide, h⟩

/-- A thread pushes a node, at the second attempt. -/
def pushTwice {P : Type} (n : P) : List (Action P Bool) :=
  [.push true n, .link true, .cas true true, .link true, .cas true false]

/-- The node is on the stack, and the last step of `take_all` or `pop` hands it
out. -/
theorem stacks_intact_handOver :
    (∃ s s' : Threads untagged Bool,
      (threads untagged (fun _ => none) fun _ => some true).Reachable s ∧
      s.Intact [node 0 (by decide)] ∧
      s.step (.exchange false [node 0 (by decide)]) = some s' ∧
      s'.Intact [] ∧ s'.owner (node 0 (by decide)) = some false) ∧
    ∃ s s' : Threads (packedTag 3) Bool,
      (threads (packedTag 3) (fun _ => none) fun _ => some true).ReachableVia PushPop s ∧
      s.Intact [node 3 (by decide)] ∧ s.step (.cas false false) = some s' ∧
      s'.Intact [] ∧ s'.owner (node 3 (by decide)) = some false := by
  constructor
  · obtain ⟨s, s', old, hrun, hpc, hstep⟩ : ∃ (s s' : Threads untagged Bool) (old : _),
        (threads untagged (fun _ => none) fun _ => some true).run
          (threads untagged (fun _ => none) fun _ => some true).start
          (pushTwice (node 0 (by decide)) ++ [.takeAll false]) = some s ∧
        s.pc false = .takeAll old ∧
        s.step (.exchange false [node 0 (by decide)]) = some s' := ⟨_, _, _, rfl, rfl, rfl⟩
    have hreach := TransitionSystem.Reachable.start.run hrun
    obtain ⟨l, hintact, -, heffects⟩ := stacks_intact.1 _ _ s hreach
    obtain ⟨l', hintact', heffect⟩ := heffects _ _ hstep
    simp only [Effect, thread, hpc] at heffect
    obtain ⟨rfl, rfl, hmoved, -⟩ := heffect
    exact ⟨s, s', hreach, hintact, hstep, hintact', by simp [hmoved.owner]⟩
  · obtain ⟨s, s', nxt, hrun, hpc, hstep, hhead⟩ :
        ∃ (s s' : Threads (packedTag 3) Bool) (nxt : Option (Node 3)),
        (threads (packedTag 3) (fun _ => none) fun _ => some true).runVia PushPop
          (threads (packedTag 3) (fun _ => none) fun _ => some true).start
          (pushTwice (node 3 (by decide)) ++ [.pop false, .readNext false]) = some s ∧
        s.pc false = .popCas s.head (node 3 (by decide)) nxt s.updates ∧
        s.step (.cas false false) = some s' ∧ (packedTag 3).ptr s'.head = none :=
      ⟨_, _, _, rfl, rfl, rfl, rfl⟩
    have hreach := TransitionSystem.ReachableVia.start.runVia hrun
    obtain ⟨l, hintact, -, heffects⟩ := stacks_intact.2 _ _ _ s hreach
    have hpush : s.PushPop (.cas false false) := by
      change s.InWindow (s.pc false)
      rw [hpc, InWindow, Nat.sub_self]
      exact Nat.two_pow_pos _
    obtain ⟨l', hintact', heffect⟩ := heffects _ _ hpush hstep
    simp only [Effect, thread, hpc, and_self, if_true] at heffect
    obtain ⟨rfl, hmoved, -⟩ := heffect
    have hempty := hintact'.chain
    rw [hhead, chain_none] at hempty
    subst hempty
    exact ⟨s, s', hreach, hintact, hstep, hintact', by simp [hmoved.owner]⟩

/-- Tagged stacks with all four operations, as long as no `take_all` sets back the
tag under a `pop`. -/
theorem tagged_intact {T : Type} [DecidableEq T] :
    (∀ (P : Type) [DecidableEq P] (next : P → Option P) (owner : P → Option T)
      (s : Threads (wideTag P) T),
      (threads (wideTag P) next owner).ReachableVia Guarded s → ∃ l, s.Intact l) ∧
    (∀ (tagBits : Fin 64) (next : Node tagBits → Option (Node tagBits))
      (owner : Node tagBits → Option T) (s : Threads (packedTag tagBits) T),
      (threads (packedTag tagBits) next owner).ReachableVia Guarded s →
        ∃ l, s.Intact l) :=
  ⟨fun _ _ _ _ _ => intact_of_guarded, fun _ _ _ _ => intact_of_guarded⟩

/-- A `take_all` that is not disturbed, and then a `pop`. -/
theorem tagged_intact_undisturbed :
    ∃ s : Threads (wideTag Bool) Bool,
      (threads (wideTag Bool) (fun _ => none) fun _ => some true).ReachableVia Guarded s ∧
      s.owner true = some false ∧ ∃ l, s.Intact l := by
  obtain ⟨s, hrun, howner⟩ : ∃ s : Threads (wideTag Bool) Bool,
      (threads (wideTag Bool) (fun _ => none) fun _ => some true).runVia Guarded
        (threads (wideTag Bool) (fun _ => none) fun _ => some true).start
        (pushTwice false ++ [.takeAll false, .exchange false [false]] ++
          pushTwice true ++ [.pop false, .readNext false, .cas false false]) = some s ∧
      s.owner true = some false := ⟨_, rfl, rfl⟩
  have hreach := TransitionSystem.ReachableVia.start.runVia hrun
  exact ⟨s, hreach, howner, tagged_intact.1 Bool _ _ s hreach⟩

/-- Thread 0 loads the head for a `take_all`; thread 2 pushes both nodes; thread 1
loads the head and the link of the first node for a `pop`.  The exchange sets the
tag back, and the push of the first node brings the head to what thread 1 has
loaded, so that its compare-and-exchange succeeds with the old link. -/
def retagged : List (Action Bool (Fin 3)) :=
  [.takeAll 0, .push 2 false, .link 2, .cas 2 false, .push 2 true, .link 2, .cas 2 false,
    .pop 1, .readNext 1, .exchange 0 [true, false], .push 0 true, .link 0, .cas 0 false,
    .cas 1 false]

/-- The second node belongs to thread 0 and is the head of the stack, so that it is
handed out once more. -/
theorem takeAll_sets_tag_back :
    (∃ s, (threads (wideTag Bool) (fun _ => none) fun _ => some (2 : Fin 3)).Reachable s ∧
      (wideTag Bool).ptr s.head = some false ∧ s.owner false = some 0) ∧
    ∃ s, (threads (wideTag Bool) (fun _ => none) fun _ => some (2 : Fin 3)).Reachable s ∧
      s.history false = [.handed, .handed, .pushed] := by
  constructor
  · exact ⟨_, TransitionSystem.Reachable.start.run (l := retagged) rfl, rfl, rfl⟩
  · exact ⟨_, TransitionSystem.Reachable.start.run
      (l := retagged ++ [.pop 1, .readNext 1, .cas 1 false]) rfl, rfl⟩

end Fastbook.TreiberStack

import Fastbook.Common.BufferPool
import Fastbook.Support.Placement

/-!
# Where the blocks are

A block is live, on the global stack of its class, in the magazine of a thread
or on a chain that a call of a thread has in hand.  `Owned` says that a
placement describes the state and that no block is in two places.  Each of the
transfers keeps it.
-/

namespace Fastbook.BufferPool

open Support

inductive Where (T : Type*) where
  | live
  | global
  | mag (t : T)
  | hand (t : T)
  deriving DecidableEq

variable {T : Type*}

namespace Blocks

/-- The allocations of a size class. -/
def liveBlocks (b : Blocks T) (c : Cls) : List ℕ :=
  (b.live.filter fun e => e.2 ≤ maxClassSize ∧ clsOf e.2 = c).map Prod.fst

/-- The blocks of class `c` at a place, with the heads of the chains that the
threads have in hand. -/
def Holds (b : Blocks T) (hands : T → Cls → Option ℕ) (c : Cls) :
    Where T → List ℕ → Prop
  | .live, l => l = b.liveBlocks c
  | .global, l => Chain b.next (b.classes c) l
  | .mag t, l => l = b.mag t c
  | .hand t, l => Chain b.next (hands t c) l

/-- Two states that differ at a place in the links at most. -/
def SameAt (b b' : Blocks T) (hands hands' : T → Cls → Option ℕ) (c : Cls) :
    Where T → Prop
  | .live => b'.liveBlocks c = b.liveBlocks c
  | .global => b'.classes c = b.classes c
  | .mag t => b'.mag t c = b.mag t c
  | .hand t => hands' t c = hands t c

variable {b b' : Blocks T} {hands hands' : T → Cls → Option ℕ} {c : Cls}
  {w : Where T} {l : List ℕ}

theorem Holds.frame (h : b.Holds hands c w l)
    (hsame : b.SameAt b' hands hands' c w)
    (hnext : ∀ x ∈ l, b'.next x = b.next x) : b'.Holds hands' c w l := by
  cases w with
  | live => exact h.trans hsame.symm
  | global =>
      simp only [Holds, SameAt] at h hsame ⊢
      rw [hsame]
      exact h.congr hnext
  | mag t => exact h.trans hsame.symm
  | hand t =>
      simp only [Holds, SameAt] at h hsame ⊢
      rw [hsame]
      exact h.congr hnext

theorem Holds.unique {l' : List ℕ} (h : b.Holds hands c w l)
    (h' : b.Holds hands c w l') : l = l' := by
  cases w with
  | live => exact h.trans h'.symm
  | global => exact Chain.unique h h'
  | mag t => exact h.trans h'.symm
  | hand t => exact Chain.unique h h'

structure Owned (b : Blocks T) (hands : T → Cls → Option ℕ)
    (loc : Cls × Where T → List ℕ) : Prop where
  holds : ∀ c w, b.Holds hands c w (loc (c, w))
  exclusive : Exclusive loc
  carved : ∀ x c, b.carved x = some c ↔ ∃ w, x ∈ loc (c, w)
  room : ∀ t c, (b.mag t c).length ≤ cacheSize

end Blocks

/-- The hands of a thread that holds at most one chain. -/
def handOf (c : Cls) (head : Option ℕ) (c' : Cls) : Option ℕ :=
  if c' = c then head else none

@[simp]
theorem handOf_self (c : Cls) (head : Option ℕ) : handOf c head c = head :=
  if_pos rfl

theorem handOf_of_ne {c c' : Cls} (h : c' ≠ c) (head : Option ℕ) :
    handOf c head c' = none :=
  if_neg h

@[simp]
theorem handOf_none (c : Cls) : handOf c none = fun _ => none := by
  funext c'
  simp [handOf]

/-- The hand of one thread changes in one class at most. -/
theorem update_handOf_of_ne [DecidableEq T] {hands : T → Cls → Option ℕ}
    {t u : T} {c c' : Cls} {head head' : Option ℕ}
    (h : (c', Where.hand u) ≠ (c, .hand t)) :
    Function.update hands t (handOf c head) u c' =
      Function.update hands t (handOf c head') u c' := by
  by_cases hu : u = t
  · subst hu
    have hc : c' ≠ c := fun hc => h (by rw [hc])
    simp [handOf_of_ne hc]
  · simp [Function.update_of_ne hu]

namespace Blocks

variable [DecidableEq T] {b b' : Blocks T} {hands hands' : T → Cls → Option ℕ}
  {loc : Cls × Where T → List ℕ} {c : Cls} {w w' : Where T} {t : T}
  {l rest new : List ℕ}

@[simp]
theorem setMag_mag_self (b : Blocks T) (t : T) (c : Cls) (stk : List ℕ) :
    (b.setMag t c stk).mag t c = stk := by
  simp [setMag]

theorem setMag_mag_of_ne {t' : T} {c' : Cls} {stk : List ℕ}
    (h : (c', Where.mag t') ≠ (c, .mag t)) :
    (b.setMag t c stk).mag t' c' = b.mag t' c' := by
  by_cases ht : t' = t
  · subst ht
    have hc : c' ≠ c := fun hc => h (by rw [hc])
    simp [setMag, Function.update_of_ne hc]
  · simp [setMag, Function.update_of_ne ht]

theorem setMag_length_le {n : ℕ} {stk : List ℕ}
    (h : ∀ t c, (b.mag t c).length ≤ n) (hstk : stk.length ≤ n) (t' : T)
    (c' : Cls) : ((b.setMag t c stk).mag t' c').length ≤ n := by
  by_cases heq : (c', Where.mag t') = (c, .mag t)
  · cases heq
    rwa [setMag_mag_self]
  · rw [setMag_mag_of_ne heq]
    exact h t' c'

namespace Owned

/-- Blocks of one class go from a place to another.  The links of the blocks in
these two places may change. -/
theorem move (h : b.Owned hands loc) (hne : w ≠ w')
    (hp : (loc (c, w)).Perm (l ++ rest)) (hq : new.Perm (l ++ loc (c, w')))
    (hcarved : b'.carved = b.carved)
    (hsame : ∀ c₁ w₁, (c₁, w₁) ≠ (c, w) → (c₁, w₁) ≠ (c, w') →
      b.SameAt b' hands hands' c₁ w₁)
    (hnext : ∀ x, x ∉ loc (c, w) → x ∉ loc (c, w') → b'.next x = b.next x)
    (hw : b'.Holds hands' c w rest) (hw' : b'.Holds hands' c w' new)
    (hroom : ∀ t c, (b'.mag t c).length ≤ cacheSize) :
    b'.Owned hands' (Exclusive.move loc (c, w) (c, w') rest new) := by
  have hplace : (c, w) ≠ (c, w') := fun heq => hne (Prod.ext_iff.mp heq).2
  refine ⟨?_, h.exclusive.moved hplace hp hq, ?_, hroom⟩
  · intro c₁ w₁
    unfold Exclusive.move
    by_cases hto : (c₁, w₁) = (c, w')
    · cases hto
      rwa [Function.update_self]
    · rw [Function.update_of_ne hto]
      by_cases hfrom : (c₁, w₁) = (c, w)
      · cases hfrom
        rwa [Function.update_self]
      · rw [Function.update_of_ne hfrom]
        apply (h.holds c₁ w₁).frame (hsame c₁ w₁ hfrom hto)
        intro x hx
        apply hnext x
        · exact fun hx' => hfrom (h.exclusive.eq_of_mem hx hx')
        · exact fun hx' => hto (h.exclusive.eq_of_mem hx hx')
  · intro x c₁
    rw [hcarved, h.carved]
    constructor
    · rintro ⟨w₁, hx⟩
      rcases Exclusive.mem_move_of_mem hplace hp hq hx with hstay | ⟨heq, hgone⟩
      · exact ⟨w₁, hstay⟩
      · cases heq
        exact ⟨w', hgone⟩
    · rintro ⟨w₁, hx⟩
      rcases Exclusive.mem_move hp hq hx with hstay | ⟨heq, hcome⟩
      · exact ⟨w₁, hstay⟩
      · cases heq
        exact ⟨w, hp.symm.subset (List.mem_append_left _ hcome)⟩

omit [DecidableEq T] in
/-- What is at a place of a class has been carved for it. -/
theorem carved_of_mem (h : b.Owned hands loc) {x : ℕ} (hx : x ∈ loc (c, w)) :
    b.carved x = some c :=
  (h.carved x c).mpr ⟨w, hx⟩

/-- The global stack is taken in hand. -/
theorem takeAll (h : b.Owned (Function.update hands t (handOf c none)) loc) :
    { b with classes := Function.update b.classes c none }.Owned
      (Function.update hands t (handOf c (b.classes c)))
      (Exclusive.move loc (c, .global) (c, .hand t) [] (loc (c, .global))) := by
  have hempty : loc (c, .hand t) = [] := by
    have := h.holds c (.hand t)
    simpa [Holds] using this
  refine h.move (l := loc (c, .global)) (by simp) (by simp) ?_ rfl ?_ ?_ ?_ ?_
    h.room
  · rw [hempty, List.append_nil]
  · intro c₁ w₁ hfrom hto
    cases w₁ with
    | live => rfl
    | mag u => rfl
    | global =>
        have hc : c₁ ≠ c := fun hc => hfrom (by rw [hc])
        exact Function.update_of_ne hc _ _
    | hand u => exact update_handOf_of_ne hto
  · intro x _ _
    rfl
  · simp [Holds]
  · have := h.holds c .global
    simpa [Holds] using this

end Owned

end Blocks

/-- What `fill` makes of a chain. -/
theorem fill_eq {next : ℕ → Option ℕ} {head : Option ℕ} {l : List ℕ}
    (h : Chain next head l) (n : ℕ) (stk : List ℕ) :
    fill next n stk head = ((l.take n).reverse ++ stk, (l.drop n).head?) := by
  induction n generalizing stk head l with
  | zero => simp [fill, h.head_eq]
  | succ n ih =>
      cases l with
      | nil =>
          cases h
          rfl
      | cons p l =>
          obtain ⟨rfl, hl⟩ := h
          simp [fill, ih hl]

namespace Blocks.Owned

variable [DecidableEq T] {b : Blocks T} {hands : T → Cls → Option ℕ}
  {loc : Cls × Where T → List ℕ} {c : Cls} {t : T}

/-- A magazine takes blocks from the chain in hand. -/
theorem fill {head : Option ℕ} {n : ℕ}
    (h : b.Owned (Function.update hands t (handOf c head)) loc)
    (hn : n ≤ cacheSize - (b.mag t c).length) :
    (b.setMag t c (BufferPool.fill b.next n (b.mag t c) head).1).Owned
      (Function.update hands t
        (handOf c (BufferPool.fill b.next n (b.mag t c) head).2))
      (Exclusive.move loc (c, .hand t) (c, .mag t)
        ((loc (c, .hand t)).drop n)
        (((loc (c, .hand t)).take n).reverse ++ b.mag t c)) := by
  have hchain : Chain b.next head (loc (c, .hand t)) := by
    have := h.holds c (.hand t)
    simpa [Holds] using this
  have hmag : loc (c, .mag t) = b.mag t c := h.holds c (.mag t)
  have hroom := h.room t c
  rw [fill_eq hchain]
  refine h.move (l := (loc (c, .hand t)).take n) (by simp) ?_ ?_ rfl ?_ ?_ ?_ ?_
    ?_
  · rw [List.take_append_drop]
  · rw [hmag]
    exact (List.reverse_perm _).append_right _
  · intro c₁ w₁ hfrom hto
    cases w₁ with
    | live => rfl
    | mag u => exact setMag_mag_of_ne hto
    | global => rfl
    | hand u => exact update_handOf_of_ne hfrom
  · intro x _ _
    rfl
  · simp only [Holds, Function.update_self, handOf_self]
    exact hchain.drop n
  · simp [Holds]
  · apply setMag_length_le h.room
    rw [List.length_append, List.length_reverse, List.length_take]
    omega

/-- The top of a magazine is handed out. -/
theorem popTop {blk : ℕ} {stk : List ℕ} {sz : ℕ} (h : b.Owned hands loc)
    (hmag : b.mag t (clsOf sz) = blk :: stk) (hsz : sz ≤ maxClassSize) :
    { b.setMag t (clsOf sz) stk with live := (blk, sz) :: b.live }.Owned hands
      (Exclusive.move loc (clsOf sz, .mag t) (clsOf sz, .live) stk
        (blk :: loc (clsOf sz, .live))) := by
  have hfrom : loc (clsOf sz, .mag t) = blk :: stk :=
    (h.holds (clsOf sz) (.mag t)).trans hmag
  refine h.move (l := [blk]) (by simp) ?_ (.refl _) rfl ?_ ?_ ?_ ?_ ?_
  · rw [hfrom]
    exact .refl _
  · intro c₁ w₁ hmag' hlive
    cases w₁ with
    | live =>
        have hc : clsOf sz ≠ c₁ := fun hc => hlive (by rw [hc])
        simp [SameAt, liveBlocks, hc]
    | mag u => exact setMag_mag_of_ne hmag'
    | global => rfl
    | hand u => rfl
  · intro x _ _
    rfl
  · simp [Holds, setMag]
  · have hlive : loc (clsOf sz, .live) = b.liveBlocks (clsOf sz) :=
      h.holds (clsOf sz) .live
    simp [Holds, liveBlocks, hlive, hsz]
  · apply setMag_length_le h.room
    have := h.room t (clsOf sz)
    rw [hmag, List.length_cons] at this
    omega

/-- The excess of a chain goes back on the global stack. -/
theorem pushChain {head rtail : ℕ}
    (h : b.Owned (Function.update hands t (handOf c (some head))) loc)
    (hmem : rtail ∈ loc (c, .hand t)) (hend : b.next rtail = none) :
    { b with
      next := (TreiberStack.pushChain b.next (b.classes c) head rtail).1
      classes := Function.update b.classes c
        (TreiberStack.pushChain b.next (b.classes c) head rtail).2 }.Owned
      (Function.update hands t (handOf c none))
      (Exclusive.move loc (c, .hand t) (c, .global) []
        (loc (c, .hand t) ++ loc (c, .global))) := by
  have hchain : Chain b.next (some head) (loc (c, .hand t)) := by
    have := h.holds c (.hand t)
    simpa [Holds] using this
  have hglobal : Chain b.next (b.classes c) (loc (c, .global)) :=
    h.holds c .global
  refine h.move (l := loc (c, .hand t)) (by simp) (by simp) (.refl _) rfl ?_ ?_
    ?_ ?_ h.room
  · intro c₁ w₁ hfrom hto
    cases w₁ with
    | live => rfl
    | mag u => rfl
    | global =>
        have hc : c₁ ≠ c := fun hc => hto (by rw [hc])
        exact Function.update_of_ne hc _ _
    | hand u => exact update_handOf_of_ne hfrom
  · intro x hx _
    exact Function.update_of_ne (ne_of_mem_of_not_mem hmem hx).symm _ _
  · simp [Holds]
  · simp only [Holds, Function.update_self]
    apply TreiberStack.chain_pushChain hglobal hchain (h.exclusive.nodup _)
      (hchain.getLast?_eq hmem hend)
    intro hmem'
    have := h.exclusive.eq_of_mem hmem hmem'
    simp at this

/-- The top of a magazine goes to the global stack. -/
theorem donateTop (h : b.Owned hands loc) (t : T) (c : Cls) (n : ℕ) :
    ∃ loc', (b.donateTop t c n).Owned hands loc' ∧
      loc' (c, .global) = (b.mag t c).take n ++ loc (c, .global) ∧
      ∀ p, p ≠ (c, .mag t) → p ≠ (c, .global) → loc' p = loc p := by
  have hmag : loc (c, .mag t) = b.mag t c := h.holds c (.mag t)
  unfold Blocks.donateTop
  split
  · next htake => exact ⟨loc, h, by rw [htake, List.nil_append], fun _ _ _ => rfl⟩
  · next head rest htake =>
      have hglobal : Chain b.next (b.classes c) (loc (c, .global)) :=
        h.holds c .global
      have hsub : ∀ x ∈ head :: rest, x ∈ loc (c, .mag t) := by
        intro x hx
        rw [hmag]
        exact List.mem_of_mem_take (htake ▸ hx)
      have hnodup : (head :: rest).Nodup := by
        rw [← htake, ← hmag]
        exact (h.exclusive.nodup _).sublist (List.take_sublist _ _)
      have hout : ∀ x ∈ head :: rest, x ∉ loc (c, .global) := by
        intro x hx hx'
        have := h.exclusive.eq_of_mem (hsub x hx) hx'
        simp at this
      refine ⟨Exclusive.move loc (c, .mag t) (c, .global) ((b.mag t c).drop n)
          (head :: rest ++ loc (c, .global)),
        h.move (l := head :: rest) (by simp) ?_ (.refl _) rfl ?_ ?_ ?_ ?_ ?_, ?_,
        ?_⟩
      · rw [hmag, ← htake, List.take_append_drop]
      · intro c₁ w₁ hfrom hto
        cases w₁ with
        | live => rfl
        | mag u => exact setMag_mag_of_ne hfrom
        | global =>
            have hc : c₁ ≠ c := fun hc => hto (by rw [hc])
            exact Function.update_of_ne hc _ _
        | hand u => rfl
      · intro x hx _
        have hx' : x ∉ head :: rest := fun hmem => hx (hsub x hmem)
        have hne := ne_of_mem_of_not_mem
          (List.getLast_mem (List.cons_ne_nil head rest)) hx'
        simp only [TreiberStack.pushChain]
        rw [Function.update_of_ne hne.symm]
        exact link_of_notMem hx'
      · simp [Holds, setMag]
      · simp only [Holds, Function.update_self]
        apply TreiberStack.chain_pushChain
        · apply hglobal.congr
          intro x hx
          exact link_of_notMem fun hx' => hout x hx' hx
        · exact chain_link hnodup
        · exact hnodup
        · exact List.getLast?_eq_some_getLast _
        · exact hout _ (List.getLast_mem _)
      · apply setMag_length_le h.room
        have := h.room t c
        rw [List.length_drop]
        omega
      · rw [htake, Exclusive.move, Function.update_self]
      · intro p hp hp'
        exact Exclusive.move_of_ne hp hp'

omit [DecidableEq T] in
/-- A client writes to a live block. -/
theorem write (h : b.Owned hands loc) {ptr : ℕ} (value : Option ℕ)
    (hlive : ptr ∈ b.liveBlocks c) :
    { b with next := Function.update b.next ptr value }.Owned hands loc := by
  refine ⟨?_, h.exclusive, h.carved, h.room⟩
  have hmem : ptr ∈ loc (c, .live) := by
    rw [show loc (c, .live) = _ from h.holds c .live]
    exact hlive
  intro c₁ w₁
  cases w₁ with
  | live => exact h.holds c₁ .live
  | mag u => exact h.holds c₁ (.mag u)
  | global =>
      refine Chain.congr (h.holds c₁ .global) fun x hx =>
        Function.update_of_ne ?_ _ _
      rintro rfl
      have := h.exclusive.eq_of_mem hx hmem
      simp at this
  | hand u =>
      refine Chain.congr (h.holds c₁ (.hand u)) fun x hx =>
        Function.update_of_ne ?_ _ _
      rintro rfl
      have := h.exclusive.eq_of_mem hx hmem
      simp at this

end Blocks.Owned

/-! ## Freeing and carving -/

variable [DecidableEq T] {b : Blocks T} {hands : T → Cls → Option ℕ}
  {loc : Cls × Where T → List ℕ} {c : Cls} {t : T}

omit [DecidableEq T] in
/-- An allocation is taken off the list of those that are live. -/
theorem live_split {ptr : ℕ} {sz : ℕ} {live : List (ℕ × ℕ)}
    (hnodup : (live.map Prod.fst).Nodup) (hmem : (ptr, sz) ∈ live) :
    ∃ l₁ l₂, live = l₁ ++ (ptr, sz) :: l₂ ∧
      live.eraseP (·.1 = ptr) = l₁ ++ l₂ := by
  obtain ⟨e, l₁, l₂, -, he, hl, herase⟩ :=
    List.exists_of_eraseP (p := (·.1 = ptr)) hmem (by simp)
  have hmem' : e ∈ live := by simp [hl]
  have heq : e = (ptr, sz) :=
    List.inj_on_of_nodup_map hnodup hmem' hmem (by simpa using he)
  exact ⟨l₁, l₂, heq ▸ hl, herase⟩

omit [DecidableEq T] in
theorem live_perm {ptr : ℕ} {sz : ℕ} {live : List (ℕ × ℕ)}
    (hnodup : (live.map Prod.fst).Nodup) (hmem : (ptr, sz) ∈ live) :
    live.Perm ((ptr, sz) :: live.eraseP (·.1 = ptr)) := by
  obtain ⟨l₁, l₂, hl, herase⟩ := live_split hnodup hmem
  rw [herase]
  nth_rewrite 1 [hl]
  exact List.perm_middle

omit [DecidableEq T] in
/-- The allocations of other classes stay. -/
theorem liveBlocks_erase {ptr sz : ℕ} (hnodup : (b.live.map Prod.fst).Nodup)
    (hmem : (ptr, sz) ∈ b.live) (hcls : ¬ (sz ≤ maxClassSize ∧ clsOf sz = c)) :
    { b with live := b.live.eraseP (·.1 = ptr) }.liveBlocks c =
      b.liveBlocks c := by
  obtain ⟨l₁, l₂, hl, herase⟩ := live_split hnodup hmem
  simp only [Blocks.liveBlocks, herase]
  rw [hl]
  simp [hcls]

omit [DecidableEq T] in
/-- The list of live allocations changes in the large ones only. -/
theorem Blocks.Owned.setLive {live : List (ℕ × ℕ)} (h : b.Owned hands loc)
    (hlive : ∀ c, { b with live }.liveBlocks c = b.liveBlocks c) :
    { b with live }.Owned hands loc := by
  refine ⟨?_, h.exclusive, h.carved, h.room⟩
  intro c w
  refine (h.holds c w).frame ?_ fun _ _ => rfl
  cases w with
  | live => exact hlive c
  | mag t => rfl
  | global => rfl
  | hand t => rfl

theorem Blocks.donateTop_mag (b : Blocks T) (t : T) (c : Cls) (n : ℕ) :
    (b.donateTop t c n).mag t c = (b.mag t c).drop n := by
  unfold donateTop
  split
  · next htake =>
      rcases List.take_eq_nil_iff.mp htake with hn | hmag
      · simp [hn]
      · simp [hmag]
  · simp [setMag]

theorem Blocks.donateTop_mag_of_ne {c' : Cls} (hc : c' ≠ c) (b : Blocks T) (t : T)
    (n : ℕ) : (b.donateTop t c n).mag t c' = b.mag t c' := by
  unfold donateTop
  split
  · rfl
  · exact setMag_mag_of_ne (by simp [hc])

theorem Blocks.donateTop_live (b : Blocks T) (t : T) (c : Cls) (n : ℕ) :
    (b.donateTop t c n).live = b.live := by
  unfold donateTop
  split <;> rfl

theorem Blocks.donateTop_carved (b : Blocks T) (t : T) (c : Cls) (n : ℕ) :
    (b.donateTop t c n).carved = b.carved := by
  unfold donateTop
  split <;> rfl

theorem Blocks.donateTop_mag_other {u : T} (hu : u ≠ t) (b : Blocks T) (c : Cls)
    (n : ℕ) : (b.donateTop t c n).mag u = b.mag u := by
  unfold donateTop
  split
  · rfl
  · exact Function.update_of_ne hu _ _

theorem Blocks.donateTop_setLive (b : Blocks T) (t : T) (c : Cls) (n : ℕ)
    (live : List (ℕ × ℕ)) :
    { b with live }.donateTop t c n = { b.donateTop t c n with live } := by
  unfold donateTop
  simp only
  split <;> rfl

theorem Blocks.push_live (b : Blocks T) (t : T) (x : ℕ) (c : Cls) :
    (b.push t x c).live = b.live := by
  simp only [Blocks.push]
  split
  · exact b.donateTop_live t c batchSize
  · rfl

theorem Blocks.push_carved (b : Blocks T) (t : T) (x : ℕ) (c : Cls) :
    (b.push t x c).carved = b.carved := by
  simp only [Blocks.push]
  split
  · exact b.donateTop_carved t c batchSize
  · rfl

theorem Blocks.push_mag_other {u : T} (hu : u ≠ t) (b : Blocks T) (x : ℕ)
    (c : Cls) : (b.push t x c).mag u = b.mag u := by
  simp only [Blocks.push, setMag, Function.update_of_ne hu]
  split
  · exact Blocks.donateTop_mag_other hu b c batchSize
  · rfl

/-- A block is given back. -/
theorem Blocks.Owned.push (h : b.Owned hands loc) {ptr : ℕ} {sz : ℕ} (t : T)
    (hnodup : (b.live.map Prod.fst).Nodup) (hmem : (ptr, sz) ∈ b.live)
    (hsz : sz ≤ maxClassSize) :
    ∃ loc',
      ({ b with live := b.live.eraseP (·.1 = ptr) }.push t ptr (clsOf sz)).Owned
        hands loc' ∧
      ∀ u c, loc' (c, .hand u) = loc (c, .hand u) := by
  -- first there is room in the magazine
  obtain ⟨b₁, loc₁, hb₁, h₁, hlen, hlive, hhand⟩ : ∃ (b₁ : Blocks T)
      (loc₁ : Cls × Where T → List ℕ),
      ({ b with live := b.live.eraseP (·.1 = ptr) }.push t ptr (clsOf sz)) =
        { b₁ with live := b.live.eraseP (·.1 = ptr) }.setMag t (clsOf sz)
          (ptr :: b₁.mag t (clsOf sz)) ∧
      b₁.Owned hands loc₁ ∧ (b₁.mag t (clsOf sz)).length < cacheSize ∧
      b₁.live = b.live ∧ ∀ u c, loc₁ (c, .hand u) = loc (c, .hand u) := by
    by_cases hfull : (b.mag t (clsOf sz)).length = cacheSize
    · obtain ⟨loc₁, h₁, -, hloc₁⟩ := h.donateTop t (clsOf sz) batchSize
      refine ⟨b.donateTop t (clsOf sz) batchSize, loc₁, ?_, h₁, ?_, ?_, ?_⟩
      · simp only [Blocks.push, if_pos hfull, donateBatch,
          Blocks.donateTop_setLive]
      · rw [Blocks.donateTop_mag, List.length_drop, hfull]
        decide
      · exact b.donateTop_live t _ _
      · intro u c
        exact hloc₁ _ (by simp) (by simp)
    · refine ⟨b, loc, ?_, h, ?_, rfl, fun _ _ => rfl⟩
      · simp only [Blocks.push, if_neg hfull]
      · exact lt_of_le_of_ne (h.room t _) hfull
  rw [hb₁]
  have hperm := live_perm hnodup hmem
  have hfrom : loc₁ (clsOf sz, .live) = b₁.liveBlocks (clsOf sz) :=
    h₁.holds (clsOf sz) .live
  have hto : loc₁ (clsOf sz, .mag t) = b₁.mag t (clsOf sz) :=
    h₁.holds (clsOf sz) (.mag t)
  refine ⟨Exclusive.move loc₁ (clsOf sz, .live) (clsOf sz, .mag t)
      ({ b₁ with live := b.live.eraseP (·.1 = ptr) }.liveBlocks (clsOf sz))
      (ptr :: b₁.mag t (clsOf sz)),
    h₁.move (l := [ptr]) (by simp) ?_ ?_ rfl ?_ ?_ ?_ ?_ ?_, ?_⟩
  · rw [hfrom, liveBlocks, hlive]
    have := (hperm.filter fun e => e.2 ≤ maxClassSize ∧ clsOf e.2 = clsOf sz).map
      Prod.fst
    simpa [liveBlocks, hsz] using this
  · rw [hto]
    exact .refl _
  · intro c₁ w₁ hne hne'
    cases w₁ with
    | live =>
        have hc : clsOf sz ≠ c₁ := fun hc => hne (by rw [hc])
        simp only [SameAt, setMag]
        have herase := liveBlocks_erase (c := c₁) (hlive ▸ hnodup) (hlive ▸ hmem)
          fun hcls => hc hcls.2
        rwa [hlive] at herase
    | mag u => exact setMag_mag_of_ne (b := { b₁ with live := _ }) hne'
    | global => rfl
    | hand u => rfl
  · intro x _ _
    rfl
  · rfl
  · simp [Holds]
  · apply setMag_length_le (b := { b₁ with live := _ }) h₁.room
    exact hlen
  · intro u c
    rw [← hhand u c]
    exact Exclusive.move_of_ne (by simp) (by simp)

theorem carve_eq_link (next : ℕ → Option ℕ) (classSz n : ℕ) (base : ℕ) :
    carve next classSz n base =
      link next ((List.range (n + 1)).map fun i => base + i * classSz) := by
  induction n generalizing next base with
  | zero => simp [carve, link]
  | succ n ih =>
      have hshift : ∀ m, (List.range (m + 1)).map (fun i => base + i * classSz) =
          base :: (List.range m).map fun i => base + classSz + i * classSz := by
        intro m
        rw [List.range_succ_eq_map, List.map_cons, List.map_map]
        congr 1
        · simp
        · apply List.map_congr_left
          intro i _
          change base + (i + 1) * classSz = base + classSz + i * classSz
          rw [Nat.succ_mul, Nat.add_comm (i * classSz), Nat.add_assoc]
      rw [carve, ih, hshift (n + 1)]
      rw [List.range_succ_eq_map, List.map_cons]
      simp [link]

theorem sizeofClass_pos (c : ℕ) : 0 < sizeofClass c :=
  Nat.two_pow_pos _

theorem runBlocks_nodup (base : ℕ) (c : Cls) : (runBlocks base c).Nodup := by
  apply List.nodup_range.map
  intro i j hij
  have hpos := sizeofClass_pos c
  simp only [Nat.add_left_cancel_iff] at hij
  exact Nat.eq_of_mul_eq_mul_right hpos hij

theorem sizeofClass_dvd_runSize (c : Cls) : sizeofClass c ∣ runSize := by
  have hle : (c : ℕ) + minShift ≤ 16 := by
    have := c.isLt
    simp only [nClasses, minShift] at this ⊢
    omega
  have hrun : runSize = 2 ^ 16 := by decide
  rw [hrun]
  exact Nat.pow_dvd_pow 2 hle

theorem blocks_pos (c : Cls) : 0 < runSize / sizeofClass c :=
  Nat.div_pos (Nat.le_of_dvd (by decide) (sizeofClass_dvd_runSize c))
    (sizeofClass_pos c)

theorem carveRunInBlocks_eq (next : ℕ → Option ℕ) (base : ℕ) (c : Cls) :
    carveRunInBlocks next base c = link next (runBlocks base c) := by
  have hpos := blocks_pos c
  rw [carveRunInBlocks, carve_eq_link, runBlocks, Nat.sub_add_cancel hpos]

theorem runBlocks_head? (base : ℕ) (c : Cls) :
    (runBlocks base c).head? = some base := by
  rw [runBlocks, ← Nat.sub_add_cancel (blocks_pos c), List.range_succ_eq_map]
  simp

/-- The blocks of a new run are taken in hand. -/
theorem Blocks.Owned.carve {base : ℕ}
    (h : b.Owned (Function.update hands t (handOf c none)) loc)
    (hfresh : ∀ x ∈ runBlocks base c, b.carved x = none) :
    { b with
      next := carveRunInBlocks b.next base c
      carved := fun x =>
        if x ∈ runBlocks base c then some c else b.carved x }.Owned
      (Function.update hands t (handOf c (some base)))
      (Function.update loc (c, .hand t) (runBlocks base c)) := by
  have hnew : ∀ x ∈ runBlocks base c, ∀ p, x ∉ loc p := by
    intro x hx p hp
    have := h.carved_of_mem (c := p.1) (w := p.2) hp
    rw [hfresh x hx] at this
    cases this
  have hempty : loc (c, .hand t) = [] := by
    have := h.holds c (.hand t)
    simpa [Holds] using this
  refine ⟨?_, ?_, ?_, h.room⟩
  · intro c₁ w₁
    by_cases hp : (c₁, w₁) = (c, .hand t)
    · cases hp
      simp only [Holds, Function.update_self, handOf_self, carveRunInBlocks_eq,
        ← runBlocks_head? base c]
      exact chain_link (runBlocks_nodup base c)
    · rw [Function.update_of_ne hp]
      apply (h.holds c₁ w₁).frame
      · cases w₁ with
        | live => rfl
        | mag u => rfl
        | global => rfl
        | hand u => exact update_handOf_of_ne hp
      · intro x hx
        rw [carveRunInBlocks_eq]
        exact link_of_notMem fun hx' => hnew x hx' _ hx
  · apply h.exclusive.added (runBlocks_nodup base c) hnew
    rw [hempty, List.append_nil]
  · intro x c₁
    by_cases hx : x ∈ runBlocks base c
    · simp only [if_pos hx, Option.some.injEq]
      constructor
      · rintro rfl
        exact ⟨.hand t, by rwa [Function.update_self]⟩
      · rintro ⟨w₁, hx'⟩
        by_cases hp : (c₁, w₁) = (c, .hand t)
        · cases hp
          rfl
        · rw [Function.update_of_ne hp] at hx'
          exact absurd hx' (hnew x hx _)
    · simp only [if_neg hx, h.carved]
      apply exists_congr
      intro w₁
      by_cases hp : (c₁, w₁) = (c, .hand t)
      · cases hp
        simp [hempty, hx]
      · rw [Function.update_of_ne hp]

end Fastbook.BufferPool

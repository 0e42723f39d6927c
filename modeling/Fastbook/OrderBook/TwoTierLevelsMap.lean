import Fastbook.OrderBook.TwoTierLevels
import Fastbook.Support.FiniteMap
import Fastbook.Support.SortedList
import Mathlib.Algebra.Order.Ring.Int

/-!
# The two-tier levels are an ordered map

`Represents t m` says that the levels stored in `t` are the bindings of the
finite map `m` from prices to level data.  It rests on the tier invariant
`Ordered`: the cold prices are sorted, every cold price is worse than every hot
one, and `best_idx` points at the best hot price.

Prices are compared through `rank`, which is larger for better prices and zero
for the sentinel only, so that both sides of a book share one argument.
-/

namespace Fastbook

open Support

/-- How good a price is: larger is better, and the sentinel is worst. -/
def rank : Side → UInt32 → ℕ
  | .bid, p => p.toNat
  | .ask, p => 4294967295 - p.toNat

theorem rank_le (side : Side) (p : UInt32) : rank side p ≤ 4294967295 := by
  have hp := p.toNat_lt
  cases side with
  | bid =>
      simp only [rank]
      omega
  | ask =>
      simp only [rank]
      omega

theorem rank_injective (side : Side) {p q : UInt32}
    (h : rank side p = rank side q) : p = q := by
  have hp := p.toNat_lt
  have hq := q.toNat_lt
  apply UInt32.toNat_inj.mp
  cases side with
  | bid => exact h
  | ask =>
      simp only [rank] at h
      omega

theorem rank_emptyPrice (side : Side) : rank side (emptyPrice side) = 0 := by
  cases side <;> rfl

theorem rank_bestPossible (side : Side) :
    rank side (bestPossible side) = 4294967295 := by
  cases side <;> rfl

theorem rank_pos {side : Side} {p : UInt32} (h : p ≠ emptyPrice side) :
    0 < rank side p := by
  rcases Nat.eq_zero_or_pos (rank side p) with hzero | hpos
  · rw [← rank_emptyPrice side] at hzero
    exact absurd (rank_injective side hzero) h
  · exact hpos

theorem ne_emptyPrice_of_rank_pos {side : Side} {p : UInt32}
    (h : 0 < rank side p) : p ≠ emptyPrice side := by
  rintro rfl
  rw [rank_emptyPrice] at h
  omega

theorem better_eq (side : Side) (a b : UInt32) :
    better side a b = decide (rank side b < rank side a) := by
  have ha := a.toNat_lt
  have hb := b.toNat_lt
  cases side with
  | bid => exact decide_eq_decide.mpr UInt32.lt_iff_toNat_lt
  | ask =>
      apply decide_eq_decide.mpr
      rw [UInt32.lt_iff_toNat_lt]
      simp only [rank]
      omega

theorem comp_eq (side : Side) (a b : UInt32) :
    comp side a b = decide (rank side a < rank side b) := by
  rw [← better_eq]
  cases side <;> rfl

namespace TwoTierLevels

variable {side : Side} {K coldCap : ℕ}

/-- The levels held by a list of slots; unused slots hold none. -/
def usedLevels (side : Side) (slots : List (UInt32 × LevelData)) :
    List ((_ : UInt32) × LevelData) :=
  (slots.filter fun e => e.1 ≠ emptyPrice side).map fun e => ⟨e.1, e.2⟩

theorem usedLevels_cons {e : UInt32 × LevelData}
    {slots : List (UInt32 × LevelData)} (he : e.1 ≠ emptyPrice side) :
    usedLevels side (e :: slots) = ⟨e.1, e.2⟩ :: usedLevels side slots := by
  simp [usedLevels, he]

theorem usedLevels_cons_unused {e : UInt32 × LevelData}
    {slots : List (UInt32 × LevelData)} (he : e.1 = emptyPrice side) :
    usedLevels side (e :: slots) = usedLevels side slots := by
  simp [usedLevels, he]

theorem usedLevels_perm (side : Side)
    {slots slots' : List (UInt32 × LevelData)} (h : slots.Perm slots') :
    (usedLevels side slots).Perm (usedLevels side slots') :=
  (h.filter _).map _

theorem mem_usedLevels {slots : List (UInt32 × LevelData)} {p : UInt32}
    {data : LevelData} :
    (⟨p, data⟩ : (_ : UInt32) × LevelData) ∈ usedLevels side slots ↔
      (p, data) ∈ slots ∧ p ≠ emptyPrice side := by
  unfold usedLevels
  rw [List.mem_map]
  constructor
  · rintro ⟨⟨q, d⟩, hmem, heq⟩
    cases heq
    simpa [List.mem_filter] using hmem
  · rintro ⟨hmem, hne⟩
    refine ⟨(p, data), ?_, rfl⟩
    simpa [List.mem_filter] using ⟨hmem, hne⟩

theorem length_usedLevels_le (side : Side)
    (slots : List (UInt32 × LevelData)) :
    (usedLevels side slots).length ≤ slots.length := by
  unfold usedLevels
  rw [List.length_map]
  exact List.length_filter_le _ _

theorem length_usedLevels {slots : List (UInt32 × LevelData)}
    (h : ∀ e ∈ slots, e.1 ≠ emptyPrice side) :
    (usedLevels side slots).length = slots.length := by
  unfold usedLevels
  rw [List.length_map, List.filter_eq_self.mpr]
  intro e he
  simpa using h e he

/-- The stored levels: the used hot slots and the cold levels. -/
def entries (t : TwoTierLevels side K coldCap) :
    List ((_ : UInt32) × LevelData) :=
  usedLevels side (t.hot ++ t.cold)

/-- The tier invariant without the best price. -/
structure Tiered (t : TwoTierLevels side K coldCap) : Prop where
  hot_length : t.hot.length = K
  cold_length : t.cold.length ≤ coldCap
  cold_sorted : t.cold.Pairwise fun a b => rank side a.1 < rank side b.1
  cold_used : ∀ c ∈ t.cold, c.1 ≠ emptyPrice side
  cold_below : ∀ c ∈ t.cold, ∀ h ∈ t.hot, rank side c.1 < rank side h.1

/-- The tier invariant. -/
structure Ordered (t : TwoTierLevels side K coldCap) : Prop
    extends Tiered t where
  best_at : t.hot[t.bestIdx]?.map Prod.fst = some t.bestPrice
  best_max : ∀ h ∈ t.hot, rank side h.1 ≤ rank side t.bestPrice

/-- The levels stored in `t` are the bindings of `m`. -/
structure Represents (t : TwoTierLevels side K coldCap)
    (m : AList fun _ : UInt32 => LevelData) : Prop where
  ordered : t.Ordered
  perm : t.entries.Perm m.entries

variable {t : TwoTierLevels side K coldCap}
  {m : AList fun _ : UInt32 => LevelData} {price : UInt32}

theorem mem_entries {data : LevelData} :
    (⟨price, data⟩ : (_ : UInt32) × LevelData) ∈ t.entries ↔
      ((price, data) ∈ t.hot ∨ (price, data) ∈ t.cold) ∧
        price ≠ emptyPrice side := by
  unfold entries
  rw [mem_usedLevels, List.mem_append]

theorem Represents.lookup_eq_some_iff (h : t.Represents m)
    {data : LevelData} :
    m.lookup price = some data ↔
      ((price, data) ∈ t.hot ∨ (price, data) ∈ t.cold) ∧
        price ≠ emptyPrice side := by
  rw [← Option.mem_def, AList.mem_lookup_iff, ← h.perm.mem_iff]
  exact mem_entries

theorem Represents.notMem_iff (h : t.Represents m)
    (hprice : price ≠ emptyPrice side) :
    price ∉ m ↔ ∀ data, (price, data) ∉ t.hot ∧ (price, data) ∉ t.cold := by
  rw [← AList.lookup_eq_none]
  constructor
  · intro hnone data
    rw [← not_or]
    intro hmem
    have hsome := h.lookup_eq_some_iff.mpr ⟨hmem, hprice⟩
    rw [hnone] at hsome
    cases hsome
  · intro habsent
    by_contra hne
    obtain ⟨data, hdata⟩ := Option.ne_none_iff_exists'.mp hne
    have hmem := (h.lookup_eq_some_iff.mp hdata).1
    exact hmem.elim (habsent data).1 (habsent data).2

/-! ## Searching -/

theorem Tiered.lowerBound_eq (h : t.Tiered) {data : LevelData}
    (hmem : (price, data) ∈ t.cold) :
    t.cold[lowerBound side t.cold price]? = some (price, data) := by
  have hfind := getElem?_findIdx_of_mem (x := (price, data)) h.cold_sorted hmem
  unfold lowerBound
  simpa only [comp_eq] using hfind

/-- `find_idx` finds exactly the stored levels, and the pointer it yields
points at their data. -/
theorem findIdx_of_mem (h : t.Tiered) {data : LevelData}
    (hmem : (price, data) ∈ t.hot ∨ (price, data) ∈ t.cold) :
    (∃ i, t.findIdx price = .hot i ∧ ∃ d, t.hot[i]? = some (price, d)) ∨
    (∃ i, t.findIdx price = .cold i ∧ t.cold[i]? = some (price, data)) := by
  cases hhot : t.hot.findIdx? fun e => e.1 = price with
  | some i =>
      obtain ⟨hi, hfound, -⟩ := List.findIdx?_eq_some_iff_getElem.mp hhot
      refine Or.inl ⟨i, by simp [findIdx, hhot], (t.hot[i]).2, ?_⟩
      rw [List.getElem?_eq_getElem hi]
      simp only [decide_eq_true_eq] at hfound
      rw [← hfound]
  | none =>
      rw [List.findIdx?_eq_none_iff] at hhot
      rcases hmem with hmem | hmem
      · have hfalse := hhot _ hmem
        simp at hfalse
      · have hcold := h.lowerBound_eq hmem
        refine Or.inr ⟨lowerBound side t.cold price, ?_, hcold⟩
        rw [← List.findIdx?_eq_none_iff] at hhot
        simp [findIdx, hhot, hcold]

theorem findIdx_of_notMem
    (habsent : ∀ data, (price, data) ∉ t.hot ∧ (price, data) ∉ t.cold) :
    t.findIdx price = .none := by
  have hhot : t.hot.findIdx? (fun e => e.1 = price) = none := by
    rw [List.findIdx?_eq_none_iff]
    rintro ⟨p, d⟩ hmem
    simp only [decide_eq_false_iff_not]
    rintro rfl
    exact (habsent d).1 hmem
  cases hcold : t.cold[lowerBound side t.cold price]? with
  | none => simp [findIdx, hhot, hcold]
  | some e =>
      have hne : e.1 ≠ price := by
        intro heq
        have hmem := List.mem_of_getElem? hcold
        apply (habsent e.2).2
        rw [← heq]
        exact hmem
      simp [findIdx, hhot, hcold, hne]

/-! ## The scans over the hot prices -/

theorem scan_spec {prefer : UInt32 → UInt32 → Bool} {r : UInt32 → ℤ}
    (hprefer : ∀ a b, prefer a b = decide (r b < r a)) :
    ∀ (l : List (UInt32 × LevelData)) (i : ℕ) (acc : UInt32 × ℕ),
      r acc.1 ≤ r (scan prefer l i acc).1 ∧
      (∀ e ∈ l, r e.1 ≤ r (scan prefer l i acc).1) ∧
      (scan prefer l i acc = acc ∨
        ∃ j, (scan prefer l i acc).2 = i + j ∧
          l[j]?.map Prod.fst = some (scan prefer l i acc).1) := by
  intro l
  induction l with
  | nil =>
      intro i acc
      simp [scan]
  | cons e l ih =>
      intro i acc
      simp only [scan]
      by_cases hlt : r acc.1 < r e.1
      · rw [if_pos (by simp [hprefer, hlt])]
        obtain ⟨hacc, hall, hpos⟩ := ih (i + 1) (e.1, i)
        refine ⟨hlt.le.trans hacc, ?_, Or.inr ?_⟩
        · intro x hx
          rcases List.mem_cons.mp hx with rfl | hx
          · exact hacc
          · exact hall x hx
        · rcases hpos with heq | ⟨j, hj, hat⟩
          · exact ⟨0, by simp [heq], by simp [heq]⟩
          · exact ⟨j + 1, by omega, by simpa using hat⟩
      · rw [if_neg (by simp [hprefer, hlt])]
        obtain ⟨hacc, hall, hpos⟩ := ih (i + 1) acc
        refine ⟨hacc, ?_, ?_⟩
        · intro x hx
          rcases List.mem_cons.mp hx with rfl | hx
          · exact (not_lt.mp hlt).trans hacc
          · exact hall x hx
        · rcases hpos with heq | ⟨j, hj, hat⟩
          · exact Or.inl heq
          · exact Or.inr ⟨j + 1, by omega, by simpa using hat⟩

/-- A scan that starts from the least preferred price ends at a slot that
nothing is preferred to. -/
theorem scan_extreme (prefer : UInt32 → UInt32 → Bool) (r : UInt32 → ℤ)
    (p₀ : UInt32) (hprefer : ∀ a b, prefer a b = decide (r b < r a))
    (hinj : ∀ a b, r a = r b → a = b) (hp₀ : ∀ p, r p₀ ≤ r p)
    {l : List (UInt32 × LevelData)} (hl : l ≠ []) :
    l[(scan prefer l 0 (p₀, 0)).2]?.map Prod.fst =
        some (scan prefer l 0 (p₀, 0)).1 ∧
      ∀ e ∈ l, r e.1 ≤ r (scan prefer l 0 (p₀, 0)).1 := by
  obtain ⟨-, hall, hpos⟩ := scan_spec hprefer l 0 (p₀, 0)
  refine ⟨?_, hall⟩
  rcases hpos with heq | ⟨j, hj, hat⟩
  · obtain ⟨e, l, rfl⟩ := List.exists_cons_of_ne_nil hl
    have hle := hall e (by simp)
    rw [heq] at hle ⊢
    have hsame : e.1 = p₀ := hinj _ _ (le_antisymm hle (hp₀ e.1))
    simp [hsame]
  · rw [hj, Nat.zero_add]
    exact hat

/-- `belongs_to_hot` points at the worst hot slot and tells whether the price
is better. -/
theorem belongsToHot_spec (h : t.Tiered) (hK : 0 < K) (price : UInt32) :
    ∃ w d, t.hot[(t.belongsToHot price).2]? = some (w, d) ∧
      (∀ e ∈ t.hot, rank side w ≤ rank side e.1) ∧
      (t.belongsToHot price).1 = decide (rank side w < rank side price) := by
  have hne : t.hot ≠ [] := by
    intro hnil
    have hlen := h.hot_length
    rw [hnil, List.length_nil] at hlen
    omega
  obtain ⟨hat, hall⟩ := scan_extreme
    (fun p worst => better side worst p)
    (fun p => -(rank side p : ℤ)) (bestPossible side)
    (by
      intro a b
      rw [better_eq]
      apply decide_eq_decide.mpr
      omega)
    (by
      intro a b hab
      apply rank_injective side
      omega)
    (by
      intro p
      have hle := rank_le side p
      rw [rank_bestPossible]
      omega) hne
  rw [Option.map_eq_some_iff] at hat
  obtain ⟨⟨w, d⟩, hslot, hw⟩ := hat
  simp only at hw
  refine ⟨w, d, hslot, ?_, ?_⟩
  · intro e he
    have hle := hall e he
    rw [← hw] at hle
    omega
  · rw [hw]
    exact better_eq side price _

/-- The scan of `erase` finds the best hot slot. -/
theorem bestScan_spec (side : Side) {l : List (UInt32 × LevelData)}
    (hl : l ≠ []) :
    l[(scan (fun p best => better side p best) l 0
        (emptyPrice side, 0)).2]?.map Prod.fst =
      some (scan (fun p best => better side p best) l 0
        (emptyPrice side, 0)).1 ∧
    ∀ e ∈ l, rank side e.1 ≤ rank side
      (scan (fun p best => better side p best) l 0
        (emptyPrice side, 0)).1 := by
  obtain ⟨hat, hall⟩ := scan_extreme
    (fun p best => better side p best)
    (fun p => (rank side p : ℤ)) (emptyPrice side)
    (by
      intro a b
      rw [better_eq]
      apply decide_eq_decide.mpr
      omega)
    (by
      intro a b hab
      apply rank_injective side
      omega)
    (by
      intro p
      rw [rank_emptyPrice]
      omega) hl
  refine ⟨hat, ?_⟩
  intro e he
  have hle := hall e he
  omega

/-! ## Reading and writing a level -/

theorem map_fst_set {l : List (UInt32 × LevelData)} {i : ℕ} {p : UInt32}
    {a : LevelData} (h : l[i]? = some (p, a)) (b : LevelData) :
    (l.set i (p, b)).map Prod.fst = l.map Prod.fst := by
  apply List.ext_getElem?
  intro j
  rw [List.getElem?_map, List.getElem?_map, List.getElem?_set]
  by_cases hij : i = j
  · subst hij
    obtain ⟨hi, hget⟩ := List.getElem?_eq_some_iff.mp h
    simp [hi, hget]
  · simp [hij]

/-- Replacing the data of one level in the stored levels. -/
theorem perm_insert_of_replace {l l' : List ((_ : UInt32) × LevelData)}
    {a b : LevelData} (rest : List ((_ : UInt32) × LevelData))
    (hm : l.Perm m.entries) (hl : l.Perm (⟨price, a⟩ :: rest))
    (hl' : l'.Perm (⟨price, b⟩ :: rest)) :
    l'.Perm (m.insert price b).entries := by
  rw [AList.entries_insert]
  exact hl'.trans ((perm_entries_erase (hl.symm.trans hm)).cons _)

/-- `loc` points at the level of `price`, which holds `data`. -/
def Locates (t : TwoTierLevels side K coldCap) (price : UInt32)
    (data : LevelData) : Loc → Prop
  | .none => False
  | .hot i => t.hot[i]? = some (price, data)
  | .cold i => t.cold[i]? = some (price, data)

theorem Locates.get_eq {loc : Loc} {data : LevelData}
    (h : t.Locates price data loc) : t.get loc = some data := by
  cases loc with
  | none => exact h.elim
  | hot i =>
      have h' : t.hot[i]? = some (price, data) := h
      simp [get, h']
  | cold i =>
      have h' : t.cold[i]? = some (price, data) := h
      simp [get, h']

theorem Locates.ne_none {loc : Loc} {data : LevelData}
    (h : t.Locates price data loc) : loc ≠ .none := by
  rintro rfl
  exact h

/-- Writing the data of a level changes no price. -/
theorem Ordered.put {loc : Loc} {data : LevelData} (h : t.Ordered)
    (hloc : t.Locates price data loc) (d : LevelData) :
    (t.put loc d).Ordered := by
  have hsub : ∀ {l : List (UInt32 × LevelData)} {i : ℕ},
      l[i]? = some (price, data) → ∀ e ∈ l.set i (price, d),
        ∃ e' ∈ l, e'.1 = e.1 := by
    intro l i hat e he
    rcases List.mem_or_eq_of_mem_set he with hmem | rfl
    · exact ⟨e, hmem, rfl⟩
    · exact ⟨(price, data), List.mem_of_getElem? hat, rfl⟩
  cases loc with
  | none => exact h
  | hot i =>
      have hat : t.hot[i]? = some (price, data) := hloc
      have hset : (t.put (.hot i) d).hot = t.hot.set i (price, d) := by
        simp [TwoTierLevels.put, modify_eq_set hat]
      refine ⟨⟨?_, h.cold_length, h.cold_sorted, h.cold_used, ?_⟩, ?_, ?_⟩
      · rw [hset, List.length_set]
        exact h.hot_length
      · intro c hc e he
        rw [hset] at he
        obtain ⟨e', he', heq⟩ := hsub hat e he
        rw [← heq]
        exact h.cold_below c hc e' he'
      · rw [← List.getElem?_map, hset, map_fst_set hat, List.getElem?_map]
        exact h.best_at
      · intro e he
        rw [hset] at he
        obtain ⟨e', he', heq⟩ := hsub hat e he
        rw [← heq]
        exact h.best_max e' he'
  | cold i =>
      have hat : t.cold[i]? = some (price, data) := hloc
      have hset : (t.put (.cold i) d).cold = t.cold.set i (price, d) := by
        simp [TwoTierLevels.put, modify_eq_set hat]
      refine ⟨⟨h.hot_length, ?_, ?_, ?_, ?_⟩, h.best_at, h.best_max⟩
      · rw [hset, List.length_set]
        exact h.cold_length
      · have hsorted := h.cold_sorted
        rw [hset]
        rw [← List.pairwise_map (f := Prod.fst)
          (R := fun a b => rank side a < rank side b)] at hsorted ⊢
        rwa [map_fst_set hat]
      · intro c hc
        rw [hset] at hc
        obtain ⟨c', hc', heq⟩ := hsub hat c hc
        rw [← heq]
        exact h.cold_used c' hc'
      · intro c hc e he
        rw [hset] at hc
        obtain ⟨c', hc', heq⟩ := hsub hat c hc
        rw [← heq]
        exact h.cold_below c' hc' e he

/-- A write through the pointer to a level rebinds its price. -/
theorem Represents.put {loc : Loc} {data : LevelData} (h : t.Represents m)
    (hprice : price ≠ emptyPrice side) (hloc : t.Locates price data loc)
    (d : LevelData) : (t.put loc d).Represents (m.insert price d) := by
  refine ⟨h.ordered.put hloc d, ?_⟩
  have hused : ∀ l : List (UInt32 × LevelData), ∀ e : LevelData,
      usedLevels side ((price, e) :: l) = ⟨price, e⟩ :: usedLevels side l :=
    fun l e => usedLevels_cons hprice
  cases loc with
  | none => exact hloc.elim
  | hot i =>
      have hat : t.hot[i]? = some (price, data) := hloc
      apply perm_insert_of_replace (a := data)
        (usedLevels side (t.hot.eraseIdx i ++ t.cold)) h.perm
      · rw [← hused]
        exact usedLevels_perm side ((perm_cons_eraseIdx hat).append_right t.cold)
      · rw [← hused]
        apply usedLevels_perm side
        have hset : (t.put (.hot i) d).hot = t.hot.set i (price, d) := by
          simp [TwoTierLevels.put, modify_eq_set hat]
        rw [hset]
        exact (set_perm_cons_eraseIdx hat _).append_right t.cold
  | cold i =>
      have hat : t.cold[i]? = some (price, data) := hloc
      apply perm_insert_of_replace (a := data)
        (usedLevels side (t.hot ++ t.cold.eraseIdx i)) h.perm
      · rw [← hused]
        apply usedLevels_perm side
        exact ((perm_cons_eraseIdx hat).append_left t.hot).trans
          List.perm_middle
      · rw [← hused]
        apply usedLevels_perm side
        have hset : (t.put (.cold i) d).cold = t.cold.set i (price, d) := by
          simp [TwoTierLevels.put, modify_eq_set hat]
        rw [hset]
        exact ((set_perm_cons_eraseIdx hat _).append_left t.hot).trans
          List.perm_middle

/-- `find` points at the level of a stored price. -/
theorem findIdx_locates {data : LevelData} (h : t.Represents m)
    (hlookup : m.lookup price = some data) :
    t.Locates price data (t.findIdx price) := by
  obtain ⟨hmem, hprice⟩ := h.lookup_eq_some_iff.mp hlookup
  rcases findIdx_of_mem h.ordered.toTiered hmem with
    ⟨i, hfind, d, hat⟩ | ⟨i, hfind, hat⟩
  · have hd := h.lookup_eq_some_iff.mpr
      ⟨Or.inl (List.mem_of_getElem? hat), hprice⟩
    rw [hlookup] at hd
    cases hd
    rw [hfind]
    exact hat
  · rw [hfind]
    exact hat

theorem findIdx_eq_none (h : t.Represents m) (hprice : price ≠ emptyPrice side)
    (hlookup : m.lookup price = none) : t.findIdx price = .none := by
  rw [AList.lookup_eq_none, h.notMem_iff hprice] at hlookup
  exact findIdx_of_notMem hlookup

/-! ## Creating a level -/

theorem Represents.length_le_slots (h : t.Represents m) :
    m.entries.length ≤ K + t.cold.length := by
  have hle : t.entries.length ≤ (t.hot ++ t.cold).length :=
    length_usedLevels_le side _
  rw [h.perm.length_eq, List.length_append, h.ordered.hot_length] at hle
  exact hle

/-- When every hot slot is used, the levels fill the hot tier. -/
theorem Represents.length_eq_slots (h : t.Represents m)
    (hused : ∀ e ∈ t.hot, e.1 ≠ emptyPrice side) :
    m.entries.length = K + t.cold.length := by
  have hlen : t.entries.length = (t.hot ++ t.cold).length := by
    apply length_usedLevels
    intro e he
    rcases List.mem_append.mp he with he | he
    · exact hused e he
    · exact h.ordered.cold_used e he
  rw [h.perm.length_eq, List.length_append, h.ordered.hot_length] at hlen
  exact hlen

/-- Prices in the other hot slots differ from a used one. -/
theorem Represents.fst_ne_of_mem_eraseIdx (h : t.Represents m) {i : ℕ}
    {w : UInt32} {d : LevelData} (hat : t.hot[i]? = some (w, d))
    (hw : w ≠ emptyPrice side) {e : UInt32 × LevelData}
    (he : e ∈ t.hot.eraseIdx i) : e.1 ≠ w := by
  intro heq
  have hperm : t.entries.Perm
      (⟨w, d⟩ :: usedLevels side (t.hot.eraseIdx i ++ t.cold)) := by
    rw [← usedLevels_cons (e := (w, d)) hw]
    exact usedLevels_perm side ((perm_cons_eraseIdx hat).append_right t.cold)
  have hnodup := (List.perm_nodupKeys (hperm.symm.trans h.perm)).mpr m.nodupKeys
  rw [List.nodupKeys_cons] at hnodup
  apply hnodup.1
  have hmem : (⟨w, e.2⟩ : (_ : UInt32) × LevelData) ∈
      usedLevels side (t.hot.eraseIdx i ++ t.cold) := by
    rw [mem_usedLevels, List.mem_append]
    refine ⟨Or.inl ?_, hw⟩
    rw [← heq]
    exact he
  exact List.mem_map.mpr ⟨_, hmem, rfl⟩

/-- Inserting a level that is worse than every hot one into the cold tier. -/
theorem insertToCold_spec (h : t.Tiered) (hroom : t.cold.length < coldCap)
    (hnew : ∀ c ∈ t.cold, rank side c.1 ≠ rank side price)
    (data : LevelData) :
    ∃ i t', t.insertToCold price data = some (i, t') ∧
      t'.cold[i]? = some (price, data) ∧
      t'.cold.Perm ((price, data) :: t.cold) ∧ t'.hot = t.hot ∧
      t'.bestPrice = t.bestPrice ∧ t'.bestIdx = t.bestIdx ∧
      t'.cold.Pairwise fun a b => rank side a.1 < rank side b.1 := by
  have hle : upperBound side t.cold price ≤ t.cold.length :=
    List.findIdx_le_length
  let cold' := t.cold.insertIdx (upperBound side t.cold price) (price, data)
  refine ⟨upperBound side t.cold price, { t with cold := cold' }, by
    simp only [insertToCold]
    rw [if_neg (by omega)], ?_, ?_, rfl, rfl, rfl, ?_⟩
  · rw [List.getElem?_eq_getElem (by
      rw [List.length_insertIdx_of_le_length hle]
      omega), List.getElem_insertIdx_self]
  · exact List.perm_insertIdx _ _ hle
  · have hsorted := pairwise_insertIdx_findIdx (x := (price, data))
      h.cold_sorted hnew
    have hcomp : upperBound side t.cold price =
        t.cold.findIdx fun e => decide (rank side price < rank side e.1) := by
      simp only [upperBound, comp_eq]
    simpa only [cold', hcomp] using hsorted

/-- The new level in a hot slot, and the best price after it. -/
theorem placeHot_ordered {i : ℕ} {w : UInt32} {d : LevelData}
    (htier : (t.placeHot price i).Tiered)
    (hat : t.hot[i]? = some (w, d)) (hw : rank side w < rank side price)
    (hbest : t.hot[t.bestIdx]?.map Prod.fst = some t.bestPrice)
    (hmax : ∀ h ∈ t.hot, rank side h.1 ≤ rank side t.bestPrice) :
    (t.placeHot price i).Ordered := by
  obtain ⟨hi, -⟩ := List.getElem?_eq_some_iff.mp hat
  have hwmax := hmax _ (List.mem_of_getElem? hat)
  refine ⟨htier, ?_, ?_⟩
  · simp only [placeHot, better_eq]
    by_cases hlt : rank side t.bestPrice < rank side price
    · simp [hlt, hi]
    · have hne : i ≠ t.bestIdx := by
        intro heq
        rw [← heq, hat] at hbest
        simp only [Option.map_some, Option.some.injEq] at hbest
        rw [hbest] at hw
        exact hlt hw
      simp only [hlt, decide_false, Bool.false_eq_true, if_false]
      rw [List.getElem?_set_ne hne]
      exact hbest
  · intro e he
    simp only [placeHot, better_eq] at he ⊢
    rcases List.mem_or_eq_of_mem_set he with hmem | rfl
    · have hle := hmax e hmem
      by_cases hlt : rank side t.bestPrice < rank side price
      · simp only [hlt, decide_true, if_true]
        omega
      · simpa only [hlt, decide_false, Bool.false_eq_true, if_false] using hle
    · by_cases hlt : rank side t.bestPrice < rank side price
      · simp [hlt]
      · simp only [hlt, decide_false, Bool.false_eq_true, if_false]
        omega

theorem findOrInsert_of_lookup {data : LevelData} (h : t.Represents m)
    (hlookup : m.lookup price = some data) :
    t.findOrInsert price = (t.findIdx price, t) := by
  have hne := (findIdx_locates h hlookup).ne_none
  unfold findOrInsert
  split
  · next heq => exact absurd heq hne
  · rfl

/-- A new price without room: all `K + ColdCap` levels are taken, and nothing
changes. -/
theorem findOrInsert_full (h : t.Represents m) (hK : 0 < K)
    (hprice : price ≠ emptyPrice side) (hlookup : m.lookup price = none)
    (hfull : K + coldCap ≤ m.entries.length) :
    t.findOrInsert price = (.none, t) := by
  have hfind := findIdx_eq_none h hprice hlookup
  have hcold : coldCap ≤ t.cold.length := by
    have hle := h.length_le_slots
    omega
  obtain ⟨w, d, hat, hmin, hbelongs⟩ :=
    belongsToHot_spec h.ordered.toTiered hK price
  have hnone : ∀ p e, t.insertToCold p e = none := by
    intro p e
    simp [insertToCold, hcold]
  have hused : w ≠ emptyPrice side := by
    intro hw
    have hperm : t.entries.Perm
        (usedLevels side (t.hot.eraseIdx (t.belongsToHot price).2 ++ t.cold)) := by
      rw [← usedLevels_cons_unused (e := (w, d)) hw]
      exact usedLevels_perm side ((perm_cons_eraseIdx hat).append_right t.cold)
    have hlen := length_usedLevels_le side
      (t.hot.eraseIdx (t.belongsToHot price).2 ++ t.cold)
    obtain ⟨hi, -⟩ := List.getElem?_eq_some_iff.mp hat
    rw [← hperm.length_eq, h.perm.length_eq, List.length_append,
      List.length_eraseIdx_of_lt hi, h.ordered.hot_length] at hlen
    have hle := h.ordered.cold_length
    omega
  unfold findOrInsert
  rw [hfind]
  simp only [hnone, hat, hused, ne_eq, not_false_eq_true, if_true]
  split <;> rfl

/-- A table that holds one more level than before stands for the map with that
level. -/
theorem Represents.perm_insert (h : t.Represents m) (hnot : price ∉ m)
    {l : List ((_ : UInt32) × LevelData)}
    (hl : l.Perm (⟨price, {}⟩ :: t.entries)) :
    l.Perm (m.insert price {}).entries := by
  rw [AList.entries_insert_of_notMem hnot]
  exact hl.trans (h.perm.cons _)

/-- A new price that belongs to the hot tier takes a free hot slot. -/
theorem findOrInsert_free (h : t.Represents m)
    (hprice : price ≠ emptyPrice side) (hnot : price ∉ m)
    (hfind : t.findIdx price = .none)
    (hfound : (t.belongsToHot price).1 = true)
    {w : UInt32} {d : LevelData}
    (hat : t.hot[(t.belongsToHot price).2]? = some (w, d))
    (hlt : rank side w < rank side price) (hw : w = emptyPrice side) :
    ∃ loc t', t.findOrInsert price = (loc, t') ∧ t'.Locates price {} loc ∧
      t'.Represents (m.insert price {}) := by
  have hwmem := List.mem_of_getElem? hat
  have hcoldNil : t.cold = [] := by
    rw [List.eq_nil_iff_forall_not_mem]
    intro c hc
    have hbelow := h.ordered.cold_below c hc _ hwmem
    rw [hw, rank_emptyPrice] at hbelow
    omega
  refine ⟨.hot (t.belongsToHot price).2,
    t.placeHot price (t.belongsToHot price).2, ?_, ?_, ?_, ?_⟩
  · unfold findOrInsert
    rw [hfind]
    simp [hfound, hat, hw]
  · obtain ⟨hi, -⟩ := List.getElem?_eq_some_iff.mp hat
    simp [Locates, placeHot, hi]
  · apply placeHot_ordered _ hat hlt h.ordered.best_at h.ordered.best_max
    refine ⟨?_, ?_, ?_, ?_, ?_⟩
    · simpa [placeHot] using h.ordered.hot_length
    · exact h.ordered.cold_length
    · exact h.ordered.cold_sorted
    · exact h.ordered.cold_used
    · intro c hc
      rw [placeHot, hcoldNil] at hc
      cases hc
  · apply h.perm_insert hnot
    have hslots : ((t.placeHot price (t.belongsToHot price).2).hot ++
        t.cold).Perm ((price, {}) ::
          (t.hot.eraseIdx (t.belongsToHot price).2 ++ t.cold)) :=
      (set_perm_cons_eraseIdx hat _).append_right t.cold
    have hold := (perm_cons_eraseIdx hat).append_right t.cold
    have hnew := usedLevels_perm side hslots
    have hold' := usedLevels_perm side hold
    rw [usedLevels_cons (e := (price, {})) hprice] at hnew
    rw [List.cons_append, usedLevels_cons_unused (e := (w, d)) hw] at hold'
    exact hnew.trans (hold'.symm.cons _)

/-- When the worst hot level makes way for a better one, it and the cold levels
stay below the hot ones. -/
theorem Represents.displaced_below (h : t.Represents m) {i : ℕ} {w : UInt32}
    {d : LevelData} (hat : t.hot[i]? = some (w, d))
    (hmin : ∀ e ∈ t.hot, rank side w ≤ rank side e.1)
    (hlt : rank side w < rank side price) (hw : w ≠ emptyPrice side)
    {c e : UInt32 × LevelData} (hc : c = (w, d) ∨ c ∈ t.cold)
    (he : e = (price, {}) ∨ e ∈ t.hot.eraseIdx i) :
    rank side c.1 < rank side e.1 := by
  have hwmem := List.mem_of_getElem? hat
  rcases he with rfl | he
  · rcases hc with rfl | hc
    · exact hlt
    · exact (h.ordered.cold_below c hc _ hwmem).trans hlt
  · have hmem := (List.eraseIdx_sublist _ _).subset he
    rcases hc with rfl | hc
    · have hne := h.fst_ne_of_mem_eraseIdx hat hw he
      have hrank : rank side w ≠ rank side e.1 := fun heq =>
        hne (rank_injective side heq.symm)
      exact lt_of_le_of_ne (hmin e hmem) hrank
    · exact h.ordered.cold_below c hc e hmem

/-- A new price that belongs to a full hot tier displaces the worst level there,
which moves to the cold tier. -/
theorem findOrInsert_displaces (h : t.Represents m)
    (hprice : price ≠ emptyPrice side) (hnot : price ∉ m)
    (hroom : m.entries.length < K + coldCap)
    (hfind : t.findIdx price = .none)
    (hfound : (t.belongsToHot price).1 = true)
    {w : UInt32} {d : LevelData}
    (hat : t.hot[(t.belongsToHot price).2]? = some (w, d))
    (hmin : ∀ e ∈ t.hot, rank side w ≤ rank side e.1)
    (hlt : rank side w < rank side price) (hw : w ≠ emptyPrice side) :
    ∃ loc t', t.findOrInsert price = (loc, t') ∧ t'.Locates price {} loc ∧
      t'.Represents (m.insert price {}) := by
  have hwmem := List.mem_of_getElem? hat
  have hused : ∀ e ∈ t.hot, e.1 ≠ emptyPrice side := by
    intro e he
    apply ne_emptyPrice_of_rank_pos
    have hle := hmin e he
    have hpos := rank_pos hw
    omega
  have hcoldRoom : t.cold.length < coldCap := by
    have hlen := h.length_eq_slots hused
    omega
  have hwNe : ∀ c ∈ t.cold, rank side c.1 ≠ rank side w :=
    fun c hc => (h.ordered.cold_below c hc _ hwmem).ne
  obtain ⟨j, t', hins, -, hperm, hhot, hbp, hbi, hsorted⟩ :=
    insertToCold_spec h.ordered.toTiered hcoldRoom hwNe d
  have hat' : t'.hot[(t.belongsToHot price).2]? = some (w, d) := by
    rw [hhot]
    exact hat
  refine ⟨.hot (t.belongsToHot price).2,
    t'.placeHot price (t.belongsToHot price).2, ?_, ?_, ?_, ?_⟩
  · unfold findOrInsert
    rw [hfind]
    simp [hfound, hat, hw, hins]
  · obtain ⟨hi, -⟩ := List.getElem?_eq_some_iff.mp hat'
    simp [Locates, placeHot, hi]
  · apply placeHot_ordered _ hat' hlt
    · rw [hhot, hbp, hbi]
      exact h.ordered.best_at
    · rw [hhot, hbp]
      exact h.ordered.best_max
    · refine ⟨?_, ?_, hsorted, ?_, ?_⟩
      · simpa [placeHot, hhot] using h.ordered.hot_length
      · have hlen := hperm.length_eq
        rw [List.length_cons] at hlen
        change t'.cold.length ≤ coldCap
        omega
      · intro c hc
        change c ∈ t'.cold at hc
        rw [hperm.mem_iff, List.mem_cons] at hc
        rcases hc with rfl | hc
        · exact hw
        · exact h.ordered.cold_used c hc
      · intro c hc e he
        change c ∈ t'.cold at hc
        change e ∈ t'.hot.set _ _ at he
        rw [hperm.mem_iff, List.mem_cons] at hc
        rw [hhot, (set_perm_cons_eraseIdx hat _).mem_iff,
          List.mem_cons] at he
        exact h.displaced_below hat hmin hlt hw hc he
  · apply h.perm_insert hnot
    have hslots : ((t'.placeHot price (t.belongsToHot price).2).hot ++
        t'.cold).Perm ((price, {}) ::
          ((w, d) :: (t.hot.eraseIdx (t.belongsToHot price).2 ++ t.cold))) := by
      have hset := set_perm_cons_eraseIdx hat (price, ({} : LevelData))
      have hhead : (t'.placeHot price (t.belongsToHot price).2).hot =
          t.hot.set (t.belongsToHot price).2 (price, {}) := by
        simp only [placeHot, hhot]
      rw [hhead]
      exact (hset.append hperm).trans (List.perm_middle.cons _)
    have hold := (perm_cons_eraseIdx hat).append_right t.cold
    have hnew := usedLevels_perm side hslots
    rw [usedLevels_cons (e := (price, {})) hprice] at hnew
    exact hnew.trans ((usedLevels_perm side hold).symm.cons _)

/-- A new price worse than every hot one goes to the cold tier. -/
theorem findOrInsert_cold (h : t.Represents m)
    (hprice : price ≠ emptyPrice side) (hnot : price ∉ m)
    (hroom : m.entries.length < K + coldCap)
    (hfind : t.findIdx price = .none)
    (hfound : (t.belongsToHot price).1 = false)
    (hworse : ∀ e ∈ t.hot, rank side price < rank side e.1) :
    ∃ loc t', t.findOrInsert price = (loc, t') ∧ t'.Locates price {} loc ∧
      t'.Represents (m.insert price {}) := by
  have habsent := (h.notMem_iff hprice).mp hnot
  have hcoldNe : ∀ c ∈ t.cold, rank side c.1 ≠ rank side price := by
    intro c hc heq
    have hsame := rank_injective side heq
    apply (habsent c.2).2
    rw [← hsame]
    exact hc
  have hcoldRoom : t.cold.length < coldCap := by
    have hlen := h.length_eq_slots (by
      intro e he
      apply ne_emptyPrice_of_rank_pos
      have hlt' := hworse e he
      omega)
    omega
  obtain ⟨j, t', hins, hat', hperm, hhot, hbp, hbi, hsorted⟩ :=
    insertToCold_spec h.ordered.toTiered hcoldRoom hcoldNe {}
  refine ⟨.cold j, t', ?_, hat', ⟨⟨?_, ?_, hsorted, ?_, ?_⟩, ?_, ?_⟩, ?_⟩
  · unfold findOrInsert
    rw [hfind]
    simp [hfound, hins]
  · rw [hhot]
    exact h.ordered.hot_length
  · have hlen := hperm.length_eq
    rw [List.length_cons] at hlen
    omega
  · intro c hc
    rw [hperm.mem_iff, List.mem_cons] at hc
    rcases hc with rfl | hc
    · exact hprice
    · exact h.ordered.cold_used c hc
  · intro c hc e he
    rw [hhot] at he
    rw [hperm.mem_iff, List.mem_cons] at hc
    rcases hc with rfl | hc
    · exact hworse e he
    · exact h.ordered.cold_below c hc e he
  · rw [hhot, hbp, hbi]
    exact h.ordered.best_at
  · rw [hhot, hbp]
    exact h.ordered.best_max
  · apply h.perm_insert hnot
    have hslots : (t'.hot ++ t'.cold).Perm
        ((price, {}) :: (t.hot ++ t.cold)) := by
      rw [hhot]
      exact (hperm.append_left t.hot).trans List.perm_middle
    have hnew := usedLevels_perm side hslots
    rw [usedLevels_cons (e := (price, {})) hprice] at hnew
    exact hnew

/-- A new price with room gets a zeroed level, and every other level keeps its
data. -/
theorem findOrInsert_new (h : t.Represents m) (hK : 0 < K)
    (hprice : price ≠ emptyPrice side) (hlookup : m.lookup price = none)
    (hroom : m.entries.length < K + coldCap) :
    ∃ loc t', t.findOrInsert price = (loc, t') ∧ t'.Locates price {} loc ∧
      t'.Represents (m.insert price {}) := by
  have hfind := findIdx_eq_none h hprice hlookup
  have hnot := AList.lookup_eq_none.mp hlookup
  obtain ⟨w, d, hat, hmin, hbelongs⟩ :=
    belongsToHot_spec h.ordered.toTiered hK price
  by_cases hlt : rank side w < rank side price
  · have hfound : (t.belongsToHot price).1 = true := by simp [hbelongs, hlt]
    by_cases hw : w = emptyPrice side
    · exact findOrInsert_free h hprice hnot hfind hfound hat hlt hw
    · exact findOrInsert_displaces h hprice hnot hroom hfind hfound hat hmin
        hlt hw
  · have hfound : (t.belongsToHot price).1 = false := by simp [hbelongs, hlt]
    have habsent := (h.notMem_iff hprice).mp hnot
    have hworse : ∀ e ∈ t.hot, rank side price < rank side e.1 := by
      intro e he
      have hle := hmin e he
      have hne : rank side e.1 ≠ rank side price := by
        intro heq
        apply (habsent e.2).1
        rw [← rank_injective side heq]
        exact he
      omega
    exact findOrInsert_cold h hprice hnot hroom hfind hfound hworse

/-! ## Removing a level -/

/-- Refilling the slot of an erased hot level keeps the tiers apart. -/
theorem refill_tiered (h : t.Tiered) (i : ℕ) : (t.refill i).Tiered := by
  cases hlast : t.cold.getLast? with
  | none =>
      have hnil : t.cold = [] := List.getLast?_eq_none_iff.mp hlast
      simp only [refill, hlast]
      refine ⟨?_, h.cold_length, h.cold_sorted, h.cold_used, ?_⟩
      · simpa using h.hot_length
      · intro c hc
        rw [hnil] at hc
        cases hc
  | some e =>
      obtain ⟨ys, hys⟩ := List.getLast?_eq_some_iff.mp hlast
      have hsorted := h.cold_sorted
      have hlen := h.cold_length
      rw [hys, List.pairwise_append] at hsorted
      simp only [hys, List.length_append, List.length_singleton] at hlen
      simp only [refill, hlast]
      rw [hys, List.dropLast_concat]
      have hsub : ∀ c ∈ ys, c ∈ t.cold := by
        intro c hc
        simp [hys, hc]
      refine ⟨?_, ?_, hsorted.1, ?_, ?_⟩
      · simpa using h.hot_length
      · change ys.length ≤ coldCap
        omega
      · intro c hc
        exact h.cold_used c (hsub c hc)
      · intro c hc x hx
        rcases List.mem_or_eq_of_mem_set hx with hmem | rfl
        · exact h.cold_below c (hsub c hc) x hmem
        · exact hsorted.2.2 c hc _ (by simp)

/-- Whatever refills the slot is worse than the best price. -/
theorem refill_best_max (h : t.Ordered) (i : ℕ) :
    ∀ e ∈ (t.refill i).hot, rank side e.1 ≤ rank side t.bestPrice := by
  intro e he
  cases hlast : t.cold.getLast? with
  | none =>
      simp only [refill, hlast] at he
      rw [List.modify_eq_set_getElem?] at he
      cases hslot : t.hot[i]? with
      | none =>
          rw [hslot] at he
          exact h.best_max e he
      | some s =>
          rw [hslot] at he
          rcases List.mem_or_eq_of_mem_set he with hmem | rfl
          · exact h.best_max e hmem
          · simp [rank_emptyPrice]
  | some c =>
      simp only [refill, hlast] at he
      rcases List.mem_or_eq_of_mem_set he with hmem | rfl
      · exact h.best_max e hmem
      · obtain ⟨b, hb, hbest⟩ := Option.map_eq_some_iff.mp h.best_at
        rw [← hbest]
        exact (h.cold_below _ (List.mem_of_getLast? hlast) b
          (List.mem_of_getElem? hb)).le

theorem refill_getElem?_ne {i j : ℕ} (hij : i ≠ j) :
    (t.refill i).hot[j]? = t.hot[j]? := by
  cases hlast : t.cold.getLast? with
  | none => simp [refill, hlast, hij]
  | some c => simp [refill, hlast, List.getElem?_set_ne hij]

/-- The levels after refilling slot `i`: those of the other slots. -/
theorem refill_entries {i : ℕ} {e : UInt32 × LevelData}
    (hat : t.hot[i]? = some e) :
    (t.refill i).entries.Perm
      (usedLevels side (t.hot.eraseIdx i ++ t.cold)) := by
  unfold entries
  cases hlast : t.cold.getLast? with
  | none =>
      simp only [refill, hlast, modify_eq_set hat]
      have hset := set_perm_cons_eraseIdx hat (emptyPrice side, e.2)
      have hused := usedLevels_perm side (hset.append_right t.cold)
      rwa [List.cons_append, usedLevels_cons_unused rfl] at hused
  | some c =>
      obtain ⟨ys, hys⟩ := List.getLast?_eq_some_iff.mp hlast
      simp only [refill, hlast]
      apply usedLevels_perm side
      have hset := set_perm_cons_eraseIdx hat c
      rw [hys, List.dropLast_concat]
      refine (hset.append_right ys).trans ?_
      rw [List.cons_append, ← List.append_assoc]
      exact (List.perm_append_singleton _ _).symm

/-- `erase` removes exactly the level of the price. -/
theorem Represents.erase {data : LevelData} (h : t.Represents m)
    (hlookup : m.lookup price = some data) :
    (t.erase price).Represents (m.erase price) := by
  have hloc := findIdx_locates h hlookup
  have hprice := (h.lookup_eq_some_iff.mp hlookup).2
  cases hfind : t.findIdx price with
  | none =>
      rw [hfind] at hloc
      exact hloc.elim
  | hot i =>
      rw [hfind] at hloc
      have hat : t.hot[i]? = some (price, data) := hloc
      have hperm : t.entries.Perm
          (⟨price, data⟩ :: usedLevels side (t.hot.eraseIdx i ++ t.cold)) := by
        rw [← usedLevels_cons (e := (price, data)) hprice]
        exact usedLevels_perm side ((perm_cons_eraseIdx hat).append_right t.cold)
      have hentries := (refill_entries hat).trans
        (perm_entries_erase (hperm.symm.trans h.perm))
      have htier := refill_tiered h.ordered.toTiered i
      by_cases hbest : i = t.bestIdx
      · have hne : (t.refill i).hot ≠ [] := by
          intro hnil
          obtain ⟨hi, -⟩ := List.getElem?_eq_some_iff.mp hat
          have hlen := htier.hot_length
          rw [hnil, List.length_nil, ← h.ordered.hot_length] at hlen
          omega
        obtain ⟨hscan, hmax⟩ := bestScan_spec side hne
        have herase : t.erase price = { t.refill i with
            bestPrice := (scan (fun p best => better side p best)
              (t.refill i).hot 0 (emptyPrice side, 0)).1
            bestIdx := (scan (fun p best => better side p best)
              (t.refill i).hot 0 (emptyPrice side, 0)).2 } := by
          simp [TwoTierLevels.erase, hfind, hbest]
        rw [herase]
        exact ⟨⟨⟨htier.hot_length, htier.cold_length, htier.cold_sorted,
          htier.cold_used, htier.cold_below⟩, hscan, hmax⟩, hentries⟩
      · have herase : t.erase price = t.refill i := by
          simp [TwoTierLevels.erase, hfind, hbest]
        have hsame : (t.refill i).bestPrice = t.bestPrice ∧
            (t.refill i).bestIdx = t.bestIdx := by
          unfold refill
          split <;> exact ⟨rfl, rfl⟩
        rw [herase]
        refine ⟨⟨htier, ?_, ?_⟩, hentries⟩
        · rw [hsame.1, hsame.2, refill_getElem?_ne hbest]
          exact h.ordered.best_at
        · rw [hsame.1]
          exact refill_best_max h.ordered i
  | cold i =>
      rw [hfind] at hloc
      have hat : t.cold[i]? = some (price, data) := hloc
      have herase : t.erase price = { t with cold := t.cold.eraseIdx i } := by
        simp [TwoTierLevels.erase, hfind]
      have hsub := List.eraseIdx_sublist t.cold i
      rw [herase]
      refine ⟨⟨⟨h.ordered.hot_length, ?_, ?_, ?_, ?_⟩, h.ordered.best_at,
        h.ordered.best_max⟩, ?_⟩
      · exact hsub.length_le.trans h.ordered.cold_length
      · exact h.ordered.cold_sorted.sublist hsub
      · intro c hc
        exact h.ordered.cold_used c (hsub.subset hc)
      · intro c hc
        exact h.ordered.cold_below c (hsub.subset hc)
      · have hperm : t.entries.Perm (⟨price, data⟩ ::
            usedLevels side (t.hot ++ t.cold.eraseIdx i)) := by
          rw [← usedLevels_cons (e := (price, data)) hprice]
          apply usedLevels_perm side
          exact ((perm_cons_eraseIdx hat).append_left t.hot).trans
            List.perm_middle
        exact perm_entries_erase (hperm.symm.trans h.perm)

/-! ## Construction and the best price -/

theorem fresh_represents (hK : 0 < K) :
    (fresh : TwoTierLevels side K coldCap).Represents ∅ := by
  have hslot : ∀ e ∈ List.replicate K (emptyPrice side, ({} : LevelData)),
      e.1 = emptyPrice side := by
    intro e he
    rw [(List.mem_replicate.mp he).2]
  refine ⟨⟨⟨?_, ?_, ?_, ?_, ?_⟩, ?_, ?_⟩, ?_⟩
  · exact List.length_replicate
  · exact Nat.zero_le _
  · exact List.Pairwise.nil
  · intro c hc
    cases hc
  · intro c hc
    cases hc
  · simp [fresh, hK]
  · intro e he
    rw [hslot e he]
    rfl
  · have hnil : (fresh : TwoTierLevels side K coldCap).entries = [] := by
      unfold entries usedLevels fresh
      rw [List.append_nil, List.filter_eq_nil_iff.mpr, List.map_nil]
      intro e he
      simp [hslot e he]
    rw [hnil]
    exact List.Perm.refl _

/-- The best price is the sentinel when there is no level, and otherwise the
price of a level that no other beats. -/
theorem Represents.bestPrice_spec (h : t.Represents m) :
    (t.bestPrice = emptyPrice side ∧ m.entries = []) ∨
    (t.bestPrice ∈ m ∧ ∀ p ∈ m, rank side p ≤ rank side t.bestPrice) := by
  obtain ⟨⟨b, d⟩, hb, hbest⟩ := Option.map_eq_some_iff.mp h.ordered.best_at
  simp only at hbest
  rw [hbest] at hb
  have hbmem := List.mem_of_getElem? hb
  by_cases hempty : t.bestPrice = emptyPrice side
  · left
    refine ⟨hempty, ?_⟩
    -- a stored level would be at most as good as the sentinel
    rw [List.eq_nil_iff_forall_not_mem]
    rintro ⟨p, e⟩ hmem
    rw [← h.perm.mem_iff, mem_entries] at hmem
    obtain ⟨hstored, hp⟩ := hmem
    have hpos := rank_pos hp
    rcases hstored with hhot | hcold
    · have hle : rank side p ≤ rank side t.bestPrice :=
        h.ordered.best_max _ hhot
      rw [hempty, rank_emptyPrice] at hle
      omega
    · have hlt := h.ordered.cold_below _ hcold _ hbmem
      rw [hempty, rank_emptyPrice] at hlt
      exact absurd hlt (Nat.not_lt_zero _)
  · right
    constructor
    · rw [← AList.lookup_isSome,
        h.lookup_eq_some_iff.mpr ⟨Or.inl hbmem, hempty⟩]
      rfl
    · intro p hp
      obtain ⟨e, he⟩ := Option.isSome_iff_exists.mp (AList.lookup_isSome.mpr hp)
      obtain ⟨hstored, -⟩ := h.lookup_eq_some_iff.mp he
      rcases hstored with hhot | hcold
      · exact h.ordered.best_max _ hhot
      · exact (h.ordered.cold_below _ hcold _ hbmem).le

end TwoTierLevels

end Fastbook

import Fastbook.OrderBook.TwoTierLevelsMap

/-!
# Runs of the two-tier levels

A user of `TwoTierLevels` asks for a level by its price, writes through the
pointer it gets and erases levels.  `LevelMap` is the reference for such runs:
a finite map from prices to level data with a bound on the number of prices.
Every run from the constructor keeps the tier invariant and shows exactly what
the reference holds.
-/

namespace Fastbook

open Support

/-- The levels of one side as a finite map. -/
abbrev LevelMap := AList fun _ : UInt32 => LevelData

/-- A use of the levels: `find_or_insert` or `find`, each with the writes made
through the pointer it returns before the levels change again, or `erase`. -/
inductive LevelCall where
  | findOrInsert (price : UInt32) (writes : List LevelData)
  | find (price : UInt32) (writes : List LevelData)
  | erase (price : UInt32)
  deriving DecidableEq, Repr

namespace LevelCall

def price : LevelCall → UInt32
  | findOrInsert price _ => price
  | find price _ => price
  | erase price => price

end LevelCall

namespace LevelMap

def write (m : LevelMap) (price : UInt32) (writes : List LevelData) :
    LevelMap :=
  writes.foldl (fun m data => m.insert price data) m

/-- What the reference answers: the level data the returned pointer shows, or
`none` for a null pointer. -/
def call (cap : ℕ) (m : LevelMap) : LevelCall → Option LevelData × LevelMap
  | .findOrInsert price writes =>
    match m.lookup price with
    | some data => (some data, m.write price writes)
    | none =>
      if cap ≤ m.entries.length then (none, m)
      else (some {}, LevelMap.write (m.insert price {}) price writes)
  | .find price writes =>
    match m.lookup price with
    | none => (none, m)
    | some data => (some data, m.write price writes)
  | .erase price => (none, m.erase price)

def calls (cap : ℕ) (m : LevelMap) :
    List LevelCall → List (Option LevelData) × LevelMap
  | [] => ([], m)
  | c :: cs =>
    let (a, m₁) := m.call cap c
    let (as, m₂) := m₁.calls cap cs
    (a :: as, m₂)

end LevelMap

namespace TwoTierLevels

variable {side : Side} {K coldCap : ℕ}

def putAll (t : TwoTierLevels side K coldCap) (loc : Loc)
    (writes : List LevelData) : TwoTierLevels side K coldCap :=
  writes.foldl (fun t data => t.put loc data) t

def call (t : TwoTierLevels side K coldCap) :
    LevelCall → Option LevelData × TwoTierLevels side K coldCap
  | .findOrInsert price writes =>
    let (loc, t') := t.findOrInsert price
    (t'.get loc, t'.putAll loc writes)
  | .find price writes =>
    let loc := t.findIdx price
    (t.get loc, t.putAll loc writes)
  | .erase price => (none, t.erase price)

def calls (t : TwoTierLevels side K coldCap) :
    List LevelCall → List (Option LevelData) × TwoTierLevels side K coldCap
  | [] => ([], t)
  | c :: cs =>
    let (a, t₁) := t.call c
    let (as, t₂) := t₁.calls cs
    (a :: as, t₂)

/-- The tier invariant, in terms of the stored prices. -/
structure TierInvariant (t : TwoTierLevels side K coldCap) : Prop where
  hot_length : t.hot.length = K
  cold_length : t.cold.length ≤ coldCap
  stored_once : (t.entries.map Sigma.fst).Nodup
  cold_used : ∀ c ∈ t.cold, c.1 ≠ emptyPrice side
  cold_sorted : t.cold.Pairwise fun a b => better side b.1 a.1
  cold_worse : ∀ c ∈ t.cold, ∀ h ∈ t.hot, h.1 ≠ emptyPrice side →
    better side h.1 c.1
  hot_full : t.cold ≠ [] → ∀ h ∈ t.hot, h.1 ≠ emptyPrice side
  best_at : t.hot[t.bestIdx]?.map Prod.fst = some t.bestPrice
  best_max : ∀ h ∈ t.hot, better side h.1 t.bestPrice = false

/-- What can be seen of the levels is what the reference holds. -/
structure Shows (t : TwoTierLevels side K coldCap) (m : LevelMap) : Prop where
  find_null : ∀ price, price ≠ emptyPrice side →
    (t.findIdx price = .none ↔ price ∉ m)
  find_data : ∀ price, price ≠ emptyPrice side →
    t.get (t.findIdx price) = m.lookup price
  insert_null : ∀ price, price ≠ emptyPrice side →
    ((t.findOrInsert price).1 = .none ↔
      price ∉ m ∧ m.entries.length = K + coldCap)
  insert_refused : ∀ price, price ≠ emptyPrice side →
    (t.findOrInsert price).1 = .none → (t.findOrInsert price).2 = t
  insert_zeroed : ∀ price, price ≠ emptyPrice side → price ∉ m →
    (t.findOrInsert price).1 ≠ .none →
      (t.findOrInsert price).2.get (t.findOrInsert price).1 = some {}
  best : (m.entries = [] ∧ t.bestPrice = emptyPrice side ∧ t.best = .none) ∨
    (t.bestPrice ∈ m ∧ (∀ p ∈ m, better side p t.bestPrice = false) ∧
      t.best ≠ .none ∧ t.get t.best = m.lookup t.bestPrice)

variable {t : TwoTierLevels side K coldCap} {m : LevelMap} {price : UInt32}

/-! ## The invariant -/

theorem Represents.tierInvariant (h : t.Represents m) : t.TierInvariant := by
  have hord := h.ordered
  refine ⟨hord.hot_length, hord.cold_length, ?_, hord.cold_used, ?_, ?_, ?_,
    hord.best_at, ?_⟩
  · exact (List.perm_nodupKeys h.perm).mpr m.nodupKeys
  · apply hord.cold_sorted.imp
    intro a b hab
    simpa [better_eq] using hab
  · intro c hc e he _
    simpa [better_eq] using hord.cold_below c hc e he
  · intro hne e he
    obtain ⟨c, hc⟩ := List.exists_mem_of_ne_nil _ hne
    have hlt := hord.cold_below c hc e he
    exact ne_emptyPrice_of_rank_pos (by omega)
  · intro e he
    simpa [better_eq] using hord.best_max e he

/-- The map of the stored levels. -/
def TierInvariant.toMap (h : t.TierInvariant) : LevelMap :=
  ⟨t.entries, h.stored_once⟩

theorem TierInvariant.represents (h : t.TierInvariant) :
    t.Represents h.toMap := by
  refine ⟨⟨⟨h.hot_length, h.cold_length, ?_, h.cold_used, ?_⟩, h.best_at, ?_⟩,
    List.Perm.refl _⟩
  · apply h.cold_sorted.imp
    intro a b hab
    simpa [better_eq] using hab
  · intro c hc e he
    have hused := h.hot_full (List.ne_nil_of_mem hc) e he
    simpa [better_eq] using h.cold_worse c hc e he hused
  · intro e he
    simpa [better_eq] using h.best_max e he

/-! ## One call -/

theorem Represents.length_le (h : t.Represents m) :
    m.entries.length ≤ K + coldCap := by
  have hslots := h.length_le_slots
  have hcold := h.ordered.cold_length
  omega

/-- The three outcomes of `find_or_insert`. -/
theorem Represents.findOrInsert_cases (h : t.Represents m) (hK : 0 < K)
    (hprice : price ≠ emptyPrice side) :
    (∃ d, m.lookup price = some d ∧
      t.findOrInsert price = (t.findIdx price, t) ∧
      t.Locates price d (t.findIdx price)) ∨
    (m.lookup price = none ∧ m.entries.length = K + coldCap ∧
      t.findOrInsert price = (.none, t)) ∨
    (m.lookup price = none ∧ m.entries.length < K + coldCap ∧
      ∃ loc t', t.findOrInsert price = (loc, t') ∧ t'.Locates price {} loc ∧
        t'.Represents (m.insert price {})) := by
  have hle := h.length_le
  cases hlookup : m.lookup price with
  | some d =>
      exact Or.inl ⟨d, rfl, findOrInsert_of_lookup h hlookup,
        findIdx_locates h hlookup⟩
  | none =>
      right
      by_cases hfull : K + coldCap ≤ m.entries.length
      · left
        exact ⟨rfl, by omega, findOrInsert_full h hK hprice hlookup hfull⟩
      · right
        have hroom : m.entries.length < K + coldCap := by omega
        exact ⟨rfl, hroom, findOrInsert_new h hK hprice hlookup hroom⟩

theorem putAll_none (t : TwoTierLevels side K coldCap)
    (writes : List LevelData) : t.putAll .none writes = t := by
  induction writes with
  | nil => rfl
  | cons data writes ih => exact ih

theorem Locates.put {loc : Loc} {data : LevelData}
    (h : t.Locates price data loc) (e : LevelData) :
    (t.put loc e).Locates price e loc := by
  cases loc with
  | none => exact h
  | hot i =>
      have hat : t.hot[i]? = some (price, data) := h
      simp [Locates, TwoTierLevels.put, hat]
  | cold i =>
      have hat : t.cold[i]? = some (price, data) := h
      simp [Locates, TwoTierLevels.put, hat]

/-- Writes through a pointer to a level rebind its price, one after another. -/
theorem Represents.putAll {loc : Loc} {data : LevelData} (h : t.Represents m)
    (hprice : price ≠ emptyPrice side) (hloc : t.Locates price data loc)
    (writes : List LevelData) :
    (t.putAll loc writes).Represents (m.write price writes) := by
  induction writes generalizing t m data with
  | nil => exact h
  | cons e writes ih => exact ih (h.put hprice hloc e) (hloc.put e)

/-- A call is answered as the reference answers it. -/
theorem Represents.call (h : t.Represents m) (hK : 0 < K) {c : LevelCall}
    (hc : c.price ≠ emptyPrice side) :
    (t.call c).1 = (m.call (K + coldCap) c).1 ∧
      (t.call c).2.Represents (m.call (K + coldCap) c).2 := by
  cases c with
  | findOrInsert price writes =>
      change price ≠ emptyPrice side at hc
      rcases h.findOrInsert_cases hK hc with
        ⟨d, hlookup, hfind, hloc⟩ | ⟨hlookup, hfull, hfind⟩ |
        ⟨hlookup, hroom, loc, t', hfind, hloc, hrep⟩
      · simp only [TwoTierLevels.call, LevelMap.call, hfind, hlookup]
        exact ⟨hloc.get_eq, h.putAll hc hloc writes⟩
      · simp only [TwoTierLevels.call, LevelMap.call, hfind, hlookup]
        rw [if_pos hfull.ge, putAll_none]
        exact ⟨rfl, h⟩
      · simp only [TwoTierLevels.call, LevelMap.call, hfind, hlookup]
        rw [if_neg (by omega)]
        exact ⟨hloc.get_eq, hrep.putAll hc hloc writes⟩
  | find price writes =>
      change price ≠ emptyPrice side at hc
      cases hlookup : m.lookup price with
      | none =>
          have hfind := findIdx_eq_none h hc hlookup
          simp only [TwoTierLevels.call, LevelMap.call, hlookup, hfind]
          rw [putAll_none]
          exact ⟨rfl, h⟩
      | some d =>
          have hloc := findIdx_locates h hlookup
          simp only [TwoTierLevels.call, LevelMap.call, hlookup]
          exact ⟨hloc.get_eq, h.putAll hc hloc writes⟩
  | erase price =>
      change price ≠ emptyPrice side at hc
      refine ⟨rfl, ?_⟩
      cases hlookup : m.lookup price with
      | none =>
          have hfind := findIdx_eq_none h hc hlookup
          have hnot := AList.lookup_eq_none.mp hlookup
          have hsame : t.erase price = t := by
            simp [TwoTierLevels.erase, hfind]
          refine ⟨?_, ?_⟩
          · change (t.erase price).Ordered
            rw [hsame]
            exact h.ordered
          · change (t.erase price).entries.Perm (m.entries.kerase price)
            rw [hsame, List.kerase_of_notMem_keys hnot]
            exact h.perm
      | some d => exact h.erase hlookup

theorem Represents.calls (h : t.Represents m) (hK : 0 < K)
    {cs : List LevelCall} (hcs : ∀ c ∈ cs, c.price ≠ emptyPrice side) :
    (t.calls cs).1 = (m.calls (K + coldCap) cs).1 ∧
      (t.calls cs).2.Represents (m.calls (K + coldCap) cs).2 := by
  induction cs generalizing t m with
  | nil => exact ⟨rfl, h⟩
  | cons c cs ih =>
      obtain ⟨hanswer, hrep⟩ := h.call hK (hcs c (by simp))
      obtain ⟨hanswers, hrep'⟩ := ih hrep fun c' hc' => hcs c' (by simp [hc'])
      refine ⟨?_, hrep'⟩
      simp only [TwoTierLevels.calls, LevelMap.calls, hanswer, hanswers]

/-! ## What can be seen -/

theorem Represents.shows_best (h : t.Represents m) :
    (m.entries = [] ∧ t.bestPrice = emptyPrice side ∧ t.best = .none) ∨
    (t.bestPrice ∈ m ∧ (∀ p ∈ m, better side p t.bestPrice = false) ∧
      t.best ≠ .none ∧ t.get t.best = m.lookup t.bestPrice) := by
  rcases h.bestPrice_spec with ⟨hempty, hnil⟩ | ⟨hmem, hmax⟩
  · exact Or.inl ⟨hnil, hempty, by simp [TwoTierLevels.best, hempty]⟩
  · right
    obtain ⟨d, hd⟩ := Option.isSome_iff_exists.mp (AList.lookup_isSome.mpr hmem)
    have hused := (h.lookup_eq_some_iff.mp hd).2
    have hbest : t.best = .hot t.bestIdx := by
      simp [TwoTierLevels.best, hused]
    refine ⟨hmem, ?_, by simp [hbest], ?_⟩
    · intro p hp
      simpa [better_eq] using hmax p hp
    · obtain ⟨⟨p, e⟩, hat, rfl⟩ :=
        Option.map_eq_some_iff.mp h.ordered.best_at
      have he := h.lookup_eq_some_iff.mpr
        ⟨Or.inl (List.mem_of_getElem? hat), hused⟩
      rw [hbest]
      simp [TwoTierLevels.get, hat, he]

theorem Represents.shows (h : t.Represents m) (hK : 0 < K) : t.Shows m := by
  refine ⟨?_, ?_, ?_, ?_, ?_, h.shows_best⟩
  · intro price hprice
    rw [← AList.lookup_eq_none]
    constructor
    · intro hnull
      by_contra hne
      obtain ⟨d, hd⟩ := Option.ne_none_iff_exists'.mp hne
      exact (findIdx_locates h hd).ne_none hnull
    · exact findIdx_eq_none h hprice
  · intro price hprice
    cases hlookup : m.lookup price with
    | none => rw [findIdx_eq_none h hprice hlookup]; rfl
    | some d => exact (findIdx_locates h hlookup).get_eq
  · intro price hprice
    rw [← AList.lookup_eq_none]
    rcases h.findOrInsert_cases hK hprice with
      ⟨d, hlookup, hfind, hloc⟩ | ⟨hlookup, hfull, hfind⟩ |
      ⟨hlookup, hroom, loc, t', hfind, hloc, hrep⟩
    · simp [hfind, hlookup, hloc.ne_none]
    · simp [hfind, hlookup, hfull]
    · simp [hfind, hloc.ne_none, hroom.ne]
  · intro price hprice hnull
    rcases h.findOrInsert_cases hK hprice with
      ⟨d, hlookup, hfind, hloc⟩ | ⟨hlookup, hfull, hfind⟩ |
      ⟨hlookup, hroom, loc, t', hfind, hloc, hrep⟩
    · rw [hfind]
    · rw [hfind]
    · rw [hfind] at hnull
      exact absurd hnull hloc.ne_none
  · intro price hprice hnot hne
    rw [← AList.lookup_eq_none] at hnot
    rcases h.findOrInsert_cases hK hprice with
      ⟨d, hlookup, hfind, hloc⟩ | ⟨hlookup, hfull, hfind⟩ |
      ⟨hlookup, hroom, loc, t', hfind, hloc, hrep⟩
    · rw [hnot] at hlookup
      cases hlookup
    · rw [hfind] at hne
      exact absurd rfl hne
    · rw [hfind]
      exact hloc.get_eq

/-- The two-tier levels are an ordered map with an exact best price: the tier
invariant holds at first and is kept by every call, and every run is answered
as the reference answers it and ends in levels that show what the reference
holds. -/
theorem calls_eq_levelMap (hK : 0 < K) :
    (fresh : TwoTierLevels side K coldCap).TierInvariant ∧
    (∀ (t : TwoTierLevels side K coldCap) (c : LevelCall), t.TierInvariant →
      c.price ≠ emptyPrice side → (t.call c).2.TierInvariant) ∧
    ∀ cs : List LevelCall, (∀ c ∈ cs, c.price ≠ emptyPrice side) →
      ((fresh : TwoTierLevels side K coldCap).calls cs).1 =
        (LevelMap.calls (K + coldCap) ∅ cs).1 ∧
      ((fresh : TwoTierLevels side K coldCap).calls cs).2.TierInvariant ∧
      ((fresh : TwoTierLevels side K coldCap).calls cs).2.Shows
        (LevelMap.calls (K + coldCap) ∅ cs).2 := by
  have hfresh : (fresh : TwoTierLevels side K coldCap).Represents ∅ :=
    fresh_represents hK
  refine ⟨hfresh.tierInvariant, ?_, ?_⟩
  · intro t c hinv hc
    exact (hinv.represents.call hK hc).2.tierInvariant
  · intro cs hcs
    obtain ⟨hanswers, hrep⟩ := hfresh.calls hK hcs
    exact ⟨hanswers, hrep.tierInvariant, hrep.shows hK⟩

/-- A single hot slot: the level at 9 is displaced by a better price, comes
back when that is erased, and is seen with the data written before. -/
def displacedCalls : List LevelCall :=
  [.findOrInsert 9 [{ totalQty := 3 }, { totalQty := 4 }], .findOrInsert 12 [],
    .findOrInsert 7 [], .find 9 [], .erase 12, .find 9 []]

theorem calls_eq_levelMap_displaced :
    0 < 1 ∧ (∀ c ∈ displacedCalls, c.price ≠ emptyPrice .bid) ∧
    ((fresh : TwoTierLevels .bid 1 1).calls displacedCalls).1 =
      [some {}, some {}, none, some { totalQty := 4 }, none,
        some { totalQty := 4 }] ∧
    ((fresh : TwoTierLevels .bid 1 1).calls displacedCalls).2.Shows
      (LevelMap.calls 2 ∅ displacedCalls).2 := by
  have hpriced : ∀ c ∈ displacedCalls, c.price ≠ emptyPrice .bid := by decide
  obtain ⟨-, -, hrun⟩ := @calls_eq_levelMap .bid 1 1 (by decide)
  obtain ⟨hanswers, -, hshows⟩ := hrun displacedCalls hpriced
  exact ⟨by decide, hpriced, hanswers.trans (by decide), hshows⟩

end TwoTierLevels

end Fastbook

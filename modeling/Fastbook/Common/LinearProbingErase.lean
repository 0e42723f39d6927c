import Fastbook.Common.LinearProbingInvariant
import Mathlib.Algebra.BigOperators.Group.Finset.Piecewise
import Mathlib.Algebra.Order.BigOperators.Group.Finset

/-!
# Deletion by backward shift

`erase` in the mode `BackwardShift` empties the slot of the key and then walks
forward, moving back every entry whose probe path crosses the gap.  On a table
with other empty slots the walk ends at the next one.  On a full table it can
pass the slot where it started; it ends because every move lowers the sum of
the distances between the entries and their home slots.
-/

namespace Fastbook.LinearProbingTable

open Support

variable {K V : Type*} {hash : K → UInt64} {mode : EraseMode}
variable {t : LinearProbingTable K V hash mode}

/-- The invariant of the backward shift, `d` slots after the gap: the gap is
the only slot that can be missing on a probe path, and it is not missing for
the entries in the `d - 1` slots behind it. -/
structure Shifting (t : LinearProbingTable K V hash mode) (gap d : ℕ) :
    Prop where
  shaped : t.Shaped
  nodupKeys : t.entries.NodupKeys
  noTombstone : ∀ s, t.isDeleted s = false
  gap_lt : gap < t.capacity
  gap_empty : t.isEmpty gap = true
  reachable : ∀ s < t.capacity, ∀ e, t.liveAt s = some e →
    ∀ x < t.capacity,
      cyclicDist t.capacity (t.getPos e.1) x <
        cyclicDist t.capacity (t.getPos e.1) s →
      t.isEmpty x = false ∨ x = gap ∧ d ≤ cyclicDist t.capacity gap s

/-- Distance of the entry in slot `s` from its home slot. -/
def distanceAt (t : LinearProbingTable K V hash mode) (s : ℕ) : ℕ :=
  match t.liveAt s with
  | some e => cyclicDist t.capacity (t.getPos e.1) s
  | none => 0

/-- Sum of the distances of all entries from their home slots. -/
def totalDistance (t : LinearProbingTable K V hash mode) : ℕ :=
  ∑ s ∈ Finset.range t.capacity, t.distanceAt s

theorem distanceAt_lt {s : ℕ} (hs : s < t.capacity) :
    t.distanceAt s < t.capacity := by
  unfold distanceAt
  split
  · exact cyclicDist_lt hs
  · omega

theorem totalDistance_le : t.totalDistance ≤ t.capacity * t.capacity := by
  have hle := Finset.sum_le_card_nsmul (Finset.range t.capacity) t.distanceAt
    t.capacity (by
      intro s hs
      exact (distanceAt_lt (Finset.mem_range.mp hs)).le)
  simpa [totalDistance] using hle

theorem sum_update_add {s : Finset ℕ} {f : ℕ → ℕ} {i : ℕ} (b : ℕ)
    (hi : i ∈ s) :
    (∑ x ∈ s, Function.update f i b x) + f i = (∑ x ∈ s, f x) + b := by
  rw [Finset.sum_update_of_mem hi,
    Finset.sum_eq_add_sum_sdiff_singleton_of_mem hi f]
  omega

/-! ## Moving one entry into the gap -/

/-- `data_[empty] = data_[current]; set_empty(current)`. -/
def moveBack (t : LinearProbingTable K V hash mode) (gap current : ℕ) :
    LinearProbingTable K V hash mode :=
  (t.store gap (t.data current)).setEmpty current

section Move

variable {gap current : ℕ} {e : (_ : K) × V}

theorem data_of_live {s : ℕ} (h : t.liveAt s = some e) :
    t.data s = (e.1, .ptr e.2) := by
  unfold liveAt at h
  rcases hdata : t.data s with ⟨key, cell⟩
  rw [hdata] at h
  cases cell with
  | null => simp at h
  | deleted => simp at h
  | ptr v =>
      simp only [Option.some.injEq] at h
      subst h
      rfl

theorem liveAt_moveBack (hlive : t.liveAt current = some e) :
    (t.moveBack gap current).liveAt =
      Function.update (Function.update t.liveAt gap (some e)) current none := by
  unfold moveBack setEmpty
  rw [liveAt_store, data_of_live hlive, liveAt_store]

theorem isEmpty_moveBack (hlive : t.liveAt current = some e) (x : ℕ) :
    (t.moveBack gap current).isEmpty x =
      if x = current then true else if x = gap then false else t.isEmpty x := by
  unfold moveBack setEmpty
  by_cases hx : x = current
  · subst hx
    simp [isEmpty, store]
  · rw [if_neg hx, isEmpty_store_of_ne hx]
    by_cases hgap : x = gap
    · subst hgap
      simp [isEmpty, store, data_of_live hlive]
    · rw [if_neg hgap, isEmpty_store_of_ne hgap]

theorem entries_moveBack (hgap : gap < t.capacity)
    (hcurrent : current < t.capacity) (hfree : t.liveAt gap = none)
    (hlive : t.liveAt current = some e) :
    (t.moveBack gap current).entries.Perm t.entries := by
  have hne : current ≠ gap := by
    rintro rfl
    rw [hfree] at hlive
    cases hlive
  have hadd := collect_update_some (a := e) hgap hfree
  have hremove := collect_update_none (n := t.capacity) (a := e)
    (f := Function.update t.liveAt gap (some e)) hcurrent (by
      rw [Function.update_of_ne hne, hlive])
  have hperm := (hremove.symm.trans hadd).cons_inv
  unfold entries
  rw [liveAt_moveBack hlive]
  exact hperm

theorem totalDistance_moveBack (hgap : gap < t.capacity)
    (hcurrent : current < t.capacity) (hfree : t.liveAt gap = none)
    (hlive : t.liveAt current = some e) :
    (t.moveBack gap current).totalDistance +
        cyclicDist t.capacity (t.getPos e.1) current =
      t.totalDistance + cyclicDist t.capacity (t.getPos e.1) gap := by
  have hne : current ≠ gap := by
    rintro rfl
    rw [hfree] at hlive
    cases hlive
  have hdist : (t.moveBack gap current).distanceAt =
      Function.update (Function.update t.distanceAt gap
        (cyclicDist t.capacity (t.getPos e.1) gap)) current 0 := by
    funext x
    have hcap : (t.moveBack gap current).capacity = t.capacity := rfl
    have hpos : (t.moveBack gap current).getPos = t.getPos := rfl
    unfold distanceAt
    rw [liveAt_moveBack hlive, hcap, hpos]
    by_cases hx : x = current
    · subst hx
      simp
    · rw [Function.update_of_ne hx, Function.update_of_ne hx]
      by_cases hxgap : x = gap
      · subst hxgap
        simp
      · rw [Function.update_of_ne hxgap, Function.update_of_ne hxgap]
  have hremove := sum_update_add (f := Function.update t.distanceAt gap
    (cyclicDist t.capacity (t.getPos e.1) gap)) 0
    (Finset.mem_range.mpr hcurrent)
  have hadd := sum_update_add (f := t.distanceAt)
    (cyclicDist t.capacity (t.getPos e.1) gap) (Finset.mem_range.mpr hgap)
  have hgapZero : t.distanceAt gap = 0 := by simp [distanceAt, hfree]
  have hcur : t.distanceAt current =
      cyclicDist t.capacity (t.getPos e.1) current := by
    simp [distanceAt, hlive]
  rw [Function.update_of_ne hne, hcur] at hremove
  have hcap : (t.moveBack gap current).capacity = t.capacity := rfl
  unfold totalDistance
  rw [hdist, hcap]
  omega

end Move

/-! ## The walk -/

/-- The walk past an entry that stays where it is. -/
theorem Shifting.keep {gap d : ℕ} {e : (_ : K) × V}
    (h : t.Shifting gap d)
    (hlive : t.liveAt (cyclicAdd t.capacity gap d) = some e)
    (hstay : cyclicDist t.capacity (t.getPos e.1)
        (cyclicAdd t.capacity gap d) ≤
      cyclicDist t.capacity (t.getPos e.1) gap) :
    t.Shifting gap (d + 1) := by
  refine ⟨h.shaped, h.nodupKeys, h.noTombstone, h.gap_lt, h.gap_empty, ?_⟩
  intro s hs e' he' x hx hbefore
  rcases h.reachable s hs e' he' x hx hbefore with hused | ⟨rfl, hle⟩
  · exact Or.inl hused
  · by_cases heq : cyclicDist t.capacity x s = d
    · have hslot : s = cyclicAdd t.capacity x d := by
        rw [← heq, cyclicAdd_cyclicDist h.gap_lt hs]
      subst hslot
      rw [hlive] at he'
      cases he'
      omega
    · exact Or.inr ⟨rfl, by omega⟩

/-- The walk moves an entry whose path crosses the gap. -/
theorem Shifting.move {gap d : ℕ} {e : (_ : K) × V}
    (h : t.Shifting gap d) (hd : d < t.capacity)
    (hlive : t.liveAt (cyclicAdd t.capacity gap d) = some e)
    (hmove : cyclicDist t.capacity (t.getPos e.1) gap <
      cyclicDist t.capacity (t.getPos e.1) (cyclicAdd t.capacity gap d)) :
    (t.moveBack gap (cyclicAdd t.capacity gap d)).Shifting
      (cyclicAdd t.capacity gap d) 1 := by
  have hcurrent := cyclicAdd_lt h.gap_lt hd
  have hfree := liveAt_eq_none_of_isEmpty h.gap_empty
  have hperm := entries_moveBack h.gap_lt hcurrent hfree hlive
  generalize hcur : cyclicAdd t.capacity gap d = current at *
  have hpaths : ∀ s < t.capacity, ∀ e',
      (t.moveBack gap current).liveAt s = some e' → s ≠ current ∧
      ∀ x < t.capacity,
        cyclicDist t.capacity (t.getPos e'.1) x <
          cyclicDist t.capacity (t.getPos e'.1) s →
        t.isEmpty x = false ∨ x = gap := by
    intro s hs e' he'
    rw [liveAt_moveBack hlive] at he'
    by_cases hsc : s = current
    · subst hsc
      simp at he'
    · refine ⟨hsc, ?_⟩
      intro x hx hbefore
      rw [Function.update_of_ne hsc] at he'
      by_cases hsg : s = gap
      · subst hsg
        rw [Function.update_self] at he'
        cases he'
        rcases h.reachable current hcurrent e hlive x hx (by omega) with
          hused | ⟨hgap, -⟩
        · exact Or.inl hused
        · exact Or.inr hgap
      · rw [Function.update_of_ne hsg] at he'
        rcases h.reachable s hs e' he' x hx hbefore with hused | ⟨hgap, -⟩
        · exact Or.inl hused
        · exact Or.inr hgap
  constructor
  · exact h.shaped
  · exact (List.perm_nodupKeys hperm).mpr h.nodupKeys
  · intro s
    unfold moveBack setEmpty
    by_cases hsc : s = current
    · subst hsc
      simp [isDeleted, store]
    · rw [isDeleted_store_of_ne hsc]
      by_cases hsg : s = gap
      · subst hsg
        simp [isDeleted, store, data_of_live hlive]
      · rw [isDeleted_store_of_ne hsg]
        exact h.noTombstone s
  · exact hcurrent
  · rw [isEmpty_moveBack hlive, if_pos rfl]
  · intro s hs e' he' x hx hbefore
    obtain ⟨hsc, hpath⟩ := hpaths s hs e' he'
    rw [isEmpty_moveBack hlive]
    by_cases hxc : x = current
    · exact Or.inr ⟨hxc, cyclicDist_pos hcurrent hsc⟩
    · rw [if_neg hxc]
      by_cases hxg : x = gap
      · rw [if_pos hxg]
        exact Or.inl rfl
      · rw [if_neg hxg]
        rcases hpath x hx hbefore with hused | hgap
        · exact Or.inl hused
        · exact absurd hgap hxg

/-- The walk ends at an empty slot: another one, or the gap itself after a
full turn.  No entry is left whose path crosses the gap. -/
theorem Shifting.wellFormed {gap d : ℕ} (h : t.Shifting gap d)
    (hpos : 0 < d) (hd : d ≤ t.capacity)
    (hstop : t.isEmpty (cyclicAdd t.capacity gap d) = true) :
    t.WellFormed := by
  refine ⟨h.shaped, h.nodupKeys, fun _ => h.noTombstone, ?_⟩
  intro s hs e he x hx hbefore
  rcases h.reachable s hs e he x hx hbefore with hused | ⟨rfl, hle⟩
  · exact hused
  · have hhome := getPos_lt h.shaped (by omega) e.1
    have hdist := cyclicDist_lt (a := x) hs
    have hdlt : d < t.capacity := by omega
    have hcurrent := cyclicAdd_lt h.gap_lt hdlt
    have hbetween : cyclicDist t.capacity x (cyclicAdd t.capacity x d) <
        cyclicDist t.capacity x s := by
      rw [cyclicDist_cyclicAdd h.gap_lt hdlt]
      by_contra hge
      have heq : cyclicDist t.capacity x s = d := by omega
      have hslot := cyclicAdd_cyclicDist h.gap_lt hs
      rw [heq] at hslot
      rw [hslot, isEmpty_eq_false_of_live he] at hstop
      cases hstop
    have hlt := cyclicDist_lt_of_between hhome h.gap_lt hcurrent hs hbefore
      hbetween
    rcases h.reachable s hs e he _ hcurrent hlt with hused | ⟨hgap, -⟩
    · rw [hused] at hstop
      cases hstop
    · have hself := cyclicDist_cyclicAdd h.gap_lt hdlt
      rw [hgap, cyclicDist_self] at hself
      omega

/-- A walk that has not come to an empty slot has not made a full turn, and is
at an entry. -/
theorem Shifting.live_of_not_empty {gap d : ℕ} (h : t.Shifting gap d)
    (hd : d ≤ t.capacity)
    (hstop : ¬t.isEmpty (cyclicAdd t.capacity gap d) = true) :
    d < t.capacity ∧ ∃ v, t.liveAt (cyclicAdd t.capacity gap d) =
      some ⟨(t.data (cyclicAdd t.capacity gap d)).1, v⟩ := by
  constructor
  · rcases Nat.lt_or_eq_of_le hd with hlt | heq
    · exact hlt
    · rw [heq, cyclicAdd_self] at hstop
      exact absurd h.gap_empty hstop
  · rcases t.slot_cases (cyclicAdd t.capacity gap d) with
      ⟨hempty, -⟩ | ⟨-, hdel, -⟩ | ⟨-, -, hlive⟩
    · exact absurd hempty hstop
    · rw [h.noTombstone] at hdel
      cases hdel
    · exact hlive

/-- The walk terminates on every table, also a full one, and ends in a
well-formed table with the same entries. -/
theorem shiftBack_spec :
    ∀ (fuel : ℕ) (t : LinearProbingTable K V hash mode) (gap d : ℕ),
      t.Shifting gap d → 0 < d → d ≤ t.capacity →
      t.totalDistance * t.capacity + (t.capacity - d) < fuel →
      ∃ t', t.shiftBack fuel gap (cyclicAdd t.capacity gap d) = .ok t' ∧
        t'.WellFormed ∧ t'.entries.Perm t.entries ∧
        t'.capacity = t.capacity := by
  intro fuel
  induction fuel with
  | zero =>
      intro t gap d _ _ _ hfuel
      omega
  | succ fuel ih =>
      intro t gap d h hpos hd hfuel
      by_cases hstop : t.isEmpty (cyclicAdd t.capacity gap d) = true
      · refine ⟨t, ?_, h.wellFormed hpos hd hstop, List.Perm.refl _, rfl⟩
        simp [shiftBack, hstop]
      · obtain ⟨hdlt, v, hlive⟩ := h.live_of_not_empty hd hstop
        have hcurrent := cyclicAdd_lt h.gap_lt hdlt
        have hhome := getPos_lt h.shaped (by omega)
          (t.data (cyclicAdd t.capacity gap d)).1
        have hnext : (cyclicAdd t.capacity gap d + 1) &&& (t.capacity - 1) =
            cyclicAdd t.capacity gap (d + 1) := by
          rw [h.shaped.succ_and_mask hcurrent, cyclicAdd_succ h.gap_lt hdlt]
        simp only [shiftBack, hstop, h.shaped.sub_and_mask hhome hcurrent,
          h.shaped.sub_and_mask hhome h.gap_lt, hnext, Bool.false_eq_true,
          if_false]
        by_cases hmove : cyclicDist t.capacity
            (t.getPos (t.data (cyclicAdd t.capacity gap d)).1) gap <
          cyclicDist t.capacity
            (t.getPos (t.data (cyclicAdd t.capacity gap d)).1)
            (cyclicAdd t.capacity gap d)
        · rw [if_pos hmove]
          have hshift := h.move hdlt hlive hmove
          have hfree := liveAt_eq_none_of_isEmpty h.gap_empty
          have htotal := totalDistance_moveBack h.gap_lt hcurrent hfree hlive
          have hperm := entries_moveBack h.gap_lt hcurrent hfree hlive
          rw [cyclicAdd_succ h.gap_lt hdlt]
          have hless : (t.moveBack gap (cyclicAdd t.capacity gap d)).totalDistance
              + 1 ≤ t.totalDistance := by
            dsimp only at htotal
            omega
          have hmul := Nat.mul_le_mul_right t.capacity hless
          rw [Nat.add_mul] at hmul
          obtain ⟨t', hrun, hwf, hentries, hcap⟩ :=
            ih (t.moveBack gap (cyclicAdd t.capacity gap d)) _ 1 hshift
              (by omega)
              (by
                change 1 ≤ t.capacity
                omega)
              (by
                change _ * t.capacity + (t.capacity - 1) < fuel
                omega)
          exact ⟨t', hrun, hwf, hentries.trans hperm, hcap⟩
        · rw [if_neg hmove]
          exact ih t gap (d + 1)
            (h.keep hlive (Nat.le_of_not_lt hmove)) (by omega) (by omega)
            (by omega)

/-! ## `erase` -/

/-- Emptying the slot of an entry starts the walk. -/
theorem Shifting.start {s : ℕ} {e : (_ : K) × V} (hwf : t.WellFormed)
    (hmode : mode = .backwardShift) (hs : s < t.capacity)
    (hlive : t.liveAt s = some e) :
    (t.setEmpty s).Shifting s 1 ∧
      t.entries.Perm (e :: (t.setEmpty s).entries) := by
  have hliveAt : (t.setEmpty s).liveAt = Function.update t.liveAt s none :=
    liveAt_store t s _ .null
  have hperm : t.entries.Perm (e :: (t.setEmpty s).entries) := by
    unfold entries
    rw [hliveAt]
    exact collect_update_none hs hlive
  refine ⟨⟨hwf.shaped, ?_, ?_, hs, ?_, ?_⟩, hperm⟩
  · have hnodup := hwf.nodupKeys
    rw [List.perm_nodupKeys hperm, List.nodupKeys_cons] at hnodup
    exact hnodup.2
  · intro x
    by_cases hx : x = s
    · subst hx
      simp [isDeleted, setEmpty, store]
    · unfold setEmpty
      rw [isDeleted_store_of_ne hx]
      exact hwf.noTombstone hmode x
  · simp [isEmpty, setEmpty, store]
  · intro x hx e' he' y hy hbefore
    rw [hliveAt] at he'
    have hxs : x ≠ s := by
      rintro rfl
      simp at he'
    rw [Function.update_of_ne hxs] at he'
    have hused := hwf.reachable x hx e' he' y hy hbefore
    by_cases hys : y = s
    · exact Or.inr ⟨hys, cyclicDist_pos hs hxs⟩
    · unfold setEmpty
      rw [isEmpty_store_of_ne hys]
      exact Or.inl hused

/-- Marking the slot of an entry as deleted removes that entry only. -/
theorem WellFormed.setDeleted {s : ℕ} {e : (_ : K) × V} (hwf : t.WellFormed)
    (hmode : mode = .tombstone) (hs : s < t.capacity)
    (hlive : t.liveAt s = some e) :
    (t.setDeleted s).WellFormed ∧
      t.entries.Perm (e :: (t.setDeleted s).entries) := by
  have hliveAt : (t.setDeleted s).liveAt = Function.update t.liveAt s none :=
    liveAt_store t s _ .deleted
  have hperm : t.entries.Perm (e :: (t.setDeleted s).entries) := by
    unfold entries
    rw [hliveAt]
    exact collect_update_none hs hlive
  refine ⟨⟨hwf.shaped, ?_, ?_, ?_⟩, hperm⟩
  · have hnodup := hwf.nodupKeys
    rw [List.perm_nodupKeys hperm, List.nodupKeys_cons] at hnodup
    exact hnodup.2
  · intro hback
    rw [hback] at hmode
    cases hmode
  · intro x hx e' he'
    rw [hliveAt] at he'
    have hxs : x ≠ s := by
      rintro rfl
      simp at he'
    rw [Function.update_of_ne hxs] at he'
    exact (hwf.reachable x hx e' he').store s (by simp)

end Fastbook.LinearProbingTable

import Fastbook.Common.SwissTableInvariant

/-!
# Writes to the Swiss table

What `place` and the two ways of `erase` do to the probing invariant.  A slot
may become `EMPTY` again only when every window over it has another `EMPTY`
slot: otherwise a probe that went past such a window would now stop there.
-/

namespace Fastbook.SwissTable

open Support Swiss

variable {K V : Type*} {hash : K → UInt64} {G : Group}
  {t : SwissTable K V hash G} {key : K} {s : ℕ}

/-! ## Control bytes -/

theorem ctrl_setCtrl (b : UInt8) {x : ℕ} (hx : x < t.capacity) :
    (t.setCtrl s b).ctrl x = Function.update t.ctrl s b x := by
  unfold setCtrl copyIndex
  by_cases hs : s < G.width
  · rw [if_pos hs]
    exact Function.update_of_ne (by omega) _ _
  · rw [if_neg hs, Function.update_idem]

/-- The second write of `setCtrl` keeps the mirrored bytes up to date. -/
theorem mirrored_setCtrl (hshaped : t.Shaped) (h : t.Mirrored) (b : UInt8)
    (hs : s < t.capacity) : (t.setCtrl s b).Mirrored := by
  intro i hi
  have hwidth := hshaped.width_le
  have hfirst : (t.setCtrl s b).ctrl i = Function.update t.ctrl s b i :=
    ctrl_setCtrl b (hi.trans_le hwidth)
  have hcopy : (t.setCtrl s b).ctrl (t.capacity + i) =
      if i = s then b else t.ctrl (t.capacity + i) := by
    change Function.update (Function.update t.ctrl s b) (t.copyIndex s) b
      (t.capacity + i) = _
    unfold copyIndex
    by_cases hsw : s < G.width
    · rw [if_pos hsw]
      by_cases his : i = s
      · rw [if_pos his, his, Function.update_self]
      · rw [if_neg his, Function.update_of_ne (by omega),
          Function.update_of_ne (by omega)]
    · rw [if_neg hsw, if_neg (by omega), Function.update_idem,
        Function.update_of_ne (by omega)]
  change (t.setCtrl s b).ctrl (t.capacity + i) = _
  rw [hcopy, hfirst]
  by_cases his : i = s
  · rw [if_pos his, his, Function.update_self]
  · rw [if_neg his, Function.update_of_ne his, h i hi]

theorem fullSlots_setCtrl (b : UInt8) (hs : s < t.capacity) :
    (t.setCtrl s b).fullSlots +
        (if Control.isFull (t.ctrl s) = true then 1 else 0) =
      t.fullSlots + (if Control.isFull b = true then 1 else 0) := by
  rw [fullSlots, fullSlots,
    ← count_update (fun c => Control.isFull c = true) b hs]
  congr 1
  exact count_congr fun x (hx : x < t.capacity) => by rw [ctrl_setCtrl b hx]

theorem deletedSlots_setCtrl (b : UInt8) (hs : s < t.capacity) :
    (t.setCtrl s b).deletedSlots +
        (if t.ctrl s = Control.deleted then 1 else 0) =
      t.deletedSlots + (if b = Control.deleted then 1 else 0) := by
  rw [deletedSlots, deletedSlots,
    ← count_update (fun c => c = Control.deleted) b hs]
  congr 1
  exact count_congr fun x (hx : x < t.capacity) => by rw [ctrl_setCtrl b hx]

/-! ## Windows -/

/-- A window stays free of `EMPTY` slots unless one of its slots becomes
`EMPTY`. -/
theorem WindowUsed.setCtrl {q : ℕ} (h : t.WindowUsed q) (hcap : 0 < t.capacity)
    {b : UInt8}
    (hb : b = Control.empty → ∀ i < G.width, (q + i) % t.capacity ≠ s) :
    (t.setCtrl s b).WindowUsed q := by
  intro i hi
  change (t.setCtrl s b).ctrl ((q + i) % t.capacity) ≠ Control.empty
  rw [ctrl_setCtrl b (Nat.mod_lt _ hcap)]
  by_cases hslot : (q + i) % t.capacity = s
  · rw [hslot, Function.update_self]
    intro hempty
    exact hb hempty i hi hslot
  · rw [Function.update_of_ne hslot]
    exact h i hi

theorem Reaches.setCtrl {x : ℕ} (h : t.Reaches key x) (hcap : 0 < t.capacity)
    {b : UInt8}
    (hb : b = Control.empty → ∀ q, t.WindowUsed q →
      ∀ i < G.width, (q + i) % t.capacity ≠ s) :
    (t.setCtrl s b).Reaches key x := by
  obtain ⟨j, hj, hslot, hbefore⟩ := h
  refine ⟨j, hj, hslot, ?_⟩
  intro j' hj'
  have hused := hbefore j' hj'
  exact hused.setCtrl hcap fun hempty => hb hempty _ hused

/-! ## `place` -/

/-- The slot written by `place` holds the new entry. -/
theorem liveAt_place (v : V) {x : ℕ} (hx : x < t.capacity) :
    (t.place s (t.hashKey key) (key, v)).liveAt x =
      Function.update t.liveAt s (some ⟨key, v⟩) x := by
  have hctrl : (t.place s (t.hashKey key) (key, v)).ctrl x =
      Function.update t.ctrl s (t.hashKey key).h2 x := by
    rw [← t.setFull_h2 key]
    exact ctrl_setCtrl _ hx
  have hdata : (t.place s (t.hashKey key) (key, v)).data x =
      Function.update t.data s (key, v) x := rfl
  rw [liveAt, hctrl, hdata]
  by_cases hxs : x = s
  · rw [hxs, Function.update_self, Function.update_self, Function.update_self,
      if_pos (t.isFull_h2 key)]
  · rw [Function.update_of_ne hxs, Function.update_of_ne hxs,
      Function.update_of_ne hxs, liveAt]

theorem entries_place (v : V) (h : t.Insertable key s) :
    (t.place s (t.hashKey key) (key, v)).entries.Perm
      (⟨key, v⟩ :: t.entries) := by
  have hlive : (t.place s (t.hashKey key) (key, v)).entries =
      collect (Function.update t.liveAt s (some ⟨key, v⟩)) t.capacity :=
    collect_congr fun x hx => liveAt_place v hx
  rw [hlive]
  exact collect_update_some h.lt (liveAt_eq_none_iff.mpr h.notFull)

theorem WellFormed.growthLeft_lt (hwf : t.WellFormed) :
    t.growthLeft < 2 ^ 64 := by
  obtain ⟨k, hk, -, hcap, -⟩ := hwf.shaped
  have hpow : 2 ^ k ≤ 2 ^ 57 := Nat.pow_le_pow_right (by decide) hk
  have hgrowth := hwf.growth
  rw [growthFor, hcap] at hgrowth
  omega

/-- `place` keeps the accounting when the slot is a deleted one, or when
`growth_left_` is not used up. -/
theorem growth_place (hwf : t.WellFormed) (v : V) (h : t.Insertable key s)
    (hroom : t.ctrl s = Control.empty → 0 < t.growthLeft) :
    (t.place s (t.hashKey key) (key, v)).growthLeft +
        ((t.place s (t.hashKey key) (key, v)).fullSlots +
          (t.place s (t.hashKey key) (key, v)).deletedSlots) =
      growthFor t.capacity := by
  have hfull := fullSlots_setCtrl (t.hashKey key).h2 h.lt
  have hdeleted := deletedSlots_setCtrl (t.hashKey key).h2 h.lt
  have hgrowth := hwf.growth
  have hh2 : (t.hashKey key).h2 ≠ Control.deleted := by
    intro heq
    have hprint := t.isFull_h2 key
    rw [heq, Control.isFull_deleted] at hprint
    cases hprint
  rw [h.notFull, t.isFull_h2 key, if_neg (by decide), if_pos rfl] at hfull
  rw [if_neg hh2] at hdeleted
  change (if t.ctrl s = Control.empty then subU64 t.growthLeft 1
      else t.growthLeft) +
    ((t.setCtrl s (Control.setFull (t.hashKey key).h2)).fullSlots +
      (t.setCtrl s (Control.setFull (t.hashKey key).h2)).deletedSlots) = _
  rw [t.setFull_h2 key]
  rcases hwf.ctrlValid s h.lt with hc | hc | hc
  · have hpos := hroom hc
    rw [if_pos hc, subU64_of_le hpos hwf.growthLeft_lt]
    rw [hc, if_neg (Ne.symm Control.deleted_ne_empty)] at hdeleted
    omega
  · rw [if_neg (by rw [hc]; exact Control.deleted_ne_empty)]
    rw [if_pos hc] at hdeleted
    omega
  · have hnot := h.notFull
    rw [hc, t.isFull_h2] at hnot
    cases hnot

/-- Writing a new key into a slot its probe reaches keeps the table well
formed. -/
theorem WellFormed.place (hwf : t.WellFormed) (v : V) (h : t.Insertable key s)
    (hroom : t.ctrl s = Control.empty → 0 < t.growthLeft)
    (habsent : ∀ s < t.capacity, ∀ v, t.liveAt s ≠ some ⟨key, v⟩) :
    (t.place s (t.hashKey key) (key, v)).WellFormed := by
  have hcap := hwf.shaped.capacity_pos
  have hperm := entries_place v h
  constructor
  · exact hwf.shaped
  · exact mirrored_setCtrl hwf.shaped hwf.mirrored _ h.lt
  · intro x hx
    have hctrl : (t.place s (t.hashKey key) (key, v)).ctrl x =
        Function.update t.ctrl s (Control.setFull (t.hashKey key).h2) x :=
      ctrl_setCtrl _ hx
    have hdata : (t.place s (t.hashKey key) (key, v)).data x =
        Function.update t.data s (key, v) x := rfl
    unfold CtrlValid
    rw [hctrl, hdata]
    by_cases hxs : x = s
    · rw [hxs, Function.update_self, Function.update_self, t.setFull_h2 key]
      exact Or.inr (Or.inr rfl)
    · rw [Function.update_of_ne hxs, Function.update_of_ne hxs]
      exact hwf.ctrlValid x hx
  · rw [List.perm_nodupKeys hperm, List.nodupKeys_cons]
    refine ⟨?_, hwf.nodupKeys⟩
    intro hmem
    obtain ⟨w, hw⟩ := List.exists_of_mem_keys hmem
    obtain ⟨x, hx, hlive⟩ := mem_collect.mp hw
    exact habsent x hx w hlive
  · intro x hx e he
    change x < t.capacity at hx
    rw [liveAt_place v hx] at he
    have hreach : t.Reaches e.1 x := by
      by_cases hxs : x = s
      · rw [hxs, Function.update_self] at he
        cases he
        rw [hxs]
        exact h.reaches
      · rw [Function.update_of_ne hxs] at he
        exact hwf.reachable x hx e he
    have hnotEmpty : Control.setFull (t.hashKey key).h2 ≠ Control.empty :=
      Control.ne_empty_of_isFull (Control.isFull_setFull _)
    exact hreach.setCtrl hcap fun hempty => absurd hempty hnotEmpty
  · change t.size + 1 = _
    rw [hperm.length_eq, List.length_cons, hwf.size_eq]
  · exact growth_place hwf v h hroom

/-! ## `erase` -/

/-- The table after `erase` has written `b` over the control byte of slot
`s`. -/
def cleared (t : SwissTable K V hash G) (s : ℕ) (b : UInt8) :
    SwissTable K V hash G :=
  { t.setCtrl s b with
    size := t.size - 1
    growthLeft := if b = Control.empty then t.growthLeft + 1 else t.growthLeft }

theorem liveAt_cleared {b : UInt8} (hb : Control.isFull b = false) {x : ℕ}
    (hx : x < t.capacity) :
    (t.cleared s b).liveAt x = Function.update t.liveAt s none x := by
  have hctrl : (t.cleared s b).ctrl x = Function.update t.ctrl s b x :=
    ctrl_setCtrl b hx
  have hdata : (t.cleared s b).data x = t.data x := rfl
  rw [liveAt, hctrl, hdata]
  by_cases hxs : x = s
  · rw [hxs, Function.update_self, Function.update_self, hb]
    rfl
  · rw [Function.update_of_ne hxs, Function.update_of_ne hxs, liveAt]

theorem entries_cleared {b : UInt8} (hb : Control.isFull b = false)
    (hs : s < t.capacity) {e : (_ : K) × V} (hlive : t.liveAt s = some e) :
    t.entries.Perm (e :: (t.cleared s b).entries) := by
  have hcollect : (t.cleared s b).entries =
      collect (Function.update t.liveAt s none) t.capacity :=
    collect_congr fun x hx => liveAt_cleared hb hx
  rw [hcollect]
  exact collect_update_none hs hlive

/-- Taking an entry out keeps the table well formed: always when the slot is
marked deleted, and when it is marked `EMPTY` if no probe went past it. -/
theorem WellFormed.cleared (hwf : t.WellFormed) (hs : s < t.capacity)
    {e : (_ : K) × V} (hlive : t.liveAt s = some e) {b : UInt8}
    (hb : b = Control.empty ∨ b = Control.deleted)
    (hwin : b = Control.empty → ∀ q, t.WindowUsed q →
      ∀ i < G.width, (q + i) % t.capacity ≠ s) :
    (t.cleared s b).WellFormed := by
  have hcap := hwf.shaped.capacity_pos
  have hnotFull : Control.isFull b = false := by
    rcases hb with rfl | rfl
    · exact Control.isFull_empty
    · exact Control.isFull_deleted
  have hperm := entries_cleared hnotFull hs hlive
  constructor
  · exact hwf.shaped
  · exact mirrored_setCtrl hwf.shaped hwf.mirrored b hs
  · intro x hx
    have hctrl : (t.cleared s b).ctrl x = Function.update t.ctrl s b x :=
      ctrl_setCtrl b hx
    unfold CtrlValid
    rw [hctrl]
    by_cases hxs : x = s
    · rw [hxs, Function.update_self]
      exact hb.imp_right Or.inl
    · rw [Function.update_of_ne hxs]
      exact hwf.ctrlValid x hx
  · have hnodup := hwf.nodupKeys
    rw [List.perm_nodupKeys hperm, List.nodupKeys_cons] at hnodup
    exact hnodup.2
  · intro x hx e' he'
    change x < t.capacity at hx
    rw [liveAt_cleared hnotFull hx] at he'
    have hxs : x ≠ s := by
      rintro rfl
      rw [Function.update_self] at he'
      cases he'
    rw [Function.update_of_ne hxs] at he'
    exact (hwf.reachable x hx e' he').setCtrl hcap hwin
  · change t.size - 1 = _
    rw [hwf.size_eq, hperm.length_eq, List.length_cons, Nat.add_sub_cancel]
  · have hfull := fullSlots_setCtrl b hs
    have hdeleted := deletedSlots_setCtrl b hs
    have hgrowth := hwf.growth
    have hctrl := full_of_live hlive
    have hne : t.ctrl s ≠ Control.deleted := by
      intro heq
      rw [heq, Control.isFull_deleted] at hctrl
      cases hctrl
    rw [if_pos hctrl, hnotFull, if_neg (by decide)] at hfull
    rw [if_neg hne] at hdeleted
    change (if b = Control.empty then t.growthLeft + 1 else t.growthLeft) +
      ((t.setCtrl s b).fullSlots + (t.setCtrl s b).deletedSlots) =
        growthFor t.capacity
    rcases hb with rfl | rfl
    · rw [if_pos rfl]
      rw [if_neg (Ne.symm Control.deleted_ne_empty)] at hdeleted
      omega
    · rw [if_neg Control.deleted_ne_empty]
      rw [if_pos rfl] at hdeleted
      omega

/-- The window before slot `pos`, as `erase` computes its start. -/
theorem Shaped.before_eq (h : t.Shaped) (pos : ℕ) :
    subU64 pos G.width &&& t.mask =
      (pos + t.capacity - G.width) % t.capacity := by
  obtain ⟨k, hk, hwidth, hcap, -⟩ := h
  rw [mask, hcap]
  exact subU64_and_mask_eq_mod (by omega) hwidth

/-- The test of `erase`: every window over the slot has an `EMPTY` slot, either
the last one before it or the first one after it. -/
theorem neverInFullWindow_spec (hG : G.Lawful) (hwf : t.WellFormed)
    (hs : s < t.capacity) (h : t.neverInFullWindow s = true) :
    ∀ q, t.WindowUsed q → ∀ i < G.width, (q + i) % t.capacity ≠ s := by
  have hcap := hwf.shaped.capacity_pos
  have hwidth := hwf.shaped.width_le
  have hvalid : ∀ pos < t.capacity, ∀ i < G.width,
      Control.Valid (t.ctrlAt pos i) := by
    intro pos hpos i hi
    rw [ctrlAt_eq hwf.shaped hwf.mirrored hpos hi]
    exact (hwf.ctrlValid _ (Nat.mod_lt _ hcap)).valid
  obtain ⟨hbefore, hafter, hsum⟩ := of_decide_eq_true h
  have hstart : subU64 s G.width &&& t.mask < t.capacity := by
    rw [hwf.shaped.and_mask]
    exact Nat.mod_lt _ hcap
  obtain ⟨ha, hemptyAfter, -, -⟩ :=
    (hG.matchEmpty_flags _ (hvalid s hs)).first hG.laneBits_pos hafter
  obtain ⟨hc, hemptyBefore⟩ :=
    (hG.matchEmpty_flags _ (hvalid _ hstart)).last hG.laneBits_pos hbefore
  change firstLane G _ < G.width at ha
  change t.ctrlAt s (firstLane G _) = Control.empty at hemptyAfter
  change lastLanesClear G _ < G.width at hc
  change t.ctrlAt _ (G.width - 1 - lastLanesClear G _) = Control.empty
    at hemptyBefore
  generalize firstLane G _ = a at ha hemptyAfter hsum
  generalize lastLanesClear G _ = c at hc hemptyBefore hsum
  rw [ctrlAt_eq hwf.shaped hwf.mirrored hs ha] at hemptyAfter
  rw [ctrlAt_eq hwf.shaped hwf.mirrored hstart (by omega),
    hwf.shaped.before_eq] at hemptyBefore
  intro q hused i hi hslot
  by_cases hci : c < i
  · -- The window starts far enough before `s` to contain the empty slot there.
    apply hused (i - 1 - c) (by omega)
    rw [← hemptyBefore, ← hslot, Nat.mod_add_mod]
    congr 1
    have hle : G.width ≤ (q + i) % t.capacity + t.capacity := by omega
    calc (q + (i - 1 - c)) % t.capacity
        = (q + i + (t.capacity - 1 - c)) % t.capacity := by
          rw [← Nat.add_mod_right]
          congr 1
          omega
      _ = ((q + i) % t.capacity + (t.capacity - 1 - c)) % t.capacity := by
          rw [Nat.mod_add_mod]
      _ = ((q + i) % t.capacity + t.capacity - G.width +
            (G.width - 1 - c)) % t.capacity := by
          congr 1
          omega
  · -- Otherwise it ends after the empty slot that follows `s`.
    apply hused (i + a) (by omega)
    rw [← hemptyAfter, ← hslot, Nat.mod_add_mod, Nat.add_assoc]

end Fastbook.SwissTable

import Fastbook.Common.SwissTable
import Fastbook.Support.Slots
import Fastbook.Support.TriangularProbe

/-!
# The probing invariant of the Swiss table

The windows of a probe start at arbitrary slots and wrap around the end of the
table, where the mirrored control bytes stand in for the first ones.  A table
is well formed when every key can be reached: the slot that holds it lies in
some window of the key's probe, and no window before that one has an `EMPTY`
slot.  With the accounting of `growth_left_` there is always an `EMPTY` slot,
and since the windows of a probe cover the table, every probe ends.
-/

namespace Fastbook.SwissTable

open Support Swiss

variable {K V : Type*} {hash : K → UInt64} {G : Group}

/-- The key and value of a full slot. -/
def liveAt (t : SwissTable K V hash G) (s : ℕ) : Option ((_ : K) × V) :=
  if Control.isFull (t.ctrl s) then some ⟨(t.data s).1, (t.data s).2⟩ else none

/-- The entries of the table, in slot order. -/
def entries (t : SwissTable K V hash G) : List ((_ : K) × V) :=
  collect t.liveAt t.capacity

def fullSlots (t : SwissTable K V hash G) : ℕ :=
  Nat.count (fun s => Control.isFull (t.ctrl s) = true) t.capacity

def deletedSlots (t : SwissTable K V hash G) : ℕ :=
  Nat.count (fun s => t.ctrl s = Control.deleted) t.capacity

def emptySlots (t : SwissTable K V hash G) : ℕ :=
  Nat.count (fun s => t.ctrl s = Control.empty) t.capacity

/-- A window over the `WIDTH` slots from `q` on has no `EMPTY` one, so that
probes go on past it. -/
def WindowUsed (t : SwissTable K V hash G) (q : ℕ) : Prop :=
  ∀ i < G.width, t.ctrl ((q + i) % t.capacity) ≠ Control.empty

/-- Where the `j`-th window of the probe of a key starts. -/
def probeStart (t : SwissTable K V hash G) (key : K) (j : ℕ) : ℕ :=
  windowStart t.capacity G.width (t.hashKey key).h1 j

/-- The probe of `key` gets to slot `s`. -/
def Reaches (t : SwissTable K V hash G) (key : K) (s : ℕ) : Prop :=
  ∃ j < t.probeBound,
    (∃ i < G.width, (t.probeStart key j + i) % t.capacity = s) ∧
      ∀ j' < j, t.WindowUsed (t.probeStart key j')

/-- The top `k` bits of a hash address the `2 ^ k` slots, and seven more are
left for the fingerprint. -/
def Shaped (t : SwissTable K V hash G) : Prop :=
  ∃ k ≤ 57, G.width ≤ 2 ^ k ∧ t.capacity = 2 ^ k ∧ t.shift = 64 - k

/-- The mirrored control bytes repeat the first `WIDTH` ones. -/
def Mirrored (t : SwissTable K V hash G) : Prop :=
  ∀ i < G.width, t.ctrl (t.capacity + i) = t.ctrl i

/-- What a slot's control byte says about it: the byte of a full slot is the
fingerprint of the key there. -/
def CtrlValid (t : SwissTable K V hash G) (s : ℕ) : Prop :=
  t.ctrl s = Control.empty ∨ t.ctrl s = Control.deleted ∨
    t.ctrl s = (t.hashKey (t.data s).1).h2

structure WellFormed (t : SwissTable K V hash G) : Prop where
  shaped : t.Shaped
  mirrored : t.Mirrored
  ctrlValid : ∀ s < t.capacity, t.CtrlValid s
  nodupKeys : t.entries.NodupKeys
  reachable : ∀ s < t.capacity, ∀ e, t.liveAt s = some e → t.Reaches e.1 s
  size_eq : t.size = t.entries.length
  growth : t.growthLeft + (t.fullSlots + t.deletedSlots) =
    growthFor t.capacity

variable {t : SwissTable K V hash G} {key : K}

/-! ## Slots and hashes -/

theorem liveAt_of_full {s : ℕ} (h : Control.isFull (t.ctrl s) = true) :
    t.liveAt s = some ⟨(t.data s).1, (t.data s).2⟩ :=
  if_pos h

theorem liveAt_eq_none_iff {s : ℕ} :
    t.liveAt s = none ↔ Control.isFull (t.ctrl s) = false := by
  simp [liveAt]

theorem full_of_live {s : ℕ} {e : (_ : K) × V} (h : t.liveAt s = some e) :
    Control.isFull (t.ctrl s) = true := by
  by_contra hfull
  rw [liveAt, if_neg hfull] at h
  cases h

theorem data_of_live {s : ℕ} {e : (_ : K) × V} (h : t.liveAt s = some e) :
    t.data s = (e.1, e.2) := by
  rw [liveAt_of_full (full_of_live h)] at h
  cases h
  rfl

theorem Shaped.capacity_pos (h : t.Shaped) : 0 < t.capacity := by
  obtain ⟨k, -, -, hcap, -⟩ := h
  rw [hcap]
  exact Nat.two_pow_pos k

theorem Shaped.width_le (h : t.Shaped) : G.width ≤ t.capacity := by
  obtain ⟨k, -, hwidth, hcap, -⟩ := h
  rwa [hcap]

/-- Masking is the remainder by the number of slots. -/
theorem Shaped.and_mask (h : t.Shaped) (x : ℕ) :
    x &&& t.mask = x % t.capacity := by
  obtain ⟨k, -, -, hcap, -⟩ := h
  rw [mask, hcap, Nat.and_two_pow_sub_one_eq_mod]

theorem Shaped.h1_lt (h : t.Shaped) (key : K) :
    (t.hashKey key).h1 < t.capacity := by
  obtain ⟨k, hk, -, hcap, hshift⟩ := h
  change (hash key).toNat >>> t.shift < t.capacity
  rw [hcap, hshift, Nat.shiftRight_eq_div_pow]
  rw [Nat.div_lt_iff_lt_mul (Nat.two_pow_pos _), ← pow_add,
    Nat.add_sub_cancel' (by omega)]
  exact (hash key).toNat_lt

theorem probeStart_lt (h : t.Shaped) (key : K) (j : ℕ) :
    t.probeStart key j < t.capacity :=
  windowStart_lt h.capacity_pos

theorem toNat_h2_lt (t : SwissTable K V hash G) (key : K) :
    (t.hashKey key).h2.toNat < 128 := by
  have hle : (hash key).toNat >>> (t.shift - 7) &&& 0x7F ≤ 0x7F :=
    Nat.and_le_right
  change (UInt8.ofNat _).toNat < 128
  rw [UInt8.toNat_ofNat']
  exact (Nat.mod_le _ _).trans_lt (Nat.lt_succ_of_le hle)

/-- A fingerprint is the control byte of a full slot. -/
theorem isFull_h2 (t : SwissTable K V hash G) (key : K) :
    Control.isFull (t.hashKey key).h2 = true :=
  (Control.isFull_iff _).mpr (t.toNat_h2_lt key)

theorem setFull_h2 (t : SwissTable K V hash G) (key : K) :
    Control.setFull (t.hashKey key).h2 = (t.hashKey key).h2 := by
  apply UInt8.toNat_inj.mp
  rw [Control.setFull, UInt8.toNat_and]
  have hmask : (0x7F : UInt8).toNat = 2 ^ 7 - 1 := rfl
  rw [hmask, Nat.and_two_pow_sub_one_eq_mod]
  exact Nat.mod_eq_of_lt (t.toNat_h2_lt key)

theorem CtrlValid.valid {s : ℕ} (h : t.CtrlValid s) :
    Control.Valid (t.ctrl s) := by
  rcases h with hempty | hdeleted | hfull
  · exact Or.inl hempty
  · exact Or.inr (Or.inl hdeleted)
  · rw [hfull]
    exact Or.inr (Or.inr (t.isFull_h2 _))

theorem CtrlValid.eq_h2 {s : ℕ} (h : t.CtrlValid s)
    (hfull : Control.isFull (t.ctrl s) = true) :
    t.ctrl s = (t.hashKey (t.data s).1).h2 := by
  rcases h with hempty | hdeleted | hprint
  · rw [hempty, Control.isFull_empty] at hfull
    cases hfull
  · rw [hdeleted, Control.isFull_deleted] at hfull
    cases hfull
  · exact hprint

/-- A group loaded at slot `pos` sees the slots from `pos` on, around the end
of the table. -/
theorem ctrlAt_eq (hshaped : t.Shaped) (hmirror : t.Mirrored) {pos i : ℕ}
    (hpos : pos < t.capacity) (hi : i < G.width) :
    t.ctrlAt pos i = t.ctrl ((pos + i) % t.capacity) := by
  have hwidth := hshaped.width_le
  by_cases hlt : pos + i < t.capacity
  · rw [ctrlAt, Nat.mod_eq_of_lt hlt]
  · have hwrap := hmirror (pos + i - t.capacity) (by omega)
    rw [Nat.add_sub_cancel' (by omega)] at hwrap
    rw [ctrlAt, hwrap, Nat.mod_eq_sub_mod (by omega),
      Nat.mod_eq_of_lt (by omega)]

/-! ## Free slots -/

theorem fullSlots_add_deletedSlots (h : ∀ s < t.capacity, t.CtrlValid s) :
    t.fullSlots + t.deletedSlots + t.emptySlots = t.capacity := by
  unfold fullSlots deletedSlots emptySlots
  generalize t.capacity = n at h
  induction n with
  | zero => rfl
  | succ n ih =>
      have hrest := ih fun s hs => h s (Nat.lt_succ_of_lt hs)
      rw [Nat.count_succ, Nat.count_succ, Nat.count_succ]
      rcases (h n (Nat.lt_succ_self n)).valid with hc | hc | hc
      · rw [hc, if_neg (by decide), if_neg (by decide), if_pos rfl]
        omega
      · rw [hc, if_neg (by decide), if_pos rfl, if_neg (by decide)]
        omega
      · have hdeleted : t.ctrl n ≠ Control.deleted := by
          intro heq
          rw [heq, Control.isFull_deleted] at hc
          cases hc
        rw [if_pos hc, if_neg hdeleted, if_neg (Control.ne_empty_of_isFull hc)]
        omega

/-- An eighth of the slots stays `EMPTY`. -/
theorem WellFormed.emptySlots_ge (h : t.WellFormed) :
    t.capacity / 8 ≤ t.emptySlots := by
  have hsum := fullSlots_add_deletedSlots h.ctrlValid
  have hgrowth := h.growth
  rw [growthFor] at hgrowth
  omega

variable (hG : G.Lawful)

include hG

theorem width_ge : 8 ≤ G.width := by
  obtain ⟨e, he, hwidth⟩ := hG.width_eq
  rw [hwidth]
  exact Nat.pow_le_pow_right (n := 2) (by decide) he

theorem WellFormed.exists_empty (h : t.WellFormed) :
    ∃ s < t.capacity, t.ctrl s = Control.empty := by
  have hwidth := width_ge hG
  have hcap := h.shaped.width_le
  have hempty := h.emptySlots_ge
  apply Nat.count_ne_iff_exists.mp
  change t.emptySlots ≠ 0
  omega

/-- Every slot lies in one of the windows of a probe. -/
theorem exists_window_of_slot (hshaped : t.Shaped) (key : K) {s : ℕ}
    (hs : s < t.capacity) :
    ∃ j < t.probeBound, ∃ i < G.width,
      (t.probeStart key j + i) % t.capacity = s := by
  have hh1 := hshaped.h1_lt key
  obtain ⟨e, -, hwidth⟩ := hG.width_eq
  obtain ⟨k, -, hle, hcap, -⟩ := hshaped
  rw [hwidth] at hle
  have hek : e ≤ k := (Nat.pow_le_pow_iff_right (by decide)).mp hle
  have hbound : t.probeBound = 2 ^ (k - e) := by
    rw [probeBound, hcap, hwidth, Nat.pow_div hek (by decide)]
  unfold probeStart
  rw [hcap] at hs hh1
  rw [hbound, hcap, hwidth]
  exact exists_window hek hh1 hs

omit hG in
/-- The next window of the probe. -/
theorem probeStart_succ (hshaped : t.Shaped) (key : K) (j : ℕ) :
    (t.probeStart key j + (G.width * j + G.width)) &&& t.mask =
      t.probeStart key (j + 1) := by
  rw [hshaped.and_mask, probeStart, probeStart, windowStart_succ,
    Nat.mul_add, Nat.mul_one]

/-! ## The matches of one window -/

theorem matchEmpty_ne_zero_iff (h : t.WellFormed) {pos : ℕ}
    (hpos : pos < t.capacity) :
    G.matchEmpty (t.ctrlAt pos) ≠ 0 ↔ ¬t.WindowUsed pos := by
  have hctrl : ∀ i < G.width,
      t.ctrlAt pos i = t.ctrl ((pos + i) % t.capacity) :=
    fun i hi => ctrlAt_eq h.shaped h.mirrored hpos hi
  have hflags := hG.matchEmpty_flags (t.ctrlAt pos) (by
    intro i hi
    rw [hctrl i hi]
    exact (h.ctrlValid _ (Nat.mod_lt _ h.shaped.capacity_pos)).valid)
  rw [hflags.ne_zero_iff, WindowUsed]
  push Not
  constructor
  · rintro ⟨i, hi, hempty⟩
    exact ⟨i, hi, by rw [← hctrl i hi, hempty]⟩
  · rintro ⟨i, hi, hempty⟩
    exact ⟨i, hi, by rw [hctrl i hi, hempty]⟩

section Find

variable [DecidableEq K]

/-- The loop over the flagged lanes returns one whose slot holds the key, if
there is one. -/
theorem matchLoop_spec (hshaped : t.Shaped) (key : K) (pos : ℕ) :
    ∀ (m : ℕ) (P : ℕ → Prop), Flags G.width G.laneBits P m →
      (∃ i < G.width, P i ∧ (t.data ((pos + i) % t.capacity)).1 = key ∧
        t.matchLoop key pos m = some ((pos + i) % t.capacity)) ∨
      ((∀ i < G.width, P i → (t.data ((pos + i) % t.capacity)).1 ≠ key) ∧
        t.matchLoop key pos m = none) := by
  intro m
  induction m using Nat.strongRecOn with
  | ind m ih =>
      intro P hflags
      rw [matchLoop]
      by_cases hm : m = 0
      · rw [if_pos hm]
        refine Or.inr ⟨?_, rfl⟩
        intro i hi hP
        exact absurd hP (hflags.eq_zero_iff.mp hm i hi)
      · obtain ⟨hlt, hP, -, hrest⟩ := hflags.first hG.laneBits_pos hm
        change firstLane G m < G.width at hlt
        change P (firstLane G m) at hP
        rw [if_neg hm]
        simp only [hshaped.and_mask]
        by_cases hkey : (t.data ((pos + firstLane G m) % t.capacity)).1 = key
        · rw [if_pos hkey]
          exact Or.inl ⟨firstLane G m, hlt, hP, hkey, rfl⟩
        · rw [if_neg hkey]
          rcases ih _ (and_pred_lt hm) _ hrest with
            ⟨i, hi, ⟨hPi, -⟩, hfound⟩ | ⟨hnone, hres⟩
          · exact Or.inl ⟨i, hi, hPi, hfound⟩
          · refine Or.inr ⟨?_, hres⟩
            intro i hi hPi
            by_cases hfirst : i = firstLane G m
            · rw [hfirst]
              exact hkey
            · exact hnone i hi ⟨hPi, hfirst⟩

/-- One window of `find_index`: the slot that holds the key is returned if it
lies in the window. -/
theorem matchLoop_window (h : t.WellFormed) (key : K) {pos : ℕ}
    (hpos : pos < t.capacity) :
    (∃ s < t.capacity, ∃ v, t.liveAt s = some ⟨key, v⟩ ∧
      t.matchLoop key pos
        (G.matchByte (t.ctrlAt pos) (t.hashKey key).h2) = some s) ∨
    ((∀ i < G.width, ∀ v,
        t.liveAt ((pos + i) % t.capacity) ≠ some ⟨key, v⟩) ∧
      t.matchLoop key pos
        (G.matchByte (t.ctrlAt pos) (t.hashKey key).h2) = none) := by
  have hctrl : ∀ i < G.width,
      t.ctrlAt pos i = t.ctrl ((pos + i) % t.capacity) :=
    fun i hi => ctrlAt_eq h.shaped h.mirrored hpos hi
  obtain ⟨P, hflags, hall, hfull⟩ :=
    hG.matchByte_flags (t.ctrlAt pos) _ (t.isFull_h2 key)
  rcases matchLoop_spec hG h.shaped key pos _ P hflags with
    ⟨i, hi, hP, hkey, hres⟩ | ⟨hnone, hres⟩
  · have hslot := hfull i hi hP
    rw [hctrl i hi] at hslot
    have hlive := liveAt_of_full hslot
    rw [hkey] at hlive
    exact Or.inl ⟨_, Nat.mod_lt _ h.shaped.capacity_pos, _, hlive, hres⟩
  · refine Or.inr ⟨?_, hres⟩
    intro i hi v hlive
    have hdata := data_of_live hlive
    have hprint := (h.ctrlValid _
      (Nat.mod_lt _ h.shaped.capacity_pos)).eq_h2 (full_of_live hlive)
    rw [hdata] at hprint
    apply hnone i hi (hall i hi ((hctrl i hi).trans hprint))
    rw [hdata]

/-! ## `find_index` -/

omit hG [DecidableEq K] in
/-- The first `j` windows of the probe of `key` have no `EMPTY` slot, and none
of their slots holds `key`. -/
def Scanned (t : SwissTable K V hash G) (key : K) (j : ℕ) : Prop :=
  ∀ j' < j, t.WindowUsed (t.probeStart key j') ∧
    ∀ i < G.width, ∀ v,
      t.liveAt ((t.probeStart key j' + i) % t.capacity) ≠ some ⟨key, v⟩

omit hG [DecidableEq K] in
theorem Scanned.succ {j : ℕ} (h : t.Scanned key j)
    (hused : t.WindowUsed (t.probeStart key j))
    (hnone : ∀ i < G.width, ∀ v,
      t.liveAt ((t.probeStart key j + i) % t.capacity) ≠ some ⟨key, v⟩) :
    t.Scanned key (j + 1) := by
  intro j' hj'
  rcases Nat.lt_succ_iff_lt_or_eq.mp hj' with hlt | rfl
  · exact h j' hlt
  · exact ⟨hused, hnone⟩

omit hG [DecidableEq K] in
/-- A key is absent when its probe came to a window with an `EMPTY` slot
without meeting it. -/
theorem Scanned.absent (hwf : t.WellFormed) {j : ℕ} (h : t.Scanned key j)
    (hnone : ∀ i < G.width, ∀ v,
      t.liveAt ((t.probeStart key j + i) % t.capacity) ≠ some ⟨key, v⟩)
    (hempty : ¬t.WindowUsed (t.probeStart key j)) :
    ∀ s < t.capacity, ∀ v, t.liveAt s ≠ some ⟨key, v⟩ := by
  intro s hs v hlive
  obtain ⟨j₀, -, ⟨i, hi, hslot⟩, hbefore⟩ := hwf.reachable s hs _ hlive
  change (t.probeStart key j₀ + i) % t.capacity = s at hslot
  rcases Nat.lt_trichotomy j₀ j with hlt | rfl | hgt
  · apply (h j₀ hlt).2 i hi v
    rw [hslot, hlive]
  · apply hnone i hi v
    rw [hslot, hlive]
  · exact hempty (hbefore j hgt)

omit [DecidableEq K] in
/-- A probe cannot pass all its windows: one of them has an `EMPTY` slot. -/
theorem exists_window_not_used (hwf : t.WellFormed) (key : K) :
    ∃ j < t.probeBound, ¬t.WindowUsed (t.probeStart key j) := by
  obtain ⟨s, hs, hempty⟩ := hwf.exists_empty hG
  obtain ⟨j, hj, i, hi, hslot⟩ := exists_window_of_slot hG hwf.shaped key hs
  refine ⟨j, hj, ?_⟩
  intro hused
  apply hused i hi
  rw [hslot, hempty]

theorem findIndexLoop_spec (hwf : t.WellFormed) (key : K) :
    ∀ n j, n + j = t.probeBound → t.Scanned key j →
      (∃ s < t.capacity, ∃ v, t.liveAt s = some ⟨key, v⟩ ∧
        t.findIndexLoop key (t.hashKey key).h2 n (t.probeStart key j)
          (G.width * j) = .ok (some s)) ∨
      ((∀ s < t.capacity, ∀ v, t.liveAt s ≠ some ⟨key, v⟩) ∧
        t.findIndexLoop key (t.hashKey key).h2 n (t.probeStart key j)
          (G.width * j) = .ok none) := by
  intro n
  induction n with
  | zero =>
      intro j hj hscan
      obtain ⟨j', hj', hnot⟩ := exists_window_not_used hG hwf key
      exact absurd (hscan j' (by omega)).1 hnot
  | succ n ih =>
      intro j hj hscan
      have hpos := probeStart_lt hwf.shaped key j
      rcases matchLoop_window hG hwf key hpos with
        ⟨s, hs, v, hlive, hmatch⟩ | ⟨hnone, hmatch⟩
      · refine Or.inl ⟨s, hs, v, hlive, ?_⟩
        rw [findIndexLoop, hmatch]
      · rw [findIndexLoop, hmatch]
        by_cases hempty : G.matchEmpty (t.ctrlAt (t.probeStart key j)) ≠ 0
        · have hnot := (matchEmpty_ne_zero_iff hG hwf hpos).mp hempty
          refine Or.inr ⟨hscan.absent hwf hnone hnot, ?_⟩
          simp only [if_pos hempty]
        · have hused : t.WindowUsed (t.probeStart key j) := by
            by_contra hnot
            exact hempty ((matchEmpty_ne_zero_iff hG hwf hpos).mpr hnot)
          have hnext := ih (j + 1) (by omega) (hscan.succ hused hnone)
          simp only [if_neg hempty, probeStart_succ hwf.shaped]
          rwa [Nat.mul_add, Nat.mul_one] at hnext

/-- `find_index` returns, with the slot that holds the key or with nothing when
no slot does. -/
theorem findIndex_spec (hwf : t.WellFormed) (key : K) :
    (∃ s < t.capacity, ∃ v, t.liveAt s = some ⟨key, v⟩ ∧
      t.findIndex key (t.hashKey key) = .ok (some s)) ∨
    ((∀ s < t.capacity, ∀ v, t.liveAt s ≠ some ⟨key, v⟩) ∧
      t.findIndex key (t.hashKey key) = .ok none) := by
  have hloop := findIndexLoop_spec hG hwf key t.probeBound 0 rfl
    fun j' hj' => absurd hj' (Nat.not_lt_zero j')
  rw [probeStart, windowStart_zero (hwf.shaped.h1_lt key), Nat.mul_zero]
    at hloop
  exact hloop

end Find

/-! ## `prepare_insert` -/

omit hG in
/-- A slot where a new entry for `key` may go. -/
structure Insertable (t : SwissTable K V hash G) (key : K) (s : ℕ) : Prop where
  lt : s < t.capacity
  notFull : Control.isFull (t.ctrl s) = false
  reaches : t.Reaches key s

theorem prepareInsertLoop_spec (hwf : t.WellFormed) (key : K) :
    ∀ n j, n + j = t.probeBound →
      (∀ j' < j, t.WindowUsed (t.probeStart key j')) →
      ∃ s, t.prepareInsertLoop n (t.probeStart key j) (G.width * j) = .ok s ∧
        t.Insertable key s := by
  intro n
  induction n with
  | zero =>
      intro j hj hused
      obtain ⟨j', hj', hnot⟩ := exists_window_not_used hG hwf key
      exact absurd (hused j' (by omega)) hnot
  | succ n ih =>
      intro j hj hused
      have hpos := probeStart_lt hwf.shaped key j
      have hctrl : ∀ i < G.width, t.ctrlAt (t.probeStart key j) i =
          t.ctrl ((t.probeStart key j + i) % t.capacity) :=
        fun i hi => ctrlAt_eq hwf.shaped hwf.mirrored hpos hi
      have hflags :=
        hG.matchEmptyOrDeleted_flags (t.ctrlAt (t.probeStart key j))
      simp only [prepareInsertLoop, hwf.shaped.and_mask]
      by_cases hm :
          G.matchEmptyOrDeleted (t.ctrlAt (t.probeStart key j)) ≠ 0
      · obtain ⟨hlt, hfree, -, -⟩ := hflags.first hG.laneBits_pos hm
        rw [if_pos hm]
        refine ⟨_, rfl, Nat.mod_lt _ hwf.shaped.capacity_pos, ?_, ?_⟩
        · rw [← hfree]
          exact congrArg _ (hctrl _ hlt).symm
        · exact ⟨j, by omega, ⟨_, hlt, rfl⟩, hused⟩
      · have hfull := hflags.eq_zero_iff.mp (not_not.mp hm)
        have hnext := ih (j + 1) (by omega) (by
          intro j' hj'
          rcases Nat.lt_succ_iff_lt_or_eq.mp hj' with hlt | rfl
          · exact hused j' hlt
          · intro i hi
            rw [← hctrl i hi]
            exact Control.ne_empty_of_isFull (by simpa using hfull i hi))
        rw [if_neg hm, ← hwf.shaped.and_mask, probeStart_succ hwf.shaped]
        rwa [Nat.mul_add, Nat.mul_one] at hnext

/-- `prepare_insert` returns, with a slot where the key may go. -/
theorem prepareInsert_spec (hwf : t.WellFormed) (key : K) :
    ∃ s, t.prepareInsert (t.hashKey key) = .ok s ∧ t.Insertable key s := by
  have hloop := prepareInsertLoop_spec hG hwf key t.probeBound 0 rfl
    fun j' hj' => absurd hj' (Nat.not_lt_zero j')
  rw [probeStart, windowStart_zero (hwf.shaped.h1_lt key), Nat.mul_zero]
    at hloop
  exact hloop

end Fastbook.SwissTable

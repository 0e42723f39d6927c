import Fastbook.Common.LinearProbingTable
import Fastbook.Support.Slots

/-!
# The probing invariant of the linear probing table

A table is well formed when no key is stored twice and no slot on the way from
a key's home slot to the slot that holds it is empty.  Under this invariant
`find_key` finds exactly the stored keys, and `insert` fails only on a stored
key or on a table without a free slot.
-/

namespace Fastbook.LinearProbingTable

open Support

variable {K V : Type*} {hash : K → UInt64} {mode : EraseMode}

/-- The key and value of a live slot; `none` for an empty or deleted one. -/
def liveAt (t : LinearProbingTable K V hash mode) (s : ℕ) :
    Option ((_ : K) × V) :=
  match t.data s with
  | (key, .ptr value) => some ⟨key, value⟩
  | _ => none

/-- The live entries of the table, in slot order. -/
def entries (t : LinearProbingTable K V hash mode) : List ((_ : K) × V) :=
  collect t.liveAt t.capacity

/-- The home slot of a key is addressed by its top `k` hash bits, where `2 ^ k`
is the number of slots.  A table without slots has no home slots. -/
def Shaped (t : LinearProbingTable K V hash mode) : Prop :=
  t.capacity = 0 ∨
    ∃ k, 0 < k ∧ k < 64 ∧ t.capacity = 2 ^ k ∧ t.shift = 64 - k

/-- Every slot before `s` on the probe path of `key` is in use. -/
def PathFull (t : LinearProbingTable K V hash mode) (key : K) (s : ℕ) : Prop :=
  ∀ x < t.capacity,
    cyclicDist t.capacity (t.getPos key) x <
      cyclicDist t.capacity (t.getPos key) s → t.isEmpty x = false

structure WellFormed (t : LinearProbingTable K V hash mode) : Prop where
  shaped : t.Shaped
  nodupKeys : t.entries.NodupKeys
  noTombstone : mode = .backwardShift → ∀ s, t.isDeleted s = false
  reachable : ∀ s < t.capacity, ∀ e, t.liveAt s = some e → t.PathFull e.1 s

/-! ## Slots -/

/-- A slot is empty, deleted or live. -/
theorem slot_cases (t : LinearProbingTable K V hash mode) (s : ℕ) :
    (t.isEmpty s = true ∧ t.isDeleted s = false ∧ t.liveAt s = none) ∨
    (t.isEmpty s = false ∧ t.isDeleted s = true ∧ t.liveAt s = none) ∨
    (t.isEmpty s = false ∧ t.isDeleted s = false ∧
      ∃ v, t.liveAt s = some ⟨(t.data s).1, v⟩) := by
  unfold isEmpty isDeleted liveAt
  rcases h : t.data s with ⟨key, cell⟩
  cases cell <;> simp

theorem liveAt_store (t : LinearProbingTable K V hash mode) (s : ℕ) (key : K)
    (cell : Cell V) :
    (t.store s (key, cell)).liveAt =
      Function.update t.liveAt s
        (match cell with
          | .ptr value => some ⟨key, value⟩
          | _ => none) := by
  funext x
  by_cases hx : x = s
  · subst hx
    cases cell <;> simp [liveAt, store]
  · simp [liveAt, store, hx]

theorem isEmpty_store_of_ne {t : LinearProbingTable K V hash mode} {s x : ℕ}
    {entry : K × Cell V} (hx : x ≠ s) :
    (t.store s entry).isEmpty x = t.isEmpty x := by
  simp [isEmpty, store, hx]

theorem isDeleted_store_of_ne {t : LinearProbingTable K V hash mode} {s x : ℕ}
    {entry : K × Cell V} (hx : x ≠ s) :
    (t.store s entry).isDeleted x = t.isDeleted x := by
  simp [isDeleted, store, hx]

theorem liveAt_eq_none_of_isEmpty {t : LinearProbingTable K V hash mode}
    {s : ℕ} (h : t.isEmpty s = true) : t.liveAt s = none := by
  rcases t.slot_cases s with h' | h' | h'
  · exact h'.2.2
  · exact h'.2.2
  · simp [h] at h'

theorem isEmpty_eq_false_of_live {t : LinearProbingTable K V hash mode}
    {s : ℕ} {e : (_ : K) × V} (h : t.liveAt s = some e) :
    t.isEmpty s = false := by
  rcases t.slot_cases s with h' | h' | h'
  · simp [h] at h'
  · exact h'.1
  · exact h'.1

theorem mem_entries {t : LinearProbingTable K V hash mode}
    {e : (_ : K) × V} :
    e ∈ t.entries ↔ ∃ s < t.capacity, t.liveAt s = some e :=
  mem_collect

/-- The home slot of a key is a slot of the table. -/
theorem getPos_lt {t : LinearProbingTable K V hash mode} (h : t.Shaped)
    (hcap : t.capacity ≠ 0) (key : K) : t.getPos key < t.capacity := by
  rcases h with hzero | ⟨k, -, hk, hcapacity, hshift⟩
  · exact absurd hzero hcap
  · rw [getPos, hcapacity, hshift, Nat.shiftRight_eq_div_pow]
    rw [Nat.div_lt_iff_lt_mul (by positivity), ← pow_add]
    have hexp : k + (64 - k) = 64 := by omega
    rw [hexp]
    exact (hash key).toNat_lt

/-- On a shaped table the `i`-th slot of a probe is the `i`-th one after the
home slot. -/
theorem probe_slot {t : LinearProbingTable K V hash mode} (h : t.Shaped)
    (key : K) {i : ℕ} (hi : i < t.capacity) :
    (t.getPos key + i) &&& (t.capacity - 1) =
      cyclicAdd t.capacity (t.getPos key) i := by
  have hpos := getPos_lt h (by omega) key
  rcases h with hzero | ⟨k, -, -, hcapacity, -⟩
  · omega
  · rw [hcapacity] at hi hpos ⊢
    exact add_and_mask hpos hi

theorem Shaped.succ_and_mask {t : LinearProbingTable K V hash mode}
    (h : t.Shaped) {s : ℕ} (hs : s < t.capacity) :
    (s + 1) &&& (t.capacity - 1) = cyclicAdd t.capacity s 1 := by
  rcases h with hzero | ⟨k, hpos, -, hcapacity, -⟩
  · omega
  · rw [hcapacity] at hs ⊢
    exact add_and_mask hs (Nat.one_lt_two_pow (by omega))

theorem Shaped.sub_and_mask {t : LinearProbingTable K V hash mode}
    (h : t.Shaped) {a b : ℕ} (ha : a < t.capacity) (hb : b < t.capacity) :
    subU64 b a &&& (t.capacity - 1) = cyclicDist t.capacity a b := by
  rcases h with hzero | ⟨k, -, hk, hcapacity, -⟩
  · omega
  · rw [hcapacity] at ha hb ⊢
    exact subU64_and_mask (by omega) ha hb

theorem WellFormed.mode_eq_of_isDeleted
    {t : LinearProbingTable K V hash mode} (hwf : t.WellFormed) {s : ℕ}
    (hdel : t.isDeleted s = true) : mode = .tombstone := by
  by_cases hmode : mode = .backwardShift
  · have hclean := hwf.noTombstone hmode s
    rw [hdel] at hclean
    cases hclean
  · cases mode with
    | backwardShift => exact absurd rfl hmode
    | tombstone => rfl

/-! ## Finding a key -/

section Find

variable [DecidableEq K] {t : LinearProbingTable K V hash mode} {key : K}

/-- The first `i` slots of the probe of `key` are in use, and none of them
holds `key`. -/
def Scanned (t : LinearProbingTable K V hash mode) (key : K) (i : ℕ) : Prop :=
  ∀ j < i, t.isEmpty (cyclicAdd t.capacity (t.getPos key) j) = false ∧
    ∀ v, t.liveAt (cyclicAdd t.capacity (t.getPos key) j) ≠ some ⟨key, v⟩

omit [DecidableEq K] in
theorem Scanned.succ {i : ℕ} (h : t.Scanned key i)
    (hempty : t.isEmpty (cyclicAdd t.capacity (t.getPos key) i) = false)
    (hlive : ∀ v,
      t.liveAt (cyclicAdd t.capacity (t.getPos key) i) ≠ some ⟨key, v⟩) :
    t.Scanned key (i + 1) := by
  intro j hj
  rcases Nat.lt_succ_iff_lt_or_eq.mp hj with hlt | rfl
  · exact h j hlt
  · exact ⟨hempty, hlive⟩

omit [DecidableEq K] in
/-- A key is absent when its probe ran into an empty slot or over all slots
without meeting it. -/
theorem Scanned.absent {i : ℕ} (hwf : t.WellFormed) (h : t.Scanned key i)
    (hstop : i = t.capacity ∨ i < t.capacity ∧
      t.isEmpty (cyclicAdd t.capacity (t.getPos key) i) = true) :
    ∀ s < t.capacity, ∀ v, t.liveAt s ≠ some ⟨key, v⟩ := by
  intro s hs v hlive
  have hpos := getPos_lt hwf.shaped (by omega) key
  have hdist := cyclicDist_lt (a := t.getPos key) hs
  have hslot := cyclicAdd_cyclicDist hpos hs
  by_cases hlt : cyclicDist t.capacity (t.getPos key) s < i
  · have hne := (h _ hlt).2 v
    rw [hslot] at hne
    exact hne hlive
  · rcases hstop with hfull | ⟨hi, hempty⟩
    · omega
    · have hfull : t.PathFull key s := hwf.reachable s hs _ hlive
      by_cases heq : cyclicDist t.capacity (t.getPos key) s = i
      · rw [← heq, hslot] at hempty
        rw [isEmpty_eq_false_of_live hlive] at hempty
        cases hempty
      · have hbefore := hfull _ (cyclicAdd_lt hpos hi) (by
          rw [cyclicDist_cyclicAdd hpos hi]
          omega)
        rw [hbefore] at hempty
        cases hempty

theorem findKeyLoop_spec (hwf : t.WellFormed) :
    ∀ n i, n + i = t.capacity → t.Scanned key i →
      (∃ s < t.capacity, ∃ v, t.liveAt s = some ⟨key, v⟩ ∧
        t.findKeyLoop key (t.getPos key) n i = s) ∨
      ((∀ s < t.capacity, ∀ v, t.liveAt s ≠ some ⟨key, v⟩) ∧
        t.findKeyLoop key (t.getPos key) n i = t.capacity) := by
  intro n
  induction n with
  | zero =>
      intro i hi hscan
      exact Or.inr ⟨hscan.absent hwf (Or.inl (by omega)), rfl⟩
  | succ n ih =>
      intro i hi hscan
      have hlt : i < t.capacity := by omega
      have hslot := probe_slot hwf.shaped key hlt
      have hpos := getPos_lt hwf.shaped (by omega) key
      simp only [findKeyLoop, hslot]
      rcases t.slot_cases (cyclicAdd t.capacity (t.getPos key) i) with
        ⟨hempty, -, -⟩ | ⟨hempty, hdel, hlive⟩ | ⟨hempty, hdel, v, hlive⟩
      · rw [if_pos hempty]
        exact Or.inr ⟨hscan.absent hwf (Or.inr ⟨hlt, hempty⟩), rfl⟩
      · rw [if_neg (by simp [hempty]),
          if_pos ⟨hwf.mode_eq_of_isDeleted hdel, hdel⟩]
        apply ih (i + 1) (by omega)
        exact hscan.succ hempty (by simp [hlive])
      · rw [if_neg (by simp [hempty]), if_neg (by simp [hdel])]
        by_cases hkey :
            (t.data (cyclicAdd t.capacity (t.getPos key) i)).1 = key
        · rw [if_pos hkey]
          rw [hkey] at hlive
          exact Or.inl ⟨_, cyclicAdd_lt hpos hlt, v, hlive, rfl⟩
        · rw [if_neg hkey]
          apply ih (i + 1) (by omega)
          apply hscan.succ hempty
          intro w hw
          rw [hlive] at hw
          simp only [Option.some.injEq, Sigma.mk.injEq] at hw
          exact hkey hw.1

/-- `find_key` returns the slot that holds the key, and `capacity_` exactly
when no slot does. -/
theorem findKey_spec (hwf : t.WellFormed) (key : K) :
    (∃ s < t.capacity, ∃ v, t.liveAt s = some ⟨key, v⟩ ∧
      t.findKey key = s) ∨
    ((∀ s < t.capacity, ∀ v, t.liveAt s ≠ some ⟨key, v⟩) ∧
      t.findKey key = t.capacity) := by
  apply findKeyLoop_spec hwf t.capacity 0 rfl
  intro j hj
  omega

end Find

/-! ## Inserting a key -/

section Insert

variable [DecidableEq K] {t : LinearProbingTable K V hash mode} {key : K}

/-- A slot where a new entry for `key` may go: it holds no entry, and the slots
before it on the probe path are in use. -/
structure Insertable (t : LinearProbingTable K V hash mode) (key : K)
    (s : ℕ) : Prop where
  lt : s < t.capacity
  notLive : t.liveAt s = none
  pathFull : t.PathFull key s

omit [DecidableEq K] in
theorem Scanned.pathFull {i : ℕ} (hwf : t.WellFormed) (h : t.Scanned key i)
    (hi : i < t.capacity) :
    t.PathFull key (cyclicAdd t.capacity (t.getPos key) i) := by
  intro x hx hbefore
  have hpos := getPos_lt hwf.shaped (by omega) key
  rw [cyclicDist_cyclicAdd hpos hi] at hbefore
  have hused := (h _ hbefore).1
  rwa [cyclicAdd_cyclicDist hpos hx] at hused

/-- What the probe loop of `insert` remembers: `capacity_`, as long as every
slot scanned so far is live, or a deleted slot where the entry may go. -/
def FirstDeleted (t : LinearProbingTable K V hash mode) (key : K)
    (i fd : ℕ) : Prop :=
  (fd = t.capacity ∧
    ∀ j < i, t.liveAt (cyclicAdd t.capacity (t.getPos key) j) ≠ none) ∨
  (fd ≠ t.capacity ∧ t.Insertable key fd)

/-- What `insert` does, in terms of the slots. -/
def InsertSpec (t : LinearProbingTable K V hash mode) (key : K) (value : V)
    (result : Bool × LinearProbingTable K V hash mode) : Prop :=
  ((∃ s < t.capacity, ∃ v, t.liveAt s = some ⟨key, v⟩) ∧
    result = (false, t)) ∨
  ((∀ s < t.capacity, ∀ v, t.liveAt s ≠ some ⟨key, v⟩) ∧
    ((∃ s, t.Insertable key s ∧ result = (true, t.occupy s key value)) ∨
      ((∀ s < t.capacity, t.liveAt s ≠ none) ∧ result = (false, t))))

theorem insertLoop_spec (hwf : t.WellFormed) (value : V) :
    ∀ n i fd, n + i = t.capacity → t.Scanned key i → t.FirstDeleted key i fd →
      t.InsertSpec key value
        (t.insertLoop key value (t.getPos key) n i fd) := by
  intro n
  induction n with
  | zero =>
      intro i fd hi hscan hfd
      refine Or.inr ⟨hscan.absent hwf (Or.inl (by omega)), ?_⟩
      rcases hfd with ⟨rfl, hlive⟩ | ⟨hne, hins⟩
      · refine Or.inr ⟨?_, by simp [insertLoop]⟩
        intro s hs
        have hpos := getPos_lt hwf.shaped (by omega) key
        have hdist := cyclicDist_lt (a := t.getPos key) hs
        have hslot :=
          hlive (cyclicDist t.capacity (t.getPos key) s) (by omega)
        rwa [cyclicAdd_cyclicDist hpos hs] at hslot
      · exact Or.inl ⟨fd, hins, by simp [insertLoop, hne]⟩
  | succ n ih =>
      intro i fd hi hscan hfd
      have hlt : i < t.capacity := by omega
      have hslot := probe_slot hwf.shaped key hlt
      have hpos := getPos_lt hwf.shaped (by omega) key
      have hslotLt := cyclicAdd_lt hpos hlt
      have hpath := hscan.pathFull hwf hlt
      simp only [insertLoop, hslot]
      rcases t.slot_cases (cyclicAdd t.capacity (t.getPos key) i) with
        ⟨hempty, hdel, hlive⟩ | ⟨hempty, hdel, hlive⟩ | ⟨hempty, hdel, v, hlive⟩
      · rw [if_neg (by simp [hdel]), if_pos hempty]
        refine Or.inr ⟨hscan.absent hwf (Or.inr ⟨hlt, hempty⟩), Or.inl ?_⟩
        rcases hfd with ⟨rfl, -⟩ | ⟨hne, hins⟩
        · exact ⟨_, ⟨hslotLt, hlive, hpath⟩, by simp⟩
        · exact ⟨fd, hins, by simp [hne]⟩
      · rw [if_pos ⟨hwf.mode_eq_of_isDeleted hdel, hdel⟩]
        apply ih (i + 1) _ (by omega)
        · exact hscan.succ hempty (by simp [hlive])
        · rcases hfd with ⟨rfl, -⟩ | ⟨hne, hins⟩
          · rw [if_pos rfl]
            exact Or.inr ⟨by omega, ⟨hslotLt, hlive, hpath⟩⟩
          · rw [if_neg hne]
            exact Or.inr ⟨hne, hins⟩
      · rw [if_neg (by simp [hdel]), if_neg (by simp [hempty])]
        by_cases hkey :
            (t.data (cyclicAdd t.capacity (t.getPos key) i)).1 = key
        · rw [if_pos hkey]
          rw [hkey] at hlive
          exact Or.inl ⟨⟨_, hslotLt, v, hlive⟩, rfl⟩
        · rw [if_neg hkey]
          apply ih (i + 1) _ (by omega)
          · apply hscan.succ hempty
            intro w hw
            rw [hlive] at hw
            simp only [Option.some.injEq, Sigma.mk.injEq] at hw
            exact hkey hw.1
          · rcases hfd with ⟨rfl, hall⟩ | hfd
            · refine Or.inl ⟨rfl, ?_⟩
              intro j hj
              rcases Nat.lt_succ_iff_lt_or_eq.mp hj with hji | rfl
              · exact hall j hji
              · simp [hlive]
            · exact Or.inr hfd

theorem insert_spec (hwf : t.WellFormed) (key : K) (value : V) :
    t.InsertSpec key value (t.insert key value) := by
  apply insertLoop_spec hwf value t.capacity 0 t.capacity rfl
  · intro j hj
    omega
  · refine Or.inl ⟨rfl, ?_⟩
    intro j hj
    omega

omit [DecidableEq K] in
/-- Occupying a slot only adds entries in use, so probe paths stay full. -/
theorem PathFull.store {x : ℕ} {k : K} (h : t.PathFull k x) (s : ℕ)
    {entry : K × Cell V} (hentry : entry.2 ≠ .null) :
    (t.store s entry).PathFull k x := by
  intro y hy hlt
  by_cases hys : y = s
  · subst hys
    cases hcell : entry.2 with
    | null => exact absurd hcell hentry
    | deleted => simp [isEmpty, LinearProbingTable.store, hcell]
    | ptr v => simp [isEmpty, LinearProbingTable.store, hcell]
  · rw [isEmpty_store_of_ne hys]
    exact h y hy hlt

omit [DecidableEq K] in
theorem entries_occupy {s : ℕ} {value : V} (h : t.Insertable key s) :
    (t.occupy s key value).entries.Perm (⟨key, value⟩ :: t.entries) := by
  have hlive : (t.occupy s key value).liveAt =
      Function.update t.liveAt s (some ⟨key, value⟩) :=
    liveAt_store t s key (.ptr value)
  unfold entries
  rw [hlive]
  exact collect_update_some h.lt h.notLive

omit [DecidableEq K] in
theorem WellFormed.occupy {s : ℕ} (hwf : t.WellFormed) (value : V)
    (h : t.Insertable key s)
    (habsent : ∀ s < t.capacity, ∀ v, t.liveAt s ≠ some ⟨key, v⟩) :
    (t.occupy s key value).WellFormed := by
  have hlive : (t.occupy s key value).liveAt =
      Function.update t.liveAt s (some ⟨key, value⟩) :=
    liveAt_store t s key (.ptr value)
  constructor
  · exact hwf.shaped
  · rw [List.perm_nodupKeys (entries_occupy h), List.nodupKeys_cons]
    refine ⟨?_, hwf.nodupKeys⟩
    intro hmem
    obtain ⟨v, hv⟩ := List.exists_of_mem_keys hmem
    obtain ⟨x, hx, hxlive⟩ := mem_entries.mp hv
    exact habsent x hx v hxlive
  · intro hmode x
    by_cases hx : x = s
    · subst hx
      simp [isDeleted, LinearProbingTable.occupy, store]
    · have hstore : (t.occupy s key value).isDeleted x = t.isDeleted x :=
        isDeleted_store_of_ne hx
      exact hstore.trans (hwf.noTombstone hmode x)
  · intro x hx e he
    rw [hlive] at he
    have hpath : t.PathFull e.1 x := by
      by_cases hxs : x = s
      · subst hxs
        rw [Function.update_self] at he
        cases he
        exact h.pathFull
      · rw [Function.update_of_ne hxs] at he
        exact hwf.reachable x hx e he
    exact hpath.store s (by simp : (key, Cell.ptr value).2 ≠ .null)

end Insert

end Fastbook.LinearProbingTable

import Fastbook.Common.LinearProbingErase
import Fastbook.Support.FiniteMap

/-!
# The linear probing table is a finite map

`Represents t m` says that the well-formed table `t` holds exactly the
bindings of the finite map `m`.  Each operation is described once on the map;
runs of operations then answer as the map does.
-/

namespace Fastbook.LinearProbingTable

open Support

variable {K V : Type*} {hash : K → UInt64} {mode : EraseMode}

/-- The table `t` holds exactly the bindings of `m`. -/
structure Represents (t : LinearProbingTable K V hash mode)
    (m : AList fun _ : K => V) : Prop where
  wellFormed : t.WellFormed
  perm : t.entries.Perm m.entries

variable {t : LinearProbingTable K V hash mode} {m : AList fun _ : K => V}

theorem Represents.congr {m' : AList fun _ : K => V} (h : t.Represents m)
    (hm : m.entries.Perm m'.entries) : t.Represents m' :=
  ⟨h.wellFormed, h.perm.trans hm⟩

/-- The number of live slots is the number of bindings. -/
theorem Represents.length_eq (h : t.Represents m) :
    (collect t.liveAt t.capacity).length = m.entries.length :=
  h.perm.length_eq

theorem Represents.length_le (h : t.Represents m) :
    m.entries.length ≤ t.capacity := by
  rw [← h.length_eq]
  exact length_collect_le

variable [DecidableEq K]

theorem Represents.lookup_eq_some_iff (h : t.Represents m) {key : K} {v : V} :
    m.lookup key = some v ↔
      ∃ s < t.capacity, t.liveAt s = some ⟨key, v⟩ :=
  lookup_eq_some_iff_slot h.perm

theorem Represents.notMem_iff (h : t.Represents m) {key : K} :
    key ∉ m ↔ ∀ s < t.capacity, ∀ v, t.liveAt s ≠ some ⟨key, v⟩ :=
  notMem_iff_slot h.perm

/-! ## `find` -/

/-- `find` is the lookup of the map. -/
theorem find_eq_lookup (h : t.Represents m) (key : K) :
    t.find key = m.lookup key := by
  rcases findKey_spec h.wellFormed key with
    ⟨s, hs, v, hlive, hfind⟩ | ⟨habsent, hfind⟩
  · have hlookup := h.lookup_eq_some_iff.mpr ⟨s, hs, hlive⟩
    simp [find, hfind, hlookup, Nat.ne_of_lt hs, data_of_live hlive]
  · have hlookup := AList.lookup_eq_none.mpr (h.notMem_iff.mpr habsent)
    simp [find, hfind, hlookup]

/-! ## `insert` -/

theorem insert_of_mem (h : t.Represents m) {key : K} (hmem : key ∈ m)
    (value : V) : t.insert key value = (false, t) := by
  rcases insert_spec h.wellFormed key value with ⟨-, hres⟩ | ⟨habsent, -⟩
  · exact hres
  · exact absurd hmem (h.notMem_iff.mpr habsent)

theorem insert_of_full (h : t.Represents m)
    (hfull : t.capacity ≤ m.entries.length) (key : K) (value : V) :
    t.insert key value = (false, t) := by
  rcases insert_spec h.wellFormed key value with
    ⟨-, hres⟩ | ⟨-, ⟨s, hins, -⟩ | ⟨-, hres⟩⟩
  · exact hres
  · have hlt := length_lt_of_exists_free hins.lt hins.notLive
    rw [h.length_eq] at hlt
    omega
  · exact hres

/-- A new key is bound whenever some slot holds no live entry. -/
theorem insert_of_notMem (h : t.Represents m) {key : K} (hmem : key ∉ m)
    (hroom : m.entries.length < t.capacity) (value : V) :
    ∃ t', t.insert key value = (true, t') ∧
      t'.Represents (m.insert key value) ∧ t'.capacity = t.capacity := by
  have hnot := h.notMem_iff.mp hmem
  rcases insert_spec h.wellFormed key value with
    ⟨⟨s, hs, v, hlive⟩, -⟩ | ⟨-, ⟨s, hins, hres⟩ | ⟨hall, -⟩⟩
  · exact absurd hlive (hnot s hs v)
  · refine ⟨t.occupy s key value, hres, ?_, rfl⟩
    refine ⟨h.wellFormed.occupy value hins hnot, ?_⟩
    rw [AList.entries_insert_of_notMem hmem]
    exact (entries_occupy hins).trans (h.perm.cons _)
  · have hlen := length_collect_of_forall_some hall
    rw [h.length_eq] at hlen
    omega

/-! ## `erase` -/

omit [DecidableEq K] in
theorem WellFormed.with_size (h : t.WellFormed) (n : ℕ) :
    ({ t with size := n } : LinearProbingTable K V hash mode).WellFormed :=
  ⟨h.shaped, h.nodupKeys, h.noTombstone, h.reachable⟩

theorem erase_of_notMem (h : t.Represents m) {key : K} (hmem : key ∉ m) :
    t.erase key = .ok (false, t) := by
  rcases findKey_spec h.wellFormed key with
    ⟨s, hs, v, hlive, -⟩ | ⟨-, hfind⟩
  · exact absurd hlive (h.notMem_iff.mp hmem s hs v)
  · simp [erase, hfind]

/-- `erase` of a bound key terminates and removes that binding only, in both
modes. -/
theorem erase_of_mem (h : t.Represents m) {key : K} (hmem : key ∈ m) :
    ∃ t', t.erase key = .ok (true, t') ∧ t'.Represents (m.erase key) ∧
      t'.capacity = t.capacity := by
  rcases findKey_spec h.wellFormed key with
    ⟨s, hs, v, hlive, hfind⟩ | ⟨habsent, -⟩
  · have hmap : ∀ l : List ((_ : K) × V), t.entries.Perm (⟨key, v⟩ :: l) →
        l.Perm (m.erase key).entries := by
      intro l hl
      exact perm_entries_erase (hl.symm.trans h.perm)
    have hwf := h.wellFormed.with_size (t.size - 1)
    by_cases hmode : mode = .tombstone
    · obtain ⟨hdel, hperm⟩ := hwf.setDeleted hmode hs hlive
      exact ⟨_, by simp [erase, hfind, Nat.ne_of_lt hs, hmode],
        ⟨hdel, hmap _ hperm⟩, rfl⟩
    · have hback : mode = .backwardShift := by
        cases mode with
        | backwardShift => rfl
        | tombstone => exact absurd rfl hmode
      obtain ⟨hshift, hperm⟩ := Shifting.start hwf hback hs hlive
      have hcap : 0 < t.capacity := by omega
      have hnext := h.wellFormed.shaped.succ_and_mask hs
      obtain ⟨t', hrun, hwf', hentries, hcapacity⟩ := shiftBack_spec
        t.shiftBound _ s 1 hshift (by omega) hcap (by
          have hle := totalDistance_le
            (t := ({ t with size := t.size - 1 } :
              LinearProbingTable K V hash mode).setEmpty s)
          have hmul := Nat.mul_le_mul_right t.capacity hle
          change _ * t.capacity ≤ t.capacity * t.capacity * t.capacity at hmul
          change _ * t.capacity + (t.capacity - 1) <
            t.capacity * t.capacity * t.capacity + t.capacity + 1
          omega)
      refine ⟨t', ?_, ⟨hwf', hentries.trans (hmap _ hperm)⟩, hcapacity⟩
      have hrun' : (({ t with size := t.size - 1 } :
          LinearProbingTable K V hash mode).setEmpty s).shiftBack
            ({ t with size := t.size - 1 } :
              LinearProbingTable K V hash mode).shiftBound
            s (cyclicAdd t.capacity s 1) = .ok t' := hrun
      simp only [erase, hfind, Nat.ne_of_lt hs, hmode, if_false, hnext]
      rw [hrun']
  · exact absurd hmem (h.notMem_iff.mpr habsent)

/-! ## `rehash` -/

omit [DecidableEq K] in
theorem make_eq_fresh [Inhabited K] {c : ℕ} (hc : c.isPowerOfTwo) :
    (make true c : Except CtorError (LinearProbingTable K V hash mode)) =
      .ok (fresh c) := by
  simp [make, hc]

omit [DecidableEq K] in
theorem fresh_shaped [Inhabited K] {c : ℕ} (hc : c.isPowerOfTwo)
    (hlt : c < 2 ^ 64) :
    (fresh c : LinearProbingTable K V hash mode).Shaped := by
  obtain ⟨k, rfl⟩ := hc
  have hk : k < 64 := (Nat.pow_lt_pow_iff_right (by omega)).mp hlt
  have hslots : slotsFor (2 ^ k) = 2 ^ (k + 1) % 2 ^ 64 := by
    rw [slotsFor, Nat.shiftLeft_eq, pow_one, ← pow_succ]
  by_cases hlast : k = 63
  · subst hlast
    exact Or.inl (by rw [fresh, hslots, Nat.mod_self])
  · have hsmall : slotsFor (2 ^ k) = 2 ^ (k + 1) := by
      rw [hslots]
      exact Nat.mod_eq_of_lt (Nat.pow_lt_pow_right (by omega) (by omega))
    refine Or.inr ⟨k + 1, by omega, by omega, hsmall, ?_⟩
    rw [fresh, hsmall, countrZero_two_pow (by omega)]

omit [DecidableEq K] in
/-- A fresh table holds nothing. -/
theorem fresh_represents [Inhabited K] {c : ℕ} (hc : c.isPowerOfTwo)
    (hlt : c < 2 ^ 64) :
    (fresh c : LinearProbingTable K V hash mode).Represents ∅ := by
  have hlive : ∀ s, (fresh c : LinearProbingTable K V hash mode).liveAt s =
      none := fun _ => rfl
  have hentries : (fresh c : LinearProbingTable K V hash mode).entries = [] :=
    collect_eq_nil fun s _ => hlive s
  refine ⟨⟨fresh_shaped hc hlt, ?_, fun _ _ => rfl, ?_⟩, ?_⟩
  · rw [hentries]
    exact List.nodupKeys_nil
  · intro s _ e he
    rw [hlive] at he
    cases he
  · rw [hentries]
    exact List.Perm.refl _

/-- The copying loop binds exactly the entries of the slots it visits. -/
theorem rehashInto_spec (t : LinearProbingTable K V hash mode) :
    ∀ (slots : List ℕ) (new : LinearProbingTable K V hash mode)
      (m : AList fun _ : K => V),
      new.Represents m →
      (slots.filterMap t.liveAt).NodupKeys →
      (∀ e ∈ slots.filterMap t.liveAt, e.1 ∉ m) →
      m.entries.length + (slots.filterMap t.liveAt).length ≤ new.capacity →
      ∃ m' : AList fun _ : K => V,
        (t.rehashInto new slots).Represents m' ∧
        m'.entries.Perm (slots.filterMap t.liveAt ++ m.entries) ∧
        (t.rehashInto new slots).capacity = new.capacity := by
  intro slots
  induction slots with
  | nil =>
      intro new m h _ _ _
      exact ⟨m, h, List.Perm.refl _, rfl⟩
  | cons i slots ih =>
      intro new m h hnodup hfresh hroom
      cases hlive : t.liveAt i with
      | none =>
          have hskip : t.rehashInto new (i :: slots) =
              t.rehashInto new slots := by
            unfold rehashInto
            rw [List.foldl_cons]
            unfold liveAt at hlive
            rcases hdata : t.data i with ⟨key, cell⟩
            rw [hdata] at hlive
            cases cell with
            | null => rfl
            | deleted => rfl
            | ptr v => simp at hlive
          rw [List.filterMap_cons_none hlive] at hnodup hfresh hroom ⊢
          rw [hskip]
          exact ih new m h hnodup hfresh hroom
      | some e =>
          rw [List.filterMap_cons_some hlive] at hnodup hfresh hroom ⊢
          rw [List.nodupKeys_cons] at hnodup
          have hnot : e.1 ∉ m := hfresh e (by simp)
          simp only [List.length_cons] at hroom
          obtain ⟨new', hins, hrep, hcap⟩ :=
            insert_of_notMem h hnot (by omega) e.2
          have hstep : t.rehashInto new (i :: slots) =
              t.rehashInto new' slots := by
            unfold rehashInto
            rw [List.foldl_cons, data_of_live hlive]
            simp only [hins]
          obtain ⟨m', hrep', hperm, hcap'⟩ :=
            ih new' (m.insert e.1 e.2) hrep hnodup.2 (by
              intro e' he' hmem
              rw [AList.mem_insert] at hmem
              rcases hmem with heq | hmem
              · apply hnodup.1
                rw [← heq]
                exact List.mem_keys_of_mem he'
              · exact hfresh e' (by simp [he']) hmem) (by
              rw [AList.entries_insert_of_notMem hnot, hcap, List.length_cons]
              omega)
          rw [hstep]
          refine ⟨m', hrep', hperm.trans ?_, hcap'.trans hcap⟩
          rw [AList.entries_insert_of_notMem hnot]
          exact List.perm_middle

theorem rehash_of_alloc_fails [Inhabited K]
    (t : LinearProbingTable K V hash mode) (c : ℕ) :
    t.rehash false c = .ok (false, t) := by
  simp [rehash, make]

/-- A rehash to a large enough power of two changes no binding. -/
theorem rehash_spec [Inhabited K] (h : t.Represents m) {c : ℕ}
    (hc : c.isPowerOfTwo) (hlt : c < 2 ^ 64)
    (hroom : m.entries.length ≤ slotsFor c) :
    ∃ t', t.rehash true c = .ok (true, t') ∧ t'.Represents m ∧
      t'.capacity = slotsFor c := by
  obtain ⟨m', hrep, hperm, hcap⟩ := rehashInto_spec t
    (List.range t.capacity) (fresh c) ∅ (fresh_represents hc hlt)
    h.wellFormed.nodupKeys (by simp) (by
      have hlen := h.length_eq
      unfold collect at hlen
      rw [hlen]
      simpa [fresh] using hroom)
  have hmap : m'.entries.Perm m.entries := by
    have hsame := hperm.trans (List.Perm.of_eq (List.append_nil _))
    exact hsame.trans h.perm
  have hrep' := hrep.congr hmap
  refine ⟨t.swapStorage (t.rehashInto (fresh c) (List.range t.capacity)),
    by simp only [rehash, make_eq_fresh hc], ?_, hcap⟩
  exact ⟨⟨hrep'.wellFormed.shaped, hrep'.wellFormed.nodupKeys,
    hrep'.wellFormed.noTombstone, hrep'.wellFormed.reachable⟩, hrep'.perm⟩

/-- A rehash to a capacity that is no power of two terminates the process. -/
theorem rehash_of_not_isPowerOfTwo [Inhabited K]
    (t : LinearProbingTable K V hash mode) {c : ℕ}
    (hc : ¬c.isPowerOfTwo) : t.rehash true c = .error .terminate := by
  simp [rehash, make, hc]

/-! ## Runs -/

section Runs

variable [Inhabited K]

/-- The calls a user of the table can make.  A rehash carries whether its
allocation succeeds. -/
inductive Call (K V : Type*) where
  | insert (key : K) (value : V)
  | find (key : K)
  | erase (key : K)
  | rehash (alloc : Bool) (newCapacity : ℕ)

inductive Answer (V : Type*) where
  | flag (b : Bool)
  | value (v : Option V)
  deriving DecidableEq, Repr

def call (t : LinearProbingTable K V hash mode) :
    Call K V → Except Fault (Answer V × LinearProbingTable K V hash mode)
  | .insert key value =>
    let (b, t') := t.insert key value
    .ok (.flag b, t')
  | .find key => .ok (.value (t.find key), t)
  | .erase key => (t.erase key).map fun (b, t') => (.flag b, t')
  | .rehash alloc newCapacity =>
    (t.rehash alloc newCapacity).map fun (b, t') => (.flag b, t')

def calls (t : LinearProbingTable K V hash mode) :
    List (Call K V) →
      Except Fault (List (Answer V) × LinearProbingTable K V hash mode)
  | [] => .ok ([], t)
  | c :: cs =>
    match t.call c with
    | .error e => .error e
    | .ok (a, t') =>
      match t'.calls cs with
      | .error e => .error e
      | .ok (as, t'') => .ok (a :: as, t'')

/-- The reference: a finite map that can hold as many bindings as there are
slots. -/
structure BoundedMap (K V : Type*) where
  slots : ℕ
  map : AList fun _ : K => V

omit [Inhabited K] in
def BoundedMap.call (r : BoundedMap K V) :
    Call K V → Answer V × BoundedMap K V
  | .insert key value =>
    if key ∉ r.map ∧ r.map.entries.length < r.slots then
      (.flag true, { r with map := r.map.insert key value })
    else (.flag false, r)
  | .find key => (.value (r.map.lookup key), r)
  | .erase key =>
    if key ∈ r.map then (.flag true, { r with map := r.map.erase key })
    else (.flag false, r)
  | .rehash alloc newCapacity =>
    if alloc then (.flag true, { r with slots := slotsFor newCapacity })
    else (.flag false, r)

omit [Inhabited K] in
def BoundedMap.calls (r : BoundedMap K V) :
    List (Call K V) → List (Answer V) × BoundedMap K V
  | [] => ([], r)
  | c :: cs =>
    let (a, r') := r.call c
    let (as, r'') := r'.calls cs
    (a :: as, r'')

omit [DecidableEq K] [Inhabited K] in
/-- A rehash must be to a power of two, with a slot for every live key. -/
def BoundedMap.Admits (r : BoundedMap K V) : Call K V → Prop
  | .rehash _ newCapacity =>
    newCapacity.isPowerOfTwo ∧ newCapacity < 2 ^ 64 ∧
      r.map.entries.length ≤ slotsFor newCapacity
  | _ => True

omit [Inhabited K] in
def BoundedMap.AdmitsAll (r : BoundedMap K V) : List (Call K V) → Prop
  | [] => True
  | c :: cs => r.Admits c ∧ (r.call c).2.AdmitsAll cs

instance (r : BoundedMap K V) : (c : Call K V) → Decidable (r.Admits c)
  | .rehash _ _ => inferInstanceAs (Decidable (_ ∧ _ ∧ _))
  | .insert _ _ => inferInstanceAs (Decidable True)
  | .find _ => inferInstanceAs (Decidable True)
  | .erase _ => inferInstanceAs (Decidable True)

def BoundedMap.decidableAdmitsAll :
    (r : BoundedMap K V) → (cs : List (Call K V)) → Decidable (r.AdmitsAll cs)
  | _, [] => inferInstanceAs (Decidable True)
  | r, c :: cs =>
    have := BoundedMap.decidableAdmitsAll (r.call c).2 cs
    inferInstanceAs (Decidable (_ ∧ _))

instance (r : BoundedMap K V) (cs : List (Call K V)) :
    Decidable (r.AdmitsAll cs) :=
  BoundedMap.decidableAdmitsAll r cs

/-- The table `t` stands for the reference state `r`. -/
def Simulates (t : LinearProbingTable K V hash mode) (r : BoundedMap K V) :
    Prop :=
  t.Represents r.map ∧ t.capacity = r.slots

/-- One call answers as the reference does. -/
theorem call_simulates {r : BoundedMap K V} (h : t.Simulates r)
    (c : Call K V) (hc : r.Admits c) :
    ∃ t', t.call c = .ok ((r.call c).1, t') ∧ t'.Simulates (r.call c).2 := by
  obtain ⟨hrep, hcap⟩ := h
  cases c with
  | insert key value =>
      by_cases hmem : key ∈ r.map
      · rw [BoundedMap.call, if_neg (by simp [hmem])]
        exact ⟨t, by simp [call, insert_of_mem hrep hmem], hrep, hcap⟩
      · by_cases hroom : r.map.entries.length < r.slots
        · obtain ⟨t', hins, hrep', hcap'⟩ :=
            insert_of_notMem hrep hmem (by omega) value
          rw [BoundedMap.call, if_pos ⟨hmem, hroom⟩]
          exact ⟨t', by simp [call, hins], hrep', hcap'.trans hcap⟩
        · rw [BoundedMap.call, if_neg (by simp [hroom])]
          exact ⟨t, by simp [call, insert_of_full hrep (by omega)], hrep, hcap⟩
  | find key =>
      exact ⟨t, by simp [call, BoundedMap.call, find_eq_lookup hrep],
        hrep, hcap⟩
  | erase key =>
      by_cases hmem : key ∈ r.map
      · obtain ⟨t', herase, hrep', hcap'⟩ := erase_of_mem hrep hmem
        rw [BoundedMap.call, if_pos hmem]
        exact ⟨t', by simp [call, herase, Except.map], hrep',
          hcap'.trans hcap⟩
      · rw [BoundedMap.call, if_neg hmem]
        exact ⟨t, by simp [call, erase_of_notMem hrep hmem, Except.map],
          hrep, hcap⟩
  | rehash alloc newCapacity =>
      obtain ⟨hpow, hlt, hroom⟩ := hc
      cases alloc with
      | true =>
          obtain ⟨t', hrehash, hrep', hcap'⟩ := rehash_spec hrep hpow hlt hroom
          exact ⟨t', by simp [call, hrehash, Except.map, BoundedMap.call],
            hrep', hcap'⟩
      | false =>
          exact ⟨t, by simp [call, rehash_of_alloc_fails, Except.map,
            BoundedMap.call], hrep, hcap⟩

theorem calls_simulates {r : BoundedMap K V} (h : t.Simulates r)
    (cs : List (Call K V)) (hcs : r.AdmitsAll cs) :
    ∃ t', t.calls cs = .ok ((r.calls cs).1, t') ∧
      t'.Simulates (r.calls cs).2 := by
  induction cs generalizing t r with
  | nil => exact ⟨t, rfl, h⟩
  | cons c cs ih =>
      obtain ⟨t', hcall, hsim⟩ := call_simulates h c hcs.1
      obtain ⟨t'', hrest, hsim'⟩ := ih hsim hcs.2
      exact ⟨t'', by simp [calls, hcall, hrest, BoundedMap.calls], hsim'⟩

/-- From construction on, every admissible sequence of calls returns and is
answered as the bounded reference map answers it, in both erase modes. -/
theorem make_calls_eq_boundedMap (hash : K → UInt64) (mode : EraseMode)
    {c : ℕ} (hc : c.isPowerOfTwo) (hlt : c < 2 ^ 64) (cs : List (Call K V))
    (hcs : BoundedMap.AdmitsAll ⟨slotsFor c, ∅⟩ cs) :
    ∃ t t' : LinearProbingTable K V hash mode, make true c = .ok t ∧
      t.calls cs = .ok ((BoundedMap.calls ⟨slotsFor c, ∅⟩ cs).1, t') ∧
      t'.Simulates (BoundedMap.calls ⟨slotsFor c, ∅⟩ cs).2 := by
  have hsim : (fresh c : LinearProbingTable K V hash mode).Simulates
      ⟨slotsFor c, ∅⟩ := ⟨fresh_represents hc hlt, rfl⟩
  obtain ⟨t', hcalls, hsim'⟩ := calls_simulates hsim cs hcs
  exact ⟨fresh c, t', make_eq_fresh hc, hcalls, hsim'⟩

/-- Eight keys with one home slot fill a table of eight slots, so a ninth is
refused; one is erased from the full table, another takes its place, and a
rehash keeps them. -/
def fullTableCalls : List (Call UInt64 ℕ) :=
  [.insert 0 100, .insert 8 108, .insert 16 116, .insert 24 124,
    .insert 32 132, .insert 40 140, .insert 48 148, .insert 56 156,
    .insert 64 164, .erase 16, .find 16, .find 56, .insert 64 164,
    .rehash true 8, .find 64, .erase 16]

theorem make_calls_eq_boundedMap_fullTable :
    BoundedMap.AdmitsAll ⟨slotsFor 4, ∅⟩ fullTableCalls ∧
    ∃ t t' : LinearProbingTable UInt64 ℕ (fun key => key <<< 61) .backwardShift,
      make true 4 = .ok t ∧
      t.calls fullTableCalls =
        .ok ((BoundedMap.calls ⟨slotsFor 4, ∅⟩ fullTableCalls).1, t') ∧
      t'.Simulates (BoundedMap.calls ⟨slotsFor 4, ∅⟩ fullTableCalls).2 :=
  ⟨by decide, make_calls_eq_boundedMap _ _ (by decide) (by decide) _
    (by decide)⟩

end Runs

end Fastbook.LinearProbingTable

import Fastbook.Common.SwissTableStep
import Fastbook.Support.FiniteMap

/-!
# The Swiss table is a finite map

`Represents t m` says that the well-formed table `t` holds exactly the bindings
of the finite map `m`.  Each public function is described once on the map, and
runs of calls are then answered as the map answers them, whatever the group and
the hash.  A table that has to rehash may be refused the arrays for it: the
`insert` that asked for them then reports `false` and changes nothing.  Which
calls those are is the one thing that depends on the group: a group with wide
windows may mark an erased slot `EMPTY` where one with narrow windows marks it
`DELETED`, and so need no rehash where the other does.
-/

namespace Fastbook.SwissTable

open Support Swiss

variable {K V : Type*} {hash : K → UInt64} {G : Group}

/-- The table `t` holds exactly the bindings of `m`. -/
structure Represents (t : SwissTable K V hash G) (m : AList fun _ : K => V) :
    Prop where
  wellFormed : t.WellFormed
  perm : t.entries.Perm m.entries

variable {t : SwissTable K V hash G} {m : AList fun _ : K => V} {key : K}

theorem Represents.congr {m' : AList fun _ : K => V} (h : t.Represents m)
    (hm : m.entries.Perm m'.entries) : t.Represents m' :=
  ⟨h.wellFormed, h.perm.trans hm⟩

/-- `size()` is the number of bindings. -/
theorem Represents.size_eq (h : t.Represents m) :
    t.size = m.entries.length := by
  rw [h.wellFormed.size_eq, h.perm.length_eq]

theorem length_entries_eq_fullSlots (t : SwissTable K V hash G) :
    t.entries.length = t.fullSlots := by
  apply length_collect_eq_count
  intro s
  rw [ne_eq, liveAt_eq_none_iff, Bool.not_eq_false]

/-- `growth_left_` leaves an eighth of the slots unused. -/
theorem WellFormed.size_le (h : t.WellFormed) :
    t.size + t.growthLeft ≤ growthFor t.capacity := by
  have hgrowth := h.growth
  have hfull := length_entries_eq_fullSlots t
  rw [h.size_eq]
  omega

variable [DecidableEq K]

/-! ## Construction -/

section Fresh

variable [Inhabited K] [Inhabited V]

omit [DecidableEq K] in
theorem make_of_refused {alloc : Allocator} {c : ℕ}
    (h : alloc.grants c = false) :
    (make alloc c :
      Except LinearProbingTable.CtorError (SwissTable K V hash G)) =
        .error .badAlloc :=
  if_pos h

omit [DecidableEq K] in
theorem make_of_granted {alloc : Allocator} {c : ℕ}
    (h : alloc.grants c = true) (hc : c.isPowerOfTwo) (hwidth : G.width ≤ c) :
    (make alloc c :
      Except LinearProbingTable.CtorError (SwissTable K V hash G)) =
        .ok (fresh c) := by
  rw [make, if_neg (by rw [h]; decide), if_neg]
  rintro (hnot | hlt)
  · exact hnot hc
  · omega

omit [DecidableEq K] in
/-- A new table is well formed and holds nothing. -/
theorem fresh_represents {k : ℕ} (hk : k ≤ 57) (hwidth : G.width ≤ 2 ^ k) :
    (fresh (2 ^ k) : SwissTable K V hash G).Represents ∅ := by
  have hlive : ∀ s, (fresh (2 ^ k) : SwissTable K V hash G).liveAt s = none :=
    fun _ => liveAt_eq_none_iff.mpr Control.isFull_empty
  have hentries : (fresh (2 ^ k) : SwissTable K V hash G).entries = [] :=
    collect_eq_nil fun s _ => hlive s
  have hfull : (fresh (2 ^ k) : SwissTable K V hash G).fullSlots = 0 := by
    rw [← length_entries_eq_fullSlots, hentries]
    rfl
  have hdeleted : (fresh (2 ^ k) : SwissTable K V hash G).deletedSlots = 0 := by
    apply Nat.count_iff_forall_not.mpr
    intro s _ heq
    exact Control.deleted_ne_empty heq.symm
  refine ⟨⟨?_, fun _ _ => rfl, fun _ _ => Or.inl rfl, ?_, ?_, ?_, ?_⟩, ?_⟩
  · refine ⟨k, hk, hwidth, rfl, ?_⟩
    rw [fresh, countrZero_two_pow (by omega)]
  · rw [hentries]
    exact List.nodupKeys_nil
  · intro s _ e he
    rw [hlive] at he
    cases he
  · rw [hentries]
    rfl
  · rw [hfull, hdeleted]
    rfl
  · rw [hentries]
    exact List.Perm.refl _

end Fresh

section Lawful

variable (hG : G.Lawful)

include hG

/-! ## `find` -/

theorem findIndex_of_lookup_some (h : t.Represents m) {v : V}
    (hlookup : m.lookup key = some v) :
    ∃ s < t.capacity, t.liveAt s = some ⟨key, v⟩ ∧
      t.findIndex key (t.hashKey key) = .ok (some s) := by
  rcases findIndex_spec hG h.wellFormed key with
    ⟨s, hs, w, hlive, hfind⟩ | ⟨habsent, -⟩
  · have hw := (lookup_eq_some_iff_slot h.perm).mpr ⟨s, hs, hlive⟩
    rw [hlookup] at hw
    cases hw
    exact ⟨s, hs, hlive, hfind⟩
  · have hnone :=
      AList.lookup_eq_none.mpr ((notMem_iff_slot h.perm).mpr habsent)
    rw [hlookup] at hnone
    cases hnone

theorem findIndex_of_notMem (h : t.Represents m) (hmem : key ∉ m) :
    t.findIndex key (t.hashKey key) = .ok none := by
  rcases findIndex_spec hG h.wellFormed key with
    ⟨s, hs, v, hlive, -⟩ | ⟨-, hfind⟩
  · exact absurd hlive ((notMem_iff_slot h.perm).mp hmem s hs v)
  · exact hfind

/-- `find` returns the value bound to the key. -/
theorem find_eq_lookup (h : t.Represents m) (key : K) :
    t.find key = .ok (m.lookup key) := by
  cases hlookup : m.lookup key with
  | none =>
      have hfind :=
        findIndex_of_notMem hG h (AList.lookup_eq_none.mp hlookup)
      simp only [find, hfind]
  | some v =>
      obtain ⟨s, -, hlive, hfind⟩ := findIndex_of_lookup_some hG h hlookup
      simp only [find, hfind, data_of_live hlive]

/-! ## Placing a new key -/

theorem findOrPrepareInsert_of_mem (h : t.Represents m) (hmem : key ∈ m) :
    ∃ s, t.findOrPrepareInsert key (t.hashKey key) = .ok (true, s) := by
  obtain ⟨v, hlookup⟩ := Option.isSome_iff_exists.mp
    (AList.lookup_isSome.mpr hmem)
  obtain ⟨s, -, -, hfind⟩ := findIndex_of_lookup_some hG h hlookup
  exact ⟨s, by simp only [findOrPrepareInsert, hfind]⟩

theorem findOrPrepareInsert_of_notMem (h : t.Represents m) (hmem : key ∉ m) :
    ∃ s, t.findOrPrepareInsert key (t.hashKey key) = .ok (false, s) ∧
      t.Insertable key s := by
  obtain ⟨s, hprepare, hins⟩ := prepareInsert_spec hG h.wellFormed key
  exact ⟨s, by simp only [findOrPrepareInsert, findIndex_of_notMem hG h hmem,
    hprepare], hins⟩

omit hG in
/-- Placing a new key binds it and uses up at most one unit of growth. -/
theorem place_represents (h : t.Represents m) (hmem : key ∉ m) {s : ℕ}
    (hins : t.Insertable key s)
    (hroom : t.ctrl s = Control.empty → 0 < t.growthLeft) (v : V) :
    (t.place s (t.hashKey key) (key, v)).Represents (m.insert key v) ∧
      t.growthLeft ≤
        (t.place s (t.hashKey key) (key, v)).growthLeft + 1 := by
  have habsent := (notMem_iff_slot h.perm).mp hmem
  refine ⟨⟨h.wellFormed.place v hins hroom habsent, ?_⟩, ?_⟩
  · rw [AList.entries_insert_of_notMem hmem]
    exact (entries_place v hins).trans (h.perm.cons _)
  · change t.growthLeft ≤
      (if t.ctrl s = Control.empty then subU64 t.growthLeft 1
        else t.growthLeft) + 1
    split
    · next hc =>
      rw [subU64_of_le (hroom hc) h.wellFormed.growthLeft_lt]
      omega
    · exact Nat.le_succ _

/-! ## `rehash` -/

omit hG [DecidableEq K] in
theorem rehashInto_cons_of_none {new : SwissTable K V hash G} {i : ℕ}
    {slots : List ℕ} (hlive : t.liveAt i = none) :
    t.rehashInto new (i :: slots) = t.rehashInto new slots := by
  rw [rehashInto, liveAt_eq_none_iff.mp hlive]
  rfl

omit hG [DecidableEq K] in
theorem rehashInto_cons_of_some {new : SwissTable K V hash G} {i s : ℕ}
    {slots : List ℕ} {e : (_ : K) × V} (hlive : t.liveAt i = some e)
    (hprepare : new.prepareInsert (new.hashKey e.1) = .ok s) :
    t.rehashInto new (i :: slots) =
      t.rehashInto (new.place s (new.hashKey e.1) (e.1, e.2)) slots := by
  rw [rehashInto, full_of_live hlive, data_of_live hlive]
  simp only [if_true, hprepare]

/-- The copying loop binds exactly the entries of the slots it visits, and
leaves room for one more when there was room for one more than these. -/
theorem rehashInto_spec (t : SwissTable K V hash G) :
    ∀ (slots : List ℕ) (new : SwissTable K V hash G)
      (m : AList fun _ : K => V),
      new.Represents m →
      (slots.filterMap t.liveAt).NodupKeys →
      (∀ e ∈ slots.filterMap t.liveAt, e.1 ∉ m) →
      (slots.filterMap t.liveAt).length < new.growthLeft →
      ∃ (new' : SwissTable K V hash G) (m' : AList fun _ : K => V),
        t.rehashInto new slots = .ok new' ∧ new'.Represents m' ∧
        m'.entries.Perm (slots.filterMap t.liveAt ++ m.entries) ∧
        0 < new'.growthLeft := by
  intro slots
  induction slots with
  | nil =>
      intro new m h _ _ hroom
      exact ⟨new, m, rfl, h, List.Perm.refl _, hroom⟩
  | cons i slots ih =>
      intro new m h hnodup hfresh hroom
      cases hlive : t.liveAt i with
      | none =>
          rw [List.filterMap_cons_none hlive] at hnodup hfresh hroom ⊢
          rw [rehashInto_cons_of_none hlive]
          exact ih new m h hnodup hfresh hroom
      | some e =>
          rw [List.filterMap_cons_some hlive] at hnodup hfresh hroom ⊢
          rw [List.nodupKeys_cons] at hnodup
          rw [List.length_cons] at hroom
          have hnot : e.1 ∉ m := hfresh e (by simp)
          obtain ⟨s, hprepare, hins⟩ := prepareInsert_spec hG h.wellFormed e.1
          obtain ⟨hrep, hgrowth⟩ :=
            place_represents h hnot hins (fun _ => by omega) e.2
          rw [rehashInto_cons_of_some hlive hprepare]
          obtain ⟨new', m', hrun, hrep', hperm, hleft⟩ :=
            ih _ (m.insert e.1 e.2) hrep hnodup.2 (by
              intro e' he' hmem
              rw [AList.mem_insert] at hmem
              rcases hmem with heq | hmem
              · apply hnodup.1
                rw [← heq]
                exact List.mem_keys_of_mem he'
              · exact hfresh e' (by simp [he']) hmem) (by omega)
          refine ⟨new', m', hrun, hrep', hperm.trans ?_, hleft⟩
          rw [AList.entries_insert_of_notMem hnot]
          exact List.perm_middle

section Rehash

variable [Inhabited K] [Inhabited V]

omit hG [DecidableEq K] in
theorem rehash_of_refused (t : SwissTable K V hash G) {alloc : Allocator}
    {c : ℕ} (h : alloc.grants c = false) :
    t.rehash alloc c = .ok (false, t) := by
  simp only [rehash, make_of_refused h]

/-- A rehash that is granted its arrays keeps every binding. -/
theorem rehash_of_granted (h : t.Represents m) {alloc : Allocator} {k : ℕ}
    (hgrant : alloc.grants (2 ^ k) = true) (hwidth : G.width ≤ 2 ^ k)
    (hroom : t.size < growthFor (2 ^ k)) :
    ∃ t' : SwissTable K V hash G, t.rehash alloc (2 ^ k) = .ok (true, t') ∧
      t'.Represents m ∧ 0 < t'.growthLeft := by
  have hk : k ≤ 57 := by
    by_contra hlt
    have hpow : 2 ^ 57 < 2 ^ k := Nat.pow_lt_pow_right (by decide) (by omega)
    rw [alloc.bounded _ hpow] at hgrant
    cases hgrant
  rw [h.wellFormed.size_eq] at hroom
  obtain ⟨t', m', hrun, hrep, hperm, hleft⟩ := rehashInto_spec hG t
    (List.range t.capacity) (fresh (2 ^ k)) ∅ (fresh_represents hk hwidth)
    h.wellFormed.nodupKeys (by simp) hroom
  have hmap : m'.entries.Perm m.entries :=
    (hperm.trans (List.Perm.of_eq (List.append_nil _))).trans h.perm
  have hmake : (make alloc (2 ^ k) :
      Except LinearProbingTable.CtorError (SwissTable K V hash G)) =
        .ok (fresh (2 ^ k)) := make_of_granted hgrant ⟨k, rfl⟩ hwidth
  refine ⟨t', ?_, hrep.congr hmap, hleft⟩
  simp only [rehash, hmake, hrun]

omit [DecidableEq K] [Inhabited K] [Inhabited V] in
/-- The capacity `insert` asks for has room for one more binding.  It can be
granted unless the table already has more than `2 ^ 56` bindings. -/
theorem rehashCapacity_spec (hwf : t.WellFormed) :
    ∃ k, t.rehashCapacity = 2 ^ k ∧ G.width ≤ 2 ^ k ∧
      t.size < growthFor (2 ^ k) ∧ (2 ^ k ≤ 2 ^ 57 ∨ 2 ^ 56 < t.size) := by
  have hsize := hwf.size_le
  have hge := width_ge hG
  obtain ⟨k, hk, hwidth, hcap, -⟩ := hwf.shaped
  have hk3 : 3 ≤ k := by
    have hpow : 2 ^ 3 ≤ 2 ^ k := hge.trans hwidth
    exact (Nat.pow_le_pow_iff_right (by decide)).mp hpow
  have heighths : 2 ^ k = 8 * 2 ^ (k - 3) := by
    rw [show (8 : ℕ) = 2 ^ 3 from rfl, ← pow_add, Nat.add_sub_cancel' hk3]
  have hpos : 0 < 2 ^ (k - 3) := Nat.two_pow_pos _
  have hle : 2 ^ k ≤ 2 ^ 57 := Nat.pow_le_pow_right (by decide) hk
  rw [hcap, growthFor] at hsize
  rw [rehashCapacity, hcap, Nat.mod_eq_of_lt (by omega),
    Nat.mod_eq_of_lt (by omega)]
  split
  · next hdeleted =>
    refine ⟨k, rfl, hwidth, ?_, Or.inl hle⟩
    rw [growthFor]
    omega
  · next hfull =>
    have hdouble : 2 ^ k * 2 % 2 ^ 64 = 2 ^ (k + 1) := by
      rw [Nat.mod_eq_of_lt (by omega), pow_succ]
    rw [hdouble]
    have hsucc : 2 ^ (k + 1) = 2 ^ k * 2 := pow_succ 2 k
    refine ⟨k + 1, rfl, by omega, ?_, ?_⟩
    · rw [growthFor]
      omega
    · rcases Nat.lt_or_eq_of_le hk with hlt | heq
      · exact Or.inl (Nat.pow_le_pow_right (by decide) hlt)
      · right
        rw [heq] at hfull
        omega

/-! ## `insert` -/

omit hG [Inhabited K] [Inhabited V] in
/-- Whether `insert` of a new key fails: its slot would use up growth that is
not left, and the arrays to rehash to are not granted. -/
def refuses (t : SwissTable K V hash G) (alloc : Allocator) (key : K) : Bool :=
  match t.findOrPrepareInsert key (t.hashKey key) with
  | .ok (false, insertPos) =>
    t.growthLeft = 0 ∧ t.ctrl insertPos = Control.empty ∧
      alloc.grants t.rehashCapacity = false
  | _ => false

theorem insert_of_mem (h : t.Represents m) (hmem : key ∈ m)
    (alloc : Allocator) (v : V) : t.insert alloc key v = .ok (false, t) := by
  obtain ⟨s, hfind⟩ := findOrPrepareInsert_of_mem hG h hmem
  simp only [insert, hfind]

theorem insert_of_refused (h : t.Represents m) (hmem : key ∉ m)
    {alloc : Allocator} (hrefuse : t.refuses alloc key = true) (v : V) :
    t.insert alloc key v = .ok (false, t) := by
  obtain ⟨s, hfind, -⟩ := findOrPrepareInsert_of_notMem hG h hmem
  simp only [refuses, hfind, decide_eq_true_eq] at hrefuse
  obtain ⟨hzero, hempty, hgrant⟩ := hrefuse
  simp only [insert, hfind, if_pos (And.intro hzero hempty),
    rehash_of_refused t hgrant]

/-- A new key is bound, after a rehash if there is no growth left for it. -/
theorem insert_of_notMem (h : t.Represents m) (hmem : key ∉ m)
    {alloc : Allocator} (hrefuse : t.refuses alloc key = false) (v : V) :
    ∃ t', t.insert alloc key v = .ok (true, t') ∧
      t'.Represents (m.insert key v) := by
  obtain ⟨s, hfind, hins⟩ := findOrPrepareInsert_of_notMem hG h hmem
  simp only [refuses, hfind, decide_eq_false_iff_not] at hrefuse
  by_cases hgrow : t.growthLeft = 0 ∧ t.ctrl s = Control.empty
  · obtain ⟨k, hcapacity, hwidth, hroom, -⟩ :=
      rehashCapacity_spec hG h.wellFormed
    have hgrant : alloc.grants (2 ^ k) = true := by
      rw [← hcapacity]
      by_contra hnot
      exact hrefuse ⟨hgrow.1, hgrow.2, by simpa using hnot⟩
    obtain ⟨t', hrehash, hrep, hleft⟩ :=
      rehash_of_granted hG h hgrant hwidth hroom
    obtain ⟨s', hprepare, hins'⟩ := prepareInsert_spec hG hrep.wellFormed key
    have hplace := place_represents hrep hmem hins' (fun _ => hleft) v
    refine ⟨_, ?_, hplace.1⟩
    simp only [insert, hfind, if_pos hgrow, hcapacity, hrehash, hprepare]
  · have hplace := place_represents h hmem hins (by
      intro hempty
      apply Nat.pos_of_ne_zero
      intro hzero
      exact hgrow ⟨hzero, hempty⟩) v
    refine ⟨_, ?_, hplace.1⟩
    simp only [insert, hfind, if_neg hgrow]

end Rehash

/-! ## `erase` -/

theorem erase_of_notMem (h : t.Represents m) (hmem : key ∉ m) :
    t.erase key = .ok (false, t) := by
  simp only [erase, findIndex_of_notMem hG h hmem]

/-- `erase` of a bound key removes that binding only. -/
theorem erase_of_mem (h : t.Represents m) (hmem : key ∈ m) :
    ∃ t', t.erase key = .ok (true, t') ∧ t'.Represents (m.erase key) := by
  obtain ⟨v, hlookup⟩ := Option.isSome_iff_exists.mp
    (AList.lookup_isSome.mpr hmem)
  obtain ⟨s, hs, hlive, hfind⟩ := findIndex_of_lookup_some hG h hlookup
  have hrep : ∀ b, b = Control.empty ∨ b = Control.deleted →
      (b = Control.empty → ∀ q, t.WindowUsed q →
        ∀ i < G.width, (q + i) % t.capacity ≠ s) →
      (t.cleared s b).Represents (m.erase key) := by
    intro b hb hwin
    have hnotFull : Control.isFull b = false := by
      rcases hb with rfl | rfl
      · rfl
      · rfl
    have hperm := entries_cleared hnotFull hs hlive
    exact ⟨h.wellFormed.cleared hs hlive hb hwin,
      perm_entries_erase (hperm.symm.trans h.perm)⟩
  have herase : t.erase key =
      if t.neverInFullWindow s then .ok (true, t.cleared s Control.empty)
      else .ok (true, t.cleared s Control.deleted) := by
    rw [erase, hfind]
    rfl
  rw [herase]
  by_cases hwin : t.neverInFullWindow s = true
  · rw [if_pos hwin]
    exact ⟨_, rfl, hrep _ (Or.inl rfl) fun _ =>
      neverInFullWindow_spec hG h.wellFormed hs hwin⟩
  · rw [if_neg hwin]
    exact ⟨_, rfl, hrep _ (Or.inr rfl) fun hempty =>
      absurd hempty Control.deleted_ne_empty⟩

end Lawful

/-! ## Runs -/

/-- The calls a user of the table can make.  An `insert` carries what the
allocator would grant it. -/
inductive Call (K V : Type*) where
  | insert (alloc : Allocator) (key : K) (value : V)
  | find (key : K)
  | erase (key : K)
  | size

inductive Answer (V : Type*) where
  | flag (b : Bool)
  | value (v : Option V)
  | count (n : ℕ)
  deriving DecidableEq, Repr

/-- Every capacity up to `2 ^ 57` is granted to the call. -/
def Call.Granted : Call K V → Prop
  | .insert alloc _ _ => ∀ n ≤ 2 ^ 57, alloc.grants n = true
  | _ => True

section Runs

variable [Inhabited K] [Inhabited V]

def call (t : SwissTable K V hash G) :
    Call K V → Except Fault (Answer V × SwissTable K V hash G)
  | .insert alloc key value =>
    (t.insert alloc key value).map fun (b, t') => (.flag b, t')
  | .find key =>
    match t.find key with
    | .error e => .error e
    | .ok v => .ok (.value v, t)
  | .erase key => (t.erase key).map fun (b, t') => (.flag b, t')
  | .size => .ok (.count t.size, t)

def calls (t : SwissTable K V hash G) :
    List (Call K V) → Except Fault (List (Answer V) × SwissTable K V hash G)
  | [] => .ok ([], t)
  | c :: cs =>
    match t.call c with
    | .error e => .error e
    | .ok (a, t') =>
      match t'.calls cs with
      | .error e => .error e
      | .ok (as, t'') => .ok (a :: as, t'')

omit [Inhabited K] [Inhabited V] in
/-- Whether a call is an `insert` that has to rehash and is refused the arrays
for it. -/
def refusesCall (t : SwissTable K V hash G) : Call K V → Bool
  | .insert alloc key _ => t.refuses alloc key
  | _ => false

/-- Which calls of a run are refused. -/
def refusals (t : SwissTable K V hash G) : List (Call K V) → List Bool
  | [] => []
  | c :: cs =>
    t.refusesCall c ::
      match t.call c with
      | .error _ => []
      | .ok (_, t') => t'.refusals cs

omit [Inhabited K] [Inhabited V] in
/-- The reference: a finite map.  A refused `insert` does not bind its key. -/
def mapCall (m : AList fun _ : K => V) :
    Call K V → Bool → Answer V × AList fun _ : K => V
  | .insert _ key value, refused =>
    if key ∈ m ∨ refused then (.flag false, m)
    else (.flag true, m.insert key value)
  | .find key, _ => (.value (m.lookup key), m)
  | .erase key, _ =>
    if key ∈ m then (.flag true, m.erase key) else (.flag false, m)
  | .size, _ => (.count m.entries.length, m)

omit [Inhabited K] [Inhabited V] in
def mapCalls (m : AList fun _ : K => V) :
    List (Call K V × Bool) → List (Answer V) × AList fun _ : K => V
  | [] => ([], m)
  | (c, refused) :: cs =>
    let (a, m') := mapCall m c refused
    let (as, m'') := mapCalls m' cs
    (a :: as, m'')

/-- One call returns and is answered as the map answers it. -/
theorem call_represents (hG : G.Lawful) (h : t.Represents m) (c : Call K V) :
    ∃ t', t.call c = .ok ((mapCall m c (t.refusesCall c)).1, t') ∧
      t'.Represents (mapCall m c (t.refusesCall c)).2 := by
  cases c with
  | insert alloc key value =>
      by_cases hmem : key ∈ m
      · rw [mapCall, if_pos (Or.inl hmem)]
        exact ⟨t, by simp [call, insert_of_mem hG h hmem, Except.map], h⟩
      · by_cases hrefuse : t.refuses alloc key = true
        · rw [mapCall, refusesCall, if_pos (Or.inr hrefuse)]
          exact ⟨t, by simp [call, insert_of_refused hG h hmem hrefuse,
            Except.map], h⟩
        · have hgranted := Bool.eq_false_of_not_eq_true hrefuse
          obtain ⟨t', hins, hrep⟩ :=
            insert_of_notMem hG h hmem hgranted value
          rw [mapCall, refusesCall, if_neg (not_or.mpr ⟨hmem, hrefuse⟩)]
          exact ⟨t', by simp [call, hins, Except.map], hrep⟩
  | find key =>
      exact ⟨t, by simp [call, find_eq_lookup hG h, mapCall], h⟩
  | erase key =>
      by_cases hmem : key ∈ m
      · obtain ⟨t', herase, hrep⟩ := erase_of_mem hG h hmem
        rw [mapCall, if_pos hmem]
        exact ⟨t', by simp [call, herase, Except.map], hrep⟩
      · rw [mapCall, if_neg hmem]
        exact ⟨t, by simp [call, erase_of_notMem hG h hmem, Except.map], h⟩
  | size =>
      exact ⟨t, by simp [call, mapCall, h.size_eq], h⟩

/-- Every run of calls returns and is answered as the map answers it. -/
theorem calls_represents (hG : G.Lawful) (h : t.Represents m)
    (cs : List (Call K V)) :
    ∃ t', t.calls cs = .ok ((mapCalls m (cs.zip (t.refusals cs))).1, t') ∧
      t'.Represents (mapCalls m (cs.zip (t.refusals cs))).2 := by
  induction cs generalizing t m with
  | nil => exact ⟨t, rfl, h⟩
  | cons c cs ih =>
      obtain ⟨t', hcall, hrep⟩ := call_represents hG h c
      obtain ⟨t'', hrest, hrep'⟩ := ih hrep
      have hrefusals : t.refusals (c :: cs) =
          t.refusesCall c :: t'.refusals cs := by
        simp only [refusals, hcall]
      rw [hrefusals, List.zip_cons_cons]
      exact ⟨t'', by simp only [calls, hcall, hrest, mapCalls], hrep'⟩

/-! ## Runs that are never refused -/

omit [Inhabited K] [Inhabited V] in
theorem refusesCall_of_granted (hG : G.Lawful) (h : t.Represents m)
    {c : Call K V} (hgrant : c.Granted) (hsize : m.entries.length ≤ 2 ^ 56) :
    t.refusesCall c = false := by
  cases c with
  | insert alloc key value =>
      obtain ⟨k, hcapacity, -, -, hle⟩ := rehashCapacity_spec hG h.wellFormed
      have hgranted : alloc.grants t.rehashCapacity = true := by
        rw [hcapacity]
        apply hgrant
        rw [h.size_eq] at hle
        omega
      rw [refusesCall, refuses]
      split
      · simp [hgranted]
      · rfl
  | find key => rfl
  | erase key => rfl
  | size => rfl

omit [Inhabited K] [Inhabited V] in
theorem length_mapCall_le (m : AList fun _ : K => V) (c : Call K V)
    (refused : Bool) :
    (mapCall m c refused).2.entries.length ≤ m.entries.length + 1 := by
  cases c with
  | insert alloc key value =>
      rw [mapCall]
      split
      · exact Nat.le_succ _
      · next hnew =>
        rw [AList.entries_insert_of_notMem (not_or.mp hnew).1]
        exact Nat.le_refl _
  | find key => exact Nat.le_succ _
  | erase key =>
      rw [mapCall]
      split
      · have hsub := List.kerase_sublist key m.entries
        exact hsub.length_le.trans (Nat.le_succ _)
      · exact Nat.le_succ _
  | size => exact Nat.le_succ _

/-- A run of at most `2 ^ 56` calls is not refused anything that an allocator
can grant. -/
theorem refusals_of_granted (hG : G.Lawful) (h : t.Represents m)
    (cs : List (Call K V)) (hgrant : ∀ c ∈ cs, c.Granted)
    (hlen : m.entries.length + cs.length ≤ 2 ^ 56) :
    t.refusals cs = cs.map fun _ => false := by
  induction cs generalizing t m with
  | nil => rfl
  | cons c cs ih =>
      obtain ⟨t', hcall, hrep⟩ := call_represents hG h c
      have hgrow := length_mapCall_le m c (t.refusesCall c)
      rw [List.length_cons] at hlen
      have hrest := ih hrep
        (fun c' hc' => hgrant c' (List.mem_cons_of_mem c hc')) (by omega)
      simp only [refusals, hcall, hrest, List.map_cons,
        refusesCall_of_granted hG h (hgrant c List.mem_cons_self) (by omega)]

omit [DecidableEq K] [Inhabited K] [Inhabited V] in
/-- The refusals of a run in which nothing is refused. -/
theorem eq_map_false_of_forall {l : List Bool} {cs : List (Call K V)}
    (hlen : l.length = cs.length) (h : ∀ r ∈ l, r = false) :
    l = cs.map fun _ => false := by
  rw [List.map_const', ← hlen]
  exact List.eq_replicate_of_mem h

theorem length_refusals (hG : G.Lawful) (h : t.Represents m)
    (cs : List (Call K V)) : (t.refusals cs).length = cs.length := by
  induction cs generalizing t m with
  | nil => rfl
  | cons c cs ih =>
      obtain ⟨t', hcall, hrep⟩ := call_represents hG h c
      simp only [refusals, hcall, List.length_cons, ih hrep]

/-- From construction on, every sequence of calls returns and is answered as a
finite map answers it, for every group and every hash.  Only an `insert` that
has to rehash and is refused the arrays differs, and it changes nothing: where
no call is refused, and so wherever the arrays are granted, the answers are
those of the map alone. -/
theorem make_calls_eq_map (hG : G ∈ groups) (hash : K → UInt64) {k : ℕ}
    (hk : k ≤ 57) (hwidth : G.width ≤ 2 ^ k) {alloc : Allocator}
    (halloc : alloc.grants (2 ^ k) = true) (cs : List (Call K V)) :
    ∃ t t' : SwissTable K V hash G, make alloc (2 ^ k) = .ok t ∧
      t.calls cs = .ok ((mapCalls ∅ (cs.zip (t.refusals cs))).1, t') ∧
      t'.Represents (mapCalls ∅ (cs.zip (t.refusals cs))).2 ∧
      t'.size = (mapCalls ∅ (cs.zip (t.refusals cs))).2.entries.length ∧
      t'.Mirrored ∧
      t'.growthLeft + (t'.fullSlots + t'.deletedSlots) =
        t'.capacity - t'.capacity / 8 ∧
      t'.capacity / 8 ≤ t'.emptySlots ∧
      ((∀ r ∈ t.refusals cs, r = false) →
        t.calls cs =
          .ok ((mapCalls ∅ (cs.map fun c => (c, false))).1, t')) ∧
      (cs.length ≤ 2 ^ 56 → (∀ c ∈ cs, c.Granted) →
        t.calls cs =
          .ok ((mapCalls ∅ (cs.map fun c => (c, false))).1, t')) := by
  have hlawful := lawful_of_mem_groups hG
  have hfresh : (fresh (2 ^ k) : SwissTable K V hash G).Represents ∅ :=
    fresh_represents hk hwidth
  obtain ⟨t', hcalls, hrep⟩ := calls_represents hlawful hfresh cs
  have hanswers (hnone : (fresh (2 ^ k) : SwissTable K V hash G).refusals cs =
      cs.map fun _ => false) :
      (fresh (2 ^ k) : SwissTable K V hash G).calls cs =
        .ok ((mapCalls ∅ (cs.map fun c => (c, false))).1, t') := by
    rw [hcalls, hnone, List.map_prod_left_eq_zip]
  refine ⟨fresh (2 ^ k), t', make_of_granted halloc ⟨k, rfl⟩ hwidth, hcalls,
    hrep, hrep.size_eq, hrep.wellFormed.mirrored, hrep.wellFormed.growth,
    hrep.wellFormed.emptySlots_ge, ?_, ?_⟩
  · intro hnone
    exact hanswers
      (eq_map_false_of_forall (length_refusals hlawful hfresh cs) hnone)
  · intro hlen hgrant
    apply hanswers
    apply refusals_of_granted hlawful hfresh cs hgrant
    rw [show (∅ : AList fun _ : K => V).entries.length = 0 from rfl]
    omega

/-- An allocator that grants whatever fits. -/
def Allocator.ample : Allocator where
  grants := fun n => n ≤ 2 ^ 57
  bounded := by
    intro n hn
    simpa using hn

/-- Eight keys with one hash fill a table of eight slots past its growth, so
that it doubles; two of them are erased and one is found again. -/
def collidingCalls : List (Call UInt64 ℕ) :=
  [.insert .ample 0 100, .insert .ample 1 101, .insert .ample 2 102,
    .insert .ample 3 103, .insert .ample 4 104, .insert .ample 5 105,
    .insert .ample 6 106, .insert .ample 7 107, .insert .ample 3 200,
    .erase 3, .erase 3, .find 3, .find 7, .size]

theorem make_calls_eq_map_colliding :
    (mapCalls ∅ (collidingCalls.map fun c => (c, false))).1 =
      [.flag true, .flag true, .flag true, .flag true, .flag true, .flag true,
        .flag true, .flag true, .flag false, .flag true, .flag false,
        .value none, .value (some 107), .count 7] ∧
    ∃ t t' : SwissTable UInt64 ℕ (fun _ => 0) swarGroup,
      make .ample (2 ^ 3) = .ok t ∧
      t.calls collidingCalls =
        .ok ((mapCalls ∅ (collidingCalls.zip (t.refusals collidingCalls))).1,
          t') ∧
      t'.Represents
        (mapCalls ∅ (collidingCalls.zip (t.refusals collidingCalls))).2 ∧
      t'.size = (mapCalls ∅
        (collidingCalls.zip (t.refusals collidingCalls))).2.entries.length ∧
      t'.Mirrored ∧
      t'.growthLeft + (t'.fullSlots + t'.deletedSlots) =
        t'.capacity - t'.capacity / 8 ∧
      t'.capacity / 8 ≤ t'.emptySlots ∧
      ((∀ r ∈ t.refusals collidingCalls, r = false) →
        t.calls collidingCalls =
          .ok ((mapCalls ∅ (collidingCalls.map fun c => (c, false))).1, t')) ∧
      (collidingCalls.length ≤ 2 ^ 56 → (∀ c ∈ collidingCalls, c.Granted) →
        t.calls collidingCalls =
          .ok ((mapCalls ∅ (collidingCalls.map fun c => (c, false))).1, t')) :=
  ⟨by decide, make_calls_eq_map (by simp [groups]) _ (by decide) (by decide)
    (by decide) _⟩

/-! ## A refused `insert` tells the groups apart -/

/-- An allocator that is out of memory. -/
def Allocator.exhausted : Allocator where
  grants := fun _ => false
  bounded := fun _ _ => rfl

/-- The hash whose top four bits are the key: in a table of sixteen slots each
of the keys below sixteen has a slot of its own. -/
def spreadHash (key : UInt64) : UInt64 :=
  key <<< 60

/-- Fourteen keys use up the growth of sixteen slots, one of them is erased, and
the next one finds the memory exhausted. -/
def exhaustedCalls : List (Call UInt64 ℕ) :=
  ((List.range 14).map fun i => .insert .ample (UInt64.ofNat i) i) ++
    [.erase 5, .insert .exhausted 14 14]

/-- The windows of sixteen bytes over the erased slot have empty slots, so that
it is free again; the window of eight bytes from it on is full. -/
theorem calls_exhausted_differ :
    (make .ample 16 : Except LinearProbingTable.CtorError
        (SwissTable UInt64 ℕ spreadHash scalarGroup)) = .ok (fresh 16) ∧
    (make .ample 16 : Except LinearProbingTable.CtorError
        (SwissTable UInt64 ℕ spreadHash sse2Group)) = .ok (fresh 16) ∧
    (make .ample 16 : Except LinearProbingTable.CtorError
        (SwissTable UInt64 ℕ spreadHash swarGroup)) = .ok (fresh 16) ∧
    ((fresh 16 : SwissTable UInt64 ℕ spreadHash scalarGroup).calls
        exhaustedCalls).toOption.map Prod.fst =
      some (List.replicate 15 (.flag true) ++ [.flag true]) ∧
    ((fresh 16 : SwissTable UInt64 ℕ spreadHash sse2Group).calls
        exhaustedCalls).toOption.map Prod.fst =
      some (List.replicate 15 (.flag true) ++ [.flag true]) ∧
    ((fresh 16 : SwissTable UInt64 ℕ spreadHash swarGroup).calls
        exhaustedCalls).toOption.map Prod.fst =
      some (List.replicate 15 (.flag true) ++ [.flag false]) := by
  have hample : Allocator.ample.grants (2 ^ 4) = true := by decide
  refine ⟨make_of_granted hample ⟨4, rfl⟩ (by decide),
    make_of_granted hample ⟨4, rfl⟩ (by decide),
    make_of_granted hample ⟨4, rfl⟩ (by decide), ?_, ?_, ?_⟩
  · decide +kernel
  · decide +kernel
  · decide +kernel

end Runs

end Fastbook.SwissTable

import Mathlib.Data.List.AList
import Mathlib.Data.List.Range
import Mathlib.Data.Nat.Count
import Mathlib.Logic.Function.Basic

/-!
# Entries held by an array of slots

A slot array is a function `f : ℕ → Option α` together with the number `n` of
its slots; slot `i` is free when `f i = none`.  `collect f n` lists what the
array holds.  A write to one slot changes this list, up to the order, by one
entry: that is all the map operations of an open-addressing table need to know
about the array underneath.
-/

namespace Fastbook.Support

variable {α : Type*} {f g : ℕ → Option α} {n : ℕ}

/-- The entries held by the first `n` slots, in slot order. -/
def collect (f : ℕ → Option α) (n : ℕ) : List α :=
  (List.range n).filterMap f

theorem mem_collect {a : α} : a ∈ collect f n ↔ ∃ i < n, f i = some a := by
  simp [collect]

theorem collect_congr (h : ∀ i < n, f i = g i) : collect f n = collect g n := by
  unfold collect
  apply List.filterMap_congr
  intro i hi
  exact h i (List.mem_range.mp hi)

theorem collect_eq_nil (h : ∀ i < n, f i = none) : collect f n = [] := by
  unfold collect
  rw [List.filterMap_eq_nil_iff]
  intro i hi
  exact h i (List.mem_range.mp hi)

/-- The entries of the array, with slot `i` taken out of the range first. -/
theorem collect_perm_split {i : ℕ} (hi : i < n) :
    (collect f n).Perm
      ((f i).toList ++ ((List.range n).erase i).filterMap f) := by
  have hperm : (List.range n).Perm (i :: (List.range n).erase i) :=
    List.perm_cons_erase (List.mem_range.mpr hi)
  have hmap := hperm.filterMap f
  unfold collect
  cases hfi : f i with
  | none => simpa [hfi] using hmap
  | some a => simpa [hfi] using hmap

theorem filterMap_erase_update {i : ℕ} (b : Option α) :
    ((List.range n).erase i).filterMap (Function.update f i b) =
      ((List.range n).erase i).filterMap f := by
  apply List.filterMap_congr
  intro j hj
  have hne : j ≠ i := by
    intro h
    subst h
    exact (List.nodup_range (n := n)).not_mem_erase hj
  simp [hne]

/-- Writing an entry to a free slot adds exactly that entry. -/
theorem collect_update_some {i : ℕ} {a : α} (hi : i < n) (hf : f i = none) :
    (collect (Function.update f i (some a)) n).Perm (a :: collect f n) := by
  have hnew := collect_perm_split (f := Function.update f i (some a)) hi
  have hold := collect_perm_split (f := f) hi
  rw [filterMap_erase_update] at hnew
  simp only [Function.update_self, Option.toList_some, List.singleton_append]
    at hnew
  simp only [hf, Option.toList_none, List.nil_append] at hold
  exact hnew.trans (hold.symm.cons a)

/-- Clearing an occupied slot removes exactly its entry. -/
theorem collect_update_none {i : ℕ} {a : α} (hi : i < n) (hf : f i = some a) :
    (collect f n).Perm (a :: collect (Function.update f i none) n) := by
  have hnew := collect_perm_split (f := Function.update f i none) hi
  have hold := collect_perm_split (f := f) hi
  rw [filterMap_erase_update] at hnew
  simp only [Function.update_self, Option.toList_none, List.nil_append] at hnew
  simp only [hf, Option.toList_some, List.singleton_append] at hold
  exact hold.trans (hnew.symm.cons a)

theorem length_collect_of_forall_some (h : ∀ i < n, f i ≠ none) :
    (collect f n).length = n := by
  unfold collect
  rw [List.length_filterMap_eq_countP, List.countP_eq_length.mpr]
  · simp
  · intro i hi
    exact Option.isSome_iff_ne_none.mpr (h i (List.mem_range.mp hi))

theorem collect_succ (f : ℕ → Option α) (n : ℕ) :
    collect f (n + 1) = collect f n ++ (f n).toList := by
  unfold collect
  rw [List.range_succ, List.filterMap_append]
  cases hf : f n with
  | none => simp [hf]
  | some a => simp [hf]

/-- As many entries as there are slots in use. -/
theorem length_collect_eq_count (p : ℕ → Prop) [DecidablePred p]
    (h : ∀ s, f s ≠ none ↔ p s) : (collect f n).length = Nat.count p n := by
  induction n with
  | zero => rfl
  | succ n ih =>
      rw [collect_succ, List.length_append, ih, Nat.count_succ]
      congr 1
      by_cases hp : p n
      · obtain ⟨a, ha⟩ := Option.ne_none_iff_exists'.mp ((h n).mpr hp)
        simp [ha, hp]
      · have hnone : f n = none := by
          by_contra hne
          exact hp ((h n).mp hne)
        simp [hnone, hp]

theorem length_collect_le : (collect f n).length ≤ n := by
  unfold collect
  exact (List.length_filterMap_le _ _).trans (by simp)

theorem length_lt_of_exists_free {i : ℕ} (hi : i < n) (hf : f i = none) :
    (collect f n).length < n := by
  have hsplit := (collect_perm_split (f := f) hi).length_eq
  have hle := List.length_filterMap_le f ((List.range n).erase i)
  have herase : ((List.range n).erase i).length = n - 1 := by
    rw [List.length_erase_of_mem (List.mem_range.mpr hi), List.length_range]
  simp only [hf, Option.toList_none, List.nil_append] at hsplit
  omega

section Count

variable {c : ℕ → α} {i : ℕ}

theorem count_congr {p q : ℕ → Prop} [DecidablePred p] [DecidablePred q]
    (h : ∀ s < n, (p s ↔ q s)) : Nat.count p n = Nat.count q n :=
  le_antisymm (Nat.count_mono_left fun s hs => (h s hs).mp)
    (Nat.count_mono_left fun s hs => (h s hs).mpr)

/-- A write to one slot changes a count by that slot only. -/
theorem count_update (p : α → Prop) [DecidablePred p] (b : α) (hi : i < n) :
    Nat.count (fun s => p (Function.update c i b s)) n +
        (if p (c i) then 1 else 0) =
      Nat.count (fun s => p (c s)) n + (if p b then 1 else 0) := by
  induction n with
  | zero => exact absurd hi (Nat.not_lt_zero i)
  | succ n ih =>
      rw [Nat.count_succ, Nat.count_succ]
      rcases Nat.lt_succ_iff_lt_or_eq.mp hi with hlt | rfl
      · have hne : n ≠ i := Nat.ne_of_gt hlt
        rw [Function.update_of_ne hne]
        have hrest := ih hlt
        omega
      · have hbelow : Nat.count (fun s => p (Function.update c i b s)) i =
            Nat.count (fun s => p (c s)) i :=
          count_congr fun s hs => by rw [Function.update_of_ne hs.ne]
        rw [hbelow, Function.update_self]
        omega

end Count

section Keys

variable {K V : Type*} [DecidableEq K] {f : ℕ → Option ((_ : K) × V)} {n : ℕ}
  {m : AList fun _ : K => V} {key : K}

/-- The bindings of a map are the entries of the slots that hold it. -/
theorem lookup_eq_some_iff_slot (h : (collect f n).Perm m.entries) {v : V} :
    m.lookup key = some v ↔ ∃ s < n, f s = some ⟨key, v⟩ := by
  rw [← Option.mem_def, AList.mem_lookup_iff, ← h.mem_iff]
  exact mem_collect

theorem notMem_iff_slot (h : (collect f n).Perm m.entries) :
    key ∉ m ↔ ∀ s < n, ∀ v, f s ≠ some ⟨key, v⟩ := by
  rw [← AList.lookup_eq_none]
  constructor
  · intro hnone s hs v hlive
    have hsome := (lookup_eq_some_iff_slot h).mpr ⟨s, hs, hlive⟩
    rw [hnone] at hsome
    cases hsome
  · intro habsent
    by_contra hne
    obtain ⟨v, hv⟩ := Option.ne_none_iff_exists'.mp hne
    obtain ⟨s, hs, hlive⟩ := (lookup_eq_some_iff_slot h).mp hv
    exact habsent s hs v hlive

end Keys

end Fastbook.Support

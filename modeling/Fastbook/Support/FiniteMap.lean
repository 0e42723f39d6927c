import Mathlib.Data.List.AList

/-!
# Finite maps as lists of bindings

Removing one binding from an association list, up to the order of the bindings,
and maps with the same keys.
-/

namespace Fastbook.Support

variable {K V W : Type*} [DecidableEq K] {m : AList fun _ : K => V} {k : K}
  {v : V}

/-- What is left of the bindings when one of them goes. -/
theorem perm_entries_erase {l : List ((_ : K) × V)}
    (h : (⟨k, v⟩ :: l).Perm m.entries) : l.Perm (m.erase k).entries := by
  have hnodup : (⟨k, v⟩ :: l).NodupKeys :=
    (List.perm_nodupKeys h).mpr m.nodupKeys
  have hkerase := h.kerase (a := k) hnodup
  have hhead : List.kerase k (⟨k, v⟩ :: l) = l := List.kerase_cons_eq rfl
  rwa [hhead] at hkerase

theorem entries_perm_cons_erase (h : m.lookup k = some v) :
    m.entries.Perm (⟨k, v⟩ :: (m.erase k).entries) := by
  rw [← Option.mem_def, AList.mem_lookup_iff] at h
  obtain ⟨l₁, l₂, hl⟩ := List.append_of_mem h
  have hcons : m.entries.Perm (⟨k, v⟩ :: (l₁ ++ l₂)) := by
    rw [hl]
    exact List.perm_middle
  exact hcons.trans ((perm_entries_erase hcons.symm).cons _)

/-- A new binding is the only one with a new value. -/
theorem lookup_insert_eq_some_iff {k' : K} {v' : V} (hnew : m.lookup k = none)
    (hne : v' ≠ v) :
    (m.insert k v).lookup k' = some v' ↔ m.lookup k' = some v' := by
  by_cases hsame : k' = k
  · rw [hsame, AList.lookup_insert, hnew]
    simp only [Option.some.injEq, reduceCtorEq, iff_false]
    exact fun heq => hne heq.symm
  · rw [AList.lookup_insert_ne hsame]

/-- Removing the only binding with a value removes the value. -/
theorem lookup_erase_eq_some_iff {k' : K} {v' : V} (hk : m.lookup k = some v)
    (hunique : ∀ k', m.lookup k' = some v → k' = k) :
    (m.erase k).lookup k' = some v' ↔ m.lookup k' = some v' ∧ v' ≠ v := by
  by_cases hsame : k' = k
  · rw [hsame, AList.lookup_erase, hk]
    simp only [reduceCtorEq, Option.some.injEq, false_iff, not_and, not_not]
    exact fun heq => heq.symm
  · rw [AList.lookup_erase_ne hsame]
    constructor
    · intro hlookup
      refine ⟨hlookup, ?_⟩
      rintro rfl
      exact hsame (hunique k' hlookup)
    · exact fun hlookup => hlookup.1

omit [DecidableEq K] in
/-- Maps with the same keys have as many bindings. -/
theorem length_entries_eq {m' : AList fun _ : K => W}
    (h : ∀ k, k ∈ m ↔ k ∈ m') : m.entries.length = m'.entries.length := by
  have hperm : m.keys.Perm m'.keys :=
    (List.perm_ext_iff_of_nodup m.keys_nodup m'.keys_nodup).mpr h
  have hlen := hperm.length_eq
  simpa [AList.keys, List.keys] using hlen

end Fastbook.Support

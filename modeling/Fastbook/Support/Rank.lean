import Mathlib.Data.List.Count

/-!
# Ranks in a list

The element with a given rank is the one at that place of the sorted list.  A
predicate that holds of everything below an element it holds of is true of the
element with rank `r` exactly when more than `r` elements have it.
-/

namespace Fastbook.Support

variable {α : Type*} {le : α → α → Prop} {l l' : List α} {p : α → Bool}
  {r : ℕ} {s : α}

theorem lt_countP_iff_of_sorted (hsorted : l.Pairwise le)
    (hdown : ∀ a b, le a b → p b = true → p a = true) (hs : l[r]? = some s) :
    r < l.countP p ↔ p s = true := by
  induction l generalizing r with
  | nil => simp at hs
  | cons a l ih =>
      rw [List.pairwise_cons] at hsorted
      cases r with
      | zero =>
          obtain rfl : a = s := by simpa using hs
          constructor
          · intro hpos
            obtain ⟨b, hb, hpb⟩ := List.countP_pos_iff.mp hpos
            rcases List.mem_cons.mp hb with rfl | hb
            · exact hpb
            · exact hdown a b (hsorted.1 b hb) hpb
          · intro ha
            exact List.countP_pos_iff.mpr ⟨a, by simp, ha⟩
      | succ r =>
          have hs' : l[r]? = some s := by simpa using hs
          have hiff := ih hsorted.2 hs'
          have hle : le a s := hsorted.1 s (List.mem_of_getElem? hs')
          by_cases ha : p a = true
          · rw [List.countP_cons_of_pos ha, Nat.succ_lt_succ_iff, hiff]
          · have hs : ¬p s = true := fun hps => ha (hdown a s hle hps)
            rw [List.countP_cons_of_neg ha]
            constructor
            · intro hlt
              exact hiff.mp (Nat.lt_of_succ_lt hlt)
            · intro hps
              exact absurd hps hs

/-- The same, for the list before it was sorted. -/
theorem lt_countP_iff (hperm : l'.Perm l) (hsorted : l'.Pairwise le)
    (hdown : ∀ a b, le a b → p b = true → p a = true) (hs : l'[r]? = some s) :
    r < l.countP p ↔ p s = true := by
  rw [← hperm.countP_eq]
  exact lt_countP_iff_of_sorted hsorted hdown hs

end Fastbook.Support

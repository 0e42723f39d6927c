import Mathlib.Data.List.Basic
import Mathlib.Data.List.Pairwise
import Mathlib.Data.List.Perm.Basic

/-!
# Lists as arrays, plain and sorted

Writes to one position of a list, up to the order of the elements, and
insertion and search in a list that is strictly sorted by a rank, at the
partition points that binary search returns.
-/

namespace Fastbook.Support

variable {α : Type*} {rank : α → ℕ} {l : List α}

theorem perm_cons_eraseIdx {i : ℕ} {x : α} (h : l[i]? = some x) :
    l.Perm (x :: l.eraseIdx i) := by
  obtain ⟨hi, rfl⟩ := List.getElem?_eq_some_iff.mp h
  exact (List.getElem_cons_eraseIdx_perm hi).symm

theorem set_perm_cons_eraseIdx {i : ℕ} {x : α} (h : l[i]? = some x) (y : α) :
    (l.set i y).Perm (y :: l.eraseIdx i) := by
  obtain ⟨hi, -⟩ := List.getElem?_eq_some_iff.mp h
  exact List.set_perm_cons_eraseIdx hi y

theorem modify_eq_set {i : ℕ} {x : α} (h : l[i]? = some x) (f : α → α) :
    l.modify i f = l.set i (f x) := by
  rw [List.modify_eq_set_getElem?, h]
  rfl

/-- Inserting before the first larger element keeps a list sorted. -/
theorem pairwise_insertIdx_findIdx {x : α}
    (hl : l.Pairwise fun a b => rank a < rank b)
    (hx : ∀ y ∈ l, rank y ≠ rank x) :
    (l.insertIdx (l.findIdx fun y => decide (rank x < rank y)) x).Pairwise
      fun a b => rank a < rank b := by
  induction l with
  | nil => simp
  | cons a l ih =>
      rw [List.pairwise_cons] at hl
      have hne := hx a (by simp)
      have htail : ∀ y ∈ l, rank y ≠ rank x := by
        intro y hy
        exact hx y (by simp [hy])
      by_cases hlt : rank x < rank a
      · simp only [List.findIdx_cons, hlt, decide_true, cond_true,
          List.insertIdx_zero, List.pairwise_cons, List.mem_cons]
        refine ⟨?_, hl⟩
        rintro y (rfl | hy)
        · exact hlt
        · exact Nat.lt_trans hlt (hl.1 y hy)
      · simp only [List.findIdx_cons, hlt, decide_false, cond_false,
          List.insertIdx_succ_cons, List.pairwise_cons]
        refine ⟨?_, ih hl.2 htail⟩
        intro y hy
        have hle : l.findIdx (fun y => decide (rank x < rank y)) ≤ l.length :=
          List.findIdx_le_length
        rw [(List.perm_insertIdx x l hle).mem_iff, List.mem_cons] at hy
        rcases hy with rfl | hy
        · omega
        · exact hl.1 y hy

/-- In a sorted list the first element that is not smaller is the searched one,
if it is there at all. -/
theorem getElem?_findIdx_of_mem {x : α}
    (hl : l.Pairwise fun a b => rank a < rank b) (hx : x ∈ l) :
    l[l.findIdx fun y => !decide (rank y < rank x)]? = some x := by
  induction l with
  | nil => simp at hx
  | cons a l ih =>
      rw [List.pairwise_cons] at hl
      rcases List.mem_cons.mp hx with rfl | hmem
      · simp [List.findIdx_cons]
      · have hlt := hl.1 x hmem
        simp only [List.findIdx_cons, hlt, decide_true, Bool.not_true,
          cond_false, List.getElem?_cons_succ]
        exact ih hl.2 hmem

/-- There is one way to sort elements whose ranks differ. -/
theorem eq_of_perm_of_pairwise {l' : List α} (hperm : l'.Perm l)
    (hl : l.Pairwise fun a b => rank a < rank b)
    (hl' : l'.Pairwise fun a b => rank a ≤ rank b) : l' = l := by
  have : Std.Symm fun a b : α => rank a = rank b → a = b :=
    ⟨fun _ _ h hrank => (h hrank.symm).symm⟩
  have hdistinct : l.Pairwise fun a b => rank a = rank b → a = b :=
    hl.imp fun hlt hrank => absurd hrank (Nat.ne_of_lt hlt)
  refine hperm.eq_of_pairwise ?_ hl' (hl.imp Nat.le_of_lt)
  intro a b ha hb hab hba
  exact hdistinct.forall_of_forall (fun _ _ _ => rfl) (hperm.subset ha) hb
    (Nat.le_antisymm hab hba)

end Fastbook.Support

import Mathlib.Data.List.Basic

/-!
# Memory as a function

Memory is a function from addresses to cells.  `store` writes a list of cells
from an address on and `load` reads some back.
-/

namespace Fastbook.Support

variable {α : Type*} {mem mem' : ℕ → α} {pos n : ℕ} {l : List α}

def store (mem : ℕ → α) (pos : ℕ) (l : List α) : ℕ → α :=
  fun i => if i < pos then mem i else l[i - pos]?.getD (mem i)

def load (mem : ℕ → α) (pos n : ℕ) : List α :=
  (List.range n).map fun i => mem (pos + i)

theorem store_of_lt {i : ℕ} (h : i < pos) : store mem pos l i = mem i := by
  simp [store, h]

theorem load_congr (h : ∀ i, i < pos + n → mem' i = mem i) :
    load mem' pos n = load mem pos n := by
  unfold load
  apply List.map_congr_left
  intro i hi
  exact h (pos + i) (by have := List.mem_range.mp hi; omega)

/-- What has been stored is loaded again. -/
theorem load_store (mem : ℕ → α) (pos : ℕ) (l : List α) :
    load (store mem pos l) pos l.length = l := by
  apply List.ext_getElem?
  intro i
  by_cases hi : i < l.length
  · have hstored : store mem pos l (pos + i) = l[i] := by
      rw [store, if_neg (by omega), Nat.add_sub_cancel_left, List.getElem?_eq_getElem hi,
        Option.getD_some]
    simp [load, hi, hstored]
  · simp [load, hi]

end Fastbook.Support

import Mathlib.Algebra.BigOperators.Group.Finset.Piecewise

/-!
# Inputs routed to a family of machines

A family of machines, one for each key, that share a step function.  An input
goes to the machine of its key, so the machines do not see each other: the
machine of a key ends where its own inputs lead it, and a quantity that is added
up over the inputs is the sum of what any division of the keys adds up apart.
-/

namespace Fastbook.Support

structure Routed (κ σ α : Type*) where
  key : α → κ
  step : σ → α → σ

namespace Routed

variable {κ σ α : Type*} [DecidableEq κ] (R : Routed κ σ α)

/-- The machine of the input's key takes a step. -/
def apply (f : κ → σ) (a : α) : κ → σ :=
  Function.update f (R.key a) (R.step (f (R.key a)) a)

def run (f : κ → σ) (l : List α) : κ → σ :=
  l.foldl R.apply f

/-- A quantity of the inputs, each taken at the state it meets. -/
def total (cost : σ → α → ℕ) (f : κ → σ) : List α → ℕ
  | [] => 0
  | a :: l => cost (f (R.key a)) a + total cost (R.apply f a) l

variable {f g : κ → σ} {l : List α}

/-- Every machine ends where its own inputs lead it. -/
theorem run_eq_foldl (f : κ → σ) (l : List α) (k : κ) :
    R.run f l k = (l.filter fun a => R.key a = k).foldl R.step (f k) := by
  induction l generalizing f with
  | nil => rfl
  | cons a l ih =>
      change R.run (R.apply f a) l k = _
      rw [ih]
      by_cases hk : R.key a = k
      · rw [List.filter_cons_of_pos (by simpa using hk), List.foldl_cons, apply, hk,
          Function.update_self]
      · rw [List.filter_cons_of_neg (by simpa using hk), apply,
          Function.update_of_ne (Ne.symm hk)]

theorem run_filter {p : κ → Bool} {k : κ} (hk : p k = true) (f : κ → σ) (l : List α) :
    R.run f (l.filter fun a => p (R.key a)) k = R.run f l k := by
  rw [run_eq_foldl, run_eq_foldl, List.filter_filter]
  congr 1
  refine List.filter_congr fun a _ => ?_
  by_cases hak : R.key a = k
  · simp [hak, hk]
  · simp [hak]

theorem apply_congr (h : ∀ a ∈ l, f (R.key a) = g (R.key a)) {a : α}
    (ha : f (R.key a) = g (R.key a)) :
    ∀ b ∈ l, R.apply f a (R.key b) = R.apply g a (R.key b) := by
  intro b hb
  by_cases hab : R.key b = R.key a
  · simp [apply, hab, ha]
  · simp [apply, hab, h b hb]

/-- Only the machines of the inputs matter. -/
theorem total_congr (cost : σ → α → ℕ) (h : ∀ a ∈ l, f (R.key a) = g (R.key a)) :
    R.total cost f l = R.total cost g l := by
  induction l generalizing f g with
  | nil => rfl
  | cons a l ih =>
      obtain ⟨ha, hl⟩ := List.forall_mem_cons.mp h
      rw [total, total, ha, ih (R.apply_congr hl ha)]

/-- The parts of a division of the keys add up apart from each other. -/
theorem sum_total {ι : Type*} [DecidableEq ι] (cost : σ → α → ℕ) (part : κ → ι)
    (s : Finset ι) (h : ∀ a ∈ l, part (R.key a) ∈ s) (f : κ → σ) :
    ∑ i ∈ s, R.total cost f (l.filter fun a => part (R.key a) = i) = R.total cost f l := by
  induction l generalizing f with
  | nil => exact Finset.sum_const_zero
  | cons a l ih =>
      obtain ⟨ha, hl⟩ := List.forall_mem_cons.mp h
      -- the part of `a` pays for it, and the other parts do not see its machine
      have hpart : ∀ i, R.total cost f ((a :: l).filter fun b => part (R.key b) = i) =
          (if i = part (R.key a) then cost (f (R.key a)) a else 0) +
            R.total cost (R.apply f a) (l.filter fun b => part (R.key b) = i) := by
        intro i
        by_cases hi : part (R.key a) = i
        · rw [List.filter_cons_of_pos (by simpa using hi), if_pos hi.symm, total]
        · rw [List.filter_cons_of_neg (by simpa using hi), if_neg (Ne.symm hi), Nat.zero_add]
          refine R.total_congr cost fun b hb => ?_
          have hb' : part (R.key b) = i := by simpa using (List.mem_filter.mp hb).2
          have hne : R.key b ≠ R.key a := fun heq => hi (heq ▸ hb')
          rw [apply, Function.update_of_ne hne]
      rw [Finset.sum_congr rfl fun i _ => hpart i, Finset.sum_add_distrib,
        Finset.sum_ite_eq' s, if_pos ha, ih hl, total]

theorem total_append (cost : σ → α → ℕ) (f : κ → σ) (l l' : List α) :
    R.total cost f (l ++ l') = R.total cost f l + R.total cost (R.run f l) l' := by
  induction l generalizing f with
  | nil => exact (Nat.zero_add _).symm
  | cons a l ih =>
      rw [List.cons_append, total, total, ih, Nat.add_assoc]
      rfl

/-- Inputs may be replaced by others that act alike. -/
theorem run_map (φ : α → α) (hkey : ∀ a, R.key (φ a) = R.key a)
    (hstep : ∀ s a, R.step s (φ a) = R.step s a) (f : κ → σ) (l : List α) :
    R.run f (l.map φ) = R.run f l := by
  rw [run, List.foldl_map]
  congr 1
  funext f a
  rw [apply, apply, hkey, hstep]

theorem total_map (φ : α → α) {cost : σ → α → ℕ} (hkey : ∀ a, R.key (φ a) = R.key a)
    (hstep : ∀ s a, R.step s (φ a) = R.step s a) (hcost : ∀ s a, cost s (φ a) = cost s a)
    (f : κ → σ) (l : List α) : R.total cost f (l.map φ) = R.total cost f l := by
  induction l generalizing f with
  | nil => rfl
  | cons a l ih =>
      have happly : R.apply f (φ a) = R.apply f a := by rw [apply, apply, hkey, hstep]
      rw [List.map_cons, total, total, hkey, hcost, happly, ih]

end Routed

end Fastbook.Support

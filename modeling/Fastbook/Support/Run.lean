import Mathlib.Data.List.Induction

/-!
# Runs of a step function

A step function that may fail, folded over a list of inputs.  What every
successful step preserves holds after every successful run.
-/

namespace Fastbook.Support

variable {ε σ α : Type*}

/-- The inputs one after the other, up to the first error. -/
def run (step : σ → α → Except ε σ) (s : σ) (inputs : List α) : Except ε σ :=
  inputs.foldlM step s

variable {step : σ → α → Except ε σ} {s s' : σ} {l l' : List α} {a : α}

theorem run_append (h : run step s l = .ok s') :
    run step s (l ++ l') = run step s' l' := by
  simp only [run, List.foldlM_append]
  change (run step s l >>= _) = _
  rw [h]
  rfl

theorem run_snoc (h : run step s l = .ok s') :
    run step s (l ++ [a]) = step s' a := by
  rw [run_append h]
  simp [run]

/-- A run that succeeds has succeeded up to each of its inputs. -/
theorem exists_run_of_append {s'' : σ} (h : run step s (l ++ l') = .ok s'') :
    ∃ s', run step s l = .ok s' ∧ run step s' l' = .ok s'' := by
  cases hl : run step s l with
  | error e =>
      simp only [run, List.foldlM_append] at h hl
      rw [hl] at h
      cases h
  | ok s' => exact ⟨s', rfl, (run_append hl).symm.trans h⟩

theorem exists_step_of_snoc {s'' : σ} (h : run step s (l ++ [a]) = .ok s'') :
    ∃ s', run step s l = .ok s' ∧ step s' a = .ok s'' := by
  obtain ⟨s', hl, ha⟩ := exists_run_of_append h
  exact ⟨s', hl, by simpa [run] using ha⟩

/-- Inputs that leave the state where it is. -/
theorem run_eq_self (h : ∀ a ∈ l, step s a = .ok s) : run step s l = .ok s := by
  induction l using List.reverseRecOn with
  | nil => rfl
  | append_singleton l a ih =>
      have hl : run step s l = .ok s :=
        ih fun b hb => h b (List.mem_append_left _ hb)
      rw [run_snoc hl]
      exact h a (by simp)

/-- The invariant rule. -/
theorem run_invariant {P : σ → Prop}
    (hstep : ∀ s a s', a ∈ l → P s → step s a = .ok s' → P s')
    (h : run step s l = .ok s') (hs : P s) : P s' := by
  induction l using List.reverseRecOn generalizing s' with
  | nil =>
      cases h
      exact hs
  | append_singleton l a ih =>
      obtain ⟨s₁, hl, ha⟩ := exists_step_of_snoc h
      have hmem : a ∈ l ++ [a] := by simp
      exact hstep s₁ a s' hmem
        (ih (fun s b s' hb => hstep s b s' (List.mem_append_left _ hb)) hl) ha

/-- A mapped computation that succeeds. -/
theorem map_eq_ok {β γ : Type*} {x : Except ε β} {f : β → γ} {c : γ}
    (h : x.map f = .ok c) : ∃ a, x = .ok a ∧ f a = c := by
  cases x with
  | error e => cases h
  | ok a =>
      cases h
      exact ⟨a, rfl, rfl⟩

/-- Two computations that agree up to what is made of their results. -/
theorem exists_ok_of_map_eq {β γ : Type*} {x : Except ε α} {y : Except ε β}
    {f : α → γ} {g : β → γ} {a : α} (h : x.map f = y.map g)
    (hx : x = .ok a) : ∃ b, y = .ok b ∧ f a = g b := by
  subst hx
  cases y with
  | error e => cases h
  | ok b => exact ⟨b, rfl, Except.ok.inj h⟩

end Fastbook.Support

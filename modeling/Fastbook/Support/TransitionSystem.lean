import Mathlib.Logic.Relation

/-!
# Transition systems

A start state and a step function that says, for every action, whether it is
possible and where it leads.  A state is reachable if some sequence of actions
leads to it, so a system of several threads reaches what any interleaving of
their steps reaches.
-/

namespace Fastbook.Support

structure TransitionSystem (σ α : Type*) where
  start : σ
  step : σ → α → Option σ

namespace TransitionSystem

variable {σ α : Type*} (T : TransitionSystem σ α)

def Reachable (s : σ) : Prop :=
  Relation.ReflTransGen (fun s s' => ∃ a, T.step s a = some s') T.start s

/-- What is reached by actions that meet a condition on the state before. -/
def ReachableVia (C : σ → α → Prop) (s : σ) : Prop :=
  Relation.ReflTransGen (fun s s' => ∃ a, C s a ∧ T.step s a = some s') T.start s

/-- One sequence of actions. -/
def run (s : σ) : List α → Option σ
  | [] => some s
  | a :: as =>
    match T.step s a with
    | none => none
    | some s' => run s' as

/-- One sequence of actions, if each of them meets the condition. -/
def runVia (C : σ → α → Prop) [∀ s a, Decidable (C s a)] (s : σ) : List α → Option σ
  | [] => some s
  | a :: as =>
    if C s a then
      match T.step s a with
      | none => none
      | some s' => runVia C s' as
    else none

variable {T} {s s' : σ}

theorem Reachable.start : T.Reachable T.start :=
  .refl

theorem Reachable.step {a : α} (h : T.Reachable s)
    (hstep : T.step s a = some s') : T.Reachable s' :=
  h.tail ⟨a, hstep⟩

theorem Reachable.run {l : List α} (h : T.Reachable s)
    (hrun : T.run s l = some s') : T.Reachable s' := by
  induction l generalizing s with
  | nil =>
      cases hrun
      exact h
  | cons a l ih =>
      rw [TransitionSystem.run] at hrun
      split at hrun
      · cases hrun
      · next s₁ hstep => exact ih (h.step hstep) hrun

/-- The invariant rule. -/
theorem Reachable.invariant {P : σ → Prop} (hstart : P T.start)
    (hstep : ∀ s a s', P s → T.step s a = some s' → P s')
    (h : T.Reachable s) : P s := by
  induction h with
  | refl => exact hstart
  | tail _ hlast ih =>
      obtain ⟨a, hlast⟩ := hlast
      exact hstep _ a _ ih hlast

theorem ReachableVia.start {C : σ → α → Prop} : T.ReachableVia C T.start :=
  .refl

theorem ReachableVia.invariant {C : σ → α → Prop} {P : σ → Prop}
    (hstart : P T.start)
    (hstep : ∀ s a s', P s → C s a → T.step s a = some s' → P s')
    (h : T.ReachableVia C s) : P s := by
  induction h with
  | refl => exact hstart
  | tail _ hlast ih =>
      obtain ⟨a, hcond, hlast⟩ := hlast
      exact hstep _ a _ ih hcond hlast

theorem ReachableVia.reachable {C : σ → α → Prop} (h : T.ReachableVia C s) :
    T.Reachable s :=
  h.invariant Reachable.start fun _ _ _ hs _ hstep => hs.step hstep

theorem ReachableVia.step {C : σ → α → Prop} {a : α} (h : T.ReachableVia C s)
    (hcond : C s a) (hstep : T.step s a = some s') : T.ReachableVia C s' :=
  h.tail ⟨a, hcond, hstep⟩

theorem ReachableVia.runVia {C : σ → α → Prop} [∀ s a, Decidable (C s a)] {l : List α}
    (h : T.ReachableVia C s) (hrun : T.runVia C s l = some s') :
    T.ReachableVia C s' := by
  induction l generalizing s with
  | nil =>
      cases hrun
      exact h
  | cons a l ih =>
      rw [TransitionSystem.runVia] at hrun
      split at hrun
      · next hcond =>
        split at hrun
        · cases hrun
        · next s₁ hstep => exact ih (h.step hcond hstep) hrun
      · cases hrun

/-- A condition may be replaced with a weaker one. -/
theorem ReachableVia.mono {C C' : σ → α → Prop} (h : T.ReachableVia C s)
    (hcond : ∀ s a, C s a → C' s a) : T.ReachableVia C' s :=
  h.invariant ReachableVia.start fun s a _ hs ha hstep => hs.step (hcond s a ha) hstep

/-- Actions that meet the condition in any state. -/
theorem ReachableVia.run {C : σ → α → Prop} {l : List α}
    (h : T.ReachableVia C s) (hcond : ∀ a ∈ l, ∀ s, C s a)
    (hrun : T.run s l = some s') : T.ReachableVia C s' := by
  induction l generalizing s with
  | nil =>
      cases hrun
      exact h
  | cons a l ih =>
      rw [TransitionSystem.run] at hrun
      split at hrun
      · cases hrun
      · next s₁ hstep =>
          exact ih (h.step (hcond a (by simp) s) hstep)
            (fun b hb => hcond b (by simp [hb])) hrun

theorem run_append {l l' : List α} :
    T.run s (l ++ l') = (T.run s l).bind fun s' => T.run s' l' := by
  induction l generalizing s with
  | nil => rfl
  | cons a l ih =>
      simp only [List.cons_append, run]
      cases T.step s a with
      | none => rfl
      | some s₁ => exact ih

end TransitionSystem

end Fastbook.Support

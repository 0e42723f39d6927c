import Fastbook.Support.TransitionSystem
import Mathlib.Data.Nat.Find
import Mathlib.Order.WellFounded

/-!
# Fair executions

An execution is an infinite run of a transition system, in which at some times
nothing may happen.  The actions belong to threads; those of the environment
belong to none.  In a fair execution no thread that could go on is passed over
forever.

The rule of this module proves that a goal is reached: a rank goes down until it
is, because in every state some thread can take it down.
-/

namespace Fastbook.Support

namespace TransitionSystem

variable {σ α τ : Type*}

structure Execution (T : TransitionSystem σ α) where
  state : ℕ → σ
  act : ℕ → Option α
  start : state 0 = T.start
  next : ∀ i, match act i with
    | none => state (i + 1) = state i
    | some a => T.step (state i) a = some (state (i + 1))

namespace Execution

variable {T : TransitionSystem σ α} (E : Execution T)

/-- Again and again, a thread takes a step or cannot take one. -/
def Fair (thread : α → Option τ) : Prop :=
  ∀ t i, ∃ j ≥ i, (∃ a, E.act j = some a ∧ thread a = some t) ∨
    ∀ a, thread a = some t → T.step (E.state j) a = none

variable {E}

theorem state_succ (i : ℕ) :
    E.state (i + 1) = E.state i ∨
    ∃ a, E.act i = some a ∧ T.step (E.state i) a = some (E.state (i + 1)) := by
  have hnext := E.next i
  split at hnext
  · exact Or.inl hnext
  · next a hact => exact Or.inr ⟨a, hact, hnext⟩

theorem reachable (i : ℕ) : T.Reachable (E.state i) := by
  induction i with
  | zero =>
      rw [E.start]
      exact .start
  | succ i ih =>
      rcases state_succ (E := E) i with heq | ⟨a, -, hstep⟩
      · rwa [heq]
      · exact ih.step hstep

/-- While nothing lowers the rank, the same thread stays helpful. -/
theorem persists {P Q : σ → Prop} {ι : Type*} [Preorder ι] {rank : σ → ι}
    {helpful : σ → τ} {thread : α → Option τ}
    (hstep : ∀ s a s', T.Reachable s → P s → T.step s a = some s' →
      Q s' ∨ P s' ∧ (rank s' < rank s ∨
        rank s' = rank s ∧ helpful s' = helpful s ∧ thread a ≠ some (helpful s)))
    {i : ℕ} (h : P (E.state i)) (d : ℕ) :
    (∃ j ≥ i, Q (E.state j) ∨
      P (E.state j) ∧ rank (E.state j) < rank (E.state i)) ∨
    P (E.state (i + d)) ∧ rank (E.state (i + d)) = rank (E.state i) ∧
      helpful (E.state (i + d)) = helpful (E.state i) := by
  induction d with
  | zero => exact Or.inr ⟨h, rfl, rfl⟩
  | succ d ih =>
      rcases ih with hdone | ⟨hP, hrank, hhelp⟩
      · exact Or.inl hdone
      · rcases state_succ (E := E) (i + d) with heq | ⟨a, -, ha⟩
        · rw [← Nat.add_assoc, heq]
          exact Or.inr ⟨hP, hrank, hhelp⟩
        · rcases hstep _ a _ (reachable _) hP ha with hQ | ⟨hP', hlt | ⟨hrank', hhelp', -⟩⟩
          · exact Or.inl ⟨i + d + 1, by omega, Or.inl hQ⟩
          · exact Or.inl ⟨i + d + 1, by omega, Or.inr ⟨hP', hrank ▸ hlt⟩⟩
          · exact Or.inr ⟨hP', hrank'.trans hrank, hhelp'.trans hhelp⟩

/-- One round: the thread that is helpful now takes its step, or another one has
lowered the rank before. -/
theorem Fair.progress {P Q : σ → Prop} {ι : Type*} [Preorder ι] {rank : σ → ι}
    {helpful : σ → τ} {thread : α → Option τ} (hfair : E.Fair thread)
    (hstep : ∀ s a s', T.Reachable s → P s → T.step s a = some s' →
      Q s' ∨ P s' ∧ (rank s' < rank s ∨
        rank s' = rank s ∧ helpful s' = helpful s ∧ thread a ≠ some (helpful s)))
    (henabled : ∀ s, T.Reachable s → P s →
      ∃ a, thread a = some (helpful s) ∧ T.step s a ≠ none)
    {i : ℕ} (h : P (E.state i)) :
    ∃ j ≥ i, Q (E.state j) ∨
      P (E.state j) ∧ rank (E.state j) < rank (E.state i) := by
  obtain ⟨j, hij, hj⟩ := hfair (helpful (E.state i)) i
  obtain ⟨d, rfl⟩ := Nat.exists_eq_add_of_le hij
  rcases persists hstep h d with hdone | ⟨hP, hrank, hhelp⟩
  · exact hdone
  · rcases hj with ⟨a, hact, hthread⟩ | hdisabled
    · have hnext := E.next (i + d)
      rw [hact] at hnext
      rcases hstep _ a _ (reachable _) hP hnext with hQ | ⟨hP', hlt | ⟨-, -, hne⟩⟩
      · exact ⟨i + d + 1, by omega, Or.inl hQ⟩
      · exact ⟨i + d + 1, by omega, Or.inr ⟨hP', hrank ▸ hlt⟩⟩
      · exact absurd (hhelp ▸ hthread) hne
    · obtain ⟨a, hthread, hne⟩ := henabled _ (reachable _) hP
      exact absurd (hdisabled a (hhelp ▸ hthread)) hne

/-- The ranking rule. -/
theorem Fair.leadsTo {P Q : σ → Prop} {ι : Type*} [Preorder ι] [WellFoundedLT ι]
    {thread : α → Option τ} (hfair : E.Fair thread) (rank : σ → ι) (helpful : σ → τ)
    (hstep : ∀ s a s', T.Reachable s → P s → T.step s a = some s' →
      Q s' ∨ P s' ∧ (rank s' < rank s ∨
        rank s' = rank s ∧ helpful s' = helpful s ∧ thread a ≠ some (helpful s)))
    (henabled : ∀ s, T.Reachable s → P s →
      ∃ a, thread a = some (helpful s) ∧ T.step s a ≠ none)
    {i : ℕ} (h : P (E.state i)) : ∃ j ≥ i, Q (E.state j) := by
  generalize hr : rank (E.state i) = r
  induction r using WellFoundedLT.induction generalizing i with
  | ind r ih =>
      obtain ⟨j, hij, hQ | ⟨hP, hlt⟩⟩ := hfair.progress hstep henabled h
      · exact ⟨j, hij, hQ⟩
      · obtain ⟨j', hjj', hQ⟩ := ih _ (hr ▸ hlt) hP rfl
        exact ⟨j', hij.trans hjj', hQ⟩

end Execution

/-! ## Executions that come to rest -/

theorem run_take_succ {T : TransitionSystem σ α} {l : List α} {i : ℕ} {a : α}
    {s s' : σ} (ha : l[i]? = some a) (hrun : T.run s (l.take i) = some s') :
    T.run s (l.take (i + 1)) = T.step s' a := by
  rw [List.take_add_one, ha, run_append, hrun]
  simp only [Option.toList_some, Option.bind_some, run]
  cases T.step s' a <;> rfl

theorem isSome_run_take {T : TransitionSystem σ α} {l : List α} {s s' : σ}
    (hrun : T.run s l = some s') (i : ℕ) : (T.run s (l.take i)).isSome := by
  rw [← List.take_append_drop i l, run_append] at hrun
  obtain ⟨s₁, hs₁, -⟩ := Option.bind_eq_some_iff.mp hrun
  simp [hs₁]

/-- A finite run, after which nothing happens. -/
def Execution.ofRun (T : TransitionSystem σ α) (l : List α)
    (h : (T.run T.start l).isSome) : Execution T where
  state i := (T.run T.start (l.take i)).getD T.start
  act i := l[i]?
  start := rfl
  next i := by
    obtain ⟨s, hs⟩ := Option.isSome_iff_exists.mp h
    obtain ⟨s₁, hs₁⟩ := Option.isSome_iff_exists.mp (isSome_run_take hs i)
    obtain ⟨s₂, hs₂⟩ := Option.isSome_iff_exists.mp (isSome_run_take hs (i + 1))
    cases ha : l[i]? with
    | none =>
        have hlen := List.getElem?_eq_none_iff.mp ha
        simp only [List.take_of_length_le hlen,
          List.take_of_length_le (hlen.trans (Nat.le_succ i))]
    | some a =>
        rw [hs₁, hs₂]
        simp only [Option.getD_some]
        rw [← run_take_succ ha hs₁, hs₂]

/-- A run after which no thread can go on. -/
theorem Execution.fair_ofRun {T : TransitionSystem σ α} {l : List α}
    {h : (T.run T.start l).isSome} (thread : α → Option τ) {s : σ}
    (hrun : T.run T.start l = some s)
    (hdone : ∀ a t, thread a = some t → T.step s a = none) :
    (Execution.ofRun T l h).Fair thread := by
  intro t i
  refine ⟨max i l.length, le_max_left _ _, Or.inr fun a ha => ?_⟩
  have hstate : (Execution.ofRun T l h).state (max i l.length) = s := by
    change (T.run T.start (l.take (max i l.length))).getD T.start = s
    rw [List.take_of_length_le (le_max_right _ _), hrun]
    rfl
  rw [hstate]
  exact hdone a t ha

end TransitionSystem

end Fastbook.Support

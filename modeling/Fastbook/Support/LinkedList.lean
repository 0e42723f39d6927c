import Mathlib.Data.List.Basic
import Mathlib.Logic.Function.Basic

/-!
# Doubly linked lists in memory

`Segment next prev before after l` says that the nodes of `l` are chained by
the link functions `next` and `prev`, between the nodes `before` and `after`.
A whole list is a segment between two null pointers.
-/

namespace Fastbook.Support

variable {P : Type*}

def Segment (next prev : P → Option P) :
    Option P → Option P → List P → Prop
  | _, _, [] => True
  | before, after, p :: l =>
    prev p = before ∧ next p = l.head?.or after ∧
      Segment next prev (some p) after l

variable {next prev next' prev' : P → Option P} {before after : Option P}
  {l l₁ l₂ : List P}

/-- A segment depends on the links of its own nodes only. -/
theorem Segment.congr (h : Segment next prev before after l)
    (hnext : ∀ p ∈ l, next' p = next p) (hprev : ∀ p ∈ l, prev' p = prev p) :
    Segment next' prev' before after l := by
  induction l generalizing before with
  | nil => trivial
  | cons p l ih =>
      obtain ⟨hp, hn, hl⟩ := h
      refine ⟨?_, ?_, ih hl ?_ ?_⟩
      · rw [hprev p (by simp), hp]
      · rw [hnext p (by simp), hn]
      · intro q hq
        exact hnext q (by simp [hq])
      · intro q hq
        exact hprev q (by simp [hq])

theorem segment_append :
    Segment next prev before after (l₁ ++ l₂) ↔
      Segment next prev before (l₂.head?.or after) l₁ ∧
        Segment next prev (l₁.getLast?.or before) after l₂ := by
  induction l₁ generalizing before with
  | nil => simp [Segment]
  | cons p l₁ ih =>
      have hlast : ((p :: l₁).getLast?).or before =
          l₁.getLast?.or (some p) := by
        cases l₁ with
        | nil => rfl
        | cons q l₁ => simp [List.getLast?_cons]
      simp only [List.cons_append, Segment, ih, List.head?_append, hlast,
        Option.or_assoc, and_assoc]

/-- The neighbours of a node in the middle of a list. -/
theorem Segment.middle {p : P}
    (h : Segment next prev none none (l₁ ++ p :: l₂)) :
    prev p = l₁.getLast? ∧ next p = l₂.head? := by
  rw [segment_append] at h
  obtain ⟨-, hp, hn, -⟩ := h
  exact ⟨by simpa using hp, by simpa using hn⟩

/-- Only the last node sees what comes after a segment. -/
theorem Segment.setAfter (h : Segment next prev before after l)
    (hnodup : l.Nodup) (after' : Option P)
    (hnext : ∀ p ∈ l, l.getLast? = some p → next' p = after')
    (hkeep : ∀ p ∈ l, l.getLast? ≠ some p → next' p = next p)
    (hprev : ∀ p ∈ l, prev' p = prev p) :
    Segment next' prev' before after' l := by
  rcases List.eq_nil_or_concat l with rfl | ⟨init, x, rfl⟩
  · trivial
  · rw [List.concat_eq_append] at h hnext hkeep hprev hnodup ⊢
    rw [segment_append] at h ⊢
    rw [List.nodup_append] at hnodup
    refine ⟨h.1.congr ?_ ?_, ?_, ?_, trivial⟩
    · intro p hp
      apply hkeep p (by simp [hp])
      have hne := hnodup.2.2 p hp x (by simp)
      simpa using fun heq : x = p => hne heq.symm
    · intro p hp
      exact hprev p (by simp [hp])
    · rw [hprev x (by simp)]
      exact h.2.1
    · simpa using hnext x (by simp) (by simp)

/-- Only the first node sees what comes before a segment. -/
theorem Segment.setBefore (h : Segment next prev before after l)
    (hnodup : l.Nodup) (before' : Option P)
    (hprev : ∀ p ∈ l, l.head? = some p → prev' p = before')
    (hkeep : ∀ p ∈ l, l.head? ≠ some p → prev' p = prev p)
    (hnext : ∀ p ∈ l, next' p = next p) :
    Segment next' prev' before' after l := by
  cases l with
  | nil => trivial
  | cons x l =>
      obtain ⟨-, hn, hl⟩ := h
      rw [List.nodup_cons] at hnodup
      refine ⟨hprev x (by simp) rfl, ?_, hl.congr ?_ ?_⟩
      · rw [hnext x (by simp), hn]
      · intro p hp
        exact hnext p (by simp [hp])
      · intro p hp
        apply hkeep p (by simp [hp])
        intro heq
        cases heq
        exact hnodup.1 hp

/-- Appending a node at the tail. -/
theorem Segment.append_node {p : P} (h : Segment next prev none none l)
    (hnodup : l.Nodup)
    (hnext : ∀ q ∈ l, l.getLast? = some q → next' q = some p)
    (hkeep : ∀ q ∈ l, l.getLast? ≠ some q → next' q = next q)
    (hprev : ∀ q ∈ l, prev' q = prev q)
    (hp : prev' p = l.getLast?) (hn : next' p = none) :
    Segment next' prev' none none (l ++ [p]) := by
  rw [segment_append]
  refine ⟨?_, ?_, ?_, trivial⟩
  · exact h.setAfter hnodup _ (by simpa using hnext) hkeep hprev
  · simpa using hp
  · simpa using hn

/-- Unlinking a node from the middle of a list. -/
theorem Segment.remove_node [DecidableEq P] {p : P}
    (h : Segment next prev none none (l₁ ++ p :: l₂))
    (hnodup : (l₁ ++ p :: l₂).Nodup)
    (hnext : ∀ q ∈ l₁ ++ l₂, next' q =
      if l₁.getLast? = some q then l₂.head? else next q)
    (hprev : ∀ q ∈ l₁ ++ l₂, prev' q =
      if l₂.head? = some q then l₁.getLast? else prev q) :
    Segment next' prev' none none (l₁ ++ l₂) := by
  rw [segment_append] at h ⊢
  obtain ⟨h₁, -, -, h₂⟩ := h
  rw [List.nodup_append] at hnodup
  obtain ⟨hn₁, hn₂, hdisj⟩ := hnodup
  rw [List.nodup_cons] at hn₂
  have hne : ∀ a ∈ l₁, ∀ b ∈ l₂, a ≠ b := by
    intro a ha b hb
    exact hdisj a ha b (by simp [hb])
  constructor
  · apply h₁.setAfter hn₁
    · intro q hq hlast
      rw [hnext q (by simp [hq]), if_pos hlast, Option.or_none]
    · intro q hq hlast
      rw [hnext q (by simp [hq]), if_neg hlast]
    · intro q hq
      rw [hprev q (by simp [hq]), if_neg]
      intro hhead
      exact hne q hq q (List.mem_of_head? hhead) rfl
  · apply h₂.setBefore hn₂.2
    · intro q hq hhead
      rw [hprev q (by simp [hq]), if_pos hhead, Option.or_none]
    · intro q hq hhead
      rw [hprev q (by simp [hq]), if_neg hhead]
    · intro q hq
      rw [hnext q (by simp [hq]), if_neg]
      intro hlast
      exact hne q (List.mem_of_getLast? hlast) q hq rfl

/-- The nodes met by following `next`, at most `n` of them. -/
def walk (next : P → Option P) : ℕ → Option P → List P
  | 0, _ => []
  | _ + 1, none => []
  | n + 1, some p => p :: walk next n (next p)

theorem Segment.walk_eq {n : ℕ} (h : Segment next prev before none l)
    (hn : l.length ≤ n) : walk next n l.head? = l := by
  induction l generalizing before n with
  | nil => cases n <;> rfl
  | cons p l ih =>
      obtain ⟨-, hnext, hl⟩ := h
      cases n with
      | zero => simp at hn
      | succ n =>
          have hrest := ih hl (by simpa using hn)
          simp only [List.head?_cons, walk, hnext, Option.or_none, hrest]

end Fastbook.Support

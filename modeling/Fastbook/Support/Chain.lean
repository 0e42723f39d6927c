import Mathlib.Data.List.Chain
import Mathlib.Data.List.Nodup
import Mathlib.Logic.Function.Basic

/-!
# Singly linked chains

`Chain next head l` says that following `next` from `head` meets the nodes of
`l` in order and then a null pointer.
-/

namespace Fastbook.Support

variable {P : Type*}

def Chain (next : P → Option P) : Option P → List P → Prop
  | head, [] => head = none
  | head, p :: l => head = some p ∧ Chain next (next p) l

variable {next next' : P → Option P} {head : Option P} {l l' : List P} {p q : P}

@[simp]
theorem chain_nil : Chain next head [] ↔ head = none :=
  Iff.rfl

@[simp]
theorem chain_cons :
    Chain next head (p :: l) ↔ head = some p ∧ Chain next (next p) l :=
  Iff.rfl

@[simp]
theorem chain_none : Chain next none l ↔ l = [] := by
  cases l <;> simp

namespace Chain

theorem head_eq (h : Chain next head l) : head = l.head? := by
  cases l with
  | nil => exact h
  | cons p l => exact h.1

/-- A chain depends on the links of its own nodes only. -/
theorem congr (h : Chain next head l) (hnext : ∀ p ∈ l, next' p = next p) :
    Chain next' head l := by
  induction l generalizing head with
  | nil => exact h
  | cons p l ih =>
      refine ⟨h.1, ?_⟩
      rw [hnext p (by simp)]
      exact ih h.2 fun q hq => hnext q (by simp [hq])

theorem unique (h : Chain next head l) (h' : Chain next head l') : l = l' := by
  induction l generalizing head l' with
  | nil =>
      cases h
      exact (chain_none.mp h').symm
  | cons p l ih =>
      obtain ⟨rfl, hl⟩ := h
      cases l' with
      | nil => cases h'
      | cons q l' =>
          cases h'.1
          rw [ih hl h'.2]

theorem drop (h : Chain next head l) (n : ℕ) :
    Chain next (l.drop n).head? (l.drop n) := by
  induction n generalizing head l with
  | zero =>
      rw [List.drop_zero, ← h.head_eq]
      exact h
  | succ n ih =>
      cases l with
      | nil => simp
      | cons p l => exact ih h.2

theorem next_mem (h : Chain next head l) (hp : p ∈ l) (hq : next p = some q) :
    q ∈ l := by
  induction l generalizing head with
  | nil => cases hp
  | cons r l ih =>
      rcases List.mem_cons.mp hp with rfl | hp
      · have hl := h.2.head_eq
        rw [hq] at hl
        exact List.mem_cons_of_mem _ (List.mem_of_mem_head? hl.symm)
      · exact List.mem_cons_of_mem _ (ih h.2 hp)

/-- A node with no successor is the last one. -/
theorem getLast?_eq (h : Chain next head l) (hp : p ∈ l) (hend : next p = none) :
    l.getLast? = some p := by
  induction l generalizing head with
  | nil => cases hp
  | cons r l ih =>
      rcases List.mem_cons.mp hp with rfl | hp
      · have hl : l = [] := chain_none.mp (hend ▸ h.2)
        rw [hl, List.getLast?_singleton]
      · rw [List.getLast?_cons, ih h.2 hp, Option.getD_some]

/-- Two chains are joined at the last node of the first. -/
theorem append [DecidableEq P] {head' : Option P} (h : Chain next head l)
    (h' : Chain next head' l') (hnodup : l.Nodup) (hlast : l.getLast? = some p)
    (hp : p ∉ l') : Chain (Function.update next p head') head (l ++ l') := by
  induction l generalizing head with
  | nil => cases hlast
  | cons q l ih =>
      obtain ⟨hhead, hl⟩ := h
      rw [List.nodup_cons] at hnodup
      refine ⟨hhead, ?_⟩
      cases l with
      | nil =>
          obtain rfl : q = p := by simpa using hlast
          rw [Function.update_self]
          apply h'.congr
          intro r hr
          have hne : r ≠ q := ne_of_mem_of_not_mem hr hp
          exact Function.update_of_ne hne _ _
      | cons r l =>
          rw [List.getLast?_cons_cons] at hlast
          have hne : q ≠ p := by
            rintro rfl
            exact hnodup.1 (List.mem_of_getLast? hlast)
          rw [Function.update_of_ne hne]
          exact ih hl hnodup.2 hlast

end Chain

/-- Each node but the last points to the one that follows it. -/
def Linked (next : P → Option P) (l : List P) : Prop :=
  l.IsChain fun p q => next p = some q

namespace Linked

theorem congr (h : Linked next l) (hnext : ∀ p ∈ l, next' p = next p) :
    Linked next' l := by
  apply List.IsChain.imp_of_mem_imp _ h
  intro p q hp _ hpq
  rw [hnext p hp, hpq]

/-- What the last node points to does not matter. -/
theorem update_last [DecidableEq P] (h : Linked next l) (hnodup : l.Nodup)
    (hlast : l.getLast? = some p) (head : Option P) :
    Linked (Function.update next p head) l := by
  induction l with
  | nil => cases hlast
  | cons q l ih =>
      cases l with
      | nil => exact .singleton q
      | cons r l =>
          rw [List.getLast?_cons_cons] at hlast
          rw [List.nodup_cons] at hnodup
          obtain ⟨hqr, hrest⟩ := List.isChain_cons_cons.mp h
          have hne : q ≠ p := by
            rintro rfl
            exact hnodup.1 (List.mem_of_getLast? hlast)
          refine List.isChain_cons_cons.mpr ⟨?_, ih hrest hnodup.2 hlast⟩
          rw [Function.update_of_ne hne, hqr]

/-- The nodes stand before a chain that the last one points to. -/
theorem chain_append (h : Linked next l) (hlast : l.getLast? = some p)
    (h' : Chain next (next p) l') : Chain next l.head? (l ++ l') := by
  induction l with
  | nil => cases hlast
  | cons q l ih =>
      refine ⟨rfl, ?_⟩
      cases l with
      | nil =>
          obtain rfl : q = p := by simpa using hlast
          exact h'
      | cons r l =>
          rw [List.getLast?_cons_cons] at hlast
          obtain ⟨hqr, hrest⟩ := List.isChain_cons_cons.mp h
          rw [hqr]
          exact ih hrest hlast

end Linked

/-! ## Linking the nodes of a list -/

variable [DecidableEq P]

instance decidableChain (next : P → Option P) :
    (head : Option P) → (l : List P) → Decidable (Chain next head l)
  | head, [] => inferInstanceAs (Decidable (head = none))
  | head, p :: l =>
    have := decidableChain next (next p) l
    inferInstanceAs (Decidable (head = some p ∧ Chain next (next p) l))

instance (next : P → Option P) (l : List P) : Decidable (Linked next l) :=
  inferInstanceAs (Decidable (l.IsChain fun p q => next p = some q))

/-- Each node is made to point to the one that follows it. -/
def link (next : P → Option P) : List P → P → Option P
  | [] => next
  | [p] => Function.update next p none
  | p :: q :: l => link (Function.update next p (some q)) (q :: l)

theorem link_of_notMem (h : p ∉ l) : link next l p = next p := by
  induction l generalizing next with
  | nil => rfl
  | cons q l ih =>
      rw [List.mem_cons, not_or] at h
      cases l with
      | nil => exact Function.update_of_ne h.1 _ _
      | cons r l =>
          rw [link, ih h.2]
          exact Function.update_of_ne h.1 _ _

theorem chain_link (h : l.Nodup) : Chain (link next l) l.head? l := by
  induction l generalizing next with
  | nil => rfl
  | cons p l ih =>
      rw [List.nodup_cons] at h
      refine ⟨rfl, ?_⟩
      cases l with
      | nil => simp [link]
      | cons q l =>
          rw [link, link_of_notMem h.1, Function.update_self]
          exact ih h.2

end Fastbook.Support

import Mathlib.Data.List.Nodup
import Mathlib.Data.List.Perm.Basic
import Mathlib.Logic.Equiv.Defs
import Mathlib.Logic.Function.Basic

/-!
# Things kept in places

A placement says for every place which things are there.  It is exclusive if
nothing is in two places, or twice in one, and a partition if everything is
somewhere.
-/

namespace Fastbook.Support

variable {P β : Type*} {loc : P → List β} {p q : P} {l rest new : List β} {b : β}

structure Exclusive (loc : P → List β) : Prop where
  nodup : ∀ p, (loc p).Nodup
  eq_of_mem : ∀ {p q b}, b ∈ loc p → b ∈ loc q → p = q

namespace Exclusive

theorem count_eq_one [DecidableEq β] (h : Exclusive loc) (hb : b ∈ loc p) :
    (loc p).count b = 1 :=
  List.count_eq_one_of_mem (h.nodup p) hb

variable [DecidableEq P]

/-- Some of the things at `p` are taken to `q`. -/
def move (loc : P → List β) (p q : P) (rest new : List β) : P → List β :=
  Function.update (Function.update loc p rest) q new

theorem move_of_ne {r : P} (hp : r ≠ p) (hq : r ≠ q) :
    move loc p q rest new r = loc r := by
  rw [move, Function.update_of_ne hq, Function.update_of_ne hp]

theorem mem_move (hp : (loc p).Perm (l ++ rest)) (hq : new.Perm (l ++ loc q))
    {r : P} (hb : b ∈ move loc p q rest new r) :
    b ∈ loc r ∨ r = q ∧ b ∈ l := by
  unfold move at hb
  by_cases hrq : r = q
  · subst hrq
    rw [Function.update_self] at hb
    rcases List.mem_append.mp (hq.subset hb) with hb | hb
    · exact .inr ⟨rfl, hb⟩
    · exact .inl hb
  · rw [Function.update_of_ne hrq] at hb
    by_cases hrp : r = p
    · subst hrp
      rw [Function.update_self] at hb
      exact .inl (hp.symm.subset (List.mem_append_right _ hb))
    · rw [Function.update_of_ne hrp] at hb
      exact .inl hb

/-- What was somewhere is still there, or has gone from `p` to `q`. -/
theorem mem_move_of_mem (hpq : p ≠ q) (hp : (loc p).Perm (l ++ rest))
    (hq : new.Perm (l ++ loc q)) {r : P} (hb : b ∈ loc r) :
    b ∈ move loc p q rest new r ∨ r = p ∧ b ∈ move loc p q rest new q := by
  unfold move
  by_cases hrq : r = q
  · subst hrq
    rw [Function.update_self]
    exact .inl (hq.symm.subset (List.mem_append_right _ hb))
  · by_cases hrp : r = p
    · subst hrp
      rw [Function.update_of_ne hrq, Function.update_self, Function.update_self]
      rcases List.mem_append.mp (hp.subset hb) with hb | hb
      · exact .inr ⟨rfl, hq.symm.subset (List.mem_append_left _ hb)⟩
      · exact .inl hb
    · rw [Function.update_of_ne hrq, Function.update_of_ne hrp]
      exact .inl hb

theorem moved (h : Exclusive loc) (hpq : p ≠ q)
    (hp : (loc p).Perm (l ++ rest)) (hq : new.Perm (l ++ loc q)) :
    Exclusive (move loc p q rest new) := by
  have hsplit := List.nodup_append.mp ((hp.nodup_iff).mp (h.nodup p))
  have hfrom : ∀ {c}, c ∈ l → c ∈ loc p := fun hc =>
    hp.symm.subset (List.mem_append_left _ hc)
  -- what has been moved is at `q` only
  have honly : ∀ {r c}, c ∈ l → c ∈ move loc p q rest new r → r = q := by
    intro r c hc hr
    by_contra hrq
    unfold move at hr
    rw [Function.update_of_ne hrq] at hr
    by_cases hrp : r = p
    · subst hrp
      rw [Function.update_self] at hr
      exact hsplit.2.2 c hc c hr rfl
    · rw [Function.update_of_ne hrp] at hr
      exact hrp (h.eq_of_mem hr (hfrom hc))
  constructor
  · intro r
    unfold move
    by_cases hrq : r = q
    · subst hrq
      rw [Function.update_self, hq.nodup_iff, List.nodup_append]
      refine ⟨hsplit.1, h.nodup r, ?_⟩
      rintro a ha _ hb rfl
      exact hpq (h.eq_of_mem (hfrom ha) hb)
    · rw [Function.update_of_ne hrq]
      by_cases hrp : r = p
      · subst hrp
        rw [Function.update_self]
        exact hsplit.2.1
      · rw [Function.update_of_ne hrp]
        exact h.nodup r
  · intro r r' c hr hr'
    rcases mem_move hp hq hr with hc | ⟨rfl, hc⟩
    · rcases mem_move hp hq hr' with hc' | ⟨rfl, hc'⟩
      · exact h.eq_of_mem hc hc'
      · exact honly hc' hr
    · exact (honly hc hr').symm

/-- New things are put down at `q`. -/
theorem added (h : Exclusive loc) (hl : l.Nodup)
    (hfresh : ∀ b ∈ l, ∀ r, b ∉ loc r) (hq : new.Perm (l ++ loc q)) :
    Exclusive (Function.update loc q new) := by
  have hmem : ∀ {r b}, b ∈ Function.update loc q new r →
      b ∈ loc r ∨ r = q ∧ b ∈ l := by
    intro r b hb
    by_cases hrq : r = q
    · subst hrq
      rw [Function.update_self] at hb
      rcases List.mem_append.mp (hq.subset hb) with hb | hb
      · exact .inr ⟨rfl, hb⟩
      · exact .inl hb
    · rw [Function.update_of_ne hrq] at hb
      exact .inl hb
  constructor
  · intro r
    by_cases hrq : r = q
    · subst hrq
      rw [Function.update_self, hq.nodup_iff, List.nodup_append]
      refine ⟨hl, h.nodup r, ?_⟩
      rintro a ha _ hb rfl
      exact hfresh a ha r hb
    · rw [Function.update_of_ne hrq]
      exact h.nodup r
  · intro r r' b hr hr'
    rcases hmem hr with hb | ⟨rfl, hb⟩ <;> rcases hmem hr' with hb' | ⟨rfl, hb'⟩
    · exact h.eq_of_mem hb hb'
    · exact absurd hb (hfresh b hb' r)
    · exact absurd hb' (hfresh b hb r')
    · rfl

end Exclusive

/-- Everything is in exactly one place. -/
structure Partition (loc : P → List β) : Prop extends Exclusive loc where
  covered : ∀ b, ∃ p, b ∈ loc p

namespace Partition

theorem existsUnique_mem (h : Partition loc) (b : β) : ∃! p, b ∈ loc p := by
  obtain ⟨p, hp⟩ := h.covered b
  exact ⟨p, hp, fun q hq => h.eq_of_mem hq hp⟩

theorem moved [DecidableEq P] (h : Partition loc) (hpq : p ≠ q)
    (hp : (loc p).Perm (l ++ rest)) (hq : new.Perm (l ++ loc q)) :
    Partition (Exclusive.move loc p q rest new) := by
  refine ⟨h.toExclusive.moved hpq hp hq, ?_⟩
  intro b
  obtain ⟨r, hr⟩ := h.covered b
  rcases Exclusive.mem_move_of_mem hpq hp hq hr with hb | ⟨-, hb⟩
  · exact ⟨r, hb⟩
  · exact ⟨q, hb⟩

/-- The things at one place change their order. -/
theorem permuted [DecidableEq P] (h : Partition loc) (hq : new.Perm (loc q)) :
    Partition (Function.update loc q new) := by
  have hmem : ∀ {r b}, b ∈ Function.update loc q new r ↔ b ∈ loc r := by
    intro r b
    by_cases hrq : r = q
    · subst hrq
      rw [Function.update_self]
      exact hq.mem_iff
    · rw [Function.update_of_ne hrq]
  refine ⟨⟨?_, fun hr hr' => h.eq_of_mem (hmem.mp hr) (hmem.mp hr')⟩, ?_⟩
  · intro r
    by_cases hrq : r = q
    · subst hrq
      rw [Function.update_self]
      exact hq.nodup_iff.mpr (h.nodup r)
    · rw [Function.update_of_ne hrq]
      exact h.nodup r
  · intro b
    obtain ⟨r, hr⟩ := h.covered b
    exact ⟨r, hmem.mpr hr⟩

/-- The places change their names. -/
theorem relabeled (h : Partition loc) (e : P ≃ P) : Partition fun p => loc (e p) := by
  refine ⟨⟨fun p => h.nodup (e p), fun hp hq => e.injective (h.eq_of_mem hp hq)⟩, ?_⟩
  intro b
  obtain ⟨p, hp⟩ := h.covered b
  exact ⟨e.symm p, by rwa [e.apply_symm_apply]⟩

end Partition

end Fastbook.Support

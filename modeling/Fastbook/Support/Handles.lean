import Fastbook.Support.Placement
import Mathlib.Logic.Equiv.Basic

/-!
# Handles

Objects of a program that own one thing each or nothing, by their names.  A name
without an object is `none`, and an object that owns nothing, because it has been
moved from, is `some none`.  Moving exchanges what two of the objects own.
-/

namespace Fastbook.Support

variable {P H β : Type*}

/-- What the objects own after `name` and `other` have been given each other's
things. -/
theorem join_exchange {handles : ℕ → Option (Option H)} {name other : ℕ} {o o' : Option H}
    (hname : (handles name).join = o) (hother : (handles other).join = o') (n : ℕ) :
    (Function.update (Function.update handles other (some o)) name (some o') n).join =
      (handles (Equiv.swap name other n)).join := by
  by_cases hn : n = name
  · subst hn
    rw [Function.update_self, Equiv.swap_apply_left, hother, Option.join_some]
  · rw [Function.update_of_ne hn]
    by_cases hn' : n = other
    · subst hn'
      rw [Function.update_self, Equiv.swap_apply_right, hname, Option.join_some]
    · rw [Function.update_of_ne hn', Equiv.swap_apply_of_ne_of_ne hn hn']

/-- A new object takes what another one owns. -/
theorem join_construct {handles : ℕ → Option (Option H)} {name other : ℕ} {o : Option H}
    (hname : handles name = none) (hother : handles other = some o) (n : ℕ) :
    (Function.update (Function.update handles other (some none)) name (some o) n).join =
      (handles (Equiv.swap name other n)).join := by
  apply join_exchange
  · rw [hname, Option.join_none]
  · rw [hother, Option.join_some]

/-- Two objects exchange what they own. -/
theorem join_assign {handles : ℕ → Option (Option H)} {name rhs : ℕ} {o o' : Option H}
    (hname : handles name = some o) (hrhs : handles rhs = some o') (n : ℕ) :
    (Function.update (Function.update handles name (some o')) rhs (some o) n).join =
      (handles (Equiv.swap name rhs n)).join := by
  rw [Equiv.swap_comm]
  apply join_exchange
  · rw [hrhs, Option.join_some]
  · rw [hname, Option.join_some]

/-- The places of the objects are exchanged, and the other places are left alone. -/
theorem Partition.exchanged [DecidableEq P] {loc loc' : P → List β} (h : Partition loc)
    (place : ℕ → P) (name other : ℕ) (hinj : Function.Injective place)
    (hsame : ∀ p, (∀ n, p ≠ place n) → loc' p = loc p)
    (hplace : ∀ n, loc' (place n) = loc (place (Equiv.swap name other n))) :
    Partition loc' := by
  have hloc : loc' = fun p => loc (Equiv.swap (place name) (place other) p) := by
    funext p
    by_cases hp : ∃ n, p = place n
    · obtain ⟨n, rfl⟩ := hp
      rw [hplace, hinj.swap_apply]
    · push Not at hp
      rw [hsame p hp, Equiv.swap_apply_of_ne_of_ne (hp name) (hp other)]
  rw [hloc]
  exact h.relabeled _

end Fastbook.Support

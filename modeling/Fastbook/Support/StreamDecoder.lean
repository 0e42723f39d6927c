import Mathlib.Data.List.Basic

/-!
# Decoding a stream item by item

A `Decoder` takes the first item off a sequence of symbols, asks for more
symbols, or finds the sequence malformed once it has seen some number of
symbols.  What it found does not change when more symbols arrive, so decoding a
sequence can be split anywhere.
-/

namespace Fastbook.Support

variable {α β : Type*}

inductive DecodeStep (α β : Type*) where
  | item (a : α) (rest : List β)
  | needMore
  | malformed (seen : ℕ)

structure Decoder (α β : Type*) where
  step : List β → DecodeStep α β
  shrinks : ∀ {l a rest}, step l = .item a rest → rest.length < l.length
  item_append : ∀ {l a rest} (l' : List β), step l = .item a rest →
    step (l ++ l') = .item a (rest ++ l')
  malformed_append : ∀ {l n} (l' : List β), step l = .malformed n →
    step (l ++ l') = .malformed n
  malformed_le : ∀ {l n}, step l = .malformed n → n ≤ l.length
  needMore_item : ∀ {l l' : List β} {a rest}, step l = .needMore →
    step (l ++ l') = .item a rest → rest.length < l'.length
  needMore_malformed : ∀ {l l' : List β} {n}, step l = .needMore →
    step (l ++ l') = .malformed n → l.length < n

/-- How decoding ends: with symbols that are no whole item, or malformed after
some number of symbols. -/
inductive DecodeEnd (β : Type*) where
  | rest (l : List β)
  | malformed (seen : ℕ)
  deriving DecidableEq

def DecodeEnd.shift (k : ℕ) : DecodeEnd β → DecodeEnd β
  | .rest l => .rest l
  | .malformed n => .malformed (k + n)

theorem DecodeEnd.shift_zero (e : DecodeEnd β) : e.shift 0 = e := by
  cases e with
  | rest l => rfl
  | malformed n => simp [DecodeEnd.shift]

theorem DecodeEnd.shift_shift (j k : ℕ) (e : DecodeEnd β) :
    (e.shift k).shift j = e.shift (j + k) := by
  cases e with
  | rest l => rfl
  | malformed n => simp [DecodeEnd.shift, Nat.add_assoc]

namespace Decoder

def decode (d : Decoder α β) (l : List β) : List α × DecodeEnd β :=
  match h : d.step l with
  | .item a rest =>
    have := d.shrinks h
    (a :: (decode d rest).1, (decode d rest).2.shift (l.length - rest.length))
  | .needMore => ([], .rest l)
  | .malformed n => ([], .malformed n)
termination_by l.length

variable {d : Decoder α β} {l l' : List β}

theorem decode_of_item {a : α} {rest : List β} (h : d.step l = .item a rest) :
    d.decode l = (a :: (d.decode rest).1,
      (d.decode rest).2.shift (l.length - rest.length)) := by
  rw [decode]
  split
  · next a' rest' heq =>
    rw [h] at heq
    cases heq
    rfl
  · next heq =>
    rw [h] at heq
    cases heq
  · next n heq =>
    rw [h] at heq
    cases heq

theorem decode_of_needMore (h : d.step l = .needMore) :
    d.decode l = ([], .rest l) := by
  rw [decode]
  split
  · next a' rest' heq =>
    rw [h] at heq
    cases heq
  · rfl
  · next n heq =>
    rw [h] at heq
    cases heq

theorem decode_of_malformed {n : ℕ} (h : d.step l = .malformed n) :
    d.decode l = ([], .malformed n) := by
  rw [decode]
  split
  · next a' rest' heq =>
    rw [h] at heq
    cases heq
  · next heq =>
    rw [h] at heq
    cases heq
  · next n' heq =>
    rw [h] at heq
    cases heq
    rfl

/-- Induction along the items of a sequence. -/
theorem decode_induction (d : Decoder α β) {motive : List β → Prop}
    (item : ∀ l a rest, d.step l = .item a rest → motive rest → motive l)
    (needMore : ∀ l, d.step l = .needMore → motive l)
    (malformed : ∀ l n, d.step l = .malformed n → motive l) (l : List β) :
    motive l := by
  induction hn : l.length using Nat.strongRecOn generalizing l with
  | _ n ih =>
      cases h : d.step l with
      | item a rest =>
          have hlt := d.shrinks h
          exact item l a rest h (ih rest.length (hn ▸ hlt) rest rfl)
      | needMore => exact needMore l h
      | malformed k => exact malformed l k h

/-- What is left over at the end is no whole item, and no longer than the
sequence. -/
theorem step_of_decode_rest {as : List α} {s : List β}
    (h : d.decode l = (as, .rest s)) :
    d.step s = .needMore ∧ s.length ≤ l.length := by
  induction l using d.decode_induction generalizing as with
  | item l a rest hstep ih =>
      rw [decode_of_item hstep] at h
      cases hrest : d.decode rest with
      | mk as' e =>
          rw [hrest] at h
          cases e with
          | rest s' =>
              obtain ⟨-, hs⟩ := Prod.mk.inj h
              cases hs
              have hlt := d.shrinks hstep
              obtain ⟨hmore, hle⟩ := ih hrest
              exact ⟨hmore, by omega⟩
          | malformed n =>
              obtain ⟨-, hs⟩ := Prod.mk.inj h
              cases hs
  | needMore l hstep =>
      rw [decode_of_needMore hstep] at h
      cases h
      exact ⟨hstep, Nat.le_refl _⟩
  | malformed l n hstep =>
      rw [decode_of_malformed hstep] at h
      cases h

/-- Decoding can be cut: first one part, then what it left over followed by the
other part. -/
theorem decode_append_of_rest {as : List α} {s : List β}
    (h : d.decode l = (as, .rest s)) (l' : List β) :
    d.decode (l ++ l') = (as ++ (d.decode (s ++ l')).1,
      (d.decode (s ++ l')).2.shift (l.length - s.length)) := by
  induction l using d.decode_induction generalizing as with
  | item l a rest hstep ih =>
      have hlt := d.shrinks hstep
      rw [decode_of_item hstep] at h
      cases hrest : d.decode rest with
      | mk as' e =>
          rw [hrest] at h
          cases e with
          | rest s' =>
              obtain ⟨has, hs⟩ := Prod.mk.inj h
              cases hs
              subst has
              obtain ⟨-, hle⟩ := step_of_decode_rest hrest
              rw [decode_of_item (d.item_append l' hstep), ih hrest]
              simp only [List.cons_append, DecodeEnd.shift_shift,
                List.length_append]
              congr 2
              omega
          | malformed n =>
              obtain ⟨-, hs⟩ := Prod.mk.inj h
              cases hs
  | needMore l hstep =>
      rw [decode_of_needMore hstep] at h
      cases h
      rw [Nat.sub_self, DecodeEnd.shift_zero]
      rfl
  | malformed l n hstep =>
      rw [decode_of_malformed hstep] at h
      cases h

theorem decode_append_of_malformed {as : List α} {n : ℕ}
    (h : d.decode l = (as, .malformed n)) (l' : List β) :
    d.decode (l ++ l') = (as, .malformed n) := by
  induction l using d.decode_induction generalizing as n with
  | item l a rest hstep ih =>
      rw [decode_of_item hstep] at h
      cases hrest : d.decode rest with
      | mk as' e =>
          rw [hrest] at h
          cases e with
          | rest s' =>
              obtain ⟨-, hs⟩ := Prod.mk.inj h
              cases hs
          | malformed k =>
              obtain ⟨has, hs⟩ := Prod.mk.inj h
              cases hs
              subst has
              rw [decode_of_item (d.item_append l' hstep), ih hrest]
              simp only [DecodeEnd.shift, List.length_append]
              congr 2
              omega
  | needMore l hstep =>
      rw [decode_of_needMore hstep] at h
      cases h
  | malformed l k hstep =>
      rw [decode_of_malformed hstep] at h
      cases h
      exact decode_of_malformed (d.malformed_append l' hstep)

/-- The symbols that show the sequence to be malformed are in it. -/
theorem malformed_le_of_decode {as : List α} {n : ℕ}
    (h : d.decode l = (as, .malformed n)) : n ≤ l.length := by
  induction l using d.decode_induction generalizing as n with
  | item l a rest hstep ih =>
      have hlt := d.shrinks hstep
      rw [decode_of_item hstep] at h
      cases hrest : d.decode rest with
      | mk as' e =>
          rw [hrest] at h
          cases e with
          | rest s' =>
              obtain ⟨-, hs⟩ := Prod.mk.inj h
              cases hs
          | malformed k =>
              obtain ⟨-, hs⟩ := Prod.mk.inj h
              cases hs
              have hle := ih hrest
              omega
  | needMore l hstep =>
      rw [decode_of_needMore hstep] at h
      cases h
  | malformed l k hstep =>
      rw [decode_of_malformed hstep] at h
      cases h
      exact d.malformed_le hstep

/-- A sequence that asks for more was not malformed yet. -/
theorem lt_of_decode_malformed {s : List β} {as : List α} {n : ℕ}
    (hs : d.step s = .needMore) (h : d.decode (s ++ l) = (as, .malformed n)) :
    s.length < n := by
  cases hstep : d.step (s ++ l) with
  | item a rest =>
      have hlt := d.needMore_item hs hstep
      rw [decode_of_item hstep] at h
      cases hrest : d.decode rest with
      | mk as' e =>
          rw [hrest] at h
          cases e with
          | rest s' =>
              obtain ⟨-, heq⟩ := Prod.mk.inj h
              cases heq
          | malformed k =>
              obtain ⟨-, heq⟩ := Prod.mk.inj h
              cases heq
              rw [List.length_append]
              omega
  | needMore =>
      rw [decode_of_needMore hstep] at h
      cases h
  | malformed k =>
      rw [decode_of_malformed hstep] at h
      cases h
      exact d.needMore_malformed hs hstep

end Decoder

end Fastbook.Support

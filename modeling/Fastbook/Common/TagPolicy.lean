import Fastbook.Support.Bits
import Mathlib.Data.UInt

/-!
# Tag policies

How the head of a `TreiberStack` (`common/treiber_stack.hpp`) is packed with a tag
that changes with every update.  `PackedTag` keeps the tag in the low bits of the
address, which are zero for an aligned node, and `WideTag` beside the pointer.
-/

namespace Fastbook.TreiberStack

open Support

/-- A policy over the nodes `P`.  The null pointer is `none`.  The laws say that
packing keeps the pointer and the tag modulo `2 ^ bits`. -/
structure TagPolicy (P : Type) where
  Repr : Type
  [decEq : DecidableEq Repr]
  bits : ℕ
  ptr : Repr → Option P
  tag : Repr → UInt64
  pack : Option P → UInt64 → Repr
  bits_le : bits ≤ 64
  ptr_pack : ∀ p t, ptr (pack p t) = p
  tag_pack : ∀ p t, (tag (pack p t)).toNat = t.toNat % 2 ^ bits
  tag_lt : ∀ r, (tag r).toNat < 2 ^ bits

instance {P : Type} (policy : TagPolicy P) : DecidableEq policy.Repr :=
  policy.decEq

namespace TagPolicy

/-- Whether the stack has a `pop`. -/
def tagged {P : Type} (policy : TagPolicy P) : Bool :=
  0 < policy.bits

/-! ## `PackedTag` -/

section PackedTag

/-- `TAG_MASK`.  A shift by 64 bits or more is not defined. -/
def tagMask (tagBits : Fin 64) : UInt64 :=
  (1 <<< UInt64.ofNat tagBits) - 1

/-- A node, by its address, which is aligned. -/
@[ext]
structure Node (tagBits : Fin 64) where
  addr : UInt64
  ne_null : addr ≠ 0
  aligned : addr &&& tagMask tagBits = 0
  deriving DecidableEq

variable {tagBits : Fin 64}

theorem toNat_tagMask (tagBits : Fin 64) :
    (tagMask tagBits).toNat = 2 ^ (tagBits : ℕ) - 1 := by
  have hpow : 2 ^ (tagBits : ℕ) < 2 ^ 64 := Nat.pow_lt_pow_right (by decide) tagBits.2
  have hshift : ((1 : UInt64) <<< UInt64.ofNat tagBits).toNat = 2 ^ (tagBits : ℕ) := by
    have hbits : (tagBits : ℕ) % 2 ^ 64 % 64 = tagBits := by omega
    rw [UInt64.toNat_shiftLeft, UInt64.toNat_ofNat', hbits, UInt64.toNat_one,
      Nat.one_shiftLeft, Nat.mod_eq_of_lt hpow]
  have hle : (1 : UInt64) ≤ 1 <<< UInt64.ofNat tagBits := by
    rw [UInt64.le_iff_toNat_le, hshift]
    exact Nat.one_le_two_pow
  rw [tagMask, UInt64.toNat_sub_of_le _ _ hle, hshift, UInt64.toNat_one]

/-- The tag of a word is its remainder. -/
theorem toNat_and_tagMask (r : UInt64) :
    (r &&& tagMask tagBits).toNat = r.toNat % 2 ^ (tagBits : ℕ) := by
  rw [UInt64.toNat_and, toNat_tagMask, Nat.and_two_pow_sub_one_eq_mod]

theorem and_not_tagMask (r : UInt64) :
    r &&& ~~~tagMask tagBits &&& tagMask tagBits = 0 := by
  apply UInt64.toNat_inj.mp
  rw [toNat_and_tagMask, toNat_and_not (toNat_tagMask tagBits), Nat.mul_mod_left]
  rfl

/-- A word is the address and the tag that were packed. -/
theorem toNat_or_tag {a : UInt64} (ha : a &&& tagMask tagBits = 0) (t : UInt64) :
    (a ||| (t &&& tagMask tagBits)).toNat =
      2 ^ (tagBits : ℕ) * (a.toNat / 2 ^ (tagBits : ℕ)) +
        t.toNat % 2 ^ (tagBits : ℕ) := by
  have hmod : a.toNat % 2 ^ (tagBits : ℕ) = 0 := by
    rw [← toNat_and_tagMask, ha]
    rfl
  have hdiv : 2 ^ (tagBits : ℕ) * (a.toNat / 2 ^ (tagBits : ℕ)) = a.toNat :=
    Nat.mul_div_cancel' (Nat.dvd_of_mod_eq_zero hmod)
  have hlt : t.toNat % 2 ^ (tagBits : ℕ) < 2 ^ (tagBits : ℕ) :=
    Nat.mod_lt _ (Nat.two_pow_pos _)
  rw [Nat.two_pow_add_eq_or_of_lt hlt, hdiv, UInt64.toNat_or, toNat_and_tagMask]

/-- The address in a word, with the tag masked out. -/
def address (r : UInt64) : Option (Node tagBits) :=
  if h : r &&& ~~~tagMask tagBits = 0 then none
  else some ⟨r &&& ~~~tagMask tagBits, h, and_not_tagMask r⟩

/-- The word of a pointer. -/
def ofPtr : Option (Node tagBits) → UInt64
  | none => 0
  | some p => p.addr

theorem ofPtr_aligned (p : Option (Node tagBits)) :
    ofPtr p &&& tagMask tagBits = 0 := by
  cases p with
  | none => exact UInt64.zero_and
  | some p => exact p.aligned

theorem address_or_tag (p : Option (Node tagBits)) (t : UInt64) :
    address (ofPtr p ||| (t &&& tagMask tagBits)) = p := by
  have hword : (ofPtr p ||| (t &&& tagMask tagBits)) &&& ~~~tagMask tagBits =
      ofPtr p := by
    have halign := ofPtr_aligned p
    have hmod : (ofPtr p).toNat % 2 ^ (tagBits : ℕ) = 0 := by
      rw [← toNat_and_tagMask, halign]
      rfl
    apply UInt64.toNat_inj.mp
    rw [toNat_and_not (toNat_tagMask tagBits), toNat_or_tag halign,
      Nat.mul_add_div (Nat.two_pow_pos _),
      Nat.div_eq_of_lt (Nat.mod_lt _ (Nat.two_pow_pos _)), Nat.add_zero,
      Nat.div_mul_cancel (Nat.dvd_of_mod_eq_zero hmod)]
  unfold address
  cases p with
  | none =>
    have hzero : ofPtr (none : Option (Node tagBits)) = 0 := rfl
    rw [dif_pos (hword.trans hzero)]
  | some p =>
    have hne : ofPtr (some p) ≠ 0 := p.ne_null
    rw [dif_neg (by rw [hword]; exact hne)]
    exact congrArg some (Node.ext hword)

end PackedTag

def packedTag (tagBits : Fin 64) : TagPolicy (Node tagBits) where
  Repr := UInt64
  bits := tagBits
  ptr := address
  tag r := r &&& tagMask tagBits
  pack p t := ofPtr p ||| (t &&& tagMask tagBits)
  bits_le := tagBits.2.le
  ptr_pack := address_or_tag
  tag_pack p t := by
    rw [toNat_and_tagMask, toNat_or_tag (ofPtr_aligned p), Nat.mul_add_mod_self_left,
      Nat.mod_mod]
  tag_lt r := by
    rw [toNat_and_tagMask]
    exact Nat.mod_lt _ (Nat.two_pow_pos _)

/-- `Untagged` of `common/buffer_pool.hpp`. -/
def untagged : TagPolicy (Node 0) :=
  packedTag 0

def wideTag (P : Type) [DecidableEq P] : TagPolicy P where
  Repr := Option P × UInt64
  bits := 64
  ptr r := r.1
  tag r := r.2
  pack p t := (p, t)
  bits_le := le_rfl
  ptr_pack _ _ := rfl
  tag_pack _ t := (Nat.mod_eq_of_lt t.toNat_lt).symm
  tag_lt r := r.2.toNat_lt

end TagPolicy

end Fastbook.TreiberStack

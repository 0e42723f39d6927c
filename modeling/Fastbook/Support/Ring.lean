import Fastbook.Support.Cyclic
import Mathlib.Data.List.Nodup
import Mathlib.Logic.Function.Basic

/-!
# Descriptor rings

A ring of `size` slots between a producer and a consumer.  The two positions
only grow, and position `pos` has its entry in the slot `pos % size`.  A slot is
written again only after its entry has been released, so until then the entry
stays what it was.
-/

namespace Fastbook.Support

structure Ring (size : ℕ) (α : Type*) where
  slots : ℕ → α
  prod : ℕ := 0
  cons : ℕ := 0

namespace Ring

variable {size : ℕ} {α : Type*}

/-- The entry at a position. -/
def get (r : Ring size α) (pos : ℕ) : α :=
  r.slots (pos % size)

/-- How many entries may be produced before one is released. -/
def room (r : Ring size α) : ℕ :=
  r.cons + size - r.prod

def push (r : Ring size α) (x : α) : Ring size α :=
  { r with slots := Function.update r.slots (r.prod % size) x, prod := r.prod + 1 }

def release (r : Ring size α) (n : ℕ) : Ring size α :=
  { r with cons := r.cons + n }

/-- The entries from a position on. -/
def entries (r : Ring size α) (pos : ℕ) : List α :=
  (List.range' pos (r.prod - pos)).map r.get

variable {r : Ring size α} {x : α} {pos n : ℕ}

@[simp]
theorem push_prod : (r.push x).prod = r.prod + 1 :=
  rfl

@[simp]
theorem push_cons : (r.push x).cons = r.cons :=
  rfl

@[simp]
theorem release_prod : (r.release n).prod = r.prod :=
  rfl

@[simp]
theorem release_cons : (r.release n).cons = r.cons + n :=
  rfl

@[simp]
theorem release_get : (r.release n).get = r.get :=
  rfl

@[simp]
theorem release_entries : (r.release n).entries = r.entries :=
  rfl

theorem get_push_self : (r.push x).get r.prod = x := by
  simp [get, push]

/-- An entry that has not been released is not written over. -/
theorem get_push_of_lt (hroom : 0 < r.room) (hcons : r.cons ≤ pos) (hpos : pos < r.prod) :
    (r.push x).get pos = r.get pos := by
  unfold room at hroom
  have hne : pos % size ≠ r.prod % size := by
    intro heq
    have := eq_of_mod_eq hpos.le (by omega) heq
    omega
  simp [get, push, hne]

theorem length_entries : (r.entries pos).length = r.prod - pos := by
  simp [entries]

theorem entries_of_lt (h : pos < r.prod) :
    r.entries pos = r.get pos :: r.entries (pos + 1) := by
  have hlen : r.prod - pos = r.prod - (pos + 1) + 1 := by omega
  rw [entries, hlen, List.range'_succ, List.map_cons]
  rfl

theorem mem_entries : x ∈ r.entries pos ↔ ∃ j, pos ≤ j ∧ j < r.prod ∧ r.get j = x := by
  rw [entries, List.mem_map]
  constructor
  · rintro ⟨j, hj, hx⟩
    rw [List.mem_range'_1] at hj
    exact ⟨j, hj.1, by omega, hx⟩
  · rintro ⟨j, hle, hlt, hx⟩
    exact ⟨j, List.mem_range'_1.mpr ⟨hle, by omega⟩, hx⟩

theorem entries_push (hroom : 0 < r.room) (hcons : r.cons ≤ pos) (hpos : pos ≤ r.prod) :
    (r.push x).entries pos = r.entries pos ++ [x] := by
  have hlen : r.prod + 1 - pos = r.prod - pos + 1 := by omega
  have hlast : pos + 1 * (r.prod - pos) = r.prod := by omega
  rw [entries, push_prod, hlen, List.range'_concat, List.map_append, hlast,
    List.map_singleton, get_push_self, entries]
  congr 1
  refine List.map_congr_left fun j hj => ?_
  rw [List.mem_range'_1] at hj
  exact get_push_of_lt hroom (by omega) (by omega)

end Ring

end Fastbook.Support

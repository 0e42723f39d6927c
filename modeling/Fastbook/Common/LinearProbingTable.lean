import Fastbook.Common.Types
import Fastbook.Support.Bits
import Fastbook.Support.Cyclic
import Mathlib.Logic.Function.Basic

/-!
# The linear probing table

A model of `LinearProbingTable` (`common/linear_probing_table.hpp`).  The slot
array is a function from slot numbers to key and pointer; the template
arguments `Hash` and `Mode` are parameters of the type.  A stored pointer is a
`Cell`, so the two reserved pointer values (null and the tombstone marker) are
told apart from the values a caller may insert.

The `while` loop of the backward shift carries a bound on its iterations and
reports `Fault.diverge` when it is used up.
-/

namespace Fastbook

open Support

inductive EraseMode where
  | backwardShift
  | tombstone
  deriving DecidableEq, Repr

/-- A pointer as the table stores it: `nullptr`, the marker `1` of a deleted
slot, or a value of the caller. -/
inductive Cell (V : Type*) where
  | null
  | deleted
  | ptr (value : V)
  deriving DecidableEq, Repr

/-- `FibHash` on 64-bit keys. -/
def fibHash (key : UInt64) : UInt64 :=
  key * 0x9e3779b97f4a7c15

/-- `FibHash` on 32-bit keys: the key is widened before the multiplication. -/
def fibHash32 (key : UInt32) : UInt64 :=
  key.toUInt64 * 0x9e3779b97f4a7c15

structure LinearProbingTable (K V : Type*) (hash : K → UInt64)
    (mode : EraseMode) where
  data : ℕ → K × Cell V
  size : ℕ
  capacity : ℕ
  shift : ℕ

namespace LinearProbingTable

variable {K V : Type*} {hash : K → UInt64} {mode : EraseMode}

/-- The number of slots the constructor makes for the argument `capacity`:
`capacity << 1` in `size_t`. -/
def slotsFor (capacity : ℕ) : ℕ :=
  (capacity <<< 1) % 2 ^ 64

inductive CtorError where
  | badAlloc
  | runtimeError
  deriving DecidableEq, Repr

/-- The members of a newly constructed table. -/
def fresh [Inhabited K] (capacity : ℕ) : LinearProbingTable K V hash mode where
  data := fun _ => (default, .null)
  size := 0
  capacity := slotsFor capacity
  shift := 64 - countrZero 64 (slotsFor capacity)

/-- The constructor.  `alloc` says whether the slot array could be allocated;
the power-of-two check comes after the allocation. -/
def make [Inhabited K] (alloc : Bool) (capacity : ℕ) :
    Except CtorError (LinearProbingTable K V hash mode) :=
  if alloc = false then .error .badAlloc
  else if ¬capacity.isPowerOfTwo then .error .runtimeError
  else .ok (fresh capacity)

def getPos (t : LinearProbingTable K V hash mode) (key : K) : ℕ :=
  (hash key).toNat >>> t.shift

def isEmpty (t : LinearProbingTable K V hash mode) (slot : ℕ) : Bool :=
  match (t.data slot).2 with
  | .null => true
  | _ => false

def isDeleted (t : LinearProbingTable K V hash mode) (slot : ℕ) : Bool :=
  match (t.data slot).2 with
  | .deleted => true
  | _ => false

/-- `data_[slot] = entry`. -/
def store (t : LinearProbingTable K V hash mode) (slot : ℕ)
    (entry : K × Cell V) : LinearProbingTable K V hash mode :=
  { t with data := Function.update t.data slot entry }

def setEmpty (t : LinearProbingTable K V hash mode) (slot : ℕ) :
    LinearProbingTable K V hash mode :=
  t.store slot ((t.data slot).1, .null)

def setDeleted (t : LinearProbingTable K V hash mode) (slot : ℕ) :
    LinearProbingTable K V hash mode :=
  t.store slot ((t.data slot).1, .deleted)

variable [DecidableEq K]

/-- The probe loop of `find_key`, with `n` iterations left at index `i`. -/
def findKeyLoop (t : LinearProbingTable K V hash mode) (key : K)
    (pos : ℕ) : ℕ → ℕ → ℕ
  | 0, _ => t.capacity
  | n + 1, i =>
    let slot := (pos + i) &&& (t.capacity - 1)
    if t.isEmpty slot then t.capacity
    else if mode = .tombstone ∧ t.isDeleted slot then
      findKeyLoop t key pos n (i + 1)
    else if (t.data slot).1 = key then slot
    else findKeyLoop t key pos n (i + 1)

/-- The slot of `key`, or `capacity_` when the key is absent. -/
def findKey (t : LinearProbingTable K V hash mode) (key : K) : ℕ :=
  t.findKeyLoop key (t.getPos key) t.capacity 0

/-- `data_[slot] = {key, value}; size_++`. -/
def occupy (t : LinearProbingTable K V hash mode) (slot : ℕ) (key : K)
    (value : V) : LinearProbingTable K V hash mode :=
  { t.store slot (key, .ptr value) with size := t.size + 1 }

/-- The probe loop of `insert`, with `n` iterations left at index `i`. -/
def insertLoop (t : LinearProbingTable K V hash mode) (key : K) (value : V)
    (pos : ℕ) : ℕ → ℕ → ℕ → Bool × LinearProbingTable K V hash mode
  | 0, _, firstDeleted =>
    if firstDeleted ≠ t.capacity then (true, t.occupy firstDeleted key value)
    else (false, t)
  | n + 1, i, firstDeleted =>
    let slot := (pos + i) &&& (t.capacity - 1)
    if mode = .tombstone ∧ t.isDeleted slot then
      insertLoop t key value pos n (i + 1)
        (if firstDeleted = t.capacity then slot else firstDeleted)
    else if t.isEmpty slot then
      (true, t.occupy
        (if firstDeleted ≠ t.capacity then firstDeleted else slot) key value)
    else if (t.data slot).1 = key then (false, t)
    else insertLoop t key value pos n (i + 1) firstDeleted

def insert (t : LinearProbingTable K V hash mode) (key : K) (value : V) :
    Bool × LinearProbingTable K V hash mode :=
  t.insertLoop key value (t.getPos key) t.capacity 0 t.capacity

/-- `find`: the pointer bound to the key, `none` for `nullptr`. -/
def find (t : LinearProbingTable K V hash mode) (key : K) : Option V :=
  let pos := t.findKey key
  if pos = t.capacity then none
  else
    match (t.data pos).2 with
    | .ptr value => some value
    | _ => none

omit [DecidableEq K] in
/-- The `while` loop of `erase`, with at most `fuel` iterations. -/
def shiftBack (t : LinearProbingTable K V hash mode) :
    ℕ → ℕ → ℕ → Except Fault (LinearProbingTable K V hash mode)
  | 0, _, _ => .error .diverge
  | fuel + 1, empty, current =>
    let mask := t.capacity - 1
    if t.isEmpty current then .ok t
    else
      let wanted := t.getPos (t.data current).1
      let stepsWc := subU64 current wanted &&& mask
      let stepsWe := subU64 empty wanted &&& mask
      if stepsWc > stepsWe then
        shiftBack ((t.store empty (t.data current)).setEmpty current) fuel
          current ((current + 1) &&& mask)
      else shiftBack t fuel empty ((current + 1) &&& mask)

/-- A bound on the iterations of `shiftBack` that is never reached. -/
def shiftBound (t : LinearProbingTable K V hash mode) : ℕ :=
  t.capacity * t.capacity * t.capacity + t.capacity + 1

def erase (t : LinearProbingTable K V hash mode) (key : K) :
    Except Fault (Bool × LinearProbingTable K V hash mode) :=
  let pos := t.findKey key
  if pos = t.capacity then .ok (false, t)
  else
    let t' := { t with size := t.size - 1 }
    if mode = .tombstone then .ok (true, t'.setDeleted pos)
    else
      match (t'.setEmpty pos).shiftBack t'.shiftBound pos
          ((pos + 1) &&& (t.capacity - 1)) with
      | .ok t'' => .ok (true, t'')
      | .error e => .error e

/-- The copying loop of `rehash`, over the slots in `slots`. -/
def rehashInto (t new : LinearProbingTable K V hash mode) (slots : List ℕ) :
    LinearProbingTable K V hash mode :=
  slots.foldl (fun new i =>
    match t.data i with
    | (key, .ptr value) => (new.insert key value).2
    | _ => new) new

omit [DecidableEq K] in
/-- The three `std::swap`s at the end of `rehash`: `size_` and the hash are
kept. -/
def swapStorage (t new : LinearProbingTable K V hash mode) :
    LinearProbingTable K V hash mode :=
  { t with data := new.data, capacity := new.capacity, shift := new.shift }

/-- `rehash`.  A `std::bad_alloc` is caught and reported as `false`; the
`std::runtime_error` of a capacity that is no power of two leaves a `noexcept`
function and terminates the process. -/
def rehash [Inhabited K] (t : LinearProbingTable K V hash mode) (alloc : Bool)
    (newCapacity : ℕ) :
    Except Fault (Bool × LinearProbingTable K V hash mode) :=
  match (make alloc newCapacity :
      Except CtorError (LinearProbingTable K V hash mode)) with
  | .error .badAlloc => .ok (false, t)
  | .error .runtimeError => .error .terminate
  | .ok fresh =>
    .ok (true, t.swapStorage (t.rehashInto fresh (List.range t.capacity)))

end LinearProbingTable

end Fastbook

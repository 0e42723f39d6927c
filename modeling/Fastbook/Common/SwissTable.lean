import Fastbook.Common.LinearProbingTable
import Fastbook.Common.SwissGroup

/-!
# The Swiss table

A model of `SwissTable` (`common/swiss_table.hpp`).  The control bytes and the
slots are functions from their indices; there are `capacity_ + WIDTH` control
bytes, of which the last `WIDTH` repeat the first ones, so that a group can be
loaded at any slot.  The template arguments `Hash` and `G` are parameters of
the type.

The probe loops of the source have no bound.  Here they carry as many
iterations as the table has windows and report `Fault.diverge` when these are
used up.
-/

namespace Fastbook

open Support Swiss

structure SwissTable (K V : Type*) (hash : K → UInt64) (G : Group) where
  ctrl : ℕ → UInt8
  data : ℕ → K × V
  size : ℕ
  capacity : ℕ
  growthLeft : ℕ
  shift : ℕ

namespace SwissTable

structure HashResult where
  h1 : ℕ
  h2 : UInt8
  deriving DecidableEq, Repr

def growthFor (capacity : ℕ) : ℕ :=
  capacity - capacity / 8

def firstLane (G : Group) (m : ℕ) : ℕ :=
  countrZero (G.width * G.laneBits) m / G.laneBits

def lastLanesClear (G : Group) (m : ℕ) : ℕ :=
  countlZero (G.width * G.laneBits) m / G.laneBits

variable {K V : Type*} {hash : K → UInt64} {G : Group}

def mask (t : SwissTable K V hash G) : ℕ :=
  t.capacity - 1

def ctrlAt (t : SwissTable K V hash G) (pos : ℕ) : ℕ → UInt8 :=
  fun i => t.ctrl (pos + i)

/-- The member function `hash`. -/
def hashKey (t : SwissTable K V hash G) (key : K) : HashResult where
  h1 := (hash key).toNat >>> t.shift
  h2 := UInt8.ofNat ((hash key).toNat >>> (t.shift - 7) &&& 0x7F)

def copyIndex (t : SwissTable K V hash G) (pos : ℕ) : ℕ :=
  if pos < G.width then t.capacity + pos else pos

/-- `ctrl_[pos] = b; ctrl_[copy_index(pos)] = b`. -/
def setCtrl (t : SwissTable K V hash G) (pos : ℕ) (b : UInt8) :
    SwissTable K V hash G :=
  { t with
    ctrl := Function.update (Function.update t.ctrl pos b) (t.copyIndex pos) b }

/-! ## Probing -/

/-- How many windows a probe looks at before it is given up. -/
def probeBound (t : SwissTable K V hash G) : ℕ :=
  t.capacity / G.width

section Find

variable [DecidableEq K]

/-- The loop of `find_index` over the lanes of one window that are flagged in
the mask `m`. -/
def matchLoop (t : SwissTable K V hash G) (key : K) (pos m : ℕ) : Option ℕ :=
  if m = 0 then none
  else
    let idx := (pos + firstLane G m) &&& t.mask
    if (t.data idx).1 = key then some idx
    else t.matchLoop key pos (m &&& (m - 1))
  termination_by m
  decreasing_by exact and_pred_lt ‹_›

/-- The loop of `find_index` over the windows. -/
def findIndexLoop (t : SwissTable K V hash G) (key : K) (h2 : UInt8) :
    ℕ → ℕ → ℕ → Except Fault (Option ℕ)
  | 0, _, _ => .error .diverge
  | n + 1, pos, stride =>
    match t.matchLoop key pos (G.matchByte (t.ctrlAt pos) h2) with
    | some idx => .ok (some idx)
    | none =>
      if G.matchEmpty (t.ctrlAt pos) ≠ 0 then .ok none
      else
        findIndexLoop t key h2 n ((pos + (stride + G.width)) &&& t.mask)
          (stride + G.width)

def findIndex (t : SwissTable K V hash G) (key : K) (h : HashResult) :
    Except Fault (Option ℕ) :=
  t.findIndexLoop key h.h2 t.probeBound h.h1 0

end Find

def prepareInsertLoop (t : SwissTable K V hash G) :
    ℕ → ℕ → ℕ → Except Fault ℕ
  | 0, _, _ => .error .diverge
  | n + 1, pos, stride =>
    let m := G.matchEmptyOrDeleted (t.ctrlAt pos)
    if m ≠ 0 then .ok ((pos + firstLane G m) &&& t.mask)
    else
      prepareInsertLoop t n ((pos + (stride + G.width)) &&& t.mask)
        (stride + G.width)

def prepareInsert (t : SwissTable K V hash G) (h : HashResult) :
    Except Fault ℕ :=
  t.prepareInsertLoop t.probeBound h.h1 0

def findOrPrepareInsert [DecidableEq K] (t : SwissTable K V hash G) (key : K)
    (h : HashResult) : Except Fault (Bool × ℕ) :=
  match t.findIndex key h with
  | .error e => .error e
  | .ok (some idx) => .ok (true, idx)
  | .ok none =>
    match t.prepareInsert h with
    | .error e => .error e
    | .ok pos => .ok (false, pos)

def place (t : SwissTable K V hash G) (pos : ℕ) (h : HashResult)
    (value : K × V) : SwissTable K V hash G :=
  { t.setCtrl pos (Control.setFull h.h2) with
    growthLeft :=
      if t.ctrl pos = Control.empty then subU64 t.growthLeft 1
      else t.growthLeft
    data := Function.update t.data pos value
    size := t.size + 1 }

/-! ## Construction -/

/-- What the allocator grants when a table asks for the two arrays of `n`
slots.  Their control bytes alone would not fit into a 57-bit address space for
more than `2 ^ 57` slots. -/
structure Allocator where
  grants : ℕ → Bool
  bounded : ∀ n, 2 ^ 57 < n → grants n = false

section Construction

variable [Inhabited K] [Inhabited V]

/-- The members of a newly constructed table: `make_prefaulted_array` value
constructs the elements, and a control byte is `EMPTY` by default. -/
def fresh (capacity : ℕ) : SwissTable K V hash G where
  ctrl := fun _ => Control.empty
  data := fun _ => default
  size := 0
  capacity := capacity
  growthLeft := growthFor capacity
  shift := 64 - countrZero 64 capacity

/-- The constructor; the arrays are allocated before the capacity is checked. -/
def make (alloc : Allocator) (capacity : ℕ) :
    Except LinearProbingTable.CtorError (SwissTable K V hash G) :=
  if alloc.grants capacity = false then .error .badAlloc
  else if ¬capacity.isPowerOfTwo ∨ capacity < G.width then .error .runtimeError
  else .ok (fresh capacity)

omit [Inhabited K] [Inhabited V] in
/-- The copying loop of `rehash`, over the slots in `slots`. -/
def rehashInto (t new : SwissTable K V hash G) :
    List ℕ → Except Fault (SwissTable K V hash G)
  | [] => .ok new
  | i :: slots =>
    if Control.isFull (t.ctrl i) then
      let h := new.hashKey (t.data i).1
      match new.prepareInsert h with
      | .error e => .error e
      | .ok pos => rehashInto t (new.place pos h (t.data i)) slots
    else rehashInto t new slots

/-- `rehash`.  Both exceptions of the constructor are caught; otherwise all
members are swapped with those of the new table. -/
def rehash (t : SwissTable K V hash G) (alloc : Allocator)
    (newCapacity : ℕ) : Except Fault (Bool × SwissTable K V hash G) :=
  match (make alloc newCapacity :
      Except LinearProbingTable.CtorError (SwissTable K V hash G)) with
  | .error _ => .ok (false, t)
  | .ok new =>
    match t.rehashInto new (List.range t.capacity) with
    | .error e => .error e
    | .ok new => .ok (true, new)

end Construction

/-! ## The public functions -/

/-- The capacity that `insert` rehashes to: the present one when many of the
used slots are deleted ones, else twice as many. -/
def rehashCapacity (t : SwissTable K V hash G) : ℕ :=
  if t.size * 32 % 2 ^ 64 ≤ t.capacity * 25 % 2 ^ 64 then t.capacity
  else t.capacity * 2 % 2 ^ 64

variable [DecidableEq K]

def insert [Inhabited K] [Inhabited V] (t : SwissTable K V hash G)
    (alloc : Allocator) (key : K) (val : V) :
    Except Fault (Bool × SwissTable K V hash G) :=
  match t.findOrPrepareInsert key (t.hashKey key) with
  | .error e => .error e
  | .ok (true, _) => .ok (false, t)
  | .ok (false, insertPos) =>
    if t.growthLeft = 0 ∧ t.ctrl insertPos = Control.empty then
      match t.rehash alloc t.rehashCapacity with
      | .error e => .error e
      | .ok (false, t') => .ok (false, t')
      | .ok (true, t') =>
        match t'.prepareInsert (t'.hashKey key) with
        | .error e => .error e
        | .ok insertPos =>
          .ok (true, t'.place insertPos (t'.hashKey key) (key, val))
    else .ok (true, t.place insertPos (t.hashKey key) (key, val))

def find (t : SwissTable K V hash G) (key : K) : Except Fault (Option V) :=
  match t.findIndex key (t.hashKey key) with
  | .error e => .error e
  | .ok none => .ok none
  | .ok (some idx) => .ok (some (t.data idx).2)

omit [DecidableEq K] in
/-- Whether `erase` may mark the slot `EMPTY`: every window over it has another
empty slot. -/
def neverInFullWindow (t : SwissTable K V hash G) (pos : ℕ) : Bool :=
  let emptyAfter := G.matchEmpty (t.ctrlAt pos)
  let emptyBefore := G.matchEmpty (t.ctrlAt (subU64 pos G.width &&& t.mask))
  emptyBefore ≠ 0 ∧ emptyAfter ≠ 0 ∧
    firstLane G emptyAfter + lastLanesClear G emptyBefore < G.width

def erase (t : SwissTable K V hash G) (key : K) :
    Except Fault (Bool × SwissTable K V hash G) :=
  match t.findIndex key (t.hashKey key) with
  | .error e => .error e
  | .ok none => .ok (false, t)
  | .ok (some pos) =>
    let t := { t with size := t.size - 1 }
    if t.neverInFullWindow pos then
      .ok (true, { t.setCtrl pos Control.empty with
        growthLeft := t.growthLeft + 1 })
    else .ok (true, t.setCtrl pos Control.deleted)

end SwissTable

end Fastbook

import Fastbook.Common.Types
import Mathlib.Data.List.Basic

/-!
# The two-tier price levels

A model of `TwoTierLevels` (`orderbook/two_tier_levels.hpp`).  The hot tier is
a list of `K` slots, each with a price (or the sentinel `EMPTY`) and its level
data; the cold tier is the list of the first `size` entries of the two cold
arrays, which the source always shifts together.  A pointer to level data is
the location of the level.

`std::lower_bound` and `std::upper_bound` are the partition points of the
sorted cold prices.
-/

namespace Fastbook

/-- The address of an order object. -/
abbrev OrderPtr := ℕ

/-- `LevelData`: the ends of the order queue of a level and its quantity. -/
structure LevelData where
  head : Option OrderPtr := none
  tail : Option OrderPtr := none
  totalQty : UInt64 := 0
  deriving DecidableEq, Repr, Inhabited

/-- `EMPTY`: the price of an unused hot slot. -/
def emptyPrice : Side → UInt32
  | .bid => 0
  | .ask => 0xFFFFFFFF

def bestPossible : Side → UInt32
  | .bid => 0xFFFFFFFF
  | .ask => 0

def better : Side → UInt32 → UInt32 → Bool
  | .bid, a, b => decide (a > b)
  | .ask, a, b => decide (a < b)

/-- `comp_t`: the order of the cold prices, from worst to best. -/
def comp : Side → UInt32 → UInt32 → Bool
  | .bid, a, b => decide (a < b)
  | .ask, a, b => decide (a > b)

/-- The result of `find_idx`, which is also what a pointer to level data
amounts to. -/
inductive Loc where
  | none
  | hot (idx : ℕ)
  | cold (idx : ℕ)
  deriving DecidableEq, Repr

structure TwoTierLevels (side : Side) (K coldCap : ℕ) where
  hot : List (UInt32 × LevelData)
  bestPrice : UInt32
  bestIdx : ℕ
  cold : List (UInt32 × LevelData)
  deriving DecidableEq, Repr

namespace TwoTierLevels

variable {side : Side} {K coldCap : ℕ}

/-- The constructor. -/
def fresh : TwoTierLevels side K coldCap where
  hot := List.replicate K (emptyPrice side, {})
  bestPrice := emptyPrice side
  bestIdx := 0
  cold := []

def lowerBound (side : Side) (cold : List (UInt32 × LevelData))
    (price : UInt32) : ℕ :=
  cold.findIdx fun e => !comp side e.1 price

def upperBound (side : Side) (cold : List (UInt32 × LevelData))
    (price : UInt32) : ℕ :=
  cold.findIdx fun e => comp side price e.1

def findIdx (t : TwoTierLevels side K coldCap) (price : UInt32) : Loc :=
  match t.hot.findIdx? fun e => e.1 = price with
  | some i => .hot i
  | none =>
    let it := lowerBound side t.cold price
    match t.cold[it]? with
    | none => .none
    | some e => if e.1 ≠ price then .none else .cold it

/-- The level data at a location. -/
def get (t : TwoTierLevels side K coldCap) : Loc → Option LevelData
  | .none => none
  | .hot i => t.hot[i]?.map Prod.snd
  | .cold i => t.cold[i]?.map Prod.snd

/-- A write through a pointer to level data. -/
def put (t : TwoTierLevels side K coldCap) (loc : Loc) (data : LevelData) :
    TwoTierLevels side K coldCap :=
  match loc with
  | .none => t
  | .hot i => { t with hot := t.hot.modify i fun e => (e.1, data) }
  | .cold i => { t with cold := t.cold.modify i fun e => (e.1, data) }

/-- The scan over the hot prices that `belongs_to_hot` and `erase` share: keep
the first price that no later one is preferred to, and its index. -/
def scan (prefer : UInt32 → UInt32 → Bool) :
    List (UInt32 × LevelData) → ℕ → UInt32 × ℕ → UInt32 × ℕ
  | [], _, acc => acc
  | e :: l, i, acc =>
    scan prefer l (i + 1) (if prefer e.1 acc.1 then (e.1, i) else acc)

/-- `belongs_to_hot`: the worst hot slot, and whether `price` beats it. -/
def belongsToHot (t : TwoTierLevels side K coldCap) (price : UInt32) :
    Bool × ℕ :=
  let (worst, idx) :=
    scan (fun p worst => better side worst p) t.hot 0 (bestPossible side, 0)
  (better side price worst, idx)

/-- `insert_to_cold`: the index of the inserted level, unless the cold tier is
full. -/
def insertToCold (t : TwoTierLevels side K coldCap) (price : UInt32)
    (data : LevelData) : Option (ℕ × TwoTierLevels side K coldCap) :=
  if t.cold.length ≥ coldCap then none
  else
    let diff := upperBound side t.cold price
    some (diff, { t with cold := t.cold.insertIdx diff (price, data) })

/-- The end of `find_or_insert`: the new level takes hot slot `idx`. -/
def placeHot (t : TwoTierLevels side K coldCap) (price : UInt32) (idx : ℕ) :
    TwoTierLevels side K coldCap :=
  let isBetter := better side price t.bestPrice
  { t with
    hot := t.hot.set idx (price, {})
    bestPrice := if isBetter then price else t.bestPrice
    bestIdx := if isBetter then idx else t.bestIdx }

/-- `find_or_insert`: the location of the level of `price`; `Loc.none` when a
new level has no room. -/
def findOrInsert (t : TwoTierLevels side K coldCap) (price : UInt32) :
    Loc × TwoTierLevels side K coldCap :=
  match t.findIdx price with
  | .none =>
    let (found, idx) := t.belongsToHot price
    if found = false then
      match t.insertToCold price {} with
      | none => (.none, t)
      | some (i, t') => (.cold i, t')
    else
      match t.hot[idx]? with
      | none => (.none, t)
      | some (levelPrice, levelData) =>
        if levelPrice ≠ emptyPrice side then
          match t.insertToCold levelPrice levelData with
          | none => (.none, t)
          | some (_, t') => (.hot idx, t'.placeHot price idx)
        else (.hot idx, t.placeHot price idx)
  | loc => (loc, t)

/-- The slot of an erased hot level is refilled with the best cold level, or
marked unused. -/
def refill (t : TwoTierLevels side K coldCap) (idx : ℕ) :
    TwoTierLevels side K coldCap :=
  match t.cold.getLast? with
  | some e => { t with hot := t.hot.set idx e, cold := t.cold.dropLast }
  | none => { t with hot := t.hot.modify idx fun e => (emptyPrice side, e.2) }

def erase (t : TwoTierLevels side K coldCap) (price : UInt32) :
    TwoTierLevels side K coldCap :=
  match t.findIdx price with
  | .none => t
  | .hot i =>
    let t' := t.refill i
    if i = t.bestIdx then
      let (newBest, newBestIdx) :=
        scan (fun p best => better side p best) t'.hot 0 (emptyPrice side, 0)
      { t' with bestPrice := newBest, bestIdx := newBestIdx }
    else t'
  | .cold i => { t with cold := t.cold.eraseIdx i }

/-- `best`: a pointer to the level of the best price. -/
def best (t : TwoTierLevels side K coldCap) : Loc :=
  if t.bestPrice = emptyPrice side then .none else .hot t.bestIdx

end TwoTierLevels

end Fastbook

import Fastbook.OrderBook.OrderBook
import Mathlib.Data.Finset.Card
import Mathlib.Data.List.AList

/-!
# The price-time reference book

What an order book is for: a finite map from live order ids to side, price and
remaining shares, and for every side and price the queue of live order ids in
the order in which they were accepted.  `PriceTimeBook.call` is the reference
for the public operations of `OrderBook`.
-/

namespace Fastbook

/-- What the reference knows of a live order. -/
structure Resting where
  side : Side
  price : UInt32
  shares : UInt32
  deriving DecidableEq, Repr

def Order.resting (o : Order) : Resting :=
  ⟨o.side, o.price, o.shares⟩

structure PriceTimeBook where
  orders : AList fun _ : Oid => Resting
  queue : Side → UInt32 → List Oid

namespace PriceTimeBook

def empty : PriceTimeBook where
  orders := ∅
  queue := fun _ _ => []

/-- The prices with a level on a side: those of its live orders. -/
def prices (r : PriceTimeBook) (side : Side) : Finset UInt32 :=
  ((r.orders.entries.filter fun e => e.2.side = side).map
    fun e => e.2.price).toFinset

def setQueue (r : PriceTimeBook) (side : Side) (price : UInt32)
    (l : List Oid) : PriceTimeBook :=
  { r with
    queue := Function.update r.queue side
      (Function.update (r.queue side) price l) }

@[simp] theorem setQueue_queue_self (r : PriceTimeBook) (side : Side)
    (price : UInt32) (l : List Oid) :
    (r.setQueue side price l).queue side price = l := by
  simp [setQueue]

theorem setQueue_queue_of_ne (r : PriceTimeBook) {side side' : Side}
    {price price' : UInt32} (l : List Oid)
    (h : ¬(side' = side ∧ price' = price)) :
    (r.setQueue side price l).queue side' price' = r.queue side' price' := by
  by_cases hside : side' = side
  · subst hside
    have hprice : price' ≠ price := fun heq => h ⟨rfl, heq⟩
    simp [setQueue, hprice]
  · simp [setQueue, hside]

def addOrder (maxLevels : ℕ) (r : PriceTimeBook) (oid : Oid)
    (shares price : UInt32) (side : Side) :
    Except AddOrderError Unit × PriceTimeBook :=
  if oid ∈ r.orders then (.error .duplicateOrderId, r)
  else if price ∉ r.prices side ∧ maxLevels ≤ (r.prices side).card then
    (.error .levelsFull, r)
  else
    (.ok (), { r.setQueue side price (r.queue side price ++ [oid]) with
      orders := r.orders.insert oid ⟨side, price, shares⟩ })

def cancelOrder (r : PriceTimeBook) (oid : Oid) : Bool × PriceTimeBook :=
  match r.orders.lookup oid with
  | none => (false, r)
  | some o =>
    (true, { r.setQueue o.side o.price ((r.queue o.side o.price).erase oid) with
      orders := r.orders.erase oid })

/-- Filling at least the remaining shares removes the order; a smaller fill
keeps its place in the queue. -/
def executeOrder (r : PriceTimeBook) (oid : Oid) (shares : UInt32) :
    Bool × PriceTimeBook :=
  match r.orders.lookup oid with
  | none => (false, r)
  | some o =>
    if o.shares ≤ shares then r.cancelOrder oid
    else
      (true, { r with
        orders := r.orders.insert oid { o with shares := o.shares - shares } })

end PriceTimeBook

/-- A call of one of the operations that change a book. -/
inductive BookCall where
  | add (oid : Oid) (shares price : UInt32) (side : Side)
  | cancel (oid : Oid)
  | execute (oid : Oid) (shares : UInt32)
  | reduce (oid : Oid) (shares : UInt32)
  deriving DecidableEq, Repr

inductive BookAnswer where
  | added (result : Except AddOrderError Unit)
  | flag (b : Bool)

namespace BookCall

/-- The call does not use the sentinel price of its side. -/
def Priced : BookCall → Prop
  | .add _ _ price side => price ≠ emptyPrice side
  | _ => True

instance : (c : BookCall) → Decidable c.Priced
  | .add _ _ _ _ => inferInstanceAs (Decidable (_ ≠ _))
  | .cancel _ => inferInstanceAs (Decidable True)
  | .execute _ _ => inferInstanceAs (Decidable True)
  | .reduce _ _ => inferInstanceAs (Decidable True)

end BookCall

def PriceTimeBook.call (maxLevels : ℕ) (r : PriceTimeBook) :
    BookCall → BookAnswer × PriceTimeBook
  | .add oid shares price side =>
    let (result, r') := r.addOrder maxLevels oid shares price side
    (.added result, r')
  | .cancel oid =>
    let (b, r') := r.cancelOrder oid
    (.flag b, r')
  | .execute oid shares =>
    let (b, r') := r.executeOrder oid shares
    (.flag b, r')
  | .reduce oid shares =>
    let (b, r') := r.executeOrder oid shares
    (.flag b, r')

def PriceTimeBook.calls (maxLevels : ℕ) (r : PriceTimeBook) :
    List BookCall → List BookAnswer × PriceTimeBook
  | [] => ([], r)
  | c :: cs =>
    let (a, r₁) := r.call maxLevels c
    let (as, r₂) := r₁.calls maxLevels cs
    (a :: as, r₂)

namespace OrderBook

variable {K coldCap : ℕ}

/-- One call, with memory for `grow` at hand. -/
def call (b : OrderBook K coldCap) :
    BookCall → Except Fault (BookAnswer × OrderBook K coldCap)
  | .add oid shares price side =>
    (b.addOrder .available oid shares price side).map
      fun (result, b') => (.added result, b')
  | .cancel oid => (b.cancelOrder oid).map fun (r, b') => (.flag r, b')
  | .execute oid shares =>
    (b.executeOrder oid shares).map fun (r, b') => (.flag r, b')
  | .reduce oid shares =>
    (b.reduceOrder oid shares).map fun (r, b') => (.flag r, b')

def calls (b : OrderBook K coldCap) :
    List BookCall → Except Fault (List BookAnswer × OrderBook K coldCap)
  | [] => .ok ([], b)
  | c :: cs =>
    match b.call c with
    | .error e => .error e
    | .ok (a, b₁) =>
      match b₁.calls cs with
      | .error e => .error e
      | .ok (as, b₂) => .ok (a :: as, b₂)

end OrderBook

end Fastbook

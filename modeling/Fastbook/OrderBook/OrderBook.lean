import Fastbook.Common.LinearProbingTable
import Fastbook.OrderBook.TwoTierLevels
import Fastbook.Support.LinkedList

/-!
# The order book

A model of `OrderBook` (`orderbook/order_book.hpp`) and of the `ObjectPool` its
orders come from.  Order objects are numbered in the order in which the pool
creates them and their number is their address; `mem` holds the contents of
every object.  The level queues are intrusive lists in `mem`.

`max_orders_` is a 32-bit member, so growing past `2^31` orders wraps it.
Where the source dereferences a pointer that is null the model faults.
-/

namespace Fastbook

structure Order where
  orderNum : Oid := 0
  shares : UInt32 := 0
  price : UInt32 := 0
  side : Side := .bid
  next : Option OrderPtr := none
  prev : Option OrderPtr := none
  deriving DecidableEq, Repr, Inhabited

/-- `ObjectPool`: the stack of free objects, its top first. -/
structure ObjectPool where
  free : List OrderPtr
  capacity : ℕ
  deriving DecidableEq, Repr

namespace ObjectPool

/-- The constructor hands out low indices first. -/
def fresh (n : ℕ) : ObjectPool where
  free := List.range n
  capacity := n

def get (pool : ObjectPool) : Option (OrderPtr × ObjectPool) :=
  match pool.free with
  | [] => none
  | obj :: free => some (obj, { pool with free })

def restore (pool : ObjectPool) (obj : OrderPtr) : ObjectPool :=
  { pool with free := obj :: pool.free }

/-- `add_chunk`: the objects of the chunk go on the stack one by one. -/
def addChunk (pool : ObjectPool) (n : ℕ) : ObjectPool where
  free := (List.range' pool.capacity n).reverse ++ pool.free
  capacity := pool.capacity + n

end ObjectPool

/-- Which of the allocations of `grow` succeed: the chunk, the free list of the
pool and the slots of the table. -/
structure GrowMemory where
  chunk : Bool
  freeList : Bool
  table : Bool
  deriving DecidableEq, Repr

def GrowMemory.available : GrowMemory :=
  ⟨true, true, true⟩

inductive AddOrderError where
  | duplicateOrderId
  | levelsFull
  deriving DecidableEq, Repr

def maxOrdersInit : UInt32 :=
  4096

structure OrderBook (K coldCap : ℕ) where
  bids : TwoTierLevels .bid K coldCap
  asks : TwoTierLevels .ask K coldCap
  maxOrders : UInt32
  ordersOp : ObjectPool
  orders : LinearProbingTable Oid OrderPtr fibHash .backwardShift
  mem : OrderPtr → Order

namespace OrderBook

variable {K coldCap : ℕ}

def fresh : OrderBook K coldCap where
  bids := .fresh
  asks := .fresh
  maxOrders := maxOrdersInit
  ordersOp := .fresh maxOrdersInit.toNat
  orders := .fresh maxOrdersInit.toNat
  mem := fun _ => {}

def levels (b : OrderBook K coldCap) :
    (side : Side) → TwoTierLevels side K coldCap
  | .bid => b.bids
  | .ask => b.asks

def setLevels (b : OrderBook K coldCap) :
    (side : Side) → TwoTierLevels side K coldCap → OrderBook K coldCap
  | .bid, t => { b with bids := t }
  | .ask, t => { b with asks := t }

/-- A write through a pointer to an order. -/
def setOrder (b : OrderBook K coldCap) (p : OrderPtr) (o : Order) :
    OrderBook K coldCap :=
  { b with mem := Function.update b.mem p o }

def setNext (b : OrderBook K coldCap) (p : OrderPtr) (q : Option OrderPtr) :
    OrderBook K coldCap :=
  b.setOrder p { b.mem p with next := q }

def setPrev (b : OrderBook K coldCap) (p : OrderPtr) (q : Option OrderPtr) :
    OrderBook K coldCap :=
  b.setOrder p { b.mem p with prev := q }

def setLevel (b : OrderBook K coldCap) (side : Side) (loc : Loc)
    (data : LevelData) : OrderBook K coldCap :=
  b.setLevels side ((b.levels side).put loc data)

/-- `grow`.  The sum `max_orders_ + n` is computed in `size_t`, the assignment
to `max_orders_` keeps its low 32 bits. -/
def grow (memory : GrowMemory) (b : OrderBook K coldCap) :
    Except Fault (Bool × OrderBook K coldCap) :=
  let n := b.maxOrders.toNat
  if memory.chunk = false then .ok (false, b)
  else if memory.freeList = false then .ok (false, b)
  else
    let b' := { b with ordersOp := b.ordersOp.addChunk n }
    match b.orders.rehash memory.table (b.maxOrders.toNat + n) with
    | .error e => .error e
    | .ok (false, _) => .ok (false, b')
    | .ok (true, orders) =>
      .ok (true, { b' with
        orders
        maxOrders := UInt32.ofNat (b.maxOrders.toNat + n) })

/-- `find_level`. -/
def findLevel (b : OrderBook K coldCap) (side : Side) (price : UInt32) : Loc :=
  (b.levels side).findIdx price

def findOrInsertLevel (b : OrderBook K coldCap) (side : Side)
    (price : UInt32) : Loc × OrderBook K coldCap :=
  let (loc, t) := (b.levels side).findOrInsert price
  (loc, b.setLevels side t)

def eraseLevel (b : OrderBook K coldCap) (side : Side) (price : UInt32) :
    OrderBook K coldCap :=
  b.setLevels side ((b.levels side).erase price)

/-- The new order becomes the tail of the queue of its level. -/
def linkTail (b : OrderBook K coldCap) (order : OrderPtr) (level : LevelData) :
    Except Fault (OrderBook K coldCap) :=
  match level.head with
  | none => .ok b
  | some _ =>
    match level.tail with
    | none => .error .nullDeref
    | some tail => .ok ((b.setNext tail (some order)).setPrev order (some tail))

def addToPriceQueue (b : OrderBook K coldCap) (order : OrderPtr) :
    Except Fault (Bool × OrderBook K coldCap) :=
  let side := (b.mem order).side
  let (loc, b₁) := b.findOrInsertLevel side (b.mem order).price
  match (b₁.levels side).get loc with
  | none => .ok (false, b₁)
  | some level =>
    match b₁.linkTail order level with
    | .error e => .error e
    | .ok b₂ =>
      .ok (true, b₂.setLevel side loc {
        head := level.head.or (some order)
        tail := some order
        totalQty := level.totalQty + (b₂.mem order).shares.toUInt64 })

/-- The first `if` of `remove_from_price_queue`. -/
def unlinkPrev (b : OrderBook K coldCap) (order : OrderPtr)
    (level : LevelData) : LevelData × OrderBook K coldCap :=
  match (b.mem order).prev with
  | some p => (level, b.setNext p (b.mem order).next)
  | none => ({ level with head := (b.mem order).next }, b)

/-- The second `if` of `remove_from_price_queue`. -/
def unlinkNext (b : OrderBook K coldCap) (order : OrderPtr)
    (level : LevelData) : LevelData × OrderBook K coldCap :=
  match (b.mem order).next with
  | some p => (level, b.setPrev p (b.mem order).prev)
  | none => ({ level with tail := (b.mem order).prev }, b)

def removeFromPriceQueue (b : OrderBook K coldCap) (order : OrderPtr) :
    Bool × OrderBook K coldCap :=
  let side := (b.mem order).side
  let price := (b.mem order).price
  let loc := b.findLevel side price
  match (b.levels side).get loc with
  | none => (false, b)
  | some level =>
    let (level₁, b₁) := b.unlinkPrev order level
    let (level₂, b₂) := b₁.unlinkNext order level₁
    let b₃ := b₂.setLevel side loc { level₂ with
      totalQty := level₂.totalQty - (b₂.mem order).shares.toUInt64 }
    match level₂.head with
    | none => (true, b₃.eraseLevel side price)
    | some _ => (true, b₃)

/-- `orders_op_.get()`, growing the pool first when it is empty. -/
def newOrder (memory : GrowMemory) (b : OrderBook K coldCap) :
    Except Fault (OrderPtr × OrderBook K coldCap) :=
  match b.ordersOp.get with
  | some (order, pool) => .ok (order, { b with ordersOp := pool })
  | none =>
    match b.grow memory with
    | .error e => .error e
    | .ok (false, _) => .error .terminate
    | .ok (true, b') =>
      match b'.ordersOp.get with
      | none => .error .nullDeref
      | some (order, pool) => .ok (order, { b' with ordersOp := pool })

def addOrder (memory : GrowMemory) (b : OrderBook K coldCap) (oid : Oid)
    (shares price : UInt32) (side : Side) :
    Except Fault (Except AddOrderError Unit × OrderBook K coldCap) :=
  match b.orders.find oid with
  | some _ => .ok (.error .duplicateOrderId, b)
  | none =>
    match b.newOrder memory with
    | .error e => .error e
    | .ok (order, b₁) =>
      let b₂ := b₁.setOrder order {
        orderNum := oid, shares, price, side, next := none, prev := none }
      match b₂.addToPriceQueue order with
      | .error e => .error e
      | .ok (false, b₃) =>
        .ok (.error .levelsFull,
          { b₃ with ordersOp := b₃.ordersOp.restore order })
      | .ok (true, b₃) =>
        .ok (.ok (), { b₃ with orders := (b₃.orders.insert oid order).2 })

def cancelOrder (b : OrderBook K coldCap) (oid : Oid) :
    Except Fault (Bool × OrderBook K coldCap) :=
  match b.orders.find oid with
  | none => .ok (false, b)
  | some order =>
    match b.removeFromPriceQueue order with
    | (false, b₁) => .ok (false, b₁)
    | (true, b₁) =>
      match b₁.orders.erase oid with
      | .error e => .error e
      | .ok (_, orders) =>
        .ok (true, { b₁ with
          orders
          ordersOp := b₁.ordersOp.restore order })

def executeOrder (b : OrderBook K coldCap) (oid : Oid)
    (executedShares : UInt32) : Except Fault (Bool × OrderBook K coldCap) :=
  match b.orders.find oid with
  | none => .ok (false, b)
  | some order =>
    if executedShares ≥ (b.mem order).shares then b.cancelOrder oid
    else
      let side := (b.mem order).side
      let loc := b.findLevel side (b.mem order).price
      let b₁ := b.setOrder order { b.mem order with
        shares := (b.mem order).shares - executedShares }
      match (b₁.levels side).get loc with
      | none => .error .nullDeref
      | some level =>
        .ok (true, b₁.setLevel side loc { level with
          totalQty := level.totalQty - executedShares.toUInt64 })

def reduceOrder (b : OrderBook K coldCap) (oid : Oid)
    (cancelledShares : UInt32) : Except Fault (Bool × OrderBook K coldCap) :=
  b.executeOrder oid cancelledShares

def getOrderByOid (b : OrderBook K coldCap) (oid : Oid) : Option OrderPtr :=
  b.orders.find oid

def getFirstOrder (b : OrderBook K coldCap) (side : Side) (price : UInt32) :
    Option OrderPtr :=
  match (b.levels side).get (b.findLevel side price) with
  | none => none
  | some level => level.head

def bestPrice (b : OrderBook K coldCap) (side : Side) : UInt32 :=
  (b.levels side).bestPrice

end OrderBook

end Fastbook

import Fastbook.Common.LinearProbingMap
import Fastbook.OrderBook.OrderBook
import Fastbook.OrderBook.TwoTierLevelsMap
import Mathlib.Data.UInt

/-!
# The invariant of the order book

The parts of a book are tied together by two ghost values: `live`, the map from
live order ids to order objects, and `nodes`, the list of order objects queued
at every side and price.

* `LevelsHold`: every level has the ends and the quantity of its list of nodes,
  and only prices with nodes have a level;
* `QueuesHold`: the nodes are chained in memory, and they are exactly the live
  objects of their side and price;
* `StoreHolds`: the id table represents `live`; the free objects, the objects
  held by a running call and the live objects are all objects of the pool; the
  sizes of pool and table are powers of two that fit `max_orders_`.
-/

namespace Fastbook

open Support

/-- The quantity of a list of order objects, as the level adds it up. -/
def quantity (mem : OrderPtr → Order) (l : List OrderPtr) : UInt64 :=
  (l.map fun p => (mem p).shares.toUInt64).sum

/-- The level data of a queue; an empty queue has no level. -/
def levelOf (mem : OrderPtr → Order) : List OrderPtr → Option LevelData
  | [] => none
  | p :: l => some {
      head := some p
      tail := (p :: l).getLast?
      totalQty := quantity mem (p :: l) }

abbrev Nodes := Side → UInt32 → List OrderPtr

/-- The nodes after the queue at `side` and `price` has changed to `l`. -/
def Nodes.set (nodes : Nodes) (side : Side) (price : UInt32)
    (l : List OrderPtr) : Nodes :=
  Function.update nodes side (Function.update (nodes side) price l)

abbrev LiveMap := AList fun _ : Oid => OrderPtr

structure QueuesHold (mem : OrderPtr → Order) (live : LiveMap)
    (nodes : Nodes) : Prop where
  chained : ∀ side price, Segment (fun p => (mem p).next)
    (fun p => (mem p).prev) none none (nodes side price)
  nodup : ∀ side price, (nodes side price).Nodup
  mem_iff : ∀ side price p, p ∈ nodes side price ↔
    live.lookup (mem p).orderNum = some p ∧ (mem p).side = side ∧
      (mem p).price = price
  numbered : ∀ oid p, live.lookup oid = some p → (mem p).orderNum = oid

namespace OrderBook

variable {K coldCap : ℕ}

def LevelsHold (b : OrderBook K coldCap) (nodes : Nodes) : Prop :=
  ∀ side, ∃ m, (b.levels side).Represents m ∧
    ∀ price, m.lookup price = levelOf b.mem (nodes side price)

structure StoreHolds (b : OrderBook K coldCap) (live : LiveMap)
    (held : List OrderPtr) : Prop where
  table : b.orders.Represents live
  partition : (b.ordersOp.free ++ (held ++ live.entries.map Sigma.snd)).Perm
    (List.range b.ordersOp.capacity)
  sizes : ∃ e, 12 ≤ e ∧ e ≤ 32 ∧ b.ordersOp.capacity = 2 ^ e ∧
    b.maxOrders = UInt32.ofNat (2 ^ e) ∧ b.orders.capacity = 2 ^ (e + 1)

/-- The whole invariant. -/
structure Consistent (b : OrderBook K coldCap) (live : LiveMap)
    (nodes : Nodes) (held : List OrderPtr) : Prop where
  levels : b.LevelsHold nodes
  queues : QueuesHold b.mem live nodes
  store : b.StoreHolds live held

end OrderBook

theorem Nodes.set_self (nodes : Nodes) (side : Side) (price : UInt32)
    (l : List OrderPtr) : nodes.set side price l side price = l := by
  simp [Nodes.set]

theorem Nodes.set_same (nodes : Nodes) (side : Side) (price : UInt32) :
    nodes.set side price (nodes side price) = nodes := by
  simp [Nodes.set]

theorem Nodes.set_of_ne (nodes : Nodes) {side side' : Side}
    {price price' : UInt32} (l : List OrderPtr)
    (h : ¬(side' = side ∧ price' = price)) :
    nodes.set side price l side' price' = nodes side' price' := by
  unfold Nodes.set
  by_cases hside : side' = side
  · subst hside
    have hprice : price' ≠ price := fun heq => h ⟨rfl, heq⟩
    simp [hprice]
  · simp [hside]

theorem quantity_append (mem : OrderPtr → Order) (l₁ l₂ : List OrderPtr) :
    quantity mem (l₁ ++ l₂) = quantity mem l₁ + quantity mem l₂ := by
  induction l₁ with
  | nil => simp [quantity]
  | cons p l₁ ih =>
      simp only [quantity, List.cons_append, List.map_cons, List.sum_cons]
        at ih ⊢
      rw [ih, UInt64.add_assoc]

theorem quantity_cons (mem : OrderPtr → Order) (p : OrderPtr)
    (l : List OrderPtr) :
    quantity mem (p :: l) = (mem p).shares.toUInt64 + quantity mem l := by
  simp [quantity]

theorem quantity_congr {mem mem' : OrderPtr → Order} {l : List OrderPtr}
    (h : ∀ p ∈ l, (mem' p).shares = (mem p).shares) :
    quantity mem' l = quantity mem l := by
  unfold quantity
  congr 1
  apply List.map_congr_left
  intro p hp
  rw [h p hp]

theorem levelOf_eq {mem : OrderPtr → Order} {l : List OrderPtr} (h : l ≠ []) :
    levelOf mem l = some {
      head := l.head?
      tail := l.getLast?
      totalQty := quantity mem l } := by
  cases l with
  | nil => exact absurd rfl h
  | cons p l => rfl

theorem levelOf_congr {mem mem' : OrderPtr → Order} {l : List OrderPtr}
    (h : ∀ p ∈ l, (mem' p).shares = (mem p).shares) :
    levelOf mem' l = levelOf mem l := by
  have hqty := quantity_congr h
  cases l with
  | nil => rfl
  | cons p l => rw [levelOf_eq (by simp), levelOf_eq (by simp), hqty]

/-! ## The queues -/

section Queues

variable {mem mem' : OrderPtr → Order} {live : LiveMap} {nodes : Nodes}
  {oid : Oid} {p : OrderPtr}

theorem QueuesHold.live_of_mem (h : QueuesHold mem live nodes) {side : Side}
    {price : UInt32} (hp : p ∈ nodes side price) :
    live.lookup (mem p).orderNum = some p :=
  ((h.mem_iff side price p).mp hp).1

theorem QueuesHold.mem_of_live (h : QueuesHold mem live nodes)
    (hlive : live.lookup oid = some p) :
    p ∈ nodes (mem p).side (mem p).price := by
  rw [h.mem_iff, h.numbered oid p hlive]
  exact ⟨hlive, rfl, rfl⟩

/-- A queued object other than `p` has another id. -/
theorem QueuesHold.orderNum_ne (h : QueuesHold mem live nodes) {side : Side}
    {price : UInt32} {q : OrderPtr} (hlive : live.lookup oid = some p)
    (hq : q ∈ nodes side price) (hne : q ≠ p) : (mem q).orderNum ≠ oid := by
  intro heq
  have hqlive := h.live_of_mem hq
  rw [heq, hlive] at hqlive
  cases hqlive
  exact hne rfl

/-- Overwriting an object that is not live. -/
theorem QueuesHold.update (h : QueuesHold mem live nodes) (o : Order)
    (hp : ∀ oid, live.lookup oid ≠ some p) :
    QueuesHold (Function.update mem p o) live nodes := by
  have hne : ∀ side price q, q ∈ nodes side price → q ≠ p := by
    rintro side price q hq rfl
    exact hp _ (h.live_of_mem hq)
  refine ⟨?_, h.nodup, ?_, ?_⟩
  · intro side price
    apply (h.chained side price).congr
    · intro q hq
      simp [hne side price q hq]
    · intro q hq
      simp [hne side price q hq]
  · intro side price q
    by_cases hq : q = p
    · subst hq
      constructor
      · intro hmem
        exact absurd rfl (hne side price q hmem)
      · rintro ⟨hlookup, -⟩
        exact absurd hlookup (hp _)
    · rw [h.mem_iff, Function.update_of_ne hq]
  · intro oid q hq
    have hqp : q ≠ p := by
      rintro rfl
      exact hp _ hq
    rw [Function.update_of_ne hqp]
    exact h.numbered oid q hq

/-- The memory after `order` has become the tail of the queue `l`. -/
def linkedTail (mem : OrderPtr → Order) (order : OrderPtr)
    (l : List OrderPtr) : OrderPtr → Order :=
  fun p => { mem p with
    next := if l.getLast? = some p then some order else (mem p).next
    prev := if p = order then l.getLast? else (mem p).prev }

/-- The memory after the node between `l₁` and `l₂` has been unlinked. -/
def unlinked (mem : OrderPtr → Order) (l₁ l₂ : List OrderPtr) :
    OrderPtr → Order :=
  fun p => { mem p with
    next := if l₁.getLast? = some p then l₂.head? else (mem p).next
    prev := if l₂.head? = some p then l₁.getLast? else (mem p).prev }

/-- A queue other than that of `p` shares no object with it. -/
theorem QueuesHold.not_mem_of_ne (h : QueuesHold mem live nodes) {side : Side}
    {price : UInt32} {q : OrderPtr}
    (hat : ¬(side = (mem p).side ∧ price = (mem p).price))
    (hq : q ∈ nodes side price) : q ∉ nodes (mem p).side (mem p).price := by
  intro hin
  rw [h.mem_iff] at hq hin
  exact hat ⟨hq.2.1.symm.trans hin.2.1, hq.2.2.symm.trans hin.2.2⟩

/-- The queues are chained after a new object has become the tail of one. -/
theorem QueuesHold.chained_linkedTail (h : QueuesHold mem live nodes)
    (hnot : ∀ side price, p ∉ nodes side price) (hnext : (mem p).next = none)
    (side : Side) (price : UInt32) :
    Segment
      (fun q => (linkedTail mem p (nodes (mem p).side (mem p).price) q).next)
      (fun q => (linkedTail mem p (nodes (mem p).side (mem p).price) q).prev)
      none none
      (nodes.set (mem p).side (mem p).price
        (nodes (mem p).side (mem p).price ++ [p]) side price) := by
  set l := nodes (mem p).side (mem p).price with hl
  have hne : ∀ side price q, q ∈ nodes side price → q ≠ p := by
    rintro side price q hq rfl
    exact hnot side price hq
  by_cases hat : side = (mem p).side ∧ price = (mem p).price
  · obtain ⟨rfl, rfl⟩ := hat
    rw [Nodes.set_self]
    apply (h.chained _ _).append_node (h.nodup _ _)
    · intro q hq hlast
      simp [linkedTail, hl, hlast]
    · intro q hq hlast
      simp [linkedTail, hl, hlast]
    · intro q hq
      simp [linkedTail, hne _ _ q hq]
    · simp [linkedTail, hl]
    · have hlast : l.getLast? ≠ some p := fun heq =>
        hnot _ _ (List.mem_of_getLast? heq)
      simp [linkedTail, hlast, hnext]
  · rw [Nodes.set_of_ne _ _ hat]
    -- the tail of `l` is in no other queue
    have hother : ∀ q ∈ nodes side price, l.getLast? ≠ some q :=
      fun q hq heq => h.not_mem_of_ne hat hq (List.mem_of_getLast? heq)
    apply (h.chained side price).congr
    · intro q hq
      simp [linkedTail, hother q hq]
    · intro q hq
      simp [linkedTail, hne _ _ q hq]

/-- Appending a new object to the queue of its side and price makes it live. -/
theorem QueuesHold.append (h : QueuesHold mem live nodes)
    (hnew : live.lookup oid = none) (hp : ∀ oid, live.lookup oid ≠ some p)
    (hoid : (mem p).orderNum = oid) (hnext : (mem p).next = none) :
    QueuesHold (linkedTail mem p (nodes (mem p).side (mem p).price))
      (live.insert oid p)
      (nodes.set (mem p).side (mem p).price
        (nodes (mem p).side (mem p).price ++ [p])) := by
  have hnot : ∀ side price, p ∉ nodes side price := by
    intro side price hmem
    exact hp _ (h.live_of_mem hmem)
  refine ⟨h.chained_linkedTail hnot hnext, ?_, ?_, ?_⟩
  · intro side price
    by_cases hat : side = (mem p).side ∧ price = (mem p).price
    · obtain ⟨rfl, rfl⟩ := hat
      rw [Nodes.set_self]
      apply (h.nodup _ _).append (by simp)
      simpa using hnot _ _
    · rw [Nodes.set_of_ne _ _ hat]
      exact h.nodup side price
  · intro side price q
    change _ ↔ (live.insert oid p).lookup (mem q).orderNum = some q ∧
      (mem q).side = side ∧ (mem q).price = price
    by_cases hq : q = p
    · subst hq
      by_cases hat : side = (mem q).side ∧ price = (mem q).price
      · obtain ⟨rfl, rfl⟩ := hat
        rw [Nodes.set_self, hoid, AList.lookup_insert]
        simp
      · rw [Nodes.set_of_ne _ _ hat]
        constructor
        · intro hmem
          exact absurd hmem (hnot _ _)
        · rintro ⟨-, hside, hprice⟩
          exact absurd ⟨hside.symm, hprice.symm⟩ hat
    · rw [lookup_insert_eq_some_iff hnew hq]
      by_cases hat : side = (mem p).side ∧ price = (mem p).price
      · obtain ⟨rfl, rfl⟩ := hat
        rw [Nodes.set_self, List.mem_append, List.mem_singleton, h.mem_iff]
        simp [hq]
      · rw [Nodes.set_of_ne _ _ hat, h.mem_iff]
  · intro oid' q hq
    change (mem q).orderNum = oid'
    by_cases hsame : oid' = oid
    · subst hsame
      rw [AList.lookup_insert] at hq
      cases hq
      exact hoid
    · rw [AList.lookup_insert_ne hsame] at hq
      exact h.numbered oid' q hq

/-- The queues are chained after an object has been unlinked from its own. -/
theorem QueuesHold.chained_unlinked (h : QueuesHold mem live nodes)
    {l₁ l₂ : List OrderPtr}
    (hsplit : nodes (mem p).side (mem p).price = l₁ ++ p :: l₂)
    (side : Side) (price : UInt32) :
    Segment (fun q => (unlinked mem l₁ l₂ q).next)
      (fun q => (unlinked mem l₁ l₂ q).prev) none none
      (nodes.set (mem p).side (mem p).price (l₁ ++ l₂) side price) := by
  by_cases hat : side = (mem p).side ∧ price = (mem p).price
  · obtain ⟨rfl, rfl⟩ := hat
    have hchain := h.chained (mem p).side (mem p).price
    have hnodup := h.nodup (mem p).side (mem p).price
    rw [hsplit] at hchain hnodup
    rw [Nodes.set_self]
    exact hchain.remove_node hnodup (fun q _ => rfl) (fun q _ => rfl)
  · rw [Nodes.set_of_ne _ _ hat]
    -- the neighbours of `p` are in no other queue
    have hother : ∀ q ∈ nodes side price, q ∉ l₁ ++ p :: l₂ := by
      intro q hq
      rw [← hsplit]
      exact h.not_mem_of_ne hat hq
    apply (h.chained side price).congr
    · intro q hq
      have hne : l₁.getLast? ≠ some q := fun heq =>
        hother q hq (List.mem_append_left _ (List.mem_of_getLast? heq))
      simp [unlinked, hne]
    · intro q hq
      have hne : l₂.head? ≠ some q := fun heq =>
        hother q hq (List.mem_append_right _
          (List.mem_cons_of_mem _ (List.mem_of_head? heq)))
      simp [unlinked, hne]

/-- Unlinking a live object from its queue. -/
theorem QueuesHold.remove (h : QueuesHold mem live nodes)
    (hlive : live.lookup oid = some p) {l₁ l₂ : List OrderPtr}
    (hsplit : nodes (mem p).side (mem p).price = l₁ ++ p :: l₂) :
    QueuesHold (unlinked mem l₁ l₂) (live.erase oid)
      (nodes.set (mem p).side (mem p).price (l₁ ++ l₂)) := by
  have hoid := h.numbered oid p hlive
  have hnodup := h.nodup (mem p).side (mem p).price
  rw [hsplit] at hnodup
  have hperm : (l₁ ++ p :: l₂).Perm (p :: (l₁ ++ l₂)) := List.perm_middle
  have hrest := List.nodup_cons.mp (hperm.nodup_iff.mp hnodup)
  refine ⟨h.chained_unlinked hsplit, ?_, ?_, ?_⟩
  · intro side price
    by_cases hat : side = (mem p).side ∧ price = (mem p).price
    · obtain ⟨rfl, rfl⟩ := hat
      rw [Nodes.set_self]
      exact hrest.2
    · rw [Nodes.set_of_ne _ _ hat]
      exact h.nodup side price
  · intro side price q
    change _ ↔ (live.erase oid).lookup (mem q).orderNum = some q ∧
      (mem q).side = side ∧ (mem q).price = price
    rw [lookup_erase_eq_some_iff hlive
      fun oid' hlookup => (h.numbered oid' p hlookup).symm.trans hoid]
    by_cases hat : side = (mem p).side ∧ price = (mem p).price
    · obtain ⟨rfl, rfl⟩ := hat
      have hiff := h.mem_iff (mem p).side (mem p).price q
      rw [hsplit, hperm.mem_iff, List.mem_cons] at hiff
      rw [Nodes.set_self]
      constructor
      · intro hin
        have hne : q ≠ p := by
          rintro rfl
          exact hrest.1 hin
        obtain ⟨hlookup, hfields⟩ := hiff.mp (Or.inr hin)
        exact ⟨⟨hlookup, hne⟩, hfields⟩
      · rintro ⟨⟨hlookup, hne⟩, hfields⟩
        exact (hiff.mpr ⟨hlookup, hfields⟩).resolve_left hne
    · rw [Nodes.set_of_ne _ _ hat, h.mem_iff]
      constructor
      · rintro ⟨hlookup, hside, hprice⟩
        refine ⟨⟨hlookup, ?_⟩, hside, hprice⟩
        rintro rfl
        exact hat ⟨hside.symm, hprice.symm⟩
      · rintro ⟨⟨hlookup, -⟩, hfields⟩
        exact ⟨hlookup, hfields⟩
  · intro oid' q hq
    change (mem q).orderNum = oid'
    by_cases hsame : oid' = oid
    · subst hsame
      rw [AList.lookup_erase] at hq
      cases hq
    · rw [AList.lookup_erase_ne hsame] at hq
      exact h.numbered oid' q hq

/-- The queues do not depend on the shares. -/
theorem QueuesHold.setShares (h : QueuesHold mem live nodes) (p : OrderPtr)
    (shares : UInt32) :
    QueuesHold (Function.update mem p { mem p with shares }) live nodes := by
  have hsame : ∀ q, ∃ s, Function.update mem p { mem p with shares } q =
      { mem q with shares := s } := by
    intro q
    by_cases hq : q = p
    · subst hq
      exact ⟨shares, by simp⟩
    · exact ⟨(mem q).shares, by simp [hq]⟩
  refine ⟨?_, h.nodup, ?_, ?_⟩
  · intro side price
    apply (h.chained side price).congr
    · intro q _
      obtain ⟨s, hs⟩ := hsame q
      simp only [hs]
    · intro q _
      obtain ⟨s, hs⟩ := hsame q
      simp only [hs]
  · intro side price q
    obtain ⟨s, hs⟩ := hsame q
    rw [h.mem_iff, hs]
  · intro oid q hq
    obtain ⟨s, hs⟩ := hsame q
    rw [hs]
    exact h.numbered oid q hq

end Queues

/-! ## The levels -/

namespace OrderBook

variable {K coldCap : ℕ} {b b' : OrderBook K coldCap} {nodes : Nodes}

@[simp] theorem levels_setLevels_self (b : OrderBook K coldCap) (side : Side)
    (t : TwoTierLevels side K coldCap) : (b.setLevels side t).levels side = t := by
  cases side <;> rfl

theorem levels_setLevels_of_ne (b : OrderBook K coldCap) {side side' : Side}
    (t : TwoTierLevels side K coldCap) (h : side' ≠ side) :
    (b.setLevels side t).levels side' = b.levels side' := by
  cases side <;> cases side' <;> first | rfl | exact absurd rfl h

@[simp] theorem setLevels_levels (b : OrderBook K coldCap) (side : Side) :
    b.setLevels side (b.levels side) = b := by
  cases side <;> rfl

@[simp] theorem mem_setLevels (b : OrderBook K coldCap) (side : Side)
    (t : TwoTierLevels side K coldCap) : (b.setLevels side t).mem = b.mem := by
  cases side <;> rfl

theorem LevelsHold.congr (h : b.LevelsHold nodes)
    (hlevels : ∀ side, b'.levels side = b.levels side)
    (hshares : ∀ side price, ∀ p ∈ nodes side price,
      (b'.mem p).shares = (b.mem p).shares) : b'.LevelsHold nodes := by
  intro side
  obtain ⟨m, hrep, hm⟩ := h side
  refine ⟨m, ?_, ?_⟩
  · rw [hlevels side]
    exact hrep
  · intro price
    rw [hm price, levelOf_congr (hshares side price)]

/-- One queue changes, with the level of its price. -/
theorem LevelsHold.set (h : b.LevelsHold nodes) {side : Side} {price : UInt32}
    {l : List OrderPtr} {m m' : AList fun _ : UInt32 => LevelData}
    (hm : ∀ price, m.lookup price = levelOf b.mem (nodes side price))
    (hrep : (b'.levels side).Represents m')
    (hother : ∀ side', side' ≠ side → b'.levels side' = b.levels side')
    (hself : m'.lookup price = levelOf b'.mem l)
    (hrest : ∀ price', price' ≠ price → m'.lookup price' = m.lookup price')
    (hshares : ∀ side' price', ¬(side' = side ∧ price' = price) →
      ∀ p ∈ nodes side' price', (b'.mem p).shares = (b.mem p).shares) :
    b'.LevelsHold (nodes.set side price l) := by
  intro side'
  by_cases hside : side' = side
  · subst hside
    refine ⟨m', hrep, ?_⟩
    intro price'
    by_cases hprice : price' = price
    · subst hprice
      rw [Nodes.set_self, hself]
    · have hat : ¬(side' = side' ∧ price' = price) := fun h => hprice h.2
      rw [Nodes.set_of_ne _ _ hat, hrest price' hprice, hm price',
        levelOf_congr (hshares side' price' hat)]
  · obtain ⟨m₀, hrep₀, hm₀⟩ := h side'
    refine ⟨m₀, ?_, ?_⟩
    · rw [hother side' hside]
      exact hrep₀
    · intro price'
      have hat : ¬(side' = side ∧ price' = price) := fun h => hside h.1
      rw [Nodes.set_of_ne _ _ hat, hm₀ price',
        levelOf_congr (hshares side' price' hat)]

end OrderBook

end Fastbook

import Fastbook.OrderBook.OrderBookRefinement
import Fastbook.Support.Run

/-!
# The structures of the order book stay in step

`InStep b r` states, in terms of the members of `OrderBook`, how the levels, the
order queues, the object pool and the id table of a book fit together when the
live orders are those of the reference `r`.  `ChecksHold b` states what the
code relies on without checking it: ignored results, assertions, and the
capacity given to `rehash`.

Both hold in every state of a run that never has `2^31` live orders, however
often the book has grown on the way.
-/

namespace Fastbook

open Support

namespace OrderBook

variable {K coldCap : ℕ} {b b' : OrderBook K coldCap} {r : PriceTimeBook}
  {live : LiveMap} {nodes : Nodes} {p : OrderPtr}

/-- The orders met by following `next` from the head of a level. -/
def levelQueue (b : OrderBook K coldCap) (level : LevelData) : List OrderPtr :=
  walk (fun p => (b.mem p).next) b.ordersOp.capacity level.head

/-- A stored level with its queue: a doubly linked list of live orders from
head to tail, not empty, whose shares add up to the quantity of the level. -/
structure LevelHolds (b : OrderBook K coldCap) (side : Side) (price : UInt32)
    (level : LevelData) : Prop where
  nonempty : b.levelQueue level ≠ []
  nodup : (b.levelQueue level).Nodup
  head : level.head = (b.levelQueue level).head?
  tail : level.tail = (b.levelQueue level).getLast?
  linked : Segment (fun p => (b.mem p).next) (fun p => (b.mem p).prev) none none
    (b.levelQueue level)
  total : level.totalQty.toNat =
    ((b.levelQueue level).map fun p => (b.mem p).shares.toNat).sum
  live : ∀ p ∈ b.levelQueue level, b.orders.find (b.mem p).orderNum = some p
  placed : ∀ p ∈ b.levelQueue level,
    (b.mem p).side = side ∧ (b.mem p).price = price

structure InStep (b : OrderBook K coldCap) (r : PriceTimeBook) : Prop where
  levels_once : ∀ side, ((b.levels side).entries.map Sigma.fst).Nodup
  level_holds : ∀ side price level,
    ⟨price, level⟩ ∈ (b.levels side).entries → b.LevelHolds side price level
  bound : ∀ oid, (b.orders.find oid).isSome ↔ oid ∈ r.orders
  numbered : ∀ oid p, b.orders.find oid = some p →
    (b.mem p).orderNum = oid ∧ r.orders.lookup oid = some (b.mem p).resting
  queued : ∀ oid p, b.orders.find oid = some p →
    ∃ level, ⟨(b.mem p).price, level⟩ ∈ (b.levels (b.mem p).side).entries ∧
      p ∈ b.levelQueue level
  count : r.orders.entries.length + b.ordersOp.free.length =
    b.ordersOp.capacity
  free_nodup : b.ordersOp.free.Nodup
  free_not_live : ∀ oid p, b.orders.find oid = some p → p ∉ b.ordersOp.free
  objects : (∀ p ∈ b.ordersOp.free, p < b.ordersOp.capacity) ∧
    ∀ oid p, b.orders.find oid = some p → p < b.ordersOp.capacity
  max_orders : b.maxOrders.toNat = b.ordersOp.capacity
  power_of_two : b.maxOrders.toNat.isPowerOfTwo
  slots : b.orders.capacity = 2 * b.maxOrders.toNat

/-- What a call relies on without checking it. -/
structure ChecksHold (b : OrderBook K coldCap) : Prop where
  new_order : ∃ order b₁, b.newOrder .available = .ok (order, b₁)
  inserted : ∀ oid order o added b₁ b₂, b.orders.find oid = none →
    b.newOrder .available = .ok (order, b₁) →
    (b₁.setOrder order o).addToPriceQueue order = .ok (added, b₂) →
      (b₂.orders.insert oid order).1 = true
  removed : ∀ oid order, b.orders.find oid = some order →
    ∃ b₁ orders, b.removeFromPriceQueue order = (true, b₁) ∧
      b₁.orders.erase oid = .ok (true, orders)
  level : ∀ oid order, b.orders.find oid = some order →
    ∃ level, (b.levels (b.mem order).side).get
        (b.findLevel (b.mem order).side (b.mem order).price) = some level ∧
      (b.mem order).shares.toNat ≤ level.totalQty.toNat
  rehashed : (b.maxOrders.toNat + b.maxOrders.toNat).isPowerOfTwo

/-! ## The quantity of a level -/

theorem sum_shares_le (mem : OrderPtr → Order) (l : List OrderPtr) :
    (l.map fun p => (mem p).shares.toNat).sum ≤ l.length * 2 ^ 32 := by
  induction l with
  | nil => simp
  | cons p l ih =>
      have hp := (mem p).shares.toNat_lt
      simp only [List.map_cons, List.sum_cons, List.length_cons]
      omega

/-- Up to `2^31` orders the quantity of a queue does not wrap. -/
theorem toNat_quantity (mem : OrderPtr → Order) {l : List OrderPtr}
    (hl : l.length ≤ 2 ^ 31) :
    (quantity mem l).toNat = (l.map fun p => (mem p).shares.toNat).sum := by
  induction l with
  | nil => rfl
  | cons p l ih =>
      have hlen : l.length + 1 ≤ 2 ^ 31 := hl
      have hrest := ih (by omega)
      have hle := sum_shares_le mem l
      have hp := (mem p).shares.toNat_lt
      rw [quantity_cons, UInt64.toNat_add, UInt32.toNat_toUInt64, hrest,
        List.map_cons, List.sum_cons]
      exact Nat.mod_eq_of_lt (by omega)

/-! ## The state -/

theorem Refines.find_eq (h : b.Refines r live nodes) (oid : Oid) :
    b.orders.find oid = live.lookup oid :=
  LinearProbingTable.find_eq_lookup h.consistent.store.table oid

/-- The queue of a stored level is the list of nodes of its price. -/
theorem Refines.levelQueue_eq (h : b.Refines r live nodes) {side : Side}
    {price : UInt32} {level : LevelData}
    (hlevel : ⟨price, level⟩ ∈ (b.levels side).entries) :
    levelOf b.mem (nodes side price) = some level ∧
      b.levelQueue level = nodes side price := by
  obtain ⟨m, hrep, hm⟩ := h.consistent.levels side
  rw [hrep.perm.mem_iff, ← AList.mem_lookup_iff, Option.mem_def, hm] at hlevel
  refine ⟨hlevel, ?_⟩
  have hne : nodes side price ≠ [] := by
    intro hnil
    rw [hnil] at hlevel
    cases hlevel
  rw [levelOf_eq hne, Option.some.injEq] at hlevel
  have hhead : level.head = (nodes side price).head? := by
    rw [← hlevel]
  rw [levelQueue, hhead]
  exact (h.consistent.queues.chained side price).walk_eq
    (h.length_nodes_le side price)

theorem Refines.levelHolds (h : b.Refines r live nodes)
    (hcap : b.ordersOp.capacity ≤ 2 ^ 31) {side : Side} {price : UInt32}
    {level : LevelData}
    (hlevel : ⟨price, level⟩ ∈ (b.levels side).entries) :
    b.LevelHolds side price level := by
  have hqueues := h.consistent.queues
  obtain ⟨hof, hqueue⟩ := h.levelQueue_eq hlevel
  have hne : nodes side price ≠ [] := by
    intro hnil
    rw [hnil] at hof
    cases hof
  have hlen := h.length_nodes_le side price
  rw [levelOf_eq hne, Option.some.injEq] at hof
  subst hof
  refine ⟨?_, ?_, ?_, ?_, ?_, ?_, ?_, ?_⟩
  · rw [hqueue]
    exact hne
  · rw [hqueue]
    exact hqueues.nodup side price
  · rw [hqueue]
  · rw [hqueue]
  · rw [hqueue]
    exact hqueues.chained side price
  · rw [hqueue]
    exact toNat_quantity b.mem (by omega)
  · intro p hp
    rw [hqueue] at hp
    rw [h.find_eq]
    exact hqueues.live_of_mem hp
  · intro p hp
    rw [hqueue, hqueues.mem_iff] at hp
    exact hp.2

/-- A live order is queued at the level of its price. -/
theorem Refines.level_of_live (h : b.Refines r live nodes) {oid : Oid}
    (hlive : live.lookup oid = some p) :
    ∃ level, ⟨(b.mem p).price, level⟩ ∈ (b.levels (b.mem p).side).entries ∧
      (b.levels (b.mem p).side).get
        (b.findLevel (b.mem p).side (b.mem p).price) = some level ∧
      p ∈ b.levelQueue level := by
  have hmem := h.consistent.queues.mem_of_live hlive
  obtain ⟨m, hrep, hm⟩ := h.consistent.levels (b.mem p).side
  have hlookup := hm (b.mem p).price
  rw [levelOf_eq (List.ne_nil_of_mem hmem)] at hlookup
  have hentry := AList.mem_lookup_iff.mp (Option.mem_def.mpr hlookup)
  rw [← hrep.perm.mem_iff] at hentry
  refine ⟨_, hentry, (TwoTierLevels.findIdx_locates hrep hlookup).get_eq, ?_⟩
  rw [(h.levelQueue_eq hentry).2]
  exact hmem

theorem Refines.partition_nodup (h : b.Refines r live nodes) :
    (b.ordersOp.free ++ live.entries.map Sigma.snd).Nodup :=
  h.consistent.store.partition.nodup_iff.mpr List.nodup_range

theorem Refines.mem_objects (h : b.Refines r live nodes) {oid : Oid}
    (hfind : b.orders.find oid = some p) :
    p ∈ live.entries.map Sigma.snd := by
  rw [h.find_eq, ← Option.mem_def, AList.mem_lookup_iff] at hfind
  exact List.mem_map.mpr ⟨_, hfind, rfl⟩

/-- Up to `2^31` objects `max_orders_` holds their number. -/
theorem Refines.sizes (h : b.Refines r live nodes)
    (hcap : b.ordersOp.capacity ≤ 2 ^ 31) :
    ∃ e, b.maxOrders.toNat = 2 ^ e ∧ b.ordersOp.capacity = 2 ^ e ∧
      b.orders.capacity = 2 ^ (e + 1) := by
  obtain ⟨e, -, -, hpool, hmax, htable⟩ := h.consistent.store.sizes
  have he : e < 32 := by
    have hle : e ≤ 31 :=
      (Nat.pow_le_pow_iff_right (a := 2) (by omega)).mp (by omega)
    omega
  exact ⟨e, by rw [hmax, toNat_ofNat_two_pow he], hpool, htable⟩

theorem Refines.inStep (h : b.Refines r live nodes)
    (hcap : b.ordersOp.capacity ≤ 2 ^ 31) : b.InStep r := by
  obtain ⟨e, hmax, hpool, htable⟩ := h.sizes hcap
  have hrange : ∀ p, p ∈ b.ordersOp.free ++ live.entries.map Sigma.snd →
      p < b.ordersOp.capacity := by
    intro p hp
    have hin := h.consistent.store.partition.mem_iff.mp hp
    exact List.mem_range.mp hin
  refine ⟨?_, ?_, ?_, ?_, ?_, ?_, ?_, ?_, ⟨?_, ?_⟩, ?_, ?_, ?_⟩
  · intro side
    obtain ⟨m, hrep, -⟩ := h.consistent.levels side
    exact (List.perm_nodupKeys hrep.perm).mpr m.nodupKeys
  · intro side price level hlevel
    exact h.levelHolds hcap hlevel
  · intro oid
    rw [h.find_eq, AList.lookup_isSome, h.mem_orders_iff]
  · intro oid p hfind
    rw [h.find_eq] at hfind
    refine ⟨h.consistent.queues.numbered oid p hfind, ?_⟩
    rw [h.orders, hfind]
    rfl
  · intro oid p hfind
    rw [h.find_eq] at hfind
    obtain ⟨level, hentry, -, hqueued⟩ := h.level_of_live hfind
    exact ⟨level, hentry, hqueued⟩
  · have hcount := h.consistent.store.length_eq
    rw [h.length_eq]
    simp only [List.length_nil] at hcount
    omega
  · exact (List.nodup_append.mp h.partition_nodup).1
  · intro oid p hfind hfree
    exact (List.nodup_append.mp h.partition_nodup).2.2 p hfree p
      (h.mem_objects hfind) rfl
  · intro p hp
    exact hrange p (List.mem_append_left _ hp)
  · intro oid p hfind
    exact hrange p (List.mem_append_right _ (h.mem_objects hfind))
  · rw [hmax, hpool]
  · exact ⟨e, hmax⟩
  · rw [hmax, htable, pow_succ, Nat.mul_comm]

/-! ## What the calls rely on -/

theorem SameStore.trans {b₁ b₂ b₃ : OrderBook K coldCap}
    (h₁ : SameStore b₁ b₂) (h₂ : SameStore b₂ b₃) : SameStore b₁ b₃ :=
  ⟨h₂.orders.trans h₁.orders, h₂.ordersOp.trans h₁.ordersOp,
    h₂.maxOrders.trans h₁.maxOrders⟩

theorem setLevels_sameStore (b : OrderBook K coldCap) (side : Side)
    (t : TwoTierLevels side K coldCap) : SameStore b (b.setLevels side t) :=
  sameStore_setLevels b b.mem side t

theorem linkTail_sameStore {order : OrderPtr} {level : LevelData}
    (h : b.linkTail order level = .ok b') : SameStore b b' := by
  unfold linkTail at h
  split at h
  · cases h
    exact ⟨rfl, rfl, rfl⟩
  · split at h
    · cases h
    · cases h
      exact ⟨rfl, rfl, rfl⟩

/-- Whatever `add_to_price_queue` does, it leaves the store alone. -/
theorem addToPriceQueue_sameStore {order : OrderPtr} {added : Bool}
    (h : b.addToPriceQueue order = .ok (added, b')) : SameStore b b' := by
  have hfound := setLevels_sameStore b (b.mem order).side
    ((b.levels (b.mem order).side).findOrInsert (b.mem order).price).2
  simp only [addToPriceQueue, findOrInsertLevel] at h
  split at h
  · cases h
    exact hfound
  · split at h
    · cases h
    · next b₂ hlink =>
        cases h
        exact (hfound.trans (linkTail_sameStore hlink)).trans
          (setLevels_sameStore b₂ _ _)

theorem Refines.checksHold (h : b.Refines r live nodes)
    (hcap : b.ordersOp.capacity ≤ 2 ^ 31) : b.ChecksHold := by
  have hlen : live.entries.length < 2 ^ 32 := by
    have hcount := h.consistent.store.length_eq
    omega
  refine ⟨?_, ?_, ?_, ?_, ?_⟩
  · obtain ⟨order, b₁, hnew, -⟩ := newOrder_spec h.consistent.store hlen
    exact ⟨order, b₁, hnew⟩
  · intro oid order o added b₁ b₂ hfind hnew hadd
    obtain ⟨order', b₁', hnew', hstore, -⟩ :=
      newOrder_spec h.consistent.store hlen
    rw [hnew] at hnew'
    cases hnew'
    have hset : (b₁.setOrder order o).StoreHolds live [order] :=
      hstore.congr rfl rfl rfl
    have hstore₂ := hset.of_same (addToPriceQueue_sameStore hadd)
    obtain ⟨e, -, -, hpool, -, htable⟩ := hstore₂.sizes
    have hcount := hstore₂.length_eq
    have hpow : 2 ^ e < 2 ^ (e + 1) :=
      Nat.pow_lt_pow_right (by omega) (by omega)
    rw [h.find_eq, AList.lookup_eq_none] at hfind
    obtain ⟨t, hins, -⟩ :=
      LinearProbingTable.insert_of_notMem hstore₂.table hfind (by omega) order
    rw [hins]
  · intro oid order hfind
    rw [h.find_eq] at hfind
    obtain ⟨l₁, l₂, hsplit⟩ :=
      List.append_of_mem (h.consistent.queues.mem_of_live hfind)
    obtain ⟨b₁, hremove, hsame, -⟩ := removeFromPriceQueue_spec rfl rfl hsplit
      h.consistent.levels h.consistent.queues
    obtain ⟨orders, herase, -⟩ :=
      (h.consistent.store.of_same hsame).erase hfind
    exact ⟨b₁, orders, hremove, herase⟩
  · intro oid order hfind
    rw [h.find_eq] at hfind
    obtain ⟨level, hentry, hget, hqueued⟩ := h.level_of_live hfind
    refine ⟨level, hget, ?_⟩
    rw [(h.levelHolds hcap hentry).total]
    exact List.le_sum_of_mem (List.mem_map.mpr ⟨order, hqueued, rfl⟩)
  · obtain ⟨e, hmax, -⟩ := h.sizes hcap
    exact ⟨e + 1, by rw [hmax, pow_succ, Nat.mul_two]⟩

/-! ## Growth along a run -/

theorem unlinkPrev_sameStore (b : OrderBook K coldCap) (order : OrderPtr)
    (level : LevelData) : SameStore b (b.unlinkPrev order level).2 := by
  unfold unlinkPrev
  split <;> exact ⟨rfl, rfl, rfl⟩

theorem unlinkNext_sameStore (b : OrderBook K coldCap) (order : OrderPtr)
    (level : LevelData) : SameStore b (b.unlinkNext order level).2 := by
  unfold unlinkNext
  split <;> exact ⟨rfl, rfl, rfl⟩

theorem removeFromPriceQueue_sameStore (b : OrderBook K coldCap)
    (order : OrderPtr) : SameStore b (b.removeFromPriceQueue order).2 := by
  simp only [removeFromPriceQueue]
  split
  · exact ⟨rfl, rfl, rfl⟩
  · next level _ =>
      have hunlinked := (unlinkPrev_sameStore b order level).trans
        (unlinkNext_sameStore _ order (b.unlinkPrev order level).1)
      split
      · exact (hunlinked.trans (setLevels_sameStore _ _ _)).trans
          (setLevels_sameStore _ _ _)
      · exact hunlinked.trans (setLevels_sameStore _ _ _)

/-- How a call may change the capacity of the pool. -/
def GrowsTo (b b' : OrderBook K coldCap) : Prop :=
  b'.ordersOp.capacity = b.ordersOp.capacity ∨
    (b.ordersOp.free = [] ∧
      b'.ordersOp.capacity = b.ordersOp.capacity + b.maxOrders.toNat)

theorem grow_capacity {memory : GrowMemory} {grown : Bool}
    (h : b.grow memory = .ok (grown, b')) :
    b'.ordersOp.capacity = b.ordersOp.capacity ∨
      b'.ordersOp.capacity = b.ordersOp.capacity + b.maxOrders.toNat := by
  simp only [grow] at h
  split at h
  · cases h
    exact Or.inl rfl
  · split at h
    · cases h
      exact Or.inl rfl
    · split at h
      · cases h
      · cases h
        exact Or.inr rfl
      · cases h
        exact Or.inr rfl

theorem get_capacity {pool pool' : ObjectPool} (h : pool.get = some (p, pool')) :
    pool'.capacity = pool.capacity := by
  unfold ObjectPool.get at h
  split at h
  · cases h
  · cases h
    rfl

/-- The pool grows only when it has no free object. -/
theorem newOrder_growsTo {memory : GrowMemory}
    (h : b.newOrder memory = .ok (p, b')) : b.GrowsTo b' := by
  unfold newOrder at h
  split at h
  · next order pool hget =>
      cases h
      exact Or.inl (get_capacity hget)
  · next hget =>
      have hfree : b.ordersOp.free = [] := by
        unfold ObjectPool.get at hget
        split at hget
        · next hnil => exact hnil
        · cases hget
      split at h
      · cases h
      · cases h
      · next b₁ hgrow =>
          split at h
          · cases h
          · next order pool hget₁ =>
              cases h
              have hpool := get_capacity hget₁
              rcases grow_capacity hgrow with hsame | hmore
              · exact Or.inl (hpool.trans hsame)
              · exact Or.inr ⟨hfree, hpool.trans hmore⟩

theorem addOrder_growsTo {memory : GrowMemory} {oid : Oid}
    {shares price : UInt32} {side : Side} {result : Except AddOrderError Unit}
    (h : b.addOrder memory oid shares price side = .ok (result, b')) :
    b.GrowsTo b' := by
  simp only [addOrder] at h
  split at h
  · cases h
    exact Or.inl rfl
  · split at h
    · cases h
    · next order b₁ hnew =>
        have hgrows := newOrder_growsTo hnew
        split at h
        · cases h
        · next b₂ hadd =>
            have hpool := (addToPriceQueue_sameStore hadd).ordersOp
            cases h
            simpa [GrowsTo, ObjectPool.restore, hpool, setOrder] using hgrows
        · next b₂ hadd =>
            have hpool := (addToPriceQueue_sameStore hadd).ordersOp
            cases h
            simpa [GrowsTo, hpool, setOrder] using hgrows

theorem cancelOrder_growsTo {oid : Oid} {removed : Bool}
    (h : b.cancelOrder oid = .ok (removed, b')) : b.GrowsTo b' := by
  unfold cancelOrder at h
  split at h
  · cases h
    exact Or.inl rfl
  · next order _ =>
      have hpool := (removeFromPriceQueue_sameStore b order).ordersOp
      split at h
      · next b₁ hremove =>
          rw [hremove] at hpool
          cases h
          exact Or.inl (by rw [hpool])
      · next b₁ hremove =>
          rw [hremove] at hpool
          change b₁.ordersOp = b.ordersOp at hpool
          split at h
          · cases h
          · cases h
            exact Or.inl (by simp [ObjectPool.restore, hpool])

theorem executeOrder_growsTo {oid : Oid} {shares : UInt32} {done : Bool}
    (h : b.executeOrder oid shares = .ok (done, b')) : b.GrowsTo b' := by
  simp only [executeOrder] at h
  split at h
  · cases h
    exact Or.inl rfl
  · next order _ =>
      split at h
      · exact cancelOrder_growsTo h
      · split at h
        · cases h
        · next level _ =>
            cases h
            left
            rw [setLevel, (setLevels_sameStore _ _ _).ordersOp]
            rfl

theorem call_growsTo {c : BookCall} {answer : BookAnswer}
    (h : b.call c = .ok (answer, b')) : b.GrowsTo b' := by
  cases c with
  | add oid shares price side =>
      obtain ⟨⟨result, b₁⟩, hadd, heq⟩ := map_eq_ok h
      cases heq
      exact addOrder_growsTo hadd
  | cancel oid =>
      obtain ⟨⟨removed, b₁⟩, hcancel, heq⟩ := map_eq_ok h
      cases heq
      exact cancelOrder_growsTo hcancel
  | execute oid shares =>
      obtain ⟨⟨done, b₁⟩, hexec, heq⟩ := map_eq_ok h
      cases heq
      exact executeOrder_growsTo hexec
  | reduce oid shares =>
      obtain ⟨⟨done, b₁⟩, hexec, heq⟩ := map_eq_ok h
      cases heq
      exact executeOrder_growsTo hexec

/-- With fewer than `2^31` live orders a call keeps the pool at `2^31` objects
at most. -/
theorem Refines.capacity_le (h : b.Refines r live nodes)
    (hcap : b.ordersOp.capacity ≤ 2 ^ 31)
    (hlive : r.orders.entries.length < 2 ^ 31) (hgrow : b.GrowsTo b') :
    b'.ordersOp.capacity ≤ 2 ^ 31 := by
  rcases hgrow with hsame | ⟨hfree, hmore⟩
  · omega
  · obtain ⟨e, hmax, hpool, -⟩ := h.sizes hcap
    have hcount := h.consistent.store.length_eq
    rw [hfree, ← h.length_eq] at hcount
    simp only [List.length_nil, Nat.zero_add] at hcount
    -- the pool is full, so it is a power of two below `2^31`
    have he : e < 31 :=
      (Nat.pow_lt_pow_iff_right (a := 2) (by omega)).mp (by omega)
    have hdouble : 2 ^ (e + 1) ≤ 2 ^ 31 :=
      Nat.pow_le_pow_right (by omega) (by omega)
    rw [hmore, hpool, hmax, ← Nat.mul_two, ← pow_succ]
    exact hdouble

/-- Fewer than `n` orders are live before every call and at the end. -/
def LiveBelow (n maxLevels : ℕ) (r : PriceTimeBook) (cs : List BookCall) :
    Prop :=
  ∀ k ≤ cs.length,
    (r.calls maxLevels (cs.take k)).2.orders.entries.length < n

theorem LiveBelow.tail {n maxLevels : ℕ} {c : BookCall} {cs : List BookCall}
    (h : LiveBelow n maxLevels r (c :: cs)) :
    LiveBelow n maxLevels (r.call maxLevels c).2 cs := by
  intro k hk
  exact h (k + 1) (Nat.succ_le_succ hk)

theorem calls_inStep (h : b.Simulates r) (hK : 0 < K)
    (hcap : b.ordersOp.capacity ≤ 2 ^ 31) {cs : List BookCall}
    (hcs : ∀ c ∈ cs, c.Priced)
    (hlive : LiveBelow (2 ^ 31) (K + coldCap) r cs) :
    ∃ b', b.calls cs = .ok ((r.calls (K + coldCap) cs).1, b') ∧
      b'.InStep (r.calls (K + coldCap) cs).2 ∧ b'.ChecksHold := by
  induction cs generalizing b r with
  | nil =>
      obtain ⟨live, nodes, href⟩ := h
      exact ⟨b, rfl, href.inStep hcap, href.checksHold hcap⟩
  | cons c cs ih =>
      have hnow : r.orders.entries.length < 2 ^ 31 :=
        hlive 0 (Nat.zero_le _)
      have hfits : r.Fits c := by
        cases c with
        | add oid shares price side => exact Or.inr (by omega)
        | cancel oid => trivial
        | execute oid shares => trivial
        | reduce oid shares => trivial
      obtain ⟨b₁, hcall, hsim⟩ := call_simulates h hK (hcs c (by simp)) hfits
      obtain ⟨live, nodes, href⟩ := h
      have hcap₁ := href.capacity_le hcap hnow (call_growsTo hcall)
      obtain ⟨b₂, hrest, hend⟩ := ih hsim hcap₁
        (fun c' hc' => hcs c' (by simp [hc'])) hlive.tail
      exact ⟨b₂, by simp [calls, hcall, hrest, PriceTimeBook.calls], hend⟩

/-- In every run without sentinel prices and with fewer than `2^31` live orders
the structures of the book stay in step with the live orders, and nothing the
code relies on without checking it fails. -/
theorem calls_stay_in_step (hK : 0 < K) (cs : List BookCall)
    (hcs : ∀ c ∈ cs, c.Priced)
    (hlive : LiveBelow (2 ^ 31) (K + coldCap) .empty cs) :
    ∃ b, (fresh : OrderBook K coldCap).calls cs =
        .ok ((PriceTimeBook.empty.calls (K + coldCap) cs).1, b) ∧
      b.InStep (PriceTimeBook.empty.calls (K + coldCap) cs).2 ∧
      b.ChecksHold := by
  apply calls_inStep (fresh_simulates hK) hK _ hcs hlive
  change maxOrdersInit.toNat ≤ 2 ^ 31
  decide

theorem take_manyAdds {k n : ℕ} (hk : k ≤ n) :
    (manyAdds n).take k = manyAdds k := by
  rw [manyAdds, ← List.map_take, List.take_range, Nat.min_eq_left hk]
  rfl

/-- Five thousand orders outgrow the first pool. -/
theorem calls_stay_in_step_manyAdds :
    0 < 8 ∧ (∀ c ∈ manyAdds 5000, c.Priced) ∧
    LiveBelow (2 ^ 31) (8 + 8192) .empty (manyAdds 5000) ∧
    ∃ b, (fresh : OrderBook 8 8192).calls (manyAdds 5000) =
        .ok ((PriceTimeBook.empty.calls (8 + 8192) (manyAdds 5000)).1, b) ∧
      b.InStep (PriceTimeBook.empty.calls (8 + 8192) (manyAdds 5000)).2 ∧
      b.ChecksHold := by
  have hlive : LiveBelow (2 ^ 31) (8 + 8192) .empty (manyAdds 5000) := by
    intro k hk
    rw [manyAdds, List.length_map, List.length_range] at hk
    rw [take_manyAdds hk,
      (manyAdds_reference (8 + 8192) (by decide) k (by omega)).2.1]
    omega
  exact ⟨by decide, manyAdds_priced _, hlive,
    calls_stay_in_step (by decide) _ (manyAdds_priced _) hlive⟩

end OrderBook

end Fastbook

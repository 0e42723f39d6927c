import Fastbook.OrderBook.OrderBookInvariant
import Fastbook.OrderBook.PriceTimeBook

/-!
# What the operations of the order book do

One specification for each operation of `OrderBook`, in terms of the ghost
values of the invariant.
-/

namespace Fastbook.OrderBook

open Support

variable {K coldCap : ℕ} {b b' : OrderBook K coldCap} {live : LiveMap}
  {nodes : Nodes} {held : List OrderPtr} {oid : Oid} {p : OrderPtr}

/-! ## Pool and table -/

theorem StoreHolds.congr (h : b.StoreHolds live held)
    (horders : b'.orders = b.orders) (hpool : b'.ordersOp = b.ordersOp)
    (hmax : b'.maxOrders = b.maxOrders) : b'.StoreHolds live held := by
  refine ⟨?_, ?_, ?_⟩
  · rw [horders]
    exact h.table
  · rw [hpool]
    exact h.partition
  · rw [horders, hpool, hmax]
    exact h.sizes

theorem StoreHolds.length_eq (h : b.StoreHolds live held) :
    b.ordersOp.free.length + (held.length + live.entries.length) =
      b.ordersOp.capacity := by
  have hlen := h.partition.length_eq
  simpa using hlen

/-- An object held by a running call is not live. -/
theorem StoreHolds.not_live (h : b.StoreHolds live [p]) (oid : Oid) :
    live.lookup oid ≠ some p := by
  intro hlive
  have hnodup := h.partition.nodup_iff.mpr List.nodup_range
  rw [List.nodup_append] at hnodup
  obtain ⟨-, hused, -⟩ := hnodup
  rw [List.singleton_append, List.nodup_cons] at hused
  apply hused.1
  rw [← Option.mem_def, AList.mem_lookup_iff] at hlive
  exact List.mem_map.mpr ⟨_, hlive, rfl⟩

theorem isPowerOfTwo_two_pow (e : ℕ) : (2 ^ e).isPowerOfTwo :=
  ⟨e, rfl⟩

theorem slotsFor_two_pow {e : ℕ} (he : e < 63) :
    LinearProbingTable.slotsFor (2 ^ e) = 2 ^ (e + 1) := by
  rw [LinearProbingTable.slotsFor, Nat.shiftLeft_eq, pow_one, ← pow_succ]
  exact Nat.mod_eq_of_lt (Nat.pow_lt_pow_right (by omega) (by omega))

theorem toNat_ofNat_two_pow {e : ℕ} (he : e < 32) :
    (UInt32.ofNat (2 ^ e)).toNat = 2 ^ e := by
  rw [UInt32.toNat_ofNat']
  exact Nat.mod_eq_of_lt (Nat.pow_lt_pow_right (by omega) he)

/-- Below `2^32` objects, `grow` doubles pool and table. -/
theorem grow_spec {e : ℕ} (htable : b.orders.Represents live)
    (hlen : live.entries.length ≤ 2 ^ e) (he : e < 32)
    (hmax : b.maxOrders = UInt32.ofNat (2 ^ e)) :
    ∃ orders, b.grow .available = .ok (true, { b with
        ordersOp := b.ordersOp.addChunk (2 ^ e)
        orders
        maxOrders := UInt32.ofNat (2 ^ (e + 1)) }) ∧
      orders.Represents live ∧ orders.capacity = 2 ^ (e + 2) := by
  have hn : b.maxOrders.toNat = 2 ^ e := by
    rw [hmax, toNat_ofNat_two_pow he]
  have hsum : 2 ^ e + 2 ^ e = 2 ^ (e + 1) := by
    rw [pow_succ]
    omega
  have hslots : LinearProbingTable.slotsFor (2 ^ (e + 1)) = 2 ^ (e + 2) :=
    slotsFor_two_pow (by omega)
  have hle : 2 ^ e ≤ 2 ^ (e + 2) :=
    Nat.pow_le_pow_right (by omega) (by omega)
  obtain ⟨orders, hrehash, hrep, hcap⟩ :=
    LinearProbingTable.rehash_spec htable (isPowerOfTwo_two_pow (e + 1))
      (Nat.pow_lt_pow_right (by omega) (by omega)) (by omega)
  refine ⟨orders, ?_, hrep, hcap.trans hslots⟩
  simp [grow, GrowMemory.available, hn, hsum, hrehash]

/-- With `2^32` objects `max_orders_` has wrapped to zero, and `grow`
terminates the process. -/
theorem grow_of_wrapped (hmax : b.maxOrders = UInt32.ofNat (2 ^ 32)) :
    b.grow .available = .error .terminate := by
  have hn : b.maxOrders.toNat = 0 := by
    rw [hmax]
    rfl
  have hzero : ¬(0 : ℕ).isPowerOfTwo := by
    rintro ⟨k, hk⟩
    have hpos := Nat.two_pow_pos k
    omega
  have hrehash := LinearProbingTable.rehash_of_not_isPowerOfTwo b.orders hzero
  simp [grow, GrowMemory.available, hn, hrehash]

/-- While fewer than `2^32` orders are live an object can be had. -/
theorem newOrder_spec (h : b.StoreHolds live [])
    (hlen : live.entries.length < 2 ^ 32) :
    ∃ p b', b.newOrder .available = .ok (p, b') ∧ b'.StoreHolds live [p] ∧
      (∀ side, b'.levels side = b.levels side) ∧ b'.mem = b.mem := by
  obtain ⟨e, hlo, hhi, hcap, hmax, htable⟩ := h.sizes
  have hcount := h.length_eq
  have hpart := h.partition
  cases hfree : b.ordersOp.free with
  | cons p free =>
      refine ⟨p, { b with ordersOp := { b.ordersOp with free } }, ?_,
        ⟨h.table, ?_, h.sizes⟩, ?_, rfl⟩
      · simp [newOrder, ObjectPool.get, hfree]
      · rw [hfree] at hpart
        exact List.perm_middle.trans hpart
      · intro side
        cases side <;> rfl
  | nil =>
      -- every object is live, so the pool is smaller than `2^32`
      rw [hfree, hcap] at hcount
      simp only [List.length_nil, Nat.zero_add] at hcount
      have he : e < 32 := by
        apply (Nat.pow_lt_pow_iff_right (a := 2) (by omega)).mp
        omega
      obtain ⟨orders, hgrow, hrep, hslots⟩ :=
        grow_spec h.table (by omega) he hmax
      have hchunk : (List.range' (2 ^ e) (2 ^ e)).reverse ≠ [] := by
        simp
      obtain ⟨p, free, hnew⟩ := List.exists_cons_of_ne_nil hchunk
      refine ⟨p, { b with
        ordersOp := { free, capacity := 2 ^ (e + 1) }
        orders
        maxOrders := UInt32.ofNat (2 ^ (e + 1)) }, ?_, ⟨hrep, ?_, ?_⟩, ?_, rfl⟩
      · simp only [newOrder, ObjectPool.get, hfree, hgrow, ObjectPool.addChunk,
          hcap, List.append_nil, hnew]
        rw [pow_succ, Nat.mul_two]
      · rw [hfree, List.nil_append, List.nil_append, hcap] at hpart
        have hrange : List.range (2 ^ (e + 1)) =
            List.range (2 ^ e) ++ List.range' (2 ^ e) (2 ^ e) := by
          rw [pow_succ, Nat.mul_two, List.range_eq_range', List.range_eq_range',
            ← List.range'_append_1]
          simp
        have hobjects : (p :: free).Perm (List.range' (2 ^ e) (2 ^ e)) := by
          rw [← hnew]
          exact List.reverse_perm _
        rw [hrange]
        exact (List.perm_middle.trans (hobjects.append hpart)).trans
          List.perm_append_comm
      · exact ⟨e + 1, by omega, by omega, rfl, rfl, hslots⟩
      · intro side
        cases side <;> rfl

/-- With `2^32` live orders no object can be had. -/
theorem newOrder_of_full (h : b.StoreHolds live [])
    (hlen : live.entries.length = 2 ^ 32) :
    b.newOrder .available = .error .terminate := by
  obtain ⟨e, hlo, hhi, hcap, hmax, htable⟩ := h.sizes
  have hcount := h.length_eq
  have hle : 2 ^ e ≤ 2 ^ 32 := Nat.pow_le_pow_right (by omega) hhi
  simp only [List.length_nil, Nat.zero_add] at hcount
  have hfree : b.ordersOp.free = [] := by
    apply List.eq_nil_of_length_eq_zero
    omega
  have he : e = 32 := by
    apply Nat.pow_right_injective (le_refl 2)
    simp only
    rw [hfree, List.length_nil] at hcount
    omega
  subst he
  simp [newOrder, ObjectPool.get, hfree, grow_of_wrapped hmax]

theorem StoreHolds.length_le (h : b.StoreHolds live []) :
    live.entries.length ≤ 2 ^ 32 := by
  obtain ⟨e, -, hhi, hcap, -⟩ := h.sizes
  have hcount := h.length_eq
  have hle : 2 ^ e ≤ 2 ^ 32 := Nat.pow_le_pow_right (by omega) hhi
  simp only [List.length_nil, Nat.zero_add] at hcount
  omega

/-- Giving a held object back. -/
theorem StoreHolds.restore (h : b.StoreHolds live [p]) :
    ({ b with ordersOp := b.ordersOp.restore p } :
      OrderBook K coldCap).StoreHolds live [] := by
  refine ⟨h.table, ?_, h.sizes⟩
  exact List.perm_middle.symm.trans h.partition

/-- Entering a held object in the table makes it live. -/
theorem StoreHolds.insert (h : b.StoreHolds live [p])
    (hnew : live.lookup oid = none) :
    ({ b with orders := (b.orders.insert oid p).2 } :
      OrderBook K coldCap).StoreHolds (live.insert oid p) [] := by
  obtain ⟨e, hlo, hhi, hcap, hmax, htable⟩ := h.sizes
  have hcount := h.length_eq
  have hnot : oid ∉ live := AList.lookup_eq_none.mp hnew
  have hroom : live.entries.length < b.orders.capacity := by
    have hpow : 2 ^ e < 2 ^ (e + 1) :=
      Nat.pow_lt_pow_right (by omega) (by omega)
    omega
  obtain ⟨t', hins, hrep, hcap'⟩ :=
    LinearProbingTable.insert_of_notMem h.table hnot hroom p
  refine ⟨?_, ?_, ⟨e, hlo, hhi, hcap, hmax, ?_⟩⟩
  · simp only [hins]
    exact hrep
  · rw [AList.entries_insert_of_notMem hnot]
    exact h.partition
  · simp only [hins, hcap', htable]

/-- Erasing an id from the table and giving its object back. -/
theorem StoreHolds.erase (h : b.StoreHolds live [])
    (hlive : live.lookup oid = some p) :
    ∃ orders, b.orders.erase oid = .ok (true, orders) ∧
      ({ b with orders, ordersOp := b.ordersOp.restore p } :
        OrderBook K coldCap).StoreHolds (live.erase oid) [] := by
  obtain ⟨e, hlo, hhi, hcap, hmax, htable⟩ := h.sizes
  have hmem : oid ∈ live := by
    rw [← AList.lookup_isSome, hlive]
    rfl
  obtain ⟨t', herase, hrep, hcap'⟩ :=
    LinearProbingTable.erase_of_mem h.table hmem
  refine ⟨t', herase, hrep, ?_, ⟨e, hlo, hhi, hcap, hmax, ?_⟩⟩
  · have hmap := (entries_perm_cons_erase hlive).map Sigma.snd
    refine List.Perm.trans ?_ h.partition
    refine List.Perm.trans ?_ (hmap.symm.append_left b.ordersOp.free)
    exact List.perm_middle.symm
  · simp only [hcap', htable]

/-! ## Queues and levels -/

/-- The fields a queue operation leaves alone. -/
structure SameStore (b b' : OrderBook K coldCap) : Prop where
  orders : b'.orders = b.orders
  ordersOp : b'.ordersOp = b.ordersOp
  maxOrders : b'.maxOrders = b.maxOrders

theorem sameStore_setLevels (b : OrderBook K coldCap)
    (mem : OrderPtr → Order) (side : Side) (t : TwoTierLevels side K coldCap) :
    SameStore b (({ b with mem } : OrderBook K coldCap).setLevels side t) := by
  cases side <;> exact ⟨rfl, rfl, rfl⟩

theorem setLevel_setLevels (b : OrderBook K coldCap) (mem : OrderPtr → Order)
    (side : Side) (t : TwoTierLevels side K coldCap) (loc : Loc)
    (d : LevelData) :
    ({ b.setLevels side t with mem } : OrderBook K coldCap).setLevel side loc d =
      ({ b with mem } : OrderBook K coldCap).setLevels side (t.put loc d) := by
  cases side <;> rfl

theorem setLevel_eq (b : OrderBook K coldCap) (mem : OrderPtr → Order)
    (side : Side) (loc : Loc) (d : LevelData) :
    ({ b with mem } : OrderBook K coldCap).setLevel side loc d =
      ({ b with mem } : OrderBook K coldCap).setLevels side
        ((b.levels side).put loc d) := by
  cases side <;> rfl

theorem eraseLevel_setLevels (b : OrderBook K coldCap) (side : Side)
    (t : TwoTierLevels side K coldCap) (price : UInt32) :
    (b.setLevels side t).eraseLevel side price =
      b.setLevels side (t.erase price) := by
  cases side <;> rfl

theorem StoreHolds.of_same (h : b.StoreHolds live held)
    (hsame : SameStore b b') : b'.StoreHolds live held :=
  h.congr hsame.orders hsame.ordersOp hsame.maxOrders

/-- Linking a new node behind the queue `l` whose ends the level knows. -/
theorem linkTail_eq {level : LevelData} {l : List OrderPtr}
    (hhead : level.head = l.head?) (htail : level.tail = l.getLast?)
    (hp : p ∉ l) (hprev : (b.mem p).prev = none) :
    b.linkTail p level = .ok { b with mem := linkedTail b.mem p l } := by
  rcases List.eq_nil_or_concat l with rfl | ⟨init, x, rfl⟩
  · have hmem : linkedTail b.mem p [] = b.mem := by
      funext q
      by_cases hq : q = p
      · subst hq
        simp only [linkedTail, List.getLast?_nil, reduceCtorEq, if_false,
          if_true]
        rw [← hprev]
      · simp [linkedTail, hq]
    rw [hmem]
    simp [linkTail, hhead]
  · rw [List.concat_eq_append] at hhead htail hp ⊢
    have hxp : x ≠ p := by
      rintro rfl
      simp at hp
    obtain ⟨y, hy⟩ : ∃ y, (init ++ [x]).head? = some y := by
      cases init <;> simp
    rw [hy] at hhead
    rw [List.getLast?_append, List.getLast?_singleton, Option.some_or] at htail
    have hmem : ((b.setNext x (some p)).setPrev p (some x)).mem =
        linkedTail b.mem p (init ++ [x]) := by
      funext q
      simp only [setPrev, setNext, setOrder, linkedTail, List.getLast?_append,
        List.getLast?_singleton, Option.some_or, Option.some.injEq]
      by_cases hq : q = p
      · subst hq
        simp [hxp, hxp.symm]
      · by_cases hqx : q = x
        · subst hqx
          simp [hq]
        · simp [hq, hqx, Ne.symm hqx]
    simp only [linkTail, hhead, htail]
    rw [← hmem]
    rfl

/-- `add_to_price_queue` refuses a new price when the side is full. -/
theorem addToPriceQueue_full (hlev : b.LevelsHold nodes) (hK : 0 < K)
    (hprice : (b.mem p).price ≠ emptyPrice (b.mem p).side)
    (hnil : nodes (b.mem p).side (b.mem p).price = [])
    (hfull : K + coldCap ≤ (b.levels (b.mem p).side).entries.length) :
    b.addToPriceQueue p = .ok (false, b) := by
  obtain ⟨m, hrep, hm⟩ := hlev (b.mem p).side
  have hlookup : m.lookup (b.mem p).price = none := by
    rw [hm, hnil]
    rfl
  rw [hrep.perm.length_eq] at hfull
  have hfind := TwoTierLevels.findOrInsert_full hrep hK hprice hlookup hfull
  simp [addToPriceQueue, findOrInsertLevel, hfind, TwoTierLevels.get]

/-- The level of `price` has been rewritten for the queue `l`. -/
theorem LevelsHold.setLevel {side : Side} {price : UInt32}
    {l : List OrderPtr} {t : TwoTierLevels side K coldCap}
    {m m' : AList fun _ : UInt32 => LevelData} {mem : OrderPtr → Order}
    (h : b.LevelsHold nodes)
    (hm : ∀ price, m.lookup price = levelOf b.mem (nodes side price))
    (hrep : t.Represents m') (hself : m'.lookup price = levelOf mem l)
    (hrest : ∀ price', price' ≠ price → m'.lookup price' = m.lookup price')
    (hshares : ∀ side' price', ¬(side' = side ∧ price' = price) →
      ∀ q ∈ nodes side' price', (mem q).shares = (b.mem q).shares) :
    (({ b with mem } : OrderBook K coldCap).setLevels side t).LevelsHold
      (nodes.set side price l) := by
  have hself' : ((({ b with mem } : OrderBook K coldCap).setLevels
      side t).levels side).Represents m' := by
    rw [levels_setLevels_self]
    exact hrep
  refine h.set hm hself' ?_ ?_ hrest ?_
  · intro side' hne
    rw [levels_setLevels_of_ne _ _ hne]
    cases side' <;> rfl
  · rw [mem_setLevels]
    exact hself
  · rw [mem_setLevels]
    exact hshares

/-- The queue of a price with its new last node. -/
theorem levelOf_linkedTail (l : List OrderPtr) :
    levelOf (linkedTail b.mem p l) (l ++ [p]) = some {
      head := l.head?.or (some p)
      tail := some p
      totalQty := quantity b.mem l + (b.mem p).shares.toUInt64 } := by
  have hqty : quantity (linkedTail b.mem p l) (l ++ [p]) =
      quantity b.mem l + (b.mem p).shares.toUInt64 := by
    have hsame : quantity (linkedTail b.mem p l) (l ++ [p]) =
        quantity b.mem (l ++ [p]) := quantity_congr fun _ _ => rfl
    rw [hsame, quantity_append]
    simp [quantity]
  rw [levelOf_eq (by simp), hqty]
  simp

/-- `add_to_price_queue` once `find_or_insert` has found a level. -/
theorem addToPriceQueue_eq {side : Side} {price : UInt32} {loc : Loc}
    {t : TwoTierLevels side K coldCap} {level : LevelData} {l : List OrderPtr}
    (hside : (b.mem p).side = side) (hpr : (b.mem p).price = price)
    (hfind : (b.levels side).findOrInsert price = (loc, t))
    (hget : t.get loc = some level)
    (hhead : level.head = l.head?) (htail : level.tail = l.getLast?)
    (hp : p ∉ l) (hprev : (b.mem p).prev = none) :
    b.addToPriceQueue p = .ok (true,
      ({ b with mem := linkedTail b.mem p l } : OrderBook K coldCap).setLevels
        side (t.put loc {
          head := level.head.or (some p)
          tail := some p
          totalQty := level.totalQty + (b.mem p).shares.toUInt64 })) := by
  have hmem : (b.setLevels side t).mem = b.mem := mem_setLevels b side t
  have hlink : (b.setLevels side t).linkTail p level =
      .ok { b.setLevels side t with mem := linkedTail b.mem p l } := by
    rw [← hmem]
    exact linkTail_eq hhead htail hp (by rw [hmem, hprev])
  subst hside hpr
  simp only [addToPriceQueue, findOrInsertLevel, hfind, levels_setLevels_self,
    hget, hlink, setLevel_setLevels]
  rfl

/-- `add_to_price_queue` appends to the queue of the price when the price has a
level or may get one. -/
theorem addToPriceQueue_spec {side : Side} {price : UInt32}
    {l : List OrderPtr} (hside : (b.mem p).side = side)
    (hpr : (b.mem p).price = price) (hl : nodes side price = l)
    (hlev : b.LevelsHold nodes) (hK : 0 < K)
    (hprice : price ≠ emptyPrice side)
    (hprev : (b.mem p).prev = none) (hp : p ∉ l)
    (hroom : l ≠ [] ∨ (b.levels side).entries.length < K + coldCap) :
    ∃ b', b.addToPriceQueue p = .ok (true, b') ∧ SameStore b b' ∧
      b'.mem = linkedTail b.mem p l ∧
      b'.LevelsHold (nodes.set side price (l ++ [p])) := by
  obtain ⟨m, hrep, hm⟩ := hlev side
  -- the level that `find_or_insert` yields, with the ends and quantity of `l`
  obtain ⟨loc, t, level, m', hfind, hloc, hrep', hhead, htail, hqty, hrest⟩ :
      ∃ loc t level m', (b.levels side).findOrInsert price = (loc, t) ∧
        t.Locates price level loc ∧ t.Represents m' ∧
        level.head = l.head? ∧ level.tail = l.getLast? ∧
        level.totalQty = quantity b.mem l ∧
        ∀ price', price' ≠ price → m'.lookup price' = m.lookup price' := by
    have hlookup := hm price
    rw [hl] at hlookup
    by_cases hnil : l = []
    · have hlen := hroom.resolve_left (not_not.mpr hnil)
      rw [hrep.perm.length_eq] at hlen
      rw [hnil] at hlookup
      obtain ⟨loc, t, hfind, hloc, hrep'⟩ :=
        TwoTierLevels.findOrInsert_new hrep hK hprice hlookup hlen
      refine ⟨loc, t, {}, _, hfind, hloc, hrep', ?_, ?_, ?_, ?_⟩
      · rw [hnil, List.head?_nil]
      · rw [hnil, List.getLast?_nil]
      · rw [hnil]
        rfl
      · intro price' hne
        exact AList.lookup_insert_ne hne
    · rw [levelOf_eq hnil] at hlookup
      exact ⟨_, _, _, m, TwoTierLevels.findOrInsert_of_lookup hrep hlookup,
        TwoTierLevels.findIdx_locates hrep hlookup, hrep, rfl, rfl, rfl,
        fun _ _ => rfl⟩
  refine ⟨_, addToPriceQueue_eq hside hpr hfind hloc.get_eq hhead htail hp
    hprev, ?_, ?_, ?_⟩
  · exact sameStore_setLevels b _ side _
  · rw [mem_setLevels]
  · apply hlev.setLevel hm (hrep'.put hprice hloc _)
    · rw [AList.lookup_insert, levelOf_linkedTail, hhead, hqty]
    · intro price' hne
      rw [AList.lookup_insert_ne hne, hrest price' hne]
    · intro side' price' _ q _
      rfl

/-- The first `if` of `remove_from_price_queue`, for an order between `l₁` and
`l₂`. -/
theorem unlinkPrev_eq {level : LevelData} {l₁ l₂ : List OrderPtr}
    (hprev : (b.mem p).prev = l₁.getLast?) (hnext : (b.mem p).next = l₂.head?)
    (hhead : level.head = (l₁ ++ p :: l₂).head?) :
    b.unlinkPrev p level = ({ level with head := (l₁ ++ l₂).head? },
      { b with mem := fun q => { b.mem q with
          next := if l₁.getLast? = some q then l₂.head?
            else (b.mem q).next } }) := by
  rcases List.eq_nil_or_concat l₁ with rfl | ⟨init, x, rfl⟩
  · simp only [List.getLast?_nil] at hprev
    simp [unlinkPrev, hprev, hnext]
  · rw [List.concat_eq_append] at hprev hhead ⊢
    rw [List.getLast?_append, List.getLast?_singleton, Option.some_or]
      at hprev ⊢
    have hsame : (init ++ [x] ++ l₂).head? = level.head := by
      rw [hhead]
      cases init <;> simp
    have hmem : (b.setNext x (b.mem p).next).mem = fun q => { b.mem q with
        next := if some x = some q then l₂.head? else (b.mem q).next } := by
      funext q
      by_cases hq : q = x
      · subst hq
        simp [setNext, setOrder, hnext]
      · simp [setNext, setOrder, hq, Ne.symm hq]
    simp only [unlinkPrev, hprev, hsame]
    rw [← hmem]
    rfl

/-- The second `if` of `remove_from_price_queue`. -/
theorem unlinkNext_eq {level : LevelData} {l₁ l₂ : List OrderPtr}
    (hprev : (b.mem p).prev = l₁.getLast?) (hnext : (b.mem p).next = l₂.head?)
    (htail : level.tail = (l₁ ++ p :: l₂).getLast?) :
    b.unlinkNext p level = ({ level with tail := (l₁ ++ l₂).getLast? },
      { b with mem := fun q => { b.mem q with
          prev := if l₂.head? = some q then l₁.getLast?
            else (b.mem q).prev } }) := by
  cases l₂ with
  | nil =>
      simp only [List.head?_nil] at hnext
      simp [unlinkNext, hnext, hprev]
  | cons y l₂ =>
      rw [List.head?_cons] at hnext ⊢
      have hsame : (l₁ ++ y :: l₂).getLast? = level.tail := by
        rw [htail]
        simp [List.getLast?_append, List.getLast?_cons]
      have hmem : (b.setPrev y (b.mem p).prev).mem = fun q => { b.mem q with
          prev := if some y = some q then l₁.getLast?
            else (b.mem q).prev } := by
        funext q
        by_cases hq : q = y
        · subst hq
          simp [setPrev, setOrder, hprev]
        · simp [setPrev, setOrder, hq, Ne.symm hq]
      simp only [unlinkNext, hnext, hsame]
      rw [← hmem]
      rfl

theorem unlink_eq {level : LevelData} {l₁ l₂ : List OrderPtr}
    (hprev : (b.mem p).prev = l₁.getLast?) (hnext : (b.mem p).next = l₂.head?)
    (hp : p ∉ l₁) (hhead : level.head = (l₁ ++ p :: l₂).head?)
    (htail : level.tail = (l₁ ++ p :: l₂).getLast?) :
    (b.unlinkPrev p level).2.unlinkNext p (b.unlinkPrev p level).1 =
      ({ level with
          head := (l₁ ++ l₂).head?
          tail := (l₁ ++ l₂).getLast? },
        { b with mem := unlinked b.mem l₁ l₂ }) := by
  have hlast : l₁.getLast? ≠ some p := fun heq =>
    hp (List.mem_of_getLast? heq)
  let b₁ : OrderBook K coldCap := { b with
    mem := fun q => { b.mem q with
      next := if l₁.getLast? = some q then l₂.head? else (b.mem q).next } }
  have hprev₁ : (b₁.mem p).prev = l₁.getLast? := hprev
  have hnext₁ : (b₁.mem p).next = l₂.head? := by
    simp only [b₁, hlast, if_false, hnext]
  rw [unlinkPrev_eq hprev hnext hhead]
  exact unlinkNext_eq hprev₁ hnext₁ htail

/-- `remove_from_price_queue` once the level of the order has been found. -/
theorem removeFromPriceQueue_eq {side : Side} {price : UInt32} {loc : Loc}
    {level : LevelData} {l₁ l₂ : List OrderPtr}
    (hside : (b.mem p).side = side) (hpr : (b.mem p).price = price)
    (hfind : (b.levels side).findIdx price = loc)
    (hget : (b.levels side).get loc = some level)
    (hprev : (b.mem p).prev = l₁.getLast?) (hnext : (b.mem p).next = l₂.head?)
    (hp : p ∉ l₁) (hhead : level.head = (l₁ ++ p :: l₂).head?)
    (htail : level.tail = (l₁ ++ p :: l₂).getLast?) :
    b.removeFromPriceQueue p = (true,
      ({ b with mem := unlinked b.mem l₁ l₂ } : OrderBook K coldCap).setLevels
        side (let t := (b.levels side).put loc {
                head := (l₁ ++ l₂).head?
                tail := (l₁ ++ l₂).getLast?
                totalQty := level.totalQty - (b.mem p).shares.toUInt64 }
              match (l₁ ++ l₂).head? with
              | none => t.erase price
              | some _ => t)) := by
  have hunlink := unlink_eq hprev hnext hp hhead htail
  have hshares : (unlinked b.mem l₁ l₂ p).shares = (b.mem p).shares := rfl
  subst hside hpr hfind
  simp only [removeFromPriceQueue, findLevel, hget, hunlink, hshares,
    setLevel_eq]
  cases (l₁ ++ l₂).head? with
  | none => rw [eraseLevel_setLevels]
  | some q => rfl

/-- `remove_from_price_queue` takes a live order out of its queue, and the
level with it when the queue becomes empty. -/
theorem removeFromPriceQueue_spec {side : Side} {price : UInt32}
    {l₁ l₂ : List OrderPtr} (hside : (b.mem p).side = side)
    (hpr : (b.mem p).price = price) (hl : nodes side price = l₁ ++ p :: l₂)
    (hlev : b.LevelsHold nodes) (hq : QueuesHold b.mem live nodes) :
    ∃ b', b.removeFromPriceQueue p = (true, b') ∧ SameStore b b' ∧
      b'.mem = unlinked b.mem l₁ l₂ ∧
      b'.LevelsHold (nodes.set side price (l₁ ++ l₂)) := by
  obtain ⟨m, hrep, hm⟩ := hlev side
  have hlookup := hm price
  rw [hl, levelOf_eq (by simp)] at hlookup
  have hprice := (hrep.lookup_eq_some_iff.mp hlookup).2
  have hloc := TwoTierLevels.findIdx_locates hrep hlookup
  have hchain := hq.chained side price
  have hnodup := hq.nodup side price
  rw [hl] at hchain hnodup
  obtain ⟨hprev, hnext⟩ := hchain.middle
  have hp : p ∉ l₁ := fun hmem => (List.nodup_append.mp hnodup).2.2 p hmem p
    (by simp) rfl
  refine ⟨_, removeFromPriceQueue_eq hside hpr rfl hloc.get_eq hprev hnext hp
    rfl rfl, sameStore_setLevels b _ side _, ?_, ?_⟩
  · rw [mem_setLevels]
  · have hput := hrep.put hprice hloc
    cases hrest : (l₁ ++ l₂).head? with
    | none =>
        have hnil : l₁ ++ l₂ = [] := List.head?_eq_none_iff.mp hrest
        rw [hnil]
        refine hlev.setLevel hm ((hput _).erase (AList.lookup_insert _)) ?_ ?_ ?_
        · rw [AList.lookup_erase]
          rfl
        · intro price' hne
          rw [AList.lookup_erase_ne hne, AList.lookup_insert_ne hne]
        · intro side' price' _ q _
          rfl
    | some q =>
        have hne : l₁ ++ l₂ ≠ [] := by
          intro hnil
          rw [hnil] at hrest
          cases hrest
        refine hlev.setLevel hm (hput _) ?_ ?_ ?_
        · have hqty : quantity b.mem (l₁ ++ p :: l₂) -
              (b.mem p).shares.toUInt64 =
                quantity (unlinked b.mem l₁ l₂) (l₁ ++ l₂) := by
            have hsame : quantity (unlinked b.mem l₁ l₂) (l₁ ++ l₂) =
                quantity b.mem (l₁ ++ l₂) := quantity_congr fun _ _ => rfl
            rw [hsame, quantity_append, quantity_append, quantity_cons]
            grind
          rw [AList.lookup_insert, levelOf_eq hne, hqty, hrest]
        · intro price' hne
          exact AList.lookup_insert_ne hne
        · intro side' price' _ q _
          rfl

/-! ## The public operations -/

theorem addOrder_of_live (h : b.Consistent live nodes [])
    (hlive : live.lookup oid = some p) (shares price : UInt32) (side : Side) :
    b.addOrder .available oid shares price side =
      .ok (.error .duplicateOrderId, b) := by
  have hfind := LinearProbingTable.find_eq_lookup h.store.table oid
  simp [addOrder, hfind, hlive]

/-- With `2^32` live orders a new order terminates the process. -/
theorem addOrder_of_full (h : b.Consistent live nodes [])
    (hnew : live.lookup oid = none) (hlen : live.entries.length = 2 ^ 32)
    (shares price : UInt32) (side : Side) :
    b.addOrder .available oid shares price side = .error .terminate := by
  have hfind := LinearProbingTable.find_eq_lookup h.store.table oid
  simp [addOrder, hfind, hnew, newOrder_of_full h.store hlen]

/-- The book with a new object that is not queued yet. -/
theorem newOrder_consistent (h : b.Consistent live nodes [])
    (hlen : live.entries.length < 2 ^ 32) (o : Order) :
    ∃ p b', b.newOrder .available = .ok (p, b') ∧
      (b'.setOrder p o).Consistent live nodes [p] ∧
      (∀ side, b'.levels side = b.levels side) ∧ b'.mem = b.mem := by
  obtain ⟨p, b', hnew, hstore, hlevels, hmem⟩ := newOrder_spec h.store hlen
  have hp := hstore.not_live
  refine ⟨p, b', hnew, ⟨?_, ?_, hstore.congr rfl rfl rfl⟩, hlevels, hmem⟩
  · refine h.levels.congr hlevels ?_
    intro side price q hq
    have hne : q ≠ p := by
      rintro rfl
      exact hp _ (h.queues.live_of_mem hq)
    simp [setOrder, hne, hmem]
  · change QueuesHold (Function.update b'.mem p o) live nodes
    rw [hmem]
    exact h.queues.update o hp

/-- A new price on a full side is refused. -/
theorem addOrder_levelsFull (h : b.Consistent live nodes []) (hK : 0 < K)
    (hnew : live.lookup oid = none) (hlen : live.entries.length < 2 ^ 32)
    {price : UInt32} {side : Side} (hprice : price ≠ emptyPrice side)
    (hnil : nodes side price = [])
    (hfull : K + coldCap ≤ (b.levels side).entries.length) (shares : UInt32) :
    ∃ b', b.addOrder .available oid shares price side =
        .ok (.error .levelsFull, b') ∧
      b'.Consistent live nodes [] ∧
      ∀ q oid, live.lookup oid = some q →
        (b'.mem q).resting = (b.mem q).resting := by
  have hfind := LinearProbingTable.find_eq_lookup h.store.table oid
  let o : Order := {
    orderNum := oid, shares, price, side, next := none, prev := none }
  obtain ⟨p, b₁, hget, hcons, hlevels, hmem⟩ := newOrder_consistent h hlen o
  have ho : (b₁.setOrder p o).mem p = o := by simp [setOrder]
  have hadd : (b₁.setOrder p o).addToPriceQueue p =
      .ok (false, b₁.setOrder p o) := by
    apply addToPriceQueue_full hcons.levels hK
    · rw [ho]
      exact hprice
    · rw [ho]
      exact hnil
    · rw [ho]
      have hside : (b₁.setOrder p o).levels side = b.levels side :=
        hlevels side
      change K + coldCap ≤ ((b₁.setOrder p o).levels side).entries.length
      rw [hside]
      exact hfull
  refine ⟨{ b₁.setOrder p o with
    ordersOp := (b₁.setOrder p o).ordersOp.restore p }, ?_,
    ⟨hcons.levels, hcons.queues, hcons.store.restore⟩, ?_⟩
  · simp [addOrder, hfind, hnew, hget, o, hadd]
  · intro q oid' hq
    have hne : q ≠ p := by
      rintro rfl
      exact hcons.store.not_live oid' hq
    simp [setOrder, hne, hmem]

/-- An accepted order becomes the tail of the queue of its price. -/
theorem addOrder_spec (h : b.Consistent live nodes []) (hK : 0 < K)
    (hnew : live.lookup oid = none) (hlen : live.entries.length < 2 ^ 32)
    {price : UInt32} {side : Side} (hprice : price ≠ emptyPrice side)
    (hroom : nodes side price ≠ [] ∨
      (b.levels side).entries.length < K + coldCap) (shares : UInt32) :
    ∃ p b', b.addOrder .available oid shares price side = .ok (.ok (), b') ∧
      b'.Consistent (live.insert oid p)
        (nodes.set side price (nodes side price ++ [p])) [] ∧
      (b'.mem p).resting = ⟨side, price, shares⟩ ∧
      ∀ q oid, live.lookup oid = some q →
        (b'.mem q).resting = (b.mem q).resting := by
  have hfind := LinearProbingTable.find_eq_lookup h.store.table oid
  let o : Order := {
    orderNum := oid, shares, price, side, next := none, prev := none }
  obtain ⟨p, b₁, hget, hcons, hlevels, hmem⟩ := newOrder_consistent h hlen o
  have ho : (b₁.setOrder p o).mem p = o := by simp [setOrder]
  have hp := hcons.store.not_live
  have hside : ((b₁.setOrder p o).mem p).side = side := by rw [ho]
  have hpr : ((b₁.setOrder p o).mem p).price = price := by rw [ho]
  obtain ⟨b₂, hadd, hsame, hmem₂, hlev₂⟩ := addToPriceQueue_spec hside hpr rfl
    hcons.levels hK hprice (by rw [ho])
    (fun hin => hp _ (hcons.queues.live_of_mem hin)) (by
      have hlev : (b₁.setOrder p o).levels side = b.levels side := hlevels side
      rw [hlev]
      exact hroom)
  have hqueues := hcons.queues.append hnew hp (by rw [ho]) (by rw [ho])
  rw [hside, hpr, ← hmem₂] at hqueues
  refine ⟨p, { b₂ with orders := (b₂.orders.insert oid p).2 }, ?_,
    ⟨hlev₂, hqueues, (hcons.store.of_same hsame).insert hnew⟩, ?_⟩
  · simp [addOrder, hfind, hnew, hget, o, hadd]
  · change (b₂.mem p).resting = _ ∧ ∀ q oid, live.lookup oid = some q →
      (b₂.mem q).resting = (b.mem q).resting
    rw [hmem₂]
    constructor
    · simp [linkedTail, Order.resting, ho, o]
    · intro q oid' hq
      have hne : q ≠ p := by
        rintro rfl
        exact hp oid' hq
      simp [linkedTail, Order.resting, setOrder, hne, hmem]

theorem cancelOrder_of_not_live (h : b.Consistent live nodes [])
    (hlive : live.lookup oid = none) : b.cancelOrder oid = .ok (false, b) := by
  have hfind := LinearProbingTable.find_eq_lookup h.store.table oid
  simp [cancelOrder, hfind, hlive]

/-- A cancelled order leaves its queue and the id table. -/
theorem cancelOrder_spec (h : b.Consistent live nodes [])
    (hlive : live.lookup oid = some p) {l₁ l₂ : List OrderPtr}
    (hsplit : nodes (b.mem p).side (b.mem p).price = l₁ ++ p :: l₂) :
    ∃ b', b.cancelOrder oid = .ok (true, b') ∧
      b'.Consistent (live.erase oid)
        (nodes.set (b.mem p).side (b.mem p).price (l₁ ++ l₂)) [] ∧
      ∀ q, (b'.mem q).resting = (b.mem q).resting := by
  have hfind := LinearProbingTable.find_eq_lookup h.store.table oid
  obtain ⟨b₁, hremove, hsame, hmem, hlev⟩ :=
    removeFromPriceQueue_spec rfl rfl hsplit h.levels h.queues
  have hqueues := h.queues.remove hlive hsplit
  rw [← hmem] at hqueues
  obtain ⟨orders, herase, hstore⟩ := (h.store.of_same hsame).erase hlive
  refine ⟨{ b₁ with orders, ordersOp := b₁.ordersOp.restore p }, ?_,
    ⟨hlev, hqueues, hstore⟩, ?_⟩
  · simp [cancelOrder, hfind, hlive, hremove, herase]
  · intro q
    change (b₁.mem q).resting = (b.mem q).resting
    rw [hmem]
    rfl

theorem executeOrder_of_not_live (h : b.Consistent live nodes [])
    (hlive : live.lookup oid = none) (shares : UInt32) :
    b.executeOrder oid shares = .ok (false, b) := by
  have hfind := LinearProbingTable.find_eq_lookup h.store.table oid
  simp [executeOrder, hfind, hlive]

theorem executeOrder_of_le (h : b.Consistent live nodes [])
    (hlive : live.lookup oid = some p) {shares : UInt32}
    (hle : (b.mem p).shares ≤ shares) :
    b.executeOrder oid shares = b.cancelOrder oid := by
  have hfind := LinearProbingTable.find_eq_lookup h.store.table oid
  simp [executeOrder, hfind, hlive, hle]

theorem toUInt64_sub_of_lt {a s : UInt32} (h : a < s) :
    (s - a).toUInt64 = s.toUInt64 - a.toUInt64 := by
  rw [UInt32.lt_iff_toNat_lt] at h
  have hs := s.toNat_lt
  apply UInt64.toNat_inj.mp
  rw [UInt32.toNat_toUInt64, UInt32.toNat_sub_of_le, UInt64.toNat_sub_of_le]
  · simp
  · rw [UInt64.le_iff_toNat_le]
    simp
    omega
  · rw [UInt32.le_iff_toNat_le]
    omega

/-- Changing the shares of one node changes the quantity of its queue. -/
theorem quantity_setShares {mem : OrderPtr → Order} {l₁ l₂ : List OrderPtr}
    (hnodup : (l₁ ++ p :: l₂).Nodup) {a : UInt32} (ha : a < (mem p).shares) :
    quantity (Function.update mem p { mem p with
        shares := (mem p).shares - a }) (l₁ ++ p :: l₂) =
      quantity mem (l₁ ++ p :: l₂) - a.toUInt64 := by
  have hperm : (l₁ ++ p :: l₂).Perm (p :: (l₁ ++ l₂)) := List.perm_middle
  have hp := (List.nodup_cons.mp (hperm.nodup_iff.mp hnodup)).1
  rw [List.mem_append, not_or] at hp
  have hother : ∀ l : List OrderPtr, p ∉ l →
      quantity (Function.update mem p { mem p with
        shares := (mem p).shares - a }) l = quantity mem l := by
    intro l hl
    apply quantity_congr
    intro q hq
    have hne : q ≠ p := by
      rintro rfl
      exact hl hq
    rw [Function.update_of_ne hne]
  rw [quantity_append, quantity_append, quantity_cons, quantity_cons,
    hother l₁ hp.1, hother l₂ hp.2, Function.update_self]
  simp only
  rw [toUInt64_sub_of_lt ha]
  grind

/-- A partial fill lowers the shares of the order in place. -/
theorem executeOrder_partial (h : b.Consistent live nodes [])
    (hlive : live.lookup oid = some p) {shares : UInt32}
    (hlt : shares < (b.mem p).shares) :
    ∃ b', b.executeOrder oid shares = .ok (true, b') ∧
      b'.Consistent live nodes [] ∧
      b'.mem = Function.update b.mem p { b.mem p with
        shares := (b.mem p).shares - shares } := by
  have hfind := LinearProbingTable.find_eq_lookup h.store.table oid
  have hmem := h.queues.mem_of_live hlive
  obtain ⟨l₁, l₂, hsplit⟩ := List.append_of_mem hmem
  obtain ⟨m, hrep, hm⟩ := h.levels (b.mem p).side
  have hlookup := hm (b.mem p).price
  rw [hsplit, levelOf_eq (by simp)] at hlookup
  have hprice := (hrep.lookup_eq_some_iff.mp hlookup).2
  have hloc := TwoTierLevels.findIdx_locates hrep hlookup
  have hnodup := h.queues.nodup (b.mem p).side (b.mem p).price
  rw [hsplit] at hnodup
  set mem' := Function.update b.mem p { b.mem p with
    shares := (b.mem p).shares - shares } with hmem'
  let data : LevelData := {
    head := (l₁ ++ p :: l₂).head?
    tail := (l₁ ++ p :: l₂).getLast?
    totalQty := quantity b.mem (l₁ ++ p :: l₂) - shares.toUInt64 }
  let t := (b.levels (b.mem p).side).put
    ((b.levels (b.mem p).side).findIdx (b.mem p).price) data
  refine ⟨({ b with mem := mem' } : OrderBook K coldCap).setLevels
    (b.mem p).side t, ?_, ⟨?_, ?_, ?_⟩, ?_⟩
  · have hlevels : (b.setOrder p { b.mem p with
        shares := (b.mem p).shares - shares }).levels (b.mem p).side =
          b.levels (b.mem p).side := by
      cases (b.mem p).side <;> rfl
    have hge : ¬(b.mem p).shares ≤ shares := by
      rw [UInt32.le_iff_toNat_le]
      rw [UInt32.lt_iff_toNat_lt] at hlt
      omega
    simp only [executeOrder, hfind, hlive, ge_iff_le, hge, if_false, findLevel,
      hlevels, hloc.get_eq]
    rw [setOrder, setLevel_eq]
  · have hset : nodes = nodes.set (b.mem p).side (b.mem p).price
        (l₁ ++ p :: l₂) := by
      rw [← hsplit, Nodes.set_same]
    rw [hset]
    refine h.levels.setLevel hm (hrep.put hprice hloc data) ?_ ?_ ?_
    · rw [AList.lookup_insert, levelOf_eq (by simp), hmem',
        quantity_setShares hnodup hlt]
    · intro price' hne
      exact AList.lookup_insert_ne hne
    · intro side' price' hat q hq
      have hne : q ≠ p := by
        rintro rfl
        rw [h.queues.mem_iff] at hq
        exact hat ⟨hq.2.1.symm, hq.2.2.symm⟩
      rw [hmem', Function.update_of_ne hne]
  · rw [mem_setLevels]
    exact h.queues.setShares p _
  · exact h.store.of_same (sameStore_setLevels b _ _ _)
  · rw [mem_setLevels]

end Fastbook.OrderBook

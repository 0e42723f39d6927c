import Fastbook.OrderBook.OrderBookStep

/-!
# The order book refines the price-time book

`Simulates b r` ties a book to a reference book through the invariant.  Every
call of a run is answered as the reference answers it, as long as no new order
is added while `2^32` orders are live: at that point `max_orders_` has wrapped
and the process terminates.
-/

namespace Fastbook

open Support

namespace PriceTimeBook

variable {r : PriceTimeBook}

theorem mem_prices {side : Side} {price : UInt32} :
    price ∈ r.prices side ↔ ∃ oid o, r.orders.lookup oid = some o ∧
      o.side = side ∧ o.price = price := by
  unfold prices
  rw [List.mem_toFinset, List.mem_map]
  constructor
  · rintro ⟨⟨oid, o⟩, hmem, hprice⟩
    rw [List.mem_filter] at hmem
    refine ⟨oid, o, AList.mem_lookup_iff.mpr hmem.1, ?_, hprice⟩
    simpa using hmem.2
  · rintro ⟨oid, o, hlookup, hside, hprice⟩
    refine ⟨⟨oid, o⟩, ?_, hprice⟩
    rw [List.mem_filter]
    exact ⟨AList.mem_lookup_iff.mp hlookup, by simpa using hside⟩

/-- A call adds no new order while `2^32` orders are live. -/
def Fits (r : PriceTimeBook) : BookCall → Prop
  | .add oid _ _ _ => oid ∈ r.orders ∨ r.orders.entries.length < 2 ^ 32
  | _ => True

def FitsAll (maxLevels : ℕ) (r : PriceTimeBook) : List BookCall → Prop
  | [] => True
  | c :: cs => r.Fits c ∧ (r.call maxLevels c).2.FitsAll maxLevels cs

instance (r : PriceTimeBook) : (c : BookCall) → Decidable (r.Fits c)
  | .add _ _ _ _ => inferInstanceAs (Decidable (_ ∨ _))
  | .cancel _ => inferInstanceAs (Decidable True)
  | .execute _ _ => inferInstanceAs (Decidable True)
  | .reduce _ _ => inferInstanceAs (Decidable True)

def decidableFitsAll (maxLevels : ℕ) : (r : PriceTimeBook) →
    (cs : List BookCall) → Decidable (r.FitsAll maxLevels cs)
  | _, [] => inferInstanceAs (Decidable True)
  | r, c :: cs =>
    have := decidableFitsAll maxLevels (r.call maxLevels c).2 cs
    inferInstanceAs (Decidable (_ ∧ _))

instance (maxLevels : ℕ) (r : PriceTimeBook) (cs : List BookCall) :
    Decidable (r.FitsAll maxLevels cs) :=
  decidableFitsAll maxLevels r cs

theorem calls_append (maxLevels : ℕ) (r : PriceTimeBook)
    (cs cs' : List BookCall) :
    (r.calls maxLevels (cs ++ cs')).2 =
      ((r.calls maxLevels cs).2.calls maxLevels cs').2 := by
  induction cs generalizing r with
  | nil => rfl
  | cons c cs ih => simp [calls, ih]

theorem fitsAll_append {maxLevels : ℕ} {cs cs' : List BookCall} :
    r.FitsAll maxLevels (cs ++ cs') ↔ r.FitsAll maxLevels cs ∧
      (r.calls maxLevels cs).2.FitsAll maxLevels cs' := by
  induction cs generalizing r with
  | nil => simp [FitsAll, calls]
  | cons c cs ih => simp [FitsAll, calls, ih, and_assoc]

end PriceTimeBook

namespace OrderBook

variable {K coldCap : ℕ} {b : OrderBook K coldCap} {r : PriceTimeBook}

/-- The order ids queued at a side and price, from head to tail. -/
def queueOf (b : OrderBook K coldCap) (side : Side) (price : UInt32) :
    List Oid :=
  (walk (fun p => (b.mem p).next) b.ordersOp.capacity
    (b.getFirstOrder side price)).map fun p => (b.mem p).orderNum

/-- What can be seen of a book is what the reference says. -/
structure Agrees (b : OrderBook K coldCap) (r : PriceTimeBook) : Prop where
  orderByOid : ∀ oid, (b.getOrderByOid oid).map
      (fun p => ((b.mem p).orderNum, (b.mem p).resting)) =
    (r.orders.lookup oid).map fun o => (oid, o)
  queue : ∀ side price, price ≠ emptyPrice side →
    b.queueOf side price = r.queue side price
  firstOrder : ∀ side price, price ≠ emptyPrice side →
    (b.getFirstOrder side price).map (fun p => (b.mem p).orderNum) =
      (r.queue side price).head?
  bestPrice : ∀ side,
    (r.prices side = ∅ ∧ b.bestPrice side = emptyPrice side) ∨
    (b.bestPrice side ∈ r.prices side ∧
      ∀ price ∈ r.prices side, better side price (b.bestPrice side) = false)

/-- The relation between a book and the reference, for given ghost values. -/
structure Refines (b : OrderBook K coldCap) (r : PriceTimeBook)
    (live : LiveMap) (nodes : Nodes) : Prop where
  consistent : b.Consistent live nodes []
  orders : ∀ oid, r.orders.lookup oid =
    (live.lookup oid).map fun p => (b.mem p).resting
  queue : ∀ side price, r.queue side price =
    (nodes side price).map fun p => (b.mem p).orderNum

def Simulates (b : OrderBook K coldCap) (r : PriceTimeBook) : Prop :=
  ∃ live nodes, b.Refines r live nodes

variable {live : LiveMap} {nodes : Nodes}

theorem Refines.mem_orders_iff (h : b.Refines r live nodes) (oid : Oid) :
    oid ∈ r.orders ↔ oid ∈ live := by
  rw [← AList.lookup_isSome, ← AList.lookup_isSome, h.orders,
    Option.isSome_map]

theorem Refines.length_eq (h : b.Refines r live nodes) :
    r.orders.entries.length = live.entries.length :=
  length_entries_eq h.mem_orders_iff

theorem Refines.mem_prices_iff (h : b.Refines r live nodes) {side : Side}
    {price : UInt32} : price ∈ r.prices side ↔ nodes side price ≠ [] := by
  rw [PriceTimeBook.mem_prices]
  constructor
  · rintro ⟨oid, o, hlookup, rfl, rfl⟩
    rw [h.orders, Option.map_eq_some_iff] at hlookup
    obtain ⟨p, hlive, rfl⟩ := hlookup
    exact List.ne_nil_of_mem (h.consistent.queues.mem_of_live hlive)
  · intro hne
    obtain ⟨p, hp⟩ := List.exists_mem_of_ne_nil _ hne
    obtain ⟨hlive, hside, hprice⟩ :=
      (h.consistent.queues.mem_iff side price p).mp hp
    exact ⟨_, (b.mem p).resting, by rw [h.orders, hlive]; rfl, hside, hprice⟩

/-- Prices with nodes are the keys of the level map. -/
theorem Refines.mem_levels_iff (h : b.Refines r live nodes) {side : Side}
    {m : AList fun _ : UInt32 => LevelData}
    (hm : ∀ price, m.lookup price = levelOf b.mem (nodes side price))
    (price : UInt32) : price ∈ m ↔ price ∈ r.prices side := by
  rw [h.mem_prices_iff, ← AList.lookup_isSome, hm price]
  cases hnodes : nodes side price with
  | nil => simp [levelOf]
  | cons p l => simp [levelOf]

theorem Refines.levelCount_eq (h : b.Refines r live nodes) (side : Side) :
    (b.levels side).entries.length = (r.prices side).card := by
  obtain ⟨m, hrep, hm⟩ := h.consistent.levels side
  have hkeys : m.keys.toFinset = r.prices side := by
    ext price
    rw [List.mem_toFinset]
    exact h.mem_levels_iff hm price
  rw [hrep.perm.length_eq, ← hkeys, List.toFinset_card_of_nodup m.keys_nodup]
  simp [AList.keys, List.keys]

/-! ## What can be seen -/

theorem Refines.getFirstOrder_eq (h : b.Refines r live nodes) {side : Side}
    {price : UInt32} (hprice : price ≠ emptyPrice side) :
    b.getFirstOrder side price = (nodes side price).head? := by
  obtain ⟨m, hrep, hm⟩ := h.consistent.levels side
  have hlookup := hm price
  cases hnodes : nodes side price with
  | nil =>
      rw [hnodes] at hlookup
      have hfind := TwoTierLevels.findIdx_eq_none hrep hprice hlookup
      simp [getFirstOrder, findLevel, hfind, TwoTierLevels.get]
  | cons p l =>
      rw [hnodes] at hlookup
      have hget := (TwoTierLevels.findIdx_locates hrep hlookup).get_eq
      simp [getFirstOrder, findLevel, hget]

/-- A queue is not longer than the pool. -/
theorem Refines.length_nodes_le (h : b.Refines r live nodes) (side : Side)
    (price : UInt32) :
    (nodes side price).length ≤ b.ordersOp.capacity := by
  have hsub : nodes side price ⊆ live.entries.map Sigma.snd := by
    intro p hp
    have hlive := h.consistent.queues.live_of_mem hp
    rw [← Option.mem_def, AList.mem_lookup_iff] at hlive
    exact List.mem_map.mpr ⟨_, hlive, rfl⟩
  have hle := (List.subperm_of_subset
    (h.consistent.queues.nodup side price) hsub).length_le
  have hcount := h.consistent.store.length_eq
  rw [List.length_map] at hle
  omega

theorem Refines.agrees (h : b.Refines r live nodes) : b.Agrees r := by
  have hqueues := h.consistent.queues
  refine ⟨?_, ?_, ?_, ?_⟩
  · intro oid
    have hfind := LinearProbingTable.find_eq_lookup
      h.consistent.store.table oid
    rw [getOrderByOid, hfind, h.orders]
    cases hlive : live.lookup oid with
    | none => rfl
    | some p => simp [hqueues.numbered oid p hlive]
  · intro side price hprice
    rw [queueOf, h.getFirstOrder_eq hprice,
      (hqueues.chained side price).walk_eq (h.length_nodes_le side price),
      h.queue]
  · intro side price hprice
    rw [h.getFirstOrder_eq hprice, h.queue, List.head?_map]
  · intro side
    obtain ⟨m, hrep, hm⟩ := h.consistent.levels side
    have hkeys := h.mem_levels_iff hm
    rcases hrep.bestPrice_spec with ⟨hempty, hnil⟩ | ⟨hmem, hmax⟩
    · left
      refine ⟨?_, hempty⟩
      rw [Finset.eq_empty_iff_forall_notMem]
      intro price hprice
      rw [← hkeys] at hprice
      change price ∈ m.entries.keys at hprice
      simp [hnil] at hprice
    · right
      refine ⟨(hkeys _).mp hmem, ?_⟩
      intro price hprice
      have hle := hmax price ((hkeys price).mpr hprice)
      rw [better_eq, decide_eq_false_iff_not]
      exact not_lt.mpr hle

/-! ## One call -/

theorem Refines.simulates (h : b.Refines r live nodes) : b.Simulates r :=
  ⟨live, nodes, h⟩

/-- A refused call leaves the reference where it is. -/
theorem Refines.unchanged {b' : OrderBook K coldCap}
    (h : b.Refines r live nodes) (h' : b'.Consistent live nodes [])
    (hrest : ∀ q oid, live.lookup oid = some q →
      (b'.mem q).resting = (b.mem q).resting) : b'.Refines r live nodes := by
  refine ⟨h', ?_, ?_⟩
  · intro oid
    rw [h.orders]
    cases hlive : live.lookup oid with
    | none => rfl
    | some p => simp [hrest p oid hlive]
  · intro side price
    rw [h.queue]
    apply List.map_congr_left
    intro p hp
    have hlive := h.consistent.queues.live_of_mem hp
    exact (h'.queues.numbered _ p hlive).symm

theorem addOrder_refines (h : b.Refines r live nodes) (hK : 0 < K) {oid : Oid}
    {shares price : UInt32} {side : Side} (hprice : price ≠ emptyPrice side)
    (hfits : oid ∈ r.orders ∨ r.orders.entries.length < 2 ^ 32) :
    ∃ b', b.addOrder .available oid shares price side =
        .ok ((r.addOrder (K + coldCap) oid shares price side).1, b') ∧
      b'.Simulates (r.addOrder (K + coldCap) oid shares price side).2 := by
  rw [h.length_eq] at hfits
  by_cases hlive : oid ∈ r.orders
  · rw [PriceTimeBook.addOrder, if_pos hlive]
    rw [h.mem_orders_iff, ← AList.lookup_isSome, Option.isSome_iff_exists]
      at hlive
    obtain ⟨p, hp⟩ := hlive
    exact ⟨b, addOrder_of_live h.consistent hp shares price side, h.simulates⟩
  · have hlen := hfits.resolve_left hlive
    have hnew : live.lookup oid = none := by
      rw [AList.lookup_eq_none, ← h.mem_orders_iff]
      exact hlive
    rw [PriceTimeBook.addOrder, if_neg hlive]
    by_cases hfull : price ∉ r.prices side ∧
        K + coldCap ≤ (r.prices side).card
    · rw [if_pos hfull]
      have hnil := hfull.1
      rw [h.mem_prices_iff, not_not] at hnil
      obtain ⟨b', hadd, hcons, hrest⟩ := addOrder_levelsFull h.consistent hK
        hnew hlen hprice hnil (by rw [h.levelCount_eq]; exact hfull.2) shares
      exact ⟨b', hadd, (h.unchanged hcons hrest).simulates⟩
    · rw [if_neg hfull]
      have hroom : nodes side price ≠ [] ∨
          (b.levels side).entries.length < K + coldCap := by
        rw [h.levelCount_eq, ← h.mem_prices_iff]
        by_cases hmem : price ∈ r.prices side
        · exact Or.inl hmem
        · exact Or.inr (not_le.mp fun hle => hfull ⟨hmem, hle⟩)
      obtain ⟨p, b', hadd, hcons, hself, hrest⟩ :=
        addOrder_spec h.consistent hK hnew hlen hprice hroom shares
      refine ⟨b', hadd, live.insert oid p, _, hcons, ?_, ?_⟩
      · intro oid'
        change (r.orders.insert oid ⟨side, price, shares⟩).lookup oid' = _
        by_cases hsame : oid' = oid
        · subst hsame
          rw [AList.lookup_insert, AList.lookup_insert, Option.map_some, hself]
        · rw [AList.lookup_insert_ne hsame, AList.lookup_insert_ne hsame,
            h.orders]
          cases hq : live.lookup oid' with
          | none => rfl
          | some q => simp [hrest q oid' hq]
      · have hnum : ∀ side price, ∀ q ∈ nodes side price,
            (b'.mem q).orderNum = (b.mem q).orderNum := by
          intro side' price' q hq
          have hqlive := h.consistent.queues.live_of_mem hq
          apply hcons.queues.numbered
          rw [AList.lookup_insert_ne, hqlive]
          intro heq
          rw [heq, hnew] at hqlive
          cases hqlive
        intro side' price'
        by_cases hat : side' = side ∧ price' = price
        · obtain ⟨rfl, rfl⟩ := hat
          have hpnum := hcons.queues.numbered oid p (AList.lookup_insert _)
          rw [Nodes.set_self, List.map_append, List.map_singleton, hpnum,
            List.map_congr_left (hnum side' price'), ← h.queue]
          exact r.setQueue_queue_self _ _ _
        · rw [Nodes.set_of_ne _ _ hat, List.map_congr_left (hnum side' price'),
            ← h.queue]
          exact r.setQueue_queue_of_ne _ hat

theorem addOrder_terminates (h : b.Refines r live nodes) {oid : Oid}
    (shares price : UInt32) (side : Side)
    (hfull : ¬(oid ∈ r.orders ∨ r.orders.entries.length < 2 ^ 32)) :
    b.addOrder .available oid shares price side = .error .terminate := by
  rw [not_or, h.mem_orders_iff, h.length_eq] at hfull
  obtain ⟨hnew, hlen⟩ := hfull
  have hle := h.consistent.store.length_le
  exact addOrder_of_full h.consistent (AList.lookup_eq_none.mpr hnew)
    (by omega) shares price side

theorem cancelOrder_refines (h : b.Refines r live nodes) (oid : Oid) :
    ∃ b', b.cancelOrder oid = .ok ((r.cancelOrder oid).1, b') ∧
      b'.Simulates (r.cancelOrder oid).2 := by
  have hqueues := h.consistent.queues
  cases hlive : live.lookup oid with
  | none =>
      have hnone : r.orders.lookup oid = none := by rw [h.orders, hlive]; rfl
      simp only [PriceTimeBook.cancelOrder, hnone]
      exact ⟨b, cancelOrder_of_not_live h.consistent hlive, h.simulates⟩
  | some p =>
      have hsome : r.orders.lookup oid = some (b.mem p).resting := by
        rw [h.orders, hlive]
        rfl
      simp only [PriceTimeBook.cancelOrder, hsome]
      obtain ⟨l₁, l₂, hsplit⟩ := List.append_of_mem (hqueues.mem_of_live hlive)
      obtain ⟨b', hcancel, hcons, hrest⟩ :=
        cancelOrder_spec h.consistent hlive hsplit
      have hp := hqueues.numbered oid p hlive
      have hnodup := hqueues.nodup (b.mem p).side (b.mem p).price
      rw [hsplit] at hnodup
      have hnotin : p ∉ l₁ ++ l₂ :=
        (List.nodup_cons.mp (List.perm_middle.nodup_iff.mp hnodup)).1
      -- objects other than `p` stay live under their own id
      have hnum : ∀ side price, ∀ q ∈ nodes side price, q ≠ p →
          (b'.mem q).orderNum = (b.mem q).orderNum ∧
            (b.mem q).orderNum ≠ oid := by
        intro side price q hq hne
        have hoid := hqueues.orderNum_ne hlive hq hne
        refine ⟨hcons.queues.numbered _ q ?_, hoid⟩
        rw [AList.lookup_erase_ne hoid, hqueues.live_of_mem hq]
      refine ⟨b', hcancel, live.erase oid, _, hcons, ?_, ?_⟩
      · intro oid'
        change (r.orders.erase oid).lookup oid' = _
        by_cases hsame : oid' = oid
        · subst hsame
          rw [AList.lookup_erase, AList.lookup_erase]
          rfl
        · rw [AList.lookup_erase_ne hsame, AList.lookup_erase_ne hsame,
            h.orders]
          simp only [hrest]
      · intro side price
        by_cases hat : side = (b.mem p).side ∧ price = (b.mem p).price
        · obtain ⟨rfl, rfl⟩ := hat
          have hin : ∀ q ∈ l₁ ++ l₂, q ∈ nodes (b.mem p).side (b.mem p).price ∧
              q ≠ p := by
            intro q hq
            constructor
            · rw [hsplit, List.perm_middle.mem_iff]
              exact List.mem_cons_of_mem _ hq
            · rintro rfl
              exact hnotin hq
          have hmap : (l₁ ++ l₂).map (fun q => (b'.mem q).orderNum) =
              (l₁ ++ l₂).map fun q => (b.mem q).orderNum :=
            List.map_congr_left fun q hq =>
              (hnum _ _ q (hin q hq).1 (hin q hq).2).1
          rw [Nodes.set_self, hmap]
          refine (r.setQueue_queue_self _ _ _).trans ?_
          change (r.queue (b.mem p).side (b.mem p).price).erase oid = _
          rw [h.queue, hsplit, List.map_append, List.map_cons, hp,
            List.erase_append_right, List.erase_cons_head, List.map_append]
          intro hmem
          obtain ⟨q, hq, hqnum⟩ := List.mem_map.mp hmem
          have hq' := hin q (List.mem_append_left _ hq)
          exact (hnum _ _ q hq'.1 hq'.2).2 hqnum
        · have hne : ∀ q ∈ nodes side price, q ≠ p := by
            rintro q hq rfl
            rw [hqueues.mem_iff] at hq
            exact hat ⟨hq.2.1.symm, hq.2.2.symm⟩
          rw [Nodes.set_of_ne _ _ hat]
          refine (r.setQueue_queue_of_ne _ hat).trans ?_
          rw [h.queue]
          exact List.map_congr_left fun q hq =>
            ((hnum side price q hq (hne q hq)).1).symm

theorem executeOrder_refines (h : b.Refines r live nodes) (oid : Oid)
    (shares : UInt32) :
    ∃ b', b.executeOrder oid shares = .ok ((r.executeOrder oid shares).1, b') ∧
      b'.Simulates (r.executeOrder oid shares).2 := by
  cases hlive : live.lookup oid with
  | none =>
      have hnone : r.orders.lookup oid = none := by rw [h.orders, hlive]; rfl
      simp only [PriceTimeBook.executeOrder, hnone]
      exact ⟨b, executeOrder_of_not_live h.consistent hlive shares,
        h.simulates⟩
  | some p =>
      have hsome : r.orders.lookup oid = some (b.mem p).resting := by
        rw [h.orders, hlive]
        rfl
      simp only [PriceTimeBook.executeOrder, hsome]
      by_cases hle : (b.mem p).resting.shares ≤ shares
      · rw [if_pos hle, executeOrder_of_le h.consistent hlive hle]
        exact cancelOrder_refines h oid
      · rw [if_neg hle]
        obtain ⟨b', hexec, hcons, hmem⟩ := executeOrder_partial h.consistent
          hlive (UInt32.not_le.mp hle)
        refine ⟨b', hexec, live, nodes, hcons, ?_, ?_⟩
        · intro oid'
          change (r.orders.insert oid _).lookup oid' = _
          by_cases hsame : oid' = oid
          · subst hsame
            rw [AList.lookup_insert, hlive, hmem]
            simp [Order.resting]
          · rw [AList.lookup_insert_ne hsame, h.orders]
            cases hq : live.lookup oid' with
            | none => rfl
            | some q =>
                have hne : q ≠ p := by
                  rintro rfl
                  apply hsame
                  rw [← h.consistent.queues.numbered oid' q hq]
                  exact h.consistent.queues.numbered oid q hlive
                simp [hmem, hne]
        · intro side price
          change r.queue side price = _
          rw [h.queue]
          apply List.map_congr_left
          intro q hq
          have hqlive := h.consistent.queues.live_of_mem hq
          exact (hcons.queues.numbered _ q hqlive).symm

/-- One call that fits is answered as the reference answers it. -/
theorem call_simulates (h : b.Simulates r) (hK : 0 < K) {c : BookCall}
    (hc : c.Priced) (hfits : r.Fits c) :
    ∃ b', b.call c = .ok ((r.call (K + coldCap) c).1, b') ∧
      b'.Simulates (r.call (K + coldCap) c).2 := by
  obtain ⟨live, nodes, href⟩ := h
  cases c with
  | add oid shares price side =>
      obtain ⟨b', hadd, hsim⟩ := addOrder_refines href hK hc hfits
      exact ⟨b', by simp [call, hadd, Except.map, PriceTimeBook.call], hsim⟩
  | cancel oid =>
      obtain ⟨b', hcancel, hsim⟩ := cancelOrder_refines href oid
      exact ⟨b', by simp [call, hcancel, Except.map, PriceTimeBook.call], hsim⟩
  | execute oid shares =>
      obtain ⟨b', hexec, hsim⟩ := executeOrder_refines href oid shares
      exact ⟨b', by simp [call, hexec, Except.map, PriceTimeBook.call], hsim⟩
  | reduce oid shares =>
      obtain ⟨b', hexec, hsim⟩ := executeOrder_refines href oid shares
      exact ⟨b', by simp [call, reduceOrder, hexec, Except.map,
        PriceTimeBook.call], hsim⟩

theorem call_terminates (h : b.Simulates r) {c : BookCall}
    (hfits : ¬r.Fits c) : b.call c = .error .terminate := by
  obtain ⟨live, nodes, href⟩ := h
  cases c with
  | add oid shares price side =>
      simp [call, addOrder_terminates href shares price side hfits, Except.map]
  | cancel oid => exact absurd trivial hfits
  | execute oid shares => exact absurd trivial hfits
  | reduce oid shares => exact absurd trivial hfits

/-! ## Runs -/

theorem calls_simulates (h : b.Simulates r) (hK : 0 < K) {cs : List BookCall}
    (hcs : ∀ c ∈ cs, c.Priced) (hfits : r.FitsAll (K + coldCap) cs) :
    ∃ b', b.calls cs = .ok ((r.calls (K + coldCap) cs).1, b') ∧
      b'.Simulates (r.calls (K + coldCap) cs).2 := by
  induction cs generalizing b r with
  | nil => exact ⟨b, rfl, h⟩
  | cons c cs ih =>
      obtain ⟨b₁, hcall, hsim⟩ := call_simulates h hK (hcs c (by simp)) hfits.1
      obtain ⟨b₂, hrest, hsim'⟩ := ih hsim
        (fun c' hc' => hcs c' (by simp [hc'])) hfits.2
      exact ⟨b₂, by simp [calls, hcall, hrest, PriceTimeBook.calls], hsim'⟩

theorem calls_terminates (h : b.Simulates r) (hK : 0 < K)
    {cs : List BookCall} (hcs : ∀ c ∈ cs, c.Priced)
    (hfits : ¬r.FitsAll (K + coldCap) cs) :
    b.calls cs = .error .terminate := by
  induction cs generalizing b r with
  | nil => exact absurd trivial hfits
  | cons c cs ih =>
      by_cases hc : r.Fits c
      · obtain ⟨b₁, hcall, hsim⟩ := call_simulates h hK (hcs c (by simp)) hc
        have hrest := ih hsim (fun c' hc' => hcs c' (by simp [hc']))
          fun hall => hfits ⟨hc, hall⟩
        simp [calls, hcall, hrest]
      · simp [calls, call_terminates h hc]

theorem fresh_simulates (hK : 0 < K) :
    (fresh : OrderBook K coldCap).Simulates .empty := by
  refine ⟨∅, fun _ _ => [], ⟨?_, ⟨?_, ?_, ?_, ?_⟩, ?_, ?_, ?_⟩, ?_, ?_⟩
  · intro side
    refine ⟨∅, ?_, fun _ => rfl⟩
    cases side with
    | bid => exact TwoTierLevels.fresh_represents hK
    | ask => exact TwoTierLevels.fresh_represents hK
  · intro side price
    trivial
  · intro side price
    exact List.nodup_nil
  · intro side price p
    simp
  · intro oid p hlookup
    simp at hlookup
  · exact LinearProbingTable.fresh_represents ⟨12, rfl⟩ (by decide)
  · simp [fresh, ObjectPool.fresh]
  · exact ⟨12, le_refl 12, by omega, rfl, rfl, rfl⟩
  · intro oid
    rfl
  · intro side price
    rfl

/-- A run is answered as the reference answers it, and ends in a book that
agrees with the reference, exactly when no new order is added while `2^32`
orders are live. -/
theorem calls_eq_reference_iff (hK : 0 < K) (cs : List BookCall)
    (hcs : ∀ c ∈ cs, c.Priced) :
    (∃ b, (fresh : OrderBook K coldCap).calls cs =
        .ok ((PriceTimeBook.empty.calls (K + coldCap) cs).1, b) ∧
      b.Agrees (PriceTimeBook.empty.calls (K + coldCap) cs).2) ↔
    PriceTimeBook.empty.FitsAll (K + coldCap) cs := by
  have hfresh : (fresh : OrderBook K coldCap).Simulates .empty :=
    fresh_simulates hK
  constructor
  · rintro ⟨b, hrun, -⟩
    by_contra hfits
    rw [calls_terminates hfresh hK hcs hfits] at hrun
    cases hrun
  · intro hfits
    obtain ⟨b, hrun, live, nodes, href⟩ := calls_simulates hfresh hK hcs hfits
    exact ⟨b, hrun, href.agrees⟩

/-- Three price levels on one side, one of them in the cold tier, with a
duplicate id, a refused price, fills and cancels. -/
def sampleCalls : List BookCall :=
  [.add 1 10 100 .bid, .add 2 10 101 .bid, .add 3 20 99 .bid,
    .add 3 5 99 .bid, .add 4 5 98 .bid, .add 4 5 101 .bid, .execute 2 4,
    .reduce 2 6, .cancel 3, .cancel 3, .add 5 1 7 .ask, .execute 5 9]

theorem calls_eq_reference_iff_sample :
    (∀ c ∈ sampleCalls, c.Priced) ∧
    ∃ b, (fresh : OrderBook 2 1).calls sampleCalls =
        .ok ((PriceTimeBook.empty.calls 3 sampleCalls).1, b) ∧
      b.Agrees (PriceTimeBook.empty.calls 3 sampleCalls).2 :=
  ⟨by decide, (calls_eq_reference_iff (by decide) sampleCalls
    (by decide)).mpr (by decide)⟩

/-- `n` new orders of one share at one price. -/
def manyAdds (n : ℕ) : List BookCall :=
  (List.range n).map fun i => .add (UInt64.ofNat i) 1 100 .bid

theorem manyAdds_succ (n : ℕ) :
    manyAdds (n + 1) = manyAdds n ++ [.add (UInt64.ofNat n) 1 100 .bid] := by
  simp [manyAdds, List.range_succ]

theorem manyAdds_priced (n : ℕ) : ∀ c ∈ manyAdds n, c.Priced := by
  intro c hc
  obtain ⟨i, -, rfl⟩ := List.mem_map.mp hc
  exact (by decide : (100 : UInt32) ≠ emptyPrice .bid)

/-- The reference accepts the new orders one by one. -/
theorem manyAdds_reference (maxLevels : ℕ) (hpos : 0 < maxLevels) (n : ℕ)
    (hn : n ≤ 2 ^ 32) :
    (PriceTimeBook.empty.FitsAll maxLevels (manyAdds n)) ∧
    ((PriceTimeBook.empty.calls maxLevels (manyAdds n)).2.orders.entries.length
      = n) ∧
    (∀ oid o, (PriceTimeBook.empty.calls maxLevels
        (manyAdds n)).2.orders.lookup oid = some o →
      oid.toNat < n ∧ o.price = 100) := by
  induction n with
  | zero => exact ⟨trivial, rfl, fun oid o h => by simp [manyAdds,
      PriceTimeBook.calls, PriceTimeBook.empty] at h⟩
  | succ n ih =>
      obtain ⟨hfits, hlen, hall⟩ := ih (by omega)
      set r := (PriceTimeBook.empty.calls maxLevels (manyAdds n)).2 with hr
      have hnat : (UInt64.ofNat n).toNat = n := by
        rw [UInt64.toNat_ofNat']
        exact Nat.mod_eq_of_lt (by omega)
      have hnew : UInt64.ofNat n ∉ r.orders := by
        intro hmem
        rw [← AList.lookup_isSome, Option.isSome_iff_exists] at hmem
        obtain ⟨o, ho⟩ := hmem
        have hlt := (hall _ o ho).1
        omega
      have hroom : ¬((100 : UInt32) ∉ r.prices .bid ∧
          maxLevels ≤ (r.prices .bid).card) := by
        rintro ⟨hnot, hcard⟩
        have hempty : r.prices .bid = ∅ := by
          rw [Finset.eq_empty_iff_forall_notMem]
          intro price hprice
          obtain ⟨oid, o, ho, -, hprice'⟩ :=
            PriceTimeBook.mem_prices.mp hprice
          apply hnot
          have h100 := (hall oid o ho).2
          rw [← h100, hprice']
          exact hprice
        rw [hempty, Finset.card_empty] at hcard
        omega
      have hlast : (PriceTimeBook.empty.calls maxLevels
          (manyAdds (n + 1))).2.orders =
            r.orders.insert (UInt64.ofNat n) ⟨.bid, 100, 1⟩ := by
        rw [manyAdds_succ, PriceTimeBook.calls_append, ← hr]
        simp only [PriceTimeBook.calls, PriceTimeBook.call,
          PriceTimeBook.addOrder]
        rw [if_neg hnew, if_neg hroom]
      refine ⟨?_, ?_, ?_⟩
      · rw [manyAdds_succ, PriceTimeBook.fitsAll_append, ← hr]
        refine ⟨hfits, Or.inr ?_, trivial⟩
        rw [hlen]
        omega
      · rw [hlast, AList.entries_insert_of_notMem hnew, List.length_cons, hlen]
      · intro oid o ho
        rw [hlast] at ho
        by_cases hsame : oid = UInt64.ofNat n
        · subst hsame
          rw [AList.lookup_insert] at ho
          cases ho
          exact ⟨by omega, rfl⟩
        · rw [AList.lookup_insert_ne hsame] at ho
          obtain ⟨hlt, hprice⟩ := hall oid o ho
          exact ⟨by omega, hprice⟩

/-- The order after `2^32` live ones terminates the process. -/
theorem calls_manyAdds_terminates :
    (∀ c ∈ manyAdds (2 ^ 32 + 1), c.Priced) ∧
    (fresh : OrderBook 8 8192).calls (manyAdds (2 ^ 32 + 1)) =
      .error .terminate := by
  refine ⟨manyAdds_priced _, ?_⟩
  apply calls_terminates (fresh_simulates (by decide)) (by decide)
    (manyAdds_priced _)
  obtain ⟨-, hlen, hall⟩ := manyAdds_reference (8 + 8192) (by decide) (2 ^ 32)
    (le_refl _)
  rw [manyAdds_succ, PriceTimeBook.fitsAll_append]
  rintro ⟨-, hlast, -⟩
  rcases hlast with hmem | hlt
  · rw [← AList.lookup_isSome, Option.isSome_iff_exists] at hmem
    obtain ⟨o, ho⟩ := hmem
    have hlt := (hall _ o ho).1
    rw [UInt64.toNat_ofNat'] at hlt
    omega
  · omega

end OrderBook

end Fastbook

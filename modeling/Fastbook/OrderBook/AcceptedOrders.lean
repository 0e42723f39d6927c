import Fastbook.OrderBook.OrderBookRefinement

/-!
# Accepted orders

`Ledger` keeps, from the answers of the calls alone, the orders that were
accepted and have neither been cancelled nor fully executed since.  No such
order is lost in a run that adds no order at the sentinel price of its side.

At the sentinel price an order is lost: `find` takes a free hot slot for a
level of that price, and the next new price takes the same slot.
-/

namespace Fastbook

open Support

/-- The accepted orders that are neither cancelled nor fully executed. -/
abbrev Ledger := AList fun _ : Oid => Resting

namespace Ledger

/-- `shares` of an order have been executed or cancelled. -/
def fill (l : Ledger) (oid : Oid) (shares : UInt32) : Ledger :=
  match l.lookup oid with
  | none => l
  | some o =>
    if o.shares ≤ shares then l.erase oid
    else l.insert oid { o with shares := o.shares - shares }

def record (l : Ledger) : BookCall → BookAnswer → Ledger
  | .add oid shares price side, .added (.ok _) =>
    l.insert oid ⟨side, price, shares⟩
  | .cancel oid, .flag true => l.erase oid
  | .execute oid shares, .flag true => l.fill oid shares
  | .reduce oid shares, .flag true => l.fill oid shares
  | _, _ => l

def records (l : Ledger) : List BookCall → List BookAnswer → Ledger
  | c :: cs, a :: as => (l.record c a).records cs as
  | _, _ => l

end Ledger

namespace OrderBook

variable {K coldCap : ℕ} {b : OrderBook K coldCap} {r : PriceTimeBook}
  {live : LiveMap} {nodes : Nodes} {oid : Oid} {o : Resting}

/-- The order is found by its id, and following `next` from the first order of
its level reaches it. -/
def Queued (b : OrderBook K coldCap) (oid : Oid) (o : Resting) : Prop :=
  ∃ p, b.getOrderByOid oid = some p ∧ (b.mem p).orderNum = oid ∧
    (b.mem p).resting = o ∧
    ∃ n, p ∈ walk (fun q => (b.mem q).next) n (b.getFirstOrder o.side o.price)

/-- `b'` is `b` without the order `oid`. -/
structure Removes (b b' : OrderBook K coldCap) (l : Ledger) (oid : Oid) :
    Prop where
  gone : b'.getOrderByOid oid = none
  others : ∀ oid', oid' ≠ oid → b'.getOrderByOid oid' = b.getOrderByOid oid'
  queued : ∀ oid' o', oid' ≠ oid → l.lookup oid' = some o' → b'.Queued oid' o'
  queues : ∀ side price, price ≠ emptyPrice side →
    b'.queueOf side price = (b.queueOf side price).erase oid

/-- Every order of the ledger is in the queue of its level and can be
cancelled. -/
def NoneLost (b : OrderBook K coldCap) (l : Ledger) : Prop :=
  ∀ oid o, l.lookup oid = some o → b.Queued oid o ∧
    ∃ b', b.cancelOrder oid = .ok (true, b') ∧ b.Removes b' l oid

/-! ## The ledger of a run is the reference -/

theorem executeOrder_fill (r : PriceTimeBook) (oid : Oid) (shares : UInt32) :
    r.executeOrder oid shares = (false, r) ∨
      ∃ r', r.executeOrder oid shares = (true, r') ∧
        Ledger.fill r.orders oid shares = r'.orders := by
  cases ho : r.orders.lookup oid with
  | none => exact Or.inl (by simp [PriceTimeBook.executeOrder, ho])
  | some o =>
      right
      by_cases hle : o.shares ≤ shares
      · refine ⟨(r.cancelOrder oid).2, ?_, ?_⟩
        · simp [PriceTimeBook.executeOrder, PriceTimeBook.cancelOrder, ho, hle]
        · simp [Ledger.fill, PriceTimeBook.cancelOrder, ho, hle]
      · refine ⟨{ r with
          orders := r.orders.insert oid
            { o with shares := o.shares - shares } }, ?_, ?_⟩
        · simp [PriceTimeBook.executeOrder, ho, hle]
        · simp [Ledger.fill, ho, hle]

theorem record_reference (maxLevels : ℕ) (r : PriceTimeBook) (c : BookCall) :
    Ledger.record r.orders c (r.call maxLevels c).1 =
      (r.call maxLevels c).2.orders := by
  cases c with
  | add oid shares price side =>
      simp only [PriceTimeBook.call, PriceTimeBook.addOrder]
      split
      · rfl
      · split
        · rfl
        · rfl
  | cancel oid =>
      simp only [PriceTimeBook.call, PriceTimeBook.cancelOrder]
      cases r.orders.lookup oid with
      | none => rfl
      | some o => rfl
  | execute oid shares =>
      rcases executeOrder_fill r oid shares with hexec | ⟨r', hexec, hfill⟩
      · simp only [PriceTimeBook.call, hexec, Ledger.record]
      · simp only [PriceTimeBook.call, hexec, Ledger.record, hfill]
  | reduce oid shares =>
      rcases executeOrder_fill r oid shares with hexec | ⟨r', hexec, hfill⟩
      · simp only [PriceTimeBook.call, hexec, Ledger.record]
      · simp only [PriceTimeBook.call, hexec, Ledger.record, hfill]

theorem records_reference (maxLevels : ℕ) (cs : List BookCall)
    (r : PriceTimeBook) :
    Ledger.records r.orders cs (r.calls maxLevels cs).1 =
      (r.calls maxLevels cs).2.orders := by
  induction cs generalizing r with
  | nil => rfl
  | cons c cs ih =>
      simp only [PriceTimeBook.calls, Ledger.records, record_reference]
      exact ih (r.call maxLevels c).2

/-! ## No order is lost -/

/-- A live order is queued at its price. -/
theorem Refines.queued (h : b.Refines r live nodes)
    (ho : r.orders.lookup oid = some o) : b.Queued oid o := by
  rw [h.orders, Option.map_eq_some_iff] at ho
  obtain ⟨p, hlive, rfl⟩ := ho
  have hqueues := h.consistent.queues
  have hmem := hqueues.mem_of_live hlive
  have hprice : (b.mem p).price ≠ emptyPrice (b.mem p).side := by
    obtain ⟨m, hrep, hm⟩ := h.consistent.levels (b.mem p).side
    have hlookup := hm (b.mem p).price
    rw [levelOf_eq (List.ne_nil_of_mem hmem)] at hlookup
    exact (hrep.lookup_eq_some_iff.mp hlookup).2
  have hfind : b.getOrderByOid oid = some p := by
    rw [getOrderByOid, LinearProbingTable.find_eq_lookup
      h.consistent.store.table, hlive]
  refine ⟨p, hfind, hqueues.numbered oid p hlive, rfl,
    b.ordersOp.capacity, ?_⟩
  change p ∈ walk _ _ (b.getFirstOrder (b.mem p).side (b.mem p).price)
  rw [h.getFirstOrder_eq hprice,
    (hqueues.chained _ _).walk_eq (h.length_nodes_le _ _)]
  exact hmem

/-- An order is in no queue but its own. -/
theorem Refines.not_mem_queue (h : b.Refines r live nodes)
    (ho : r.orders.lookup oid = some o) {side : Side} {price : UInt32}
    (hat : ¬(side = o.side ∧ price = o.price)) : oid ∉ r.queue side price := by
  rw [h.queue]
  intro hmem
  obtain ⟨p, hp, hnum⟩ := List.mem_map.mp hmem
  obtain ⟨hlive, hside, hprice⟩ :=
    (h.consistent.queues.mem_iff side price p).mp hp
  rw [hnum] at hlive
  rw [h.orders, hlive, Option.map_some, Option.some.injEq] at ho
  rw [← ho] at hat
  exact hat ⟨hside.symm, hprice.symm⟩

theorem Refines.noneLost (h : b.Refines r live nodes) :
    b.NoneLost r.orders := by
  intro oid o ho
  refine ⟨h.queued ho, ?_⟩
  obtain ⟨b', hcancel, live', nodes', h'⟩ := cancelOrder_refines h oid
  have hone : r.cancelOrder oid = (true,
      { r.setQueue o.side o.price ((r.queue o.side o.price).erase oid) with
        orders := r.orders.erase oid }) := by
    simp only [PriceTimeBook.cancelOrder, ho]
  rw [hone] at hcancel h'
  refine ⟨b', hcancel, ⟨?_, ?_, ?_, ?_⟩⟩
  · have hseen := h'.agrees.orderByOid oid
    simp only [AList.lookup_erase, Option.map_none] at hseen
    exact Option.map_eq_none_iff.mp hseen
  · intro oid' hne
    have ho' := ho
    rw [h.orders, Option.map_eq_some_iff] at ho'
    obtain ⟨p, hlive, -⟩ := ho'
    obtain ⟨l₁, l₂, hsplit⟩ :=
      List.append_of_mem (h.consistent.queues.mem_of_live hlive)
    obtain ⟨b₁, hcancel₁, hcons, -⟩ :=
      cancelOrder_spec h.consistent hlive hsplit
    rw [hcancel] at hcancel₁
    cases hcancel₁
    rw [getOrderByOid, getOrderByOid,
      LinearProbingTable.find_eq_lookup hcons.store.table,
      LinearProbingTable.find_eq_lookup h.consistent.store.table,
      AList.lookup_erase_ne hne]
  · intro oid' o' hne ho'
    apply h'.queued
    simp only
    rw [AList.lookup_erase_ne hne]
    exact ho'
  · intro side price hprice
    rw [h'.agrees.queue side price hprice, h.agrees.queue side price hprice]
    by_cases hat : side = o.side ∧ price = o.price
    · obtain ⟨rfl, rfl⟩ := hat
      exact r.setQueue_queue_self _ _ _
    · rw [List.erase_of_not_mem (h.not_mem_queue ho hat)]
      exact r.setQueue_queue_of_ne _ hat

/-- In a run that adds no order at a sentinel price no accepted order is
lost. -/
theorem calls_noneLost (hK : 0 < K) (cs : List BookCall)
    (hcs : ∀ c ∈ cs, c.Priced) (answers : List BookAnswer)
    (b : OrderBook K coldCap) (hrun : fresh.calls cs = .ok (answers, b)) :
    b.NoneLost (Ledger.records ∅ cs answers) := by
  have hfresh : (fresh : OrderBook K coldCap).Simulates .empty :=
    fresh_simulates hK
  by_cases hfits : PriceTimeBook.empty.FitsAll (K + coldCap) cs
  · obtain ⟨b', hrun', live, nodes, href⟩ :=
      calls_simulates hfresh hK hcs hfits
    rw [hrun] at hrun'
    cases hrun'
    have hledger := records_reference (K + coldCap) cs .empty
    change Ledger.records ∅ cs _ = _ at hledger
    rw [hledger]
    exact href.noneLost
  · rw [calls_terminates hfresh hK hcs hfits] at hrun
    cases hrun

/-- Two price levels and a partial fill on one side. -/
theorem calls_noneLost_sample :
    0 < 2 ∧ (∀ c ∈ sampleCalls, c.Priced) ∧
    ∃ answers b, (fresh : OrderBook 2 1).calls sampleCalls =
        .ok (answers, b) ∧
      b.NoneLost (Ledger.records ∅ sampleCalls answers) := by
  have hpriced : ∀ c ∈ sampleCalls, c.Priced := by decide
  obtain ⟨b, hrun, -⟩ := calls_simulates
    (fresh_simulates (K := 2) (by decide) :
      (fresh : OrderBook 2 1).Simulates .empty) (by decide) hpriced (by decide)
  exact ⟨by decide, hpriced, _, b, hrun,
    calls_noneLost (by decide) _ hpriced _ b hrun⟩

/-- A bid at price zero, then one at another price. -/
def sentinelCalls : List BookCall :=
  [.add 1 10 0 .bid, .add 2 10 100 .bid]

/-- The head of the queue at price zero once both bids are accepted. -/
def sentinelHead : Option (Option OrderPtr) :=
  match (fresh : OrderBook 8 8192).calls sentinelCalls with
  | .ok ([.added (.ok _), .added (.ok _)], b) => some (b.getFirstOrder .bid 0)
  | _ => none

theorem sentinelHead_eq : sentinelHead = some none := by
  decide +kernel

/-- The bid at price zero is accepted and lost. -/
theorem sentinel_order_lost :
    ¬∀ (cs : List BookCall) (answers : List BookAnswer)
      (b : OrderBook 8 8192), fresh.calls cs = .ok (answers, b) →
        b.NoneLost (Ledger.records ∅ cs answers) := by
  intro hall
  have hhead := sentinelHead_eq
  unfold sentinelHead at hhead
  split at hhead
  · next b hrun =>
      obtain ⟨⟨p, -, -, -, n, hp⟩, -⟩ :=
        hall _ _ b hrun 1 ⟨.bid, 0, 10⟩ (by rfl)
      rw [Option.some.injEq] at hhead
      rw [hhead] at hp
      cases n <;> cases hp
  · cases hhead

end OrderBook

end Fastbook

import Fastbook.BookBuilder.BookIsolation

/-!
# Replaced orders

The parser leaves the side of a replace event at its default, and the builder
adds the new order on the side of the event.  A replaced order thus keeps its
side exactly when the original one rests on the bid side.

The books are in their invariant as long as no message adds an order at the
price that marks an empty level of its side.
-/

namespace Fastbook

open Support

/-- The event adds no order at the sentinel price of its side. -/
def MboEvent.Priced (mbo : MboEvent) : Prop :=
  mbo.etype.creates = true → mbo.price ≠ emptyPrice mbo.side

namespace OrderBook

variable {K coldCap : ℕ} {b b' : OrderBook K coldCap} {r : PriceTimeBook}
  {live : LiveMap} {nodes : Nodes}

/-- `find_or_insert_level` gives a level for the price. -/
def LevelCreatable (b : OrderBook K coldCap) (side : Side) (price : UInt32) :
    Prop :=
  price ≠ emptyPrice side ∧ (b.findOrInsertLevel side price).1 ≠ .none

theorem Refines.findOrInsertLevel_ne_none_iff (h : b.Refines r live nodes)
    (hK : 0 < K) {side : Side} {price : UInt32}
    (hprice : price ≠ emptyPrice side) :
    (b.findOrInsertLevel side price).1 ≠ .none ↔
      ¬(price ∉ r.prices side ∧ K + coldCap ≤ (r.prices side).card) := by
  obtain ⟨m, hrep, hm⟩ := h.consistent.levels side
  have hcount : m.entries.length = (r.prices side).card := by
    rw [← h.levelCount_eq, hrep.perm.length_eq]
  have hkeys := h.mem_levels_iff hm price
  change ((b.levels side).findOrInsert price).1 ≠ .none ↔ _
  cases hlookup : m.lookup price with
  | some data =>
      have hmem : price ∈ r.prices side := by
        rw [← hkeys, ← AList.lookup_isSome, hlookup]
        rfl
      rw [TwoTierLevels.findOrInsert_of_lookup hrep hlookup]
      simp only [hmem, not_true, false_and, not_false_iff, iff_true]
      exact (TwoTierLevels.findIdx_locates hrep hlookup).ne_none
  | none =>
      have hmem : price ∉ r.prices side := by
        rw [← hkeys]
        exact AList.lookup_eq_none.mp hlookup
      by_cases hfull : K + coldCap ≤ (r.prices side).card
      · rw [TwoTierLevels.findOrInsert_full hrep hK hprice hlookup
          (by rw [hcount]; exact hfull)]
        simp [hmem, hfull]
      · obtain ⟨loc, t, hfind, hloc, -⟩ := TwoTierLevels.findOrInsert_new hrep
          hK hprice hlookup (by rw [hcount]; exact not_le.mp hfull)
        rw [hfind]
        simp only [hfull, and_false, not_false_iff, iff_true]
        exact hloc.ne_none

theorem Refines.lookup_of_mem_queue (h : b.Refines r live nodes) {side : Side}
    {price : UInt32} {oid : Oid} (hmem : oid ∈ r.queue side price) :
    ∃ o, r.orders.lookup oid = some o ∧ o.side = side ∧ o.price = price := by
  rw [h.queue, List.mem_map] at hmem
  obtain ⟨p, hp, rfl⟩ := hmem
  obtain ⟨hlive, hside, hprice⟩ :=
    (h.consistent.queues.mem_iff side price p).mp hp
  exact ⟨(b.mem p).resting, by rw [h.orders, hlive]; rfl, hside, hprice⟩

/-! ## The side of an added order -/

theorem linkTail_frame {order : OrderPtr} {level : LevelData}
    (h : b.linkTail order level = .ok b') :
    b'.orders = b.orders ∧ ∀ q, (b'.mem q).side = (b.mem q).side := by
  unfold linkTail at h
  split at h
  · cases h
    exact ⟨rfl, fun _ => rfl⟩
  · split at h
    · cases h
    · next tail _ =>
      cases h
      refine ⟨rfl, fun q => ?_⟩
      by_cases hq : q = order
      · subst hq
        by_cases ht : q = tail
        · subst ht
          simp [setPrev, setNext, setOrder]
        · simp [setPrev, setNext, setOrder, ht]
      · by_cases ht : q = tail
        · subst ht
          simp [setPrev, setNext, setOrder, hq]
        · simp [setPrev, setNext, setOrder, hq, ht]

theorem setLevels_orders (b : OrderBook K coldCap) (side : Side)
    (t : TwoTierLevels side K coldCap) :
    (b.setLevels side t).orders = b.orders := by
  cases side <;> rfl

theorem addToPriceQueue_frame {order : OrderPtr} {flag : Bool}
    (h : b.addToPriceQueue order = .ok (flag, b')) :
    b'.orders = b.orders ∧ ∀ q, (b'.mem q).side = (b.mem q).side := by
  simp only [addToPriceQueue, findOrInsertLevel] at h
  split at h
  · cases h
    exact ⟨setLevels_orders _ _ _, fun q => by rw [mem_setLevels]⟩
  · split at h
    · cases h
    · next b₂ hlink =>
      cases h
      obtain ⟨horders, hside⟩ := linkTail_frame hlink
      refine ⟨?_, fun q => ?_⟩
      · rw [setLevel, setLevels_orders, horders, setLevels_orders]
      · rw [setLevel, mem_setLevels, hside, mem_setLevels]

/-- Whatever the price, an order that has been added rests on the given side. -/
theorem addOrder_side (h : b.Consistent live nodes []) {oid : Oid}
    (hnew : live.lookup oid = none) {shares price : UInt32} {side : Side}
    {res : Except AddOrderError Unit}
    (hadd : b.addOrder .available oid shares price side = .ok (res, b'))
    {p : OrderPtr} (hp : b'.getOrderByOid oid = some p) :
    (b'.mem p).side = side := by
  have hfind := LinearProbingTable.find_eq_lookup h.store.table oid
  rw [hnew] at hfind
  by_cases hlen : live.entries.length < 2 ^ 32
  · let o : Order := {
      orderNum := oid, shares, price, side, next := none, prev := none }
    obtain ⟨q, b₁, hget, hcons, -⟩ := newOrder_consistent h hlen o
    have htable := hcons.store.table
    simp only [addOrder, hfind, hget] at hadd
    split at hadd
    · cases hadd
    · next b₃ hqueue =>
      cases hadd
      obtain ⟨horders, -⟩ := addToPriceQueue_frame hqueue
      change b₃.orders.find oid = some p at hp
      rw [horders, LinearProbingTable.find_eq_lookup htable, hnew] at hp
      cases hp
    · next b₃ hqueue =>
      cases hadd
      obtain ⟨horders, hside⟩ := addToPriceQueue_frame hqueue
      change (b₃.orders.insert oid q).2.find oid = some p at hp
      rw [horders] at hp
      have hmem := AList.lookup_eq_none.mp hnew
      by_cases hroom : live.entries.length < (b₁.setOrder q o).orders.capacity
      · obtain ⟨t, hinsert, hrep, -⟩ :=
          LinearProbingTable.insert_of_notMem htable hmem hroom q
        rw [hinsert, LinearProbingTable.find_eq_lookup hrep,
          AList.lookup_insert] at hp
        obtain rfl := Option.some.inj hp
        change (b₃.mem q).side = side
        rw [hside]
        simp [setOrder]
      · rw [LinearProbingTable.insert_of_full htable (not_lt.mp hroom),
          LinearProbingTable.find_eq_lookup htable, hnew] at hp
        cases hp
  · have hle := h.store.length_le
    rw [addOrder_of_full h hnew (by omega)] at hadd
    cases hadd

/-! ## Replacing an order of one book -/

open ItchParser (OrderReplace)

/-- The original order is gone, the new one is the tail of the queue of its
price on the given side, and everything else is as before. -/
structure ReplacedBy (b b' : OrderBook K coldCap) (msg : OrderReplace)
    (side : Side) : Prop where
  gone : b'.getOrderByOid msg.origOrderRefNum = none
  rests : ∃ p, b'.getOrderByOid msg.newOrderRefNum = some p ∧
    (b'.mem p).resting = ⟨side, msg.price, msg.shares⟩
  queue : b'.queueOf side msg.price =
    (b.queueOf side msg.price).erase msg.origOrderRefNum ++
      [msg.newOrderRefNum]
  otherOrders : ∀ oid, oid ≠ msg.origOrderRefNum → oid ≠ msg.newOrderRefNum →
    (b'.getOrderByOid oid).map (fun p => (b'.mem p).resting) =
      (b.getOrderByOid oid).map fun p => (b.mem p).resting
  otherQueues : ∀ side' price', price' ≠ emptyPrice side' →
    ¬(side' = side ∧ price' = msg.price) →
      b'.queueOf side' price' =
        (b.queueOf side' price').erase msg.origOrderRefNum

theorem Agrees.resting_eq (h : b.Agrees r) (oid : Oid) :
    (b.getOrderByOid oid).map (fun p => (b.mem p).resting) =
      r.orders.lookup oid := by
  have hsnd := congrArg (Option.map Prod.snd) (h.orderByOid oid)
  rw [Option.map_map, Option.map_map] at hsnd
  exact hsnd.trans Option.map_id'

theorem Refines.lookup_of_getOrderByOid (h : b.Refines r live nodes)
    {oid : Oid} {p : OrderPtr} (hp : b.getOrderByOid oid = some p) :
    r.orders.lookup oid = some (b.mem p).resting := by
  rw [← h.agrees.resting_eq, hp]
  rfl

theorem Refines.lookup_eq_none (h : b.Refines r live nodes) {oid : Oid}
    (hp : b.getOrderByOid oid = none) : r.orders.lookup oid = none := by
  rw [← h.agrees.resting_eq, hp]
  rfl

/-- The queues of the reference after the original order has left. -/
theorem Refines.queue_cancelOrder (h : b.Refines r live nodes) {oid : Oid}
    {o : Resting} (ho : r.orders.lookup oid = some o) (side : Side)
    (price : UInt32) :
    (r.cancelOrder oid).2.queue side price =
      (r.queue side price).erase oid := by
  simp only [PriceTimeBook.cancelOrder, ho]
  by_cases hat : side = o.side ∧ price = o.price
  · obtain ⟨rfl, rfl⟩ := hat
    exact r.setQueue_queue_self _ _ _
  · refine (r.setQueue_queue_of_ne _ hat).trans (Eq.symm ?_)
    apply List.erase_of_not_mem
    intro hmem
    obtain ⟨o', ho', hside, hprice⟩ := h.lookup_of_mem_queue hmem
    rw [ho] at ho'
    cases ho'
    exact hat ⟨hside.symm, hprice.symm⟩

/-- Cancelling the original order and adding the new one on the given side
replaces it. -/
theorem Refines.replacedBy (h : b.Refines r live nodes) (hK : 0 < K)
    {msg : OrderReplace} {o : Resting}
    (ho : r.orders.lookup msg.origOrderRefNum = some o)
    (hnew : r.orders.lookup msg.newOrderRefNum = none) {side : Side}
    (hlevel : ∀ b₁, b.cancelOrder msg.origOrderRefNum = .ok (true, b₁) →
      b₁.LevelCreatable side msg.price) :
    ∃ b₁ b₂, b.cancelOrder msg.origOrderRefNum = .ok (true, b₁) ∧
      b₁.addOrder .available msg.newOrderRefNum msg.shares msg.price side =
        .ok (.ok (), b₂) ∧ b.ReplacedBy b₂ msg side := by
  have hne : msg.newOrderRefNum ≠ msg.origOrderRefNum := by
    intro heq
    rw [heq, ho] at hnew
    cases hnew
  obtain ⟨b₁, hcancel, hsim₁⟩ :=
    cancelOrder_refines h msg.origOrderRefNum
  set r₁ := (r.cancelOrder msg.origOrderRefNum).2 with hr₁
  have hflag : (r.cancelOrder msg.origOrderRefNum).1 = true := by
    simp [PriceTimeBook.cancelOrder, ho]
  have horders₁ : r₁.orders = r.orders.erase msg.origOrderRefNum := by
    simp [hr₁, PriceTimeBook.cancelOrder, ho]
  rw [hflag] at hcancel
  obtain ⟨live₁, nodes₁, href₁⟩ := hsim₁
  have hnew₁ : r₁.orders.lookup msg.newOrderRefNum = none := by
    rw [horders₁, AList.lookup_erase_ne hne, hnew]
  -- the cancelled order makes room for the new one
  have hlen : r₁.orders.entries.length < 2 ^ 32 := by
    have hle := h.consistent.store.length_le
    have hperm := (entries_perm_cons_erase ho).length_eq
    rw [← h.length_eq] at hle
    rw [List.length_cons, ← horders₁] at hperm
    omega
  obtain ⟨hprice, hcreate⟩ := hlevel b₁ hcancel
  obtain ⟨b₂, hadd, hsim₂⟩ :=
    addOrder_refines href₁ hK hprice (Or.inr hlen)
  have hroom := (href₁.findOrInsertLevel_ne_none_iff hK hprice).mp hcreate
  have hres : r₁.addOrder (K + coldCap) msg.newOrderRefNum msg.shares
      msg.price side = (.ok (), {
        r₁.setQueue side msg.price
          (r₁.queue side msg.price ++ [msg.newOrderRefNum]) with
        orders := r₁.orders.insert msg.newOrderRefNum
          ⟨side, msg.price, msg.shares⟩ }) := by
    rw [PriceTimeBook.addOrder, if_neg (AList.lookup_eq_none.mp hnew₁),
      if_neg hroom]
  rw [hres] at hadd hsim₂
  obtain ⟨live₂, nodes₂, href₂⟩ := hsim₂
  have hagree := h.agrees
  have hagree₂ := href₂.agrees
  have hlookup : ∀ oid, (b₂.getOrderByOid oid).map
      (fun p => (b₂.mem p).resting) = (r₁.orders.insert msg.newOrderRefNum
        ⟨side, msg.price, msg.shares⟩).lookup oid := hagree₂.resting_eq
  have hqueue₁ := h.queue_cancelOrder ho
  refine ⟨b₁, b₂, hcancel, hadd, ?_, ?_, ?_, ?_, ?_⟩
  · have hgone := hlookup msg.origOrderRefNum
    rw [AList.lookup_insert_ne hne.symm, horders₁, AList.lookup_erase,
      Option.map_eq_none_iff] at hgone
    exact hgone
  · have hrests := hlookup msg.newOrderRefNum
    rw [AList.lookup_insert, Option.map_eq_some_iff] at hrests
    exact hrests
  · rw [hagree₂.queue side msg.price hprice, hagree.queue side msg.price hprice]
    refine (r₁.setQueue_queue_self _ _ _).trans ?_
    rw [hqueue₁]
  · intro oid horig hnew'
    rw [hlookup, AList.lookup_insert_ne hnew', horders₁,
      AList.lookup_erase_ne horig, hagree.resting_eq]
  · intro side' price' hprice' hat
    rw [hagree₂.queue side' price' hprice', hagree.queue side' price' hprice']
    exact (r₁.setQueue_queue_of_ne _ hat).trans (hqueue₁ side' price')

/-- A replace event leaves its new order on the bid side. -/
theorem applyEvent_replaced_side (h : b.Refines r live nodes)
    {msg : OrderReplace} {o : Resting}
    (ho : r.orders.lookup msg.origOrderRefNum = some o)
    (hnew : r.orders.lookup msg.newOrderRefNum = none)
    (happly : b.applyEvent .available
      (ItchParser.createMboFromOrderReplace msg) = .ok b')
    {p : OrderPtr} (hp : b'.getOrderByOid msg.newOrderRefNum = some p) :
    (b'.mem p).side = .bid := by
  obtain ⟨b₁, hcancel, live₁, nodes₁, href₁⟩ :=
    cancelOrder_refines h msg.origOrderRefNum
  have hnew₁ : live₁.lookup msg.newOrderRefNum = none := by
    have horders := href₁.orders msg.newOrderRefNum
    have hne : msg.newOrderRefNum ≠ msg.origOrderRefNum := by
      intro heq
      rw [heq, ho] at hnew
      cases hnew
    simp only [PriceTimeBook.cancelOrder, ho] at horders
    rw [AList.lookup_erase_ne hne, hnew] at horders
    exact Option.map_eq_none_iff.mp horders.symm
  simp only [applyEvent, ItchParser.createMboFromOrderReplace, hcancel]
    at happly
  cases hadd : b₁.addOrder .available msg.newOrderRefNum msg.shares msg.price
      .bid with
  | error e =>
      rw [hadd] at happly
      cases happly
  | ok res =>
      rw [hadd] at happly
      cases happly
      exact addOrder_side href₁.consistent hnew₁ hadd hp

theorem call_ok_simulates (h : b.Simulates r) (hK : 0 < K) {c : BookCall}
    (hc : c.Priced) {a : BookAnswer} (hcall : b.call c = .ok (a, b')) :
    ∃ r', b'.Simulates r' := by
  by_cases hfits : r.Fits c
  · obtain ⟨b'', hcall', hsim⟩ := call_simulates h hK hc hfits
    rw [hcall] at hcall'
    cases hcall'
    exact ⟨_, hsim⟩
  · rw [call_terminates h hfits] at hcall
    cases hcall

/-- Events keep a book in its invariant. -/
theorem applyEvent_simulates (h : b.Simulates r) (hK : 0 < K) {mbo : MboEvent}
    (hpriced : mbo.Priced) (happly : b.applyEvent .available mbo = .ok b') :
    ∃ r', b'.Simulates r' := by
  -- the events other than a replace are one call each
  have hone : ∀ {α : Type} {x : Except Fault (α × OrderBook K coldCap)}
      {f : α → BookAnswer} {c : BookCall} {b : OrderBook K coldCap}
      {r : PriceTimeBook}, b.Simulates r → c.Priced →
      b.call c = x.map (fun (a, b') => (f a, b')) →
      x.map Prod.snd = .ok b' → ∃ r', b'.Simulates r' := by
    intro α x f c b r hsim hc hcall hx
    cases x with
    | error e => cases hx
    | ok res =>
        cases hx
        exact call_ok_simulates hsim hK hc hcall
  cases hetype : mbo.etype with
  | added =>
      simp only [OrderBook.applyEvent, hetype] at happly
      exact hone h (c := .add mbo.oid mbo.qty mbo.price mbo.side)
        (hpriced (by rw [hetype]; rfl)) rfl happly
  | executed =>
      simp only [OrderBook.applyEvent, hetype] at happly
      exact hone h (c := .execute mbo.oid mbo.qty) trivial rfl happly
  | cancelled =>
      simp only [OrderBook.applyEvent, hetype] at happly
      exact hone h (c := .reduce mbo.oid mbo.qty) trivial rfl happly
  | deleted =>
      simp only [OrderBook.applyEvent, hetype] at happly
      exact hone h (c := .cancel mbo.oid) trivial rfl happly
  | replaced =>
      simp only [OrderBook.applyEvent, hetype] at happly
      cases hcancel : b.cancelOrder mbo.origOid with
      | error e =>
          rw [hcancel] at happly
          cases happly
      | ok res =>
          obtain ⟨flag, b₁⟩ := res
          rw [hcancel] at happly
          have hcall : b.call (.cancel mbo.origOid) = .ok (.flag flag, b₁) := by
            simp [call, hcancel, Except.map]
          obtain ⟨r₁, hsim₁⟩ := call_ok_simulates h hK
            (c := .cancel mbo.origOid) trivial hcall
          exact hone hsim₁ (c := .add mbo.oid mbo.qty mbo.price mbo.side)
            (hpriced (by rw [hetype]; rfl)) rfl happly

end OrderBook

/-! ## Runs of the builder -/

namespace BookBuilder

open ItchParser (OrderReplace)

/-- Every book of the builder is in its invariant. -/
structure Sound (b : BookBuilder) : Prop where
  linked : ∃ m, b.Linked m
  books : ∀ book ∈ b.ownedBooks, ∃ r, book.Simulates r

theorem fresh_sound : fresh.Sound := by
  refine ⟨⟨∅, fresh_linked⟩, ?_⟩
  intro book hbook
  cases hbook

theorem Sound.applyEvent {b b' : BookBuilder} (h : b.Sound) {mbo : MboEvent}
    (hpriced : mbo.Priced) (happly : b.applyEvent .available mbo = .ok b') :
    b'.Sound := by
  obtain ⟨m, hlinked⟩ := h.linked
  refine ⟨hlinked.step happly, ?_⟩
  rcases hlinked.applyEvent_cases happly with
    ⟨p, book, book', -, hbook, hbook', hb'⟩ | ⟨-, hb'⟩ | ⟨-, book', hbook', hb'⟩
  · obtain ⟨-, hbooks⟩ := Prod.mk.inj hb'
    intro book₁ hmem
    rw [hbooks] at hmem
    rcases List.mem_or_eq_of_mem_set hmem with hmem | rfl
    · exact h.books book₁ hmem
    · obtain ⟨r, hsim⟩ := h.books _ (List.mem_of_getElem? hbook)
      exact OrderBook.applyEvent_simulates hsim (by decide) hpriced hbook'
  · obtain ⟨-, hbooks⟩ := Prod.mk.inj hb'
    exact hbooks ▸ h.books
  · obtain ⟨-, hbooks⟩ := Prod.mk.inj hb'
    intro book₁ hmem
    rw [hbooks, List.mem_append, List.mem_singleton] at hmem
    rcases hmem with hmem | rfl
    · exact h.books book₁ hmem
    · exact OrderBook.applyEvent_simulates
        (OrderBook.fresh_simulates (by decide)) (by decide) hpriced hbook'

theorem Sound.applyMessage {b b' : BookBuilder} (h : b.Sound)
    {message : ℕ → UInt8}
    (hpriced : ∀ mbo, (ItchParser.parse message).1 = some mbo → mbo.Priced)
    (happly : b.applyMessage message = .ok b') : b'.Sound := by
  unfold BookBuilder.applyMessage at happly
  split at happly
  · cases happly
    exact h
  · next mbo hparse => exact h.applyEvent (hpriced mbo hparse) happly

/-- The instrument's book has the new order in place of the original one, and
every other book is as before. -/
def Replaced (b b' : BookBuilder) (msg : OrderReplace) (side : Side) : Prop :=
  ∃ p book book', b.instrumentMap.find msg.stockLocate.toUInt32 = some p ∧
    b.ownedBooks[p]? = some book ∧ book.ReplacedBy book' msg side ∧
    b'.contents = (b.instrumentMap, b.ownedBooks.set p book')

theorem applyMessage_orderReplace {b : BookBuilder} {message : ℕ → UInt8}
    {msg : OrderReplace}
    (hparse : (ItchParser.parseMsg (BufReader.ofSpan message)).1 =
      .orderReplace msg) :
    b.applyMessage message = b.applyEvent .available
      (ItchParser.createMboFromOrderReplace msg) := by
  have hevent : (ItchParser.parse message).1 =
      some (ItchParser.createMboFromOrderReplace msg) := by
    change ItchParser.eventOf
      (ItchParser.parseMsg (BufReader.ofSpan message)).1 = _
    rw [hparse]
    rfl
  simp only [applyMessage, hevent]

theorem book_eq_some {b : BookBuilder} {i : Instrument} {book : Book}
    (h : b.book i = some book) : ∃ p, b.instrumentMap.find i = some p ∧
      b.ownedBooks[p]? = some book := by
  unfold BookBuilder.book at h
  split at h
  · cases h
  · next p hp => exact ⟨p, hp, h⟩

theorem applyMessages_sound {messages : List (ℕ → UInt8)} {b : BookBuilder}
    (hpriced : ∀ m ∈ messages, ∀ mbo, (ItchParser.parse m).1 = some mbo →
      mbo.Priced)
    (hrun : fresh.applyMessages messages = .ok b) : b.Sound :=
  run_invariant (P := Sound)
    (fun _ m _ hm hs happly => hs.applyMessage (hpriced m hm) happly)
    hrun fresh_sound

section Replace

variable {b : BookBuilder} {message : ℕ → UInt8} {msg : OrderReplace}
  {book : Book} {p : OrderPtr}

/-- A replaced order can only rest on the bid side. -/
theorem Sound.bid_of_replaced (h : b.Sound)
    (hparse : (ItchParser.parseMsg (BufReader.ofSpan message)).1 =
      .orderReplace msg)
    (hbook : b.book msg.stockLocate.toUInt32 = some book)
    (horig : book.getOrderByOid msg.origOrderRefNum = some p)
    (hnew : book.getOrderByOid msg.newOrderRefNum = none) {b' : BookBuilder}
    (happly : b.applyMessage message = .ok b') {side : Side}
    (hreplaced : b.Replaced b' msg side) : side = .bid := by
  obtain ⟨q, hfind, hq⟩ := book_eq_some hbook
  obtain ⟨r, live, nodes, href⟩ := h.books book (List.mem_of_getElem? hq)
  obtain ⟨q', book₀, book', hfind', hq', hrep, hcontents⟩ := hreplaced
  obtain rfl : q = q' := Option.some.inj (hfind.symm.trans hfind')
  obtain rfl : book = book₀ := Option.some.inj (hq.symm.trans hq')
  rw [applyMessage_orderReplace hparse] at happly
  obtain ⟨book'', hbook'', hcontents'⟩ :=
    exists_ok_of_map_eq (applyEvent_of_find hfind hq) happly
  -- the book that has the new order is the one the event has left
  obtain rfl : book' = book'' := by
    have hlt := (List.getElem?_eq_some_iff.mp hq).1
    have hsets := (Prod.mk.inj (hcontents.symm.trans hcontents')).2
    have hat := congrArg (fun l => l[q]?) hsets
    simpa [hlt] using hat
  obtain ⟨newPtr, hnewPtr, hresting⟩ := hrep.rests
  have hside := OrderBook.applyEvent_replaced_side href
    (href.lookup_of_getOrderByOid horig) (href.lookup_eq_none hnew) hbook''
    hnewPtr
  rw [← hside]
  exact (congrArg Resting.side hresting).symm

/-- An order of the bid side is replaced on the bid side. -/
theorem Sound.exists_replaced (h : b.Sound)
    (hparse : (ItchParser.parseMsg (BufReader.ofSpan message)).1 =
      .orderReplace msg)
    (hbook : b.book msg.stockLocate.toUInt32 = some book)
    (horig : book.getOrderByOid msg.origOrderRefNum = some p)
    (hnew : book.getOrderByOid msg.newOrderRefNum = none)
    (hlevel : ∀ book₁,
      book.cancelOrder msg.origOrderRefNum = .ok (true, book₁) →
        book₁.LevelCreatable .bid msg.price) :
    ∃ b', b.applyMessage message = .ok b' ∧ b.Replaced b' msg .bid := by
  obtain ⟨q, hfind, hq⟩ := book_eq_some hbook
  obtain ⟨r, live, nodes, href⟩ := h.books book (List.mem_of_getElem? hq)
  obtain ⟨book₁, book₂, hcancel, hadd, hrep⟩ := href.replacedBy (by decide)
    (href.lookup_of_getOrderByOid horig) (href.lookup_eq_none hnew) hlevel
  have hbook₂ : book.applyEvent .available
      (ItchParser.createMboFromOrderReplace msg) = .ok book₂ := by
    simp [OrderBook.applyEvent, ItchParser.createMboFromOrderReplace, hcancel,
      hadd, Except.map]
  obtain ⟨b', happly, hb'⟩ :=
    exists_ok_of_map_eq (applyEvent_of_find hfind hq).symm hbook₂
  refine ⟨b', ?_, q, book, book₂, hfind, hq, hrep, hb'.symm⟩
  rw [applyMessage_orderReplace hparse]
  exact happly

/-- After any run without sentinel prices, a replace message of a live order
keeps the side of the order exactly when that side is the bid side. -/
theorem applyMessage_replaced_iff {messages : List (ℕ → UInt8)}
    (hpriced : ∀ m ∈ messages, ∀ mbo, (ItchParser.parse m).1 = some mbo →
      mbo.Priced)
    (hrun : fresh.applyMessages messages = .ok b)
    (hparse : (ItchParser.parseMsg (BufReader.ofSpan message)).1 =
      .orderReplace msg)
    (hbook : b.book msg.stockLocate.toUInt32 = some book)
    (horig : book.getOrderByOid msg.origOrderRefNum = some p)
    (hnew : book.getOrderByOid msg.newOrderRefNum = none)
    (hlevel : ∀ book₁,
      book.cancelOrder msg.origOrderRefNum = .ok (true, book₁) →
        book₁.LevelCreatable (book.mem p).side msg.price) :
    (∃ b', b.applyMessage message = .ok b' ∧
      b.Replaced b' msg (book.mem p).side) ↔ (book.mem p).side = .bid := by
  have hsound := applyMessages_sound hpriced hrun
  constructor
  · rintro ⟨b', happly, hreplaced⟩
    exact hsound.bid_of_replaced hparse hbook horig hnew happly hreplaced
  · intro hbid
    rw [hbid] at hlevel ⊢
    exact hsound.exists_replaced hparse hbook horig hnew hlevel

end Replace

/-! ## A bid and an ask order replaced -/

def ofBytes (bytes : List UInt8) : ℕ → UInt8 :=
  fun i => bytes.getD i 0

/-- An `A` message: order 1 of instrument 7, ten shares at price 100. -/
def addMessage (side : UInt8) : ℕ → UInt8 :=
  ofBytes ([65, 0, 7, 0, 0, 0, 0, 0, 0, 0, 0, 0, 0, 0, 0, 0, 0, 0, 1, side,
    0, 0, 0, 10, 32, 32, 32, 32, 32, 32, 32, 32, 0, 0, 0, 100])

/-- A `U` message: order 2 of instrument 7, five shares at price 101, in place
of order 1. -/
def replaceMessage : ℕ → UInt8 :=
  ofBytes [85, 0, 7, 0, 0, 0, 0, 0, 0, 0, 0, 0, 0, 0, 0, 0, 0, 0, 1,
    0, 0, 0, 0, 0, 0, 0, 2, 0, 0, 0, 5, 0, 0, 0, 101]

def addedOrder (side : Side) : MboEvent :=
  { side, printable := true, instrument := 7, oid := 1, price := 100, qty := 10 }

theorem parse_addMessage (side : Side) :
    (ItchParser.parse (addMessage (if side = .bid then 66 else 83))).1 =
      some (addedOrder side) := by
  cases side <;> decide

theorem parseMsg_replaceMessage :
    (ItchParser.parseMsg (BufReader.ofSpan replaceMessage)).1 =
      .orderReplace ⟨7, 0, 0, 1, 2, 5, 101⟩ := by
  decide

theorem applyMessages_addMessage (side : Side) :
    ∃ b book p, fresh.applyMessages
        [addMessage (if side = .bid then 66 else 83)] = .ok b ∧
      b.book 7 = some book ∧ book.getOrderByOid 1 = some p ∧
      (book.mem p).side = side ∧ book.getOrderByOid 2 = none ∧
      ∀ book₁, book.cancelOrder 1 = .ok (true, book₁) →
        book₁.LevelCreatable side 101 := by
  have hsim : (OrderBook.fresh : Book).Simulates .empty :=
    OrderBook.fresh_simulates (by decide)
  obtain ⟨live, nodes, href⟩ := hsim
  have hpriced : (BookCall.add 1 10 100 side).Priced := by
    cases side <;> decide
  obtain ⟨book, hadd, live', nodes', href'⟩ : ∃ book,
      (OrderBook.fresh : Book).addOrder .available 1 10 100 side =
        .ok (_, book) ∧ book.Simulates
          (PriceTimeBook.empty.addOrder (8 + 8192) 1 10 100 side).2 :=
    OrderBook.addOrder_refines href (by decide) hpriced (Or.inr (by decide))
  set r := (PriceTimeBook.empty.addOrder (8 + 8192) 1 10 100 side).2 with hr
  have hreplay : replay 7 [addedOrder side] = .ok book := by
    have happly : (OrderBook.fresh : Book).applyEvent .available
        (addedOrder side) = .ok book := by
      simp [OrderBook.applyEvent, addedOrder, hadd, Except.map]
    have hempty : replay (addedOrder side).instrument [] = .ok .fresh := rfl
    exact (replay_snoc_self hempty).trans happly
  have hinstr : instruments [addedOrder side] = {7} := by
    simp [instruments, addedOrder, EventType.creates]
  have hall : ∀ i, ∃ book, replay i [addedOrder side] = .ok book := by
    intro i
    by_cases hi : i = 7
    · subst hi
      exact ⟨book, hreplay⟩
    · exact ⟨.fresh, replay_of_not_mem (by simp [hinstr, hi])⟩
  obtain ⟨b, m, hrun, htracks⟩ := applyEvents_tracks [addedOrder side]
    (by rw [hinstr]; decide) hall
  obtain ⟨book', hbook', hreplay'⟩ :=
    htracks.isolated.found 7 (by simp [hinstr])
  obtain rfl : book = book' := Except.ok.inj (hreplay.symm.trans hreplay')
  have hone : (book.getOrderByOid 1).map (fun p => (book.mem p).resting) =
      some ⟨side, 100, 10⟩ := by
    rw [href'.agrees.resting_eq]
    cases side <;> decide
  have htwo : (book.getOrderByOid 2).map (fun p => (book.mem p).resting) =
      none := by
    rw [href'.agrees.resting_eq]
    cases side <;> decide
  rw [Option.map_eq_some_iff] at hone
  obtain ⟨p, hp, hresting⟩ := hone
  refine ⟨b, book, p, ?_, hbook', hp, congrArg Resting.side hresting,
    Option.map_eq_none_iff.mp htwo, ?_⟩
  · simpa [applyMessages, applyEvents, run, applyMessage, parse_addMessage]
      using hrun
  · intro book₁ hcancel
    obtain ⟨book₁', hcancel', live₁, nodes₁, href₁⟩ :=
      OrderBook.cancelOrder_refines href' 1
    rw [hcancel] at hcancel'
    cases hcancel'
    have hprice : (101 : UInt32) ≠ emptyPrice side := by
      cases side <;> decide
    refine ⟨hprice, ?_⟩
    rw [href₁.findOrInsertLevel_ne_none_iff (by decide) hprice]
    cases side <;> decide

theorem addMessage_priced (side : Side) :
    ∀ m ∈ [addMessage (if side = .bid then 66 else 83)], ∀ mbo,
      (ItchParser.parse m).1 = some mbo → mbo.Priced := by
  intro m hm mbo hparse
  rw [List.mem_singleton] at hm
  rw [hm, parse_addMessage] at hparse
  cases hparse
  intro _
  cases side <;> decide

theorem applyMessage_replaced_iff_bid :
    ∃ b book p, fresh.applyMessages [addMessage 66] = .ok b ∧
      b.book 7 = some book ∧ book.getOrderByOid 1 = some p ∧
      (book.mem p).side = .bid ∧
      ∃ b', b.applyMessage replaceMessage = .ok b' ∧
        b.Replaced b' ⟨7, 0, 0, 1, 2, 5, 101⟩ .bid := by
  obtain ⟨b, book, p, hrun, hbook, hp, hside, hnew, hlevel⟩ :=
    applyMessages_addMessage .bid
  refine ⟨b, book, p, hrun, hbook, hp, hside, ?_⟩
  have hiff := applyMessage_replaced_iff (addMessage_priced .bid) hrun
    parseMsg_replaceMessage hbook hp hnew (hside ▸ hlevel)
  rw [hside] at hiff
  exact hiff.mpr rfl

/-- An ask order is not replaced on the ask side. -/
theorem applyMessage_not_replaced_ask :
    ∃ b book p, fresh.applyMessages [addMessage 83] = .ok b ∧
      b.book 7 = some book ∧ book.getOrderByOid 1 = some p ∧
      (book.mem p).side = .ask ∧ book.getOrderByOid 2 = none ∧
      (∀ book₁, book.cancelOrder 1 = .ok (true, book₁) →
        book₁.LevelCreatable .ask 101) ∧
      ¬∃ b', b.applyMessage replaceMessage = .ok b' ∧
        b.Replaced b' ⟨7, 0, 0, 1, 2, 5, 101⟩ .ask := by
  obtain ⟨b, book, p, hrun, hbook, hp, hside, hnew, hlevel⟩ :=
    applyMessages_addMessage .ask
  refine ⟨b, book, p, hrun, hbook, hp, hside, hnew, hlevel, ?_⟩
  rintro ⟨b', happly, hreplaced⟩
  have hsound := applyMessages_sound (addMessage_priced .ask) hrun
  exact absurd (hsound.bid_of_replaced parseMsg_replaceMessage hbook hp hnew
    happly hreplaced) (by decide)

end BookBuilder

end Fastbook

import Fastbook.BookBuilder.BookBuilder
import Fastbook.OrderBook.OrderBookRefinement

/-!
# One book for each instrument

`replay i` applies the events of instrument `i` alone to a new book.  While the
instruments that have a book fit the instrument map, the book found for every
instrument is its replay.  One instrument more, and there is an instrument with
an added order for which no book is found.
-/

namespace Fastbook

open Support

/-- What an event does to the book it reaches. -/
def OrderBook.applyEvent {K coldCap : ℕ} (memory : GrowMemory)
    (book : OrderBook K coldCap) (mbo : MboEvent) :
    Except Fault (OrderBook K coldCap) :=
  match mbo.etype with
  | .added =>
    (book.addOrder memory mbo.oid mbo.qty mbo.price mbo.side).map Prod.snd
  | .executed => (book.executeOrder mbo.oid mbo.qty).map Prod.snd
  | .replaced =>
    match book.cancelOrder mbo.origOid with
    | .error e => .error e
    | .ok (_, book) =>
      (book.addOrder memory mbo.oid mbo.qty mbo.price mbo.side).map Prod.snd
  | .cancelled => (book.reduceOrder mbo.oid mbo.qty).map Prod.snd
  | .deleted => (book.cancelOrder mbo.oid).map Prod.snd

/-- The events for which a missing book is made. -/
def EventType.creates : EventType → Bool
  | .added => true
  | .replaced => true
  | _ => false

/-- The instruments that received an added or replaced event. -/
def instruments (events : List MboEvent) : Finset Instrument :=
  ((events.filter fun e => e.etype.creates).map MboEvent.instrument).toFinset

/-- The events of `i` alone, applied to a new book. -/
def replay (i : Instrument) (events : List MboEvent) : Except Fault Book :=
  run (OrderBook.applyEvent .available) .fresh
    (events.filter fun e => e.instrument = i)

namespace BookBuilder

/-- Everything but the statistics. -/
def contents (b : BookBuilder) :
    LinearProbingTable Instrument BookPtr fibHash32 .backwardShift ×
      List Book :=
  (b.instrumentMap, b.ownedBooks)

section Step

variable {memory : GrowMemory} {b : BookBuilder} {mbo : MboEvent}
  {p : BookPtr} {book : Book}

theorem onKnownBook_of_find {instr : Instrument}
    (hfind : b.instrumentMap.find instr = some p)
    (hbook : b.ownedBooks[p]? = some book)
    (op : Book → Except Fault (Bool × Book)) :
    (b.onKnownBook instr op).map contents =
      (op book).map fun r => (b.instrumentMap, b.ownedBooks.set p r.2) := by
  simp only [onKnownBook, hfind, hbook]
  cases op book with
  | error e => rfl
  | ok r =>
      obtain ⟨found, book'⟩ := r
      cases found <;> rfl

theorem addOrderHandler_of_find
    (hfind : b.instrumentMap.find mbo.instrument = some p)
    (hbook : b.ownedBooks[p]? = some book) :
    (b.addOrderHandler memory mbo).map contents =
      (book.addOrder memory mbo.oid mbo.qty mbo.price mbo.side).map
        fun r => (b.instrumentMap, b.ownedBooks.set p r.2) := by
  simp only [addOrderHandler, getOrInitBook, hfind, hbook]
  cases book.addOrder memory mbo.oid mbo.qty mbo.price mbo.side with
  | error e => rfl
  | ok r =>
      obtain ⟨added, book'⟩ := r
      cases added <;> rfl

theorem addOrderHandler_of_not_find
    (hfind : b.instrumentMap.find mbo.instrument = none) :
    (b.addOrderHandler memory mbo).map contents =
      ((OrderBook.fresh : Book).addOrder memory mbo.oid mbo.qty mbo.price
        mbo.side).map fun r =>
          ((b.instrumentMap.insert mbo.instrument b.ownedBooks.length).2,
            b.ownedBooks ++ [r.2]) := by
  simp only [addOrderHandler, getOrInitBook, hfind,
    List.getElem?_concat_length]
  cases (OrderBook.fresh : Book).addOrder memory mbo.oid mbo.qty mbo.price
      mbo.side with
  | error e => rfl
  | ok r =>
      obtain ⟨added, book'⟩ := r
      cases added with
      | ok _ => simp [Except.map, contents, setBook]
      | error e => simp [Except.map, contents, setBook, countDroppedAdd]

theorem replaceOrderHandler_of_find
    (hfind : b.instrumentMap.find mbo.instrument = some p)
    (hbook : b.ownedBooks[p]? = some book) (hetype : mbo.etype = .replaced) :
    (b.replaceOrderHandler memory mbo).map contents =
      (book.applyEvent memory mbo).map
        fun book' => (b.instrumentMap, b.ownedBooks.set p book') := by
  have hcancel := onKnownBook_of_find hfind hbook (·.cancelOrder mbo.origOid)
  simp only [replaceOrderHandler, OrderBook.applyEvent, hetype]
  cases hres : book.cancelOrder mbo.origOid with
  | error e =>
      rw [hres] at hcancel
      cases hknown :
          b.onKnownBook mbo.instrument (·.cancelOrder mbo.origOid) with
      | error e' =>
          rw [hknown] at hcancel
          exact hcancel
      | ok b₁ =>
          rw [hknown] at hcancel
          cases hcancel
  | ok r =>
      obtain ⟨b₁, hknown, hcontents⟩ := exists_ok_of_map_eq hcancel.symm hres
      obtain ⟨hmap, hbooks⟩ := Prod.mk.inj hcontents
      have hlt := (List.getElem?_eq_some_iff.mp hbook).1
      have hfind₁ : b₁.instrumentMap.find mbo.instrument = some p := by
        rw [← hmap]
        exact hfind
      have hbook₁ : b₁.ownedBooks[p]? = some r.2 := by
        rw [← hbooks]
        simp [hlt]
      rw [hknown]
      simp only [addOrderHandler_of_find hfind₁ hbook₁, ← hmap, ← hbooks,
        List.set_set]
      cases r.2.addOrder memory mbo.oid mbo.qty mbo.price mbo.side with
      | error e => rfl
      | ok r' => rfl

/-- An event reaches the book of its instrument. -/
theorem applyEvent_of_find
    (hfind : b.instrumentMap.find mbo.instrument = some p)
    (hbook : b.ownedBooks[p]? = some book) :
    (b.applyEvent memory mbo).map contents =
      (book.applyEvent memory mbo).map
        fun book' => (b.instrumentMap, b.ownedBooks.set p book') := by
  set b₁ : BookBuilder :=
    { b with stats := { b.stats with msgs := b.stats.msgs + 1 } } with hb₁
  cases hetype : mbo.etype with
  | added =>
      simp only [applyEvent, OrderBook.applyEvent, hetype, ← hb₁]
      rw [addOrderHandler_of_find (b := b₁) hfind hbook]
      cases book.addOrder memory mbo.oid mbo.qty mbo.price mbo.side <;> rfl
  | replaced =>
      simp only [applyEvent, hetype, ← hb₁]
      exact replaceOrderHandler_of_find hfind hbook hetype
  | executed =>
      simp only [applyEvent, OrderBook.applyEvent, hetype, ← hb₁,
        executeOrderHandler]
      rw [onKnownBook_of_find (b := b₁) hfind hbook]
      cases book.executeOrder mbo.oid mbo.qty <;> rfl
  | cancelled =>
      simp only [applyEvent, OrderBook.applyEvent, hetype, ← hb₁,
        cancelOrderHandler]
      rw [onKnownBook_of_find (b := b₁) hfind hbook]
      cases book.reduceOrder mbo.oid mbo.qty <;> rfl
  | deleted =>
      simp only [applyEvent, OrderBook.applyEvent, hetype, ← hb₁,
        deleteOrderHandler]
      rw [onKnownBook_of_find (b := b₁) hfind hbook]
      cases book.cancelOrder mbo.oid <;> rfl

theorem fresh_find (oid : Oid) :
    (OrderBook.fresh : Book).orders.find oid = none :=
  LinearProbingTable.find_eq_lookup
    (LinearProbingTable.fresh_represents ⟨12, rfl⟩ (by decide)) oid

/-- An event that makes no book leaves a new book as it is. -/
theorem fresh_applyEvent (h : mbo.etype.creates = false) :
    (OrderBook.fresh : Book).applyEvent memory mbo = .ok .fresh := by
  cases hetype : mbo.etype with
  | added => simp [hetype, EventType.creates] at h
  | replaced => simp [hetype, EventType.creates] at h
  | executed =>
      simp [OrderBook.applyEvent, hetype, OrderBook.executeOrder, fresh_find,
        Except.map]
  | cancelled =>
      simp [OrderBook.applyEvent, hetype, OrderBook.reduceOrder,
        OrderBook.executeOrder, fresh_find, Except.map]
  | deleted =>
      simp [OrderBook.applyEvent, hetype, OrderBook.cancelOrder, fresh_find,
        Except.map]

/-- An event for an instrument without a book makes one if it can. -/
theorem applyEvent_of_creates
    (hfind : b.instrumentMap.find mbo.instrument = none)
    (hcreates : mbo.etype.creates = true) :
    (b.applyEvent memory mbo).map contents =
      ((OrderBook.fresh : Book).applyEvent memory mbo).map fun book' =>
        ((b.instrumentMap.insert mbo.instrument b.ownedBooks.length).2,
          b.ownedBooks ++ [book']) := by
  set b₁ : BookBuilder :=
    { b with stats := { b.stats with msgs := b.stats.msgs + 1 } } with hb₁
  cases hetype : mbo.etype with
  | added =>
      simp only [applyEvent, OrderBook.applyEvent, hetype, ← hb₁]
      rw [addOrderHandler_of_not_find (b := b₁) hfind]
      cases (OrderBook.fresh : Book).addOrder memory mbo.oid mbo.qty mbo.price
        mbo.side <;> rfl
  | replaced =>
      have hknown : b₁.onKnownBook mbo.instrument
          (·.cancelOrder mbo.origOid) = .ok b₁.countUnknownOid := by
        simp [onKnownBook, hb₁, hfind]
      have hcancel : (OrderBook.fresh : Book).cancelOrder mbo.origOid =
          .ok (false, .fresh) := by
        simp [OrderBook.cancelOrder, fresh_find]
      simp only [applyEvent, OrderBook.applyEvent, hetype, ← hb₁,
        replaceOrderHandler, hknown, hcancel]
      rw [addOrderHandler_of_not_find (b := b₁.countUnknownOid) hfind]
      cases (OrderBook.fresh : Book).addOrder memory mbo.oid mbo.qty mbo.price
        mbo.side <;> rfl
  | executed => simp [hetype, EventType.creates] at hcreates
  | cancelled => simp [hetype, EventType.creates] at hcreates
  | deleted => simp [hetype, EventType.creates] at hcreates

theorem applyEvent_of_not_creates
    (hfind : b.instrumentMap.find mbo.instrument = none)
    (hcreates : mbo.etype.creates = false) :
    ∃ b', b.applyEvent memory mbo = .ok b' ∧ b'.contents = b.contents := by
  cases hetype : mbo.etype with
  | added => simp [hetype, EventType.creates] at hcreates
  | replaced => simp [hetype, EventType.creates] at hcreates
  | executed =>
      simp [applyEvent, hetype, executeOrderHandler, onKnownBook, hfind,
        contents, countUnknownOid]
  | cancelled =>
      simp [applyEvent, hetype, cancelOrderHandler, onKnownBook, hfind,
        contents, countUnknownOid]
  | deleted =>
      simp [applyEvent, hetype, deleteOrderHandler, onKnownBook, hfind,
        contents, countUnknownOid]

end Step

/-! ## What the books are -/

section Replay

variable {events : List MboEvent} {mbo : MboEvent} {i : Instrument}

theorem mem_instruments :
    i ∈ instruments events ↔
      ∃ e ∈ events, e.etype.creates = true ∧ e.instrument = i := by
  simp [instruments, and_assoc]

theorem instruments_snoc :
    instruments (events ++ [mbo]) = if mbo.etype.creates then
      insert mbo.instrument (instruments events) else instruments events := by
  ext i
  by_cases hcreates : mbo.etype.creates = true
  · simp only [hcreates, if_true, mem_instruments, Finset.mem_insert,
      List.mem_append, List.mem_singleton]
    constructor
    · rintro ⟨e, hmem | rfl, he, rfl⟩
      · exact Or.inr ⟨e, hmem, he, rfl⟩
      · exact Or.inl rfl
    · rintro (rfl | ⟨e, hmem, he⟩)
      · exact ⟨mbo, Or.inr rfl, hcreates, rfl⟩
      · exact ⟨e, Or.inl hmem, he⟩
  · rw [if_neg hcreates]
    simp only [mem_instruments, List.mem_append, List.mem_singleton]
    constructor
    · rintro ⟨e, hmem | rfl, he, rfl⟩
      · exact ⟨e, hmem, he, rfl⟩
      · exact absurd he hcreates
    · rintro ⟨e, hmem, he⟩
      exact ⟨e, Or.inl hmem, he⟩

theorem replay_snoc_of_ne (h : mbo.instrument ≠ i) :
    replay i (events ++ [mbo]) = replay i events := by
  simp [replay, h]

theorem replay_snoc_self {book : Book}
    (h : replay mbo.instrument events = .ok book) :
    replay mbo.instrument (events ++ [mbo]) =
      book.applyEvent .available mbo := by
  simp only [replay, List.filter_append, List.filter_singleton, decide_true]
  exact run_snoc h

/-- Without an added or replaced event the replay is a new book. -/
theorem replay_of_not_mem (h : i ∉ instruments events) :
    replay i events = .ok .fresh := by
  apply run_eq_self
  intro e he
  obtain ⟨hmem, hinstr⟩ := List.mem_filter.mp he
  apply fresh_applyEvent
  rw [Bool.eq_false_iff]
  intro hcreates
  exact h (mem_instruments.mpr ⟨e, hmem, hcreates, by simpa using hinstr⟩)

theorem exists_replay_of_snoc
    (h : ∃ book, replay i (events ++ [mbo]) = .ok book) :
    ∃ book, replay i events = .ok book := by
  obtain ⟨book, hbook⟩ := h
  rw [replay, List.filter_append] at hbook
  obtain ⟨book', hbook', -⟩ := exists_run_of_append hbook
  exact ⟨book', hbook'⟩

end Replay

/-- The slots of the instrument map. -/
def mapSlots : ℕ := 16384

/-- The map has an entry for every instrument of the events, and the entry
leads to the replay of the instrument. -/
structure Tracks (b : BookBuilder) (events : List MboEvent)
    (m : AList fun _ : Instrument => BookPtr) : Prop where
  table : b.instrumentMap.Represents m
  slots : b.instrumentMap.capacity = mapSlots
  keys : ∀ i, i ∈ m ↔ i ∈ instruments events
  injective : ∀ i j p, m.lookup i = some p → m.lookup j = some p → i = j
  books : ∀ i p, m.lookup i = some p → ∃ book,
    b.ownedBooks[p]? = some book ∧ replay i events = .ok book
  count : b.ownedBooks.length = m.entries.length

section Tracks

variable {b b' : BookBuilder} {events : List MboEvent} {mbo : MboEvent}
  {m : AList fun _ : Instrument => BookPtr}

theorem fresh_tracks : fresh.Tracks [] ∅ := by
  refine ⟨LinearProbingTable.fresh_represents ⟨13, rfl⟩ (by decide), rfl, ?_,
    ?_, ?_, rfl⟩
  · intro i
    simp [instruments]
  · intro i j p hi
    simp at hi
  · intro i p hi
    simp at hi

theorem Tracks.card_eq (h : b.Tracks events m) :
    (instruments events).card = m.entries.length := by
  have hkeys : m.keys.toFinset = instruments events := by
    ext i
    rw [List.mem_toFinset]
    exact h.keys i
  rw [← hkeys, List.toFinset_card_of_nodup m.keys_nodup]
  simp [AList.keys, List.keys]

/-- The event changes the book of an instrument that has one. -/
theorem Tracks.known {p : BookPtr} {book book' : Book}
    (h : b.Tracks events m) (hp : m.lookup mbo.instrument = some p)
    (hbook : b.ownedBooks[p]? = some book)
    (hreplay : replay mbo.instrument events = .ok book)
    (happly : book.applyEvent .available mbo = .ok book')
    (hb' : b'.contents = (b.instrumentMap, b.ownedBooks.set p book')) :
    b'.Tracks (events ++ [mbo]) m := by
  obtain ⟨hmap, hbooks⟩ := Prod.mk.inj hb'
  have hlt := (List.getElem?_eq_some_iff.mp hbook).1
  have hmem : mbo.instrument ∈ instruments events := by
    rw [← h.keys, ← AList.lookup_isSome, hp]
    rfl
  refine ⟨hmap ▸ h.table, hmap ▸ h.slots, ?_, h.injective, ?_, ?_⟩
  · intro i
    rw [h.keys, instruments_snoc, Finset.insert_eq_of_mem hmem, ite_self]
  · intro i q hq
    rw [hbooks]
    by_cases hi : mbo.instrument = i
    · subst hi
      obtain rfl : q = p := Option.some.inj (hq.symm.trans hp)
      exact ⟨book', by simp [hlt], (replay_snoc_self hreplay).trans happly⟩
    · obtain ⟨book₁, hbook₁, hreplay₁⟩ := h.books i q hq
      have hne : p ≠ q := by
        rintro rfl
        exact hi (h.injective _ _ _ hp hq)
      refine ⟨book₁, ?_, ?_⟩
      · rw [List.getElem?_set_ne hne, hbook₁]
      · rw [replay_snoc_of_ne hi, hreplay₁]
  · rw [hbooks, List.length_set, h.count]

/-- The event makes the book of an instrument that has none. -/
theorem Tracks.new {book' : Book} (h : b.Tracks events m)
    (hmem : mbo.instrument ∉ m) (hcreates : mbo.etype.creates = true)
    (hcard : (instruments (events ++ [mbo])).card ≤ mapSlots)
    (happly : (OrderBook.fresh : Book).applyEvent .available mbo = .ok book')
    (hb' : b'.contents =
      ((b.instrumentMap.insert mbo.instrument b.ownedBooks.length).2,
        b.ownedBooks ++ [book'])) :
    b'.Tracks (events ++ [mbo])
      (m.insert mbo.instrument b.ownedBooks.length) := by
  obtain ⟨hmap, hbooks⟩ := Prod.mk.inj hb'
  have hnot : mbo.instrument ∉ instruments events := by
    rw [← h.keys]
    exact hmem
  have hinstr : instruments (events ++ [mbo]) =
      insert mbo.instrument (instruments events) := by
    rw [instruments_snoc, if_pos hcreates]
  rw [hinstr, Finset.card_insert_of_notMem hnot, h.card_eq] at hcard
  obtain ⟨t, hinsert, hrep, hslots⟩ :=
    LinearProbingTable.insert_of_notMem h.table hmem
      (by rw [h.slots]; exact hcard) b.ownedBooks.length
  rw [hinsert] at hmap
  have hold : ∀ i p, m.lookup i = some p → p < b.ownedBooks.length := by
    intro i p hp
    obtain ⟨book, hbook, -⟩ := h.books i p hp
    exact (List.getElem?_eq_some_iff.mp hbook).1
  refine ⟨hmap ▸ hrep, hmap ▸ hslots.trans h.slots, ?_, ?_, ?_, ?_⟩
  · intro i
    rw [AList.mem_insert, hinstr, Finset.mem_insert, h.keys]
  · intro i j p hi hj
    by_cases hi' : i = mbo.instrument
    · by_cases hj' : j = mbo.instrument
      · rw [hi', hj']
      · rw [hi', AList.lookup_insert] at hi
        rw [AList.lookup_insert_ne hj'] at hj
        cases hi
        exact absurd (hold j _ hj) (lt_irrefl _)
    · rw [AList.lookup_insert_ne hi'] at hi
      by_cases hj' : j = mbo.instrument
      · rw [hj', AList.lookup_insert] at hj
        cases hj
        exact absurd (hold i _ hi) (lt_irrefl _)
      · rw [AList.lookup_insert_ne hj'] at hj
        exact h.injective i j p hi hj
  · intro i p hi
    rw [hbooks]
    by_cases hi' : i = mbo.instrument
    · subst hi'
      rw [AList.lookup_insert] at hi
      cases hi
      exact ⟨book', List.getElem?_concat_length,
        (replay_snoc_self (replay_of_not_mem hnot)).trans happly⟩
    · rw [AList.lookup_insert_ne hi'] at hi
      obtain ⟨book, hbook, hreplay⟩ := h.books i p hi
      refine ⟨book, ?_, ?_⟩
      · rw [List.getElem?_append_left (hold i p hi), hbook]
      · rw [replay_snoc_of_ne (Ne.symm hi'), hreplay]
  · rw [hbooks, List.length_append, AList.entries_insert_of_notMem hmem,
      List.length_singleton, List.length_cons, h.count]

/-- The event is for an instrument without a book and makes none. -/
theorem Tracks.ignored (h : b.Tracks events m)
    (hmem : mbo.instrument ∉ m) (hcreates : mbo.etype.creates = false)
    (hb' : b'.contents = b.contents) : b'.Tracks (events ++ [mbo]) m := by
  obtain ⟨hmap, hbooks⟩ := Prod.mk.inj hb'
  refine ⟨hmap ▸ h.table, hmap ▸ h.slots, ?_, h.injective, ?_, ?_⟩
  · intro i
    rw [instruments_snoc, hcreates]
    exact h.keys i
  · intro i p hi
    rw [hbooks, replay_snoc_of_ne]
    · exact h.books i p hi
    · rintro rfl
      apply hmem
      rw [← AList.lookup_isSome, hi]
      rfl
  · rw [hbooks, h.count]

/-- One event. -/
theorem Tracks.step (h : b.Tracks events m)
    (hcard : (instruments (events ++ [mbo])).card ≤ mapSlots)
    (hreplay : ∃ book, replay mbo.instrument (events ++ [mbo]) = .ok book) :
    ∃ b' m', b.applyEvent .available mbo = .ok b' ∧
      b'.Tracks (events ++ [mbo]) m' := by
  obtain ⟨book', hbook'⟩ := hreplay
  cases hlookup : m.lookup mbo.instrument with
  | some p =>
      obtain ⟨book, hbook, hold⟩ := h.books _ p hlookup
      rw [replay_snoc_self hold] at hbook'
      have hfind := LinearProbingTable.find_eq_lookup h.table mbo.instrument
      rw [hlookup] at hfind
      obtain ⟨b', happly, hb'⟩ :=
        exists_ok_of_map_eq (applyEvent_of_find hfind hbook).symm hbook'
      exact ⟨b', m, happly, h.known hlookup hbook hold hbook' hb'.symm⟩
  | none =>
      have hmem := AList.lookup_eq_none.mp hlookup
      have hfind := LinearProbingTable.find_eq_lookup h.table mbo.instrument
      rw [hlookup] at hfind
      cases hcreates : mbo.etype.creates with
      | false =>
          obtain ⟨b', happly, hb'⟩ := applyEvent_of_not_creates hfind hcreates
          exact ⟨b', m, happly, h.ignored hmem hcreates hb'⟩
      | true =>
          rw [replay_snoc_self (replay_of_not_mem
            (by rw [← h.keys]; exact hmem))] at hbook'
          obtain ⟨b', happly, hb'⟩ :=
            exists_ok_of_map_eq (applyEvent_of_creates hfind hcreates).symm hbook'
          exact ⟨b', _, happly, h.new hmem hcreates hcard hbook' hb'.symm⟩

theorem applyEvents_tracks (events : List MboEvent)
    (hcard : (instruments events).card ≤ mapSlots)
    (hreplay : ∀ i, ∃ book, replay i events = .ok book) :
    ∃ b m, fresh.applyEvents events = .ok b ∧ b.Tracks events m := by
  induction events using List.reverseRecOn with
  | nil => exact ⟨fresh, ∅, rfl, fresh_tracks⟩
  | append_singleton events mbo ih =>
      have hsub : instruments events ⊆ instruments (events ++ [mbo]) := by
        rw [instruments_snoc]
        split
        · exact Finset.subset_insert _ _
        · exact subset_rfl
      obtain ⟨b, m, hrun, htracks⟩ :=
        ih ((Finset.card_le_card hsub).trans hcard)
          fun i => exists_replay_of_snoc (hreplay i)
      obtain ⟨b', m', happly, htracks'⟩ := htracks.step hcard (hreplay _)
      exact ⟨b', m', (run_snoc hrun).trans happly, htracks'⟩

end Tracks

/-! ## Every run -/

/-- The map of a builder that has run, whether or not every instrument found
room in it. -/
structure Linked (b : BookBuilder)
    (m : AList fun _ : Instrument => BookPtr) : Prop where
  table : b.instrumentMap.Represents m
  slots : b.instrumentMap.capacity = mapSlots
  valid : ∀ i p, m.lookup i = some p → p < b.ownedBooks.length

section Linked

variable {memory : GrowMemory} {b b' : BookBuilder} {mbo : MboEvent}
  {m : AList fun _ : Instrument => BookPtr}

theorem fresh_linked : fresh.Linked ∅ := by
  refine ⟨LinearProbingTable.fresh_represents ⟨13, rfl⟩ (by decide), rfl, ?_⟩
  intro i p hi
  simp at hi

theorem Linked.insert (h : b.Linked m) (hmem : mbo.instrument ∉ m)
    {book : Book} (hb' : b'.contents =
      ((b.instrumentMap.insert mbo.instrument b.ownedBooks.length).2,
        b.ownedBooks ++ [book])) : ∃ m', b'.Linked m' := by
  obtain ⟨hmap, hbooks⟩ := Prod.mk.inj hb'
  have hlen : b'.ownedBooks.length = b.ownedBooks.length + 1 := by
    simp [hbooks]
  by_cases hroom : m.entries.length < b.instrumentMap.capacity
  · obtain ⟨t, hinsert, hrep, hslots⟩ :=
      LinearProbingTable.insert_of_notMem h.table hmem hroom
        b.ownedBooks.length
    rw [hinsert] at hmap
    change b'.instrumentMap = t at hmap
    refine ⟨_, hmap ▸ hrep, hmap ▸ hslots.trans h.slots, ?_⟩
    intro i p hi
    rw [hlen]
    by_cases hsame : i = mbo.instrument
    · rw [hsame, AList.lookup_insert] at hi
      cases hi
      exact Nat.lt_succ_self _
    · rw [AList.lookup_insert_ne hsame] at hi
      exact Nat.lt_succ_of_lt (h.valid i p hi)
  · rw [LinearProbingTable.insert_of_full h.table (not_lt.mp hroom)] at hmap
    refine ⟨m, hmap ▸ h.table, hmap ▸ h.slots, ?_⟩
    intro i p hi
    rw [hlen]
    exact Nat.lt_succ_of_lt (h.valid i p hi)

/-- All that a successful event can do: it changes the book of its
instrument, it is dropped for want of a book, or it makes a book. -/
theorem Linked.applyEvent_cases (h : b.Linked m)
    (happly : b.applyEvent memory mbo = .ok b') :
    (∃ p book book', b.instrumentMap.find mbo.instrument = some p ∧
      b.ownedBooks[p]? = some book ∧
      book.applyEvent memory mbo = .ok book' ∧
      b'.contents = (b.instrumentMap, b.ownedBooks.set p book')) ∨
    (mbo.instrument ∉ m ∧ b'.contents = b.contents) ∨
    (mbo.instrument ∉ m ∧ ∃ book',
      (OrderBook.fresh : Book).applyEvent memory mbo = .ok book' ∧
      b'.contents =
        ((b.instrumentMap.insert mbo.instrument b.ownedBooks.length).2,
          b.ownedBooks ++ [book'])) := by
  have hfind := LinearProbingTable.find_eq_lookup h.table mbo.instrument
  cases hlookup : m.lookup mbo.instrument with
  | some p =>
      rw [hlookup] at hfind
      have hbook := List.getElem?_eq_getElem (h.valid _ p hlookup)
      obtain ⟨book', hbook', hb'⟩ :=
        exists_ok_of_map_eq (applyEvent_of_find hfind hbook) happly
      exact Or.inl ⟨p, _, book', hfind, hbook, hbook', hb'⟩
  | none =>
      rw [hlookup] at hfind
      have hmem := AList.lookup_eq_none.mp hlookup
      cases hcreates : mbo.etype.creates with
      | false =>
          obtain ⟨b'', happly', hb'⟩ : ∃ b'', b.applyEvent memory mbo =
              .ok b'' ∧ b''.contents = b.contents :=
            applyEvent_of_not_creates hfind hcreates
          rw [happly] at happly'
          cases happly'
          exact Or.inr (Or.inl ⟨hmem, hb'⟩)
      | true =>
          obtain ⟨book', hbook', hb'⟩ :=
            exists_ok_of_map_eq (applyEvent_of_creates hfind hcreates) happly
          exact Or.inr (Or.inr ⟨hmem, book', hbook', hb'⟩)

theorem Linked.step (h : b.Linked m)
    (happly : b.applyEvent memory mbo = .ok b') : ∃ m', b'.Linked m' := by
  rcases h.applyEvent_cases happly with
    ⟨p, book, book', -, -, -, hb'⟩ | ⟨-, hb'⟩ | ⟨hmem, book', -, hb'⟩
  · obtain ⟨hmap, hbooks⟩ := Prod.mk.inj hb'
    refine ⟨m, hmap ▸ h.table, hmap ▸ h.slots, ?_⟩
    intro i q hi
    rw [hbooks, List.length_set]
    exact h.valid i q hi
  · obtain ⟨hmap, hbooks⟩ := Prod.mk.inj hb'
    exact ⟨m, hmap ▸ h.table, hmap ▸ h.slots, hbooks ▸ h.valid⟩
  · exact h.insert hmem hb'

end Linked

/-- The book found for every instrument is the replay of its own events. -/
structure Isolated (b : BookBuilder) (events : List MboEvent) : Prop where
  found : ∀ i ∈ instruments events, ∃ book,
    b.book i = some book ∧ replay i events = .ok book
  absent : ∀ i ∉ instruments events, b.book i = none
  count : b.bookCount = (instruments events).card

theorem Tracks.isolated {b : BookBuilder} {events : List MboEvent}
    {m : AList fun _ : Instrument => BookPtr} (h : b.Tracks events m) :
    b.Isolated events := by
  refine ⟨?_, ?_, h.count.trans h.card_eq.symm⟩
  · intro i hi
    rw [← h.keys, ← AList.lookup_isSome, Option.isSome_iff_exists] at hi
    obtain ⟨p, hp⟩ := hi
    obtain ⟨book, hbook, hreplay⟩ := h.books i p hp
    refine ⟨book, ?_, hreplay⟩
    simp only [BookBuilder.book, LinearProbingTable.find_eq_lookup h.table, hp,
      hbook]
  · intro i hi
    rw [← h.keys, ← AList.lookup_eq_none] at hi
    simp only [BookBuilder.book, LinearProbingTable.find_eq_lookup h.table, hi]

/-- The instruments for which a book is found fit the map. -/
theorem card_le_of_found {b : BookBuilder} {events events' : List MboEvent}
    (hrun : fresh.applyEvents events' = .ok b)
    (hfound : ∀ i ∈ instruments events, ∃ book, b.book i = some book) :
    (instruments events).card ≤ mapSlots := by
  obtain ⟨m, hlinked⟩ : ∃ m, b.Linked m :=
    run_invariant (P := fun b => ∃ m, b.Linked m)
      (fun s a s' _ ⟨_, hm⟩ happly => hm.step happly) hrun ⟨∅, fresh_linked⟩
  have hsub : instruments events ⊆ m.keys.toFinset := by
    intro i hi
    obtain ⟨book, hbook⟩ := hfound i hi
    rw [List.mem_toFinset]
    by_contra hmem
    have hnone := AList.lookup_eq_none.mpr hmem
    simp [BookBuilder.book, LinearProbingTable.find_eq_lookup hlinked.table,
      hnone] at hbook
  calc (instruments events).card ≤ m.keys.toFinset.card :=
        Finset.card_le_card hsub
    _ ≤ m.keys.length := List.toFinset_card_le _
    _ = m.entries.length := by simp [AList.keys, List.keys]
    _ ≤ mapSlots := hlinked.slots ▸ hlinked.table.length_le

/-- A run returns with every book isolated exactly when the instruments that
have a book fit the map and no instrument's own events make its book fault. -/
theorem exists_isolated_iff {events : List MboEvent} :
    (∃ b, fresh.applyEvents events = .ok b ∧ b.Isolated events) ↔
      (instruments events).card ≤ mapSlots ∧
        ∀ i, ∃ book, replay i events = .ok book := by
  constructor
  · rintro ⟨b, hrun, hiso⟩
    refine ⟨card_le_of_found hrun fun i hi => ?_, fun i => ?_⟩
    · obtain ⟨book, hbook, -⟩ := hiso.found i hi
      exact ⟨book, hbook⟩
    · by_cases hi : i ∈ instruments events
      · obtain ⟨book, -, hreplay⟩ := hiso.found i hi
        exact ⟨book, hreplay⟩
      · exact ⟨.fresh, replay_of_not_mem hi⟩
  · rintro ⟨hcard, hreplay⟩
    obtain ⟨b, m, hrun, htracks⟩ := applyEvents_tracks events hcard hreplay
    exact ⟨b, hrun, htracks.isolated⟩

/-- From four shards on, a shard sees no more instruments than the map has
slots. -/
theorem card_instruments_le {k : ℕ} {shard : UInt32} {events : List MboEvent}
    (hk : 2 ≤ k) (hk32 : k < 32)
    (hroute : ∀ e ∈ events, e.instrument.toNat < 2 ^ 16 ∧
      shardOf k e.instrument = shard) :
    (instruments events).card ≤ mapSlots := by
  have hmaps : ∀ i ∈ instruments events,
      i.toNat / 2 ^ k ∈ Finset.range mapSlots := by
    intro i hi
    obtain ⟨e, he, -, rfl⟩ := mem_instruments.mp hi
    have hpow : 2 ^ 2 ≤ 2 ^ k := Nat.pow_le_pow_right (by decide) hk
    have hlt := (hroute e he).1
    rw [Finset.mem_range, Nat.div_lt_iff_lt_mul (Nat.two_pow_pos k)]
    calc e.instrument.toNat < mapSlots * 2 ^ 2 := hlt
      _ ≤ mapSlots * 2 ^ k := Nat.mul_le_mul_left _ hpow
  have hinj : ∀ i ∈ instruments events, ∀ j ∈ instruments events,
      i.toNat / 2 ^ k = j.toNat / 2 ^ k → i = j := by
    intro i hi j hj hdiv
    obtain ⟨e, he, -, rfl⟩ := mem_instruments.mp hi
    obtain ⟨e', he', -, rfl⟩ := mem_instruments.mp hj
    have hmod : e.instrument.toNat % 2 ^ k = e'.instrument.toNat % 2 ^ k := by
      rw [← toNat_shardOf hk32, ← toNat_shardOf hk32, (hroute e he).2,
        (hroute e' he').2]
    apply UInt32.toNat_inj.mp
    rw [← Nat.div_add_mod e.instrument.toNat (2 ^ k), hdiv, hmod,
      Nat.div_add_mod]
  calc (instruments events).card ≤ (Finset.range mapSlots).card :=
        Finset.card_le_card_of_injOn _ hmaps hinj
    _ = mapSlots := Finset.card_range _

/-- On the events of one shard every book is isolated exactly when at most
`mapSlots` instruments have a book, which four shards or more ensure, and no
instrument's own events make its book fault. -/
theorem applyEvents_isolated_iff {k : ℕ} (hk : k < 32) {shard : UInt32}
    (events : List MboEvent)
    (hroute : ∀ e ∈ events, e.instrument.toNat < 2 ^ 16 ∧
      shardOf k e.instrument = shard) :
    ((∃ b, fresh.applyEvents events = .ok b ∧ b.Isolated events) ↔
      (instruments events).card ≤ mapSlots ∧
        ∀ i, ∃ book, replay i events = .ok book) ∧
    (2 ≤ k → (instruments events).card ≤ mapSlots) :=
  ⟨exists_isolated_iff, fun hfour => card_instruments_le hfour hk hroute⟩

/-! ## One instrument too many -/

def addedEvent (i : ℕ) : MboEvent :=
  { instrument := UInt32.ofNat i, oid := 1, price := 100, qty := 1 }

/-- An order is added for each of `n` instruments. -/
def addedEvents (n : ℕ) : List MboEvent :=
  (List.range n).map addedEvent

theorem addedEvents_succ (n : ℕ) :
    addedEvents (n + 1) = addedEvents n ++ [addedEvent n] := by
  simp [addedEvents, List.range_succ]

theorem addedEvents_route (n : ℕ) (hn : n ≤ 2 ^ 16) :
    ∀ e ∈ addedEvents n, e.instrument.toNat < 2 ^ 16 ∧
      shardOf 0 e.instrument = 0 := by
  intro e he
  obtain ⟨i, hi, rfl⟩ := List.mem_map.mp he
  rw [List.mem_range] at hi
  have hlt : (UInt32.ofNat i).toNat < 2 ^ 16 := by
    rw [UInt32.toNat_ofNat']
    omega
  refine ⟨hlt, UInt32.toNat_inj.mp ?_⟩
  rw [toNat_shardOf (by decide), pow_zero, Nat.mod_one]
  rfl

theorem addedEvent_not_mem {n : ℕ} (hn : n < 2 ^ 32) :
    (addedEvent n).instrument ∉ instruments (addedEvents n) := by
  intro hmem
  obtain ⟨e, he, -, heq⟩ := mem_instruments.mp hmem
  obtain ⟨i, hi, rfl⟩ := List.mem_map.mp he
  rw [List.mem_range] at hi
  have hnat := congrArg UInt32.toNat heq
  simp only [addedEvent, UInt32.toNat_ofNat'] at hnat
  omega

theorem card_addedEvents (n : ℕ) (hn : n ≤ 2 ^ 32) :
    (instruments (addedEvents n)).card = n := by
  induction n with
  | zero => rfl
  | succ n ih =>
      have hcreates : (addedEvent n).etype.creates = true := rfl
      rw [addedEvents_succ, instruments_snoc, if_pos hcreates,
        Finset.card_insert_of_notMem (addedEvent_not_mem (by omega)),
        ih (by omega)]

theorem fresh_addedEvent (n : ℕ) :
    ∃ book, (OrderBook.fresh : Book).applyEvent .available (addedEvent n) =
      .ok book := by
  have hsim : (OrderBook.fresh : Book).Simulates .empty :=
    OrderBook.fresh_simulates (by decide)
  have hpriced : (BookCall.add 1 1 100 .bid).Priced := by decide
  obtain ⟨live, nodes, href⟩ := hsim
  obtain ⟨book, hadd, -⟩ : ∃ book, (OrderBook.fresh : Book).addOrder
      .available 1 1 100 .bid = .ok (_, book) ∧ _ :=
    OrderBook.addOrder_refines href (by decide) hpriced (Or.inr (by decide))
  exact ⟨book, by simp [OrderBook.applyEvent, addedEvent, hadd, Except.map]⟩

theorem exists_replay_addedEvents (n : ℕ) (hn : n ≤ 2 ^ 32)
    (i : Instrument) : ∃ book, replay i (addedEvents n) = .ok book := by
  induction n with
  | zero => exact ⟨.fresh, rfl⟩
  | succ n ih =>
      rw [addedEvents_succ]
      by_cases hi : (addedEvent n).instrument = i
      · subst hi
        rw [replay_snoc_self (replay_of_not_mem
          (addedEvent_not_mem (by omega)))]
        exact fresh_addedEvent n
      · rw [replay_snoc_of_ne hi]
        exact ih (by omega)

theorem applyEvents_isolated_iff_sample :
    (∀ e ∈ addedEvents 3, e.instrument.toNat < 2 ^ 16 ∧
      shardOf 0 e.instrument = 0) ∧
    ∃ b, fresh.applyEvents (addedEvents 3) = .ok b ∧
      b.Isolated (addedEvents 3) := by
  have hroute := addedEvents_route 3 (by decide)
  refine ⟨hroute, (applyEvents_isolated_iff (by decide) _ hroute).1.mpr ⟨?_, ?_⟩⟩
  · rw [card_addedEvents 3 (by decide)]
    decide
  · exact exists_replay_addedEvents 3 (by decide)

/-- With one shard, the instrument after the first 16384 gets a book that the
map does not know. -/
theorem applyEvents_not_isolated :
    (∀ e ∈ addedEvents 16385, e.instrument.toNat < 2 ^ 16 ∧
      shardOf 0 e.instrument = 0) ∧
    ∃ b, fresh.applyEvents (addedEvents 16385) = .ok b ∧
      ¬b.Isolated (addedEvents 16385) := by
  refine ⟨addedEvents_route _ (by decide), ?_⟩
  obtain ⟨b, m, hrun, htracks⟩ := applyEvents_tracks (addedEvents 16384)
    (card_addedEvents _ (by decide)).le
    (exists_replay_addedEvents _ (by decide))
  have hmem : (addedEvent 16384).instrument ∉ m := by
    rw [htracks.keys]
    exact addedEvent_not_mem (by decide)
  have hfind := LinearProbingTable.find_eq_lookup htracks.table
    (addedEvent 16384).instrument
  rw [AList.lookup_eq_none.mpr hmem] at hfind
  obtain ⟨book, hbook⟩ := fresh_addedEvent 16384
  obtain ⟨b', happly, -⟩ :=
    exists_ok_of_map_eq (applyEvent_of_creates hfind rfl).symm hbook
  have hrun' : fresh.applyEvents (addedEvents 16385) = .ok b' := by
    rw [addedEvents_succ]
    exact (run_snoc hrun).trans happly
  refine ⟨b', hrun', fun hiso => ?_⟩
  have hle := (exists_isolated_iff.mp ⟨b', hrun', hiso⟩).1
  rw [card_addedEvents _ (by decide)] at hle
  exact absurd hle (by decide)

end BookBuilder

end Fastbook

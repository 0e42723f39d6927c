import Fastbook.BookBuilder.BookIsolation
import Fastbook.Support.Routing

/-!
# The market a builder shows

What the books are for: `Market.books` keeps a price-time book for every
instrument, and two totals say how many adds were refused and how many orders
were not known.  As long as the instruments fit the map, the prices are no
sentinels and no book outgrows `2^32` orders, a builder shows the market of its
events: every book agrees with the reference, and the statistics count every
event and every refusal exactly once.
-/

namespace Fastbook

open Support

/-- The calls an event makes on the book of its instrument. -/
def MboEvent.calls (e : MboEvent) : List BookCall :=
  match e.etype with
  | .added => [.add e.oid e.qty e.price e.side]
  | .executed => [.execute e.oid e.qty]
  | .replaced => [.cancel e.origOid, .add e.oid e.qty e.price e.side]
  | .cancelled => [.reduce e.oid e.qty]
  | .deleted => [.cancel e.oid]

namespace BookAnswer

/-- An order that was not added. -/
def dropped : BookAnswer → Bool
  | .added (.error _) => true
  | _ => false

/-- An order that was not found. -/
def unknown : BookAnswer → Bool
  | .flag false => true
  | _ => false

end BookAnswer

namespace Market

/-- The levels of one side of a `Book`. -/
abbrev maxLevels : ℕ := 8 + 8192

/-- The price-time books, with the events routed by instrument. -/
def machine : Routed Instrument PriceTimeBook MboEvent where
  key := MboEvent.instrument
  step r e := (r.calls maxLevels e.calls).2

def books (events : List MboEvent) : Instrument → PriceTimeBook :=
  machine.run (fun _ => .empty) events

/-- The answers of one kind that the events receive. -/
def answered (kind : BookAnswer → Bool) (events : List MboEvent) : ℕ :=
  machine.total (fun r e => (r.calls maxLevels e.calls).1.countP kind)
    (fun _ => .empty) events

/-- The calls that the events make on the book of `i`. -/
def callsOf (i : Instrument) (events : List MboEvent) : List BookCall :=
  (events.filter fun e => e.instrument = i).flatMap MboEvent.calls

/-- No order has the sentinel price of its side, and no new order is added to a
book with `2^32` live ones. -/
structure Acceptable (events : List MboEvent) : Prop where
  priced : ∀ e ∈ events, ∀ c ∈ e.calls, c.Priced
  fits : ∀ e ∈ events,
    PriceTimeBook.empty.FitsAll maxLevels (callsOf e.instrument events)

section Books

variable {events : List MboEvent} {e : MboEvent} {i : Instrument}

theorem books_snoc :
    books (events ++ [e]) = machine.apply (books events) e := by
  simp [books, Routed.run]

theorem books_snoc_self :
    books (events ++ [e]) e.instrument =
      ((books events e.instrument).calls maxLevels e.calls).2 := by
  rw [books_snoc]
  exact Function.update_self _ _ _

theorem books_snoc_of_ne (h : e.instrument ≠ i) :
    books (events ++ [e]) i = books events i := by
  rw [books_snoc]
  exact Function.update_of_ne (Ne.symm h) _ _

theorem answered_snoc (kind : BookAnswer → Bool) :
    answered kind (events ++ [e]) = answered kind events +
      ((books events e.instrument).calls maxLevels e.calls).1.countP kind := by
  rw [answered, Routed.total_append]
  rfl

theorem callsOf_snoc_self :
    callsOf e.instrument (events ++ [e]) = callsOf e.instrument events ++ e.calls := by
  simp [callsOf]

theorem callsOf_snoc_of_ne (h : e.instrument ≠ i) :
    callsOf i (events ++ [e]) = callsOf i events := by
  simp [callsOf, h]

/-- The book of an instrument has seen the calls of its events. -/
theorem books_eq_calls (events : List MboEvent) (i : Instrument) :
    books events i = (PriceTimeBook.empty.calls maxLevels (callsOf i events)).2 := by
  induction events using List.reverseRecOn with
  | nil => rfl
  | append_singleton events e ih =>
      by_cases hi : e.instrument = i
      · subst hi
        rw [books_snoc_self, ih, callsOf_snoc_self, PriceTimeBook.calls_append]
      · rw [books_snoc_of_ne hi, ih, callsOf_snoc_of_ne hi]

theorem callsOf_eq_nil (h : ∀ e ∈ events, e.instrument ≠ i) : callsOf i events = [] := by
  rw [callsOf, List.filter_eq_nil_iff.mpr (by simpa using h), List.flatMap_nil]

theorem Acceptable.fits_all (h : Acceptable events) (i : Instrument) :
    PriceTimeBook.empty.FitsAll maxLevels (callsOf i events) := by
  by_cases hi : ∃ e ∈ events, e.instrument = i
  · obtain ⟨e, he, rfl⟩ := hi
    exact h.fits e he
  · push Not at hi
    rw [callsOf_eq_nil hi]
    trivial

/-- What the last event needs, and what the events before it had. -/
theorem Acceptable.of_snoc (h : Acceptable (events ++ [e])) :
    Acceptable events ∧ (∀ c ∈ e.calls, c.Priced) ∧
      (books events e.instrument).FitsAll maxLevels e.calls := by
  refine ⟨⟨fun e' he' => h.priced e' (List.mem_append_left _ he'), fun e' he' => ?_⟩,
    h.priced e (by simp), ?_⟩
  · have hfits := h.fits_all e'.instrument
    by_cases hsame : e.instrument = e'.instrument
    · rw [← hsame, callsOf_snoc_self, PriceTimeBook.fitsAll_append] at hfits
      rw [← hsame]
      exact hfits.1
    · rwa [callsOf_snoc_of_ne hsame] at hfits
  · have hfits := h.fits_all e.instrument
    rw [callsOf_snoc_self, PriceTimeBook.fitsAll_append] at hfits
    rw [books_eq_calls]
    exact hfits.2

end Books

end Market

/-! ## The books -/

section Replay

variable {K coldCap : ℕ} {events : List MboEvent}

/-- An event is the calls it makes. -/
theorem OrderBook.applyEvent_eq_calls (book : OrderBook K coldCap) (mbo : MboEvent) :
    book.applyEvent .available mbo = (book.calls mbo.calls).map Prod.snd := by
  unfold OrderBook.applyEvent MboEvent.calls
  cases mbo.etype with
  | added =>
      simp only [OrderBook.calls, OrderBook.call]
      cases book.addOrder .available mbo.oid mbo.qty mbo.price mbo.side <;> rfl
  | executed =>
      simp only [OrderBook.calls, OrderBook.call]
      cases book.executeOrder mbo.oid mbo.qty <;> rfl
  | replaced =>
      simp only [OrderBook.calls, OrderBook.call]
      cases book.cancelOrder mbo.origOid with
      | error e => rfl
      | ok r =>
          simp only [Except.map]
          cases r.2.addOrder .available mbo.oid mbo.qty mbo.price mbo.side <;> rfl
  | cancelled =>
      simp only [OrderBook.calls, OrderBook.call]
      cases book.reduceOrder mbo.oid mbo.qty <;> rfl
  | deleted =>
      simp only [OrderBook.calls, OrderBook.call]
      cases book.cancelOrder mbo.oid <;> rfl

/-- The replay of an instrument simulates its price-time book. -/
theorem exists_replay_simulates (h : Market.Acceptable events) (i : Instrument) :
    ∃ book, replay i events = .ok book ∧ book.Simulates (Market.books events i) := by
  induction events using List.reverseRecOn with
  | nil => exact ⟨.fresh, rfl, OrderBook.fresh_simulates (by decide)⟩
  | append_singleton events e ih =>
      obtain ⟨hevents, hpriced, hfits⟩ := h.of_snoc
      obtain ⟨book, hreplay, hsim⟩ := ih hevents
      by_cases hi : e.instrument = i
      · subst hi
        obtain ⟨book', hcalls, hsim'⟩ :=
          OrderBook.calls_simulates hsim (by decide) hpriced hfits
        refine ⟨book', ?_, ?_⟩
        · rw [BookBuilder.replay_snoc_self hreplay, OrderBook.applyEvent_eq_calls, hcalls]
          rfl
        · rw [Market.books_snoc_self]
          exact hsim'
      · refine ⟨book, ?_, ?_⟩
        · rwa [BookBuilder.replay_snoc_of_ne hi]
        · rwa [Market.books_snoc_of_ne hi]

end Replay

/-! ## The statistics -/

/-- The answers of an event's calls, as the statistics count them. -/
def Stats.count (s : Stats) (answers : List BookAnswer) : Stats where
  msgs := s.msgs
  droppedAdds := s.droppedAdds + .ofNat (answers.countP BookAnswer.dropped)
  unknownOids := s.unknownOids + .ofNat (answers.countP BookAnswer.unknown)

theorem Stats.count_append (s : Stats) (answers answers' : List BookAnswer) :
    s.count (answers ++ answers') = (s.count answers).count answers' := by
  simp [Stats.count, UInt64.ofNat_add, UInt64.add_assoc]

namespace BookBuilder

/-- The book that an event of `instr` meets. -/
def met (b : BookBuilder) (instr : Instrument) : Book :=
  (b.book instr).getD .fresh

section Step

variable {b b' : BookBuilder} {mbo : MboEvent} {instr : Instrument} {p : BookPtr}
  {book : Book}

theorem met_of_find (hfind : b.instrumentMap.find instr = some p)
    (hbook : b.ownedBooks[p]? = some book) : b.met instr = book := by
  simp [met, BookBuilder.book, hfind, hbook]

theorem met_of_not_find (hfind : b.instrumentMap.find instr = none) :
    b.met instr = .fresh := by
  simp [met, BookBuilder.book, hfind]

/-- A handler that only uses a known book counts the orders it does not find. -/
theorem onKnownBook_answer (op : Book → Except Fault (Bool × Book))
    (hfresh : op .fresh = .ok (false, .fresh)) (h : b.onKnownBook instr op = .ok b') :
    ∃ found book', op (b.met instr) = .ok (found, book') ∧ b'.met instr = book' ∧
      b'.stats = b.stats.count [.flag found] := by
  unfold onKnownBook at h
  cases hfind : b.instrumentMap.find instr with
  | none =>
      simp only [hfind] at h
      cases h
      refine ⟨false, .fresh, ?_, met_of_not_find hfind, ?_⟩
      · rw [met_of_not_find hfind, hfresh]
      · simp [countUnknownOid, Stats.count, BookAnswer.dropped, BookAnswer.unknown]
  | some p =>
      simp only [hfind] at h
      cases hbook : b.ownedBooks[p]? with
      | none => simp [hbook] at h
      | some book =>
          have hlt := (List.getElem?_eq_some_iff.mp hbook).1
          simp only [hbook] at h
          rw [met_of_find hfind hbook]
          split at h
          · cases h
          · next book' hop =>
            cases h
            refine ⟨true, book', hop, met_of_find hfind (by simp [setBook, hlt]), ?_⟩
            simp [setBook, Stats.count, BookAnswer.dropped, BookAnswer.unknown]
          · next book' hop =>
            cases h
            refine ⟨false, book', hop,
              met_of_find hfind (by simp [setBook, countUnknownOid, hlt]), ?_⟩
            simp [setBook, countUnknownOid, Stats.count, BookAnswer.dropped,
              BookAnswer.unknown]

/-- The handler of adds counts the orders that are refused. -/
theorem addOrderHandler_answer (h : b.addOrderHandler .available mbo = .ok b') :
    ∃ result book', (b.met mbo.instrument).addOrder .available mbo.oid mbo.qty
        mbo.price mbo.side = .ok (result, book') ∧
      b'.stats = b.stats.count [.added result] := by
  have hmet : b.met mbo.instrument =
      (((b.getOrInitBook mbo.instrument).2.ownedBooks)[
        (b.getOrInitBook mbo.instrument).1]?).getD .fresh := by
    unfold getOrInitBook
    cases hfind : b.instrumentMap.find mbo.instrument with
    | none => simp [met_of_not_find hfind]
    | some p => simp [met, BookBuilder.book, hfind]
  have hstats : (b.getOrInitBook mbo.instrument).2.stats = b.stats := by
    unfold getOrInitBook
    split <;> rfl
  unfold addOrderHandler at h
  rw [hmet, ← hstats]
  generalize b.getOrInitBook mbo.instrument = r at h
  obtain ⟨p, b₁⟩ := r
  cases hbook : b₁.ownedBooks[p]? with
  | none => simp [hbook] at h
  | some book =>
      simp only [hbook] at h
      split at h
      · cases h
      · next book' hadd =>
        cases h
        refine ⟨.ok (), book', hadd, ?_⟩
        simp [setBook, Stats.count, BookAnswer.dropped, BookAnswer.unknown]
      · next err book' hadd =>
        cases h
        refine ⟨.error err, book', hadd, ?_⟩
        simp [setBook, countDroppedAdd, Stats.count, BookAnswer.dropped,
          BookAnswer.unknown]

theorem fresh_cancelOrder (oid : Oid) :
    (OrderBook.fresh : Book).cancelOrder oid = .ok (false, .fresh) := by
  simp [OrderBook.cancelOrder, fresh_find]

theorem fresh_executeOrder (oid : Oid) (qty : UInt32) :
    (OrderBook.fresh : Book).executeOrder oid qty = .ok (false, .fresh) := by
  simp [OrderBook.executeOrder, fresh_find]

/-- The statistics count an event and what its calls on the book were answered. -/
theorem applyEvent_answers (h : b.applyEvent .available mbo = .ok b') :
    ∃ answers book', (b.met mbo.instrument).calls mbo.calls = .ok (answers, book') ∧
      b'.stats = { b.stats with msgs := b.stats.msgs + 1 }.count answers := by
  unfold applyEvent at h
  unfold MboEvent.calls
  -- counting the event changes no book
  generalize hb₁ : { b with stats := { b.stats with msgs := b.stats.msgs + 1 } } = b₁ at h
  have hmet : b.met mbo.instrument = b₁.met mbo.instrument := by
    rw [← hb₁]
    rfl
  have hstats₁ : { b.stats with msgs := b.stats.msgs + 1 } = b₁.stats := by rw [← hb₁]
  rw [hmet, hstats₁]
  cases hetype : mbo.etype with
  | added =>
      rw [hetype] at h
      obtain ⟨result, book', hadd, hstats⟩ := addOrderHandler_answer h
      refine ⟨[.added result], book', ?_, hstats⟩
      simp [OrderBook.calls, OrderBook.call, hadd, Except.map]
  | executed =>
      rw [hetype] at h
      obtain ⟨found, book', hop, -, hstats⟩ :=
        onKnownBook_answer _ (fresh_executeOrder _ _) h
      refine ⟨[.flag found], book', ?_, hstats⟩
      simp [OrderBook.calls, OrderBook.call, hop, Except.map]
  | replaced =>
      rw [hetype] at h
      simp only [replaceOrderHandler] at h
      split at h
      · cases h
      · next b₂ hknown =>
        obtain ⟨found, book', hop, hmet₂, hstats₂⟩ :=
          onKnownBook_answer _ (fresh_cancelOrder _) hknown
        obtain ⟨result, book'', hadd, hstats⟩ := addOrderHandler_answer h
        rw [hmet₂] at hadd
        refine ⟨[.flag found, .added result], book'', ?_, ?_⟩
        · simp [OrderBook.calls, OrderBook.call, hop, hadd, Except.map]
        · rw [hstats, hstats₂, ← Stats.count_append]
          rfl
  | cancelled =>
      rw [hetype] at h
      obtain ⟨found, book', hop, -, hstats⟩ :=
        onKnownBook_answer (·.reduceOrder mbo.oid mbo.qty)
          (fresh_executeOrder _ _) h
      refine ⟨[.flag found], book', ?_, hstats⟩
      simp [OrderBook.calls, OrderBook.call, hop, Except.map]
  | deleted =>
      rw [hetype] at h
      obtain ⟨found, book', hop, -, hstats⟩ :=
        onKnownBook_answer _ (fresh_cancelOrder _) h
      refine ⟨[.flag found], book', ?_, hstats⟩
      simp [OrderBook.calls, OrderBook.call, hop, Except.map]

end Step

theorem Tracks.replay_met {b : BookBuilder} {events : List MboEvent}
    {m : AList fun _ : Instrument => BookPtr} (h : b.Tracks events m) (i : Instrument) :
    replay i events = .ok (b.met i) := by
  have hfind := LinearProbingTable.find_eq_lookup h.table i
  cases hlookup : m.lookup i with
  | none =>
      rw [met_of_not_find (hfind.trans hlookup)]
      apply replay_of_not_mem
      rw [← h.keys]
      exact AList.lookup_eq_none.mp hlookup
  | some p =>
      obtain ⟨book, hbook, hreplay⟩ := h.books i p hlookup
      rw [met_of_find (hfind.trans hlookup) hbook, hreplay]

end BookBuilder

namespace Market

/-- The statistics of the events. -/
def stats (events : List MboEvent) : Stats where
  msgs := .ofNat events.length
  droppedAdds := .ofNat (answered BookAnswer.dropped events)
  unknownOids := .ofNat (answered BookAnswer.unknown events)

variable {events : List MboEvent} {e : MboEvent} {i : Instrument}

theorem stats_snoc :
    stats (events ++ [e]) = Stats.count
      { stats events with msgs := (stats events).msgs + 1 }
      ((books events e.instrument).calls maxLevels e.calls).1 := by
  simp [stats, Stats.count, answered_snoc, UInt64.ofNat_add]

theorem calls_eq_empty {cs : List BookCall}
    (h : ∀ c ∈ cs, (PriceTimeBook.empty.call maxLevels c).2 = .empty) :
    (PriceTimeBook.empty.calls maxLevels cs).2 = .empty := by
  induction cs with
  | nil => rfl
  | cons c cs ih =>
      obtain ⟨hc, hcs⟩ := List.forall_mem_cons.mp h
      simp only [PriceTimeBook.calls, hc]
      exact ih hcs

/-- Without an event that makes a book nothing is there. -/
theorem books_of_not_mem (h : i ∉ instruments events) : books events i = .empty := by
  rw [books_eq_calls]
  apply calls_eq_empty
  intro c hc
  obtain ⟨e, he, hc⟩ := List.mem_flatMap.mp hc
  obtain ⟨he, hi⟩ := List.mem_filter.mp he
  have hcreates : e.etype.creates = false := by
    by_contra hne
    exact h (BookBuilder.mem_instruments.mpr
      ⟨e, he, Bool.eq_true_of_not_eq_false hne, of_decide_eq_true hi⟩)
  unfold MboEvent.calls at hc
  cases hetype : e.etype with
  | added => simp [hetype, EventType.creates] at hcreates
  | replaced => simp [hetype, EventType.creates] at hcreates
  | executed =>
      simp only [hetype, List.mem_singleton] at hc
      subst hc
      rfl
  | cancelled =>
      simp only [hetype, List.mem_singleton] at hc
      subst hc
      rfl
  | deleted =>
      simp only [hetype, List.mem_singleton] at hc
      subst hc
      rfl

end Market

/-! ## Every run -/

namespace BookBuilder

/-- What can be seen of a builder is the market of the events. -/
structure Shows (b : BookBuilder) (events : List MboEvent) : Prop where
  found : ∀ i ∈ instruments events, ∃ book, b.book i = some book ∧
    book.Agrees (Market.books events i)
  absent : ∀ i ∉ instruments events, b.book i = none ∧ Market.books events i = .empty
  count : b.bookCount = (instruments events).card
  stats : b.stats = Market.stats events

variable {events : List MboEvent}

/-- The statistics keep up with the books. -/
theorem applyEvents_counts (hcard : (instruments events).card ≤ mapSlots)
    (h : Market.Acceptable events) :
    ∃ b m, fresh.applyEvents events = .ok b ∧ b.Tracks events m ∧
      b.stats = Market.stats events := by
  induction events using List.reverseRecOn with
  | nil => exact ⟨fresh, ∅, rfl, fresh_tracks, rfl⟩
  | append_singleton events e ih =>
      obtain ⟨hevents, hpriced, hfits⟩ := h.of_snoc
      have hsub : instruments events ⊆ instruments (events ++ [e]) := by
        rw [instruments_snoc]
        split
        · exact Finset.subset_insert _ _
        · exact subset_rfl
      obtain ⟨b, m, hrun, htracks, hstats⟩ :=
        ih ((Finset.card_le_card hsub).trans hcard) hevents
      obtain ⟨book', hreplay', -⟩ := exists_replay_simulates h e.instrument
      obtain ⟨b', m', happly, htracks'⟩ := htracks.step hcard ⟨book', hreplay'⟩
      refine ⟨b', m', (run_snoc hrun).trans happly, htracks', ?_⟩
      -- the book that the event meets answers as the price-time book does
      obtain ⟨book, hreplay, hsim⟩ := exists_replay_simulates hevents e.instrument
      rw [htracks.replay_met] at hreplay
      cases hreplay
      obtain ⟨_, hcalls, -⟩ := OrderBook.calls_simulates hsim (by decide) hpriced hfits
      obtain ⟨answers, _, hanswers, hstats'⟩ := applyEvent_answers happly
      rw [hcalls] at hanswers
      cases hanswers
      rw [hstats', hstats, Market.stats_snoc]

/-- A builder shows the market of its events. -/
theorem applyEvents_shows (hcard : (instruments events).card ≤ mapSlots)
    (h : Market.Acceptable events) :
    ∃ b, fresh.applyEvents events = .ok b ∧ b.Shows events := by
  obtain ⟨b, m, hrun, htracks, hstats⟩ := applyEvents_counts hcard h
  have hiso := htracks.isolated
  refine ⟨b, hrun, fun i hi => ?_, fun i hi => ?_, hiso.count, hstats⟩
  · obtain ⟨book, hbook, hreplay⟩ := hiso.found i hi
    obtain ⟨book', hreplay', live, nodes, href⟩ := exists_replay_simulates h i
    rw [hreplay] at hreplay'
    cases hreplay'
    exact ⟨book, hbook, href.agrees⟩
  · exact ⟨hiso.absent i hi, Market.books_of_not_mem hi⟩

end BookBuilder

end Fastbook

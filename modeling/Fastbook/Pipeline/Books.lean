import Fastbook.BookBuilder.Market
import Fastbook.Pipeline.EarlyStop

/-!
# The books of a finished pipeline

The market of all events is the markets of the shards put together: the books
of an instrument are those of its shard, and the totals add up.  So the builders
of a pipeline that has finished show the market of its whole input, whatever the
schedule, the capacity of the queues and the stamps of the buffers were, and
`report` (`pipeline/feed_handler.hpp`) adds up its statistics.
-/

namespace Fastbook

open Support

namespace Market

variable {k b : ℕ} {events : List MboEvent} {i : Instrument}

/-- An event without the stamp of its buffer. -/
def unstamped (e : MboEvent) : MboEvent :=
  { e with rxTsc := 0 }

theorem books_unstamped (events : List MboEvent) :
    books (events.map unstamped) = books events :=
  machine.run_map unstamped (fun _ => rfl) (fun _ _ => rfl) _ _

theorem answered_unstamped (kind : BookAnswer → Bool) (events : List MboEvent) :
    answered kind (events.map unstamped) = answered kind events :=
  machine.total_map unstamped (fun _ => rfl) (fun _ _ => rfl) (fun _ _ => rfl) _ _

theorem instruments_unstamped (events : List MboEvent) :
    instruments (events.map unstamped) = instruments events := by
  simp only [instruments, List.filter_map, List.map_map]
  rfl

theorem callsOf_unstamped (i : Instrument) (events : List MboEvent) :
    callsOf i (events.map unstamped) = callsOf i events := by
  simp only [callsOf, List.filter_map, List.flatMap_map]
  rfl

theorem acceptable_unstamped : Acceptable (events.map unstamped) ↔ Acceptable events := by
  constructor
  · intro h
    refine ⟨fun e he => h.priced (unstamped e) (List.mem_map_of_mem he), fun e he => ?_⟩
    rw [← callsOf_unstamped]
    exact h.fits (unstamped e) (List.mem_map_of_mem he)
  · intro h
    constructor
    · intro e' he'
      obtain ⟨e, he, rfl⟩ := List.mem_map.mp he'
      exact h.priced e he
    · intro e' he'
      obtain ⟨e, he, rfl⟩ := List.mem_map.mp he'
      rw [callsOf_unstamped]
      exact h.fits e he

/-! ## The shards -/

/-- The book of an instrument has seen what its shard has seen. -/
theorem books_ofShard (h : (shardOf k i).toNat = b) :
    books (Pipeline.ofShard k b events) i = books events i :=
  machine.run_filter (p := fun i => decide ((shardOf k i).toNat = b)) (by simpa using h) _ _

theorem callsOf_ofShard (h : (shardOf k i).toNat = b) :
    callsOf i (Pipeline.ofShard k b events) = callsOf i events := by
  unfold callsOf Pipeline.ofShard
  rw [List.filter_filter]
  congr 1
  refine List.filter_congr fun e _ => ?_
  by_cases hi : e.instrument = i
  · simp [hi, Pipeline.shard, h]
  · simp [hi]

theorem Acceptable.ofShard (h : Acceptable events) (k b : ℕ) :
    Acceptable (Pipeline.ofShard k b events) := by
  refine ⟨fun e he => h.priced e (List.mem_of_mem_filter he), fun e he => ?_⟩
  obtain ⟨he, hshard⟩ := List.mem_filter.mp he
  rw [callsOf_ofShard (of_decide_eq_true hshard)]
  exact h.fits e he

theorem shard_lt (hk : k < 32) (e : MboEvent) : Pipeline.shard k e ∈ Finset.range (2 ^ k) := by
  rw [Finset.mem_range, Pipeline.shard, toNat_shardOf hk]
  exact Nat.mod_lt _ (Nat.two_pow_pos k)

theorem sum_answered (hk : k < 32) (kind : BookAnswer → Bool) (events : List MboEvent) :
    ∑ b ∈ Finset.range (2 ^ k), answered kind (Pipeline.ofShard k b events) =
      answered kind events :=
  machine.sum_total _ (fun i => (shardOf k i).toNat) _ (fun e _ => shard_lt hk e) _

theorem sum_length (hk : k < 32) (events : List MboEvent) :
    ∑ b ∈ Finset.range (2 ^ k), (Pipeline.ofShard k b events).length = events.length := by
  have hone : ∀ l : List MboEvent, machine.total (fun _ _ => 1) (fun _ => .empty) l =
      l.length := by
    intro l
    generalize (fun _ => PriceTimeBook.empty) = f
    induction l generalizing f with
    | nil => rfl
    | cons e l ih => rw [Routed.total, ih, List.length_cons, Nat.add_comm]
  simp only [← hone]
  exact machine.sum_total _ (fun i => (shardOf k i).toNat) _ (fun e _ => shard_lt hk e) _

theorem mem_instruments_ofShard :
    i ∈ instruments (Pipeline.ofShard k b events) ↔
      i ∈ instruments events ∧ (shardOf k i).toNat = b := by
  simp only [BookBuilder.mem_instruments, Pipeline.ofShard, List.mem_filter,
    decide_eq_true_eq]
  constructor
  · rintro ⟨e, ⟨he, hb⟩, hcreates, rfl⟩
    exact ⟨⟨e, he, hcreates, rfl⟩, hb⟩
  · rintro ⟨⟨e, he, hcreates, rfl⟩, hb⟩
    exact ⟨e, ⟨he, hb⟩, hcreates, rfl⟩

theorem sum_card_instruments (hk : k < 32) (events : List MboEvent) :
    ∑ b ∈ Finset.range (2 ^ k), (instruments (Pipeline.ofShard k b events)).card =
      (instruments events).card := by
  have hmaps : ∀ i ∈ instruments events, (shardOf k i).toNat ∈ Finset.range (2 ^ k) := by
    intro i _
    rw [Finset.mem_range, toNat_shardOf hk]
    exact Nat.mod_lt _ (Nat.two_pow_pos k)
  rw [Finset.card_eq_sum_card_fiberwise hmaps]
  refine Finset.sum_congr rfl fun b _ => ?_
  congr 1
  ext i
  rw [mem_instruments_ofShard, Finset.mem_filter]

end Market

/-! ## Every run -/

namespace Pipeline

/-- What the parser emits in the passes of the feed loop. -/
def scriptEvents (script : List Iteration) : List MboEvent :=
  script.flatMap Iteration.events

theorem unstamped_allEvents (script : List Iteration) :
    (allEvents script).map Market.unstamped =
      (scriptEvents script).map Market.unstamped := by
  simp only [allEvents, scriptEvents, List.map_flatMap, Iteration.stamped, List.map_map]
  rfl

/-- What builder `b` has made of the events it has applied. -/
def bookBuilder (s : Pipeline) (b : ℕ) : Except Fault BookBuilder :=
  BookBuilder.fresh.applyEvents (s.applied b)

end Pipeline

namespace FeedHandler

/-- The sums of `report`. -/
def reported (k : ℕ) (builders : ℕ → BookBuilder) (field : Stats → UInt64) : UInt64 :=
  (List.range (2 ^ k)).foldl (fun total b => total + field (builders b).stats) 0

theorem reported_eq {k : ℕ} {builders : ℕ → BookBuilder} {field : Stats → UInt64}
    {count : ℕ → ℕ} (h : ∀ b < 2 ^ k, field (builders b).stats = .ofNat (count b)) :
    reported k builders field = .ofNat (∑ b ∈ Finset.range (2 ^ k), count b) := by
  unfold reported
  generalize 2 ^ k = n at h
  induction n with
  | zero => rfl
  | succ n ih =>
      rw [List.range_succ, List.foldl_append, ih fun b hb => h b (by omega),
        Finset.sum_range_succ, UInt64.ofNat_add, ← h n (Nat.lt_succ_self n)]
      rfl

/-- The builders show the market of the events: the builder of an instrument's
shard has its book, no other builder has one, and the statistics add up. -/
structure ShowsMarket (k : ℕ) (builders : ℕ → BookBuilder) (events : List MboEvent) :
    Prop where
  found : ∀ i ∈ instruments events, ∃ book,
    (builders (shardOf k i).toNat).book i = some book ∧
      book.Agrees (Market.books events i)
  nowhere : ∀ b < 2 ^ k, ∀ i, i ∉ instruments events ∨ (shardOf k i).toNat ≠ b →
    (builders b).book i = none
  bookCount : ∑ b ∈ Finset.range (2 ^ k), (builders b).bookCount =
    (instruments events).card
  msgs : reported k builders Stats.msgs = .ofNat events.length
  droppedAdds : reported k builders Stats.droppedAdds =
    .ofNat (Market.answered BookAnswer.dropped events)
  unknownOids : reported k builders Stats.unknownOids =
    .ofNat (Market.answered BookAnswer.unknown events)

variable {k : ℕ} {builders : ℕ → BookBuilder} {events events' : List MboEvent}

theorem showsMarket_of_shows (hk : k < 32)
    (h : ∀ b < 2 ^ k, (builders b).Shows (Pipeline.ofShard k b events)) :
    ShowsMarket k builders events := by
  have hlt : ∀ i : Instrument, (shardOf k i).toNat < 2 ^ k := by
    intro i
    rw [toNat_shardOf hk]
    exact Nat.mod_lt _ (Nat.two_pow_pos k)
  have hrange : ∀ b ∈ Finset.range (2 ^ k), b < 2 ^ k := fun b hb => Finset.mem_range.mp hb
  constructor
  · intro i hi
    obtain ⟨book, hbook, hagrees⟩ := (h _ (hlt i)).found i
      (Market.mem_instruments_ofShard.mpr ⟨hi, rfl⟩)
    rw [Market.books_ofShard rfl] at hagrees
    exact ⟨book, hbook, hagrees⟩
  · intro b hb i hi
    refine ((h b hb).absent i fun hmem => ?_).1
    obtain ⟨hmem, hshard⟩ := Market.mem_instruments_ofShard.mp hmem
    exact hi.elim (fun hnot => hnot hmem) fun hne => hne hshard
  · rw [← Market.sum_card_instruments hk]
    exact Finset.sum_congr rfl fun b hb => (h b (hrange b hb)).count
  · rw [← Market.sum_length hk]
    exact reported_eq fun b hb => congrArg Stats.msgs (h b hb).stats
  · rw [← Market.sum_answered hk]
    exact reported_eq fun b hb => congrArg Stats.droppedAdds (h b hb).stats
  · rw [← Market.sum_answered hk]
    exact reported_eq fun b hb => congrArg Stats.unknownOids (h b hb).stats

/-- The stamps do not show. -/
theorem ShowsMarket.restamped (h : ShowsMarket k builders events)
    (hsame : events.map Market.unstamped = events'.map Market.unstamped) :
    ShowsMarket k builders events' := by
  have hinstruments : instruments events' = instruments events := by
    rw [← Market.instruments_unstamped, ← hsame, Market.instruments_unstamped]
  have hbooks : Market.books events' = Market.books events := by
    rw [← Market.books_unstamped, ← hsame, Market.books_unstamped]
  have hanswered : ∀ kind, Market.answered kind events' = Market.answered kind events := by
    intro kind
    rw [← Market.answered_unstamped, ← hsame, Market.answered_unstamped]
  have hlength : events'.length = events.length := by
    simpa using (congrArg List.length hsame).symm
  constructor
  · rw [hinstruments, hbooks]
    exact h.found
  · rw [hinstruments]
    exact h.nowhere
  · rw [hinstruments]
    exact h.bookCount
  · rw [hlength]
    exact h.msgs
  · rw [hanswered]
    exact h.droppedAdds
  · rw [hanswered]
    exact h.unknownOids

/-- The builders of a pipeline that has been waited for show the market of its
input.  Four shards or more have room for all instruments. -/
theorem finished_shows {capacity : ℕ} {path : String} {script : List Iteration}
    {s : FeedHandler} (hk : k < 32)
    (hroom : 2 ≤ k ∨
      (instruments (Pipeline.scriptEvents script)).card ≤ BookBuilder.mapSlots)
    (hlocate : ∀ e ∈ Pipeline.scriptEvents script, e.instrument.toNat < 2 ^ 16)
    (haccept : Market.Acceptable (Pipeline.scriptEvents script))
    (h : (system k capacity path script).ReachableVia Waits s) (hok : s.startOk = true)
    (hfeed : s.feedJoinable = false) (hbuilders : ∀ b, s.bbJoinable b = false) :
    ∃ builders, (∀ b < 2 ^ k, s.pipe.bookBuilder b = .ok (builders b)) ∧
      ShowsMarket k builders (Pipeline.scriptEvents script) := by
  have hsame := Pipeline.unstamped_allEvents script
  have haccept' : Market.Acceptable (Pipeline.allEvents script) := by
    rw [← Market.acceptable_unstamped, hsame, Market.acceptable_unstamped]
    exact haccept
  have hlocate' : ∀ e ∈ Pipeline.allEvents script, e.instrument.toNat < 2 ^ 16 := by
    intro stamped hstamped
    obtain ⟨it, hit, hmem⟩ := List.mem_flatMap.mp hstamped
    obtain ⟨e, he, rfl⟩ := List.mem_map.mp hmem
    exact hlocate e (List.mem_flatMap.mpr ⟨it, hit, he⟩)
  have hshows : ∀ b, ∃ builder : BookBuilder, b < 2 ^ k →
      s.pipe.bookBuilder b = .ok builder ∧
        builder.Shows (Pipeline.ofShard k b (Pipeline.allEvents script)) := by
    intro b
    by_cases hb : b < 2 ^ k
    · have hcard : (instruments
          (Pipeline.ofShard k b (Pipeline.allEvents script))).card ≤ BookBuilder.mapSlots := by
        rcases hroom with hfour | hcard
        · refine @BookBuilder.card_instruments_le k (UInt32.ofNat b) _ hfour hk ?_
          intro e hmem
          obtain ⟨he, hshard⟩ := List.mem_filter.mp hmem
          refine ⟨hlocate' e he, ?_⟩
          rw [← of_decide_eq_true hshard, Pipeline.shard, UInt32.ofNat_toNat]
        · rw [← Market.instruments_unstamped, ← hsame, Market.instruments_unstamped] at hcard
          refine (Finset.card_le_card fun i hi => ?_).trans hcard
          exact (Market.mem_instruments_ofShard.mp hi).1
      obtain ⟨builder, hrun, hshow⟩ :=
        BookBuilder.applyEvents_shows hcard (haccept'.ofShard k b)
      refine ⟨builder, fun _ => ⟨?_, hshow⟩⟩
      rw [Pipeline.bookBuilder, finished_applied h hok hfeed hbuilders hb, hrun]
    · exact ⟨BookBuilder.fresh, fun hlt => absurd hlt hb⟩
  choose builders hbuilder using hshows
  refine ⟨builders, fun b hb => (hbuilder b hb).1, ?_⟩
  exact (showsMarket_of_shows hk fun b hb => (hbuilder b hb).2).restamped hsame

end FeedHandler

end Fastbook

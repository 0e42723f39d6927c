import Fastbook.Feed.FileSource
import Fastbook.Pipeline.Books

/-!
# From a capture file to the books

The feed handler over a file: `VenueFeed::run` (`feed/venue_feed.hpp`) over
`FileSource` and `LengthPrefixFramer<true, 4096>`, with `ITCHParser` as the
parser.  The feed stops at the end of the file, and when the framer finds an
oversized message.

The parser looks at the memory that starts with a message, and what lies behind
the message is not known.  When every message is as long as its type asks for,
the events are those of the frames of the file, wherever the slices are cut.
-/

namespace Fastbook

open Support

namespace ItchParser

/-- A message is at least as long as its type asks for. -/
def WellFormed (m : List UInt8) : Prop :=
  wireSize (m.getD 0 0) ≤ m.length

/-- The event of a message. -/
def messageEvent (m : List UInt8) : Option MboEvent :=
  (parse fun i => m.getD i 0).1

theorem parse_eq_messageEvent {m : List UInt8} (h : WellFormed m) {mem : ℕ → UInt8}
    (hmem : ∀ i < m.length, mem i = m.getD i 0) : (parse mem).1 = messageEvent m :=
  parse_event_congr fun i hi => hmem i (Nat.lt_of_lt_of_le hi h)

/-- The instrument is a stock locate. -/
theorem parse_locate {mem : ℕ → UInt8} {e : MboEvent} (h : (parse mem).1 = some e) :
    e.instrument.toNat < 2 ^ 16 := by
  have hlt : ∀ n : UInt16, n.toUInt32.toNat < 2 ^ 16 := by
    intro n
    rw [UInt16.toNat_toUInt32]
    exact n.toNat_lt
  unfold parse at h
  generalize parseMsg (BufReader.ofSpan mem) = r at h
  obtain ⟨msg, reader⟩ := r
  cases msg with
  | unknown => cases h
  | addOrder msg | addOrderMPID msg | orderExecuted msg | orderExecutedPrice msg
  | orderCancel msg | orderDelete msg | orderReplace msg =>
      cases h
      exact hlt msg.stockLocate

end ItchParser

namespace VenueFeed

/-- What `on_message` makes of the messages of one pass. -/
inductive Emits : List (List UInt8) → List MboEvent → Prop
  | nil : Emits [] []
  | cons {m : List UInt8} {ms : List (List UInt8)} {events : List MboEvent}
      (mem : ℕ → UInt8) (hmem : ∀ i < m.length, mem i = m.getD i 0)
      (rest : Emits ms events) :
      Emits (m :: ms) ((ItchParser.parse mem).1.toList ++ events)

theorem Emits.eq_filterMap {ms : List (List UInt8)} {events : List MboEvent}
    (h : Emits ms events) (hms : ∀ m ∈ ms, ItchParser.WellFormed m) :
    events = ms.filterMap ItchParser.messageEvent := by
  induction h with
  | nil => rfl
  | @cons m ms events mem hmem rest ih =>
      obtain ⟨hm, hms⟩ := List.forall_mem_cons.mp hms
      rw [ih hms, ItchParser.parse_eq_messageEvent hm hmem, List.filterMap_cons]
      cases ItchParser.messageEvent m <;> rfl

theorem emits_filterMap (ms : List (List UInt8)) :
    Emits ms (ms.filterMap ItchParser.messageEvent) := by
  induction ms with
  | nil => exact .nil
  | cons m ms ih =>
      have h := Emits.cons (m := m) (fun i => m.getD i 0) (fun _ _ => rfl) ih
      rw [List.filterMap_cons]
      rw [← ItchParser.messageEvent] at h
      cases hevent : ItchParser.messageEvent m with
      | none => simpa [hevent] using h
      | some e => simpa [hevent] using h

theorem Emits.locate {ms : List (List UInt8)} {events : List MboEvent}
    (h : Emits ms events) : ∀ e ∈ events, e.instrument.toNat < 2 ^ 16 := by
  induction h with
  | nil => exact List.forall_mem_nil _
  | cons mem hmem rest ih =>
      intro e he
      rcases List.mem_append.mp he with hnow | hlater
      · exact ItchParser.parse_locate (Option.mem_toList.mp hnow)
      · exact ih e hlater

/-- The passes of the loop of `run` over the rest of a file.  In the last one the
feed calls `stop()`. -/
inductive FilePasses {maxPayload : ℕ} :
    LengthPrefixFramer true maxPayload → List UInt8 → List Iteration → Prop
  | eof {framer : LengthPrefixFramer true maxPayload} {remaining : List UInt8}
      (rxTsc : UInt64) (hnext : FileSource.next remaining = none) :
      FilePasses framer remaining [⟨rxTsc, []⟩]
  | fed {framer framer' : LengthPrefixFramer true maxPayload}
      {remaining slice rest : List UInt8} {messages : List (List UInt8)}
      {events : List MboEvent} {script : List Iteration} (rxTsc : UInt64)
      (hnext : FileSource.next remaining = some (slice, rest))
      (hfeed : framer.feed slice = (messages, .ok (), framer'))
      (hevents : Emits messages events) (hrest : FilePasses framer' rest script) :
      FilePasses framer remaining (⟨rxTsc, events⟩ :: script)
  | failed {framer framer' : LengthPrefixFramer true maxPayload}
      {remaining slice rest : List UInt8} {messages : List (List UInt8)}
      {events : List MboEvent} {e : StreamError} (rxTsc : UInt64)
      (hnext : FileSource.next remaining = some (slice, rest))
      (hfeed : framer.feed slice = (messages, .error e, framer'))
      (hevents : Emits messages events) :
      FilePasses framer remaining [⟨rxTsc, events⟩]

end VenueFeed

namespace FileSource

theorem slices_of_none {remaining : List UInt8} (h : next remaining = none) :
    slices remaining = [] := by
  rw [slices]
  split
  · rfl
  · next heq =>
    rw [h] at heq
    cases heq

theorem slices_of_some {remaining slice rest : List UInt8}
    (h : next remaining = some (slice, rest)) :
    slices remaining = slice :: slices rest := by
  rw [slices]
  split
  · next heq =>
    rw [h] at heq
    cases heq
  · next slice' rest' heq =>
    rw [h] at heq
    cases heq
    rfl

end FileSource

namespace VenueFeed

open LengthPrefixFramer

variable {maxPayload : ℕ} {framer : LengthPrefixFramer true maxPayload}
  {remaining : List UInt8} {script : List Iteration}

/-- The passes emit the events of what the framer delivers. -/
theorem FilePasses.events_eq (h : FilePasses framer remaining script)
    (hms : ∀ m ∈ (feedAll framer (FileSource.slices remaining)).2.1,
      ItchParser.WellFormed m) :
    Pipeline.scriptEvents script =
      (feedAll framer (FileSource.slices remaining)).2.1.filterMap
        ItchParser.messageEvent := by
  induction h with
  | eof rxTsc hnext =>
      rw [FileSource.slices_of_none hnext]
      rfl
  | fed rxTsc hnext hfeed hevents hrest ih =>
      rw [FileSource.slices_of_some hnext, feedAll, hfeed] at hms ⊢
      obtain ⟨hnow, hlater⟩ := List.forall_mem_append.mp hms
      rw [List.filterMap_append, ← ih hlater, ← hevents.eq_filterMap hnow]
      rfl
  | failed rxTsc hnext hfeed hevents =>
      rw [FileSource.slices_of_some hnext, feedAll, hfeed] at hms ⊢
      rw [← hevents.eq_filterMap hms]
      exact List.append_nil _

theorem FilePasses.locate (h : FilePasses framer remaining script) :
    ∀ e ∈ Pipeline.scriptEvents script, e.instrument.toNat < 2 ^ 16 := by
  induction h with
  | eof rxTsc hnext => exact List.forall_mem_nil _
  | fed rxTsc hnext hfeed hevents hrest ih =>
      intro e he
      rcases List.mem_append.mp he with hnow | hlater
      · exact hevents.locate e hnow
      · exact ih e hlater
  | failed rxTsc hnext hfeed hevents =>
      intro e he
      exact hevents.locate e (by simpa [Pipeline.scriptEvents] using he)

end VenueFeed

/-- The events of the frames of a file, up to the first frame that is too
large. -/
def fileEvents (data : List UInt8) : List MboEvent :=
  ((LengthPrefixFramer.lengthPrefixed 4096).decode data).1.filterMap
    ItchParser.messageEvent

/-- The passes over a file whose messages are well formed emit its events. -/
theorem VenueFeed.FilePasses.fileEvents_eq {data : List UInt8} {script : List Iteration}
    (h : FilePasses (LengthPrefixFramer.fresh : LengthPrefixFramer true 4096) data script)
    (hdata : ∀ m ∈ ((LengthPrefixFramer.lengthPrefixed 4096).decode data).1,
      ItchParser.WellFormed m) :
    Pipeline.scriptEvents script = fileEvents data := by
  have hdelivered := FileSource.delivered_eq_decode 4096 data
  rw [fileEvents, ← hdelivered]
  rw [← hdelivered] at hdata
  exact h.events_eq hdata

namespace FeedHandler

/-- A handler over a capture file whose messages are well formed: once the feed
has finished and the threads are joined, the builders show the market of the
file, and `report` its totals. -/
theorem file_books {k capacity : ℕ} {path : String} {data : List UInt8}
    {script : List Iteration} {s : FeedHandler} (hk : k < 32)
    (hroom : 2 ≤ k ∨ (instruments (fileEvents data)).card ≤ BookBuilder.mapSlots)
    (hdata : ∀ m ∈ ((LengthPrefixFramer.lengthPrefixed 4096).decode data).1,
      ItchParser.WellFormed m)
    (haccept : Market.Acceptable (fileEvents data))
    (hpasses : VenueFeed.FilePasses
      (LengthPrefixFramer.fresh : LengthPrefixFramer true 4096) data script)
    (h : (system k capacity path script).ReachableVia Waits s) (hok : s.startOk = true)
    (hfeed : s.feedJoinable = false) (hbuilders : ∀ b, s.bbJoinable b = false) :
    ∃ builders, (∀ b < 2 ^ k, s.pipe.bookBuilder b = .ok (builders b)) ∧
      ShowsMarket k builders (fileEvents data) := by
  rw [← hpasses.fileEvents_eq hdata] at hroom haccept ⊢
  exact finished_shows hk hroom hpasses.locate haccept h hok hfeed hbuilders

/-- A bid for ten shares at a price of 100, order 7 of instrument 1. -/
def sampleMessage : List UInt8 :=
  [65, 0, 1, 0, 0, 0, 0, 0, 0, 0, 1, 0, 0, 0, 0, 0, 0, 0, 7, 66, 0, 0, 0, 10,
    84, 69, 83, 84, 32, 32, 32, 32, 0, 0, 0, 100]

theorem wellFormed_sampleMessage : ItchParser.WellFormed sampleMessage := by
  unfold ItchParser.WellFormed
  decide

/-- A file with the message and a byte that is cut off. -/
def sampleFile : List UInt8 :=
  Mold.block sampleMessage ++ [0]

def sampleEvent : MboEvent where
  printable := true
  instrument := 1
  timestamp := 1
  oid := 7
  price := 100
  qty := 10

def sampleFileScript : List Iteration :=
  [⟨9, [sampleEvent]⟩, ⟨0, []⟩]

theorem decode_sampleFile :
    (LengthPrefixFramer.lengthPrefixed 4096).decode sampleFile =
      ([sampleMessage], .rest [0]) := by
  have hitem : (LengthPrefixFramer.lengthPrefixed 4096).step sampleFile =
      .item sampleMessage [0] := step_block_append (by decide) (by decide) [0]
  have hrest : (LengthPrefixFramer.lengthPrefixed 4096).step [0] = .needMore := rfl
  rw [Decoder.decode_of_item hitem, Decoder.decode_of_needMore hrest]
  rfl

theorem fileEvents_sampleFile : fileEvents sampleFile = [sampleEvent] := by
  rw [fileEvents, decode_sampleFile]
  rfl

theorem filePasses_sampleFile :
    VenueFeed.FilePasses (LengthPrefixFramer.fresh : LengthPrefixFramer true 4096)
      sampleFile sampleFileScript := by
  have hnext : FileSource.next sampleFile = some (sampleFile, []) := by
    simp only [FileSource.next, if_neg (by decide : sampleFile ≠ []),
      min_eq_left (by decide : sampleFile.length ≤ FileSource.sliceSize), List.take_length,
      List.drop_length]
  have hnil : (LengthPrefixFramer.lengthPrefixed 4096).step [] = .needMore := rfl
  have hfeed : (LengthPrefixFramer.fresh : LengthPrefixFramer true 4096).feed sampleFile =
      ([sampleMessage], .ok (), ⟨[0]⟩) := by
    have heq := @LengthPrefixFramer.feed_eq 4096 [] sampleFile hnil (by decide)
    rw [List.nil_append, decode_sampleFile] at heq
    exact heq
  exact .fed 9 hnext hfeed (VenueFeed.emits_filterMap [sampleMessage]) (.eof 0 rfl)

theorem acceptable_sampleEvent : Market.Acceptable [sampleEvent] where
  priced := by decide
  fits := by decide

/-- The input is read to its end before the handler is destroyed. -/
def readSchedule (n : ℕ) : List Act :=
  List.replicate 4 (.client true) ++
    List.replicate 2 (.feed true) ++ List.replicate 2 (.builder 0 true) ++
    List.replicate 2 (.builder 1 true) ++ List.replicate 4 (.client true) ++
    List.replicate n (.feed true)

@[inherit_doc readSchedule]
def destroySchedule : List Act :=
  List.replicate 5 (.client true) ++ List.replicate 3 (.builder 0 true) ++
    List.replicate 5 (.builder 1 true) ++ List.replicate 3 (.client true)

theorem waits_of_schedule {script : List Iteration} {n : ℕ} {s₁ s₂ s : FeedHandler}
    (hread : (system 1 4 "threads.cfg" script).run (configured script) (readSchedule n) =
      some s₁) (hfinished : s₁.pipe.finished = true)
    (hcall : (system 1 4 "threads.cfg" script).step s₁ (.call .destroy) = some s₂)
    (hdestroy : (system 1 4 "threads.cfg" script).run s₂ destroySchedule = some s) :
    (system 1 4 "threads.cfg" script).ReachableVia Waits s := by
  have hstart : (system 1 4 "threads.cfg" script).ReachableVia Waits (configured script) :=
    TransitionSystem.ReachableVia.start.run (by simp [startSchedule, Waits])
      (run_startSchedule [])
  have hwaits : s₁.Waits (.call .destroy) := Or.inl hfinished
  exact ((hstart.run (by simp [readSchedule, Waits]) hread).step hwaits hcall).run
    (by simp [destroySchedule, Waits]) hdestroy

theorem file_books_sample :
    ∃ s builders, (system 1 4 "threads.cfg" sampleFileScript).ReachableVia Waits s ∧
      s.client = .destroyed ∧
      (∀ b < 2 ^ 1, s.pipe.bookBuilder b = .ok (builders b)) ∧
      ShowsMarket 1 builders [sampleEvent] := by
  obtain ⟨s, hreach, hpc, hok, hfeed, hbuilders⟩ :
      ∃ s, (system 1 4 "threads.cfg" sampleFileScript).ReachableVia Waits s ∧
        s.client = .destroyed ∧ s.startOk = true ∧ s.feedJoinable = false ∧
        ∀ b, s.bbJoinable b = false := by
    refine ⟨_, waits_of_schedule (n := 9) rfl rfl rfl rfl, rfl, rfl, rfl, fun b => ?_⟩
    rcases b with _ | _ | b <;> rfl
  have haccept := acceptable_sampleEvent
  have hroom : (instruments [sampleEvent]).card ≤ BookBuilder.mapSlots := by decide
  rw [← fileEvents_sampleFile] at haccept hroom ⊢
  have hdata : ∀ m ∈ ((LengthPrefixFramer.lengthPrefixed 4096).decode sampleFile).1,
      ItchParser.WellFormed m := by
    rw [decode_sampleFile]
    exact List.forall_mem_singleton.mpr wellFormed_sampleMessage
  obtain ⟨builders, hbuilt, hshows⟩ := file_books (by decide) (Or.inr hroom) hdata haccept
    filePasses_sampleFile hreach hok hfeed hbuilders
  exact ⟨s, builders, hreach, hpc, hbuilt, hshows⟩

end FeedHandler

end Fastbook

import Fastbook.Feed.ReplaySession
import Fastbook.Pipeline.FileBooks

/-!
# From a live session to the books

The feed handler over a multicast group: `VenueFeed::run` (`feed/venue_feed.hpp`)
over MoldUDP64 datagrams, with the recoverer that asks for lost messages again.
A pass of the loop emits the events of all messages that are handed over in it,
those that a recovery brings back included.

A capture that is replayed over the network, with whatever losses, leads to the
books that the file itself leads to.
-/

namespace Fastbook

open Support

namespace VenueFeed

variable {r : MoldRetransmitRecoverer} {inputs inputs' : List Input}
  {v v' w : VenueFeed} {script : List Iteration}

/-- The messages that have been handed over. -/
def messages (v : VenueFeed) : List (List UInt8) :=
  v.recovery.delivery.handed.map Handed.message

/-- One pass of the loop of `run` that does not wait for an input. -/
inductive Pass (r : MoldRetransmitRecoverer) :
    List Input → VenueFeed → List Input → VenueFeed → Prop
  | wouldBlock {inputs : List Input} {v : VenueFeed} :
      Pass r (.source (.error .wouldBlock) :: inputs) v inputs v
  | closed {inputs : List Input} {v : VenueFeed} {status : TransportStatus}
      (hstatus : status ≠ .wouldBlock) :
      Pass r (.source (.error status) :: inputs) v inputs v.stop
  | fed {inputs : List Input} {v v' : VenueFeed} {buf : List UInt8}
      (hfeed : v.feed buf = (.ok (), v')) :
      Pass r (.source (.ok buf) :: inputs) v inputs v'
  | error {inputs inputs' : List Input} {v v' v'' : VenueFeed} {buf : List UInt8}
      {e : SequencedError} (hfeed : v.feed buf = (.error e, v'))
      (herror : onFramerError r buf e inputs v' = (.returned () inputs', v'')) :
      Pass r (.source (.ok buf) :: inputs) v inputs' v''

theorem Pass.run_succ (h : Pass r inputs v inputs' v') (hgo : v.stopRequested = false)
    (n : ℕ) : run r (n + 1) inputs v = run r n inputs' v' := by
  cases h with
  | wouldBlock => simp [run, hgo]
  | @closed _ _ status hstatus =>
      cases status with
      | wouldBlock => exact absurd rfl hstatus
      | eof | error => simp [run, hgo]
  | fed hfeed => simp [run, hgo, hfeed]
  | error hfeed herror => simp [run, hgo, hfeed, herror]

/-- What has been handed over stays. -/
theorem feedLoop_handed (n : ℕ) (currentSeq : UInt64) (data : List UInt8) (d : Delivery) :
    d.handed <+: (Delivery.feedLoop n currentSeq data d).2.handed := by
  fun_induction Delivery.feedLoop n currentSeq data d with
  | case1 | case2 | case3 => exact List.prefix_rfl
  | case4 _ _ _ _ _ _ _ _ _ ih => exact ih
  | case5 _ _ _ d _ _ _ _ _ _ ih => exact (List.prefix_append d.handed _).trans ih

theorem feed_handed (d : Delivery) (data : List UInt8) :
    d.handed <+: (d.feed data).2.handed := by
  unfold Delivery.feed
  split
  · exact List.prefix_rfl
  · next hdr body hread =>
    have hopen : d.handed = (d.openSession hdr.session).handed := by
      unfold Delivery.openSession
      split <;> rfl
    rw [hopen]
    dsimp only
    split_ifs
    · exact List.prefix_rfl
    · exact List.prefix_rfl
    · exact List.prefix_rfl
    · exact List.prefix_rfl
    · exact feedLoop_handed _ _ _ _

theorem Pass.messages_prefix (h : Pass r inputs v inputs' v') : v.messages <+: v'.messages := by
  have hfeed : ∀ (d : Delivery) data, v.recovery.delivery.handed <+: d.handed → True →
      v.recovery.delivery.handed <+: (d.feed data).2.handed :=
    fun d data hd _ => hd.trans (feed_handed d data)
  refine List.IsPrefix.map _ ?_
  cases h with
  | wouldBlock => exact List.prefix_rfl
  | closed => exact List.prefix_rfl
  | fed hfed => exact feed_invariant (D := fun _ => True) hfeed hfed List.prefix_rfl trivial
  | error hfed herror =>
      refine (onFramerError_invariant (D := fun _ => True) hfeed herror trivial
        (feed_invariant (D := fun _ => True) hfeed hfed List.prefix_rfl trivial) ?_).1
      intro i _
      unfold Input.Supplies
      split <;> trivial

/-- The passes of the loop of `run`, up to the one in which the feed stops. -/
inductive LivePasses (r : MoldRetransmitRecoverer) :
    List Input → VenueFeed → List Iteration → VenueFeed → Prop
  | last {inputs inputs' : List Input} {v v' : VenueFeed} {events : List MboEvent}
      (rxTsc : UInt64) (hpass : Pass r inputs v inputs' v')
      (hstop : v'.stopRequested = true)
      (hevents : Emits (v'.messages.drop v.messages.length) events) :
      LivePasses r inputs v [⟨rxTsc, events⟩] v'
  | next {inputs inputs' : List Input} {v v' w : VenueFeed} {events : List MboEvent}
      {script : List Iteration} (rxTsc : UInt64) (hpass : Pass r inputs v inputs' v')
      (hgo : v'.stopRequested = false)
      (hevents : Emits (v'.messages.drop v.messages.length) events)
      (hrest : LivePasses r inputs' v' script w) :
      LivePasses r inputs v (⟨rxTsc, events⟩ :: script) w

theorem run_of_stopped (n : ℕ) (h : v.stopRequested = true) : run r n inputs v = v := by
  cases n with
  | zero => rfl
  | succ n => simp [run, h]

theorem LivePasses.run_eq (h : LivePasses r inputs v script w)
    (hgo : v.stopRequested = false) {n : ℕ} (hn : script.length ≤ n) :
    run r n inputs v = w := by
  induction h generalizing n with
  | last rxTsc hpass hstop hevents =>
      obtain ⟨m, rfl⟩ := Nat.exists_eq_add_of_le' hn
      rw [List.length_singleton, hpass.run_succ hgo, run_of_stopped _ hstop]
  | next rxTsc hpass hgo' hevents hrest ih =>
      rw [List.length_cons] at hn
      obtain ⟨m, rfl⟩ := Nat.exists_eq_add_of_le' (le_trans (Nat.le_add_left 1 _) hn)
      rw [hpass.run_succ hgo, ih hgo' (by omega)]

/-- The passes emit the events of the messages that are handed over in them. -/
theorem LivePasses.events_eq (h : LivePasses r inputs v script w) :
    ∃ ms, w.messages = v.messages ++ ms ∧
      ((∀ m ∈ ms, ItchParser.WellFormed m) →
        Pipeline.scriptEvents script = ms.filterMap ItchParser.messageEvent) := by
  induction h with
  | last rxTsc hpass hstop hevents =>
      refine ⟨_, List.prefix_iff_eq_append.mp hpass.messages_prefix |>.symm, fun hms => ?_⟩
      rw [← hevents.eq_filterMap hms]
      exact List.append_nil _
  | @next _ _ v v' w _ _ rxTsc hpass hgo hevents hrest ih =>
      obtain ⟨ms, hw, hlater⟩ := ih
      have hv := List.prefix_iff_eq_append.mp hpass.messages_prefix
      refine ⟨v'.messages.drop v.messages.length ++ ms, ?_, fun hms => ?_⟩
      · rw [hw, ← List.append_assoc, hv]
      · obtain ⟨hnow, hrest⟩ := List.forall_mem_append.mp hms
        rw [List.filterMap_append, ← hlater hrest, ← hevents.eq_filterMap hnow]
        rfl

theorem LivePasses.locate (h : LivePasses r inputs v script w) :
    ∀ e ∈ Pipeline.scriptEvents script, e.instrument.toNat < 2 ^ 16 := by
  induction h with
  | last rxTsc hpass hstop hevents =>
      intro e he
      exact hevents.locate e (by simpa [Pipeline.scriptEvents] using he)
  | next rxTsc hpass hgo hevents hrest ih =>
      intro e he
      rcases List.mem_append.mp he with hnow | hlater
      · exact hevents.locate e hnow
      · exact ih e hlater

/-- Inputs behind the stop are not read. -/
theorem run_eq_of_stopped {n m : ℕ} (h : (run r n inputs v).stopRequested = true)
    (hle : n ≤ m) : run r m inputs v = run r n inputs v := by
  induction n generalizing inputs v m with
  | zero => exact run_of_stopped m h
  | succ n ih =>
      obtain ⟨m, rfl⟩ := Nat.exists_eq_add_of_le' (le_trans (Nat.le_add_left 1 n) hle)
      have hle' : n ≤ m := Nat.le_of_succ_le_succ hle
      unfold run at h ⊢
      split_ifs at h ⊢
      · rfl
      · split at h
        · exact ih h hle'
        · exact ih h hle'
        · split at h
          · exact ih h hle'
          · split at h
            · rfl
            · exact ih h hle'
        · rfl

end VenueFeed

namespace ReplaySession

open VenueFeed (received outstanding)

/-- At the end of a replayed session the messages of the capture have been handed
over, and the venue feed has stopped. -/
theorem messages_of_end {capture : Capture} {r : MoldRetransmitRecoverer}
    (hattempts : 1 ≤ r.maxAttempts) (hper : 1 ≤ r.maxPerRequest) {s : ReplaySession}
    (hs : (system capture.bytes r).Reachable s) (hend : EndRead s.inputs)
    (hnone : outstanding r s.inputs = none) :
    (received r s.inputs).stopRequested = true ∧
      (received r s.inputs).messages = capture.messages := by
  have hlay : MoldReplay.Layout capture.bytes capture.messages :=
    MoldReplay.layout_blocks _
  obtain ⟨k, -, hreceives⟩ : Invariant capture.messages r s :=
    hs.invariant invariant_start fun _ _ _ h hstep =>
      h.step hlay capture.length_messages hattempts hper hstep
  obtain ⟨hstop, hhanded⟩ := hreceives.handed_of_end hattempts hend hnone
  refine ⟨hstop, ?_⟩
  rw [VenueFeed.messages, hhanded, handedUpTo_messages]

end ReplaySession

namespace FeedHandler

open VenueFeed (received outstanding)

/-- The file as a capture. -/
def sampleRecording : Capture where
  bytes := sampleFile
  size_lt := by decide

/-- The only message is lost and requested again. -/
def lossySession : ReplaySession where
  replay := {
    index := [⟨1, 0⟩]
    seq := 2
    pos := 38
    built := [MoldReplay.datagram 1 1 (Mold.block sampleMessage),
      MoldReplay.datagram 2 Mold.endOfSession []] }
  inputs := [.source (.ok (MoldReplay.datagram 2 Mold.endOfSession [])), .sent (.ok ()),
    .clock false, .reply (.ok (MoldReplay.datagram 1 1 (Mold.block sampleMessage)))]

theorem lossySession_reachable :
    (ReplaySession.system sampleRecording.bytes ⟨1, 1⟩).Reachable lossySession := by
  have hrun : (ReplaySession.system sampleRecording.bytes ⟨1, 1⟩).run {}
      [.build, .finish, .arrive 1 2048, .answer] = some lossySession := by decide +kernel
  exact TransitionSystem.Reachable.start.run hrun

theorem sampleRecording_messages : sampleRecording.messages = [sampleMessage] := by
  change Mold.blocks (Mold.block sampleMessage ++ [0]) = _
  rw [Mold.blocks_block_append (by decide), Mold.blocks_of_cutOff (Or.inl (by decide))]

theorem livePasses_lossySession :
    ∃ v, VenueFeed.LivePasses ⟨1, 1⟩ lossySession.inputs {} [⟨9, [sampleEvent]⟩] v := by
  obtain ⟨v, hpass, hstop, hmessages⟩ :
      ∃ v, VenueFeed.Pass ⟨1, 1⟩ lossySession.inputs {} [] v ∧ v.stopRequested = true ∧
        v.messages = [sampleMessage] :=
    ⟨_, .error rfl rfl, by decide +kernel, by decide +kernel⟩
  refine ⟨v, .last 9 hpass hstop ?_⟩
  rw [hmessages]
  exact VenueFeed.emits_filterMap [sampleMessage]

end FeedHandler

end Fastbook

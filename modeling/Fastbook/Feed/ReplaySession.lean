import Fastbook.Feed.FileSource
import Fastbook.Feed.ReplayDelivery
import Fastbook.Support.TransitionSystem

/-!
# A replay and its receiver

The replay of a capture and a venue feed that listens to it, as one transition
system.  The network may lose, repeat, reorder and cut off the datagrams of the
multicast group; a request is answered with the datagrams that `serve_requests`
builds for it, which come back in order.

Once an end-of-session datagram has been read and no request is outstanding,
the venue feed has handed over the messages of the capture, as many and in the
order in which the file path delivers them.
-/

namespace Fastbook

open Support Mold MoldReplay

/-! ## The system -/

def Input.isSent : Input → Bool
  | .sent _ => true
  | _ => false

namespace VenueFeed

/-- The venue feed after the inputs so far.  Every iteration of the loop takes
at least one of them. -/
def received (r : MoldRetransmitRecoverer) (inputs : List Input) : VenueFeed :=
  run r inputs.length inputs {}

/-- The request that has been written and is still to be sent. -/
def outstanding (r : MoldRetransmitRecoverer) (inputs : List Input) :
    Option Header :=
  (received r inputs).recovery.requests[inputs.countP Input.isSent]?

end VenueFeed

open VenueFeed (received outstanding onFramerError onFramerErrorLoop)
open MoldRetransmitRecoverer (replyInputs)

deriving instance DecidableEq for Input

/-- The replay, and what the venue feed has been supplied with so far. -/
structure ReplaySession where
  replay : MoldReplay := {}
  inputs : List Input := []
  deriving DecidableEq

namespace ReplaySession

inductive Event where
  /-- The replay builds the next datagram. -/
  | build
  /-- The replay builds an end-of-session datagram. -/
  | finish
  /-- The venue feed finds nothing to read. -/
  | idle
  /-- The venue feed reads a datagram, or what a buffer of `size` bytes holds of
  it. -/
  | arrive (i size : ℕ)
  /-- The outstanding request is sent and answered. -/
  | answer

/-- The venue feed is about to call `src_.next()`. -/
def reading (r : MoldRetransmitRecoverer) (s : ReplaySession) : Bool :=
  !(received r s.inputs).stopRequested && (outstanding r s.inputs).isNone

def supply (s : ReplaySession) (inputs : List Input) : ReplaySession :=
  { s with inputs := s.inputs ++ inputs }

def step (data : List UInt8) (r : MoldRetransmitRecoverer)
    (s : ReplaySession) : Event → Option ReplaySession
  | .build => (s.replay.next data).map fun replay => { s with replay }
  | .finish => (s.replay.finish data).map fun replay => { s with replay }
  | .idle =>
    if s.reading r then some (s.supply [.source (.error .wouldBlock)])
    else none
  | .arrive i size =>
    if s.reading r then
      match s.replay.built[i]? with
      | none => none
      | some d => some (s.supply [.source (.ok (d.take size))])
    else none
  | .answer =>
    match outstanding r s.inputs with
    | none => none
    | some q =>
      match serveRequest data s.replay.index s.replay.seq (writeHeader q) with
      | none => none
      | some ds => some (s.supply (.sent (.ok ()) :: replyInputs ds))

def system (data : List UInt8) (r : MoldRetransmitRecoverer) :
    TransitionSystem ReplaySession Event where
  start := {}
  step := step data r

end ReplaySession

/-! ## Where the venue feed stands -/

section Resume

variable {r : MoldRetransmitRecoverer} {inputs : List Input}
  {buf data : List UInt8} {v v' : VenueFeed}

/-- The loop of `run` after a call of `on_framer_error`. -/
def resume (r : MoldRetransmitRecoverer) (n : ℕ) :
    Progress Unit × VenueFeed → VenueFeed
  | (.waiting, v) => v
  | (.returned () inputs, v) => VenueFeed.run r n inputs v

/-- The inputs so far have taken the venue feed back to the head of its loop,
in the state `v`. -/
def Resumes (r : MoldRetransmitRecoverer) (inputs : List Input)
    (v : VenueFeed) : Prop :=
  ∃ j ≤ inputs.length, ∀ n more,
    VenueFeed.run r (n + j) (inputs ++ more) {} = VenueFeed.run r n more v

/-- The inputs so far have taken the venue feed to a call of `on_framer_error`
for the gap before `buf`, in the state `v`. -/
def Recovers (r : MoldRetransmitRecoverer) (inputs : List Input)
    (buf : List UInt8) (v : VenueFeed) : Prop :=
  ∃ j ≤ inputs.length, ∀ n more,
    VenueFeed.run r (n + j) (inputs ++ more) {} =
      resume r n (onFramerError r buf .gap more v)

theorem run_nil (r : MoldRetransmitRecoverer) (n : ℕ) (v : VenueFeed) :
    VenueFeed.run r n [] v = v := by
  cases n with
  | zero => rfl
  | succ n => simp [VenueFeed.run]

theorem Resumes.received (h : Resumes r inputs v) : received r inputs = v := by
  obtain ⟨j, hj, hrun⟩ := h
  have hall := hrun (inputs.length - j) []
  rw [List.append_nil, Nat.sub_add_cancel hj, run_nil] at hall
  exact hall

theorem Recovers.received (h : Recovers r inputs buf v) :
    ∃ n, received r inputs = resume r n (onFramerError r buf .gap [] v) := by
  obtain ⟨j, hj, hrun⟩ := h
  have hall := hrun (inputs.length - j) []
  rw [List.append_nil, Nat.sub_add_cancel hj] at hall
  exact ⟨_, hall⟩

theorem resumes_start (r : MoldRetransmitRecoverer) : Resumes r [] {} :=
  ⟨0, le_refl 0, fun _ _ => rfl⟩

theorem Resumes.idle (h : Resumes r inputs v) (hstop : v.stopRequested = false) :
    Resumes r (inputs ++ [.source (.error .wouldBlock)]) v := by
  obtain ⟨j, hj, hrun⟩ := h
  refine ⟨j + 1, by simpa using hj, fun n more => ?_⟩
  rw [List.append_assoc, ← Nat.add_assoc, Nat.add_right_comm, hrun]
  simp [VenueFeed.run, hstop]

/-- A call of `on_framer_error` without a gap to fill returns at once. -/
def settle : Except SequencedError Unit → VenueFeed → VenueFeed
  | .ok (), v => v
  | .error .malformed, v => { v with malformed := v.malformed + 1 }
  | .error _, v => v.stop

theorem Resumes.arrive (h : Resumes r inputs v)
    (hstop : v.stopRequested = false) {res : Except SequencedError Unit}
    (hfeed : v.feed data = (res, v')) (hres : res ≠ .error .gap) :
    Resumes r (inputs ++ [.source (.ok data)]) (settle res v') := by
  obtain ⟨j, hj, hrun⟩ := h
  refine ⟨j + 1, by simpa using hj, fun n more => ?_⟩
  rw [List.append_assoc, ← Nat.add_assoc, Nat.add_right_comm, hrun]
  cases res with
  | ok => simp [VenueFeed.run, hstop, hfeed, settle]
  | error e =>
      cases e with
      | gap => exact absurd rfl hres
      | malformed | endOfSession | sessionChanged =>
          simp [VenueFeed.run, hstop, hfeed, settle, onFramerError,
            VenueFeed.maxRecoveries, onFramerErrorLoop]

theorem Resumes.gap (h : Resumes r inputs v) (hstop : v.stopRequested = false)
    (hfeed : v.feed data = (.error .gap, v')) :
    Recovers r (inputs ++ [.source (.ok data)]) data v' := by
  obtain ⟨j, hj, hrun⟩ := h
  refine ⟨j + 1, by simpa using hj, fun n more => ?_⟩
  rw [List.append_assoc, ← Nat.add_assoc, Nat.add_right_comm, hrun]
  simp only [List.singleton_append, VenueFeed.run, hstop, hfeed, resume]
  rfl

/-- The gap has been filled: `recover` returns, and `buf` is fed again. -/
theorem Recovers.settle (h : Recovers r inputs buf v)
    (hge : v.recovery.delivery.gapEnd ≤ v.recovery.delivery.expected)
    {res : Except SequencedError Unit} (hfeed : v.feed buf = (res, v'))
    (hres : res ≠ .error .gap) : Resumes r inputs (settle res v') := by
  obtain ⟨j, hj, hrun⟩ := h
  refine ⟨j, hj, fun n more => ?_⟩
  have hrec : r.recover more v.recovery =
      (.returned (.ok ()) more, v.recovery) :=
    MoldRetransmitRecoverer.recoverLoop_done hge
  rw [hrun]
  cases res with
  | ok =>
      simp [onFramerError, VenueFeed.maxRecoveries, onFramerErrorLoop, hrec,
        hfeed, resume, Fastbook.settle]
  | error e =>
      cases e with
      | gap => exact absurd rfl hres
      | malformed | endOfSession | sessionChanged =>
          simp [onFramerError, VenueFeed.maxRecoveries, onFramerErrorLoop,
            hrec, hfeed, resume, Fastbook.settle]

/-- Replies after which the call of `recover` goes on from `s`. -/
theorem Recovers.answer (h : Recovers r inputs buf v) (replies : List Input)
    {s : Recovery}
    (hrec : ∀ more, r.recover (replies ++ more) v.recovery = r.recover more s) :
    Recovers r (inputs ++ replies) buf { v with recovery := s } := by
  obtain ⟨j, hj, hrun⟩ := h
  refine ⟨j, by rw [List.length_append]; omega, fun n more => ?_⟩
  rw [List.append_assoc, hrun]
  simp only [onFramerError, VenueFeed.maxRecoveries, onFramerErrorLoop, hrec]

/-- While the gap is open, the next request is outstanding. -/
theorem Recovers.request (h : Recovers r inputs buf v)
    (hattempts : 1 ≤ r.maxAttempts)
    (hlt : v.recovery.delivery.expected < v.recovery.delivery.gapEnd) :
    VenueFeed.received r inputs = { v with
      recovery := r.request v.recovery.delivery.gapEnd v.recovery } := by
  obtain ⟨n, hreceived⟩ := h.received
  have hne := MoldRetransmitRecoverer.zero_ne_maxAttempts hattempts
  have hrec : r.recover [] v.recovery =
      (.waiting, r.request v.recovery.delivery.gapEnd v.recovery) := by
    rw [MoldRetransmitRecoverer.recover, MoldRetransmitRecoverer.recoverLoop,
      if_pos hlt, if_neg hne]
    rfl
  rw [hreceived]
  simp only [onFramerError, VenueFeed.maxRecoveries, onFramerErrorLoop, hrec,
    resume]

end Resume

/-! ## The invariant -/

/-- An end-of-session datagram has been read. -/
def EndRead (inputs : List Input) : Prop :=
  ∃ data, .source (.ok data) ∈ inputs ∧ Ends data

/-- What the venue feed has handed over, and that every request so far has been
answered and has brought a message. -/
structure Tracks (ms : List (List UInt8)) (inputs : List Input)
    (v : VenueFeed) : Prop where
  follows : v.recovery.delivery.Follows ms
  answered : v.recovery.requests.length = inputs.countP Input.isSent
  bounded : v.recovery.requests.length < v.recovery.delivery.expected.toNat

/-- The venue feed while the first `k` messages have been packed: it reads the
source, fills the gap before `buf`, or has stopped with all messages. -/
inductive Receives (ms : List (List UInt8)) (k : ℕ)
    (r : MoldRetransmitRecoverer) (inputs : List Input) : Prop
  | reads (v : VenueFeed) (hresumes : Resumes r inputs v)
      (htracks : Tracks ms inputs v) (hstop : v.stopRequested = false)
      (hend : ¬EndRead inputs)
  | recovers (buf : List UInt8) (v : VenueFeed)
      (hrecovers : Recovers r inputs buf v) (htracks : Tracks ms inputs v)
      (hstop : v.stopRequested = false)
      (hhas : v.recovery.delivery.framer.hasSession = true)
      (hlt : v.recovery.delivery.expected < v.recovery.delivery.gapEnd)
      (hle : v.recovery.delivery.gapEnd.toNat ≤ k + 1)
      (hgenuine : Genuine ms k buf)
      (hread : ∃ hdr body, readHeader buf = some (hdr, body) ∧
        hdr.seqNum = v.recovery.delivery.gapEnd)
      (hend : EndRead inputs → Ends buf)
  | finished (v : VenueFeed) (hresumes : Resumes r inputs v)
      (htracks : Tracks ms inputs v) (hstop : v.stopRequested = true)
      (hall : v.recovery.delivery.expected.toNat = ms.length + 1)

section Step

variable {ms : List (List UInt8)} {k : ℕ} {r : MoldRetransmitRecoverer}
  {inputs : List Input} {data : List UInt8} {v v' : VenueFeed}

theorem Receives.mono {k' : ℕ} (h : Receives ms k r inputs) (hle : k ≤ k')
    (hk' : k' ≤ ms.length) : Receives ms k' r inputs := by
  cases h with
  | reads v hresumes htracks hstop hend =>
      exact .reads v hresumes htracks hstop hend
  | recovers buf v hrecovers htracks hstop hhas hlt hbound hgenuine hread
      hend =>
      exact .recovers buf v hrecovers htracks hstop hhas hlt (by omega)
        (hgenuine.mono hle hk') hread hend
  | finished v hresumes htracks hstop hall =>
      exact .finished v hresumes htracks hstop hall

/-- Feeding what has arrived keeps track of the messages. -/
theorem Tracks.feed (h : Tracks ms inputs v) (hdata : Genuine ms k data)
    (hk : k ≤ ms.length) {res : Except SequencedError Unit}
    (hfeed : v.feed data = (res, v')) :
    Tracks ms inputs v' ∧ v'.recovery.delivery.Heard ms k data res := by
  obtain ⟨hfollows, hheard⟩ := h.follows.feed hdata hk
  rw [VenueFeed.delivery_feed_eq hfeed] at hfollows hheard
  have hne : res ≠ .error .sessionChanged := by
    rintro rfl
    cases hheard with
    | taken _ hres => simp at hres
  have hext := Delivery.feed_extends (VenueFeed.delivery_feed_eq hfeed) hne
  have hle := UInt64.le_iff_toNat_le.mp hext.le
  have hreq : v'.recovery.requests = v.recovery.requests := by
    obtain ⟨-, rfl⟩ := Prod.mk.inj hfeed
    rfl
  refine ⟨⟨hfollows, ?_, ?_⟩, hheard⟩
  · rw [hreq]
    exact h.answered
  · have hbounded := h.bounded
    rw [hreq]
    omega

theorem Tracks.source (h : Tracks ms inputs v)
    (res : Except TransportStatus (List UInt8)) :
    Tracks ms (inputs ++ [.source res]) v := by
  refine ⟨h.follows, ?_, h.bounded⟩
  rw [List.countP_append, h.answered]
  rfl

theorem settle_recovery (res : Except SequencedError Unit) (v : VenueFeed) :
    (settle res v).recovery = v.recovery := by
  match res with
  | .ok () => rfl
  | .error .malformed => rfl
  | .error .gap => rfl
  | .error .endOfSession => rfl
  | .error .sessionChanged => rfl

theorem Tracks.settle (h : Tracks ms inputs v)
    (res : Except SequencedError Unit) : Tracks ms inputs (settle res v) := by
  have hsame := settle_recovery res v
  refine ⟨?_, ?_, ?_⟩
  · rw [hsame]
    exact h.follows
  · rw [hsame]
    exact h.answered
  · rw [hsame]
    exact h.bounded

theorem stopRequested_feed {res : Except SequencedError Unit}
    (hfeed : v.feed data = (res, v')) :
    v'.stopRequested = v.stopRequested := by
  obtain ⟨-, rfl⟩ := Prod.mk.inj hfeed
  rfl

/-- The venue feed goes on reading, unless the session has ended. -/
theorem Receives.settled {res : Except SequencedError Unit}
    (hresumes : Resumes r inputs (settle res v))
    (htracks : Tracks ms inputs v) (hstop : v.stopRequested = false)
    (hheard : v.recovery.delivery.Heard ms k data res)
    (hres : res ≠ .error .gap) (hend : EndRead inputs → Ends data) :
    Receives ms k r inputs := by
  have hsettled := htracks.settle res
  cases hheard with
  | taken _ hok hnot =>
      have hread : ¬EndRead inputs := fun h => hnot (hend h)
      rcases hok with rfl | rfl
      · exact .reads _ hresumes hsettled hstop hread
      · exact .reads _ hresumes hsettled hstop hread
  | gap => exact absurd rfl hres
  | ended _ hexp => exact .finished _ hresumes hsettled rfl hexp

/-- The venue feed reads what has arrived. -/
theorem Receives.arrive (hresumes : Resumes r inputs v)
    (htracks : Tracks ms inputs v) (hstop : v.stopRequested = false)
    (hend : ¬EndRead inputs) (hdata : Genuine ms k data)
    (hk : k ≤ ms.length) :
    Receives ms k r (inputs ++ [.source (.ok data)]) := by
  have hends : EndRead (inputs ++ [.source (.ok data)]) → Ends data := by
    rintro ⟨data', hmem, hend'⟩
    rcases List.mem_append.mp hmem with hmem | hmem
    · exact absurd ⟨data', hmem, hend'⟩ hend
    · cases List.mem_singleton.mp hmem
      exact hend'
  obtain ⟨res, v', hfeed⟩ : ∃ res v', v.feed data = (res, v') := ⟨_, _, rfl⟩
  obtain ⟨htracks', hheard⟩ := (htracks.source (.ok data)).feed hdata hk hfeed
  have hstop' := (stopRequested_feed hfeed).trans hstop
  by_cases hgap : res = .error .gap
  · subst hgap
    obtain ⟨hdr, body, hread, hhas, -, hseq, -⟩ :=
      Delivery.feed_gap (VenueFeed.delivery_feed_eq hfeed)
    cases hheard with
    | taken _ hok => simp at hok
    | gap hlt hle =>
        exact .recovers data v' (hresumes.gap hstop hfeed) htracks' hstop' hhas
          hlt hle hdata ⟨hdr, body, hread, hseq.symm⟩ hends
  · exact .settled (hresumes.arrive hstop hfeed hgap) htracks' hstop' hheard
      hgap hends

/-- The gap has been filled. -/
theorem Receives.filled {buf : List UInt8} (hrecovers : Recovers r inputs buf v)
    (htracks : Tracks ms inputs v) (hstop : v.stopRequested = false)
    (hhas : v.recovery.delivery.framer.hasSession = true)
    (hge : v.recovery.delivery.gapEnd ≤ v.recovery.delivery.expected)
    (hgenuine : Genuine ms k buf) (hk : k ≤ ms.length)
    (hread : ∃ hdr body, readHeader buf = some (hdr, body) ∧
      hdr.seqNum = v.recovery.delivery.gapEnd)
    (hend : EndRead inputs → Ends buf) : Receives ms k r inputs := by
  obtain ⟨hdr, body, hread, hseq⟩ := hread
  obtain ⟨res, v', hfeed⟩ : ∃ res v', v.feed buf = (res, v') := ⟨_, _, rfl⟩
  obtain ⟨htracks', hheard⟩ := htracks.feed hgenuine hk hfeed
  have hstop' := (stopRequested_feed hfeed).trans hstop
  have hgap : res ≠ .error .gap := by
    rintro rfl
    have hlast := htracks.follows.inOrder.session_eq hhas
    rw [← (hgenuine hdr body hread).1] at hlast
    have hagain := Delivery.feed_of_le hread hlast (hseq ▸ hge)
    rw [VenueFeed.delivery_feed_eq hfeed] at hagain
    simp at hagain
  exact .settled (hrecovers.settle hge hfeed hgap) htracks' hstop' hheard hgap
    hend

/-! ## Outstanding requests -/

theorem Tracks.outstanding_none (h : Tracks ms inputs v)
    (hresumes : Resumes r inputs v) : outstanding r inputs = none := by
  rw [outstanding, hresumes.received, List.getElem?_eq_none_iff, h.answered]

theorem Tracks.outstanding_some {buf : List UInt8} (h : Tracks ms inputs v)
    (hrecovers : Recovers r inputs buf v) (hattempts : 1 ≤ r.maxAttempts)
    (hlt : v.recovery.delivery.expected < v.recovery.delivery.gapEnd) :
    outstanding r inputs = some (r.firstRequest v.recovery.delivery) := by
  rw [outstanding, hrecovers.request hattempts hlt, ← h.answered]
  exact List.getElem?_concat_length

theorem countP_replyInputs (ds : List (List UInt8)) :
    (replyInputs ds).countP Input.isSent = 0 := by
  rw [List.countP_eq_zero]
  intro i hi
  obtain ⟨d, -, hi⟩ := List.mem_flatMap.mp hi
  rcases List.mem_cons.mp hi with rfl | hi
  · simp [Input.isSent]
  · rw [List.mem_singleton.mp hi]
    simp [Input.isSent]

theorem endRead_replies {ds : List (List UInt8)}
    (h : EndRead (inputs ++ .sent (.ok ()) :: replyInputs ds)) :
    EndRead inputs := by
  obtain ⟨data, hmem, hend⟩ := h
  refine ⟨data, ?_, hend⟩
  rcases List.mem_append.mp hmem with hmem | hmem
  · exact hmem
  · simp [replyInputs] at hmem

/-- A request has been answered with at least one message. -/
theorem Tracks.answer (h : Tracks ms inputs v) {d : Delivery}
    (hfollows : d.Follows ms) (hmore : v.recovery.delivery.expected < d.expected)
    (ds : List (List UInt8)) (q : Header) :
    Tracks ms (inputs ++ .sent (.ok ()) :: replyInputs ds)
      { v with recovery := ⟨d, v.recovery.requests ++ [q]⟩ } := by
  have hanswered := h.answered
  have hbounded := h.bounded
  have hmore' := UInt64.lt_iff_toNat_lt.mp hmore
  have hsent : Input.isSent (.sent (.ok ())) = true := rfl
  refine ⟨hfollows, ?_, ?_⟩
  · rw [List.countP_append, List.countP_cons_of_pos hsent, countP_replyInputs,
      List.length_append, List.length_singleton]
    omega
  · rw [List.length_append, List.length_singleton]
    change v.recovery.requests.length + 1 < d.expected.toNat
    omega

/-- An outstanding request is answered, and the venue feed goes on. -/
theorem Receives.answer {replay : MoldReplay} {q : Header}
    (h : Receives ms k r inputs) (hlay : Layout data ms)
    (hN : ms.length + 1 < 2 ^ 64) (hreplay : Replayed ms k replay)
    (hattempts : 1 ≤ r.maxAttempts) (hper : 1 ≤ r.maxPerRequest)
    (hq : outstanding r inputs = some q) :
    ∃ ds, serveRequest data replay.index replay.seq (writeHeader q) =
        some ds ∧
      Receives ms k r (inputs ++ .sent (.ok ()) :: replyInputs ds) := by
  cases h with
  | reads v hresumes htracks =>
      rw [htracks.outstanding_none hresumes] at hq
      cases hq
  | finished v hresumes htracks =>
      rw [htracks.outstanding_none hresumes] at hq
      cases hq
  | recovers buf v hrecovers htracks hstop hhas hlt hle hgenuine hread hend =>
      rw [htracks.outstanding_some hrecovers hattempts hlt] at hq
      obtain rfl := Option.some.inj hq
      obtain ⟨ds, d, hserve, hfollows, hmore, hhas', hgap, hrec⟩ :=
        MoldRetransmitRecoverer.recover_answered hlay hN hreplay hattempts hper
          htracks.follows hhas hlt hle
      have hrecovers' := hrecovers.answer (.sent (.ok ()) :: replyInputs ds) hrec
      have hends : EndRead (inputs ++ .sent (.ok ()) :: replyInputs ds) →
          Ends buf := fun h => hend (endRead_replies h)
      have htracks' : Tracks ms (inputs ++ .sent (.ok ()) :: replyInputs ds)
          { v with recovery := ⟨d, v.recovery.requests ++
            [r.firstRequest v.recovery.delivery]⟩ } :=
        htracks.answer hfollows hmore ds _
      have hread' : ∃ hdr body, readHeader buf = some (hdr, body) ∧
          hdr.seqNum = d.gapEnd := by
        rw [hgap]
        exact hread
      refine ⟨ds, hserve, ?_⟩
      by_cases hopen : d.expected < d.gapEnd
      · refine .recovers buf _ hrecovers' htracks' hstop hhas' hopen ?_
          hgenuine hread' hends
        change d.gapEnd.toNat ≤ k + 1
        rw [hgap]
        exact hle
      · exact .filled hrecovers' htracks' hstop hhas' (UInt64.not_lt.mp hopen)
          hgenuine hreplay.le hread' hends

/-- Every request, the outstanding one apart, has brought a message. -/
theorem Receives.requests_le (h : Receives ms k r inputs)
    (hattempts : 1 ≤ r.maxAttempts) (hk : k ≤ ms.length) :
    (received r inputs).recovery.requests.length ≤ ms.length := by
  cases h with
  | reads v hresumes htracks =>
      have hbounded := htracks.bounded
      have hle := htracks.follows.le
      rw [hresumes.received]
      omega
  | finished v hresumes htracks =>
      have hbounded := htracks.bounded
      have hle := htracks.follows.le
      rw [hresumes.received]
      omega
  | recovers buf v hrecovers htracks _ _ hlt hle =>
      have hbounded := htracks.bounded
      have hlt' := UInt64.lt_iff_toNat_lt.mp hlt
      rw [hrecovers.request hattempts hlt, MoldRetransmitRecoverer.request,
        List.length_append, List.length_singleton]
      omega

/-- At the end of the session all messages have been handed over. -/
theorem Receives.handed_of_end (h : Receives ms k r inputs)
    (hattempts : 1 ≤ r.maxAttempts) (hend : EndRead inputs)
    (hnone : outstanding r inputs = none) :
    (received r inputs).stopRequested = true ∧
      (received r inputs).recovery.delivery.handed =
        handedUpTo (message ms) ms.length := by
  cases h with
  | reads v _ _ _ hnot => exact absurd hend hnot
  | recovers buf v hrecovers htracks _ _ hlt =>
      rw [htracks.outstanding_some hrecovers hattempts hlt] at hnone
      cases hnone
  | finished v hresumes htracks hstop hall =>
      have hhanded := htracks.follows.inOrder.handed_eq
      rw [hall, Nat.add_sub_cancel] at hhanded
      rw [hresumes.received]
      exact ⟨hstop, hhanded⟩

end Step

/-! ## Whole runs -/

namespace ReplaySession

variable {ms : List (List UInt8)} {data : List UInt8}
  {r : MoldRetransmitRecoverer} {s s' : ReplaySession}

/-- The replay has packed some messages, and the venue feed stands where these
have taken it. -/
def Invariant (ms : List (List UInt8)) (r : MoldRetransmitRecoverer)
    (s : ReplaySession) : Prop :=
  ∃ k, Replayed ms k s.replay ∧ Receives ms k r s.inputs

theorem invariant_start : Invariant ms r {} := by
  refine ⟨0, replayed_start, .reads {} (resumes_start r) ?_ rfl ?_⟩
  · refine ⟨⟨Delivery.fresh_inOrder, ?_⟩, rfl, by decide⟩
    change 1 ≤ ms.length + 1
    omega
  · rintro ⟨data, hmem, -⟩
    cases hmem

/-- A venue feed that is about to read. -/
theorem Invariant.reads (h : Invariant ms r s) (hattempts : 1 ≤ r.maxAttempts)
    (hreading : s.reading r = true) :
    ∃ k v, Replayed ms k s.replay ∧ Resumes r s.inputs v ∧
      Tracks ms s.inputs v ∧ v.stopRequested = false ∧ ¬EndRead s.inputs := by
  obtain ⟨k, hreplay, hreceives⟩ := h
  rw [reading, Bool.and_eq_true, Bool.not_eq_true', Option.isNone_iff_eq_none]
    at hreading
  obtain ⟨hgoing, hnone⟩ := hreading
  cases hreceives with
  | reads v hresumes htracks hstop hend =>
      exact ⟨k, v, hreplay, hresumes, htracks, hstop, hend⟩
  | recovers buf v hrecovers htracks _ _ hlt =>
      rw [htracks.outstanding_some hrecovers hattempts hlt] at hnone
      cases hnone
  | finished v hresumes _ hstop =>
      rw [hresumes.received, hstop] at hgoing
      cases hgoing

theorem Invariant.step (h : Invariant ms r s) (hlay : Layout data ms)
    (hN : ms.length + 1 < 2 ^ 64) (hattempts : 1 ≤ r.maxAttempts)
    (hper : 1 ≤ r.maxPerRequest) {e : Event}
    (hstep : s.step data r e = some s') : Invariant ms r s' := by
  cases e with
  | build =>
      obtain ⟨k, hreplay, hreceives⟩ := h
      obtain ⟨replay, hnext, rfl⟩ := Option.map_eq_some_iff.mp hstep
      obtain ⟨k', hlt, hreplay'⟩ := hreplay.next hlay hN hnext
      exact ⟨k', hreplay', hreceives.mono hlt.le hreplay'.le⟩
  | finish =>
      obtain ⟨k, hreplay, hreceives⟩ := h
      obtain ⟨replay, hfinish, rfl⟩ := Option.map_eq_some_iff.mp hstep
      exact ⟨k, hreplay.finish hlay hfinish, hreceives⟩
  | idle =>
      rw [ReplaySession.step] at hstep
      split_ifs at hstep with hreading
      obtain rfl := Option.some.inj hstep
      obtain ⟨k, v, hreplay, hresumes, htracks, hstop, hend⟩ :=
        h.reads hattempts hreading
      refine ⟨k, hreplay, .reads v (hresumes.idle hstop) (htracks.source _)
        hstop ?_⟩
      rintro ⟨data', hmem, hend'⟩
      rcases List.mem_append.mp hmem with hmem | hmem
      · exact hend ⟨data', hmem, hend'⟩
      · cases List.mem_singleton.mp hmem
  | arrive i size =>
      rw [ReplaySession.step] at hstep
      split_ifs at hstep with hreading
      split at hstep
      · cases hstep
      · next d hbuilt =>
        obtain rfl := Option.some.inj hstep
        obtain ⟨k, v, hreplay, hresumes, htracks, hstop, hend⟩ :=
          h.reads hattempts hreading
        have hgenuine := (hreplay.built d (List.mem_of_getElem? hbuilt)).genuine
          hlay.short hreplay.le hN size
        exact ⟨k, hreplay, .arrive hresumes htracks hstop hend hgenuine
          hreplay.le⟩
  | answer =>
      obtain ⟨k, hreplay, hreceives⟩ := h
      rw [ReplaySession.step] at hstep
      split at hstep
      · cases hstep
      · next q hq =>
        obtain ⟨ds, hserve, hreceives'⟩ :=
          hreceives.answer hlay hN hreplay hattempts hper hq
        rw [hserve] at hstep
        obtain rfl := Option.some.inj hstep
        exact ⟨k, hreplay, hreceives'⟩

end ReplaySession

/-! ## Both paths see the same messages -/

/-- A capture; the size of a file is a signed 64-bit number. -/
structure Capture where
  bytes : List UInt8
  size_lt : bytes.length < 2 ^ 63

/-- The complete messages of a capture. -/
def Capture.messages (capture : Capture) : List (List UInt8) :=
  blocks capture.bytes

theorem length_le_encode (ms : List (List UInt8)) :
    ms.length ≤ (encode ms).length := by
  induction ms with
  | nil => exact le_refl 0
  | cons m ms ih =>
      rw [encode_cons, List.length_append, length_block, List.length_cons]
      omega

theorem Capture.length_messages (capture : Capture) :
    capture.messages.length + 1 < 2 ^ 64 := by
  obtain ⟨tail, hdata, -⟩ := exists_encode_blocks capture.bytes
  have hsize := capture.size_lt
  have hle := length_le_encode (blocks capture.bytes)
  have hlen := congrArg List.length hdata
  rw [List.length_append] at hlen
  change (blocks capture.bytes).length + 1 < 2 ^ 64
  omega

theorem handedUpTo_messages (ms : List (List UInt8)) :
    (handedUpTo (message ms) ms.length).map Handed.message = ms := by
  apply List.ext_getElem
  · simp [handedUpTo]
  · intro i h₁ h₂
    simp [handedUpTo, message, h₂]

namespace ReplaySession

/-- In every run of a replay and its receiver, the venue feed sends at most as
many requests as there are messages, and an outstanding request is answered.
Once an end-of-session datagram has been read and no request is outstanding, the
venue feed has stopped, and the messages it has handed over are those that the
file path delivers from the same capture: its complete messages, without the
cut-off tail. -/
theorem replay_delivers_capture (capture : Capture)
    (hmax : ∀ m ∈ capture.messages, m.length ≤ 4096)
    (r : MoldRetransmitRecoverer) (hattempts : 1 ≤ r.maxAttempts)
    (hper : 1 ≤ r.maxPerRequest) (s : ReplaySession)
    (hs : (system capture.bytes r).Reachable s) :
    (received r s.inputs).recovery.requests.length ≤
        capture.messages.length ∧
      (outstanding r s.inputs ≠ none →
        ∃ s', s.step capture.bytes r .answer = some s') ∧
      (EndRead s.inputs → outstanding r s.inputs = none →
        (received r s.inputs).stopRequested = true ∧
          (received r s.inputs).recovery.delivery.handed.map Handed.message =
            FileSource.delivered 4096 capture.bytes ∧
          FileSource.delivered 4096 capture.bytes = capture.messages) := by
  have hlay : Layout capture.bytes capture.messages := layout_blocks _
  have hN := capture.length_messages
  obtain ⟨k, hreplay, hreceives⟩ : Invariant capture.messages r s :=
    hs.invariant invariant_start fun _ _ _ h hstep =>
      h.step hlay hN hattempts hper hstep
  refine ⟨hreceives.requests_le hattempts hreplay.le, ?_, ?_⟩
  · intro hsome
    obtain ⟨q, hq⟩ := Option.ne_none_iff_exists'.mp hsome
    obtain ⟨ds, hserve, -⟩ :=
      hreceives.answer hlay hN hreplay hattempts hper hq
    refine ⟨s.supply (.sent (.ok ()) :: replyInputs ds), ?_⟩
    rw [step, hq]
    simp only
    rw [hserve]
  · intro hend hnone
    obtain ⟨hstop, hhanded⟩ :=
      hreceives.handed_of_end hattempts hend hnone
    have hfile : FileSource.delivered 4096 capture.bytes = capture.messages :=
      FileSource.delivered_eq_blocks hmax
    refine ⟨hstop, ?_, hfile⟩
    rw [hhanded, handedUpTo_messages, hfile]

/-- Two messages of one byte, and a byte that is cut off. -/
def sampleCapture : Capture where
  bytes := [0, 1, 65, 0, 1, 66, 0]
  size_lt := by decide

/-- Only the end-of-session datagram arrives; the messages are requested one by
one. -/
def sampleEvents : List Event :=
  [.build, .finish, .arrive 1 2048, .answer, .answer]

/-- Where these events lead. -/
def sampleSession : ReplaySession where
  replay := {
    index := [⟨1, 0⟩]
    seq := 3
    pos := 6
    built := [datagram 1 2 [0, 1, 65, 0, 1, 66], datagram 3 endOfSession []] }
  inputs := [.source (.ok (datagram 3 endOfSession [])), .sent (.ok ()),
    .clock false, .reply (.ok (datagram 1 1 [0, 1, 65])), .sent (.ok ()),
    .clock false, .reply (.ok (datagram 2 1 [0, 1, 66]))]

theorem sampleSession_reachable :
    (system sampleCapture.bytes ⟨1, 1⟩).Reachable sampleSession := by
  have hrun : (system sampleCapture.bytes ⟨1, 1⟩).run {} sampleEvents =
      some sampleSession := by decide +kernel
  exact TransitionSystem.Reachable.start.run hrun

theorem sampleSession_endRead : EndRead sampleSession.inputs :=
  ⟨_, List.mem_cons_self, ⟨_, _, readHeader_writeHeader rfl [], rfl⟩⟩

theorem sampleCapture_messages : sampleCapture.messages = [[65], [66]] := by
  have hblocks := @blocks_encode_append [[65], [66]] (by decide) [0]
  have htail : blocks [0] = [] := blocks_of_cutOff (Or.inl (by decide))
  rw [htail, List.append_nil] at hblocks
  exact hblocks

theorem replay_delivers_capture_sample :
    (system sampleCapture.bytes ⟨1, 1⟩).Reachable sampleSession ∧
    EndRead sampleSession.inputs ∧
    (received ⟨1, 1⟩ sampleSession.inputs).recovery.delivery.handed.map
      Handed.message = FileSource.delivered 4096 sampleCapture.bytes := by
  have hmax : ∀ m ∈ sampleCapture.messages, m.length ≤ 4096 := by
    rw [sampleCapture_messages]
    decide
  obtain ⟨-, -, hend⟩ := replay_delivers_capture sampleCapture hmax ⟨1, 1⟩
    (by decide) (by decide) sampleSession sampleSession_reachable
  obtain ⟨-, hsame, -⟩ := hend sampleSession_endRead (by decide +kernel)
  exact ⟨sampleSession_reachable, sampleSession_endRead, hsame⟩

end ReplaySession

end Fastbook

import Fastbook.Feed.MoldUdp64

/-!
# Recovery and the venue feed

A model of `MoldRetransmitRecoverer` (`feed/retransmit_recoverer.hpp`) and of
the run loop of `VenueFeed` (`feed/venue_feed.hpp`) over a MoldUDP64 framer.

Whatever the code asks of its environment is an input: the datagrams of the
multicast source, the outcome of sending a re-request, the readings of the
clock and the datagrams of the re-request socket.  A function that needs an
input that is not there waits, so every list of inputs gives a state the run
passes through.
-/

namespace Fastbook

inductive TransportStatus where
  | wouldBlock
  | eof
  | error
  deriving DecidableEq, Repr

inductive RecoveryError where
  | retriesExhausted
  | timeout
  | transportError
  | sessionChanged
  | sessionEnded
  | unsupported
  deriving DecidableEq, Repr

inductive Input where
  /-- `src_.next()` -/
  | source (r : Except TransportStatus (List UInt8))
  /-- `send_request` -/
  | sent (r : Except TransportStatus Unit)
  /-- Whether `now()` has reached the deadline. -/
  | clock (expired : Bool)
  /-- `transp_.next()` -/
  | reply (r : Except TransportStatus (List UInt8))

structure MoldRetransmitRecoverer where
  maxAttempts : UInt32
  maxPerRequest : UInt16
  deriving DecidableEq, Repr

/-- A framer under recovery and the requests sent so far. -/
structure Recovery where
  delivery : Delivery
  requests : List Mold.Header

/-- Where the two loops of `recover` stand: at the condition of the outer one,
or in the inner one, after a request for `count` messages from `first` on. -/
inductive RecoverPhase where
  | outer
  | inner (first : UInt64) (count : UInt16)

/-- What a call has come to: it has returned with a value, with the inputs that
are left, or it waits for an input. -/
inductive Progress (α : Type) where
  | returned (value : α) (inputs : List Input)
  | waiting

namespace MoldRetransmitRecoverer

/-- `std::min<uint64_t>(target - first, max_per_request_)`. -/
def requestCount (r : MoldRetransmitRecoverer) (target first : UInt64) :
    UInt16 :=
  (min (target - first) r.maxPerRequest.toUInt64).toUInt16

/-- The loops of `recover`. -/
def recoverLoop (r : MoldRetransmitRecoverer) (target : UInt64) :
    List Input → RecoverPhase → UInt32 → Recovery →
      Progress (Except RecoveryError Unit) × Recovery
  | inputs, .outer, attempts, s =>
    if s.delivery.expected < target then
      if attempts = r.maxAttempts then
        (.returned (.error .retriesExhausted) inputs, s)
      else
        let first := s.delivery.expected
        let count := r.requestCount target first
        let s' := { s with
          requests := s.requests ++
            [⟨s.delivery.framer.lastSession, first, count⟩] }
        match inputs with
        | .sent (.error _) :: inputs =>
          (.returned (.error .transportError) inputs, s')
        | .sent (.ok ()) :: inputs =>
          recoverLoop r target inputs (.inner first count) (attempts + 1) s'
        | _ => (.waiting, s')
    else (.returned (.ok ()) inputs, s)
  | .clock true :: inputs, .inner _ _, _, s =>
    (.returned (.error .timeout) inputs, s)
  | .clock false :: .reply (.error .wouldBlock) :: inputs, .inner _ _,
      attempts, s => recoverLoop r target inputs .outer attempts s
  | .clock false :: .reply (.error _) :: inputs, .inner _ _, _, s =>
    (.returned (.error .transportError) inputs, s)
  | .clock false :: .reply (.ok data) :: inputs, .inner first count,
      attempts, s =>
    let prevExp := s.delivery.expected
    let (res, delivery) := s.delivery.feed data
    let s' := { s with delivery }
    match res with
    | .error .gap => recoverLoop r target inputs .outer attempts s'
    | .error .malformed =>
      recoverLoop r target inputs (.inner first count) attempts s'
    | .error .sessionChanged =>
      (.returned (.error .sessionChanged) inputs, s')
    | .error .endOfSession => (.returned (.error .sessionEnded) inputs, s')
    | .ok () =>
      if delivery.expected ≥ target then (.returned (.ok ()) inputs, s')
      else
        let attempts' := if delivery.expected > prevExp then 0 else attempts
        if delivery.expected ≥ first + count.toUInt64 then
          recoverLoop r target inputs .outer attempts' s'
        else recoverLoop r target inputs (.inner first count) attempts' s'
  | _, .inner _ _, _, s => (.waiting, s)

def recover (r : MoldRetransmitRecoverer) (inputs : List Input)
    (s : Recovery) : Progress (Except RecoveryError Unit) × Recovery :=
  r.recoverLoop s.delivery.gapEnd inputs .outer 0 s

end MoldRetransmitRecoverer

structure VenueFeed where
  recovery : Recovery := { delivery := {}, requests := [] }
  stopRequested : Bool := false
  malformed : ℕ := 0

namespace VenueFeed

def stop (v : VenueFeed) : VenueFeed :=
  { v with stopRequested := true }

def feed (v : VenueFeed) (buf : List UInt8) :
    Except SequencedError Unit × VenueFeed :=
  let (res, delivery) := v.recovery.delivery.feed buf
  (res, { v with recovery := { v.recovery with delivery } })

def maxRecoveries : ℕ := 3

/-- The loop of `on_framer_error`, with `n` rounds to go. -/
def onFramerErrorLoop (r : MoldRetransmitRecoverer) (buf : List UInt8) :
    ℕ → SequencedError → List Input → VenueFeed → Progress Unit × VenueFeed
  | 0, _, inputs, v => (.returned () inputs, v.stop)
  | n + 1, .gap, inputs, v =>
    match r.recover inputs v.recovery with
    | (.waiting, recovery) => (.waiting, { v with recovery })
    | (.returned (.error _) inputs, recovery) =>
      (.returned () inputs, stop { v with recovery })
    | (.returned (.ok ()) inputs, recovery) =>
      match feed { v with recovery } buf with
      | (.ok (), v') => (.returned () inputs, v')
      | (.error e, v') => onFramerErrorLoop r buf n e inputs v'
  | _ + 1, .malformed, inputs, v =>
    (.returned () inputs, { v with malformed := v.malformed + 1 })
  | _ + 1, .sessionChanged, inputs, v => (.returned () inputs, v.stop)
  | _ + 1, .endOfSession, inputs, v => (.returned () inputs, v.stop)

def onFramerError (r : MoldRetransmitRecoverer) (buf : List UInt8)
    (e : SequencedError) (inputs : List Input) (v : VenueFeed) :
    Progress Unit × VenueFeed :=
  onFramerErrorLoop r buf maxRecoveries e inputs v

/-- The `while` loop of `run`, at most `n` iterations of it. -/
def run (r : MoldRetransmitRecoverer) :
    ℕ → List Input → VenueFeed → VenueFeed
  | 0, _, v => v
  | n + 1, inputs, v =>
    if v.stopRequested then v
    else
      match inputs with
      | .source (.error .wouldBlock) :: inputs => run r n inputs v
      | .source (.error _) :: inputs => run r n inputs v.stop
      | .source (.ok buf) :: inputs =>
        match v.feed buf with
        | (.ok (), v') => run r n inputs v'
        | (.error e, v') =>
          match onFramerError r buf e inputs v' with
          | (.waiting, v'') => v''
          | (.returned () inputs, v'') => run r n inputs v''
      | _ => v

end VenueFeed

/-! ## Invariants of the framer

The run loop and the recoverer reach the framer only through `feed`.  Whatever
each fed datagram preserves holds throughout the run, also after `recover` has
given up and after the datagram that exposed a gap is fed again.
-/

/-- The datagram an input supplies, if any, satisfies `D`. -/
def Input.Supplies (D : List UInt8 → Prop) : Input → Prop
  | .source (.ok data) => D data
  | .reply (.ok data) => D data
  | _ => True

/-- The inputs left by a call that has returned. -/
def Progress.left {α : Type} : Progress α → List Input
  | .returned _ inputs => inputs
  | .waiting => []

section Invariant

variable {P : Delivery → Prop} {D : List UInt8 → Prop}

theorem MoldRetransmitRecoverer.recoverLoop_invariant
    (hfeed : ∀ d data, P d → D data → P (d.feed data).2)
    {r : MoldRetransmitRecoverer} {target : UInt64} {inputs : List Input}
    {phase : RecoverPhase} {attempts : UInt32} {s : Recovery}
    (h : P s.delivery) (hin : ∀ i ∈ inputs, i.Supplies D) :
    P (r.recoverLoop target inputs phase attempts s).2.delivery ∧
      ∀ i ∈ (r.recoverLoop target inputs phase attempts s).1.left,
        i.Supplies D := by
  fun_induction recoverLoop r target inputs phase attempts s with
  | case1 | case5 => exact ⟨h, hin⟩
  | case2 | case6 => exact ⟨h, (List.forall_mem_cons.mp hin).2⟩
  | case3 _ _ _ _ _ _ _ _ ih =>
      exact ih h (List.forall_mem_cons.mp hin).2
  | case4 | case16 => exact ⟨h, by simp [Progress.left]⟩
  | case7 _ _ _ _ _ ih =>
      exact ih h (fun i hi => hin i (by simp [hi]))
  | case8 => exact ⟨h, fun i hi => hin i (by simp_all [Progress.left])⟩
  | case9 _ _ _ _ _ _ _ _ heq ih | case10 _ _ _ _ _ _ _ _ heq ih
  | case14 _ _ _ _ _ _ _ _ _ _ _ _ heq ih
  | case15 _ _ _ _ _ _ _ _ _ _ _ _ heq ih =>
      have hfed := hfeed _ _ h (hin _ (List.mem_cons_of_mem _ List.mem_cons_self))
      rw [heq] at hfed
      exact ih hfed (fun i hi => hin i (by simp [hi]))
  | case11 _ _ _ _ _ _ _ _ heq | case12 _ _ _ _ _ _ _ _ heq
  | case13 _ _ _ _ _ _ _ _ _ heq =>
      have hfed := hfeed _ _ h (hin _ (List.mem_cons_of_mem _ List.mem_cons_self))
      rw [heq] at hfed
      exact ⟨hfed, fun i hi => hin i (by simp_all [Progress.left])⟩

theorem MoldRetransmitRecoverer.recover_invariant
    (hfeed : ∀ d data, P d → D data → P (d.feed data).2)
    {r : MoldRetransmitRecoverer} {inputs : List Input} {s s' : Recovery}
    {p : Progress (Except RecoveryError Unit)}
    (heq : r.recover inputs s = (p, s')) (h : P s.delivery)
    (hin : ∀ i ∈ inputs, i.Supplies D) :
    P s'.delivery ∧ ∀ i ∈ p.left, i.Supplies D := by
  have hrec : P (r.recover inputs s).2.delivery ∧
      ∀ i ∈ (r.recover inputs s).1.left, i.Supplies D :=
    r.recoverLoop_invariant hfeed h hin
  rw [heq] at hrec
  exact hrec

namespace VenueFeed

theorem feed_invariant
    (hfeed : ∀ d data, P d → D data → P (d.feed data).2) {v v' : VenueFeed}
    {buf : List UInt8} {res : Except SequencedError Unit}
    (heq : v.feed buf = (res, v')) (h : P v.recovery.delivery)
    (hbuf : D buf) : P v'.recovery.delivery := by
  have hfed := hfeed _ _ h hbuf
  obtain ⟨-, rfl⟩ := Prod.mk.inj heq
  exact hfed

theorem onFramerErrorLoop_invariant
    (hfeed : ∀ d data, P d → D data → P (d.feed data).2)
    {r : MoldRetransmitRecoverer} {buf : List UInt8} (hbuf : D buf) {n : ℕ}
    {e : SequencedError} {inputs : List Input} {v : VenueFeed}
    (h : P v.recovery.delivery) (hin : ∀ i ∈ inputs, i.Supplies D) :
    P (onFramerErrorLoop r buf n e inputs v).2.recovery.delivery ∧
      ∀ i ∈ (onFramerErrorLoop r buf n e inputs v).1.left,
        i.Supplies D := by
  fun_induction onFramerErrorLoop r buf n e inputs v with
  | case1 | case6 | case7 | case8 => exact ⟨h, hin⟩
  | case2 _ _ _ _ heq | case3 _ _ _ _ _ _ heq =>
      exact r.recover_invariant hfeed heq h hin
  | case4 _ _ _ _ _ heq _ hfed =>
      obtain ⟨hrec, hleft⟩ := r.recover_invariant hfeed heq h hin
      exact ⟨feed_invariant hfeed hfed hrec hbuf, hleft⟩
  | case5 _ _ _ _ _ heq _ _ hfed ih =>
      obtain ⟨hrec, hleft⟩ := r.recover_invariant hfeed heq h hin
      exact ih (feed_invariant hfeed hfed hrec hbuf) hleft

theorem onFramerError_invariant
    (hfeed : ∀ d data, P d → D data → P (d.feed data).2)
    {r : MoldRetransmitRecoverer} {buf : List UInt8} {e : SequencedError}
    {inputs : List Input} {v v' : VenueFeed} {p : Progress Unit}
    (heq : onFramerError r buf e inputs v = (p, v')) (hbuf : D buf)
    (h : P v.recovery.delivery) (hin : ∀ i ∈ inputs, i.Supplies D) :
    P v'.recovery.delivery ∧ ∀ i ∈ p.left, i.Supplies D := by
  have herr : P (onFramerError r buf e inputs v).2.recovery.delivery ∧
      ∀ i ∈ (onFramerError r buf e inputs v).1.left, i.Supplies D :=
    onFramerErrorLoop_invariant hfeed hbuf h hin
  rw [heq] at herr
  exact herr

theorem run_invariant (hfeed : ∀ d data, P d → D data → P (d.feed data).2)
    {r : MoldRetransmitRecoverer} {n : ℕ} {inputs : List Input}
    {v : VenueFeed} (h : P v.recovery.delivery)
    (hin : ∀ i ∈ inputs, i.Supplies D) :
    P (run r n inputs v).recovery.delivery := by
  fun_induction run r n inputs v with
  | case1 | case2 | case8 => exact h
  | case3 _ _ _ _ ih | case4 _ _ _ _ _ _ ih =>
      exact ih h (List.forall_mem_cons.mp hin).2
  | case5 _ _ _ _ _ _ hfed ih =>
      obtain ⟨hbuf, hrest⟩ := List.forall_mem_cons.mp hin
      exact ih (feed_invariant hfeed hfed h hbuf) hrest
  | case6 _ _ _ _ _ _ _ hfed _ herr =>
      obtain ⟨hbuf, hrest⟩ := List.forall_mem_cons.mp hin
      have hfed' := feed_invariant hfeed hfed h hbuf
      exact (onFramerError_invariant hfeed herr hbuf hfed' hrest).1
  | case7 _ _ _ _ _ _ _ hfed _ _ herr ih =>
      obtain ⟨hbuf, hrest⟩ := List.forall_mem_cons.mp hin
      have hfed' := feed_invariant hfeed hfed h hbuf
      obtain ⟨herr', hleft⟩ :=
        onFramerError_invariant hfeed herr hbuf hfed' hrest
      exact ih herr' hleft

end VenueFeed

end Invariant

/-! ## Delivery under loss -/

namespace VenueFeed

/-- However the datagrams of a session are lost, repeated, reordered or cut
off, and whatever the re-requests bring back, the messages handed to the sink
are at every point the first ones of the session, each exactly once and in
order. -/
theorem run_handed_eq (session : List UInt8) (M : ℕ → List UInt8)
    (r : MoldRetransmitRecoverer) (n : ℕ) (inputs : List Input)
    (hin : ∀ i ∈ inputs, i.Supplies (Mold.OfSession session M)) :
    let d := (run r n inputs {}).recovery.delivery
    0 < d.expected.toNat ∧ d.handed = handedUpTo M (d.expected.toNat - 1) := by
  have hrun : (run r n inputs {}).recovery.delivery.InOrder session M :=
    run_invariant (fun _ _ => Delivery.feed_inOrder)
      Delivery.fresh_inOrder hin
  exact ⟨hrun.pos, hrun.handed_eq⟩

/-- A datagram with one message of one byte, its sequence number. -/
def sampleDatagram (seq : UInt8) : List UInt8 :=
  List.replicate 10 65 ++ [0, 0, 0, 0, 0, 0, 0, seq] ++ [0, 1] ++ [0, 1, seq]

theorem sampleDatagram_ofSession (seq : UInt8) :
    Mold.OfSession (List.replicate 10 65) (fun k => [UInt8.ofNat k])
      (sampleDatagram seq) := by
  intro hdr body hread
  obtain ⟨rfl, rfl⟩ := Prod.mk.inj (Option.some.inj hread)
  refine ⟨rfl, fun _ i hi b hb => ?_⟩
  change i < (UInt16.ofNat (beValue [0, 1])).toNat at hi
  obtain rfl : i = 0 := by simpa [beValue] using hi
  have hlen : readLength [0, 1, seq] = 1 := rfl
  change (Mold.blocks [0, 1, seq])[0]? = some b at hb
  rw [Mold.blocks_of_block (by simp) (by simp [hlen])] at hb
  obtain rfl := Option.some.inj hb
  change [seq] = [UInt8.ofNat
    ((UInt64.ofNat (beValue [0, 0, 0, 0, 0, 0, 0, seq])).toNat + 0)]
  simp [beValue]

/-- The second message arrives first, the first one is requested again, and
both then arrive once more. -/
def sampleInputs : List Input :=
  [.source (.ok (sampleDatagram 2)), .sent (.ok ()), .clock false,
    .reply (.ok (sampleDatagram 1)), .source (.ok (sampleDatagram 1)),
    .source (.ok (sampleDatagram 2))]

theorem run_handed_eq_sample :
    (∀ i ∈ sampleInputs, i.Supplies (Mold.OfSession (List.replicate 10 65)
      (fun k => [UInt8.ofNat k]))) ∧
    (run ⟨1, 1⟩ 4 sampleInputs {}).recovery.delivery.handed =
      [⟨[1], 2⟩, ⟨[2], 3⟩] := by
  have hin : ∀ i ∈ sampleInputs, i.Supplies (Mold.OfSession
      (List.replicate 10 65) (fun k => [UInt8.ofNat k])) := by
    simp only [sampleInputs, List.forall_mem_cons, Input.Supplies,
      sampleDatagram_ofSession, true_and]
    exact List.forall_mem_nil _
  refine ⟨hin, ?_⟩
  obtain ⟨-, hhanded⟩ := run_handed_eq _ _ ⟨1, 1⟩ 4 sampleInputs hin
  rw [hhanded]
  decide

end VenueFeed

end Fastbook

import Fastbook.Feed.RecoverRule

/-!
# Recovering a gap

What a call of `recover` owes the venue feed that met a gap: a success closes
the gap, the requests on the way are well formed and bounded in number, and a
failure is reported only while the gap is open.

The last of these holds as long as no reply hands messages over and then turns
out malformed: `recover` counts the progress of a reply only when `feed`
returns success.
-/

namespace Fastbook

namespace MoldRetransmitRecoverer

variable {r : MoldRetransmitRecoverer} {target : UInt64} {s s' : Recovery}
  {inputs left : List Input}

/-! ## A success closes the gap -/

theorem extends_invariant (r : MoldRetransmitRecoverer) (target : UInt64)
    (d : Delivery) :
    r.LoopInvariant target fun _ _ _ s => d.Extends s.delivery where
  requested _ _ _ h _ _ := h
  silent _ _ _ _ _ h := h
  gap _ _ _ _ _ _ _ h hfeed :=
    h.trans (Delivery.feed_extends hfeed (by simp))
  malformed _ _ _ _ _ _ _ h hfeed :=
    h.trans (Delivery.feed_extends hfeed (by simp))
  taken _ _ _ _ _ _ _ h hfeed _ :=
    h.trans (Delivery.feed_extends hfeed (by simp))

theorem recover_ok (h : r.recover inputs s = (.returned (.ok ()) left, s')) :
    s.delivery.Extends s'.delivery ∧
      s.delivery.gapEnd ≤ s'.delivery.expected := by
  have hleft := recover_left (extends_invariant r _ s.delivery)
    (Delivery.Extends.refl s.delivery) h
  cases hleft with
  | done _ _ _ hext hge => exact ⟨hext, hge⟩
  | filled _ _ _ _ _ _ _ hext hfeed hge =>
      exact ⟨hext.trans (Delivery.feed_extends hfeed (by simp)), hge⟩

end MoldRetransmitRecoverer

namespace Delivery

variable {d d' : Delivery} {buf : List UInt8}

/-- A framer that has just reported a gap. -/
theorem feed_gap (h : d.feed buf = (.error .gap, d')) :
    ∃ hdr body, Mold.readHeader buf = some (hdr, body) ∧
      d'.framer.hasSession = true ∧ d'.framer.lastSession = hdr.session ∧
      d'.gapEnd = hdr.seqNum ∧ d'.expected < hdr.seqNum := by
  have hfed := feed_fed d buf
  rw [h] at hfed
  cases hfed with
  | gap hdr body _ hread _ hhas hlast hexp hgt hend =>
      refine ⟨hdr, body, hread, hhas, hlast, hend, ?_⟩
      rw [hexp]
      exact hgt
  | taken _ _ _ _ _ _ hres => simp at hres

/-- A datagram of the session that is not ahead of the framer. -/
theorem feed_of_le {hdr : Mold.Header} {body : List UInt8}
    (hread : Mold.readHeader buf = some (hdr, body))
    (hlast : d.framer.lastSession = hdr.session)
    (hle : hdr.seqNum ≤ d.expected) :
    (d.feed buf).1 = .ok () ∨ (d.feed buf).1 = .error .malformed ∨
      (d.feed buf).1 = .error .endOfSession := by
  have hfed := feed_fed d buf
  generalize hres : (d.feed buf).1 = res at hfed
  generalize (d.feed buf).2 = d' at hfed
  cases hfed with
  | headerless hnone =>
      rw [hread] at hnone
      cases hnone
  | changed hdr' _ _ hread' hsession =>
      rw [hread] at hread'
      cases hread'
      exact absurd hlast hsession.2
  | gap hdr' _ _ hread' _ _ _ _ hgt =>
      rw [hread] at hread'
      cases hread'
      exact absurd hgt (UInt64.not_lt.mpr hle)
  | ended => exact Or.inr (Or.inr rfl)
  | taken _ _ _ _ _ _ hres =>
      rcases hres with hres | hres
      · exact Or.inl hres
      · exact Or.inr (Or.inl hres)

/-- After a successful recovery the datagram that exposed the gap can be fed
again. -/
theorem feed_after_recover {r : MoldRetransmitRecoverer}
    {inputs left : List Input} {s s' : Recovery}
    (hgap : d.feed buf = (.error .gap, s.delivery))
    (hrec : r.recover inputs s = (.returned (.ok ()) left, s')) :
    (∀ hdr body, Mold.readHeader buf = some (hdr, body) →
      hdr.seqNum ≤ s'.delivery.expected) ∧
    ((s'.delivery.feed buf).1 = .ok () ∨
      (s'.delivery.feed buf).1 = .error .malformed ∨
      (s'.delivery.feed buf).1 = .error .endOfSession) := by
  obtain ⟨hdr, body, hread, hhas, hlast, hend, -⟩ := feed_gap hgap
  obtain ⟨hext, hge⟩ := MoldRetransmitRecoverer.recover_ok hrec
  rw [hend] at hge
  obtain ⟨-, hsame⟩ := hext.session hhas
  refine ⟨?_, feed_of_le hread (hsame.trans hlast) hge⟩
  intro hdr' body' hread'
  rw [hread] at hread'
  cases hread'
  exact hge

end Delivery

/-! ## The loop of `on_framer_error` -/

/-- What the loop of `on_framer_error` did: how often it called `recover`, and
whether it ran out of rounds with the gap still open. -/
structure Rounds where
  recoveries : ℕ := 0
  stillOpen : Bool := false
  deriving DecidableEq, Repr

namespace VenueFeed

open MoldRetransmitRecoverer (recover)

/-- `onFramerErrorLoop` with a record of its rounds. -/
def onFramerErrorTrace (r : MoldRetransmitRecoverer) (buf : List UInt8) :
    ℕ → SequencedError → List Input → VenueFeed →
      (Progress Unit × VenueFeed) × Rounds
  | 0, _, inputs, v =>
    ((.returned () inputs, v.stop), { stillOpen := true })
  | n + 1, .gap, inputs, v =>
    match r.recover inputs v.recovery with
    | (.waiting, recovery) => ((.waiting, { v with recovery }),
        { recoveries := 1 })
    | (.returned (.error _) inputs, recovery) =>
      ((.returned () inputs, stop { v with recovery }), { recoveries := 1 })
    | (.returned (.ok ()) inputs, recovery) =>
      match feed { v with recovery } buf with
      | (.ok (), v') => ((.returned () inputs, v'), { recoveries := 1 })
      | (.error e, v') =>
        let (result, rounds) := onFramerErrorTrace r buf n e inputs v'
        (result, { rounds with recoveries := rounds.recoveries + 1 })
  | _ + 1, .malformed, inputs, v =>
    ((.returned () inputs, { v with malformed := v.malformed + 1 }), {})
  | _ + 1, .sessionChanged, inputs, v =>
    ((.returned () inputs, v.stop), {})
  | _ + 1, .endOfSession, inputs, v => ((.returned () inputs, v.stop), {})

theorem onFramerErrorTrace_fst (r : MoldRetransmitRecoverer)
    (buf : List UInt8) (n : ℕ) (e : SequencedError) (inputs : List Input)
    (v : VenueFeed) :
    (onFramerErrorTrace r buf n e inputs v).1 =
      onFramerErrorLoop r buf n e inputs v := by
  fun_induction onFramerErrorLoop r buf n e inputs v with
  | case1 | case6 | case7 | case8 => rfl
  | case2 _ _ _ _ hrec | case3 _ _ _ _ _ _ hrec =>
      simp only [onFramerErrorTrace, hrec]
  | case4 _ _ _ _ _ hrec _ hfed =>
      simp only [onFramerErrorTrace, hrec, hfed]
  | case5 _ _ _ _ _ hrec _ _ hfed ih =>
      simp only [onFramerErrorTrace, hrec, hfed, ih]

theorem delivery_feed_eq {v v' : VenueFeed} {buf : List UInt8}
    {res : Except SequencedError Unit} (h : v.feed buf = (res, v')) :
    v.recovery.delivery.feed buf = (res, v'.recovery.delivery) :=
  congrArg (fun p => (p.1, p.2.recovery.delivery)) h

/-- With the error `feed` has reported, `recover` is called once at most and
the rounds are never used up. -/
theorem onFramerErrorTrace_rounds {r : MoldRetransmitRecoverer}
    {buf : List UInt8} {e : SequencedError} {inputs : List Input}
    {v v' : VenueFeed} (hfeed : v.feed buf = (.error e, v')) :
    (onFramerErrorTrace r buf maxRecoveries e inputs v').2.recoveries ≤ 1 ∧
      (onFramerErrorTrace r buf maxRecoveries e inputs v').2.stillOpen =
        false := by
  cases e with
  | malformed => exact ⟨Nat.zero_le _, rfl⟩
  | sessionChanged => exact ⟨Nat.zero_le _, rfl⟩
  | endOfSession => exact ⟨Nat.zero_le _, rfl⟩
  | gap =>
      have hgap := delivery_feed_eq hfeed
      rw [maxRecoveries, onFramerErrorTrace]
      split
      · exact ⟨le_refl 1, rfl⟩
      · exact ⟨le_refl 1, rfl⟩
      · next rest recovery hrec =>
          obtain ⟨-, hagain⟩ := Delivery.feed_after_recover hgap hrec
          split
          · exact ⟨le_refl 1, rfl⟩
          · next e v'' hfed =>
              rw [delivery_feed_eq hfed] at hagain
              -- the datagram is no longer ahead of the framer
              rcases hagain with hok | hmal | hend
              · cases hok
              · cases hmal
                exact ⟨le_refl 1, rfl⟩
              · cases hend
                exact ⟨le_refl 1, rfl⟩

/-- A successful recovery closes the gap it was called for: the datagram that
exposed it is then no longer ahead of the framer and of the same session, so
that `on_framer_error` calls `recover` at most once for a datagram and never
gives up with the gap still open. -/
theorem recover_closes_gap (r : MoldRetransmitRecoverer) (buf : List UInt8)
    (v v' : VenueFeed) (inputs : List Input)
    (hgap : v.feed buf = (.error .gap, v')) :
    (∀ left s, r.recover inputs v'.recovery = (.returned (.ok ()) left, s) →
      (∀ hdr body, Mold.readHeader buf = some (hdr, body) →
        hdr.seqNum ≤ s.delivery.expected) ∧
      ((s.delivery.feed buf).1 = .ok () ∨
        (s.delivery.feed buf).1 = .error .malformed ∨
        (s.delivery.feed buf).1 = .error .endOfSession)) ∧
    (onFramerErrorTrace r buf maxRecoveries .gap inputs v').1 =
      onFramerError r buf .gap inputs v' ∧
    (onFramerErrorTrace r buf maxRecoveries .gap inputs v').2.recoveries ≤ 1 ∧
    (onFramerErrorTrace r buf maxRecoveries .gap inputs v').2.stillOpen =
      false := by
  refine ⟨?_, onFramerErrorTrace_fst _ _ _ _ _ _,
    onFramerErrorTrace_rounds hgap⟩
  intro left s hrec
  exact Delivery.feed_after_recover (delivery_feed_eq hgap) hrec

/-- The first message comes back when it is requested again. -/
def sampleReplies : List Input :=
  [.sent (.ok ()), .clock false, .reply (.ok (sampleDatagram 1))]

/-- The second message arrives first; once the first one has come back, the
second can be fed. -/
theorem recover_closes_gap_sample :
    (feed {} (sampleDatagram 2)).1 = .error .gap ∧
    ∃ left s, recover ⟨1, 1⟩ sampleReplies
        (feed {} (sampleDatagram 2)).2.recovery =
          (.returned (.ok ()) left, s) ∧
      ((s.delivery.feed (sampleDatagram 2)).1 = .ok () ∨
        (s.delivery.feed (sampleDatagram 2)).1 = .error .malformed ∨
        (s.delivery.feed (sampleDatagram 2)).1 = .error .endOfSession) := by
  have hgap : feed {} (sampleDatagram 2) =
      (.error .gap, (feed {} (sampleDatagram 2)).2) := by rfl
  obtain ⟨s, hrec⟩ : ∃ s, recover ⟨1, 1⟩ sampleReplies
      (feed {} (sampleDatagram 2)).2.recovery = (.returned (.ok ()) [], s) :=
    ⟨_, by rfl⟩
  obtain ⟨hclosed, -⟩ := recover_closes_gap ⟨1, 1⟩ (sampleDatagram 2) {} _
    sampleReplies hgap
  exact ⟨by rfl, [], s, hrec, (hclosed [] s hrec).2⟩

end VenueFeed

end Fastbook

import Fastbook.Feed.VenueFeed

/-!
# What recovery can do to a framer

`Extends d d'` is what feeding a datagram does to a framer unless the session
changes: some messages are handed over, each of which raises the expected
sequence number by one, and the session is kept.

`recoverLoop_rule` is the induction rule for the loops of `recover`: an
invariant of the loops, with the inputs still to come, holds where the call
returns or waits.
-/

namespace Fastbook

namespace Delivery

/-- Some messages have been handed over, the session is the same. -/
structure Extends (d d' : Delivery) : Prop where
  handed : ∃ new, d'.handed = d.handed ++ new ∧
    d'.expected.toNat = d.expected.toNat + new.length ∧
    ∀ h ∈ new, d.expected < h.expected ∧ h.expected ≤ d'.expected
  session : d.framer.hasSession = true → d'.framer.hasSession = true ∧
    d'.framer.lastSession = d.framer.lastSession

variable {d d₁ d₂ d₃ : Delivery} {data : List UInt8}

theorem Extends.refl (d : Delivery) : d.Extends d :=
  ⟨⟨[], by simp⟩, fun h => ⟨h, rfl⟩⟩

theorem Extends.le (h : d₁.Extends d₂) : d₁.expected ≤ d₂.expected := by
  obtain ⟨new, -, hexp, -⟩ := h.handed
  rw [UInt64.le_iff_toNat_le]
  omega

theorem Extends.trans (h₁ : d₁.Extends d₂) (h₂ : d₂.Extends d₃) :
    d₁.Extends d₃ := by
  obtain ⟨new₁, hhanded₁, hexp₁, hnew₁⟩ := h₁.handed
  obtain ⟨new₂, hhanded₂, hexp₂, hnew₂⟩ := h₂.handed
  refine ⟨⟨new₁ ++ new₂, ?_, ?_, ?_⟩, ?_⟩
  · rw [hhanded₂, hhanded₁, List.append_assoc]
  · rw [hexp₂, hexp₁, List.length_append]
    omega
  · intro h hmem
    rcases List.mem_append.mp hmem with hmem | hmem
    · obtain ⟨hlt, hle⟩ := hnew₁ h hmem
      exact ⟨hlt, UInt64.le_trans hle h₂.le⟩
    · obtain ⟨hlt, hle⟩ := hnew₂ h hmem
      exact ⟨UInt64.lt_of_le_of_lt h₁.le hlt, hle⟩
  · intro hsession
    obtain ⟨hhas, hlast⟩ := h₁.session hsession
    obtain ⟨hhas', hlast'⟩ := h₂.session hhas
    exact ⟨hhas', hlast'.trans hlast⟩

theorem Extends.hand (d : Delivery) (message : List UInt8)
    (hlt : d.expected.toNat + 1 < 2 ^ 64) : d.Extends (d.hand message) := by
  have hnext : (d.framer.expSeq + 1).toNat = d.framer.expSeq.toNat + 1 :=
    toNat_succ hlt
  refine ⟨⟨[⟨message, d.framer.expSeq + 1⟩], rfl, hnext, ?_⟩,
    fun h => ⟨h, rfl⟩⟩
  intro h hmem
  rw [List.mem_singleton] at hmem
  subst hmem
  refine ⟨?_, UInt64.le_refl _⟩
  change d.framer.expSeq < d.framer.expSeq + 1
  rw [UInt64.lt_iff_toNat_lt, hnext]
  omega

/-- The message loop only hands messages over, and reports nothing but
`Malformed`. -/
theorem feedLoop_extends {n : ℕ} {currentSeq : UInt64} {body : List UInt8}
    (hle : currentSeq.toNat ≤ d.expected.toNat)
    (hlt : currentSeq.toNat + n < 2 ^ 64) :
    d.Extends (feedLoop n currentSeq body d).2 ∧
      ((feedLoop n currentSeq body d).1 = .ok () ∨
        (feedLoop n currentSeq body d).1 = .error .malformed) := by
  induction n generalizing currentSeq body d with
  | zero => exact ⟨.refl d, Or.inl rfl⟩
  | succ n ih =>
      have hnext : (currentSeq + 1).toNat = currentSeq.toNat + 1 :=
        toNat_succ (by omega)
      rw [feedLoop]
      by_cases hshort : body.length < 2
      · rw [if_pos hshort]
        exact ⟨.refl d, Or.inr rfl⟩
      · rw [if_neg hshort]
        by_cases hcut : (body.drop 2).length < readLength body
        · rw [if_pos hcut]
          exact ⟨.refl d, Or.inr rfl⟩
        · rw [if_neg hcut]
          by_cases hold : currentSeq < d.framer.expSeq
          · rw [if_pos hold]
            have hold' : currentSeq.toNat < d.expected.toNat := hold
            exact ih (by omega) (by omega)
          · rw [if_neg hold]
            have hge : ¬currentSeq.toNat < d.expected.toNat := hold
            set message := (body.drop 2).take (readLength body)
            have hext := Extends.hand d message (by omega)
            have hexp : (d.hand message).expected.toNat =
                d.expected.toNat + 1 :=
              toNat_succ (n := d.expected) (by omega)
            obtain ⟨hloop, hres⟩ := @ih (d.hand message) (currentSeq + 1)
              ((body.drop 2).drop (readLength body)) (by omega) (by omega)
            exact ⟨hext.trans hloop, hres⟩

theorem openSession_extends (d : Delivery) (session : List UInt8) :
    d.Extends (d.openSession session) := by
  unfold openSession
  split
  · exact .refl d
  · next hnone => exact ⟨⟨[], by simp [expected]⟩, fun h => absurd h hnone⟩

/-- What a fed datagram can do. -/
inductive Fed (d : Delivery) (data : List UInt8) :
    Except SequencedError Unit → Delivery → Prop
  | headerless (hread : Mold.readHeader data = none) :
      Fed d data (.error .malformed) d
  | changed (hdr : Mold.Header) (body : List UInt8) (d' : Delivery)
      (hread : Mold.readHeader data = some (hdr, body))
      (hsession : d.framer.hasSession = true ∧
        d.framer.lastSession ≠ hdr.session)
      (hhanded : d'.handed = d.handed) :
      Fed d data (.error .sessionChanged) d'
  | gap (hdr : Mold.Header) (body : List UInt8) (d' : Delivery)
      (hread : Mold.readHeader data = some (hdr, body))
      (hext : d.Extends d') (hhas : d'.framer.hasSession = true)
      (hlast : d'.framer.lastSession = hdr.session)
      (hexp : d'.expected = d.expected) (hgt : hdr.seqNum > d.expected)
      (hend : d'.gapEnd = hdr.seqNum) : Fed d data (.error .gap) d'
  | ended (hdr : Mold.Header) (body : List UInt8) (d' : Delivery)
      (hread : Mold.readHeader data = some (hdr, body))
      (hext : d.Extends d') (hexp : d'.expected = d.expected) :
      Fed d data (.error .endOfSession) d'
  | taken (hdr : Mold.Header) (body : List UInt8)
      (res : Except SequencedError Unit) (d' : Delivery)
      (hread : Mold.readHeader data = some (hdr, body))
      (hext : d.Extends d') (hres : res = .ok () ∨ res = .error .malformed) :
      Fed d data res d'

theorem openSession_hasSession (d : Delivery) (session : List UInt8) :
    (d.openSession session).framer.hasSession = true := by
  unfold openSession
  split
  · assumption
  · rfl

theorem openSession_expected (d : Delivery) (session : List UInt8) :
    (d.openSession session).framer.expSeq = d.expected := by
  unfold openSession
  split <;> rfl

theorem openSession_handed (d : Delivery) (session : List UInt8) :
    (d.openSession session).handed = d.handed := by
  unfold openSession
  split <;> rfl

theorem openSession_lastSession_ne {session : List UInt8}
    (h : (d.openSession session).framer.lastSession ≠ session) :
    d.framer.hasSession = true ∧ d.framer.lastSession ≠ session := by
  unfold openSession at h
  split at h
  · next hhas => exact ⟨hhas, h⟩
  · exact absurd rfl h

theorem feed_fed (d : Delivery) (data : List UInt8) :
    Fed d data (d.feed data).1 (d.feed data).2 := by
  unfold feed
  cases hread : Mold.readHeader data with
  | none => exact .headerless hread
  | some hb =>
      obtain ⟨hdr, body⟩ := hb
      have hopen := openSession_extends d hdr.session
      have hexp := openSession_expected d hdr.session
      simp only
      by_cases hne : (d.openSession hdr.session).framer.lastSession ≠
          hdr.session
      · rw [if_pos hne]
        exact .changed hdr body _ hread (openSession_lastSession_ne hne)
          (openSession_handed d hdr.session)
      · rw [if_neg hne]
        have hlast := not_not.mp hne
        by_cases hgap : hdr.seqNum > (d.openSession hdr.session).framer.expSeq
        · rw [if_pos hgap]
          refine .gap hdr body _ hread ⟨hopen.handed, hopen.session⟩
            (openSession_hasSession d hdr.session) hlast hexp ?_ rfl
          rw [← hexp]
          exact hgap
        · rw [if_neg hgap]
          by_cases hend : hdr.msgCount = Mold.endOfSession
          · rw [if_pos hend]
            exact .ended hdr body _ hread hopen hexp
          · rw [if_neg hend]
            by_cases hold : hdr.seqNum + hdr.msgCount.toUInt64 ≤
                (d.openSession hdr.session).framer.expSeq
            · rw [if_pos hold]
              exact .taken hdr body _ _ hread hopen (Or.inl rfl)
            · rw [if_neg hold]
              obtain ⟨hloop, hres⟩ := @feedLoop_extends
                (d.openSession hdr.session) hdr.msgCount.toNat hdr.seqNum body
                (not_lt.mp hgap) (no_wrap hgap hend hold)
              exact .taken hdr body _ _ hread (hopen.trans hloop) hres

/-- Unless the session changes, feeding only hands messages over. -/
theorem feed_extends {res : Except SequencedError Unit} {d' : Delivery}
    (h : d.feed data = (res, d')) (hres : res ≠ .error .sessionChanged) :
    d.Extends d' := by
  have hfed := feed_fed d data
  rw [h] at hfed
  cases hfed with
  | headerless => exact .refl _
  | changed => exact absurd rfl hres
  | gap _ _ _ _ hext => exact hext
  | ended _ _ _ _ hext => exact hext
  | taken _ _ _ _ _ hext => exact hext

/-- A datagram ahead of the framer or past the session hands nothing over. -/
theorem feed_expected_eq {e : SequencedError} {d' : Delivery}
    (h : d.feed data = (.error e, d')) (he : e = .gap ∨ e = .endOfSession) :
    d'.expected = d.expected := by
  have hfed := feed_fed d data
  rw [h] at hfed
  cases hfed with
  | headerless => rfl
  | changed => simp at he
  | gap _ _ _ _ _ _ _ hexp => exact hexp
  | ended _ _ _ _ _ hexp => exact hexp
  | taken _ _ _ _ _ _ hres =>
      rcases he with rfl | rfl
      · simp at hres
      · simp at hres

/-- A datagram of another session hands nothing over. -/
theorem feed_handed_eq {d' : Delivery}
    (h : d.feed data = (.error .sessionChanged, d')) :
    d'.handed = d.handed := by
  have hfed := feed_fed d data
  rw [h] at hfed
  cases hfed with
  | changed _ _ _ _ _ hhanded => exact hhanded
  | taken _ _ _ _ _ _ hres => simp at hres

end Delivery

namespace MoldRetransmitRecoverer

/-- The attempts are counted only below `max_attempts`, so the counter does not
wrap. -/
theorem attempts_succ {r : MoldRetransmitRecoverer} {a : UInt32}
    (hle : a.toNat ≤ r.maxAttempts.toNat) (hne : a ≠ r.maxAttempts) :
    (a + 1).toNat = a.toNat + 1 ∧ a.toNat + 1 ≤ r.maxAttempts.toNat := by
  have hne' : a.toNat ≠ r.maxAttempts.toNat :=
    fun heq => hne (UInt32.toNat_inj.mp heq)
  have hmax := r.maxAttempts.toNat_lt
  refine ⟨?_, by omega⟩
  rw [UInt32.toNat_add]
  exact Nat.mod_eq_of_lt (by change a.toNat + 1 < 2 ^ 32; omega)

/-- The next request has been written. -/
def request (r : MoldRetransmitRecoverer) (target : UInt64) (s : Recovery) :
    Recovery :=
  { s with
    requests := s.requests ++ [⟨s.delivery.framer.lastSession,
      s.delivery.expected, r.requestCount target s.delivery.expected⟩] }

/-- A property of the inputs to come, the phase, the attempts and the state
that the loops of `recover` preserve. -/
structure LoopInvariant (r : MoldRetransmitRecoverer) (target : UInt64)
    (I : List Input → RecoverPhase → UInt32 → Recovery → Prop) : Prop where
  requested : ∀ inputs a s, I (.sent (.ok ()) :: inputs) .outer a s →
    s.delivery.expected < target → a ≠ r.maxAttempts →
    I inputs (.inner s.delivery.expected
      (r.requestCount target s.delivery.expected)) (a + 1) (r.request target s)
  silent : ∀ inputs first count a s,
    I (.clock false :: .reply (.error .wouldBlock) :: inputs)
      (.inner first count) a s → I inputs .outer a s
  gap : ∀ inputs data first count a s d,
    I (.clock false :: .reply (.ok data) :: inputs) (.inner first count) a s →
    s.delivery.feed data = (.error .gap, d) →
    I inputs .outer a { s with delivery := d }
  malformed : ∀ inputs data first count a s d,
    I (.clock false :: .reply (.ok data) :: inputs) (.inner first count) a s →
    s.delivery.feed data = (.error .malformed, d) →
    I inputs (.inner first count) a { s with delivery := d }
  taken : ∀ inputs data first count a s d,
    I (.clock false :: .reply (.ok data) :: inputs) (.inner first count) a s →
    s.delivery.feed data = (.ok (), d) → d.expected < target →
    I inputs
      (if d.expected ≥ first + count.toUInt64 then .outer
        else .inner first count)
      (if d.expected > s.delivery.expected then 0 else a)
      { s with delivery := d }

/-- Where `recover` returns or waits, for an invariant `I` of its loops. -/
inductive Left (r : MoldRetransmitRecoverer) (target : UInt64)
    (I : List Input → RecoverPhase → UInt32 → Recovery → Prop) :
    Progress (Except RecoveryError Unit) → Recovery → Prop
  | done (inputs : List Input) (a : UInt32) (s : Recovery)
      (h : I inputs .outer a s) (hge : target ≤ s.delivery.expected) :
      Left r target I (.returned (.ok ()) inputs) s
  | exhausted (inputs : List Input) (s : Recovery)
      (h : I inputs .outer r.maxAttempts s)
      (hlt : s.delivery.expected < target) :
      Left r target I (.returned (.error .retriesExhausted) inputs) s
  | unsent (inputs left : List Input) (a : UInt32) (s : Recovery)
      (h : I inputs .outer a s) (hlt : s.delivery.expected < target)
      (ha : a ≠ r.maxAttempts) :
      Left r target I (.returned (.error .transportError) left)
        (r.request target s)
  | sending (inputs : List Input) (a : UInt32) (s : Recovery)
      (h : I inputs .outer a s) (hlt : s.delivery.expected < target)
      (ha : a ≠ r.maxAttempts) : Left r target I .waiting (r.request target s)
  | broken (inputs left : List Input) (first : UInt64) (count : UInt16)
      (a : UInt32) (s : Recovery) (e : RecoveryError)
      (h : I inputs (.inner first count) a s)
      (he : e = .timeout ∨ e = .transportError) :
      Left r target I (.returned (.error e) left) s
  | receiving (inputs : List Input) (first : UInt64) (count : UInt16)
      (a : UInt32) (s : Recovery) (h : I inputs (.inner first count) a s) :
      Left r target I .waiting s
  | changed (inputs : List Input) (data : List UInt8) (first : UInt64)
      (count : UInt16) (a : UInt32) (s : Recovery) (d : Delivery)
      (h : I (.clock false :: .reply (.ok data) :: inputs)
        (.inner first count) a s)
      (hfeed : s.delivery.feed data = (.error .sessionChanged, d)) :
      Left r target I (.returned (.error .sessionChanged) inputs)
        { s with delivery := d }
  | ended (inputs : List Input) (data : List UInt8) (first : UInt64)
      (count : UInt16) (a : UInt32) (s : Recovery) (d : Delivery)
      (h : I (.clock false :: .reply (.ok data) :: inputs)
        (.inner first count) a s)
      (hfeed : s.delivery.feed data = (.error .endOfSession, d)) :
      Left r target I (.returned (.error .sessionEnded) inputs)
        { s with delivery := d }
  | filled (inputs : List Input) (data : List UInt8) (first : UInt64)
      (count : UInt16) (a : UInt32) (s : Recovery) (d : Delivery)
      (h : I (.clock false :: .reply (.ok data) :: inputs)
        (.inner first count) a s)
      (hfeed : s.delivery.feed data = (.ok (), d))
      (hge : target ≤ d.expected) :
      Left r target I (.returned (.ok ()) inputs) { s with delivery := d }

variable {r : MoldRetransmitRecoverer} {target : UInt64} {s : Recovery}

/-! ## One iteration -/

theorem recoverLoop_sent {inputs : List Input} {a : UInt32}
    (hlt : s.delivery.expected < target) (ha : a ≠ r.maxAttempts) :
    r.recoverLoop target (.sent (.ok ()) :: inputs) .outer a s =
      r.recoverLoop target inputs (.inner s.delivery.expected
        (r.requestCount target s.delivery.expected)) (a + 1)
        (r.request target s) := by
  conv_lhs => rw [recoverLoop, if_pos hlt, if_neg ha]
  rfl

theorem recoverLoop_silent {inputs : List Input} {first : UInt64}
    {count : UInt16} {a : UInt32} :
    r.recoverLoop target
        (.clock false :: .reply (.error .wouldBlock) :: inputs)
        (.inner first count) a s =
      r.recoverLoop target inputs .outer a s := by
  conv_lhs => rw [recoverLoop]

theorem recoverLoop_gap {inputs : List Input} {data : List UInt8}
    {first : UInt64} {count : UInt16} {a : UInt32} {d : Delivery}
    (hfeed : s.delivery.feed data = (.error .gap, d)) :
    r.recoverLoop target (.clock false :: .reply (.ok data) :: inputs)
        (.inner first count) a s =
      r.recoverLoop target inputs .outer a { s with delivery := d } := by
  conv_lhs => rw [recoverLoop]
  simp only [hfeed]

theorem recoverLoop_malformed {inputs : List Input} {data : List UInt8}
    {first : UInt64} {count : UInt16} {a : UInt32} {d : Delivery}
    (hfeed : s.delivery.feed data = (.error .malformed, d)) :
    r.recoverLoop target (.clock false :: .reply (.ok data) :: inputs)
        (.inner first count) a s =
      r.recoverLoop target inputs (.inner first count) a
        { s with delivery := d } := by
  conv_lhs => rw [recoverLoop]
  simp only [hfeed]

theorem recoverLoop_taken {inputs : List Input} {data : List UInt8}
    {first : UInt64} {count : UInt16} {a : UInt32} {d : Delivery}
    (hfeed : s.delivery.feed data = (.ok (), d)) (hlt : d.expected < target) :
    r.recoverLoop target (.clock false :: .reply (.ok data) :: inputs)
        (.inner first count) a s =
      r.recoverLoop target inputs
        (if d.expected ≥ first + count.toUInt64 then .outer
          else .inner first count)
        (if d.expected > s.delivery.expected then 0 else a)
        { s with delivery := d } := by
  conv_lhs => rw [recoverLoop]
  simp only [hfeed, ge_iff_le, UInt64.not_le.mpr hlt, if_false]
  split <;> rfl

/-! ## The rule -/

variable {I : List Input → RecoverPhase → UInt32 → Recovery → Prop}

/-- The induction rule for the loops of `recover`. -/
theorem recoverLoop_rule (hI : r.LoopInvariant target I)
    {inputs : List Input} {phase : RecoverPhase} {a : UInt32}
    (h : I inputs phase a s) :
    Left r target I (r.recoverLoop target inputs phase a s).1
      (r.recoverLoop target inputs phase a s).2 := by
  fun_induction recoverLoop r target inputs phase a s with
  | case1 inputs s hlt => exact .exhausted inputs s h hlt
  | case2 a s hlt ha => exact .unsent _ _ a s h hlt ha
  | case3 a s hlt ha first count s' inputs ih =>
      exact ih (hI.requested inputs a s h hlt ha)
  | case4 inputs a s hlt ha => exact .sending inputs a s h hlt ha
  | case5 inputs a s hge => exact .done inputs a s h (UInt64.not_lt.mp hge)
  | case6 => exact .broken _ _ _ _ _ _ _ h (Or.inl rfl)
  | case7 inputs first count a s ih =>
      exact ih (hI.silent inputs first count a s h)
  | case8 => exact .broken _ _ _ _ _ _ _ h (Or.inr rfl)
  | case9 data inputs first count a s d s' hfeed ih =>
      exact ih (hI.gap inputs data first count a s d h hfeed)
  | case10 data inputs first count a s d s' hfeed ih =>
      exact ih (hI.malformed inputs data first count a s d h hfeed)
  | case11 data inputs first count a s d s' hfeed =>
      exact .changed inputs data first count a s d h hfeed
  | case12 data inputs first count a s d s' hfeed =>
      exact .ended inputs data first count a s d h hfeed
  | case13 data inputs first count a s d s' hge hfeed =>
      exact .filled inputs data first count a s d h hfeed hge
  | case14 data inputs first count a s prev d s' hlt a' hbatch hfeed ih =>
      have htaken := hI.taken inputs data first count a s d h hfeed
        (UInt64.not_le.mp hlt)
      rw [if_pos hbatch] at htaken
      exact ih htaken
  | case15 data inputs first count a s prev d s' hlt a' hbatch hfeed ih =>
      have htaken := hI.taken inputs data first count a s d h hfeed
        (UInt64.not_le.mp hlt)
      rw [if_neg hbatch] at htaken
      exact ih htaken
  | case16 => exact .receiving _ _ _ _ _ h

theorem recover_left {inputs : List Input} {s' : Recovery}
    {p : Progress (Except RecoveryError Unit)}
    (hI : r.LoopInvariant s.delivery.gapEnd I) (h : I inputs .outer 0 s)
    (heq : r.recover inputs s = (p, s')) : Left r s.delivery.gapEnd I p s' := by
  have hleft : Left r s.delivery.gapEnd I (r.recover inputs s).1
      (r.recover inputs s).2 := recoverLoop_rule hI h
  rw [heq] at hleft
  exact hleft

end MoldRetransmitRecoverer

end Fastbook

import Fastbook.Feed.GapRecovery

/-!
# The progress of a recovery

`recover` gives up with `RetriesExhausted` after `max_attempts` requests in a
row with no progress.  It counts the progress of a reply only when `feed`
returns success.  A datagram that is cut off after a new message is handed over
up to the cut and then reported as malformed; its messages reset no counter,
and the end of the gap is not noticed.

Without such replies the documented meaning of the errors holds.
-/

namespace Fastbook

namespace MoldRetransmitRecoverer

variable {r : MoldRetransmitRecoverer} {target : UInt64} {s s' : Recovery}

/-- A failure as documented: `expected()` never reached the end of the gap, and
the retries are exhausted only when each of the last `max_attempts` requests
started at the sequence number that is still expected. -/
structure Accounted (r : MoldRetransmitRecoverer) (s : Recovery)
    (e : RecoveryError) (s' : Recovery) : Prop where
  gap_open : s.delivery.expected < s.delivery.gapEnd ∧
    ∃ new, s'.delivery.handed = s.delivery.handed ++ new ∧
      ∀ h ∈ new, h.expected < s.delivery.gapEnd
  exhausted : e = .retriesExhausted →
    ∃ reqs, s'.requests = s.requests ++ reqs ∧
      r.maxAttempts.toNat ≤ reqs.length ∧
      ∀ q ∈ reqs.drop (reqs.length - r.maxAttempts.toNat),
        q.seqNum = s'.delivery.expected

def AccountsProgress (r : MoldRetransmitRecoverer) (inputs : List Input)
    (s : Recovery) : Prop :=
  ∀ e left s', r.recover inputs s = (.returned (.error e) left, s') →
    r.Accounted s e s'

/-- No reply that the loops come to hands messages over and then turns out
malformed. -/
def Harmless (r : MoldRetransmitRecoverer) (target : UInt64)
    (inputs : List Input) (phase : RecoverPhase) (a : UInt32) (s : Recovery) :
    Prop :=
  ∀ before data after s₁, inputs = before ++ .reply (.ok data) :: after →
    r.recoverLoop target before phase a s = (.waiting, s₁) →
    (s₁.delivery.feed data).1 = .error .malformed →
      (s₁.delivery.feed data).2.expected = s₁.delivery.expected

def HarmlessReplies (r : MoldRetransmitRecoverer) (inputs : List Input)
    (s : Recovery) : Prop :=
  r.Harmless s.delivery.gapEnd inputs .outer 0 s

/-! ## Harmless replies -/

/-- A step of the loops that consumes `seen` keeps the replies to come
harmless. -/
theorem Harmless.step {inputs : List Input} {phase phase' : RecoverPhase}
    {a a' : UInt32} (seen : List Input)
    (h : r.Harmless target (seen ++ inputs) phase a s)
    (hstep : ∀ inputs, r.recoverLoop target (seen ++ inputs) phase a s =
      r.recoverLoop target inputs phase' a' s') :
    r.Harmless target inputs phase' a' s' := by
  intro before data after s₁ hinputs hwait
  apply h (seen ++ before) data after s₁
  · rw [hinputs, List.append_assoc]
  · rw [hstep]
    exact hwait

theorem harmless_invariant (r : MoldRetransmitRecoverer) (target : UInt64) :
    r.LoopInvariant target (r.Harmless target) where
  requested _ _ _ h hlt ha :=
    Harmless.step [.sent (.ok ())] h fun _ => recoverLoop_sent hlt ha
  silent _ _ _ _ _ h :=
    Harmless.step [.clock false, .reply (.error .wouldBlock)] h
      fun _ => recoverLoop_silent
  gap _ data _ _ _ _ _ h hfeed :=
    Harmless.step [.clock false, .reply (.ok data)] h
      fun _ => recoverLoop_gap hfeed
  malformed _ data _ _ _ _ _ h hfeed :=
    Harmless.step [.clock false, .reply (.ok data)] h
      fun _ => recoverLoop_malformed hfeed
  taken _ data _ _ _ _ _ h hfeed hlt :=
    Harmless.step [.clock false, .reply (.ok data)] h
      fun _ => recoverLoop_taken hfeed hlt

/-- A malformed reply that the loops come to hands nothing over. -/
theorem Harmless.expected_eq {inputs : List Input} {data : List UInt8}
    {first : UInt64} {count : UInt16} {a : UInt32} {d : Delivery}
    (h : r.Harmless target (.clock false :: .reply (.ok data) :: inputs)
      (.inner first count) a s)
    (hfeed : s.delivery.feed data = (.error .malformed, d)) :
    d.expected = s.delivery.expected := by
  have hsame := h [.clock false] data inputs s rfl (by simp [recoverLoop])
  rw [hfeed] at hsame
  exact hsame rfl

/-! ## The attempts -/

/-- The last `a` requests since the state `s` started at the sequence number
that is still expected in `s'`. -/
structure Attempted (a : UInt32) (s s' : Recovery) : Prop where
  grown : s.delivery.Extends s'.delivery
  requests : ∃ reqs, s'.requests = s.requests ++ reqs ∧
    a.toNat ≤ reqs.length ∧
    ∀ q ∈ reqs.drop (reqs.length - a.toNat), q.seqNum = s'.delivery.expected

theorem Attempted.request {a : UInt32} (h : Attempted a s s')
    (hsucc : (a + 1).toNat = a.toNat + 1) :
    Attempted (a + 1) s (r.request target s') := by
  obtain ⟨reqs, heq, hle, hsame⟩ := h.requests
  refine ⟨h.grown, reqs ++ [⟨s'.delivery.framer.lastSession,
    s'.delivery.expected, r.requestCount target s'.delivery.expected⟩],
    ?_, ?_, ?_⟩
  · rw [← List.append_assoc, ← heq]
    rfl
  · rw [List.length_append, List.length_singleton]
    omega
  · intro q hq
    rw [List.length_append, List.length_singleton, hsucc,
      Nat.add_sub_add_right, List.drop_append_of_le_length (by omega),
      List.mem_append, List.mem_singleton] at hq
    rcases hq with hq | rfl
    · exact hsame q hq
    · rfl

/-- A reply that leaves `expected()` where it is. -/
theorem Attempted.keep {a : UInt32} {d : Delivery} (h : Attempted a s s')
    (hext : s'.delivery.Extends d) (hexp : d.expected = s'.delivery.expected) :
    Attempted a s { s' with delivery := d } := by
  obtain ⟨reqs, heq, hle, hsame⟩ := h.requests
  refine ⟨h.grown.trans hext, reqs, heq, hle, ?_⟩
  intro q hq
  rw [hsame q hq]
  exact hexp.symm

/-- With the counter at zero nothing is said about the requests. -/
theorem Attempted.reset {a : UInt32} {d : Delivery} (h : Attempted a s s')
    (hext : s'.delivery.Extends d) :
    Attempted 0 s { s' with delivery := d } := by
  obtain ⟨reqs, heq, -⟩ := h.requests
  refine ⟨h.grown.trans hext, reqs, heq, Nat.zero_le _, ?_⟩
  intro q hq
  have hzero : (0 : UInt32).toNat = 0 := rfl
  rw [hzero, Nat.sub_zero, List.drop_length] at hq
  cases hq

/-- The loop invariant for harmless replies: inside the inner loop the gap is
open. -/
structure Counted (r : MoldRetransmitRecoverer) (target : UInt64)
    (s : Recovery) (inputs : List Input) (phase : RecoverPhase) (a : UInt32)
    (s' : Recovery) : Prop where
  harmless : r.Harmless target inputs phase a s'
  attempted : Attempted a s s'
  bounded : a ≤ r.maxAttempts
  gap_open : phase ≠ .outer → s'.delivery.expected < target

theorem counted_invariant (r : MoldRetransmitRecoverer) (target : UInt64)
    (s : Recovery) : r.LoopInvariant target (r.Counted target s) where
  requested inputs a s' h hlt ha := by
    obtain ⟨hsucc, hle⟩ :=
      attempts_succ (UInt32.le_iff_toNat_le.mp h.bounded) ha
    refine ⟨(harmless_invariant r target).requested inputs a s' h.harmless hlt
      ha, h.attempted.request hsucc, ?_, fun _ => hlt⟩
    rw [UInt32.le_iff_toNat_le, hsucc]
    exact hle
  silent inputs first count a s' h :=
    ⟨(harmless_invariant r target).silent inputs first count a s' h.harmless,
      h.attempted, h.bounded, fun hne => absurd rfl hne⟩
  gap inputs data first count a s' d h hfeed := by
    have hext := Delivery.feed_extends hfeed (by simp)
    have hexp := Delivery.feed_expected_eq hfeed (Or.inl rfl)
    exact ⟨(harmless_invariant r target).gap inputs data first count a s' d
      h.harmless hfeed, h.attempted.keep hext hexp, h.bounded,
      fun hne => absurd rfl hne⟩
  malformed inputs data first count a s' d h hfeed := by
    have hext := Delivery.feed_extends hfeed (by simp)
    have hexp := h.harmless.expected_eq hfeed
    refine ⟨(harmless_invariant r target).malformed inputs data first count a
      s' d h.harmless hfeed, h.attempted.keep hext hexp, h.bounded, ?_⟩
    intro _
    change d.expected < target
    rw [hexp]
    exact h.gap_open (by simp)
  taken inputs data first count a s' d h hfeed hlt := by
    have hext := Delivery.feed_extends hfeed (by simp)
    have hharm := (harmless_invariant r target).taken inputs data first count a
      s' d h.harmless hfeed hlt
    by_cases hmore : d.expected > s'.delivery.expected
    · rw [if_pos hmore] at hharm ⊢
      exact ⟨hharm, h.attempted.reset hext, UInt32.zero_le, fun _ => hlt⟩
    · rw [if_neg hmore] at hharm ⊢
      have hexp : d.expected = s'.delivery.expected :=
        UInt64.le_antisymm (UInt64.not_lt.mp hmore) hext.le
      exact ⟨hharm, h.attempted.keep hext hexp, h.bounded, fun _ => hlt⟩

/-- While `expected()` is below the end of the gap it has never reached it. -/
theorem gap_open_of_lt {d d' : Delivery} (hext : d.Extends d')
    (hlt : d'.expected < target) :
    d.expected < target ∧ ∃ new, d'.handed = d.handed ++ new ∧
      ∀ h ∈ new, h.expected < target := by
  obtain ⟨new, hhanded, -, hnew⟩ := hext.handed
  refine ⟨UInt64.lt_of_le_of_lt hext.le hlt, new, hhanded, ?_⟩
  intro h hmem
  exact UInt64.lt_of_le_of_lt (hnew h hmem).2 hlt

/-- Without replies that hand messages over and then turn out malformed,
`recover` fails only while the gap is open, and exhausts its retries only after
`max_attempts` requests in a row with no progress. -/
theorem recover_accounts_progress (r : MoldRetransmitRecoverer)
    (inputs : List Input) (s : Recovery) (h : r.HarmlessReplies inputs s) :
    r.AccountsProgress inputs s := by
  intro e left s' hrec
  have hstart : r.Counted s.delivery.gapEnd s inputs .outer 0 s :=
    ⟨h, ⟨.refl _, [], by simp⟩, UInt32.zero_le, fun hne => absurd rfl hne⟩
  have hleft := recover_left (counted_invariant r _ s) hstart hrec
  cases hleft with
  | exhausted _ _ hc hlt =>
      exact ⟨gap_open_of_lt hc.attempted.grown hlt, fun _ =>
        hc.attempted.requests⟩
  | unsent _ _ _ s₁ hc hlt _ =>
      exact ⟨gap_open_of_lt hc.attempted.grown hlt, fun he => by cases he⟩
  | broken _ _ _ _ _ _ _ hc he =>
      refine ⟨gap_open_of_lt hc.attempted.grown (hc.gap_open (by simp)), ?_⟩
      rintro rfl
      simp at he
  | changed _ _ _ _ _ s₁ d hc hfeed =>
      obtain ⟨hlt, new, hhanded, hnew⟩ :=
        gap_open_of_lt hc.attempted.grown (hc.gap_open (by simp))
      refine ⟨⟨hlt, new, ?_, hnew⟩, fun he => by cases he⟩
      exact (Delivery.feed_handed_eq hfeed).trans hhanded
  | ended _ _ _ _ _ s₁ d hc hfeed =>
      have hext := Delivery.feed_extends hfeed (by simp)
      have hexp := Delivery.feed_expected_eq hfeed (Or.inr rfl)
      refine ⟨gap_open_of_lt (hc.attempted.grown.trans hext) ?_,
        fun he => by cases he⟩
      rw [hexp]
      exact hc.gap_open (by simp)

end MoldRetransmitRecoverer

namespace VenueFeed

open MoldRetransmitRecoverer (recover)

/-- A framer that expects message 1 and has met message 3. -/
def gapOfTwo : Recovery :=
  (feed {} (sampleDatagram 3)).2.recovery

/-- A datagram from message 1 on that announces `count` messages and holds the
messages of `body`. -/
def announced (count : UInt8) (body : List UInt8) : List UInt8 :=
  List.replicate 10 65 ++ [0, 0, 0, 0, 0, 0, 0, 1] ++ [0, count] ++ body

/-- Nothing comes back. -/
def silentReplies : List Input :=
  [.sent (.ok ()), .clock false, .reply (.error .wouldBlock)]

theorem recover_accounts_progress_silent :
    MoldRetransmitRecoverer.HarmlessReplies ⟨1, 2⟩ silentReplies gapOfTwo ∧
    (recover ⟨1, 2⟩ silentReplies gapOfTwo).1 =
      .returned (.error .retriesExhausted) [] ∧
    MoldRetransmitRecoverer.AccountsProgress ⟨1, 2⟩ silentReplies
      gapOfTwo := by
  have hharm : MoldRetransmitRecoverer.HarmlessReplies ⟨1, 2⟩ silentReplies
      gapOfTwo := by
    intro before data after s₁ hinputs
    have hmem : Input.reply (.ok data) ∈ silentReplies := by
      rw [hinputs]
      simp
    simp [silentReplies] at hmem
  exact ⟨hharm, by rfl,
    MoldRetransmitRecoverer.recover_accounts_progress _ _ _ hharm⟩

/-- A reply with the first of two messages, and then silence. -/
def cutReplies : List Input :=
  [.sent (.ok ()), .clock false, .reply (.ok (announced 2 [0, 1, 1])),
    .clock false, .reply (.error .wouldBlock)]

/-- A reply with the first two of three messages, and then the deadline. -/
def filledReplies : List Input :=
  [.sent (.ok ()), .clock false,
    .reply (.ok (announced 3 [0, 1, 1, 0, 1, 2])), .clock true]

/-- The only request is followed by a new message, yet the retries are
exhausted; and a gap that has been filled is reported as a timeout. -/
theorem recover_miscounts_progress :
    ¬MoldRetransmitRecoverer.AccountsProgress ⟨1, 2⟩ cutReplies gapOfTwo ∧
    ¬MoldRetransmitRecoverer.AccountsProgress ⟨1, 2⟩ filledReplies
      gapOfTwo := by
  constructor
  · intro h
    obtain ⟨s', hrec, hreqs, hexp⟩ : ∃ s', recover ⟨1, 2⟩ cutReplies gapOfTwo =
        (.returned (.error .retriesExhausted) [], s') ∧
        s'.requests.map Mold.Header.seqNum = [1] ∧ s'.delivery.expected = 2 :=
      ⟨_, rfl, rfl, rfl⟩
    obtain ⟨reqs, hsame, -, hall⟩ := (h _ _ _ hrec).exhausted rfl
    have hnone : gapOfTwo.requests = [] := by rfl
    rw [hnone, List.nil_append] at hsame
    rw [hsame] at hreqs
    obtain ⟨q, rest, rfl, hq, hrest⟩ := List.map_eq_cons_iff.mp hreqs
    obtain rfl := List.map_eq_nil_iff.mp hrest
    have htwo := hall q (by simp)
    rw [hq, hexp] at htwo
    cases htwo
  · intro h
    obtain ⟨s', hrec, hhanded⟩ : ∃ s', recover ⟨1, 2⟩ filledReplies gapOfTwo =
        (.returned (.error .timeout) [], s') ∧
        s'.delivery.handed = [⟨[1], 2⟩, ⟨[2], 3⟩] :=
      ⟨_, rfl, rfl⟩
    obtain ⟨-, new, hnew, hall⟩ := (h _ _ _ hrec).gap_open
    have hnone : gapOfTwo.delivery.handed = [] := by rfl
    rw [hnone, List.nil_append, hhanded] at hnew
    have hthree := hall ⟨[2], 3⟩ (by simp [← hnew])
    exact absurd hthree (by decide)

end VenueFeed

end Fastbook

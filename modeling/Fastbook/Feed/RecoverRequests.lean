import Fastbook.Feed.GapRecovery

/-!
# The requests of a recovery

Every request of `recover` asks for messages of the framer's session from the
expected one on, and for none past the end of the gap.  A call sends at most
`max_attempts` requests for each missing message: the attempts start anew only
when a message has come in.
-/

namespace Fastbook

namespace MoldRetransmitRecoverer

variable {r : MoldRetransmitRecoverer} {target : UInt64} {s s' : Recovery}

/-- A request that is sent while the framer stands at `d`, in a call that began
at `s`. -/
structure WellFormed (r : MoldRetransmitRecoverer) (s : Recovery)
    (d : Delivery) (q : Mold.Header) : Prop where
  session : q.session = d.framer.lastSession
  first : q.seqNum = d.expected
  count_pos : 1 ≤ q.msgCount.toNat
  count_le : q.msgCount ≤ r.maxPerRequest
  within : q.seqNum.toNat + q.msgCount.toNat ≤ s.delivery.gapEnd.toNat
  same_session : s.delivery.framer.hasSession = true →
    q.session = s.delivery.framer.lastSession
  not_again : ∃ new, d.handed = s.delivery.handed ++ new ∧
    ∀ h ∈ new, h.expected ≤ q.seqNum

/-- Between two states of a call at most one request is sent, and it is well
formed where it is sent. -/
def Sends (r : MoldRetransmitRecoverer) (s s₁ s₂ : Recovery) : Prop :=
  s₂.requests = s₁.requests ∨
    ∃ q, s₂.requests = s₁.requests ++ [q] ∧ r.WellFormed s s₂.delivery q

/-! ## One request -/

/-- The count is not cut off by the narrowing to 16 bits. -/
theorem toNat_requestCount {first : UInt64} (hlt : first < target) :
    (r.requestCount target first).toNat =
      min (target.toNat - first.toNat) r.maxPerRequest.toNat := by
  have hsub : (target - first).toNat = target.toNat - first.toNat :=
    UInt64.toNat_sub_of_le _ _ (UInt64.le_of_lt hlt)
  have hper := r.maxPerRequest.toNat_lt
  rw [requestCount, UInt64.toNat_toUInt16, toNat_min, hsub,
    UInt16.toNat_toUInt64]
  exact Nat.mod_eq_of_lt (by omega)

/-- The request that the framer at `d` gives rise to. -/
theorem wellFormed_request {d : Delivery} (hper : 1 ≤ r.maxPerRequest.toNat)
    (hext : s.delivery.Extends d) (hlt : d.expected < s.delivery.gapEnd) :
    r.WellFormed s d ⟨d.framer.lastSession, d.expected,
      r.requestCount s.delivery.gapEnd d.expected⟩ := by
  have hcount := toNat_requestCount (r := r) hlt
  have hlt' := UInt64.lt_iff_toNat_lt.mp hlt
  refine ⟨rfl, rfl, ?_, ?_, ?_, ?_, ?_⟩
  · simp only [hcount]
    omega
  · simp only [UInt16.le_iff_toNat_le, hcount]
    omega
  · simp only [hcount]
    omega
  · intro hhas
    exact (hext.session hhas).2
  · obtain ⟨new, hhanded, -, hnew⟩ := hext.handed
    exact ⟨new, hhanded, fun h hmem => (hnew h hmem).2⟩

/-! ## One more input -/

/-- At the condition of the outer loop the call ends, or writes one request and
waits for it to be sent. -/
theorem recoverLoop_outer_nil (r : MoldRetransmitRecoverer) (target : UInt64)
    (a : UInt32) (s : Recovery) :
    (r.recoverLoop target [] .outer a s).2 = s ∨
      (s.delivery.expected < target ∧
        r.recoverLoop target [] .outer a s =
          (.waiting, r.request target s)) := by
  rw [recoverLoop]
  by_cases hlt : s.delivery.expected < target
  · rw [if_pos hlt]
    by_cases ha : a = r.maxAttempts
    · rw [if_pos ha]
      exact Or.inl rfl
    · rw [if_neg ha]
      exact Or.inr ⟨hlt, rfl⟩
  · rw [if_neg hlt]
    exact Or.inl rfl

/-- The state `s₁` after some inputs and the outcome with one input more: if a
request has been written, the call waits for it to be sent. -/
def OneMore (r : MoldRetransmitRecoverer) (target : UInt64) (s₁ : Recovery)
    (x : Progress (Except RecoveryError Unit) × Recovery) : Prop :=
  x.2.requests = s₁.requests ∨
    (x.1 = .waiting ∧ x.2.delivery.expected < target ∧
      x.2.requests = s₁.requests ++ [⟨x.2.delivery.framer.lastSession,
        x.2.delivery.expected,
        r.requestCount target x.2.delivery.expected⟩])

theorem oneMore_outer {a : UInt32} (hreq : s'.requests = s.requests) :
    r.OneMore target s (r.recoverLoop target [] .outer a s') := by
  rcases recoverLoop_outer_nil r target a s' with hsame | ⟨hlt, hwait⟩
  · left
    rw [hsame, hreq]
  · right
    rw [hwait]
    refine ⟨rfl, hlt, ?_⟩
    rw [← hreq]
    rfl

theorem oneMore_inner {first : UInt64} {count : UInt16} {a : UInt32}
    (hreq : s'.requests = s.requests) :
    r.OneMore target s (r.recoverLoop target [] (.inner first count) a s') := by
  left
  rw [recoverLoop]
  · exact hreq
  all_goals simp

/-- A reply after the clock has been read. -/
theorem oneMore_reply {first : UInt64} {count : UInt16} {a : UInt32}
    (reply : Except TransportStatus (List UInt8)) :
    r.OneMore target s (r.recoverLoop target [.clock false, .reply reply]
      (.inner first count) a s) := by
  cases reply with
  | error e =>
      cases e with
      | wouldBlock =>
          rw [recoverLoop_silent]
          exact oneMore_outer rfl
      | eof => exact Or.inl (by simp [recoverLoop])
      | error => exact Or.inl (by simp [recoverLoop])
  | ok data =>
      cases hfeed : s.delivery.feed data with
      | mk res d =>
          cases res with
          | error e =>
              cases e with
              | malformed =>
                  rw [recoverLoop_malformed hfeed]
                  exact oneMore_inner rfl
              | gap =>
                  rw [recoverLoop_gap hfeed]
                  exact oneMore_outer rfl
              | endOfSession => exact Or.inl (by simp [recoverLoop, hfeed])
              | sessionChanged => exact Or.inl (by simp [recoverLoop, hfeed])
          | ok u =>
              by_cases hlt : d.expected < target
              · rw [recoverLoop_taken hfeed hlt]
                split
                · exact oneMore_outer rfl
                · exact oneMore_inner rfl
              · have hge : target ≤ d.expected := UInt64.not_lt.mp hlt
                exact Or.inl (by simp [recoverLoop, hfeed, hge])

/-- A call that waits for its request to be sent. -/
theorem oneMore_sending {inputs : List Input} {a : UInt32} (i : Input)
    (hlt : s.delivery.expected < target) (ha : a ≠ r.maxAttempts)
    (hno : ∀ res rest, inputs ≠ .sent res :: rest) :
    r.OneMore target (r.request target s)
      (r.recoverLoop target (inputs ++ [i]) .outer a s) := by
  cases inputs with
  | nil =>
      rw [List.nil_append]
      cases i with
      | sent res =>
          cases res with
          | error e => exact Or.inl (by simp [recoverLoop, hlt, ha, request])
          | ok u =>
              rw [recoverLoop_sent hlt ha]
              exact oneMore_inner rfl
      | source res => exact Or.inl (by simp [recoverLoop, hlt, ha, request])
      | clock expired => exact Or.inl (by simp [recoverLoop, hlt, ha, request])
      | reply res => exact Or.inl (by simp [recoverLoop, hlt, ha, request])
  | cons j rest =>
      rw [List.cons_append]
      cases j with
      | sent res => exact absurd rfl (hno res rest)
      | source res => exact Or.inl (by simp [recoverLoop, hlt, ha, request])
      | clock expired => exact Or.inl (by simp [recoverLoop, hlt, ha, request])
      | reply res => exact Or.inl (by simp [recoverLoop, hlt, ha, request])

/-- A call that waits for the clock or for a reply. -/
theorem oneMore_receiving {inputs : List Input} {first : UInt64}
    {count : UInt16} {a : UInt32} (i : Input)
    (hclock : ∀ rest, inputs ≠ .clock true :: rest)
    (hreply : ∀ reply rest, inputs ≠ .clock false :: .reply reply :: rest) :
    r.OneMore target s
      (r.recoverLoop target (inputs ++ [i]) (.inner first count) a s) := by
  rcases inputs with _ | ⟨j, _ | ⟨k, rest⟩⟩
  · rw [List.nil_append]
    cases i with
    | clock expired => exact Or.inl (by cases expired <;> simp [recoverLoop])
    | sent res => exact Or.inl (by simp [recoverLoop])
    | source res => exact Or.inl (by simp [recoverLoop])
    | reply res => exact Or.inl (by simp [recoverLoop])
  · rw [List.cons_append, List.nil_append]
    cases j with
    | clock expired =>
        cases expired with
        | true => exact absurd rfl (hclock [])
        | false =>
            cases i with
            | reply res => exact oneMore_reply res
            | clock expired => exact Or.inl (by simp [recoverLoop])
            | sent res => exact Or.inl (by simp [recoverLoop])
            | source res => exact Or.inl (by simp [recoverLoop])
    | sent res => exact Or.inl (by simp [recoverLoop])
    | source res => exact Or.inl (by simp [recoverLoop])
    | reply res => exact Or.inl (by simp [recoverLoop])
  · rw [List.cons_append, List.cons_append]
    cases j with
    | clock expired =>
        cases expired with
        | true => exact absurd rfl (hclock _)
        | false =>
            cases k with
            | reply res => exact absurd rfl (hreply res rest)
            | clock expired => exact Or.inl (by simp [recoverLoop])
            | sent res => exact Or.inl (by simp [recoverLoop])
            | source res => exact Or.inl (by simp [recoverLoop])
    | sent res => exact Or.inl (by simp [recoverLoop])
    | source res => exact Or.inl (by simp [recoverLoop])
    | reply res => exact Or.inl (by simp [recoverLoop])

theorem recoverLoop_oneMore (r : MoldRetransmitRecoverer) (target : UInt64)
    (inputs : List Input) (phase : RecoverPhase) (a : UInt32) (s : Recovery)
    (i : Input) :
    r.OneMore target (r.recoverLoop target inputs phase a s).2
      (r.recoverLoop target (inputs ++ [i]) phase a s) := by
  fun_induction recoverLoop r target inputs phase a s with
  | case1 inputs s hlt =>
      left
      simp [recoverLoop, hlt]
  | case2 a s hlt ha first count s' =>
      left
      simp [recoverLoop, hlt, ha, s', first, count]
  | case3 a s hlt ha first count s' inputs ih =>
      rw [List.cons_append, recoverLoop_sent hlt ha]
      exact ih
  | case4 inputs a s hlt ha first count s' herror hok =>
      apply oneMore_sending i hlt ha
      rintro (e | u) rest rfl
      · exact herror e rest rfl
      · exact hok rest rfl
  | case5 inputs a s hge =>
      left
      simp [recoverLoop, hge]
  | case6 =>
      left
      simp [recoverLoop]
  | case7 inputs first count a s ih =>
      rw [List.cons_append, List.cons_append, recoverLoop_silent]
      exact ih
  | case8 e inputs first count a s he =>
      left
      cases e with
      | wouldBlock => exact absurd rfl he
      | eof => simp [recoverLoop]
      | error => simp [recoverLoop]
  | case9 data inputs first count a s d s' hfeed ih =>
      rw [List.cons_append, List.cons_append, recoverLoop_gap hfeed]
      exact ih
  | case10 data inputs first count a s d s' hfeed ih =>
      rw [List.cons_append, List.cons_append, recoverLoop_malformed hfeed]
      exact ih
  | case11 data inputs first count a s d s' hfeed =>
      left
      simp [recoverLoop, hfeed, s']
  | case12 data inputs first count a s d s' hfeed =>
      left
      simp [recoverLoop, hfeed, s']
  | case13 data inputs first count a s d s' hge hfeed =>
      left
      simp [recoverLoop, hfeed, hge, s']
  | case14 data inputs first count a s prev d s' hlt a' hbatch hfeed ih =>
      rw [List.cons_append, List.cons_append,
        recoverLoop_taken hfeed (UInt64.not_le.mp hlt), if_pos hbatch]
      exact ih
  | case15 data inputs first count a s prev d s' hlt a' hbatch hfeed ih =>
      rw [List.cons_append, List.cons_append,
        recoverLoop_taken hfeed (UInt64.not_le.mp hlt), if_neg hbatch]
      exact ih
  | case16 inputs first count a s hclock _ herror hok =>
      apply oneMore_receiving i
      · rintro rest rfl
        exact hclock rest rfl
      · rintro (e | data) rest rfl
        · exact herror e rest rfl
        · exact hok data rest rfl

/-! ## The number of requests -/

/-- The requests since `s` and those that may still follow are at most
`max_attempts` for each message that was missing at `s`. -/
structure Bounded (r : MoldRetransmitRecoverer) (target : UInt64)
    (s : Recovery) (a : UInt32) (s' : Recovery) : Prop where
  grown : s.delivery.Extends s'.delivery
  attempts_le : a.toNat ≤ r.maxAttempts.toNat
  requests : ∃ reqs, s'.requests = s.requests ++ reqs ∧
    reqs.length + (r.maxAttempts.toNat - a.toNat) +
        r.maxAttempts.toNat *
          (target.toNat - s'.delivery.expected.toNat - 1) ≤
      r.maxAttempts.toNat * (target.toNat - s.delivery.expected.toNat)

/-- A reply, with the attempts counted on. -/
theorem Bounded.keep {a : UInt32} {d : Delivery} (h : r.Bounded target s a s')
    (hext : s'.delivery.Extends d) :
    r.Bounded target s a { s' with delivery := d } := by
  obtain ⟨reqs, heq, hle⟩ := h.requests
  refine ⟨h.grown.trans hext, h.attempts_le, reqs, heq, ?_⟩
  have hexp := UInt64.le_iff_toNat_le.mp hext.le
  have hmul : r.maxAttempts.toNat * (target.toNat - d.expected.toNat - 1) ≤
      r.maxAttempts.toNat *
        (target.toNat - s'.delivery.expected.toNat - 1) :=
    Nat.mul_le_mul_left _ (by omega)
  simp only
  omega

/-- A reply with a new message: a missing message pays for the attempts that
are given back. -/
theorem Bounded.reset {a : UInt32} {d : Delivery}
    (h : r.Bounded target s a s') (hext : s'.delivery.Extends d)
    (hmore : s'.delivery.expected < d.expected) (hlt : d.expected < target) :
    r.Bounded target s 0 { s' with delivery := d } := by
  obtain ⟨reqs, heq, hle⟩ := h.requests
  refine ⟨h.grown.trans hext, Nat.zero_le _, reqs, heq, ?_⟩
  have hmore' := UInt64.lt_iff_toNat_lt.mp hmore
  have hlt' := UInt64.lt_iff_toNat_lt.mp hlt
  have hmul : r.maxAttempts.toNat *
        (target.toNat - d.expected.toNat - 1 + 1) ≤
      r.maxAttempts.toNat *
        (target.toNat - s'.delivery.expected.toNat - 1) :=
    Nat.mul_le_mul_left _ (by omega)
  have hzero : (0 : UInt32).toNat = 0 := rfl
  rw [Nat.mul_add, Nat.mul_one] at hmul
  simp only [hzero]
  omega

theorem Bounded.request {a : UInt32} (h : r.Bounded target s a s')
    (ha : a ≠ r.maxAttempts) :
    r.Bounded target s (a + 1) (r.request target s') := by
  obtain ⟨reqs, heq, hle⟩ := h.requests
  obtain ⟨hnext, hlt⟩ := attempts_succ h.attempts_le ha
  refine ⟨h.grown, by omega, reqs ++ [⟨s'.delivery.framer.lastSession,
    s'.delivery.expected, r.requestCount target s'.delivery.expected⟩],
    ?_, ?_⟩
  · rw [← List.append_assoc, ← heq]
    rfl
  · rw [List.length_append, List.length_singleton, hnext]
    change _ + _ + r.maxAttempts.toNat *
      (target.toNat - s'.delivery.expected.toNat - 1) ≤ _
    omega

theorem bounded_invariant (r : MoldRetransmitRecoverer) (target : UInt64)
    (s : Recovery) :
    r.LoopInvariant target fun _ _ a s' => r.Bounded target s a s' where
  requested _ _ _ h _ ha := h.request ha
  silent _ _ _ _ _ h := h
  gap _ _ _ _ _ _ _ h hfeed := h.keep (Delivery.feed_extends hfeed (by simp))
  malformed _ _ _ _ _ _ _ h hfeed :=
    h.keep (Delivery.feed_extends hfeed (by simp))
  taken _ _ _ _ _ s' d h hfeed hlt := by
    have hext := Delivery.feed_extends hfeed (by simp)
    by_cases hmore : d.expected > s'.delivery.expected
    · rw [if_pos hmore]
      exact h.reset hext hmore hlt
    · rw [if_neg hmore]
      exact h.keep hext

theorem Bounded.length_le {a : UInt32} (h : r.Bounded target s a s') :
    s'.requests.length ≤ s.requests.length +
      r.maxAttempts.toNat * (target.toNat - s.delivery.expected.toNat) := by
  obtain ⟨reqs, heq, hle⟩ := h.requests
  rw [heq, List.length_append]
  omega

theorem Bounded.start (hlt : s.delivery.expected < target) :
    r.Bounded target s 0 s := by
  refine ⟨.refl _, Nat.zero_le _, [], by simp, ?_⟩
  have hlt' := UInt64.lt_iff_toNat_lt.mp hlt
  have hzero : (0 : UInt32).toNat = 0 := rfl
  obtain ⟨g, hg⟩ : ∃ g, target.toNat - s.delivery.expected.toNat = g + 1 :=
    ⟨target.toNat - s.delivery.expected.toNat - 1, by omega⟩
  rw [hzero, hg, Nat.add_sub_cancel, Nat.mul_add, Nat.mul_one,
    List.length_nil]
  omega

/-- However the replies come, a call sends at most `max_attempts` requests for
each missing message. -/
theorem recover_requests_le (r : MoldRetransmitRecoverer)
    (inputs : List Input) (s : Recovery) :
    (r.recover inputs s).2.requests.length ≤ s.requests.length +
      r.maxAttempts.toNat *
        (s.delivery.gapEnd.toNat - s.delivery.expected.toNat) := by
  by_cases hlt : s.delivery.expected < s.delivery.gapEnd
  · have hleft : Left r s.delivery.gapEnd _ (r.recover inputs s).1
        (r.recover inputs s).2 :=
      recoverLoop_rule (bounded_invariant r _ s) (.start hlt)
    generalize (r.recover inputs s).1 = p at hleft
    generalize (r.recover inputs s).2 = s' at hleft ⊢
    cases hleft with
    | done _ _ _ h => exact h.length_le
    | exhausted _ _ h => exact h.length_le
    | unsent _ _ _ _ h _ ha => exact (h.request ha).length_le
    | sending _ _ _ h _ ha => exact (h.request ha).length_le
    | broken _ _ _ _ _ _ _ h => exact h.length_le
    | receiving _ _ _ _ _ h => exact h.length_le
    | changed _ _ _ _ _ _ _ h => exact h.length_le
    | ended _ _ _ _ _ _ _ h => exact h.length_le
    | filled _ _ _ _ _ _ _ h => exact h.length_le
  · have hdone : r.recover inputs s = (.returned (.ok ()) inputs, s) := by
      rw [recover, recoverLoop, if_neg hlt]
    rw [hdone]
    exact Nat.le_add_right _ _

/-! ## Whole calls -/

/-- While a call waits it has only extended what its framer handed over. -/
theorem waiting_extends {inputs : List Input}
    (h : r.recover inputs s = (.waiting, s')) :
    s.delivery.Extends s'.delivery := by
  have hleft := recover_left (extends_invariant r _ s.delivery)
    (Delivery.Extends.refl s.delivery) h
  cases hleft with
  | sending _ _ _ hext => exact hext
  | receiving _ _ _ _ _ hext => exact hext

theorem sends_of_oneMore {inputs : List Input} {s₁ : Recovery}
    (hper : 1 ≤ r.maxPerRequest.toNat)
    (h : r.OneMore s.delivery.gapEnd s₁ (r.recover inputs s)) :
    r.Sends s s₁ (r.recover inputs s).2 := by
  rcases h with hsame | ⟨hwait, hlt, hreq⟩
  · exact Or.inl hsame
  · have hext : s.delivery.Extends (r.recover inputs s).2.delivery :=
      waiting_extends (Prod.ext hwait rfl)
    exact Or.inr ⟨_, hreq, wellFormed_request hper hext hlt⟩

/-! ## The return -/

/-- What the environment answers: how the `j`-th request is sent, and in round `i`
of the inner loop after it, what the clock and the socket say. -/
structure Environment where
  sent : ℕ → Except TransportStatus Unit
  expired : ℕ → ℕ → Bool
  reply : ℕ → ℕ → Except TransportStatus (List UInt8)

namespace Environment

/-- The inputs come from the environment, after `j` requests and `i` replies to the
last one. -/
def Supplies (w : Environment) : ℕ → ℕ → List Input → Prop
  | _, _, [] => True
  | j, _, .sent res :: inputs => res = w.sent (j + 1) ∧ w.Supplies (j + 1) 0 inputs
  | j, i, .clock expired :: inputs => expired = w.expired j i ∧ w.Supplies j i inputs
  | j, i, .reply res :: inputs => res = w.reply j i ∧ w.Supplies j (i + 1) inputs
  | _, _, .source _ :: _ => False

/-- In this round the deadline has passed, or `next()` gives a `WouldBlock` or
another error. -/
def EndsRound (w : Environment) (j i : ℕ) : Prop :=
  w.expired j i = true ∨ ∃ e, w.reply j i = .error e

/-- The loops return after inputs from the environment. -/
def Returns (w : Environment) (r : MoldRetransmitRecoverer) (target : UInt64)
    (j i : ℕ) (phase : RecoverPhase) (a : UInt32) (s : Recovery) : Prop :=
  ∃ inputs result s', w.Supplies j i inputs ∧
    r.recoverLoop target inputs phase a s = (.returned result [], s')

variable {w : Environment} {j i : ℕ} {a : UInt32}

/-- At the condition of the outer loop the call returns, or sends a request. -/
theorem returns_outer_of_inner
    (hinner : s.delivery.expected < target → a ≠ r.maxAttempts →
      w.Returns r target (j + 1) 0 (.inner s.delivery.expected
        (r.requestCount target s.delivery.expected)) (a + 1) (r.request target s)) :
    w.Returns r target j i .outer a s := by
  by_cases hlt : s.delivery.expected < target
  · by_cases ha : a = r.maxAttempts
    · exact ⟨[], .error .retriesExhausted, s, trivial, by simp [recoverLoop, hlt, ha]⟩
    · cases hsent : w.sent (j + 1) with
      | error e =>
          refine ⟨[.sent (.error e)], .error .transportError, r.request target s,
            ⟨hsent.symm, trivial⟩, ?_⟩
          simp [recoverLoop, hlt, ha, request]
      | ok u =>
          obtain ⟨inputs, result, s', hsupplies, hreturned⟩ := hinner hlt ha
          refine ⟨.sent (.ok u) :: inputs, result, s', ⟨hsent.symm, hsupplies⟩, ?_⟩
          rw [recoverLoop_sent hlt ha]
          exact hreturned
  · exact ⟨[], .ok (), s, trivial, by simp [recoverLoop, hlt]⟩

/-- A round after which the loops go on. -/
theorem returns_inner_of_next {first : UInt64} {count : UInt16}
    {res : Except TransportStatus (List UInt8)} {phase' : RecoverPhase} {a' : UInt32}
    (hexpired : w.expired j i = false) (hreply : w.reply j i = res)
    (hstep : ∀ inputs, r.recoverLoop target (.clock false :: .reply res :: inputs)
      (.inner first count) a s = r.recoverLoop target inputs phase' a' s')
    (hnext : w.Returns r target j (i + 1) phase' a' s') :
    w.Returns r target j i (.inner first count) a s := by
  obtain ⟨inputs, result, s₁, hsupplies, hreturned⟩ := hnext
  refine ⟨.clock false :: .reply res :: inputs, result, s₁,
    ⟨hexpired.symm, hreply.symm, hsupplies⟩, ?_⟩
  rw [hstep]
  exact hreturned

/-- A round in which the call returns. -/
theorem returns_inner_of_last {first : UInt64} {count : UInt16}
    {res : Except TransportStatus (List UInt8)} (result : Except RecoveryError Unit)
    (hexpired : w.expired j i = false) (hreply : w.reply j i = res)
    (hreturned : (r.recoverLoop target [.clock false, .reply res] (.inner first count)
      a s).1 = .returned result []) :
    w.Returns r target j i (.inner first count) a s :=
  ⟨[.clock false, .reply res], result, _, ⟨hexpired.symm, hreply.symm, trivial⟩,
    Prod.ext hreturned rfl⟩

/-- The inner loop comes to an end: if nothing else does, the round `last` ends it. -/
theorem returns_inner {first : UInt64} {count : UInt16} {last : ℕ} {s₀ : Recovery}
    (hlast : w.EndsRound j last)
    (houter : ∀ {i a s'}, r.Bounded target s₀ a s' → s'.requests = s.requests →
      w.Returns r target j i .outer a s')
    (hle : i ≤ last) (h : r.Bounded target s₀ a s) :
    w.Returns r target j i (.inner first count) a s := by
  induction hleft : last - i using Nat.strong_induction_on generalizing i a s with
  | _ n ih =>
    cases hexpired : w.expired j i with
    | true =>
        exact ⟨[.clock true], .error .timeout, s, ⟨hexpired.symm, trivial⟩,
          by simp [recoverLoop]⟩
    | false =>
      cases hreply : w.reply j i with
      | error e =>
          cases e with
          | wouldBlock =>
              exact returns_inner_of_next hexpired hreply
                (fun _ => recoverLoop_silent) (houter h rfl)
          | eof | error =>
              exact returns_inner_of_last (.error .transportError) hexpired hreply
                (by simp [recoverLoop])
      | ok data =>
          have hne : i ≠ last := by
            rintro rfl
            rcases hlast with htrue | ⟨e, herror⟩
            · rw [hexpired] at htrue
              cases htrue
            · rw [hreply] at herror
              cases herror
          have hnext : ∀ {a d}, r.Bounded target s₀ a { s with delivery := d } →
              w.Returns r target j (i + 1) (.inner first count) a
                { s with delivery := d } := by
            intro a d hbounded
            exact ih (last - (i + 1)) (by omega) houter (by omega) hbounded rfl
          have hI := bounded_invariant r target s₀
          cases hfeed : s.delivery.feed data with
          | mk res d =>
            cases res with
            | error e =>
                cases e with
                | malformed =>
                    exact returns_inner_of_next hexpired hreply
                      (fun _ => recoverLoop_malformed hfeed)
                      (hnext (hI.malformed [] data first count a s d h hfeed))
                | gap =>
                    exact returns_inner_of_next hexpired hreply
                      (fun _ => recoverLoop_gap hfeed)
                      (houter (hI.gap [] data first count a s d h hfeed) rfl)
                | sessionChanged =>
                    exact returns_inner_of_last (.error .sessionChanged) hexpired hreply
                      (by simp [recoverLoop, hfeed])
                | endOfSession =>
                    exact returns_inner_of_last (.error .sessionEnded) hexpired hreply
                      (by simp [recoverLoop, hfeed])
            | ok u =>
                by_cases hlt : d.expected < target
                · have htaken := hI.taken [] data first count a s d h hfeed hlt
                  refine returns_inner_of_next hexpired hreply
                    (fun _ => recoverLoop_taken hfeed hlt) ?_
                  split
                  · exact houter htaken rfl
                  · exact hnext htaken
                · have hge : target ≤ d.expected := UInt64.not_lt.mp hlt
                  exact returns_inner_of_last (.ok ()) hexpired hreply
                    (by simp [recoverLoop, hfeed, hge])

/-- If every request is followed by a round that ends the inner loop, the call
returns: with `budget` more requests it has sent all that it may send. -/
theorem returns_outer {s₀ : Recovery} (hends : ∀ j, ∃ last, w.EndsRound j last)
    (budget : ℕ) (h : r.Bounded target s₀ a s)
    (hbudget : s₀.requests.length + r.maxAttempts.toNat *
      (target.toNat - s₀.delivery.expected.toNat) ≤ s.requests.length + budget) :
    w.Returns r target j i .outer a s := by
  induction budget generalizing j i a s with
  | zero =>
      refine returns_outer_of_inner fun _ ha => ?_
      have hmore := (h.request ha).length_le
      rw [request, List.length_append, List.length_singleton] at hmore
      omega
  | succ budget ih =>
      refine returns_outer_of_inner fun _ ha => ?_
      obtain ⟨last, hlast⟩ := hends (j + 1)
      refine returns_inner hlast (fun h' hsame => ih h' ?_) (Nat.zero_le _) (h.request ha)
      rw [hsame, request, List.length_append, List.length_singleton]
      omega

end Environment

/-- The requests of a call of `recover` are well formed where they are sent, and at
most `max_attempts` of them are sent for each missing message.  The call returns if
each request is followed by finitely many replies before a `WouldBlock`, an error or
the deadline. -/
theorem recover_requests_wellFormed (r : MoldRetransmitRecoverer)
    (s : Recovery) (hper : 1 ≤ r.maxPerRequest.toNat) :
    r.Sends s s (r.recover [] s).2 ∧
    (∀ inputs i, r.Sends s (r.recover inputs s).2
      (r.recover (inputs ++ [i]) s).2) ∧
    (∀ inputs, (r.recover inputs s).2.requests.length ≤ s.requests.length +
      r.maxAttempts.toNat *
        (s.delivery.gapEnd.toNat - s.delivery.expected.toNat)) ∧
    ∀ w : Environment,
      (∀ j, ∃ i, w.expired j i = true ∨ ∃ e, w.reply j i = .error e) →
      ∃ inputs result s', w.Supplies 0 0 inputs ∧
        r.recover inputs s = (.returned result [], s') := by
  refine ⟨?_, ?_, ?_, ?_⟩
  · apply sends_of_oneMore hper
    exact oneMore_outer rfl
  · intro inputs i
    apply sends_of_oneMore hper
    exact recoverLoop_oneMore r _ inputs .outer 0 s i
  · intro inputs
    exact recover_requests_le r inputs s
  · intro w hends
    by_cases hlt : s.delivery.expected < s.delivery.gapEnd
    · exact Environment.returns_outer hends _ (.start hlt) (le_refl _)
    · exact Environment.returns_outer_of_inner fun hlt' => absurd hlt' hlt

end MoldRetransmitRecoverer

namespace VenueFeed

open MoldRetransmitRecoverer (recover Environment)

/-- The first message comes back, and then nothing more. -/
def sampleEnvironment : Environment where
  sent _ := .ok ()
  expired _ _ := false
  reply j i := if j = 1 ∧ i = 0 then .ok (sampleDatagram 1) else .error .wouldBlock

/-- Message 3 has arrived first, and a call may ask for one message at a
time. -/
theorem recover_requests_wellFormed_sample :
    1 ≤ (1 : UInt16).toNat ∧
    (recover ⟨2, 1⟩ [.sent (.ok ()), .clock false,
      .reply (.ok (sampleDatagram 1))]
        (feed {} (sampleDatagram 3)).2.recovery).2.requests =
      [⟨List.replicate 10 65, 1, 1⟩, ⟨List.replicate 10 65, 2, 1⟩] ∧
    (recover ⟨2, 1⟩ [.sent (.ok ()), .clock false,
      .reply (.ok (sampleDatagram 1))]
        (feed {} (sampleDatagram 3)).2.recovery).2.requests.length ≤
      0 + 2 * (3 - 1) ∧
    ∃ inputs result s, sampleEnvironment.Supplies 0 0 inputs ∧
      recover ⟨2, 1⟩ inputs (feed {} (sampleDatagram 3)).2.recovery =
        (.returned result [], s) := by
  obtain ⟨-, -, hle, hreturns⟩ :=
    MoldRetransmitRecoverer.recover_requests_wellFormed ⟨2, 1⟩
      (feed {} (sampleDatagram 3)).2.recovery (by decide)
  exact ⟨by decide, by decide, hle _,
    hreturns sampleEnvironment fun _ => ⟨1, Or.inr ⟨_, if_neg (by simp)⟩⟩⟩

end VenueFeed

end Fastbook

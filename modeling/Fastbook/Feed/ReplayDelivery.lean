import Fastbook.Feed.MoldReplay
import Fastbook.Feed.RecoverRequests

/-!
# A framer that hears a replay

What the datagrams of a replay do to a framer.  A datagram of the multicast
group may have been cut off by a receive buffer; it still carries the first of
its messages.  The datagrams that answer a request arrive whole and one after
the other, and each of them hands all its messages over.
-/

namespace Fastbook

open Mold MoldReplay

variable {ms : List (List UInt8)} {k : ℕ}

namespace MoldReplay

/-- The message with a sequence number. -/
def message (ms : List (List UInt8)) (seq : ℕ) : List UInt8 :=
  ms.getD (seq - 1) []

/-- What a header of the replay announces, once the first `k` messages have
been packed, and what a body that may have been cut off holds of it. -/
inductive Announces (ms : List (List UInt8)) (k : ℕ) (hdr : Header)
    (body : List UInt8) : Prop
  | messages (j c : ℕ) (hseq : hdr.seqNum.toNat = j + 1)
      (hcount : hdr.msgCount.toNat = c) (hlt : c < 65535) (hle : j + c ≤ k)
      (hblocks : blocks body <+: (ms.drop j).take c)
  | ended (hseq : hdr.seqNum.toNat = ms.length + 1)
      (hcount : hdr.msgCount = endOfSession) (hk : k = ms.length)

/-- What arrives of the datagrams built so far. -/
def Genuine (ms : List (List UInt8)) (k : ℕ) (data : List UInt8) : Prop :=
  ∀ hdr body, readHeader data = some (hdr, body) →
    hdr.session = session ∧ Announces ms k hdr body

/-- An end-of-session datagram. -/
def Ends (data : List UInt8) : Prop :=
  ∃ hdr body, readHeader data = some (hdr, body) ∧
    hdr.msgCount = endOfSession

theorem length_session : session.length = sessionSize :=
  rfl

theorem blocks_encode {xs : List (List UInt8)}
    (h : ∀ m ∈ xs, m.length < 2 ^ 16) : blocks (encode xs) = xs := by
  have hblocks := blocks_encode_append h []
  rw [List.append_nil] at hblocks
  rw [hblocks, blocks_of_cutOff (Or.inl (by decide)), List.append_nil]

theorem short_take_drop (h : ∀ m ∈ ms, m.length < 2 ^ 16) (j c : ℕ) :
    ∀ m ∈ (ms.drop j).take c, m.length < 2 ^ 16 :=
  fun m hm => h m (List.mem_of_mem_drop (List.mem_of_mem_take hm))

theorem Built.genuine {d : List UInt8} (h : Built ms k d)
    (hshort : ∀ m ∈ ms, m.length < 2 ^ 16) (hk : k ≤ ms.length)
    (hN : ms.length + 1 < 2 ^ 64) (n : ℕ) : Genuine ms k (d.take n) := by
  intro hdr body hread
  cases h with
  | messages j c hpos hlt hle =>
      obtain ⟨rfl, rfl⟩ := readHeader_take length_session hread
      have hseq : (UInt64.ofNat (j + 1)).toNat = j + 1 :=
        UInt64.toNat_ofNat_of_lt' (by change j + 1 < 2 ^ 64; omega)
      have hcount : (UInt16.ofNat c).toNat = c :=
        UInt16.toNat_ofNat_of_lt' (by change c < 2 ^ 16; omega)
      have hprefix := blocks_take_prefix (encode ((ms.drop j).take c))
        (n - headerSize)
      rw [blocks_encode (short_take_drop hshort j c)] at hprefix
      exact ⟨rfl, .messages j c hseq hcount hlt hle hprefix⟩
  | ended hend =>
      obtain ⟨rfl, rfl⟩ := readHeader_take length_session hread
      exact ⟨rfl, .ended (UInt64.toNat_ofNat_of_lt' hN) rfl hend⟩

theorem Genuine.ofSession {data : List UInt8} (h : Genuine ms k data) :
    OfSession session (message ms) data := by
  intro hdr body hread
  obtain ⟨hsession, hannounces⟩ := h hdr body hread
  refine ⟨hsession, fun hnot i hi b hb => ?_⟩
  cases hannounces with
  | messages j c hseq hcount hlt hle hblocks =>
      obtain ⟨rest, hrest⟩ := hblocks
      have hlen : i < (blocks body).length :=
        (List.getElem?_eq_some_iff.mp hb).1
      have hget : ((ms.drop j).take c)[i]? = some b := by
        rw [← hrest, List.getElem?_append_left hlen]
        exact hb
      rw [List.getElem?_take_of_lt (by omega), List.getElem?_drop] at hget
      rw [message, hseq, List.getD_eq_getElem?_getD]
      have hindex : j + 1 + i - 1 = j + i := by omega
      rw [hindex, hget]
      rfl
  | ended hseq hcount => exact absurd hcount hnot

theorem Genuine.mono {k' : ℕ} {data : List UInt8} (h : Genuine ms k data)
    (hle : k ≤ k') (hk' : k' ≤ ms.length) : Genuine ms k' data := by
  intro hdr body hread
  obtain ⟨hsession, hannounces⟩ := h hdr body hread
  refine ⟨hsession, ?_⟩
  cases hannounces with
  | messages j c hseq hcount hlt hjc hblocks =>
      exact .messages j c hseq hcount hlt (by omega) hblocks
  | ended hseq hcount hk => exact .ended hseq hcount (by omega)

theorem not_ends {data body : List UInt8} {hdr : Header}
    (hread : readHeader data = some (hdr, body))
    (h : hdr.msgCount ≠ endOfSession) : ¬Ends data := by
  rintro ⟨hdr', body', hread', hend⟩
  rw [hread] at hread'
  cases hread'
  exact h hend

theorem Announces.seqNum_le {hdr : Header} {body : List UInt8}
    (h : Announces ms k hdr body) : hdr.seqNum.toNat ≤ k + 1 := by
  cases h with
  | messages j c hseq hcount hlt hle => omega
  | ended hseq hcount hk => omega

end MoldReplay

/-! ## Feeding what arrives -/

namespace Delivery

variable {d d' : Delivery} {data : List UInt8}

/-- The first messages of the capture, and no others, have been handed over. -/
structure Follows (ms : List (List UInt8)) (d : Delivery) : Prop where
  inOrder : d.InOrder session (message ms)
  le : d.expected.toNat ≤ ms.length + 1

/-- The message loop hands over nothing beyond the announced messages. -/
theorem feedLoop_expected_le {n : ℕ} {currentSeq : UInt64}
    {body : List UInt8} (hle : currentSeq.toNat ≤ d.expected.toNat)
    (hlt : currentSeq.toNat + n < 2 ^ 64) :
    (feedLoop n currentSeq body d).2.expected.toNat ≤
      max d.expected.toNat (currentSeq.toNat + n) := by
  fun_induction feedLoop n currentSeq body d with
  | case1 | case2 | case3 => exact le_max_left _ _
  | case4 n currentSeq body d hshort msgLength rest hcut hold ih =>
      have hold' : currentSeq.toNat < d.expected.toNat := hold
      have hnext : (currentSeq + 1).toNat = currentSeq.toNat + 1 :=
        toNat_succ (by omega)
      have hrest := ih (by omega) (by omega)
      omega
  | case5 n currentSeq body d hshort msgLength rest hcut s hold ih =>
      have hge : ¬currentSeq.toNat < d.expected.toNat := hold
      have hnext : (currentSeq + 1).toNat = currentSeq.toNat + 1 :=
        toNat_succ (by omega)
      have hexp : (d.hand s).expected.toNat = d.expected.toNat + 1 :=
        toNat_succ (n := d.expected) (by omega)
      have hrest := ih (by omega) (by omega)
      omega

/-- What becomes of a framer that is fed what has arrived. -/
inductive Heard (ms : List (List UInt8)) (k : ℕ) (data : List UInt8)
    (d : Delivery) : Except SequencedError Unit → Prop
  | taken (res : Except SequencedError Unit)
      (hres : res = .ok () ∨ res = .error .malformed) (hnot : ¬Ends data) :
      Heard ms k data d res
  | gap (hlt : d.expected < d.gapEnd) (hle : d.gapEnd.toNat ≤ k + 1) :
      Heard ms k data d (.error .gap)
  | ended (hend : Ends data) (hexp : d.expected.toNat = ms.length + 1) :
      Heard ms k data d (.error .endOfSession)

/-- Feeding what has arrived hands over messages of the capture only. -/
theorem Follows.feed (h : d.Follows ms) (hdata : Genuine ms k data)
    (hk : k ≤ ms.length) :
    (d.feed data).2.Follows ms ∧
      (d.feed data).2.Heard ms k data (d.feed data).1 := by
  have hin := feed_inOrder h.inOrder hdata.ofSession
  cases hread : readHeader data with
  | none =>
      rw [Delivery.feed, hread]
      refine ⟨h, .taken _ (Or.inr rfl) ?_⟩
      rintro ⟨hdr, body, hread', -⟩
      rw [hread] at hread'
      cases hread'
  | some hb =>
      obtain ⟨hdr, body⟩ := hb
      obtain ⟨hsession, hannounces⟩ := hdata hdr body hread
      have hbefore := h.inOrder
      rw [← hsession] at hbefore
      obtain ⟨-, hlast, hexp⟩ := hbefore.openSession
      have hle := h.le
      rw [← hexp] at hle
      rw [feed_of_session hread hlast] at hin ⊢
      generalize d.openSession hdr.session = o at hle hin ⊢
      simp only at hin ⊢
      by_cases hgap : hdr.seqNum > o.framer.expSeq
      · rw [if_pos hgap] at hin ⊢
        exact ⟨⟨hin, hle⟩, .gap hgap hannounces.seqNum_le⟩
      · rw [if_neg hgap] at hin ⊢
        have hge : hdr.seqNum.toNat ≤ o.expected.toNat := not_lt.mp hgap
        cases hannounces with
        | ended hseq hcount =>
            rw [if_pos hcount] at hin ⊢
            refine ⟨⟨hin, hle⟩, .ended ⟨hdr, body, hread, hcount⟩ ?_⟩
            change o.expected.toNat = ms.length + 1
            omega
        | messages j c hseq hcount hlt hjc =>
            have hend : hdr.msgCount ≠ endOfSession := by
              intro heq
              rw [heq] at hcount
              change 65535 = c at hcount
              omega
            rw [if_neg hend] at hin ⊢
            by_cases hold : hdr.seqNum + hdr.msgCount.toUInt64 ≤
                o.framer.expSeq
            · rw [if_pos hold] at hin ⊢
              exact ⟨⟨hin, hle⟩, .taken _ (Or.inl rfl) (not_ends hread hend)⟩
            · rw [if_neg hold] at hin ⊢
              have hwrap := no_wrap hgap hend hold
              have hres := (@feedLoop_extends o _ _ body hge hwrap).2
              have hbound := @feedLoop_expected_le o _ _ body hge hwrap
              refine ⟨⟨hin, ?_⟩, .taken _ hres (not_ends hread hend)⟩
              omega

/-! ## Feeding replies -/

theorem foldl_hand_framer (d : Delivery) (xs : List (List UInt8)) :
    (xs.foldl hand d).framer.hasSession = d.framer.hasSession ∧
      (xs.foldl hand d).gapEnd = d.gapEnd := by
  induction xs generalizing d with
  | nil => exact ⟨rfl, rfl⟩
  | cons x xs ih => exact ih (d.hand x)

theorem foldl_hand_expected {d : Delivery} {xs : List (List UInt8)}
    (h : d.expected.toNat + xs.length < 2 ^ 64) :
    (xs.foldl hand d).expected.toNat = d.expected.toNat + xs.length := by
  induction xs generalizing d with
  | nil => rfl
  | cons x xs ih =>
      rw [List.length_cons] at h ⊢
      have hexp : (d.hand x).expected.toNat = d.expected.toNat + 1 :=
        toNat_succ (n := d.expected) (by omega)
      rw [List.foldl_cons, ih (by omega), hexp]
      omega

/-- A whole body that starts at the expected message is handed over. -/
theorem feedLoop_encode {xs : List (List UInt8)} {currentSeq : UInt64}
    (hshort : ∀ m ∈ xs, m.length < 2 ^ 16) (hseq : currentSeq = d.expected) :
    feedLoop xs.length currentSeq (encode xs) d =
      (.ok (), xs.foldl hand d) := by
  induction xs generalizing d currentSeq with
  | nil => rfl
  | cons x xs ih =>
      obtain ⟨hx, hxs⟩ := List.forall_mem_cons.mp hshort
      have hlen := readLength_block hx (encode xs)
      have hdrop := drop_block x (encode xs)
      have hexp : currentSeq + 1 = (d.hand x).expected := by
        rw [hseq]
        rfl
      have hnew : ¬currentSeq < d.framer.expSeq := by
        rw [hseq]
        exact UInt64.lt_irrefl _
      rw [List.length_cons, encode_cons, feedLoop,
        if_neg (by rw [List.length_append, length_block]; omega)]
      simp only [hlen, hdrop, List.length_append]
      rw [if_neg (by omega), if_neg hnew, List.take_left, List.drop_left,
        ih hxs hexp, List.foldl_cons]

theorem toNat_ofNat_count {c : ℕ} (h : c < 65535) :
    (UInt16.ofNat c).toNat = c ∧ UInt16.ofNat c ≠ endOfSession := by
  have hc : (UInt16.ofNat c).toNat = c :=
    UInt16.toNat_ofNat_of_lt' (by change c < 2 ^ 16; omega)
  refine ⟨hc, ?_⟩
  intro heq
  rw [heq] at hc
  change 65535 = c at hc
  omega

/-- A whole datagram of messages that starts at the expected message. -/
theorem feed_datagram {xs : List (List UInt8)}
    (hd : d.framer.hasSession = true → d.framer.lastSession = session)
    (hshort : ∀ m ∈ xs, m.length < 2 ^ 16) (hpos : 0 < xs.length)
    (hlt : xs.length < 65535) (hwrap : d.expected.toNat + xs.length < 2 ^ 64) :
    d.feed (datagram d.expected (UInt16.ofNat xs.length) (encode xs)) =
      (.ok (), xs.foldl hand (d.openSession session)) := by
  obtain ⟨hcount, hnot⟩ := toNat_ofNat_count hlt
  have hlast : (d.openSession session).framer.lastSession = session := by
    unfold openSession
    split
    · next hsession => exact hd hsession
    · rfl
  have hexp := openSession_expected d session
  have hnew : ¬d.expected + (UInt16.ofNat xs.length).toUInt64 ≤ d.expected := by
    rw [UInt64.not_le, UInt64.lt_iff_toNat_lt, toNat_add_count (by omega)]
    omega
  rw [datagram,
    feed_of_session (readHeader_writeHeader length_session _) hlast]
  simp only
  rw [hexp, if_neg (UInt64.lt_irrefl _), if_neg hnot, if_neg hnew, hcount]
  exact feedLoop_encode hshort hexp.symm

theorem openSession_gapEnd (d : Delivery) (session : List UInt8) :
    (d.openSession session).gapEnd = d.gapEnd := by
  unfold openSession
  split <;> rfl

/-- A reply that starts at the expected message hands all its messages over. -/
theorem Follows.feed_carrying (h : d.Follows ms)
    (hshort : ∀ m ∈ ms, m.length < 2 ^ 16) (hN : ms.length + 1 < 2 ^ 64)
    {j c : ℕ} (hexp : d.expected.toNat = j + 1) (hpos : 0 < c)
    (hlt : c < 65535) (hle : j + c ≤ ms.length) :
    ∃ d', d.feed (carrying ms j c) = (.ok (), d') ∧ d'.Follows ms ∧
      d'.expected.toNat = j + c + 1 ∧ d'.framer.hasSession = true ∧
      d'.gapEnd = d.gapEnd := by
  have hlen : ((ms.drop j).take c).length = c := by
    rw [List.length_take, List.length_drop]
    omega
  have hseq : UInt64.ofNat (j + 1) = d.expected := by
    rw [← hexp, UInt64.ofNat_toNat]
  have hfeed := @feed_datagram d ((ms.drop j).take c) h.inOrder.session_eq
    (short_take_drop hshort j c) (by omega) (by omega) (by omega)
  rw [hlen, ← hseq, ← carrying] at hfeed
  obtain ⟨hhas, hend⟩ := foldl_hand_framer (d.openSession session)
    ((ms.drop j).take c)
  rw [openSession_hasSession] at hhas
  rw [openSession_gapEnd] at hend
  refine ⟨_, hfeed, ?_, ?_, hhas, hend⟩
  · have hbuilt : Built ms ms.length (carrying ms j c) :=
      .messages j c hpos hlt hle
    have hgenuine := hbuilt.genuine hshort (le_refl _) hN
      (carrying ms j c).length
    rw [List.take_length] at hgenuine
    have hfollows := (h.feed hgenuine (le_refl _)).1
    rw [hfeed] at hfollows
    exact hfollows
  · have hopen : (d.openSession session).expected = d.expected :=
      openSession_expected d session
    rw [foldl_hand_expected (by rw [hopen]; omega), hopen, hexp, hlen]
    omega

end Delivery

/-! ## A request and its replies -/

namespace MoldRetransmitRecoverer

variable {r : MoldRetransmitRecoverer} {target : UInt64} {s : Recovery}

/-- Datagrams that come back before the deadline. -/
def replyInputs (ds : List (List UInt8)) : List Input :=
  ds.flatMap fun d => [.clock false, .reply (.ok d)]

theorem recoverLoop_done {inputs : List Input} {a : UInt32}
    (hge : target ≤ s.delivery.expected) :
    r.recoverLoop target inputs .outer a s =
      (.returned (.ok ()) inputs, s) := by
  rw [recoverLoop, if_neg (UInt64.not_lt.mpr hge)]

theorem recoverLoop_filled {inputs : List Input} {data : List UInt8}
    {first : UInt64} {count : UInt16} {a : UInt32} {d : Delivery}
    (hfeed : s.delivery.feed data = (.ok (), d)) (hge : target ≤ d.expected) :
    r.recoverLoop target (.clock false :: .reply (.ok data) :: inputs)
        (.inner first count) a s =
      (.returned (.ok ()) inputs, { s with delivery := d }) := by
  rw [recoverLoop]
  simp only [hfeed, ge_iff_le, hge, if_true]

/-- The last reply to a request. -/
theorem recoverLoop_last {inputs : List Input} {data : List UInt8}
    {first : UInt64} {count : UInt16} {a : UInt32} {d : Delivery}
    (hfeed : s.delivery.feed data = (.ok (), d))
    (hmore : s.delivery.expected < d.expected)
    (hall : first + count.toUInt64 ≤ d.expected) :
    r.recoverLoop target (.clock false :: .reply (.ok data) :: inputs)
        (.inner first count) a s =
      r.recoverLoop target inputs .outer 0 { s with delivery := d } := by
  by_cases hge : target ≤ d.expected
  · rw [recoverLoop_filled hfeed hge, recoverLoop_done hge]
  · rw [recoverLoop_taken hfeed (UInt64.not_le.mp hge), if_pos hall,
      if_pos hmore]

/-- The replies to a request hand over what it asked for, and the loops are
back at the condition of the outer one. -/
theorem recoverLoop_covers {j n : ℕ} {ds : List (List UInt8)}
    (h : Covers ms j n ds) (hshort : ∀ m ∈ ms, m.length < 2 ^ 16)
    (hN : ms.length + 1 < 2 ^ 64) (hn : 0 < n) {first : UInt64}
    {count : UInt16} {a : UInt32} (hfollows : s.delivery.Follows ms)
    (hexp : s.delivery.expected.toNat = j + 1)
    (hlast : (first + count.toUInt64).toNat = j + n + 1)
    (htarget : j + n + 1 ≤ target.toNat) :
    ∃ d, d.Follows ms ∧ d.expected.toNat = j + n + 1 ∧
      d.framer.hasSession = true ∧ d.gapEnd = s.delivery.gapEnd ∧
      ∀ more, r.recoverLoop target (replyInputs ds ++ more)
          (.inner first count) a s =
        r.recoverLoop target more .outer 0 { s with delivery := d } := by
  induction h generalizing s a with
  | nil => exact absurd hn (Nat.lt_irrefl 0)
  | cons j c n ds hpos hlt hle hrest ih =>
      obtain ⟨d, hfeed, hd, hdexp, hhas, hend⟩ :=
        hfollows.feed_carrying hshort hN hexp hpos hlt hle
      have hmore : s.delivery.expected < d.expected := by
        rw [UInt64.lt_iff_toNat_lt]
        omega
      rcases Nat.eq_zero_or_pos n with rfl | hn'
      · obtain rfl := hrest.eq_nil
        refine ⟨d, hd, hdexp, hhas, hend, ?_⟩
        intro more
        refine recoverLoop_last hfeed hmore ?_
        rw [UInt64.le_iff_toNat_le]
        omega
      · -- more replies to the same request follow
        have hopen : d.expected < target := by
          rw [UInt64.lt_iff_toNat_lt]
          omega
        have hinner : ¬d.expected ≥ first + count.toUInt64 := by
          rw [ge_iff_le, UInt64.not_le, UInt64.lt_iff_toNat_lt]
          omega
        obtain ⟨d', hd', hexp', hhas', hend', hloop⟩ :=
          ih hn' (s := { s with delivery := d }) (a := 0) hd hdexp
            (by omega) (by omega)
        refine ⟨d', hd', by omega, hhas', hend'.trans hend, ?_⟩
        intro more
        rw [← hloop more]
        have htaken := @recoverLoop_taken r target s (replyInputs ds ++ more)
          _ first count a d hfeed hopen
        rw [if_neg hinner, if_pos hmore] at htaken
        exact htaken

theorem zero_ne_maxAttempts (h : 1 ≤ r.maxAttempts) :
    (0 : UInt32) ≠ r.maxAttempts := by
  intro hzero
  rw [← hzero] at h
  exact absurd h (by decide)

/-- The first request of a call of `recover`. -/
def firstRequest (r : MoldRetransmitRecoverer) (d : Delivery) : Header :=
  ⟨d.framer.lastSession, d.expected, r.requestCount d.gapEnd d.expected⟩

/-- A call of `recover` while the gap is open.  The replay answers the first
request, and the call goes on as if it had just been made. -/
theorem recover_answered {data : List UInt8} {replay : MoldReplay}
    (hlay : Layout data ms) (hN : ms.length + 1 < 2 ^ 64)
    (hreplay : Replayed ms k replay) (hattempts : 1 ≤ r.maxAttempts)
    (hper : 1 ≤ r.maxPerRequest) (hfollows : s.delivery.Follows ms)
    (hhas : s.delivery.framer.hasSession = true)
    (hlt : s.delivery.expected < s.delivery.gapEnd)
    (hle : s.delivery.gapEnd.toNat ≤ k + 1) :
    ∃ ds d, serveRequest data replay.index replay.seq
        (writeHeader (r.firstRequest s.delivery)) = some ds ∧
      d.Follows ms ∧ s.delivery.expected < d.expected ∧
      d.framer.hasSession = true ∧ d.gapEnd = s.delivery.gapEnd ∧
      ∀ more, r.recover (.sent (.ok ()) :: (replyInputs ds ++ more)) s =
        r.recover more { delivery := d
                         requests := s.requests ++
                           [r.firstRequest s.delivery] } := by
  set q := r.firstRequest s.delivery with hq
  have hseq : q.seqNum.toNat = s.delivery.expected.toNat := rfl
  have hcount : q.msgCount.toNat =
      min (s.delivery.gapEnd.toNat - s.delivery.expected.toNat)
        r.maxPerRequest.toNat := toNat_requestCount hlt
  have hlt' := UInt64.lt_iff_toNat_lt.mp hlt
  have hper' : 1 ≤ r.maxPerRequest.toNat := UInt16.le_iff_toNat_le.mp hper
  have hk := hreplay.le
  have hpos : 0 < s.delivery.expected.toNat := hfollows.inOrder.pos
  have hend : q.seqNum.toNat + q.msgCount.toNat ≤ s.delivery.gapEnd.toNat := by
    rw [hseq, hcount]
    omega
  obtain ⟨ds, hserve, hcovers⟩ := hreplay.serveRequest_covers hlay hN
    (hfollows.inOrder.session_eq hhas) hpos (by omega) (hend.trans hle)
  have hlast : (q.seqNum + q.msgCount.toUInt64).toNat =
      q.seqNum.toNat - 1 + q.msgCount.toNat + 1 := by
    rw [toNat_add_count (by omega)]
    omega
  have htarget : q.seqNum.toNat - 1 + q.msgCount.toNat + 1 ≤
      s.delivery.gapEnd.toNat := by omega
  obtain ⟨d, hd, hexp, hhas', hgap, hloop⟩ := recoverLoop_covers (r := r)
    (s := r.request s.delivery.gapEnd s) (a := 0 + 1) hcovers hlay.short hN
    (by omega) hfollows (by change s.delivery.expected.toNat = _; omega)
    hlast htarget
  refine ⟨ds, d, hserve, hd, ?_, hhas', hgap, ?_⟩
  · rw [UInt64.lt_iff_toNat_lt]
    omega
  · intro more
    have hgap' : d.gapEnd = s.delivery.gapEnd := hgap
    rw [recover, recoverLoop_sent hlt (zero_ne_maxAttempts hattempts), recover,
      hgap']
    exact hloop more

end MoldRetransmitRecoverer

end Fastbook

import Fastbook.Feed.LengthPrefixFramer

/-!
# The MoldUDP64 framer

A model of `mold::read_header` (`feed/mold_udp64.hpp`) and `MoldUDP64Framer`
(`feed/mold_udp64_framer.hpp`).  A datagram is the list of its bytes, and
sequence numbers are 64-bit words.

Fix a session and its messages `M 1`, `M 2`, ….  As long as every datagram
carries messages of that session, the messages handed to the sink are always
`M 1` up to the last one before the expected sequence number.
-/

namespace Fastbook

namespace Mold

def sessionSize : ℕ := 10

def headerSize : ℕ := 20

def endOfSession : UInt16 := 0xFFFF

structure Header where
  session : List UInt8
  seqNum : UInt64
  msgCount : UInt16
  deriving DecidableEq, Repr

/-- `read_header`: the header and the bytes after it. -/
def readHeader (data : List UInt8) : Option (Header × List UInt8) :=
  if data.length < headerSize then none
  else some ({
      session := data.take sessionSize
      seqNum := UInt64.ofNat (beValue ((data.drop 10).take 8))
      msgCount := UInt16.ofNat (beValue ((data.drop 18).take 2)) },
    data.drop headerSize)

end Mold

inductive SequencedError where
  | malformed
  | gap
  | endOfSession
  | sessionChanged
  deriving DecidableEq, Repr

structure MoldUdp64Framer where
  lastSession : List UInt8 := []
  hasSession : Bool := false
  expSeq : UInt64 := 1
  gapEnd : UInt64 := 0
  deriving DecidableEq, Repr

/-- A message handed to the sink, with the value of `expected()` once the
framer has counted it. -/
structure Handed where
  message : List UInt8
  expected : UInt64
  deriving DecidableEq, Repr

/-- A framer and what it has handed to its sink. -/
structure Delivery where
  framer : MoldUdp64Framer := {}
  handed : List Handed := []
  deriving DecidableEq, Repr

namespace Delivery

def expected (d : Delivery) : UInt64 :=
  d.framer.expSeq

def gapEnd (d : Delivery) : UInt64 :=
  d.framer.gapEnd

/-- The end of an iteration of the message loop: `on_message` and
`exp_seq_++`. -/
def hand (d : Delivery) (message : List UInt8) : Delivery where
  framer := { d.framer with expSeq := d.framer.expSeq + 1 }
  handed := d.handed ++ [⟨message, d.framer.expSeq + 1⟩]

/-- The message loop of `feed`, with `n` messages to go. -/
def feedLoop : ℕ → UInt64 → List UInt8 → Delivery →
    Except SequencedError Unit × Delivery
  | 0, _, _, d => (.ok (), d)
  | n + 1, currentSeq, data, d =>
    if data.length < 2 then (.error .malformed, d)
    else
      let msgLength := readLength data
      let rest := data.drop 2
      if rest.length < msgLength then (.error .malformed, d)
      else
        let s := rest.take msgLength
        if currentSeq < d.framer.expSeq then
          feedLoop n (currentSeq + 1) (rest.drop msgLength) d
        else feedLoop n (currentSeq + 1) (rest.drop msgLength) (d.hand s)

/-- The first datagram sets the session. -/
def openSession (d : Delivery) (session : List UInt8) : Delivery :=
  if d.framer.hasSession then d
  else { d with
    framer := { d.framer with lastSession := session, hasSession := true } }

def feed (d : Delivery) (data : List UInt8) :
    Except SequencedError Unit × Delivery :=
  match Mold.readHeader data with
  | none => (.error .malformed, d)
  | some (hdr, body) =>
    let d := d.openSession hdr.session
    if d.framer.lastSession ≠ hdr.session then
      (.error .sessionChanged, { d with
        framer := { d.framer with lastSession := hdr.session, expSeq := 1 } })
    else if hdr.seqNum > d.framer.expSeq then
      (.error .gap, { d with
        framer := { d.framer with gapEnd := hdr.seqNum } })
    else if hdr.msgCount = Mold.endOfSession then (.error .endOfSession, d)
    else if hdr.seqNum + hdr.msgCount.toUInt64 ≤ d.framer.expSeq then
      (.ok (), d)
    else feedLoop hdr.msgCount.toNat hdr.seqNum body d

end Delivery

/-! ## Datagrams of one session -/

namespace Mold

open LengthPrefixFramer

/-- The complete message blocks of a datagram body. -/
def blocks (body : List UInt8) : List (List UInt8) :=
  ((lengthPrefixed 65535).decode body).1

/-- A datagram of the session with messages `M`: the blocks it carries are the
messages from its sequence number on. -/
def OfSession (session : List UInt8) (M : ℕ → List UInt8)
    (data : List UInt8) : Prop :=
  ∀ hdr body, readHeader data = some (hdr, body) →
    hdr.session = session ∧
    (hdr.msgCount ≠ endOfSession → ∀ i < hdr.msgCount.toNat,
      ∀ b, (blocks body)[i]? = some b → b = M (hdr.seqNum.toNat + i))

theorem blocks_of_block {body : List UInt8} (h₂ : 2 ≤ body.length)
    (hlen : readLength body ≤ (body.drop 2).length) :
    blocks body = (body.drop 2).take (readLength body) ::
      blocks ((body.drop 2).drop (readLength body)) := by
  have hlt := readLength_lt body
  rw [List.length_drop] at hlen
  have hstep : (lengthPrefixed 65535).step body =
      .item ((body.drop 2).take (readLength body))
        ((body.drop 2).drop (readLength body)) := by
    change frameStep 65535 body = _
    rw [frameStep, if_neg (by omega), if_neg (by omega), if_neg (by omega),
      List.drop_drop]
  rw [blocks, Support.Decoder.decode_of_item hstep, blocks]

end Mold

/-- The messages `M 1` to `M k`, each with the sequence number expected after
it. -/
def handedUpTo (M : ℕ → List UInt8) (k : ℕ) : List Handed :=
  (List.range k).map fun i => ⟨M (i + 1), UInt64.ofNat (i + 2)⟩

theorem handedUpTo_succ (M : ℕ → List UInt8) (k : ℕ) :
    handedUpTo M (k + 1) =
      handedUpTo M k ++ [⟨M (k + 1), UInt64.ofNat (k + 2)⟩] := by
  simp [handedUpTo, List.range_succ]

/-- Exactly the messages before the expected one have been handed over, in
order. -/
structure Delivery.InOrder (session : List UInt8) (M : ℕ → List UInt8)
    (d : Delivery) : Prop where
  session_eq : d.framer.hasSession = true → d.framer.lastSession = session
  pos : 0 < d.expected.toNat
  handed_eq : d.handed = handedUpTo M (d.expected.toNat - 1)

theorem toNat_succ {n : UInt64} (h : n.toNat + 1 < 2 ^ 64) :
    (n + 1).toNat = n.toNat + 1 := by
  rw [UInt64.toNat_add]
  exact Nat.mod_eq_of_lt h

theorem toNat_min (a b : UInt64) : (min a b).toNat = min a.toNat b.toNat := by
  have hmin : min a b = if a ≤ b then a else b := rfl
  rw [hmin, Nat.min_def]
  simp only [UInt64.le_iff_toNat_le]
  split <;> rfl

namespace Delivery

variable {session : List UInt8} {M : ℕ → List UInt8} {d : Delivery}

theorem InOrder.hand {s : List UInt8} (h : d.InOrder session M)
    (hs : s = M d.expected.toNat) (hlt : d.expected.toNat + 1 < 2 ^ 64) :
    (d.hand s).InOrder session M := by
  have hnext : (d.hand s).expected.toNat = d.expected.toNat + 1 :=
    toNat_succ hlt
  have hpos := h.pos
  refine ⟨h.session_eq, by omega, ?_⟩
  rw [hnext]
  change d.handed ++ [⟨s, d.framer.expSeq + 1⟩] = _
  have hk : d.expected.toNat + 1 - 1 = (d.expected.toNat - 1) + 1 := by omega
  rw [hk, handedUpTo_succ, ← h.handed_eq, hs]
  have hsucc : d.expected.toNat - 1 + 1 = d.expected.toNat := by omega
  have hexp : d.framer.expSeq + 1 =
      UInt64.ofNat (d.expected.toNat - 1 + 2) := by
    apply UInt64.toNat_inj.mp
    rw [UInt64.toNat_ofNat']
    change (d.hand s).expected.toNat = _
    rw [hnext, Nat.mod_eq_of_lt (by omega)]
    omega
  rw [hsucc, hexp]

/-- The message loop of a datagram that starts at or before the expected
message. -/
theorem feedLoop_inOrder {n : ℕ} {currentSeq : UInt64} {data : List UInt8}
    (h : d.InOrder session M) (hle : currentSeq.toNat ≤ d.expected.toNat)
    (hlt : currentSeq.toNat + n < 2 ^ 64)
    (hblocks : ∀ i < n, ∀ b, (Mold.blocks data)[i]? = some b →
      b = M (currentSeq.toNat + i)) :
    (feedLoop n currentSeq data d).2.InOrder session M := by
  induction n generalizing currentSeq data d with
  | zero => exact h
  | succ n ih =>
      rw [feedLoop]
      by_cases hshort : data.length < 2
      · rw [if_pos hshort]
        exact h
      · rw [if_neg hshort]
        by_cases hcut : (data.drop 2).length < readLength data
        · simp only [if_pos hcut]
          exact h
        · simp only [if_neg hcut]
          have hfirst := Mold.blocks_of_block (by omega) (not_lt.mp hcut)
          have hnext : (currentSeq + 1).toNat = currentSeq.toNat + 1 :=
            toNat_succ (by omega)
          have hrest : ∀ i < n, ∀ b, (Mold.blocks
              ((data.drop 2).drop (readLength data)))[i]? = some b →
                b = M ((currentSeq + 1).toNat + i) := by
            intro i hi b hb
            have hb' := hblocks (i + 1) (by omega) b (by rw [hfirst]; exact hb)
            rw [hb', hnext, Nat.add_assoc, Nat.add_comm 1 i]
          by_cases hold : currentSeq < d.framer.expSeq
          · rw [if_pos hold]
            have hold' : currentSeq.toNat < d.expected.toNat := hold
            exact ih h (by omega) (by omega) hrest
          · rw [if_neg hold]
            have hsame : currentSeq.toNat = d.expected.toNat := by
              have hge : ¬currentSeq.toNat < d.expected.toNat := hold
              omega
            have hmsg := hblocks 0 (by omega) _ (by rw [hfirst]; rfl)
            rw [Nat.add_zero, hsame] at hmsg
            have hhand := h.hand hmsg (by omega)
            refine ih hhand ?_ (by omega) hrest
            rw [hnext, hsame]
            exact (toNat_succ (n := d.expected) (by omega)).ge

theorem InOrder.openSession (h : d.InOrder session M) :
    (d.openSession session).InOrder session M ∧
      (d.openSession session).framer.lastSession = session ∧
      (d.openSession session).expected = d.expected := by
  unfold Delivery.openSession
  split
  · next hsession => exact ⟨h, h.session_eq hsession, rfl⟩
  · exact ⟨⟨fun _ => rfl, h.pos, h.handed_eq⟩, rfl, rfl⟩

/-- The check for old datagrams lets no datagram through whose sequence numbers
wrap around. -/
theorem no_wrap {seq exp : UInt64} {count : UInt16} (hle : ¬seq > exp)
    (hcount : count ≠ Mold.endOfSession) (hnew : ¬seq + count.toUInt64 ≤ exp) :
    seq.toNat + count.toNat < 2 ^ 64 := by
  have hseq : seq.toNat ≤ exp.toNat := not_lt.mp hle
  have hsum : exp.toNat < (seq + count.toUInt64).toNat := not_le.mp hnew
  have hlt := count.toNat_lt
  have hc : count.toNat ≠ 65535 := by
    intro heq
    apply hcount
    exact UInt16.toNat_inj.mp heq
  rw [UInt64.toNat_add, UInt16.toNat_toUInt64] at hsum
  by_contra hge
  have hwrap : (seq.toNat + count.toNat) % 2 ^ 64 =
      seq.toNat + count.toNat - 2 ^ 64 := by
    have hs := seq.toNat_lt
    rw [Nat.mod_eq_sub_mod (by omega)]
    exact Nat.mod_eq_of_lt (by omega)
  omega

/-- The checks of `feed` after the one for the session. -/
theorem feed_of_session {data body : List UInt8} {hdr : Mold.Header}
    (hread : Mold.readHeader data = some (hdr, body))
    (hlast : (d.openSession hdr.session).framer.lastSession = hdr.session) :
    d.feed data =
      let o := d.openSession hdr.session
      if hdr.seqNum > o.framer.expSeq then
        (.error .gap, { o with
          framer := { o.framer with gapEnd := hdr.seqNum } })
      else if hdr.msgCount = Mold.endOfSession then (.error .endOfSession, o)
      else if hdr.seqNum + hdr.msgCount.toUInt64 ≤ o.framer.expSeq then
        (.ok (), o)
      else feedLoop hdr.msgCount.toNat hdr.seqNum body o := by
  rw [feed, hread]
  simp only
  rw [if_neg (not_not.mpr hlast)]

/-- Feeding any datagram of the session keeps the messages in order, whatever
`feed` returns. -/
theorem feed_inOrder {data : List UInt8} (h : d.InOrder session M)
    (hdata : Mold.OfSession session M data) :
    (d.feed data).2.InOrder session M := by
  cases hread : Mold.readHeader data with
  | none =>
      rw [feed, hread]
      exact h
  | some hb =>
      obtain ⟨hdr, body⟩ := hb
      obtain ⟨hsession, hblocks⟩ := hdata hdr body hread
      subst hsession
      obtain ⟨hopen, hlast, -⟩ := h.openSession
      rw [feed_of_session hread hlast]
      generalize d.openSession hdr.session = o at hopen hlast
      simp only
      by_cases hgap : hdr.seqNum > o.framer.expSeq
      · rw [if_pos hgap]
        exact ⟨fun _ => hlast, hopen.pos, hopen.handed_eq⟩
      · rw [if_neg hgap]
        by_cases hend : hdr.msgCount = Mold.endOfSession
        · rw [if_pos hend]
          exact hopen
        · rw [if_neg hend]
          by_cases hold : hdr.seqNum + hdr.msgCount.toUInt64 ≤ o.framer.expSeq
          · rw [if_pos hold]
            exact hopen
          · rw [if_neg hold]
            exact feedLoop_inOrder hopen (not_lt.mp hgap)
              (no_wrap hgap hend hold) (hblocks hend)

/-- A new framer has handed over nothing. -/
theorem fresh_inOrder : ({} : Delivery).InOrder session M := by
  refine ⟨?_, by decide, rfl⟩
  intro hsession
  cases hsession

end Delivery

end Fastbook

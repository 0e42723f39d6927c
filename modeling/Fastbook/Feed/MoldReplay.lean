import Fastbook.Feed.MessageBlocks
import Mathlib.Data.List.TakeWhile

/-!
# The replay of a capture

A model of `tools/mold_replay.cpp`, which packs the messages of a capture into
MoldUDP64 datagrams and answers re-requests for them.  Positions in the capture
are numbers, sequence numbers are 64-bit words.  A datagram that is dropped on
purpose is built like any other; the options that choose the drops, the pacing
and the statistics are left out.

At a position where a message starts, packing takes whole messages, so each
datagram carries a run of the messages of the capture, and the datagrams that
answer a request carry, one after the other, the requested run.
-/

namespace Fastbook

namespace MoldReplay

open Mold

/-- `SESSION`: the characters of `FASTBOOK01`. -/
def session : List UInt8 :=
  [70, 65, 83, 84, 66, 79, 79, 75, 48, 49]

def maxDatagram : ℕ := 1400

/-- `std::numeric_limits<uint64_t>::max()`. -/
def maxU64 : UInt64 := 0xFFFFFFFFFFFFFFFF

/-- `message_size`: the size of the block at `pos`, unless it runs past the end
of the capture. -/
def messageSize (data : List UInt8) (pos : ℕ) : Option ℕ :=
  if pos + 2 > data.length then none
  else
    let len := (data.getD pos 0).toNat <<< 8 ||| (data.getD (pos + 1) 0).toNat
    if pos + 2 + len > data.length then none else some (2 + len)

structure Batch where
  beginPos : ℕ
  endPos : ℕ
  count : UInt16
  deriving DecidableEq, Repr

/-- The loop of `pack`, with `n` messages to go until the count is one below
`END_OF_SESSION`. -/
def packLoop (data : List UInt8) (maxCount : UInt64) :
    ℕ → Batch → ℕ → Batch
  | 0, b, _ => b
  | n + 1, b, bytes =>
    if b.count.toUInt64 < maxCount then
      match messageSize data b.endPos with
      | none => b
      | some sz =>
        if b.count > 0 ∧ bytes + sz > maxDatagram then b
        else
          packLoop data maxCount n
            { b with endPos := b.endPos + sz, count := b.count + 1 }
            (bytes + sz)
    else b

def pack (data : List UInt8) (pos : ℕ) (maxCount : UInt64) : Batch :=
  packLoop data maxCount (endOfSession - 1).toNat ⟨pos, pos, 0⟩ headerSize

/-- The bytes of a batch: `data.subspan(b.begin, b.end - b.begin)`. -/
def payload (data : List UInt8) (b : Batch) : List UInt8 :=
  (data.drop b.beginPos).take (b.endPos - b.beginPos)

/-- What `send_datagram` sends. -/
def datagram (seq : UInt64) (count : UInt16) (payload : List UInt8) :
    List UInt8 :=
  writeHeader ⟨session, seq, count⟩ ++ payload

structure IndexEntry where
  firstSeq : UInt64
  offset : ℕ
  deriving DecidableEq, Repr

/-! ## Re-requests -/

/-- `--std::upper_bound(…)`: the last entry before the first one whose first
sequence number is above `seq`. -/
def lookup (index : List IndexEntry) (seq : UInt64) : Option IndexEntry :=
  (index.takeWhile fun e => ¬seq < e.firstSeq).getLast?

/-- The walk over `n` messages from `pos` on. -/
def walk (data : List UInt8) : ℕ → ℕ → Option ℕ
  | 0, pos => some pos
  | n + 1, pos =>
    match messageSize data pos with
    | none => none
    | some sz => walk data n (pos + sz)

/-- The loop that repacks `remaining` messages from `pos` on, at most `n`
rounds of it. -/
def repack (data : List UInt8) :
    ℕ → ℕ → UInt64 → UInt64 → List (List UInt8)
  | 0, _, _, _ => []
  | n + 1, pos, seq, remaining =>
    if remaining > 0 then
      let b := pack data pos remaining
      if b.count = 0 then []
      else
        datagram seq b.count (payload data b) ::
          repack data n b.endPos (seq + b.count.toUInt64)
            (remaining - b.count.toUInt64)
    else []

/-- An iteration of `serve_requests`: the datagrams sent in reply to a request.
Each round of the repacking takes a message, so `remaining` rounds are enough.
There is no result where the code would leave the index or the capture. -/
def serveRequest (data : List UInt8) (index : List IndexEntry)
    (nextSeq : UInt64) (req : List UInt8) : Option (List (List UInt8)) :=
  match readHeader (req.take 64) with
  | none => some []
  | some (hdr, _) =>
    if hdr.session ≠ session ∨ hdr.seqNum = 0 ∨ hdr.seqNum ≥ nextSeq then
      some []
    else
      let seq := hdr.seqNum
      let remaining := min hdr.msgCount.toUInt64 (nextSeq - seq)
      match lookup index seq with
      | none => none
      | some e =>
        match walk data (seq - e.firstSeq).toNat e.offset with
        | none => none
        | some pos => some (repack data remaining.toNat pos seq remaining)

end MoldReplay

/-! ## The main loop -/

/-- The state of the replay, with the datagrams built so far. -/
structure MoldReplay where
  index : List MoldReplay.IndexEntry := []
  seq : UInt64 := 1
  pos : ℕ := 0
  built : List (List UInt8) := []
  deriving DecidableEq, Repr

namespace MoldReplay

/-- An iteration of the main loop, unless the capture has been sent. -/
def next (data : List UInt8) (s : MoldReplay) : Option MoldReplay :=
  let b := pack data s.pos maxU64
  if b.count = 0 then none
  else some {
    index := s.index ++ [⟨s.seq, b.beginPos⟩]
    seq := s.seq + b.count.toUInt64
    pos := b.endPos
    built := s.built ++ [datagram s.seq b.count (payload data b)] }

/-- An end-of-session datagram, once the main loop is over. -/
def finish (data : List UInt8) (s : MoldReplay) : Option MoldReplay :=
  match s.next data with
  | some _ => none
  | none =>
    some { s with
      built := s.built ++ [datagram s.seq Mold.endOfSession []] }

open Mold

/-! ## Positions of messages

`data` is a capture with the complete messages `ms`.
-/

/-- The complete messages of the capture, and that the rest is cut off. -/
structure Layout (data : List UInt8) (ms : List (List UInt8)) : Prop where
  eq : ∃ tail, data = encode ms ++ tail ∧ CutOff tail
  short : ∀ m ∈ ms, m.length < 2 ^ 16

theorem layout_blocks (data : List UInt8) : Layout data (blocks data) := by
  obtain ⟨tail, hdata, htail, hall⟩ := exists_encode_blocks data
  exact ⟨⟨tail, hdata, htail⟩, hall⟩

/-- Where the message after the first `k` starts. -/
def offset (ms : List (List UInt8)) (k : ℕ) : ℕ :=
  (encode (ms.take k)).length

theorem messageSize_append (pre l : List UInt8) :
    messageSize (pre ++ l) pre.length = messageSize l 0 := by
  have hfst : (pre ++ l).getD pre.length 0 = l.getD 0 0 := by
    rw [List.getD_append_right _ _ _ _ (le_refl _), Nat.sub_self]
  have hsnd : (pre ++ l).getD (pre.length + 1) 0 = l.getD 1 0 := by
    rw [List.getD_append_right _ _ _ _ (by omega),
      Nat.add_sub_cancel_left]
  simp only [messageSize, hfst, hsnd, List.length_append, Nat.zero_add,
    gt_iff_lt, Nat.add_assoc, Nat.add_lt_add_iff_left]

theorem messageSize_zero (l : List UInt8) :
    messageSize l 0 =
      if l.length < 2 then none
      else if l.length < 2 + readLength l then none
      else some (2 + readLength l) := by
  match l with
  | [] => rfl
  | [_] => rfl
  | a :: b :: rest =>
      have hlen : a.toNat <<< 8 ||| b.toNat = readLength (a :: b :: rest) := by
        rw [← Nat.shiftLeft_add_eq_or_of_lt b.toNat_lt, Nat.shiftLeft_eq]
        simp [readLength, beValue]
      simp only [messageSize, List.getD_cons_zero, List.getD_cons_succ,
        Nat.zero_add, hlen, gt_iff_lt]

variable {data : List UInt8} {ms : List (List UInt8)}

theorem messageSize_block {m : List UInt8} (h : m.length < 2 ^ 16)
    (l : List UInt8) : messageSize (block m ++ l) 0 = some (2 + m.length) := by
  rw [messageSize_zero, readLength_block h, List.length_append, length_block,
    if_neg (by omega), if_neg (by omega)]

theorem messageSize_cutOff {tail : List UInt8} (h : CutOff tail) :
    messageSize tail 0 = none := by
  rw [messageSize_zero]
  rcases h with hshort | hcut
  · rw [if_pos hshort]
  · rw [if_pos hcut, ite_self]

theorem offset_add (ms : List (List UInt8)) (j c : ℕ) :
    offset ms (j + c) = offset ms j + (encode ((ms.drop j).take c)).length := by
  rw [offset, List.take_add, encode_append, List.length_append, offset]

theorem offset_succ {k : ℕ} (hk : k < ms.length) :
    offset ms (k + 1) = offset ms k + (2 + ms[k].length) := by
  rw [offset_add, List.drop_eq_getElem_cons hk, List.take_succ_cons,
    List.take_zero, encode_cons, encode_nil, List.append_nil, length_block]

theorem Layout.drop_offset (h : Layout data ms) (k : ℕ) :
    ∃ tail, CutOff tail ∧ data = encode (ms.take k) ++
      (encode (ms.drop k) ++ tail) := by
  obtain ⟨tail, hdata, htail⟩ := h.eq
  refine ⟨tail, htail, ?_⟩
  rw [← List.append_assoc, ← encode_append, List.take_append_drop]
  exact hdata

theorem Layout.messageSize_offset (h : Layout data ms) {k : ℕ}
    (hk : k < ms.length) :
    messageSize data (offset ms k) = some (2 + ms[k].length) := by
  obtain ⟨tail, -, hdata⟩ := h.drop_offset k
  rw [hdata, offset, messageSize_append, List.drop_eq_getElem_cons hk,
    encode_cons, List.append_assoc]
  exact messageSize_block (h.short _ (List.getElem_mem hk)) _

theorem Layout.messageSize_end (h : Layout data ms) :
    messageSize data (offset ms ms.length) = none := by
  obtain ⟨tail, htail, hdata⟩ := h.drop_offset ms.length
  rw [hdata, offset, messageSize_append, List.drop_length]
  exact messageSize_cutOff htail

/-- The walk from one message to another. -/
theorem Layout.walk_offset (h : Layout data ms) {n j : ℕ}
    (hle : j + n ≤ ms.length) :
    walk data n (offset ms j) = some (offset ms (j + n)) := by
  induction n generalizing j with
  | zero => rfl
  | succ n ih =>
      have hj : j < ms.length := by omega
      rw [walk, h.messageSize_offset hj]
      simp only
      rw [← offset_succ hj, ih (by omega)]
      congr 2
      omega

/-! ## Packing -/

/-- A batch of `c` messages, after the first `j`. -/
structure Packed (ms : List (List UInt8)) (j c : ℕ) (b : Batch) : Prop where
  beginPos : b.beginPos = offset ms j
  endPos : b.endPos = offset ms (j + c)
  count : b.count.toNat = c
  le : j + c ≤ ms.length
  lt : c < 65535

theorem toNat_endOfSession_sub : (endOfSession - 1).toNat = 65534 := by
  decide

/-- An iteration that takes a message. -/
theorem Packed.succ {j c : ℕ} {b : Batch} (h : Packed ms j c b)
    (hc : c < 65534) (hlt : j + c < ms.length) :
    Packed ms j (c + 1) { b with
      endPos := b.endPos + (2 + ms[j + c].length), count := b.count + 1 } := by
  refine ⟨h.beginPos, ?_, ?_, hlt, by omega⟩
  · rw [← Nat.add_assoc j c 1, offset_succ hlt]
    exact congrArg (· + (2 + ms[j + c].length)) h.endPos
  · change (b.count + 1).toNat = c + 1
    rw [UInt16.toNat_add, h.count]
    exact Nat.mod_eq_of_lt (by change c + 1 < 2 ^ 16; omega)

theorem Layout.packLoop_packed (h : Layout data ms) {maxCount : UInt64}
    {n j c : ℕ} {b : Batch} (hb : Packed ms j c b) (hn : c + n = 65534)
    (hmax : c ≤ maxCount.toNat) (bytes : ℕ) :
    ∃ c', c ≤ c' ∧ c' ≤ maxCount.toNat ∧
      Packed ms j c' (packLoop data maxCount n b bytes) := by
  induction n generalizing c b bytes with
  | zero => exact ⟨c, le_refl c, hmax, hb⟩
  | succ n ih =>
      rw [packLoop]
      by_cases hcount : b.count.toUInt64 < maxCount
      · rw [if_pos hcount]
        rw [UInt64.lt_iff_toNat_lt, UInt16.toNat_toUInt64, hb.count] at hcount
        by_cases hlt : j + c < ms.length
        · rw [hb.endPos, h.messageSize_offset hlt]
          simp only
          split_ifs with hfull
          · exact ⟨c, le_refl c, hmax, hb⟩
          · have hsucc := hb.succ (by omega) hlt
            rw [hb.endPos] at hsucc
            obtain ⟨c', hle, hc', hpacked⟩ :=
              ih hsucc (by omega) (by omega) _
            exact ⟨c', by omega, hc', hpacked⟩
        · have hend : j + c = ms.length := by
            have hle := hb.le
            omega
          rw [hb.endPos, hend, h.messageSize_end]
          exact ⟨c, le_refl c, hmax, hb⟩
      · rw [if_neg hcount]
        exact ⟨c, le_refl c, hmax, hb⟩

theorem Packed.nil {j : ℕ} (hj : j ≤ ms.length) :
    Packed ms j 0 ⟨offset ms j, offset ms j, 0⟩ :=
  ⟨rfl, rfl, rfl, hj, by decide⟩

/-- Packing takes at least one message and at most `maxCount`. -/
theorem Layout.pack_packed (h : Layout data ms) {j : ℕ} (hj : j < ms.length)
    (maxCount : UInt64) (hmax : 0 < maxCount.toNat) :
    ∃ c, 0 < c ∧ c ≤ maxCount.toNat ∧
      Packed ms j c (pack data (offset ms j) maxCount) := by
  have hfirst := (Packed.nil hj.le).succ (by decide) hj
  have hcount : (0 : UInt16).toUInt64 < maxCount := by
    rw [UInt64.lt_iff_toNat_lt]
    exact hmax
  rw [pack, toNat_endOfSession_sub, packLoop, if_pos hcount,
    h.messageSize_offset hj]
  simp only
  rw [if_neg (by simp)]
  exact h.packLoop_packed hfirst (by decide) hmax _

/-- Behind the last message nothing is packed. -/
theorem Layout.pack_end (h : Layout data ms) (maxCount : UInt64) :
    (pack data (offset ms ms.length) maxCount).count = 0 := by
  rw [pack, toNat_endOfSession_sub, packLoop, h.messageSize_end]
  simp only [ite_self]

theorem Layout.payload_eq (h : Layout data ms) {j c : ℕ} {b : Batch}
    (hb : Packed ms j c b) :
    payload data b = encode ((ms.drop j).take c) := by
  obtain ⟨tail, -, hdata⟩ := h.drop_offset j
  have hsplit : encode (ms.drop j) = encode ((ms.drop j).take c) ++
      encode ((ms.drop j).drop c) := by
    rw [← encode_append, List.take_append_drop]
  rw [payload, hb.beginPos, hb.endPos, offset_add, Nat.add_sub_cancel_left,
    hdata]
  rw [offset, List.drop_left, hsplit, List.append_assoc, List.take_left]

/-! ## The datagrams of a run of messages -/

/-- The datagram with `c` messages, after the first `j`. -/
def carrying (ms : List (List UInt8)) (j c : ℕ) : List UInt8 :=
  datagram (UInt64.ofNat (j + 1)) (UInt16.ofNat c)
    (encode ((ms.drop j).take c))

theorem Layout.datagram_eq (h : Layout data ms) {j c : ℕ} {b : Batch}
    {seq : UInt64} (hb : Packed ms j c b) (hseq : seq.toNat = j + 1) :
    datagram seq b.count (payload data b) = carrying ms j c := by
  rw [h.payload_eq hb, carrying, ← hseq, ← hb.count, UInt64.ofNat_toNat,
    UInt16.ofNat_toNat]

/-- Datagrams that carry, one after the other, `n` messages after the first
`j`. -/
inductive Covers (ms : List (List UInt8)) : ℕ → ℕ → List (List UInt8) → Prop
  | nil (j : ℕ) : Covers ms j 0 []
  | cons (j c n : ℕ) (ds : List (List UInt8)) (hpos : 0 < c)
      (hlt : c < 65535) (hle : j + c ≤ ms.length)
      (hrest : Covers ms (j + c) n ds) :
      Covers ms j (c + n) (carrying ms j c :: ds)

theorem Covers.eq_nil {j : ℕ} {ds : List (List UInt8)}
    (h : Covers ms j 0 ds) : ds = [] := by
  generalize hn : 0 = n at h
  cases h with
  | nil => rfl
  | cons c n ds hpos => omega

theorem toNat_add_count {seq : UInt64} {count : UInt16}
    (h : seq.toNat + count.toNat < 2 ^ 64) :
    (seq + count.toUInt64).toNat = seq.toNat + count.toNat := by
  rw [UInt64.toNat_add, UInt16.toNat_toUInt64]
  exact Nat.mod_eq_of_lt h

theorem Layout.repack_covers (h : Layout data ms)
    (hN : ms.length + 1 < 2 ^ 64) {n j : ℕ} {seq remaining : UInt64}
    (hseq : seq.toNat = j + 1) (hn : remaining.toNat ≤ n)
    (hle : j + remaining.toNat ≤ ms.length) :
    Covers ms j remaining.toNat
      (repack data n (offset ms j) seq remaining) := by
  induction n generalizing j seq remaining with
  | zero =>
      have hzero : remaining.toNat = 0 := by omega
      rw [hzero]
      exact .nil j
  | succ n ih =>
      rw [repack]
      by_cases hmore : remaining > 0
      · have hpos : 0 < remaining.toNat := UInt64.lt_iff_toNat_lt.mp hmore
        obtain ⟨c, hc, hmax, hb⟩ := h.pack_packed
          (by omega : j < ms.length) remaining hpos
        have hcount := hb.count
        have hne : (pack data (offset ms j) remaining).count ≠ 0 := by
          intro hzero
          rw [hzero] at hcount
          change 0 = c at hcount
          omega
        rw [if_pos hmore]
        simp only
        rw [if_neg hne, h.datagram_eq hb hseq, hb.endPos]
        set count := (pack data (offset ms j) remaining).count
        have hseq' : (seq + count.toUInt64).toNat = j + c + 1 := by
          rw [toNat_add_count (by omega)]
          omega
        have hsub : (remaining - count.toUInt64).toNat =
            remaining.toNat - c := by
          rw [UInt64.toNat_sub_of_le, UInt16.toNat_toUInt64, hcount]
          rw [UInt64.le_iff_toNat_le, UInt16.toNat_toUInt64]
          omega
        have hrest := @ih (j + c) (seq + count.toUInt64)
          (remaining - count.toUInt64) hseq' (by omega) (by omega)
        have hsplit : remaining.toNat =
            c + (remaining - count.toUInt64).toNat := by omega
        rw [hsplit]
        exact .cons j c _ _ hc hb.lt hb.le hrest
      · rw [if_neg hmore]
        have hzero : remaining.toNat = 0 := by
          have hle := UInt64.le_iff_toNat_le.mp (UInt64.not_lt.mp hmore)
          exact Nat.le_zero.mp hle
        rw [hzero]
        exact .nil j

/-! ## The state of the replay -/

/-- The last datagram. -/
def endDatagram (ms : List (List UInt8)) : List UInt8 :=
  datagram (UInt64.ofNat (ms.length + 1)) endOfSession []

/-- A datagram built while the first `k` messages were packed. -/
inductive Built (ms : List (List UInt8)) (k : ℕ) : List UInt8 → Prop
  | messages (j c : ℕ) (hpos : 0 < c) (hlt : c < 65535) (hle : j + c ≤ k) :
      Built ms k (carrying ms j c)
  | ended (hk : k = ms.length) : Built ms k (endDatagram ms)

/-- An index entry for one of the first `k` messages. -/
def Indexed (ms : List (List UInt8)) (k : ℕ) (e : IndexEntry) : Prop :=
  ∃ j < k, e.firstSeq.toNat = j + 1 ∧ e.offset = offset ms j

/-- The first `k` messages have been packed. -/
structure Replayed (ms : List (List UInt8)) (k : ℕ) (s : MoldReplay) :
    Prop where
  le : k ≤ ms.length
  seq : s.seq.toNat = k + 1
  pos : s.pos = offset ms k
  indexed : ∀ e ∈ s.index, Indexed ms k e
  first : 0 < k → ∃ e es, s.index = e :: es ∧ e.firstSeq = 1
  built : ∀ d ∈ s.built, Built ms k d

theorem Built.mono {k k' : ℕ} {d : List UInt8} (h : Built ms k d)
    (hle : k ≤ k') (hk' : k' ≤ ms.length) : Built ms k' d := by
  cases h with
  | messages j c hpos hlt hjc => exact .messages j c hpos hlt (by omega)
  | ended hk => exact .ended (by omega)

theorem Indexed.mono {k k' : ℕ} {e : IndexEntry} (h : Indexed ms k e)
    (hle : k ≤ k') : Indexed ms k' e := by
  obtain ⟨j, hj, hrest⟩ := h
  exact ⟨j, by omega, hrest⟩

theorem replayed_start : Replayed ms 0 {} where
  le := Nat.zero_le _
  seq := rfl
  pos := rfl
  indexed e he := by cases he
  first h := absurd h (by decide)
  built d hd := by cases hd

section Step

variable {k : ℕ} {s s' : MoldReplay}

theorem Replayed.index_nil (h : Replayed ms 0 s) : s.index = [] := by
  rw [List.eq_nil_iff_forall_not_mem]
  intro e he
  obtain ⟨j, hj, -⟩ := h.indexed e he
  exact absurd hj (Nat.not_lt_zero j)

/-- An iteration of the main loop packs more messages. -/
theorem Replayed.next (h : Replayed ms k s) (hlay : Layout data ms)
    (hN : ms.length + 1 < 2 ^ 64) (hnext : s.next data = some s') :
    ∃ k', k < k' ∧ Replayed ms k' s' := by
  have hle := h.le
  by_cases hk : k < ms.length
  · obtain ⟨c, hc, -, hb⟩ := hlay.pack_packed hk maxU64 (by decide)
    have hlast := hb.le
    unfold MoldReplay.next at hnext
    simp only [h.pos] at hnext
    split_ifs at hnext
    obtain rfl := Option.some.inj hnext
    refine ⟨k + c, by omega, hlast, ?_, hb.endPos, ?_, ?_, ?_⟩
    · have hseq := h.seq
      have hcount := hb.count
      rw [toNat_add_count (by omega)]
      omega
    · intro e he
      rcases List.mem_append.mp he with he | he
      · exact (h.indexed e he).mono (by omega)
      · obtain rfl := List.mem_singleton.mp he
        exact ⟨k, by omega, h.seq, hb.beginPos⟩
    · intro _
      rcases Nat.eq_zero_or_pos k with rfl | hpos
      · refine ⟨_, [], by rw [h.index_nil]; rfl, ?_⟩
        exact UInt64.toNat_inj.mp h.seq
      · obtain ⟨e, es, hindex, hone⟩ := h.first hpos
        exact ⟨e, es ++ _, by rw [hindex]; rfl, hone⟩
    · intro d hd
      rcases List.mem_append.mp hd with hd | hd
      · exact (h.built d hd).mono (by omega) hlast
      · obtain rfl := List.mem_singleton.mp hd
        rw [hlay.datagram_eq hb h.seq]
        exact .messages k c hc hb.lt (le_refl _)
  · obtain rfl : k = ms.length := by omega
    unfold MoldReplay.next at hnext
    simp only [h.pos, hlay.pack_end, if_true] at hnext
    cases hnext

/-- The main loop ends only when all messages have been packed. -/
theorem Replayed.of_next_none (h : Replayed ms k s) (hlay : Layout data ms)
    (hnext : s.next data = none) : k = ms.length := by
  have hle := h.le
  by_contra hne
  obtain ⟨c, hc, -, hb⟩ := hlay.pack_packed
    (by omega : k < ms.length) maxU64 (by decide)
  have hcount := hb.count
  unfold MoldReplay.next at hnext
  simp only [h.pos] at hnext
  split_ifs at hnext with hzero
  rw [hzero] at hcount
  change 0 = c at hcount
  omega

theorem Replayed.finish (h : Replayed ms k s) (hlay : Layout data ms)
    (hfinish : s.finish data = some s') : Replayed ms k s' := by
  unfold MoldReplay.finish at hfinish
  split at hfinish
  · cases hfinish
  · next hnext =>
    have hk := h.of_next_none hlay hnext
    obtain rfl := Option.some.inj hfinish
    refine ⟨h.le, h.seq, h.pos, h.indexed, h.first, ?_⟩
    intro d hd
    rcases List.mem_append.mp hd with hd | hd
    · exact h.built d hd
    · obtain rfl := List.mem_singleton.mp hd
      have hseq : s.seq = UInt64.ofNat (ms.length + 1) := by
        rw [← hk, ← h.seq, UInt64.ofNat_toNat]
      rw [hseq]
      exact .ended hk

/-! ## Requests are answered -/

/-- A message that has been packed is found in the index. -/
theorem Replayed.lookup_indexed (h : Replayed ms k s) {seq : UInt64}
    (hpos : 0 < seq.toNat) (hle : seq.toNat ≤ k) :
    ∃ e j, lookup s.index seq = some e ∧ e.firstSeq.toNat = j + 1 ∧
      j + 1 ≤ seq.toNat ∧ e.offset = offset ms j := by
  obtain ⟨first, es, hindex, hone⟩ := h.first (by omega)
  set before := s.index.takeWhile fun e => ¬seq < e.firstSeq with hbefore
  have hfirst : ¬seq < first.firstSeq := by
    rw [hone, UInt64.not_lt, UInt64.le_iff_toNat_le]
    exact hpos
  have hne : before ≠ [] := by
    rw [hbefore, hindex, List.takeWhile_cons_of_pos (by simpa using hfirst)]
    simp
  have hmem : before.getLast hne ∈ before := List.getLast_mem hne
  obtain ⟨j, -, hseq, hoffset⟩ :=
    h.indexed _ ((List.takeWhile_sublist _).subset hmem)
  have hnot : ¬seq < (before.getLast hne).firstSeq := by
    simpa using List.mem_takeWhile_imp hmem
  refine ⟨before.getLast hne, j, List.getLast?_eq_some_getLast hne, hseq, ?_,
    hoffset⟩
  rw [← hseq]
  exact UInt64.le_iff_toNat_le.mp (UInt64.not_lt.mp hnot)

/-- A request for messages that have been packed is answered with these
messages. -/
theorem Replayed.serveRequest_covers (h : Replayed ms k s)
    (hlay : Layout data ms) (hN : ms.length + 1 < 2 ^ 64) {q : Header}
    (hsession : q.session = session) (hpos : 0 < q.seqNum.toNat)
    (hcount : 0 < q.msgCount.toNat)
    (hle : q.seqNum.toNat + q.msgCount.toNat ≤ k + 1) :
    ∃ ds, serveRequest data s.index s.seq (writeHeader q) = some ds ∧
      Covers ms (q.seqNum.toNat - 1) q.msgCount.toNat ds := by
  have hk := h.le
  have hlen : q.session.length = sessionSize := by
    rw [hsession]
    rfl
  have hread : readHeader ((writeHeader q).take 64) = some (q, []) := by
    rw [List.take_of_length_le (by rw [length_writeHeader hlen]; decide),
      ← List.append_nil (writeHeader q)]
    exact readHeader_writeHeader hlen []
  have hlt : q.seqNum < s.seq := by
    rw [UInt64.lt_iff_toNat_lt, h.seq]
    omega
  have hignored : ¬(q.session ≠ session ∨ q.seqNum = 0 ∨
      q.seqNum ≥ s.seq) := by
    rintro (hne | hzero | hge)
    · exact hne hsession
    · rw [hzero] at hpos
      exact absurd hpos (by decide)
    · exact absurd hlt (UInt64.not_lt.mpr hge)
  have hmin : min q.msgCount.toUInt64 (s.seq - q.seqNum) =
      q.msgCount.toUInt64 := by
    have hroom : (s.seq - q.seqNum).toNat = k + 1 - q.seqNum.toNat := by
      rw [UInt64.toNat_sub_of_le _ _ (UInt64.le_of_lt hlt), h.seq]
    apply UInt64.toNat_inj.mp
    rw [toNat_min, hroom, UInt16.toNat_toUInt64]
    omega
  obtain ⟨e, j, hlookup, hfirst, hj, hoffset⟩ :=
    h.lookup_indexed hpos (by omega)
  have hsub : (q.seqNum - e.firstSeq).toNat = q.seqNum.toNat - 1 - j := by
    rw [UInt64.toNat_sub_of_le, hfirst]
    · omega
    · rw [UInt64.le_iff_toNat_le]
      omega
  have hwalk : walk data (q.seqNum - e.firstSeq).toNat e.offset =
      some (offset ms (q.seqNum.toNat - 1)) := by
    rw [hsub, hoffset, hlay.walk_offset (by omega)]
    congr 2
    omega
  have hcovers := @Layout.repack_covers data ms hlay hN q.msgCount.toNat
    (q.seqNum.toNat - 1) q.seqNum q.msgCount.toUInt64 (by omega)
    (by rw [UInt16.toNat_toUInt64]) (by rw [UInt16.toNat_toUInt64]; omega)
  rw [UInt16.toNat_toUInt64] at hcovers
  refine ⟨_, ?_, hcovers⟩
  rw [serveRequest, hread]
  simp only
  rw [if_neg hignored, hlookup]
  simp only
  rw [hwalk, hmin, UInt16.toNat_toUInt64]

end Step

end MoldReplay

end Fastbook

import Fastbook.Feed.BufReader
import Fastbook.Support.Cyclic
import Fastbook.Support.StreamDecoder

/-!
# The length-prefix framer

A model of `LengthPrefixFramer` (`feed/length_prefix_framer.hpp`).  The
reassembly buffer is the list of its first `leftover` bytes.  The framer checks
the remaining bytes before each read, so spans are lists of bytes here.

Feeding a stream in chunks is compared with `lengthPrefixed`, which decodes the
frames of the whole stream.
-/

namespace Fastbook

open Support

inductive StreamError where
  | malformed
  deriving DecidableEq, Repr

structure LengthPrefixFramer (mayStraddle : Bool) (maxPayload : ℕ) where
  leftover : List UInt8
  deriving DecidableEq, Repr

namespace LengthPrefixFramer

variable {mayStraddle : Bool} {maxPayload : ℕ}

def fresh : LengthPrefixFramer mayStraddle maxPayload :=
  ⟨[]⟩

/-- What `handle_leftover_bytes_` leaves behind: the message it completed, the
`malformed` flag, the rest of the data and the framer. -/
structure Leftover (mayStraddle : Bool) (maxPayload : ℕ) where
  message : Option (List UInt8)
  malformed : Bool
  data : List UInt8
  framer : LengthPrefixFramer mayStraddle maxPayload

/-- `handle_leftover_bytes_` once both bytes of the prefix are in the buffer. -/
def completeLeftover (f : LengthPrefixFramer mayStraddle maxPayload)
    (data : List UInt8) : Leftover mayStraddle maxPayload :=
  let msgSize := readLength f.leftover
  if msgSize > maxPayload then ⟨none, true, data, f⟩
  else
    let needed := subU64 (2 + msgSize) f.leftover.length
    if data.length ≥ needed then
      let buf := f.leftover ++ data.take needed
      ⟨some ((buf.drop 2).take msgSize), false, data.drop needed, ⟨[]⟩⟩
    else ⟨none, false, [], ⟨f.leftover ++ data⟩⟩

def handleLeftoverBytes (f : LengthPrefixFramer mayStraddle maxPayload)
    (data : List UInt8) : Leftover mayStraddle maxPayload :=
  if f.leftover.length < 2 then
    match data with
    | [] => ⟨none, false, [], f⟩
    | b :: data => completeLeftover ⟨f.leftover ++ [b]⟩ data
  else f.completeLeftover data

/-- The `while` loop of `feed`: the delivered messages, the result and the
buffer.  The number of remaining bytes is cut to 32 bits. -/
def feedLoop (mayStraddle : Bool) (maxPayload : ℕ) (data : List UInt8) :
    List (List UInt8) × Except StreamError Unit × List UInt8 :=
  if data = [] then ([], .ok (), [])
  else
    let rem := data.length % 2 ^ 32
    if _hrem : rem < 2 then
      if mayStraddle then ([], .ok (), data.take rem)
      else ([], .error .malformed, [])
    else
      let msgLength := readLength data
      let rest := data.drop 2
      if msgLength > maxPayload then ([], .error .malformed, [])
      else if rest.length < msgLength then
        if mayStraddle then ([], .ok (), data.take rem)
        else ([], .error .malformed, [])
      else
        let (messages, result, buf) :=
          feedLoop mayStraddle maxPayload (rest.drop msgLength)
        (rest.take msgLength :: messages, result, buf)
termination_by data.length
decreasing_by
  have hle : data.length % 2 ^ 32 ≤ data.length := Nat.mod_le _ _
  simp only [List.length_drop]
  omega

/-- `feed`: the messages handed to the sink, the result and the framer. -/
def feed (f : LengthPrefixFramer mayStraddle maxPayload) (data : List UInt8) :
    List (List UInt8) × Except StreamError Unit ×
      LengthPrefixFramer mayStraddle maxPayload :=
  if mayStraddle = true ∧ f.leftover.length > 0 then
    let l := f.handleLeftoverBytes data
    if l.malformed then ([], .error .malformed, ⟨[]⟩)
    else
      match l.message with
      | none => ([], .ok (), l.framer)
      | some message =>
        let (messages, result, buf) := feedLoop mayStraddle maxPayload l.data
        (message :: messages, result, ⟨buf⟩)
  else
    let (messages, result, buf) := feedLoop mayStraddle maxPayload data
    (messages, result, ⟨buf⟩)

/-- The chunks of a stream in order, until a feed fails: the result of every
feed, all messages and the framer. -/
def feedAll (f : LengthPrefixFramer mayStraddle maxPayload) :
    List (List UInt8) → List (Except StreamError Unit) × List (List UInt8) ×
      LengthPrefixFramer mayStraddle maxPayload
  | [] => ([], [], f)
  | chunk :: chunks =>
    match f.feed chunk with
    | (messages, .error e, f') => ([.error e], messages, f')
    | (messages, .ok (), f') =>
      let (results, messages', f'') := feedAll f' chunks
      (.ok () :: results, messages ++ messages', f'')

/-! ## The frames of a stream -/

/-- The first frame of a stream. -/
def frameStep (maxPayload : ℕ) (l : List UInt8) :
    DecodeStep (List UInt8) UInt8 :=
  if l.length < 2 then .needMore
  else if readLength l > maxPayload then .malformed 2
  else if l.length < 2 + readLength l then .needMore
  else .item ((l.drop 2).take (readLength l)) (l.drop (2 + readLength l))

theorem frameStep_item {maxPayload : ℕ} {l a rest : List UInt8}
    (h : frameStep maxPayload l = .item a rest) :
    2 ≤ l.length ∧ readLength l ≤ maxPayload ∧ 2 + readLength l ≤ l.length ∧
      a = (l.drop 2).take (readLength l) ∧ rest = l.drop (2 + readLength l) := by
  unfold frameStep at h
  split_ifs at h with h₁ h₂ h₃
  cases h
  exact ⟨by omega, by omega, by omega, rfl, rfl⟩

theorem frameStep_malformed {maxPayload n : ℕ} {l : List UInt8}
    (h : frameStep maxPayload l = .malformed n) :
    2 ≤ l.length ∧ maxPayload < readLength l ∧ n = 2 := by
  unfold frameStep at h
  split_ifs at h with h₁ h₂ h₃
  cases h
  exact ⟨by omega, h₂, rfl⟩

theorem frameStep_needMore {maxPayload : ℕ} {l : List UInt8}
    (h : frameStep maxPayload l = .needMore) :
    l.length < 2 ∨
      (2 ≤ l.length ∧ readLength l ≤ maxPayload ∧
        l.length < 2 + readLength l) := by
  unfold frameStep at h
  split_ifs at h with h₁ h₂ h₃
  · exact Or.inl h₁
  · exact Or.inr ⟨by omega, by omega, h₃⟩

/-- The stream of frames with a two-byte big-endian length prefix. -/
def lengthPrefixed (maxPayload : ℕ) : Decoder (List UInt8) UInt8 where
  step := frameStep maxPayload
  shrinks := by
    intro l a rest h
    obtain ⟨h₁, -, h₃, -, rfl⟩ := frameStep_item h
    rw [List.length_drop]
    omega
  item_append := by
    intro l a rest l' h
    obtain ⟨h₁, h₂, h₃, rfl, rfl⟩ := frameStep_item h
    have hlen := readLength_append h₁ l'
    rw [frameStep, hlen, List.length_append, if_neg (by omega),
      if_neg (by omega), if_neg (by omega), List.drop_append_of_le_length h₁,
      List.drop_append_of_le_length h₃, List.take_append_of_le_length]
    rw [List.length_drop]
    omega
  malformed_append := by
    intro l n l' h
    obtain ⟨h₁, h₂, rfl⟩ := frameStep_malformed h
    rw [frameStep, readLength_append h₁ l', List.length_append,
      if_neg (by omega), if_pos h₂]
  malformed_le := by
    intro l n h
    obtain ⟨h₁, -, rfl⟩ := frameStep_malformed h
    exact h₁
  needMore_item := by
    intro l l' a rest hmore h
    obtain ⟨h₁, h₂, h₃, -, rfl⟩ := frameStep_item h
    rw [List.length_append] at h₁ h₃
    rw [List.length_drop, List.length_append]
    rcases frameStep_needMore hmore with hshort | ⟨hlong, -, hlt⟩
    · omega
    · rw [readLength_append hlong] at h₃ ⊢
      omega
  needMore_malformed := by
    intro l l' n hmore h
    obtain ⟨h₁, h₂, rfl⟩ := frameStep_malformed h
    rcases frameStep_needMore hmore with hshort | ⟨hlong, hle, -⟩
    · exact hshort
    · rw [readLength_append hlong] at h₂
      omega

/-! ## One feed -/

/-- The outcome of a feed, read off the decoded frames. -/
def outcome :
    List (List UInt8) × DecodeEnd UInt8 →
      List (List UInt8) × Except StreamError Unit × List UInt8
  | (messages, .rest s) => (messages, .ok (), s)
  | (messages, .malformed _) => (messages, .error .malformed, [])

theorem outcome_cons {k : ℕ} (m : List UInt8)
    (r : List (List UInt8) × DecodeEnd UInt8) :
    outcome (m :: r.1, r.2.shift k) =
      (m :: (outcome r).1, (outcome r).2) := by
  obtain ⟨messages, e⟩ := r
  cases e <;> rfl

theorem feedLoop_eq {data : List UInt8} (h : data.length < 2 ^ 32) :
    feedLoop true maxPayload data =
      outcome ((lengthPrefixed maxPayload).decode data) := by
  induction data using (lengthPrefixed maxPayload).decode_induction with
  | item l a rest hstep ih =>
      rw [Decoder.decode_of_item hstep, outcome_cons]
      obtain ⟨h₁, h₂, h₃, rfl, rfl⟩ := frameStep_item hstep
      have hrem : l.length % 2 ^ 32 = l.length := Nat.mod_eq_of_lt h
      have hne : l ≠ [] := by
        rintro rfl
        simp at h₁
      have hrest := ih (by rw [List.length_drop]; omega)
      rw [feedLoop, if_neg hne]
      simp only [hrem]
      rw [dif_neg (by omega), if_neg (by omega),
        if_neg (by rw [List.length_drop]; omega), List.drop_drop, hrest]
  | needMore l hstep =>
      rw [Decoder.decode_of_needMore hstep]
      have hrem : l.length % 2 ^ 32 = l.length := Nat.mod_eq_of_lt h
      rw [feedLoop]
      by_cases hnil : l = []
      · rw [if_pos hnil, hnil]
        rfl
      · rw [if_neg hnil]
        simp only [hrem, List.take_length, if_true]
        rcases frameStep_needMore hstep with hshort | ⟨hlong, hle, hlt⟩
        · rw [dif_pos hshort]
          rfl
        · rw [dif_neg (by omega), if_neg (by omega),
            if_pos (by rw [List.length_drop]; omega)]
          rfl
  | malformed l n hstep =>
      rw [Decoder.decode_of_malformed hstep]
      obtain ⟨h₁, h₂, rfl⟩ := frameStep_malformed hstep
      have hrem : l.length % 2 ^ 32 = l.length := Nat.mod_eq_of_lt h
      have hne : l ≠ [] := by
        rintro rfl
        simp at h₁
      rw [feedLoop, if_neg hne]
      simp only [hrem]
      rw [dif_neg (by omega), if_pos h₂]
      rfl

/-- The part of `feed` after `handle_leftover_bytes_`. -/
def afterLeftover (l : Leftover true maxPayload) :
    List (List UInt8) × Except StreamError Unit × List UInt8 :=
  if l.malformed then ([], .error .malformed, [])
  else
    match l.message with
    | none => ([], .ok (), l.framer.leftover)
    | some message =>
      let (messages, result, buf) := feedLoop true maxPayload l.data
      (message :: messages, result, buf)

/-- Once the prefix is in the buffer, the leftover bytes followed by the data
are decoded. -/
theorem completeLeftover_eq (maxPayload : ℕ) (s data : List UInt8)
    (h₂ : 2 ≤ s.length)
    (hs : readLength s ≤ maxPayload → s.length ≤ 2 + readLength s)
    (hdata : data.length < 2 ^ 32) :
    afterLeftover (completeLeftover
        (⟨s⟩ : LengthPrefixFramer true maxPayload) data) =
      outcome ((lengthPrefixed maxPayload).decode (s ++ data)) := by
  have hlen := readLength_append h₂ data
  have hlt := readLength_lt s
  by_cases hbig : readLength s > maxPayload
  · have hstep : (lengthPrefixed maxPayload).step (s ++ data) =
        .malformed 2 := by
      change frameStep maxPayload (s ++ data) = _
      rw [frameStep, hlen, List.length_append, if_neg (by omega), if_pos hbig]
    rw [Decoder.decode_of_malformed hstep]
    simp [completeLeftover, hbig, afterLeftover, outcome]
  · have hle := hs (by omega)
    have hneeded : subU64 (2 + readLength s) s.length =
        2 + readLength s - s.length := subU64_of_le hle (by omega)
    by_cases hroom : data.length ≥ 2 + readLength s - s.length
    · have hdrop : (s ++ data).drop (2 + readLength s) =
          data.drop (2 + readLength s - s.length) := by
        rw [List.drop_append, List.drop_eq_nil_of_le hle, List.nil_append]
      have hstep : (lengthPrefixed maxPayload).step (s ++ data) =
          .item (((s ++ data).drop 2).take (readLength s))
            (data.drop (2 + readLength s - s.length)) := by
        change frameStep maxPayload (s ++ data) = _
        rw [frameStep, hlen, List.length_append, if_neg (by omega),
          if_neg hbig, if_neg (by omega), hdrop]
      rw [Decoder.decode_of_item hstep, outcome_cons, ← feedLoop_eq (by
        rw [List.length_drop]
        omega)]
      have hmsg : ((s ++ data.take (2 + readLength s - s.length)).drop 2).take
          (readLength s) = ((s ++ data).drop 2).take (readLength s) := by
        rw [List.take_drop, List.take_drop]
        congr 1
        rw [List.take_append, List.take_append, List.take_take]
        congr 2
        omega
      simp [completeLeftover, hbig, hneeded, hroom, afterLeftover, hmsg]
    · have hstep : (lengthPrefixed maxPayload).step (s ++ data) =
          .needMore := by
        change frameStep maxPayload (s ++ data) = _
        rw [frameStep, hlen, List.length_append, if_neg (by omega),
          if_neg hbig, if_pos (by omega)]
      rw [Decoder.decode_of_needMore hstep]
      simp [completeLeftover, hbig, hneeded, hroom, afterLeftover, outcome]

theorem feed_leftover_eq {s data : List UInt8} (hs : s ≠ []) :
    feed (⟨s⟩ : LengthPrefixFramer true maxPayload) data =
      let r := afterLeftover (handleLeftoverBytes
        (⟨s⟩ : LengthPrefixFramer true maxPayload) data)
      (r.1, r.2.1, ⟨r.2.2⟩) := by
  have hpos : s.length > 0 := List.length_pos_iff.mpr hs
  simp only [feed, true_and, if_pos hpos, afterLeftover]
  split
  · rfl
  · split <;> rfl

/-- One feed: the leftover bytes followed by the chunk are decoded. -/
theorem feed_eq {s chunk : List UInt8}
    (hs : (lengthPrefixed maxPayload).step s = .needMore)
    (hchunk : chunk.length < 2 ^ 32) :
    feed (⟨s⟩ : LengthPrefixFramer true maxPayload) chunk =
      let r := outcome ((lengthPrefixed maxPayload).decode (s ++ chunk))
      (r.1, r.2.1, ⟨r.2.2⟩) := by
  by_cases hnil : s = []
  · subst hnil
    simp [feed, feedLoop_eq hchunk]
  · rw [feed_leftover_eq hnil]
    have hcases := frameStep_needMore hs
    by_cases hshort : s.length < 2
    · cases chunk with
      | nil =>
          rw [List.append_nil, Decoder.decode_of_needMore hs]
          simp [handleLeftoverBytes, hshort, afterLeftover, outcome]
      | cons b chunk =>
          have hone : s.length = 1 := by
            have hpos : s.length > 0 := List.length_pos_iff.mpr hnil
            omega
          have hcomplete := completeLeftover_eq maxPayload (s ++ [b]) chunk
            (by simp [hone])
            (fun _ => by
              rw [List.length_append, List.length_singleton, hone]
              omega) (by
              rw [List.length_cons] at hchunk
              omega)
          rw [List.append_assoc, List.singleton_append] at hcomplete
          simp only [handleLeftoverBytes, hshort, if_true, hcomplete]
    · obtain ⟨h₂, hle, hlt⟩ := hcases.resolve_left hshort
      have hcomplete := completeLeftover_eq maxPayload s chunk h₂
        (fun _ => by omega) hchunk
      simp only [handleLeftoverBytes, hshort, if_false, hcomplete]

/-! ## A stream in chunks -/

theorem feedAll_of_rest {s : List UInt8} {chunks : List (List UInt8)}
    (hs : (lengthPrefixed maxPayload).step s = .needMore)
    (hchunks : ∀ c ∈ chunks, c.length < 2 ^ 32)
    {messages : List (List UInt8)} {rest : List UInt8}
    (h : (lengthPrefixed maxPayload).decode (s ++ chunks.flatten) =
      (messages, .rest rest)) :
    feedAll (⟨s⟩ : LengthPrefixFramer true maxPayload) chunks =
      (List.replicate chunks.length (.ok ()), messages, ⟨rest⟩) := by
  induction chunks generalizing s messages with
  | nil =>
      rw [List.flatten_nil, List.append_nil, Decoder.decode_of_needMore hs] at h
      cases h
      rfl
  | cons c cs ih =>
      have hfeed := feed_eq hs (hchunks c (by simp))
      rw [List.flatten_cons, ← List.append_assoc] at h
      cases hfirst : (lengthPrefixed maxPayload).decode (s ++ c) with
      | mk first e =>
          cases e with
          | malformed n =>
              rw [Decoder.decode_append_of_malformed hfirst] at h
              cases h
          | rest s' =>
              obtain ⟨hmore, -⟩ := Decoder.step_of_decode_rest hfirst
              rw [Decoder.decode_append_of_rest hfirst] at h
              cases hlast : (lengthPrefixed maxPayload).decode
                  (s' ++ cs.flatten) with
              | mk last e' =>
                  rw [hlast] at h
                  cases e' with
                  | malformed n => cases h
                  | rest s'' =>
                      cases h
                      have hrest := ih hmore
                        (fun c' hc' => hchunks c' (by simp [hc'])) hlast
                      rw [hfirst] at hfeed
                      simp [feedAll, hfeed, outcome, hrest, List.replicate_succ]

theorem feedAll_of_malformed {s : List UInt8} {chunks : List (List UInt8)}
    (hs : (lengthPrefixed maxPayload).step s = .needMore)
    (hchunks : ∀ c ∈ chunks, c.length < 2 ^ 32)
    {messages : List (List UInt8)} {n : ℕ}
    (h : (lengthPrefixed maxPayload).decode (s ++ chunks.flatten) =
      (messages, .malformed n)) :
    ∃ before c after, chunks = before ++ c :: after ∧
      s.length + before.flatten.length < n ∧
      n ≤ s.length + before.flatten.length + c.length ∧
      feedAll (⟨s⟩ : LengthPrefixFramer true maxPayload) chunks =
        (List.replicate before.length (.ok ()) ++ [.error .malformed],
          messages, ⟨[]⟩) := by
  induction chunks generalizing s messages n with
  | nil =>
      rw [List.flatten_nil, List.append_nil, Decoder.decode_of_needMore hs] at h
      cases h
  | cons c cs ih =>
      have hfeed := feed_eq hs (hchunks c (by simp))
      rw [List.flatten_cons, ← List.append_assoc] at h
      cases hfirst : (lengthPrefixed maxPayload).decode (s ++ c) with
      | mk first e =>
          rw [hfirst] at hfeed
          cases e with
          | malformed k =>
              rw [Decoder.decode_append_of_malformed hfirst] at h
              cases h
              have hle := Decoder.malformed_le_of_decode hfirst
              have hlt := Decoder.lt_of_decode_malformed hs hfirst
              rw [List.length_append] at hle
              refine ⟨[], c, cs, rfl, by simpa using hlt, by simpa using hle, ?_⟩
              simp [feedAll, hfeed, outcome]
          | rest s' =>
              obtain ⟨hmore, hlen⟩ := Decoder.step_of_decode_rest hfirst
              rw [Decoder.decode_append_of_rest hfirst] at h
              cases hlast : (lengthPrefixed maxPayload).decode
                  (s' ++ cs.flatten) with
              | mk last e' =>
                  rw [hlast] at h
                  cases e' with
                  | rest s'' => cases h
                  | malformed k =>
                      cases h
                      obtain ⟨before, c', after, rfl, hlt, hle, hall⟩ := ih hmore
                        (fun c' hc' => hchunks c' (by simp [hc'])) hlast
                      rw [List.length_append] at hlen
                      refine ⟨c :: before, c', after, rfl, ?_, ?_, ?_⟩
                      · simp only [List.flatten_cons, List.length_append]
                        omega
                      · simp only [List.flatten_cons, List.length_append]
                        omega
                      · simp [feedAll, hfeed, outcome, hall,
                          List.replicate_succ]

/-- Bytes that are no whole frame fit the reassembly buffer. -/
theorem length_le_of_needMore {s : List UInt8}
    (hs : (lengthPrefixed maxPayload).step s = .needMore) :
    s.length ≤ maxPayload + 2 := by
  rcases frameStep_needMore hs with hshort | ⟨-, hle, hlt⟩
  · omega
  · omega

/-- However a byte string is cut into chunks, the framer delivers its frames.

Without an oversized frame every feed succeeds and after every chunk the buffer
holds the incomplete suffix of the bytes so far.  With one, whose prefix ends
at byte `n`, the feed of the chunk with that byte fails and the feeds before it
succeed. -/
theorem feedAll_eq_frames (maxPayload : ℕ) (chunks : List (List UInt8))
    (hchunks : ∀ c ∈ chunks, c.length < 2 ^ 32) :
    match (lengthPrefixed maxPayload).decode chunks.flatten with
    | (messages, .rest suffix) =>
      feedAll (fresh : LengthPrefixFramer true maxPayload) chunks =
        (List.replicate chunks.length (.ok ()), messages, ⟨suffix⟩) ∧
      ∀ before after, chunks = before ++ after → ∃ messages' suffix',
        (lengthPrefixed maxPayload).decode before.flatten =
          (messages', .rest suffix') ∧
        feedAll (fresh : LengthPrefixFramer true maxPayload) before =
          (List.replicate before.length (.ok ()), messages', ⟨suffix'⟩) ∧
        suffix'.length ≤ maxPayload + 2
    | (messages, .malformed n) =>
      ∃ before c after, chunks = before ++ c :: after ∧
        before.flatten.length < n ∧ n ≤ before.flatten.length + c.length ∧
        feedAll (fresh : LengthPrefixFramer true maxPayload) chunks =
          (List.replicate before.length (.ok ()) ++ [.error .malformed],
            messages, ⟨[]⟩) := by
  have hnil : (lengthPrefixed maxPayload).step [] = .needMore := rfl
  split
  · next messages suffix h =>
    refine ⟨feedAll_of_rest hnil hchunks h, ?_⟩
    rintro before after rfl
    cases hbefore : (lengthPrefixed maxPayload).decode before.flatten with
    | mk messages' e =>
        cases e with
        | malformed n =>
            rw [List.flatten_append,
              Decoder.decode_append_of_malformed hbefore] at h
            cases h
        | rest suffix' =>
            refine ⟨messages', suffix', rfl, feedAll_of_rest hnil
              (fun c hc => hchunks c (by simp [hc])) hbefore, ?_⟩
            exact length_le_of_needMore
              (Decoder.step_of_decode_rest hbefore).1
  · next messages n h =>
    obtain ⟨before, c, after, hsplit, hlt, hle, hall⟩ :=
      feedAll_of_malformed hnil hchunks h
    exact ⟨before, c, after, hsplit, by simpa using hlt, by simpa using hle,
      hall⟩

/-- A frame of two bytes and an empty frame, cut inside their prefixes, and the
prefix of a frame of five bytes, which is too large. -/
def sampleChunks : List (List UInt8) :=
  [[0], [2, 7], [8, 0], [], [0, 0], [5, 1]]

theorem feedAll_eq_frames_sample :
    (∀ c ∈ sampleChunks, c.length < 2 ^ 32) ∧
    match (lengthPrefixed 4).decode sampleChunks.flatten with
    | (messages, .rest suffix) =>
      feedAll (fresh : LengthPrefixFramer true 4) sampleChunks =
        (List.replicate sampleChunks.length (.ok ()), messages, ⟨suffix⟩) ∧
      ∀ before after, sampleChunks = before ++ after → ∃ messages' suffix',
        (lengthPrefixed 4).decode before.flatten =
          (messages', .rest suffix') ∧
        feedAll (fresh : LengthPrefixFramer true 4) before =
          (List.replicate before.length (.ok ()), messages', ⟨suffix'⟩) ∧
        suffix'.length ≤ 4 + 2
    | (messages, .malformed n) =>
      ∃ before c after, sampleChunks = before ++ c :: after ∧
        before.flatten.length < n ∧ n ≤ before.flatten.length + c.length ∧
        feedAll (fresh : LengthPrefixFramer true 4) sampleChunks =
          (List.replicate before.length (.ok ()) ++ [.error .malformed],
            messages, ⟨[]⟩) :=
  ⟨by decide, feedAll_eq_frames 4 sampleChunks (by decide)⟩

end LengthPrefixFramer

end Fastbook

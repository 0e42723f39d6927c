import Fastbook.Feed.MoldUdp64

/-!
# Writing message blocks and headers

A model of `BufWriter::write_num_be` (`feed/buf_writer.hpp`) and
`mold::write_header` (`feed/mold_udp64.hpp`), and of the layout that captures
and datagrams share: message blocks, each a two-byte length and the message,
one after the other.

Every byte string is the blocks of its complete messages, followed by bytes
that are no complete block.
-/

namespace Fastbook

/-- `write_num_be` of an unsigned number of `k` bytes. -/
def beBytes : ℕ → ℕ → List UInt8
  | 0, _ => []
  | k + 1, n => beBytes k (n / 256) ++ [UInt8.ofNat n]

theorem length_beBytes (k n : ℕ) : (beBytes k n).length = k := by
  induction k generalizing n with
  | zero => rfl
  | succ k ih => simp [beBytes, ih]

theorem beValue_concat (l : List UInt8) (b : UInt8) :
    beValue (l ++ [b]) = beValue l * 256 + b.toNat := by
  simp [beValue, List.foldl_append]

theorem beValue_beBytes {k n : ℕ} (h : n < 256 ^ k) :
    beValue (beBytes k n) = n := by
  induction k generalizing n with
  | zero =>
      obtain rfl : n = 0 := by simpa using h
      rfl
  | succ k ih =>
      have hdiv : n / 256 < 256 ^ k := by
        rw [Nat.div_lt_iff_lt_mul (by decide)]
        exact h
      rw [beBytes, beValue_concat, ih hdiv, UInt8.toNat_ofNat']
      omega

theorem beBytes_beValue (l : List UInt8) :
    beBytes l.length (beValue l) = l := by
  induction l using List.reverseRecOn with
  | nil => rfl
  | append_singleton l b ih =>
      have hb := b.toNat_lt
      have hdiv : (beValue l * 256 + b.toNat) / 256 = beValue l := by omega
      have hlast : UInt8.ofNat (beValue l * 256 + b.toNat) = b := by
        apply UInt8.toNat_inj.mp
        rw [UInt8.toNat_ofNat']
        omega
      rw [List.length_append, List.length_singleton, beBytes, beValue_concat,
        hdiv, ih, hlast]

namespace Mold

/-! ## Headers -/

def writeHeader (hdr : Header) : List UInt8 :=
  hdr.session ++ beBytes 8 hdr.seqNum.toNat ++ beBytes 2 hdr.msgCount.toNat

theorem length_writeHeader {hdr : Header}
    (h : hdr.session.length = sessionSize) :
    (writeHeader hdr).length = headerSize := by
  simp [writeHeader, length_beBytes, h, sessionSize, headerSize]

/-- A header is read back as it was written. -/
theorem readHeader_writeHeader {hdr : Header}
    (h : hdr.session.length = sessionSize) (body : List UInt8) :
    readHeader (writeHeader hdr ++ body) = some (hdr, body) := by
  have hlen := length_writeHeader h
  have h₁₀ : hdr.session.length = 10 := h
  have hseq : (writeHeader hdr ++ body).drop 10 =
      beBytes 8 hdr.seqNum.toNat ++
        (beBytes 2 hdr.msgCount.toNat ++ body) := by
    rw [writeHeader, List.append_assoc, List.append_assoc]
    exact List.drop_left' h₁₀
  have hcount : (writeHeader hdr ++ body).drop 18 =
      beBytes 2 hdr.msgCount.toNat ++ body := by
    have hdrop : (writeHeader hdr ++ body).drop 18 =
        ((writeHeader hdr ++ body).drop 10).drop 8 := by
      rw [List.drop_drop]
    rw [hdrop, hseq]
    exact List.drop_left' (length_beBytes 8 _)
  have hrest : (writeHeader hdr ++ body).drop headerSize = body :=
    List.drop_left' hlen
  have hsession : (writeHeader hdr ++ body).take sessionSize =
      hdr.session := by
    rw [writeHeader, List.append_assoc, List.append_assoc]
    exact List.take_left' h
  rw [readHeader, if_neg (by rw [List.length_append]; omega), hsession, hseq,
    hcount, hrest, List.take_left' (length_beBytes 8 _),
    List.take_left' (length_beBytes 2 _), beValue_beBytes, beValue_beBytes]
  · simp
  · exact hdr.msgCount.toNat_lt
  · exact hdr.seqNum.toNat_lt

/-- A header whose datagram has been cut off. -/
theorem readHeader_take {hdr : Header} (h : hdr.session.length = sessionSize)
    {body body' : List UInt8} {hdr' : Header} {n : ℕ}
    (hread : readHeader ((writeHeader hdr ++ body).take n) =
      some (hdr', body')) :
    hdr' = hdr ∧ body' = body.take (n - headerSize) := by
  have hlen := length_writeHeader h
  by_cases hn : n < headerSize
  · have hshort : ((writeHeader hdr ++ body).take n).length < headerSize :=
      lt_of_le_of_lt (List.length_take_le _ _) hn
    rw [readHeader, if_pos hshort] at hread
    cases hread
  · rw [List.take_append, List.take_of_length_le (by omega), hlen,
      readHeader_writeHeader h] at hread
    cases hread
    exact ⟨rfl, rfl⟩

/-! ## Blocks -/

/-- The block of a message: its length and its bytes. -/
def block (message : List UInt8) : List UInt8 :=
  beBytes 2 message.length ++ message

/-- The blocks of messages, back to back. -/
def encode (messages : List (List UInt8)) : List UInt8 :=
  messages.flatMap block

theorem length_block (message : List UInt8) :
    (block message).length = 2 + message.length := by
  simp [block, length_beBytes]

@[simp] theorem encode_nil : encode [] = [] :=
  rfl

@[simp] theorem encode_cons (m : List UInt8) (ms : List (List UInt8)) :
    encode (m :: ms) = block m ++ encode ms :=
  rfl

theorem encode_append (ms ms' : List (List UInt8)) :
    encode (ms ++ ms') = encode ms ++ encode ms' :=
  List.flatMap_append

theorem readLength_block {m : List UInt8} (h : m.length < 2 ^ 16)
    (l : List UInt8) : readLength (block m ++ l) = m.length := by
  rw [readLength, block, List.append_assoc,
    List.take_left' (length_beBytes 2 _)]
  exact beValue_beBytes h

theorem drop_block (m l : List UInt8) : (block m ++ l).drop 2 = m ++ l := by
  rw [block, List.append_assoc]
  exact List.drop_left' (length_beBytes 2 _)

theorem blocks_block_append {m : List UInt8} (h : m.length < 2 ^ 16)
    (l : List UInt8) : blocks (block m ++ l) = m :: blocks l := by
  rw [blocks_of_block, readLength_block h, drop_block, List.take_left,
    List.drop_left]
  · rw [List.length_append, length_block]
    omega
  · rw [readLength_block h, drop_block, List.length_append]
    omega

theorem blocks_encode_append {ms : List (List UInt8)}
    (h : ∀ m ∈ ms, m.length < 2 ^ 16) (l : List UInt8) :
    blocks (encode ms ++ l) = ms ++ blocks l := by
  induction ms with
  | nil => rfl
  | cons m ms ih =>
      obtain ⟨hm, hms⟩ := List.forall_mem_cons.mp h
      rw [encode_cons, List.append_assoc, blocks_block_append hm, ih hms,
        List.cons_append]

/-- Bytes that are no complete block. -/
def CutOff (tail : List UInt8) : Prop :=
  tail.length < 2 ∨ tail.length < 2 + readLength tail

open LengthPrefixFramer in
theorem blocks_of_cutOff {tail : List UInt8} (h : CutOff tail) :
    blocks tail = [] := by
  have hlt := readLength_lt tail
  have hstep : (lengthPrefixed 65535).step tail = .needMore := by
    change frameStep 65535 tail = _
    rw [frameStep]
    rcases h with hshort | hcut
    · rw [if_pos hshort]
    · split_ifs
      · rfl
      · omega
      · rfl
  rw [blocks, Support.Decoder.decode_of_needMore hstep]

/-- Bytes that are not cut off start with a block. -/
theorem exists_block {data : List UInt8} (h : ¬CutOff data) :
    ∃ m rest, data = block m ++ rest ∧ m.length < 2 ^ 16 := by
  obtain ⟨h₂, hlen⟩ := not_or.mp h
  have htwo : (data.take 2).length = 2 := by
    rw [List.length_take]
    omega
  have hm : ((data.drop 2).take (readLength data)).length =
      readLength data := by
    rw [List.length_take, List.length_drop]
    omega
  have hlength := beBytes_beValue (data.take 2)
  rw [htwo] at hlength
  refine ⟨(data.drop 2).take (readLength data),
    (data.drop 2).drop (readLength data), ?_, ?_⟩
  · rw [block, hm, readLength, hlength, List.append_assoc,
      List.take_append_drop, List.take_append_drop]
  · rw [hm]
    exact readLength_lt data

/-- A byte string is the blocks of its complete messages and a cut-off
tail. -/
theorem exists_encode_blocks (data : List UInt8) :
    ∃ tail, data = encode (blocks data) ++ tail ∧ CutOff tail ∧
      ∀ m ∈ blocks data, m.length < 2 ^ 16 := by
  induction hn : data.length using Nat.strongRecOn generalizing data with
  | _ n ih =>
      by_cases hcut : CutOff data
      · rw [blocks_of_cutOff hcut]
        exact ⟨data, rfl, hcut, List.forall_mem_nil _⟩
      · obtain ⟨m, rest, rfl, hm⟩ := exists_block hcut
        rw [List.length_append, length_block] at hn
        obtain ⟨tail, hrest, htail, hall⟩ := ih rest.length (by omega) rest rfl
        rw [blocks_block_append hm]
        refine ⟨tail, ?_, htail, List.forall_mem_cons.mpr ⟨hm, hall⟩⟩
        rw [encode_cons, List.append_assoc, ← hrest]

/-- The blocks of a byte string that has been cut off are the first ones. -/
theorem blocks_take_prefix (data : List UInt8) (n : ℕ) :
    blocks (data.take n) <+: blocks data := by
  obtain ⟨tail, hdata, -, hall⟩ := exists_encode_blocks (data.take n)
  refine ⟨blocks (tail ++ data.drop n), ?_⟩
  rw [← blocks_encode_append hall, ← List.append_assoc, ← hdata,
    List.take_append_drop]

end Mold

end Fastbook

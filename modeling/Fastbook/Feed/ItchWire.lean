import Fastbook.Feed.ItchParser
import Fastbook.Feed.MessageBlocks

/-!
# The ITCH wire format

The seven messages as they are laid out on the wire, after the encoders of
`data/generate_sample.py`: the type byte, the header with its six-byte
timestamp, and the fields of the type, all numbers big-endian.  The parser
inverts this encoding.

`Decodes p bytes a` says that the reader program `p`, run where the memory goes
on with `bytes`, returns `a` and moves behind them.
-/

namespace Fastbook

/-! ## Programs that decode -/

/-- The memory goes on with `bytes` from where the reader is. -/
def BufReader.Ahead (r : BufReader) (bytes : List UInt8) : Prop :=
  ∀ i b, bytes[i]? = some b → r.mem (r.pos + i) = b

def Decodes {α : Type} (p : Reading α) (bytes : List UInt8) (a : α) : Prop :=
  ∀ r : BufReader, r.Ahead bytes →
    (p r).1 = a ∧ (p r).2.mem = r.mem ∧ (p r).2.pos = r.pos + bytes.length

namespace Decodes

variable {α β : Type}

theorem pure (a : α) : Decodes (Pure.pure a) [] a := by
  intro r _
  exact ⟨rfl, rfl, rfl⟩

theorem bind {p : Reading α} {f : α → Reading β} {bytes bytes' : List UInt8}
    {a : α} {b : β} (hp : Decodes p bytes a) (hf : Decodes (f a) bytes' b) :
    Decodes (p >>= f) (bytes ++ bytes') b := by
  intro r hr
  have hrun : (p >>= f) r = f (p r).1 (p r).2 := rfl
  obtain ⟨hval, hmem, hpos⟩ := hp r fun i c hi =>
    hr i c (by
      rw [List.getElem?_append_left (List.getElem?_eq_some_iff.mp hi).1, hi])
  have hnext : (p r).2.Ahead bytes' := by
    intro i c hi
    have hbehind := hr (bytes.length + i) c (by
      rw [List.getElem?_append_right (Nat.le_add_right _ _),
        Nat.add_sub_cancel_left, hi])
    rw [hmem, hpos, Nat.add_assoc]
    exact hbehind
  obtain ⟨hval', hmem', hpos'⟩ := hf (p r).2 hnext
  rw [hrun, hval]
  refine ⟨hval', hmem'.trans hmem, ?_⟩
  rw [hpos', hpos, List.length_append, Nat.add_assoc]

/-- The last read of a program. -/
theorem last {p : Reading α} {g : α → β} {bytes : List UInt8} {a : α}
    (hp : Decodes p bytes a) :
    Decodes (p >>= fun a => Pure.pure (g a)) bytes (g a) := by
  have hdec := hp.bind (f := fun a => Pure.pure (g a)) (pure (g a))
  rwa [List.append_nil] at hdec

theorem copy (bytes : List UInt8) :
    Decodes (BufReader.copy bytes.length) bytes bytes := by
  intro r hr
  refine ⟨?_, rfl, rfl⟩
  apply List.ext_getElem
  · simp [BufReader.copy]
  · intro i _ hi
    simp only [BufReader.copy, List.getElem_map, List.getElem_range]
    exact hr i _ (List.getElem?_eq_getElem hi)

/-- A number computed from one copied field. -/
theorem number {k : ℕ} {bytes : List UInt8} (h : bytes.length = k)
    (f : List UInt8 → α) :
    Decodes (do let bytes ← BufReader.copy k; return f bytes) bytes
      (f bytes) := by
  subst h
  exact (copy bytes).last

theorem readU8 (b : UInt8) : Decodes BufReader.readU8 [b] b := by
  have hlength : [b].length = 1 := rfl
  have hdec := number hlength
    fun bytes => UInt8.ofNat (beValue bytes)
  have hval : beValue [b] = b.toNat := by
    simp [beValue]
  rwa [hval, UInt8.ofNat_toNat] at hdec

theorem readU16 (n : UInt16) :
    Decodes BufReader.readU16 (beBytes 2 n.toNat) n := by
  have hdec := number (length_beBytes 2 n.toNat)
    fun bytes => UInt16.ofNat (beValue bytes)
  rw [beValue_beBytes n.toNat_lt, UInt16.ofNat_toNat] at hdec
  exact hdec

theorem readU32 (n : UInt32) :
    Decodes BufReader.readU32 (beBytes 4 n.toNat) n := by
  have hdec := number (length_beBytes 4 n.toNat)
    fun bytes => UInt32.ofNat (beValue bytes)
  rw [beValue_beBytes n.toNat_lt, UInt32.ofNat_toNat] at hdec
  exact hdec

theorem readU64 (n : UInt64) :
    Decodes BufReader.readU64 (beBytes 8 n.toNat) n := by
  have hdec := number (length_beBytes 8 n.toNat)
    fun bytes => UInt64.ofNat (beValue bytes)
  rw [beValue_beBytes n.toNat_lt, UInt64.ofNat_toNat] at hdec
  exact hdec

theorem readTimestamp (n : Fin (2 ^ 48)) :
    Decodes BufReader.readTimestamp (beBytes 6 n) (UInt64.ofNat n) := by
  have hdec := number (length_beBytes 6 n)
    fun bytes => UInt64.ofNat (beValue bytes)
  rwa [beValue_beBytes n.isLt] at hdec

theorem readChars {k : ℕ} (chars : Vector UInt8 k) :
    Decodes (BufReader.readChars k) chars.toList chars.toList := by
  have hdec := copy chars.toList
  rwa [Vector.length_toList] at hdec

end Decodes

/-! ## Messages on the wire -/

namespace ItchParser

/-- What every message starts with after its type. -/
structure WireHeader where
  stockLocate : UInt16
  trackingNumber : UInt16
  timestamp : Fin (2 ^ 48)

inductive WireMessage where
  | addOrder (hdr : WireHeader) (orderRefNum : UInt64) (side : Side)
      (shares : UInt32) (stock : Vector UInt8 8) (price : UInt32)
  | addOrderMPID (hdr : WireHeader) (orderRefNum : UInt64) (side : Side)
      (shares : UInt32) (stock : Vector UInt8 8) (price : UInt32)
      (attribution : Vector UInt8 4)
  | orderExecuted (hdr : WireHeader) (orderRefNum : UInt64)
      (executedShares : UInt32) (matchNumber : UInt64)
  | orderExecutedPrice (hdr : WireHeader) (orderRefNum : UInt64)
      (executedShares : UInt32) (matchNumber : UInt64) (printable : UInt8)
      (executionPrice : UInt32)
  | orderCancel (hdr : WireHeader) (orderRefNum : UInt64)
      (cancelledShares : UInt32)
  | orderDelete (hdr : WireHeader) (orderRefNum : UInt64)
  | orderReplace (hdr : WireHeader) (origOrderRefNum newOrderRefNum : UInt64)
      (shares : UInt32) (price : UInt32)

def byteOf (c : Char) : UInt8 :=
  UInt8.ofNat c.toNat

def sideByte : Side → UInt8
  | .bid => byteOf 'B'
  | .ask => byteOf 'S'

/-- `_header` of the sample generator: the timestamp without its two upper
bytes. -/
def WireHeader.encode (hdr : WireHeader) : List UInt8 :=
  beBytes 2 hdr.stockLocate.toNat ++ beBytes 2 hdr.trackingNumber.toNat ++
    (beBytes 8 hdr.timestamp).drop 2

namespace WireMessage

def encode : WireMessage → List UInt8
  | addOrder hdr ref side shares stock price =>
    byteOf 'A' :: (hdr.encode ++ beBytes 8 ref.toNat ++ [sideByte side] ++
      beBytes 4 shares.toNat ++ stock.toList ++ beBytes 4 price.toNat)
  | addOrderMPID hdr ref side shares stock price attribution =>
    byteOf 'F' :: (hdr.encode ++ beBytes 8 ref.toNat ++ [sideByte side] ++
      beBytes 4 shares.toNat ++ stock.toList ++ beBytes 4 price.toNat ++
      attribution.toList)
  | orderExecuted hdr ref shares number =>
    byteOf 'E' :: (hdr.encode ++ beBytes 8 ref.toNat ++
      beBytes 4 shares.toNat ++ beBytes 8 number.toNat)
  | orderExecutedPrice hdr ref shares number printable price =>
    byteOf 'C' :: (hdr.encode ++ beBytes 8 ref.toNat ++
      beBytes 4 shares.toNat ++ beBytes 8 number.toNat ++ [printable] ++
      beBytes 4 price.toNat)
  | orderCancel hdr ref shares =>
    byteOf 'X' :: (hdr.encode ++ beBytes 8 ref.toNat ++
      beBytes 4 shares.toNat)
  | orderDelete hdr ref => byteOf 'D' :: (hdr.encode ++ beBytes 8 ref.toNat)
  | orderReplace hdr orig new shares price =>
    byteOf 'U' :: (hdr.encode ++ beBytes 8 orig.toNat ++ beBytes 8 new.toNat ++
      beBytes 4 shares.toNat ++ beBytes 4 price.toNat)

/-! What a message says, and `none` for what its type does not carry. -/

def hdr : WireMessage → WireHeader
  | addOrder hdr .. => hdr
  | addOrderMPID hdr .. => hdr
  | orderExecuted hdr .. => hdr
  | orderExecutedPrice hdr .. => hdr
  | orderCancel hdr .. => hdr
  | orderDelete hdr .. => hdr
  | orderReplace hdr .. => hdr

def etype : WireMessage → EventType
  | addOrder .. => .added
  | addOrderMPID .. => .added
  | orderExecuted .. => .executed
  | orderExecutedPrice .. => .executed
  | orderCancel .. => .cancelled
  | orderDelete .. => .deleted
  | orderReplace .. => .replaced

/-- The order the event is about: for a replace, the new one. -/
def oid : WireMessage → UInt64
  | addOrder _ ref .. => ref
  | addOrderMPID _ ref .. => ref
  | orderExecuted _ ref .. => ref
  | orderExecutedPrice _ ref .. => ref
  | orderCancel _ ref _ => ref
  | orderDelete _ ref => ref
  | orderReplace _ _ new .. => new

def origOid : WireMessage → Option UInt64
  | orderReplace _ orig .. => some orig
  | _ => none

def side : WireMessage → Option Side
  | addOrder _ _ side .. => some side
  | addOrderMPID _ _ side .. => some side
  | _ => none

def qty : WireMessage → Option UInt32
  | addOrder _ _ _ shares .. => some shares
  | addOrderMPID _ _ _ shares .. => some shares
  | orderExecuted _ _ shares _ => some shares
  | orderExecutedPrice _ _ shares .. => some shares
  | orderCancel _ _ shares => some shares
  | orderDelete .. => none
  | orderReplace _ _ _ shares _ => some shares

def price : WireMessage → Option UInt32
  | addOrder _ _ _ _ _ price => some price
  | addOrderMPID _ _ _ _ _ price _ => some price
  | orderExecutedPrice _ _ _ _ _ price => some price
  | orderReplace _ _ _ _ price => some price
  | _ => none

def printable : WireMessage → Option Bool
  | orderExecutedPrice _ _ _ _ printable _ => some (printable = byteOf 'Y')
  | _ => none

/-- The message as the parser stores it. -/
def message : WireMessage → ItchMessage
  | addOrder hdr ref side shares stock price =>
    .addOrder ⟨hdr.stockLocate, hdr.trackingNumber, .ofNat hdr.timestamp, ref,
      sideByte side, shares, stock.toList, price⟩
  | addOrderMPID hdr ref side shares stock price attribution =>
    .addOrderMPID ⟨hdr.stockLocate, hdr.trackingNumber, .ofNat hdr.timestamp,
      ref, sideByte side, shares, stock.toList, price, attribution.toList⟩
  | orderExecuted hdr ref shares number =>
    .orderExecuted ⟨hdr.stockLocate, hdr.trackingNumber, .ofNat hdr.timestamp,
      ref, shares, number⟩
  | orderExecutedPrice hdr ref shares number printable price =>
    .orderExecutedPrice ⟨hdr.stockLocate, hdr.trackingNumber,
      .ofNat hdr.timestamp, ref, shares, number, printable, price⟩
  | orderCancel hdr ref shares =>
    .orderCancel ⟨hdr.stockLocate, hdr.trackingNumber, .ofNat hdr.timestamp,
      ref, shares⟩
  | orderDelete hdr ref =>
    .orderDelete ⟨hdr.stockLocate, hdr.trackingNumber, .ofNat hdr.timestamp,
      ref⟩
  | orderReplace hdr orig new shares price =>
    .orderReplace ⟨hdr.stockLocate, hdr.trackingNumber, .ofNat hdr.timestamp,
      orig, new, shares, price⟩

end WireMessage

/-- The event carries what the message says. -/
structure Carries (m : WireMessage) (e : MboEvent) : Prop where
  etype : e.etype = m.etype
  instrument : e.instrument.toNat = m.hdr.stockLocate.toNat
  timestamp : e.timestamp.toNat = m.hdr.timestamp
  oid : e.oid = m.oid
  origOid : ∀ oid ∈ m.origOid, e.origOid = oid
  side : ∀ side ∈ m.side, e.side = side
  qty : ∀ qty ∈ m.qty, e.qty = qty
  price : ∀ price ∈ m.price, e.price = price
  printable : ∀ printable ∈ m.printable, e.printable = printable

/-! ## Parsing what was encoded -/

theorem beBytes_add (j k n : ℕ) :
    beBytes (j + k) n = beBytes j (n / 256 ^ k) ++ beBytes k n := by
  induction k generalizing n with
  | zero => simp [beBytes]
  | succ k ih =>
      have hdiv : n / 256 / 256 ^ k = n / 256 ^ (k + 1) := by
        rw [Nat.div_div_eq_div_mul, ← Nat.pow_succ']
      rw [← Nat.add_assoc, beBytes, ih, beBytes, hdiv, List.append_assoc]

/-- The upper bytes of a timestamp carry nothing. -/
theorem WireHeader.encode_eq (hdr : WireHeader) :
    hdr.encode = beBytes 2 hdr.stockLocate.toNat ++
      (beBytes 2 hdr.trackingNumber.toNat ++ beBytes 6 hdr.timestamp) := by
  rw [WireHeader.encode, beBytes_add 2 6, List.drop_left' (length_beBytes 2 _),
    List.append_assoc]

theorem ofByte_byteOf {c : Char} {t : MsgType}
    (h : (c, t) ∈ [('A', MsgType.addOrder), ('F', .addOrderMPID),
      ('E', .orderExecuted), ('C', .orderExecutedPrice), ('X', .orderCancel),
      ('D', .orderDelete), ('U', .orderReplace)]) :
    MsgType.ofByte (byteOf c) = t := by
  simp only [List.mem_cons, Prod.mk.injEq, List.not_mem_nil, or_false] at h
  rcases h with ⟨rfl, rfl⟩ | ⟨rfl, rfl⟩ | ⟨rfl, rfl⟩ | ⟨rfl, rfl⟩ | ⟨rfl, rfl⟩ |
    ⟨rfl, rfl⟩ | ⟨rfl, rfl⟩ <;> rfl

/-- The type byte, and then the fields of its type. -/
theorem parseMsg_decodes {c : Char} {t : MsgType} {bytes : List UInt8}
    {msg : ItchMessage} (hc : MsgType.ofByte (byteOf c) = t)
    (h : Decodes (parseFields t) bytes msg) :
    Decodes parseMsg (byteOf c :: bytes) msg := by
  subst hc
  exact (Decodes.readU8 (byteOf c)).bind h

/-- The parser stores what was encoded. -/
theorem parseMsg_encode (m : WireMessage) :
    Decodes parseMsg m.encode m.message := by
  cases m with
  | addOrder hdr ref side shares stock price =>
      apply parseMsg_decodes (ofByte_byteOf (t := .addOrder) (by simp))
      simp only [WireHeader.encode_eq, List.append_assoc]
      exact .bind (.readU16 _) (.bind (.readU16 _) (.bind (.readTimestamp _)
        (.bind (.readU64 _) (.bind (.readU8 _) (.bind (.readU32 _)
        (.bind (.readChars _) (.last (.readU32 _))))))))
  | addOrderMPID hdr ref side shares stock price attribution =>
      apply parseMsg_decodes (ofByte_byteOf (t := .addOrderMPID) (by simp))
      simp only [WireHeader.encode_eq, List.append_assoc]
      exact .bind (.readU16 _) (.bind (.readU16 _) (.bind (.readTimestamp _)
        (.bind (.readU64 _) (.bind (.readU8 _) (.bind (.readU32 _)
        (.bind (.readChars _) (.bind (.readU32 _) (.last (.readChars _)))))))))
  | orderExecuted hdr ref shares number =>
      apply parseMsg_decodes (ofByte_byteOf (t := .orderExecuted) (by simp))
      simp only [WireHeader.encode_eq, List.append_assoc]
      exact .bind (.readU16 _) (.bind (.readU16 _) (.bind (.readTimestamp _)
        (.bind (.readU64 _) (.bind (.readU32 _) (.last (.readU64 _))))))
  | orderExecutedPrice hdr ref shares number printable price =>
      apply parseMsg_decodes
        (ofByte_byteOf (t := .orderExecutedPrice) (by simp))
      simp only [WireHeader.encode_eq, List.append_assoc]
      exact .bind (.readU16 _) (.bind (.readU16 _) (.bind (.readTimestamp _)
        (.bind (.readU64 _) (.bind (.readU32 _) (.bind (.readU64 _)
        (.bind (.readU8 _) (.last (.readU32 _))))))))
  | orderCancel hdr ref shares =>
      apply parseMsg_decodes (ofByte_byteOf (t := .orderCancel) (by simp))
      simp only [WireHeader.encode_eq, List.append_assoc]
      exact .bind (.readU16 _) (.bind (.readU16 _) (.bind (.readTimestamp _)
        (.bind (.readU64 _) (.last (.readU32 _)))))
  | orderDelete hdr ref =>
      apply parseMsg_decodes (ofByte_byteOf (t := .orderDelete) (by simp))
      simp only [WireHeader.encode_eq, List.append_assoc]
      exact .bind (.readU16 _) (.bind (.readU16 _) (.bind (.readTimestamp _)
        (.last (.readU64 _))))
  | orderReplace hdr orig new shares price =>
      apply parseMsg_decodes (ofByte_byteOf (t := .orderReplace) (by simp))
      simp only [WireHeader.encode_eq, List.append_assoc]
      exact .bind (.readU16 _) (.bind (.readU16 _) (.bind (.readTimestamp _)
        (.bind (.readU64 _) (.bind (.readU64 _) (.bind (.readU32 _)
        (.last (.readU32 _)))))))

theorem sideOf_sideByte (side : Side) : sideOf (sideByte side) = side := by
  cases side <;> rfl

theorem toNat_eq_iff_byteOf (b : UInt8) : b.toNat = 89 ↔ b = byteOf 'Y' :=
  UInt8.toNat_inj (b := byteOf 'Y')

/-- The event made of a message carries what was encoded. -/
theorem carries_message (m : WireMessage) :
    ∃ e, eventOf m.message = some e ∧ Carries m e := by
  have htime : ∀ ts : Fin (2 ^ 48), (UInt64.ofNat ts).toNat = ts := by
    intro ts
    have hlt := ts.isLt
    rw [UInt64.toNat_ofNat']
    omega
  cases m <;> refine ⟨_, rfl, rfl, ?_, htime _, rfl, ?_, ?_, ?_, ?_, ?_⟩ <;>
    simp [WireMessage.hdr, WireMessage.origOid, WireMessage.side,
      WireMessage.qty, WireMessage.price, WireMessage.printable,
      createMboFromAddOrder, createMboFromAddOrderMpid, createMboFromOrderExec,
      createMboFromOrderExecPrice, createMboFromOrderCancel,
      createMboFromOrderDelete, createMboFromOrderReplace, sideOf_sideByte,
      toNat_eq_iff_byteOf]

theorem eq_byteOf {b : UInt8} {c : Char} (h : Char.ofNat b.toNat = c) :
    b = byteOf c := by
  have hb := b.toNat_lt
  have hvalid : b.toNat.isValidChar := by
    left
    omega
  rw [byteOf, ← h, Char.ofNat, dif_pos hvalid]
  exact UInt8.ofNat_toNat.symm

/-- A type byte that is none of the seven. -/
theorem ofByte_eq_unknown {b : UInt8}
    (h : ∀ c ∈ "AFECXDU".toList, b ≠ byteOf c) :
    MsgType.ofByte b = .unknown := by
  unfold MsgType.ofByte
  split
  case h_8 => rfl
  all_goals
    next heq => exact absurd (eq_byteOf heq) (h _ (by decide))

/-- The memory of a payload, with arbitrary bytes behind it. -/
def memory (payload : List UInt8) (behind : ℕ → UInt8) : ℕ → UInt8 :=
  fun i => payload.getD i (behind i)

theorem ahead_memory (bytes trailing : List UInt8) (behind : ℕ → UInt8) :
    (BufReader.ofSpan (memory (bytes ++ trailing) behind)).Ahead bytes := by
  intro i b hi
  have hlt := (List.getElem?_eq_some_iff.mp hi).1
  simp [BufReader.ofSpan, memory, List.getElem?_append_left hlt, hi]

/-- Parsing inverts the encoding of every message, whatever follows it, and a
payload of any other type emits nothing. -/
theorem parse_encode :
    (∀ (m : WireMessage) (trailing : List UInt8) (behind : ℕ → UInt8),
      ∃ e, (parse (memory (m.encode ++ trailing) behind)).1 = some e ∧
        Carries m e) ∧
    ∀ (b : UInt8) (rest : List UInt8) (behind : ℕ → UInt8),
      (∀ c ∈ "AFECXDU".toList, b ≠ byteOf c) →
      (parse (memory (b :: rest) behind)).1 = none := by
  constructor
  · intro m trailing behind
    obtain ⟨e, hevent, hcarries⟩ := carries_message m
    obtain ⟨hmsg, -⟩ := parseMsg_encode m _ (ahead_memory m.encode trailing behind)
    refine ⟨e, ?_, hcarries⟩
    change eventOf (parseMsg _).1 = some e
    rw [hmsg, hevent]
  · intro b rest behind hb
    have hfirst : memory (b :: rest) behind 0 = b := rfl
    rw [parse_eq, hfirst, ofByte_eq_unknown hb]
    rfl

theorem parse_encode_sample :
    (∃ e, (parse (memory ((WireMessage.orderDelete ⟨1, 2, 3⟩ 7).encode ++ [255])
      fun _ => 0)).1 = some e ∧
        Carries (.orderDelete ⟨1, 2, 3⟩ 7) e) ∧
    (parse (memory [90, 0] fun _ => 65)).1 = none :=
  ⟨parse_encode.1 _ _ _, parse_encode.2 90 [0] _ (by simp [byteOf])⟩

end ItchParser

end Fastbook

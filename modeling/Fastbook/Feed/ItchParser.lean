import Fastbook.Common.Types
import Fastbook.Feed.BufReader

/-!
# The ITCH parser

A model of `ITCHParser` (`feed/itch_parser.hpp`).  The tagged union of the
source is an inductive type, and characters are bytes.

The parser reads the fields of a message without looking at the length of the
payload, so it stays inside the payload exactly when the payload is at least as
long as the wire size of the type in its first byte.
-/

namespace Fastbook

namespace ItchParser

structure AddOrder where
  stockLocate : UInt16
  trackingNumber : UInt16
  timestamp : UInt64
  orderRefNum : UInt64
  side : UInt8
  shares : UInt32
  stock : List UInt8
  price : UInt32
  deriving DecidableEq, Repr

structure AddOrderMPID where
  stockLocate : UInt16
  trackingNumber : UInt16
  timestamp : UInt64
  orderRefNum : UInt64
  side : UInt8
  shares : UInt32
  stock : List UInt8
  price : UInt32
  attribution : List UInt8
  deriving DecidableEq, Repr

structure OrderExecuted where
  stockLocate : UInt16
  trackingNumber : UInt16
  timestamp : UInt64
  orderRefNum : UInt64
  executedShares : UInt32
  matchNumber : UInt64
  deriving DecidableEq, Repr

structure OrderExecutedWithPrice where
  stockLocate : UInt16
  trackingNumber : UInt16
  timestamp : UInt64
  orderRefNum : UInt64
  executedShares : UInt32
  matchNumber : UInt64
  printable : UInt8
  executionPrice : UInt32
  deriving DecidableEq, Repr

structure OrderCancel where
  stockLocate : UInt16
  trackingNumber : UInt16
  timestamp : UInt64
  orderRefNum : UInt64
  cancelledShares : UInt32
  deriving DecidableEq, Repr

structure OrderDelete where
  stockLocate : UInt16
  trackingNumber : UInt16
  timestamp : UInt64
  orderRefNum : UInt64
  deriving DecidableEq, Repr

structure OrderReplace where
  stockLocate : UInt16
  trackingNumber : UInt16
  timestamp : UInt64
  origOrderRefNum : UInt64
  newOrderRefNum : UInt64
  shares : UInt32
  price : UInt32
  deriving DecidableEq, Repr

inductive MsgType where
  | addOrder
  | addOrderMPID
  | orderExecuted
  | orderExecutedPrice
  | orderCancel
  | orderDelete
  | orderReplace
  | unknown
  deriving DecidableEq, Repr

/-- The `switch` over the type byte. -/
def MsgType.ofByte (b : UInt8) : MsgType :=
  match Char.ofNat b.toNat with
  | 'A' => .addOrder
  | 'F' => .addOrderMPID
  | 'E' => .orderExecuted
  | 'C' => .orderExecutedPrice
  | 'X' => .orderCancel
  | 'D' => .orderDelete
  | 'U' => .orderReplace
  | _ => .unknown

inductive ItchMessage where
  | addOrder (msg : AddOrder)
  | addOrderMPID (msg : AddOrderMPID)
  | orderExecuted (msg : OrderExecuted)
  | orderExecutedPrice (msg : OrderExecutedWithPrice)
  | orderCancel (msg : OrderCancel)
  | orderDelete (msg : OrderDelete)
  | orderReplace (msg : OrderReplace)
  | unknown
  deriving DecidableEq, Repr

open BufReader

def parseAddOrderMsg : Reading ItchMessage := do
  let stockLocate ← readU16
  let trackingNumber ← readU16
  let timestamp ← readTimestamp
  let orderRefNum ← readU64
  let side ← readU8
  let shares ← readU32
  let stock ← readChars 8
  let price ← readU32
  return .addOrder ⟨stockLocate, trackingNumber, timestamp, orderRefNum, side,
    shares, stock, price⟩

def parseAddOrderMpidMsg : Reading ItchMessage := do
  let stockLocate ← readU16
  let trackingNumber ← readU16
  let timestamp ← readTimestamp
  let orderRefNum ← readU64
  let side ← readU8
  let shares ← readU32
  let stock ← readChars 8
  let price ← readU32
  let attribution ← readChars 4
  return .addOrderMPID ⟨stockLocate, trackingNumber, timestamp, orderRefNum,
    side, shares, stock, price, attribution⟩

def parseOrderExecutedMsg : Reading ItchMessage := do
  let stockLocate ← readU16
  let trackingNumber ← readU16
  let timestamp ← readTimestamp
  let orderRefNum ← readU64
  let executedShares ← readU32
  let matchNumber ← readU64
  return .orderExecuted ⟨stockLocate, trackingNumber, timestamp, orderRefNum,
    executedShares, matchNumber⟩

def parseOrderExecutedPriceMsg : Reading ItchMessage := do
  let stockLocate ← readU16
  let trackingNumber ← readU16
  let timestamp ← readTimestamp
  let orderRefNum ← readU64
  let executedShares ← readU32
  let matchNumber ← readU64
  let printable ← readU8
  let executionPrice ← readU32
  return .orderExecutedPrice ⟨stockLocate, trackingNumber, timestamp,
    orderRefNum, executedShares, matchNumber, printable, executionPrice⟩

def parseOrderCancelMsg : Reading ItchMessage := do
  let stockLocate ← readU16
  let trackingNumber ← readU16
  let timestamp ← readTimestamp
  let orderRefNum ← readU64
  let cancelledShares ← readU32
  return .orderCancel ⟨stockLocate, trackingNumber, timestamp, orderRefNum,
    cancelledShares⟩

def parseOrderDeleteMsg : Reading ItchMessage := do
  let stockLocate ← readU16
  let trackingNumber ← readU16
  let timestamp ← readTimestamp
  let orderRefNum ← readU64
  return .orderDelete ⟨stockLocate, trackingNumber, timestamp, orderRefNum⟩

def parseOrderReplaceMsg : Reading ItchMessage := do
  let stockLocate ← readU16
  let trackingNumber ← readU16
  let timestamp ← readTimestamp
  let origOrderRefNum ← readU64
  let newOrderRefNum ← readU64
  let shares ← readU32
  let price ← readU32
  return .orderReplace ⟨stockLocate, trackingNumber, timestamp,
    origOrderRefNum, newOrderRefNum, shares, price⟩

def parseFields : MsgType → Reading ItchMessage
  | .addOrder => parseAddOrderMsg
  | .addOrderMPID => parseAddOrderMpidMsg
  | .orderExecuted => parseOrderExecutedMsg
  | .orderExecutedPrice => parseOrderExecutedPriceMsg
  | .orderCancel => parseOrderCancelMsg
  | .orderDelete => parseOrderDeleteMsg
  | .orderReplace => parseOrderReplaceMsg
  | .unknown => pure .unknown

def parseMsg : Reading ItchMessage := do
  let msgType ← readU8
  parseFields (MsgType.ofByte msgType)

def sideOf (c : UInt8) : Side :=
  if c.toNat = 'B'.toNat then .bid else .ask

def createMboFromAddOrder (msg : AddOrder) : MboEvent where
  etype := .added
  side := sideOf msg.side
  printable := true
  instrument := msg.stockLocate.toUInt32
  timestamp := msg.timestamp
  oid := msg.orderRefNum
  price := msg.price
  qty := msg.shares

def createMboFromAddOrderMpid (msg : AddOrderMPID) : MboEvent where
  etype := .added
  side := sideOf msg.side
  printable := true
  instrument := msg.stockLocate.toUInt32
  timestamp := msg.timestamp
  oid := msg.orderRefNum
  price := msg.price
  qty := msg.shares

def createMboFromOrderExec (msg : OrderExecuted) : MboEvent where
  etype := .executed
  printable := true
  instrument := msg.stockLocate.toUInt32
  timestamp := msg.timestamp
  oid := msg.orderRefNum
  qty := msg.executedShares

def createMboFromOrderExecPrice (msg : OrderExecutedWithPrice) : MboEvent where
  etype := .executed
  printable := msg.printable.toNat = 'Y'.toNat
  instrument := msg.stockLocate.toUInt32
  timestamp := msg.timestamp
  oid := msg.orderRefNum
  price := msg.executionPrice
  qty := msg.executedShares

def createMboFromOrderCancel (msg : OrderCancel) : MboEvent where
  etype := .cancelled
  printable := true
  instrument := msg.stockLocate.toUInt32
  timestamp := msg.timestamp
  oid := msg.orderRefNum
  qty := msg.cancelledShares

def createMboFromOrderDelete (msg : OrderDelete) : MboEvent where
  etype := .deleted
  printable := true
  instrument := msg.stockLocate.toUInt32
  timestamp := msg.timestamp
  oid := msg.orderRefNum

/-- The message carries no side, so the event keeps the default `BID`. -/
def createMboFromOrderReplace (msg : OrderReplace) : MboEvent where
  etype := .replaced
  printable := true
  instrument := msg.stockLocate.toUInt32
  timestamp := msg.timestamp
  oid := msg.newOrderRefNum
  origOid := msg.origOrderRefNum
  price := msg.price
  qty := msg.shares

/-- The event that `parse` hands to its sink. -/
def eventOf : ItchMessage → Option MboEvent
  | .addOrder msg => some (createMboFromAddOrder msg)
  | .addOrderMPID msg => some (createMboFromAddOrderMpid msg)
  | .orderExecuted msg => some (createMboFromOrderExec msg)
  | .orderExecutedPrice msg => some (createMboFromOrderExecPrice msg)
  | .orderCancel msg => some (createMboFromOrderCancel msg)
  | .orderDelete msg => some (createMboFromOrderDelete msg)
  | .orderReplace msg => some (createMboFromOrderReplace msg)
  | .unknown => none

/-- `parse` on the memory that starts with the payload: the emitted event and
the reads that were made. -/
def parse (mem : ℕ → UInt8) : Option MboEvent × List Read :=
  let (msg, reader) := parseMsg (BufReader.ofSpan mem)
  (eventOf msg, reader.reads)

/-! ## The reads of a message -/

/-- The sizes of the fields after the type byte. -/
def fieldSizes : MsgType → List ℕ
  | .addOrder => [2, 2, 6, 8, 1, 4, 8, 4]
  | .addOrderMPID => [2, 2, 6, 8, 1, 4, 8, 4, 4]
  | .orderExecuted => [2, 2, 6, 8, 4, 8]
  | .orderExecutedPrice => [2, 2, 6, 8, 4, 8, 1, 4]
  | .orderCancel => [2, 2, 6, 8, 4]
  | .orderDelete => [2, 2, 6, 8]
  | .orderReplace => [2, 2, 6, 8, 8, 4, 4]
  | .unknown => []

/-- The wire size of a message with the given type byte. -/
def wireSize (b : UInt8) : ℕ :=
  1 + (fieldSizes (MsgType.ofByte b)).sum

theorem parseFields_consumes (t : MsgType) :
    Consumes (parseFields t) (fieldSizes t) := by
  cases t with
  | addOrder =>
      exact .bind .readU16 fun _ => .bind .readU16 fun _ =>
        .bind .readTimestamp fun _ => .bind .readU64 fun _ =>
        .bind .readU8 fun _ => .bind .readU32 fun _ =>
        .bind (.readChars 8) fun _ => .bind .readU32 fun _ => .pure _
  | addOrderMPID =>
      exact .bind .readU16 fun _ => .bind .readU16 fun _ =>
        .bind .readTimestamp fun _ => .bind .readU64 fun _ =>
        .bind .readU8 fun _ => .bind .readU32 fun _ =>
        .bind (.readChars 8) fun _ => .bind .readU32 fun _ =>
        .bind (.readChars 4) fun _ => .pure _
  | orderExecuted =>
      exact .bind .readU16 fun _ => .bind .readU16 fun _ =>
        .bind .readTimestamp fun _ => .bind .readU64 fun _ =>
        .bind .readU32 fun _ => .bind .readU64 fun _ => .pure _
  | orderExecutedPrice =>
      exact .bind .readU16 fun _ => .bind .readU16 fun _ =>
        .bind .readTimestamp fun _ => .bind .readU64 fun _ =>
        .bind .readU32 fun _ => .bind .readU64 fun _ =>
        .bind .readU8 fun _ => .bind .readU32 fun _ => .pure _
  | orderCancel =>
      exact .bind .readU16 fun _ => .bind .readU16 fun _ =>
        .bind .readTimestamp fun _ => .bind .readU64 fun _ =>
        .bind .readU32 fun _ => .pure _
  | orderDelete =>
      exact .bind .readU16 fun _ => .bind .readU16 fun _ =>
        .bind .readTimestamp fun _ => .bind .readU64 fun _ => .pure _
  | orderReplace =>
      exact .bind .readU16 fun _ => .bind .readU16 fun _ =>
        .bind .readTimestamp fun _ => .bind .readU64 fun _ =>
        .bind .readU64 fun _ => .bind .readU32 fun _ =>
        .bind .readU32 fun _ => .pure _
  | unknown => exact .pure _

theorem readU8_value (r : BufReader) :
    (BufReader.readU8 r).1 = r.mem r.pos := by
  change UInt8.ofNat (0 * 256 + (r.mem (r.pos + 0)).toNat) = r.mem r.pos
  simp

theorem parse_eq (mem : ℕ → UInt8) :
    parse mem =
      let t := MsgType.ofByte (mem 0)
      let r := (BufReader.readU8 (BufReader.ofSpan mem)).2
      (eventOf (parseFields t r).1, (parseFields t r).2.reads) := by
  have hbyte : (BufReader.readU8 (BufReader.ofSpan mem)).1 = mem 0 :=
    readU8_value (BufReader.ofSpan mem)
  have hrun : parseMsg (BufReader.ofSpan mem) =
      parseFields (MsgType.ofByte (BufReader.readU8 (BufReader.ofSpan mem)).1)
        (BufReader.readU8 (BufReader.ofSpan mem)).2 := rfl
  rw [hbyte] at hrun
  simp only [parse, hrun]
  rfl

/-- The parser reads the type byte and then the fields of the type. -/
theorem parse_reads (mem : ℕ → UInt8) :
    (parse mem).2 = readsFrom 0 (1 :: fieldSizes (MsgType.ofByte (mem 0))) := by
  rw [parse_eq]
  simp only [(parseFields_consumes _).reader, Consumes.readU8.reader]
  simp [BufReader.ofSpan, readsFrom]

/-- The event depends on the bytes of the wire size only. -/
theorem parse_event_congr {mem mem' : ℕ → UInt8}
    (h : ∀ i < wireSize (mem 0), mem' i = mem i) :
    (parse mem').1 = (parse mem).1 := by
  have hpos : 0 < wireSize (mem 0) := Nat.lt_add_right _ Nat.zero_lt_one
  have htype : mem' 0 = mem 0 := h 0 hpos
  rw [parse_eq, parse_eq, htype]
  simp only
  congr 1
  apply (parseFields_consumes _).value
  intro i hi
  rw [Consumes.readU8.reader, Consumes.readU8.reader]
  exact h (1 + i) (Nat.add_lt_add_left hi 1)

/-- The parser does not look outside a payload of `size` bytes at the start of
`mem`: no read goes beyond its end, the event is the same whatever lies behind
it, and a payload that is too short for its type emits nothing. -/
structure StaysInside (mem : ℕ → UInt8) (size : ℕ) : Prop where
  reads : ∀ read ∈ (parse mem).2, read.pos + read.count ≤ size
  same : ∀ mem' : ℕ → UInt8, (∀ i < size, mem' i = mem i) →
    (parse mem').1 = (parse mem).1
  short : size < wireSize (mem 0) → (parse mem).1 = none

/-- The parser stays inside a payload exactly when the payload is not empty and
at least as long as the wire size of its type. -/
theorem staysInside_iff (mem : ℕ → UInt8) (size : ℕ) :
    StaysInside mem size ↔ 0 < size ∧ wireSize (mem 0) ≤ size := by
  have hreads : (∀ read ∈ (parse mem).2, read.pos + read.count ≤ size) ↔
      wireSize (mem 0) ≤ size := by
    rw [parse_reads, forall_readsFrom_le (by simp), Nat.zero_add,
      List.sum_cons]
    rfl
  constructor
  · intro h
    have hle := hreads.mp h.reads
    exact ⟨Nat.lt_of_lt_of_le (Nat.lt_add_right _ Nat.zero_lt_one) hle, hle⟩
  · rintro ⟨-, hle⟩
    refine ⟨hreads.mpr hle, ?_, ?_⟩
    · intro mem' hsame
      exact parse_event_congr fun i hi => hsame i (Nat.lt_of_lt_of_le hi hle)
    · intro hlt
      exact absurd hle (Nat.not_le.mpr hlt)

/-- An empty payload, with the byte `D` behind it, is parsed as a delete. -/
theorem empty_payload_emits :
    (parse fun _ => 68).1.isSome = true ∧ ¬StaysInside (fun _ => 68) 0 := by
  refine ⟨rfl, ?_⟩
  intro h
  have hread := h.reads ⟨0, 1⟩ (by rw [parse_reads]; exact List.mem_cons_self)
  exact absurd hread (by decide)

end ItchParser

end Fastbook

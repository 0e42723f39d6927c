import Fastbook.Common.EventQueue
import Fastbook.Feed.ItchParser
import Fastbook.OrderBook.OrderBook
import Fastbook.Support.Run

/-!
# The book builder

A model of `BookBuilder` (`bookbuilder/book_builder.hpp`).  The address of a
book is its place in `owned_books_`, which only grows.  The `bool` that
`instrument_map_.insert` returns is only asserted, so a release build goes on
with a book that the map does not know.

The queue, the threads and the latency histogram are left to the pipeline.
-/

namespace Fastbook

abbrev Book := OrderBook 8 8192

abbrev BookPtr := ℕ

structure Stats where
  msgs : UInt64 := 0
  droppedAdds : UInt64 := 0
  unknownOids : UInt64 := 0
  deriving DecidableEq, Repr

structure BookBuilder where
  stats : Stats
  instrumentMap : LinearProbingTable Instrument BookPtr fibHash32 .backwardShift
  ownedBooks : List Book

namespace BookBuilder

def fresh : BookBuilder where
  stats := {}
  instrumentMap := .fresh (1 <<< 13)
  ownedBooks := []

def bookCount (b : BookBuilder) : ℕ :=
  b.ownedBooks.length

/-- The book that `instrument_map_.find` leads to. -/
def book (b : BookBuilder) (instr : Instrument) : Option Book :=
  match b.instrumentMap.find instr with
  | none => none
  | some p => b.ownedBooks[p]?

/-- What an operation has done to the book at `p`. -/
def setBook (b : BookBuilder) (p : BookPtr) (book : Book) : BookBuilder :=
  { b with ownedBooks := b.ownedBooks.set p book }

def countDroppedAdd (b : BookBuilder) : BookBuilder :=
  { b with stats := { b.stats with droppedAdds := b.stats.droppedAdds + 1 } }

def countUnknownOid (b : BookBuilder) : BookBuilder :=
  { b with stats := { b.stats with unknownOids := b.stats.unknownOids + 1 } }

def getOrInitBook (b : BookBuilder) (instr : Instrument) :
    BookPtr × BookBuilder :=
  match b.instrumentMap.find instr with
  | some p => (p, b)
  | none =>
    let p := b.ownedBooks.length
    (p, { b with
      ownedBooks := b.ownedBooks ++ [.fresh]
      instrumentMap := (b.instrumentMap.insert instr p).2 })

def addOrderHandler (memory : GrowMemory) (b : BookBuilder) (mbo : MboEvent) :
    Except Fault BookBuilder :=
  let (p, b) := b.getOrInitBook mbo.instrument
  match b.ownedBooks[p]? with
  | none => .error .nullDeref
  | some book =>
    match book.addOrder memory mbo.oid mbo.qty mbo.price mbo.side with
    | .error e => .error e
    | .ok (.ok (), book) => .ok (b.setBook p book)
    | .ok (.error _, book) => .ok (b.setBook p book).countDroppedAdd

/-- `book == nullptr || !book->op(…)`: the shape the other handlers share. -/
def onKnownBook (b : BookBuilder) (instr : Instrument)
    (op : Book → Except Fault (Bool × Book)) : Except Fault BookBuilder :=
  match b.instrumentMap.find instr with
  | none => .ok b.countUnknownOid
  | some p =>
    match b.ownedBooks[p]? with
    | none => .error .nullDeref
    | some book =>
      match op book with
      | .error e => .error e
      | .ok (true, book) => .ok (b.setBook p book)
      | .ok (false, book) => .ok (b.setBook p book).countUnknownOid

def cancelOrderHandler (b : BookBuilder) (mbo : MboEvent) :
    Except Fault BookBuilder :=
  b.onKnownBook mbo.instrument (·.reduceOrder mbo.oid mbo.qty)

def executeOrderHandler (b : BookBuilder) (mbo : MboEvent) :
    Except Fault BookBuilder :=
  b.onKnownBook mbo.instrument (·.executeOrder mbo.oid mbo.qty)

def deleteOrderHandler (b : BookBuilder) (mbo : MboEvent) :
    Except Fault BookBuilder :=
  b.onKnownBook mbo.instrument (·.cancelOrder mbo.oid)

/-- The new order is added whether or not the original one was there. -/
def replaceOrderHandler (memory : GrowMemory) (b : BookBuilder)
    (mbo : MboEvent) : Except Fault BookBuilder :=
  match b.onKnownBook mbo.instrument (·.cancelOrder mbo.origOid) with
  | .error e => .error e
  | .ok b => b.addOrderHandler memory mbo

def applyEvent (memory : GrowMemory) (b : BookBuilder) (mbo : MboEvent) :
    Except Fault BookBuilder :=
  let b := { b with stats := { b.stats with msgs := b.stats.msgs + 1 } }
  match mbo.etype with
  | .added => b.addOrderHandler memory mbo
  | .executed => b.executeOrderHandler mbo
  | .replaced => b.replaceOrderHandler memory mbo
  | .cancelled => b.cancelOrderHandler mbo
  | .deleted => b.deleteOrderHandler mbo

/-- The events one after the other, with memory for `grow` at hand.  Without it
the process terminates. -/
def applyEvents (b : BookBuilder) (events : List MboEvent) :
    Except Fault BookBuilder :=
  Support.run (applyEvent .available) b events

/-- A message is parsed and the event it gives, if any, is applied. -/
def applyMessage (b : BookBuilder) (message : ℕ → UInt8) :
    Except Fault BookBuilder :=
  match (ItchParser.parse message).1 with
  | none => .ok b
  | some mbo => b.applyEvent .available mbo

def applyMessages (b : BookBuilder) (messages : List (ℕ → UInt8)) :
    Except Fault BookBuilder :=
  Support.run applyMessage b messages

end BookBuilder

end Fastbook

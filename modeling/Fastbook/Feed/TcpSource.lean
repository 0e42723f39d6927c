import Fastbook.Feed.FileSource
import Fastbook.Feed.McastUDPSource
import Fastbook.Support.Handles
import Fastbook.Support.TransitionSystem

/-!
# The TCP source

A model of `TcpSource` (`transport/tcp_source.hpp`), which receives a stream of
bytes with an `io_uring`, one `recv` at a time, into the objects of a pool.

It runs together with the kernel, with a caller that keeps `Buffer` objects, as
many as it likes, and with another thread that calls `send`.  In every state that
they reach, each object of the pool is in one place, and what the `Buffer` objects
show is the stream, cut somewhere.
-/

namespace Fastbook

open Support

namespace TcpSource

open McastUDPSource (ObjectPool)

def ioUringBufMaxSz : ℕ := 4096

def ringMaxEntries : ℕ := 1024

def poolSize : ℕ := 16

structure IoUringData where
  buf : List UInt8
  sz : ℕ

def IoUringData.reset (d : IoUringData) : IoUringData :=
  { d with sz := 0 }

/-- `Buffer::bytes`. -/
def IoUringData.bytes (d : IoUringData) : List UInt8 :=
  d.buf.take d.sz

abbrev Ptr := Fin poolSize

structure Cqe where
  data : Ptr
  res : ℤ
  deriving DecidableEq, Repr

def eintr : ℤ := 4

def eagain : ℤ := 11

end TcpSource

/-- `ring_` is in three parts: what has been submitted and the kernel has not taken
yet, what the kernel works on, and the completions.  `shut` is set once the socket
has been shut down. -/
structure TcpSource where
  pool : McastUDPSource.ObjectPool TcpSource.poolSize TcpSource.IoUringData
  connStatus : TransportStatus := .wouldBlock
  recvArmed : Bool := false
  sq : List TcpSource.Ptr := []
  inflight : List TcpSource.Ptr := []
  cq : List TcpSource.Cqe := []
  shut : Bool := false

namespace TcpSource

def isTerminal (s : TransportStatus) : Bool :=
  s = .eof || s = .error

def fail (s : TcpSource) (err : TransportStatus) : TcpSource :=
  { s with shut := true, connStatus := err }

/-- `~PoolEntry`. -/
def release (s : TcpSource) (data : Ptr) : TcpSource :=
  { s with pool := s.pool.restore IoUringData.reset (some data) }

/-- `rearm_recv_`; `submits` is whether `io_uring_submit` succeeds.  It is assumed that
the kernel never takes an entry that has been refused. -/
def rearmRecv (s : TcpSource) (submits : Bool) : TcpSource × Bool :=
  match s.pool.get with
  | (none, _) => (s, false)
  | (some data, pool) =>
    if ringMaxEntries ≤ s.sq.length then
      ({ s with pool := pool.restore IoUringData.reset (some data) }, false)
    else if submits then
      ({ s with pool, sq := s.sq ++ [data], recvArmed := true }, true)
    else
      (fail { s with pool := pool.restore IoUringData.reset (some data) } .error, false)

/-- `next` up to `io_uring_peek_cqe`. -/
def beginNext (s : TcpSource) (submits : Bool) : TcpSource × Except TransportStatus Unit :=
  if isTerminal s.connStatus then (s, .error s.connStatus)
  else if s.recvArmed then (s, .ok ())
  else
    match s.rearmRecv submits with
    | (s, true) => (s, .ok ())
    | (s, false) => (s, .error s.connStatus)

/-- The rest of `next`. -/
def finishNext (s : TcpSource) (submits : Bool) : TcpSource × Except TransportStatus Ptr :=
  match s.cq with
  | [] => (s, .error .wouldBlock)
  | ⟨data, res⟩ :: cq =>
    let s := { s with cq, recvArmed := false }
    if res < 0 then
      if res = -eagain ∨ res = -eintr then (s.release data, .error .wouldBlock)
      else ((s.fail .error).release data, .error .error)
    else if res = 0 then ((s.fail .eof).release data, .error .eof)
    else
      let storage := Function.update s.pool.storage data
        { s.pool.storage data with sz := res.toNat }
      let (s, _) := { s with pool := { s.pool with storage } }.rearmRecv submits
      (s, .ok data)

/-! ## The source in its environment -/

/-- A `Buffer` that holds an object.  `number` is not in the program: which of the
`Buffer` objects that `next` has returned this is. -/
structure Held where
  data : Ptr
  number : ℕ
  deriving DecidableEq, Repr

inductive SendPc where
  | idle
  /-- In `::send`. -/
  | sending
  /-- In `fail_`, after the shutdown. -/
  | failing
  deriving DecidableEq, Repr

/-- `peeking` has the name for the result while `next` is between its two parts.
`sent` is what the peer has sent, `arrived` what of it waits in the socket, and
`closed` is set when there will be no more.  `broken` is set once `::send` has
failed. -/
structure Session where
  source : TcpSource
  buffers : ℕ → Option (Option Held) := fun _ => none
  peeking : Option ℕ := none
  send : SendPc := .idle
  sent : List UInt8 := []
  arrived : List UInt8 := []
  closed : Bool := false
  broken : Bool := false
  served : List (List UInt8) := []

inductive Action where
  | next (name : ℕ) (submits : Bool)
  | peek (submits : Bool)
  | destroy (name : ℕ)
  /-- The move constructor. -/
  | construct (name other : ℕ)
  /-- The move assignment. -/
  | assign (name rhs : ℕ)
  /-- A step of `send`; `all` is whether `::send` has sent the whole payload. -/
  | send (all : Bool)
  /-- The kernel takes a submission. -/
  | take
  | complete (data : Ptr) (res : ℤ)
  | arrive (bytes : List UInt8)
  | close

namespace Session

def next (s : Session) (name : ℕ) (submits : Bool) : Session :=
  match s.source.beginNext submits with
  | (source, .error _) => { s with source }
  | (source, .ok ()) => { s with source, peeking := some name }

def peek (s : Session) (name : ℕ) (submits : Bool) : Session :=
  match s.source.finishNext submits with
  | (source, .error _) => { s with source, peeking := none }
  | (source, .ok data) =>
    { s with
      source
      peeking := none
      buffers := Function.update s.buffers name (some (some ⟨data, s.served.length⟩))
      served := s.served ++ [(source.pool.storage data).bytes] }

/-- `~Buffer`. -/
def destroy (s : Session) (name : ℕ) (held : Option Held) : Session :=
  let s := { s with buffers := Function.update s.buffers name none }
  match held with
  | none => s
  | some b => { s with source := s.source.release b.data }

def sendStep (s : Session) (all : Bool) : Session :=
  match s.send with
  | .idle =>
    if isTerminal s.source.connStatus then s else { s with send := .sending }
  | .sending =>
    if all then { s with send := .idle }
    else { s with source.shut := true, send := .failing, broken := true }
  | .failing => { s with source.connStatus := .error, send := .idle }

/-- `recv` has returned `res`, and has taken as many bytes out of the socket. -/
def complete (s : Session) (data : Ptr) (res : ℤ) : Session :=
  let old := s.source.pool.storage data
  let buf := s.arrived.take res.toNat ++ old.buf.drop res.toNat
  { s with
    source.pool.storage := Function.update s.source.pool.storage data { old with buf }
    source.inflight := s.source.inflight.erase data
    source.cq := s.source.cq ++ [⟨data, res⟩]
    arrived := s.arrived.drop res.toNat }

/-- The results of `recv`: an error, the end of the stream, or some bytes that have
arrived. -/
def Completes (s : Session) (data : Ptr) (res : ℤ) : Prop :=
  data ∈ s.source.inflight ∧
    (res < 0 ∨ res = 0 ∧ (s.source.shut = true ∨ s.closed = true ∧ s.arrived = []) ∨
      0 < res ∧ res ≤ ioUringBufMaxSz ∧ res.toNat ≤ s.arrived.length)

instance (s : Session) (data : Ptr) (res : ℤ) : Decidable (s.Completes data res) :=
  inferInstanceAs (Decidable (_ ∧ _))

/-- The kernel, the peer and the thread that sends move at any time; the caller of
`next` does nothing else in the meantime. -/
def step (s : Session) : Action → Option Session
  | .next name submits =>
    match s.peeking, s.buffers name with
    | none, none => some (s.next name submits)
    | _, _ => none
  | .peek submits =>
    match s.peeking with
    | none => none
    | some name => some (s.peek name submits)
  | .destroy name =>
    match s.peeking, s.buffers name with
    | none, some held => some (s.destroy name held)
    | _, _ => none
  | .construct name other =>
    match s.peeking, s.buffers name, s.buffers other with
    | none, none, some held =>
      let moved := Function.update s.buffers other (some none)
      some { s with buffers := Function.update moved name (some held) }
    | _, _, _ => none
  | .assign name rhs =>
    match s.peeking, s.buffers name, s.buffers rhs with
    | none, some held, some held' =>
      let moved := Function.update s.buffers name (some held')
      some { s with buffers := Function.update moved rhs (some held) }
    | _, _, _ => none
  | .send all => some (s.sendStep all)
  | .take =>
    match s.source.sq with
    | [] => none
    | data :: sq =>
      some { s with source.sq := sq, source.inflight := s.source.inflight ++ [data] }
  | .complete data res => if s.Completes data res then some (s.complete data res) else none
  | .arrive bytes =>
    if s.closed then none
    else some { s with sent := s.sent ++ bytes, arrived := s.arrived ++ bytes }
  | .close => some { s with closed := true }

end Session

/-- The runs of a new source, whose objects have any contents.  The constructor ends
with `rearm_recv_`. -/
def sessions (objects : Ptr → IoUringData) (submits : Bool) :
    TransitionSystem Session Action where
  start := { source := (rearmRecv { pool := .new objects } submits).1 }
  step := Session.step

end TcpSource

end Fastbook

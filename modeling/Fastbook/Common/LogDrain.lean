import Fastbook.Support.TransitionSystem
import Mathlib.Algebra.GroupWithZero.Nat
import Mathlib.Data.List.Perm.Basic
import Mathlib.Logic.Function.Basic

/-!
# The log rings and the logger thread

A model of `thread_init`, `emit`, `drain_and_log` and `logger_thread`
(`common/logger.hpp`).  Every thread with a slot has a ring, taken as a bounded
queue, and a counter of the records that found the ring full.  The threads and the
logger thread interleave between any two accesses to the rings and the counters.

A line is what the logger thread appends to its output.  Which thread has emitted a
record, and as which of its records, is kept for the proofs only, and so is what has
become of it.  The counters do not wrap around: no thread emits `2 ^ 64` records.
-/

namespace Fastbook.Logger

open Support

/-- `N_SLOTS`. -/
def nSlots : ℕ := 64

/-- `LOG_RING_SIZE`. -/
def logRingSize : ℕ := 4096

/-- The queue leaves one of its places empty. -/
def ringCapacity : ℕ := logRingSize - 1

abbrev Slot := Fin nSlots

instance : NeZero nSlots := ⟨by decide⟩

/-- `body` is the metadata and the payload. -/
structure Record (β : Type) where
  slot : Slot
  number : ℕ
  tsc : UInt64
  body : β
  deriving DecidableEq

/-- Where the thread of a slot is inside `emit`. -/
inductive EmitPc (β : Type) where
  | idle
  | reserved (number : ℕ) (body : β)
  /-- The ring was full, and the counter has been loaded. -/
  | full (number : ℕ) (dropped : ℕ)
  deriving DecidableEq

/-- A slot, with its thread and what the logger thread has seen of its counter. -/
structure RingSlot (β : Type) where
  ring : Option (List (Record β)) := none
  dropped : ℕ := 0
  pc : EmitPc β := .idle
  seenDropped : ℕ := 0
  /-- The bodies of the records, one for each call of `emit`. -/
  emitted : List β := []
  /-- The last time stamp. -/
  stamp : Option UInt64 := none
  /-- The numbers of the records that were refused. -/
  refused : List ℕ := []

namespace RingSlot

variable {β : Type}

/-- The end of `thread_init`. -/
def publish (x : RingSlot β) : Option (RingSlot β) :=
  match x.ring with
  | none => some { x with ring := some [] }
  | some _ => none

/-- `emit`, up to the reservation. -/
def emit (x : RingSlot β) (body : β) : Option (RingSlot β) :=
  match x.pc, x.ring with
  | .idle, some q =>
    let number := x.emitted.length
    let pc := if q.length < ringCapacity then .reserved number body
      else .full number x.dropped
    some { x with emitted := x.emitted ++ [body], pc }
  | _, _ => none

/-- The rest of `emit` for a reserved place. -/
def commit (x : RingSlot β) (i : Slot) (tsc : UInt64) : Option (RingSlot β) :=
  match x.pc, x.ring with
  | .reserved number body, some q =>
    let ring := some (q ++ [⟨i, number, tsc, body⟩])
    some { x with ring, pc := .idle, stamp := some tsc }
  | _, _ => none

/-- The rest of `emit` for a full ring. -/
def count (x : RingSlot β) : Option (RingSlot β) :=
  match x.pc with
  | .full number dropped =>
    some { x with dropped := dropped + 1, pc := .idle, refused := x.refused ++ [number] }
  | _ => none

end RingSlot

inductive Line (β : Type) where
  | dropped (slot : Slot) (n : ℕ)
  | record (r : Record β)
  | failed (n : ℕ)

/-- The local variables of `drain_and_log`. -/
structure Pass (β : Type) where
  n : ℕ
  recs : List (Record β) := []
  outBuff : List (Line β) := []

inductive DrainPc (β : Type) where
  | idle
  /-- Before the slot `i`, or after the last one. -/
  | slot (p : Pass β) (i : ℕ)
  | pops (p : Pass β) (i : Slot) (k : ℕ)
  /-- Before the counter of the slot is loaded. -/
  | counter (p : Pass β) (i : Slot)

structure Log (β : Type) where
  slotsSoFar : ℕ := 0
  slots : Slot → RingSlot β := fun _ => {}
  logger : DrainPc β := .idle
  out : List (Line β) := []
  /-- The records that the logger has formatted, each with its success. -/
  handled : List (Record β × Bool) := []
  passes : ℕ := 0

inductive Action (β : Type) where
  /-- A thread claims a slot, if there is one left. -/
  | claim
  /-- The thread of the slot stores its ring. -/
  | publish (i : Slot)
  | emit (i : Slot) (body : β)
  | commit (i : Slot) (tsc : UInt64)
  | count (i : Slot)
  | start
  | visit
  | pop
  | load
  /-- The records as sorted, each with whether it can be formatted. -/
  | finish (sorted : List (Record β × Bool))

namespace Log

variable {β : Type}

def setSlot (s : Log β) (i : Slot) (x : RingSlot β) : Log β :=
  { s with slots := Function.update s.slots i x }

/-- The head of the loop over the slots. -/
def visit (s : Log β) : Option (Log β) :=
  match s.logger with
  | .slot p i =>
    if h : i < nSlots ∧ i < p.n then
      match (s.slots ⟨i, h.1⟩).ring with
      | none => some { s with logger := .slot p (i + 1) }
      | some _ => some { s with logger := .pops p ⟨i, h.1⟩ 0 }
    else none
  | _ => none

/-- The loop over the records of a slot. -/
def pop (s : Log β) : Option (Log β) :=
  match s.logger with
  | .pops p i k =>
    if k < logRingSize then
      match (s.slots i).ring with
      | some (r :: q) =>
        some { s.setSlot i { s.slots i with ring := some q } with
                logger := .pops { p with recs := p.recs ++ [r] } i (k + 1) }
      | _ => some { s with logger := .counter p i }
    else some { s with logger := .counter p i }
  | _ => none

/-- What the counter says goes to the output if it has changed. -/
def load (s : Log β) : Option (Log β) :=
  match s.logger with
  | .counter p i =>
    let dropped := (s.slots i).dropped
    let seenDropped := (s.slots i).seenDropped
    if dropped ≠ seenDropped then
      let outBuff := p.outBuff ++ [.dropped i (dropped - seenDropped)]
      some { s.setSlot i { s.slots i with seenDropped := dropped } with
              logger := .slot { p with outBuff } (i + 1) }
    else some { s with logger := .slot p (i + 1) }
  | _ => none

/-- The lines of the records. -/
def recordLines (sorted : List (Record β × Bool)) : List (Line β) :=
  sorted.filterMap fun (r, ok) => if ok then some (.record r) else none

/-- How many records cannot be formatted. -/
def failures (sorted : List (Record β × Bool)) : ℕ :=
  sorted.countP fun (_, ok) => !ok

def failedLine (sorted : List (Record β × Bool)) : List (Line β) :=
  if failures sorted > 0 then [.failed (failures sorted)] else []

variable [DecidableEq β]

/-- `std::sort` leaves the records in some order in which the time stamps do not
decrease. -/
def IsSorting (recs : List (Record β)) (sorted : List (Record β × Bool)) : Prop :=
  (sorted.map Prod.fst).Perm recs ∧
    sorted.Pairwise fun a b => ¬ b.1.tsc < a.1.tsc

instance (recs : List (Record β)) (sorted : List (Record β × Bool)) :
    Decidable (IsSorting recs sorted) :=
  inferInstanceAs (Decidable (_ ∧ _))

/-- The end of a pass: sorting, formatting and writing. -/
def finish (s : Log β) (sorted : List (Record β × Bool)) : Option (Log β) :=
  match s.logger with
  | .slot p i =>
    if i < p.n then none
    else if IsSorting p.recs sorted then
      some { s with
              logger := .idle
              out := s.out ++ (p.outBuff ++ recordLines sorted ++ failedLine sorted)
              handled := s.handled ++ sorted
              passes := s.passes + 1 }
    else none
  | _ => none

def step (s : Log β) : Action β → Option (Log β)
  | .claim => some { s with slotsSoFar := s.slotsSoFar + 1 }
  | .publish i =>
    if i < s.slotsSoFar then (s.slots i).publish.map (s.setSlot i) else none
  | .emit i body => ((s.slots i).emit body).map (s.setSlot i)
  | .commit i tsc => ((s.slots i).commit i tsc).map (s.setSlot i)
  | .count i => (s.slots i).count.map (s.setSlot i)
  | .start =>
    match s.logger with
    | .idle => some { s with logger := .slot { n := min s.slotsSoFar nSlots } 0 }
    | _ => none
  | .visit => s.visit
  | .pop => s.pop
  | .load => s.load
  | .finish sorted => s.finish sorted

end Log

/-- The runs of the threads and the logger thread. -/
def log (β : Type) [DecidableEq β] : TransitionSystem (Log β) (Action β) where
  start := {}
  step := Log.step

end Fastbook.Logger

import Fastbook.Support.TransitionSystem
import Mathlib.Data.Nat.Bitwise
import Mathlib.Logic.Function.Basic

/-!
# The single-producer single-consumer queue

A model of `SPSCQueue` (`common/spsc_queue.hpp`) with one producer and one
consumer thread.  Every load or store of `head_` or `tail_` and every access to
the buffer is one step, so the steps of the two threads interleave in every
possible way.  `cached_tail_` belongs to the producer and `cached_head_` to the
consumer; they are read and written together with the step before them.

The queue has `2^k` slots.  A slot without a value is raw memory.
-/

namespace Fastbook

structure SpscQueue (α : Type*) where
  buffer : ℕ → Option α := fun _ => none
  head : ℕ := 0
  cachedTail : ℕ := 0
  tail : ℕ := 0
  cachedHead : ℕ := 0

namespace SpscQueue

variable {α : Type*}

/-- `(i + 1) & (N - 1)`. -/
def next (k i : ℕ) : ℕ :=
  (i + 1) &&& (2 ^ k - 1)

def setSlot (q : SpscQueue α) (slot : ℕ) (contents : Option α) : SpscQueue α :=
  { q with buffer := Function.update q.buffer slot contents }

inductive ProducerCall (α : Type*) where
  | push (v : α)
  | tryReserve

/-- What the producer does next. -/
inductive ProducerPc (α : Type*) where
  | idle
  /-- `full_at` loads `tail_`. -/
  | fullAt (call : ProducerCall α) (headVal : ℕ)
  /-- `push` constructs its value. -/
  | construct (v : α) (slot : ℕ)
  /-- `commit` loads `head_`, inside of `push`. -/
  | commit
  /-- `commit` stores `head_`. -/
  | store (inPush : Bool) (headVal : ℕ)

/-- What the consumer does next. -/
inductive ConsumerPc (α : Type*) where
  | idle
  /-- `empty_at` loads `head_`. -/
  | emptyAt (tailVal : ℕ)
  /-- `pop` moves the object out of its slot and destroys it. -/
  | take (tailVal : ℕ)
  /-- `pop` stores `tail_`. -/
  | store (tailVal : ℕ) (value : Option α)

/-- The two threads.  `reserved` is the slot that `try_reserve` has returned
and `staged` the value constructed there, until they are committed.
`committed` and `popped` record the run; a pop that reads raw memory would
record `none`. -/
structure Machine (α : Type*) where
  queue : SpscQueue α := {}
  producer : ProducerPc α := .idle
  consumer : ConsumerPc α := .idle
  reserved : Option ℕ := none
  staged : Option α := none
  committed : List α := []
  popped : List (Option α) := []

/-- What a call returns. -/
inductive Answer (α : Type*) where
  | pushed (ok : Bool)
  | reserved (slot : Option ℕ)
  | committed
  | popped (value : Option α)
  | nullopt

/-- The first five start a call of their thread or, for `construct`, fill the
reserved slot; the last two continue a call. -/
inductive Action (α : Type*) where
  | push (v : α)
  | tryReserve
  | construct (v : α)
  | commit
  | pop
  | producer
  | consumer

namespace Machine

/-- `full_at` was false: `try_reserve` has its slot. -/
def grant (s : Machine α) (call : ProducerCall α) (slot : ℕ) :
    Machine α × Option (Answer α) :=
  match call with
  | .push v => ({ s with producer := .construct v slot }, none)
  | .tryReserve =>
    ({ s with producer := .idle, reserved := some slot },
      some (.reserved (some slot)))

/-- `full_at` was true. -/
def refuse (s : Machine α) (call : ProducerCall α) :
    Machine α × Option (Answer α) :=
  match call with
  | .push _ => ({ s with producer := .idle }, some (.pushed false))
  | .tryReserve => ({ s with producer := .idle }, some (.reserved none))

/-- `try_reserve` loads `head_`, and `full_at` looks at `cached_tail_`. -/
def startReserve (k : ℕ) (s : Machine α) (call : ProducerCall α) :
    Machine α × Option (Answer α) :=
  let headVal := s.queue.head
  if next k headVal ≠ s.queue.cachedTail then s.grant call headVal
  else ({ s with producer := .fullAt call headVal }, none)

def constructAt (s : Machine α) (slot : ℕ) (v : α) : Machine α :=
  { s with queue := s.queue.setSlot slot (some v), staged := some v }

def producerStep (k : ℕ) (s : Machine α) :
    Option (Machine α × Option (Answer α)) :=
  match s.producer with
  | .idle => none
  | .fullAt call headVal =>
    let tailVal := s.queue.tail
    if tailVal = next k headVal then some (s.refuse call)
    else some (grant
      { s with queue := { s.queue with cachedTail := tailVal } } call headVal)
  | .construct v slot =>
    some ({ s.constructAt slot v with producer := .commit }, none)
  | .commit => some ({ s with producer := .store true s.queue.head }, none)
  | .store inPush headVal =>
    some ({ s with
      queue := { s.queue with head := next k headVal }
      producer := .idle
      reserved := none
      staged := none
      committed := s.committed ++ s.staged.toList },
      some (if inPush then .pushed true else .committed))

def consumerStep (k : ℕ) (s : Machine α) :
    Option (Machine α × Option (Answer α)) :=
  match s.consumer with
  | .idle => none
  | .emptyAt tailVal =>
    let headVal := s.queue.head
    if headVal = tailVal then
      some ({ s with consumer := .idle }, some .nullopt)
    else some ({ s with
      queue := { s.queue with cachedHead := headVal }
      consumer := .take tailVal }, none)
  | .take tailVal =>
    some ({ s with
      queue := s.queue.setSlot tailVal none
      consumer := .store tailVal (s.queue.buffer tailVal) }, none)
  | .store tailVal value =>
    some ({ s with
      queue := { s.queue with tail := next k tailVal }
      consumer := .idle
      popped := s.popped ++ [value] }, some (.popped value))

/-- One step, or `none` where the action is not possible: a thread makes one
call at a time, and only a constructed value is committed. -/
def step (k : ℕ) (s : Machine α) (a : Action α) :
    Option (Machine α × Option (Answer α)) :=
  match a, s.producer, s.consumer with
  | .push v, .idle, _ => some (s.startReserve k (.push v))
  | .tryReserve, .idle, _ => some (s.startReserve k .tryReserve)
  | .construct v, .idle, _ =>
    match s.reserved with
    | none => none
    | some slot => some (s.constructAt slot v, none)
  | .commit, .idle, _ =>
    match s.staged with
    | none => none
    | some _ => some ({ s with producer := .store false s.queue.head }, none)
  | .pop, _, .idle =>
    let tailVal := s.queue.tail
    if tailVal ≠ s.queue.cachedHead then
      some ({ s with consumer := .take tailVal }, none)
    else some ({ s with consumer := .emptyAt tailVal }, none)
  | .producer, _, _ => s.producerStep k
  | .consumer, _, _ => s.consumerStep k
  | _, _, _ => none

end Machine

/-- What the threads themselves know of a run, from what they have called and
what they were answered: the value of the last `push`, the value constructed
last in the reserved slot, the values that a `push` or a `commit` has accepted,
and those that `pop` has returned. -/
structure Calls (α : Type*) where
  pushing : Option α := none
  constructed : Option α := none
  accepted : List α := []
  returned : List (Option α) := []

namespace Calls

def call (c : Calls α) : Action α → Calls α
  | .push v => { c with pushing := some v }
  | .construct v => { c with constructed := some v }
  | _ => c

def answer (c : Calls α) : Option (Answer α) → Calls α
  | some (.pushed true) => { c with accepted := c.accepted ++ c.pushing.toList }
  | some .committed => { c with accepted := c.accepted ++ c.constructed.toList }
  | some (.popped value) => { c with returned := c.returned ++ [value] }
  | _ => c

end Calls

/-- The interleavings of the two threads on a new queue. -/
def system (α : Type*) (k : ℕ) :
    Support.TransitionSystem (Machine α × Calls α) (Action α) where
  start := ({}, {})
  step s a := (s.1.step k a).map fun (m, o) => (m, (s.2.call a).answer o)

end SpscQueue

end Fastbook

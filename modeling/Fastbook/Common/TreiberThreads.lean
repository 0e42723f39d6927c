import Fastbook.Common.TagPolicy
import Fastbook.Common.TreiberStack
import Fastbook.Support.TransitionSystem
import Mathlib.Data.Nat.ModEq

/-!
# Threads on an intrusive stack

`TreiberStack` under any number of threads.  A thread may be interrupted before
each of its accesses to `head_` or to the link of a node, and a
compare-and-exchange may fail for no reason.  Between its calls a thread writes to
the nodes that it owns, or gives them to another thread.

Two things are kept for the proofs only: who owns a node, and what has happened to
it.  The nodes form a list as long as every `pop` finds the head it loaded only if
nothing has happened in between, which is what the tags are for.
-/

namespace Fastbook.TreiberStack

open Support

variable {P T : Type}

/-- A node is pushed, or handed out by `pop` or `take_all`. -/
inductive Event where
  | pushed
  | handed
  deriving DecidableEq, Repr

/-- Where a thread is.  `old` is the head as the thread has last loaded it, and
`loaded` is the number of updates of the head before that.  `push` does what
`push_chain` does for a chain of one node. -/
inductive Pc (policy : TagPolicy P) where
  | idle
  /-- Before the link of the last node of the chain is written. -/
  | push (chain : List P) (old : policy.Repr)
  | pushCas (chain : List P) (old : policy.Repr)
  /-- Before the link of the first node is read. -/
  | pop (old : policy.Repr) (loaded : ℕ)
  | popCas (old : policy.Repr) (n : P) (nxt : Option P) (loaded : ℕ)
  | takeAll (old : policy.Repr)

inductive Action (P T : Type) where
  | push (t : T) (n : P)
  /-- With the chain from `head` to `tail`. -/
  | pushChain (t : T) (chain : List P)
  | pop (t : T)
  | takeAll (t : T)
  | link (t : T)
  | readNext (t : T)
  | cas (t : T) (spurious : Bool)
  /-- The exchange, and the nodes that it takes. -/
  | exchange (t : T) (taken : List P)
  | write (t : T) (n : P) (nxt : Option P)
  | give (t u : T) (n : P)

structure Threads (policy : TagPolicy P) (T : Type) where
  head : policy.Repr := policy.pack none 0
  next : P → Option P
  pc : T → Pc policy := fun _ => .idle
  owner : P → Option T
  /-- The updates of the head so far. -/
  updates : ℕ := 0
  /-- What has happened to a node, the last event first. -/
  history : P → List Event := fun _ => []

namespace Threads

variable {policy : TagPolicy P} [DecidableEq T]

def goto (s : Threads policy T) (t : T) (pc : Pc policy) : Threads policy T :=
  { s with pc := Function.update s.pc t pc }

@[simp]
theorem goto_pc_self (s : Threads policy T) (t : T) (pc : Pc policy) :
    (s.goto t pc).pc t = pc :=
  Function.update_self _ _ _

theorem goto_pc_of_ne (s : Threads policy T) {t u : T} (pc : Pc policy) (h : u ≠ t) :
    (s.goto t pc).pc u = s.pc u :=
  Function.update_of_ne h _ _

variable [DecidableEq P]

/-- The thread changes the head, the nodes change hands, and the call ends. -/
def commit (s : Threads policy T) (t : T) (head : policy.Repr) (nodes : List P)
    (owner : Option T) (e : Event) : Threads policy T where
  head
  next := s.next
  pc := Function.update s.pc t .idle
  owner n := if n ∈ nodes then owner else s.owner n
  updates := s.updates + 1
  history n := if n ∈ nodes then e :: s.history n else s.history n

/-- Nodes of the thread, linked from the first to the last. -/
def OwnedChain (s : Threads policy T) (t : T) (chain : List P) : Prop :=
  chain ≠ [] ∧ chain.Nodup ∧ (∀ n ∈ chain, s.owner n = some t) ∧ Linked s.next chain

instance (s : Threads policy T) (t : T) (chain : List P) :
    Decidable (s.OwnedChain t chain) :=
  inferInstanceAs (Decidable (chain ≠ [] ∧ chain.Nodup ∧
    (∀ n ∈ chain, s.owner n = some t) ∧ Linked s.next chain))

/-- The step of a thread that is not inside a call. -/
def client (s : Threads policy T) : Action P T → Option (Threads policy T)
  | .push t n => if s.owner n = some t then some (s.goto t (.push [n] s.head)) else none
  | .pushChain t chain =>
    if s.OwnedChain t chain then some (s.goto t (.push chain s.head)) else none
  | .pop t =>
    if policy.tagged then some (s.goto t (.pop s.head s.updates)) else none
  | .takeAll t => some (s.goto t (.takeAll s.head))
  | .write t n nxt =>
    if s.owner n = some t then some { s with next := Function.update s.next n nxt }
    else none
  | .give t u n =>
    if s.owner n = some t then some { s with owner := Function.update s.owner n (some u) }
    else none
  | _ => none

/-- The compare-and-exchange at the end of the loop of `push_chain`.  It loads the
head if it fails. -/
def pushCas (s : Threads policy T) (t : T) (spurious : Bool) (chain : List P)
    (old : policy.Repr) : Threads policy T :=
  if s.head = old ∧ spurious = false then
    s.commit t (policy.pack chain.head? (policy.tag old + 1)) chain none .pushed
  else s.goto t (.push chain s.head)

@[inherit_doc pushCas]
def popCas (s : Threads policy T) (t : T) (spurious : Bool) (old : policy.Repr) (n : P)
    (nxt : Option P) : Threads policy T :=
  if s.head = old ∧ spurious = false then
    s.commit t (policy.pack nxt (policy.tag old + 1)) [n] (some t) .handed
  else s.goto t (.pop s.head s.updates)

/-- The exchange hands out the nodes from the head on. -/
def exchange (s : Threads policy T) (t : T) (taken : List P) (old : policy.Repr) :
    Option (Threads policy T) :=
  if Chain s.next (policy.ptr s.head) taken then
    some (s.commit t (policy.pack none (policy.tag old + 1)) taken (some t) .handed)
  else none

def thread : Action P T → T
  | .push t _ | .pushChain t _ | .pop t | .takeAll t | .link t | .readNext t
  | .cas t _ | .exchange t _ | .write t _ _ | .give t _ _ => t

def step (s : Threads policy T) (a : Action P T) : Option (Threads policy T) :=
  match s.pc (thread a), a with
  | .idle, a => s.client a
  | .push chain old, .link t =>
    match chain.getLast? with
    | none => none
    | some last =>
      some { s.goto t (.pushCas chain old) with
              next := Function.update s.next last (policy.ptr old) }
  | .pushCas chain old, .cas t spurious => some (s.pushCas t spurious chain old)
  | .pop old loaded, .readNext t =>
    match policy.ptr old with
    | none => some (s.goto t .idle)
    | some n => some (s.goto t (.popCas old n (s.next n) loaded))
  | .popCas old n nxt _, .cas t spurious => some (s.popCas t spurious old n nxt)
  | .takeAll old, .exchange t taken => s.exchange t taken old
  | _, _ => none

end Threads

/-- The runs of an empty stack, with nodes that are owned in any way. -/
def threads [DecidableEq P] [DecidableEq T] (policy : TagPolicy P)
    (next : P → Option P) (owner : P → Option T) :
    TransitionSystem (Threads policy T) (Action P T) where
  start := { next, owner }
  step := Threads.step

end Fastbook.TreiberStack

import Fastbook.Pipeline.FeedHandler
import Fastbook.Pipeline.ThreadConfig

/-!
# Starting and stopping the pipeline

A model of the life of a `FeedHandler` (`pipeline/feed_handler.hpp`): `start`
with `init_and_pin_threads`, the `StartGate` (`common/threading.hpp`) at which
the threads of `VenueFeed::run` and `BookBuilder::run` wait, `stop_and_wait`
and the destructor.  One client thread makes the calls, whenever and in
whatever order it likes.  What the threads do behind the gate is the model of
the pipeline.

The outcome of an operation that can fail is part of the action: that of
`pin_and_prioritize` and `pthread_setname_np`, of creating a thread or a
builder, and the file that `ThreadConfig::load` finds.
-/

namespace Fastbook

/-- The latches are their counters.  Counting down a latch that is at zero is
undefined behaviour, and recorded. -/
structure StartGate where
  ready : ℕ
  go : ℕ := 1
  failed : ℕ := 0
  misused : Bool := false
  deriving DecidableEq, Repr

/-- How far a thread is in its `run`. -/
inductive Stage where
  /-- There is no such thread. -/
  | absent
  /-- `pin_and_prioritize` and `pthread_setname_np`. -/
  | pin
  /-- `gate.ready.count_down()`. -/
  | ready
  /-- `gate.go.wait()`. -/
  | wait
  /-- Behind the gate. -/
  | running
  /-- `gate.failed.fetch_add(1)`. -/
  | failed
  /-- `gate.ready.count_down()` after a failure. -/
  | failedReady
  | exited
  deriving DecidableEq, Repr

namespace StartGate

def countReady (g : StartGate) : StartGate :=
  if g.ready = 0 then { g with misused := true }
  else { g with ready := g.ready - 1 }

def countGo (g : StartGate) : StartGate :=
  if g.go = 0 then { g with misused := true }
  else { g with go := g.go - 1 }

/-- The steps of a thread up to the gate, or to its exit if it fails. -/
def arrive (g : StartGate) (ok : Bool) : Stage → Option (StartGate × Stage)
  | .pin => some (g, if ok then .ready else .failed)
  | .ready => some (g.countReady, .wait)
  | .wait => if g.go = 0 then some (g, .running) else none
  | .failed => some ({ g with failed := g.failed + 1 }, .failedReady)
  | .failedReady => some (g.countReady, .exited)
  | .absent | .running | .exited => none

end StartGate

/-- What the client thread does next. -/
inductive ClientPc where
  /-- Outside of the handler. -/
  | idle
  /-- `start`: builder `i` is made. -/
  | makeBuilders (i : ℕ)
  /-- `init_and_pin_threads`: `ThreadConfig::load`. -/
  | loadConfig
  | createFeed
  | createBuilder (i : ℕ)
  | waitReady
  | loadFailed
  | countGo
  /-- `stop_fn`: `feed_.stop()`. -/
  | abortFeed
  | abortBuilders (i : ℕ)
  | abortGo
  /-- `init_and_pin_threads` has returned. -/
  | started (ok : Bool)
  /-- `stop_and_wait`: `feed_.stop()`. -/
  | stopFeed
  | joinFeed
  | stopBuilders (i : ℕ)
  | joinBuilders (i : ℕ)
  /-- The destructor is over. -/
  | destroyed
  deriving DecidableEq, Repr

/-- `builders` is the size of `book_builders_` and `threads` that of
`bb_threads_`. -/
structure FeedHandler where
  pipe : Pipeline
  gate : StartGate
  feedThread : Stage := .absent
  bbThread : ℕ → Stage := fun _ => .absent
  builders : ℕ := 0
  threads : ℕ := 0
  feedJoinable : Bool := false
  bbJoinable : ℕ → Bool := fun _ => false
  started : Bool := false
  startOk : Bool := false
  stopped : Bool := false
  destroying : Bool := false
  client : ClientPc := .idle

namespace FeedHandler

/-- A thread returns from its `run` before the gate, or behind it. -/
def feedDone (s : FeedHandler) : Bool :=
  s.feedThread = .exited || s.feedThread = .running && s.pipe.feed = .exited

@[inherit_doc feedDone]
def bbDone (s : FeedHandler) (b : ℕ) : Bool :=
  s.bbThread b = .exited || s.bbThread b = .running && s.pipe.builder b = .exited

def feedStep (k capacity : ℕ) (s : FeedHandler) (ok : Bool) : Option FeedHandler :=
  if s.feedThread = .running then
    (s.pipe.feedStep k capacity).map fun pipe => { s with pipe }
  else
    (s.gate.arrive ok s.feedThread).map fun (gate, st) =>
      { s with gate, feedThread := st }

def builderStep (s : FeedHandler) (b : ℕ) (ok : Bool) : Option FeedHandler :=
  if s.bbThread b = .running then
    (s.pipe.builderStep b).map fun pipe => { s with pipe }
  else
    (s.gate.arrive ok (s.bbThread b)).map fun (gate, st) =>
      { s with gate, bbThread := Function.update s.bbThread b st }

/-- `feed_.stop()`. -/
def stopFeed (s : FeedHandler) : FeedHandler :=
  { s with pipe := { s.pipe with stopRequested := true } }

/-- `stop()` of builder `b`. -/
def stopBuilder (s : FeedHandler) (b : ℕ) : FeedHandler :=
  { s with pipe := { s.pipe with
      builderStop := Function.update s.pipe.builderStop b true } }

/-- `stop_and_wait` returns to the client, or to the destructor. -/
def leave (s : FeedHandler) : FeedHandler :=
  { s with client := if s.destroying then .destroyed else .idle }

/-- The calls that the client can make. -/
inductive Call where
  | start
  | stopAndWait
  | destroy
  deriving DecidableEq, Repr

def enter (s : FeedHandler) : Call → FeedHandler
  | .start =>
    if s.started then s
    else { s with started := true, client := .makeBuilders 0 }
  | .stopAndWait =>
    if s.stopped then s
    else { s with stopped := true, client := .stopFeed }
  | .destroy =>
    if s.stopped then { s with destroying := true, client := .destroyed }
    else { s with destroying := true, stopped := true, client := .stopFeed }

/-- The next step of a call; `ok` is whether an operation that can throw
succeeds. -/
def clientStep (k : ℕ) (s : FeedHandler) (ok : Bool) : Option FeedHandler :=
  match s.client with
  | .idle | .loadConfig | .destroyed => none
  | .makeBuilders i =>
    if i < 2 ^ k then
      if ok then some { s with builders := i + 1, client := .makeBuilders (i + 1) }
      else some { s with client := .idle }
    else some { s with client := .loadConfig }
  | .createFeed =>
    if ok then
      some { s with
        feedThread := .pin, feedJoinable := true, client := .createBuilder 0 }
    else some { s with client := .abortFeed }
  | .createBuilder i =>
    if i < 2 ^ k then
      if ok then
        some { s with
          bbThread := Function.update s.bbThread i .pin
          bbJoinable := Function.update s.bbJoinable i true
          threads := i + 1
          client := .createBuilder (i + 1) }
      else some { s with client := .abortFeed }
    else some { s with client := .waitReady }
  | .waitReady => if s.gate.ready = 0 then some { s with client := .loadFailed } else none
  | .loadFailed =>
    if 0 < s.gate.failed then some { s with client := .abortFeed }
    else some { s with client := .countGo }
  | .countGo => some { s with gate := s.gate.countGo, client := .started true }
  | .abortFeed => some { s.stopFeed with client := .abortBuilders 0 }
  | .abortBuilders i =>
    if i < s.builders then some { s.stopBuilder i with client := .abortBuilders (i + 1) }
    else some { s with client := .abortGo }
  | .abortGo => some { s with gate := s.gate.countGo, client := .started false }
  | .started ok => some { s with startOk := ok, client := .idle }
  | .stopFeed => some { s.stopFeed with client := .joinFeed }
  | .joinFeed =>
    if s.feedJoinable then
      if s.feedDone then
        some { s with feedJoinable := false, client := .stopBuilders 0 }
      else none
    else some { s with client := .stopBuilders 0 }
  | .stopBuilders i =>
    if i < s.builders then some { s.stopBuilder i with client := .stopBuilders (i + 1) }
    else some { s with client := .joinBuilders 0 }
  | .joinBuilders i =>
    if i < s.threads then
      if s.bbJoinable i then
        if s.bbDone i then
          some { s with
            bbJoinable := Function.update s.bbJoinable i false
            client := .joinBuilders (i + 1) }
        else none
      else some { s with client := .joinBuilders (i + 1) }
    else some s.leave

/-- `ThreadConfig::load`, with the file that is found at the path. -/
def loadConfig (k : ℕ) (path : String) (s : FeedHandler)
    (file : Option ThreadConfig.Stream) (configured : ℤ) : FeedHandler :=
  match ThreadConfig.load (2 ^ k) path file configured with
  | .error _ => { s with client := .abortFeed }
  | .ok _ => { s with client := .createFeed }

inductive Act where
  | call (c : Call)
  | load (file : Option ThreadConfig.Stream) (configured : ℤ)
  | client (ok : Bool)
  | feed (ok : Bool)
  | builder (b : ℕ) (ok : Bool)

def step (k capacity : ℕ) (path : String) (s : FeedHandler) : Act → Option FeedHandler
  | .call c => if s.client = .idle then some (s.enter c) else none
  | .load file configured =>
    if s.client = .loadConfig then some (s.loadConfig k path file configured)
    else none
  | .client ok => s.clientStep k ok
  | .feed ok => s.feedStep k capacity ok
  | .builder b ok => if b < 2 ^ k then s.builderStep b ok else none

/-- A handler with `2^k` builders over an input. -/
def system (k capacity : ℕ) (path : String) (script : List Iteration) :
    Support.TransitionSystem FeedHandler Act where
  start := { pipe := { script }, gate := { ready := 2 ^ k + 1 } }
  step := step k capacity path

end FeedHandler

end Fastbook

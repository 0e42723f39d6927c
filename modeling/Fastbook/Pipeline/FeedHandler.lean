import Fastbook.Common.EventQueue
import Fastbook.Support.TransitionSystem
import Mathlib.Data.List.Basic
import Mathlib.Logic.Function.Basic

/-!
# The pipeline

A model of the threads of `FeedHandler` (`pipeline/feed_handler.hpp`): the feed
thread in `VenueFeed::run` and `on_event` (`feed/venue_feed.hpp`), a builder
thread for every shard in `BookBuilder::run` (`bookbuilder/book_builder.hpp`),
and a controller that waits for `feed_finished()` and then calls
`stop_and_wait`.  A step is one access to a flag or to a queue, and the steps
of the threads interleave in every possible way.  The queues are bounded FIFOs.

What the parser emits is given: `Iteration` has the events of one pass of the
feed loop, and in the last pass the feed calls `stop()` itself, at the end of
the input, of the session or of a recovery that failed.
-/

namespace Fastbook

/-- One pass of the loop of `VenueFeed::run`: the time stamp of its buffer and
the events that the parser emits for it. -/
structure Iteration where
  rxTsc : UInt64
  events : List MboEvent

/-- The events as `on_event` stamps them. -/
def Iteration.stamped (it : Iteration) : List MboEvent :=
  it.events.map fun e => { e with rxTsc := it.rxTsc }

/-- What the feed thread does next. -/
inductive FeedPc where
  /-- The loop condition: `stop_requested_` is loaded. -/
  | loop
  /-- The parser emits the next event, or the pass is over. -/
  | emit
  /-- The first push of `on_event`. -/
  | push (e : MboEvent)
  /-- The push in the `while` condition of `on_event`. -/
  | spin (e : MboEvent)
  /-- The load of `stop_requested_` in `on_event`. -/
  | check (e : MboEvent)
  /-- `finished_` is stored. -/
  | finish
  | exited
  deriving DecidableEq, Repr

/-- What a builder thread does next. -/
inductive BuilderPc where
  /-- The loop condition: `stop_` is loaded. -/
  | loop
  | pop
  | handle (e : MboEvent)
  /-- The pop of the drain loop. -/
  | drain
  | drainHandle (e : MboEvent)
  | exited
  deriving DecidableEq, Repr

/-- What the controller does next. -/
inductive ControllerPc where
  /-- `feed_finished()` is polled. -/
  | running
  /-- `feed_.stop()`. -/
  | stopFeed
  | joinFeed
  /-- `stop()` of builder `i`. -/
  | stopBuilders (i : ℕ)
  | joinBuilders (i : ℕ)
  | returned
  deriving DecidableEq, Repr

/-- `script` and `todo` are what is left of the input and of the current pass;
`emitted` and `applied` record the run. -/
structure Pipeline where
  feed : FeedPc := .loop
  script : List Iteration
  todo : List MboEvent := []
  stopRequested : Bool := false
  finished : Bool := false
  queueFull : ℕ := 0
  queue : ℕ → List MboEvent := fun _ => []
  builder : ℕ → BuilderPc := fun _ => .loop
  builderStop : ℕ → Bool := fun _ => false
  controller : ControllerPc := .running
  emitted : List MboEvent := []
  applied : ℕ → List MboEvent := fun _ => []

namespace Pipeline

/-- `instrument & (N_SHARDS - 1)`, as an index. -/
def shard (k : ℕ) (e : MboEvent) : ℕ :=
  (shardOf k e.instrument).toNat

/-- A push on the queue of the event's shard, which fails if the queue is full;
the feed goes on at `onFull` then. -/
def pushEvent (k capacity : ℕ) (s : Pipeline) (e : MboEvent)
    (onFull : Pipeline) : Pipeline :=
  let b := shard k e
  if (s.queue b).length < capacity then
    { s with
      queue := Function.update s.queue b (s.queue b ++ [e])
      feed := .emit }
  else onFull

def feedStep (k capacity : ℕ) (s : Pipeline) : Option Pipeline :=
  match s.feed with
  | .loop =>
    if s.stopRequested then some { s with feed := .finish }
    else
      match s.script with
      | [] => none
      | it :: script =>
        some { s with feed := .emit, script, todo := it.stamped }
  | .emit =>
    match s.todo with
    | e :: todo =>
      some { s with feed := .push e, todo, emitted := s.emitted ++ [e] }
    | [] =>
      match s.script with
      | [] => some { s with feed := .loop, stopRequested := true }
      | _ :: _ => some { s with feed := .loop }
  | .push e =>
    some (s.pushEvent k capacity e
      { s with feed := .spin e, queueFull := s.queueFull + 1 })
  | .spin e => some (s.pushEvent k capacity e { s with feed := .check e })
  | .check e =>
    -- the event is discarded when a stop has been requested
    if s.stopRequested then some { s with feed := .emit }
    else some { s with feed := .spin e }
  | .finish => some { s with feed := .exited, finished := true }
  | .exited => none

def setBuilder (s : Pipeline) (b : ℕ) (pc : BuilderPc) : Pipeline :=
  { s with builder := Function.update s.builder b pc }

/-- `consumer_.pop()`, with what the builder does next in either case. -/
def popEvent (s : Pipeline) (b : ℕ) (onEvent : MboEvent → BuilderPc)
    (onEmpty : BuilderPc) : Pipeline :=
  match s.queue b with
  | [] => s.setBuilder b onEmpty
  | e :: rest =>
    { s.setBuilder b (onEvent e) with
      queue := Function.update s.queue b rest }

/-- `handle_event`. -/
def handleEvent (s : Pipeline) (b : ℕ) (e : MboEvent) : Pipeline :=
  { s with applied := Function.update s.applied b (s.applied b ++ [e]) }

def builderStep (s : Pipeline) (b : ℕ) : Option Pipeline :=
  match s.builder b with
  | .loop =>
    if s.builderStop b then some (s.setBuilder b .drain)
    else some (s.setBuilder b .pop)
  | .pop => some (s.popEvent b .handle .loop)
  | .handle e => some ((s.handleEvent b e).setBuilder b .loop)
  | .drain => some (s.popEvent b .drainHandle .exited)
  | .drainHandle e => some ((s.handleEvent b e).setBuilder b .drain)
  | .exited => none

def controllerStep (k : ℕ) (s : Pipeline) : Option Pipeline :=
  match s.controller with
  | .running =>
    if s.finished then some { s with controller := .stopFeed } else some s
  | .stopFeed =>
    some { s with stopRequested := true, controller := .joinFeed }
  | .joinFeed =>
    if s.feed = .exited then some { s with controller := .stopBuilders 0 }
    else none
  | .stopBuilders i =>
    if i < 2 ^ k then
      some { s with
        builderStop := Function.update s.builderStop i true
        controller := .stopBuilders (i + 1) }
    else some { s with controller := .joinBuilders 0 }
  | .joinBuilders i =>
    if i < 2 ^ k then
      if s.builder i = .exited then
        some { s with controller := .joinBuilders (i + 1) }
      else none
    else some { s with controller := .returned }
  | .returned => none

inductive Thread where
  | feed
  | builder (b : ℕ)
  | controller
  deriving DecidableEq, Repr

def step (k capacity : ℕ) (s : Pipeline) : Thread → Option Pipeline
  | .feed => s.feedStep k capacity
  | .builder b => if b < 2 ^ k then s.builderStep b else none
  | .controller => s.controllerStep k

/-- The interleavings of `2^k` builders, the feed and the controller. -/
def system (k capacity : ℕ) (script : List Iteration) :
    Support.TransitionSystem Pipeline Thread where
  start := { script }
  step := step k capacity

end Pipeline

end Fastbook

import Fastbook.Common.TreiberStack
import Fastbook.Support.AddressSpace
import Fastbook.Support.TransitionSystem
import Mathlib.Algebra.GroupWithZero.Nat
import Mathlib.Data.Nat.Log

/-!
# The buffer pool

A model of `BufferPool` and its thread-local magazines
(`common/buffer_pool.hpp`) as a transition system.  A step is one operation on
what the threads share (a call of a Treiber stack, `mmap` or `munmap`) with the
thread's own work before and after it; a call that makes several of them stops
in between at a point of `Pc`, where any other thread may go on.  The walk to
the tail of a chain is one step for each node.

Addresses are numbers and a null pointer is `none`.  The memory of a block is
its `next` field, which is all the pool looks at; a client may write anything
there while the block is live.
-/

namespace Fastbook.BufferPool

open Support

def minShift : ℕ := 4

def maxClassSize : ℕ := 8192

/-- `MAX_SHIFT - MIN_SHIFT + 1`. -/
def nClasses : ℕ := 13 - minShift + 1

instance : NeZero nClasses :=
  ⟨by decide⟩

def chunkSize : ℕ := 2 * 1024 * 1024

def runSize : ℕ := 64 * 1024

def nRuns : ℕ := chunkSize / runSize

/-- `sizeof(Chunk)`: 32 class bytes, bitmap, counter, link, flag and size. -/
def sizeofChunk : ℕ := 64

def batchSize : ℕ := 16

def cacheSize : ℕ := batchSize * 64

abbrev Cls := Fin nClasses

def classOf (sz : ℕ) : ℕ :=
  let exp := Nat.clog 2 sz
  if exp < minShift then 0 else exp - minShift

def sizeofClass (c : ℕ) : ℕ :=
  2 ^ (c + minShift)

def roundToCnkSz (val : ℕ) : ℕ :=
  (val + chunkSize - 1) % 2 ^ 64 / chunkSize * chunkSize

/-- The class index as it is stored. -/
def clsOf (sz : ℕ) : Cls :=
  Fin.ofNat nClasses (classOf sz)

/-! ## Chunks -/

/-- `std::countr_one` of a word of `w` bits. -/
def countrOne : ℕ → ℕ → ℕ
  | 0, _ => 0
  | w + 1, x => if x % 2 = 1 then countrOne w (x / 2) + 1 else 0

/-- `Chunk`, constructed in place. -/
structure Header where
  runClass : ℕ → Cls := fun _ => 0
  bmap : ℕ := 1
  freeRuns : ℕ := nRuns - 1
  next : Option ℕ := none
  isLarge : Bool := false
  sz : ℕ := 0

namespace Header

def hasFreeRuns (h : Header) : Bool :=
  0 < h.freeRuns

/-- The base of the run and the header after the call. -/
def claimRun (h : Header) (this : ℕ) (cls : Cls) : Option (ℕ × Header) :=
  let firstFree := countrOne 32 h.bmap
  if nRuns ≤ firstFree then none
  else
    some (this + firstFree * runSize,
      { h with
        runClass := Function.update h.runClass firstFree cls
        bmap := h.bmap ||| 2 ^ firstFree
        freeRuns := h.freeRuns - 1 })

end Header

def baseOf (ptr : ℕ) : ℕ :=
  ptr / chunkSize * chunkSize

def baseClsFromPtr (header : ℕ → Header) (ptr : ℕ) : ℕ × Cls :=
  let base := baseOf ptr
  (base, (header base).runClass ((ptr - base) / runSize))

/-- The loop of `carve_run_in_blocks`, with `n` more blocks after `current`. -/
def carve (next : ℕ → Option ℕ) (classSz : ℕ) :
    ℕ → ℕ → ℕ → Option ℕ
  | 0, current => Function.update next current none
  | n + 1, current =>
    carve (Function.update next current (some (current + classSz))) classSz n
      (current + classSz)

def carveRunInBlocks (next : ℕ → Option ℕ) (base : ℕ) (cls : Cls) :
    ℕ → Option ℕ :=
  let classSz := sizeofClass cls
  carve next classSz (runSize / classSz - 1) base

/-- The blocks of a run. -/
def runBlocks (base : ℕ) (cls : Cls) : List ℕ :=
  (List.range (runSize / sizeofClass cls)).map fun i => base + i * sizeofClass cls

/-- What the operating system answers: the huge mapping, the fallback mapping
and whether `madvise` succeeds. -/
structure MapReply where
  huge : Option ℕ := none
  raw : Option ℕ := none
  advised : Bool := true

/-- A mapping is never placed at address 0 or over another one. -/
def MapReply.Valid (reply : MapReply) (mapped : AddressSpace) (sz : ℕ) : Prop :=
  (∀ a ∈ reply.huge, 0 < a ∧ mapped.Free a sz) ∧
    ∀ a ∈ reply.raw, 0 < a ∧ mapped.Free a (sz + chunkSize)

instance (reply : MapReply) (mapped : AddressSpace) (sz : ℕ) :
    Decidable (reply.Valid mapped sz) :=
  inferInstanceAs (Decidable (_ ∧ _))

/-- `std::align` to the chunk size. -/
def alignUp (raw : ℕ) : ℕ :=
  (raw + chunkSize - 1) / chunkSize * chunkSize

def allocateNewChunk (mapped : AddressSpace) (sz : ℕ) (reply : MapReply) :
    Option ℕ × AddressSpace :=
  match reply.huge with
  | some a =>
    let mapped := mapped.mmap a sz
    if a % chunkSize ≠ 0 then (none, mapped.munmap a sz) else (some a, mapped)
  | none =>
    match reply.raw with
    | none => (none, mapped)
    | some raw =>
      let allocSize := sz + chunkSize
      let mapped := mapped.mmap raw allocSize
      let aligned := alignUp raw
      if ¬ reply.advised then (none, mapped.munmap raw allocSize)
      else
        let headSlack := aligned - raw
        let tailSlack := allocSize - headSlack - sz
        let mapped := if headSlack = 0 then mapped else mapped.munmap raw headSlack
        let mapped :=
          if tailSlack = 0 then mapped else mapped.munmap (aligned + sz) tailSlack
        if aligned % chunkSize ≠ 0 then (none, mapped.munmap aligned allocSize)
        else (some aligned, mapped)

/-! ## The state -/

/-- Who called `refill`. -/
inductive Caller where
  | alloc (sz : ℕ)
  | reserve (sz : ℕ)
  deriving DecidableEq

def Caller.cls : Caller → Cls
  | alloc sz => clsOf sz
  | reserve sz => clsOf sz

/-- What follows after the excess of a chain is pushed back. -/
inductive Resume where
  | pop (sz : ℕ)
  | refill (caller : Caller) (cnk : ℕ)
  | reserve (sz : ℕ)
  deriving DecidableEq

/-- Where a thread is, before its next shared operation. -/
inductive Pc where
  | idle
  /-- In `pop`, called by `alloc` for the first or for the last time, before
  `take_all`. -/
  | popTake (sz : ℕ) (last : Bool)
  /-- Looking for the tail of the excess, to push it back. -/
  | spill (cls : Cls) (head rtail : ℕ) (after : Resume)
  | refillPop (caller : Caller)
  | refillMap (caller : Caller)
  | refillClaim (caller : Caller) (cnk : ℕ)
  | refillPush (caller : Caller) (cnk : ℕ)
  | reserveTake (sz : ℕ)
  | mapLarge (sz : ℕ)
  /-- In `donate_all`, at a class. -/
  | flush (cls : ℕ)
  /-- The top of an empty magazine was read. -/
  | fault
  deriving DecidableEq

/-- The blocks: their links, the global stacks and the magazines, the top of a
magazine first.  `carved` and `live` only record what has happened: the class a
block was carved for, and the allocations with the sizes asked for. -/
structure Blocks (T : Type*) where
  next : ℕ → Option ℕ := fun _ => none
  classes : Cls → Option ℕ := fun _ => none
  mag : T → Cls → List ℕ := fun _ _ => []
  carved : ℕ → Option Cls := fun _ => none
  live : List (ℕ × ℕ) := []

/-- The chunks: their headers, `chunks_with_free_runs` and what is mapped.
`chunks` records where there is a header. -/
structure Arena where
  header : ℕ → Header := fun _ => {}
  freeChunks : Option ℕ := none
  mapped : AddressSpace := []
  chunks : List ℕ := []

structure Pool (T : Type*) extends Blocks T, Arena where
  pc : T → Pc := fun _ => .idle
  /-- Whether the thread has set the key of the exit hook. -/
  registered : T → Bool := fun _ => false
  exited : T → Bool := fun _ => false

inductive Action (T : Type*) where
  | alloc (t : T) (sz : ℕ)
  | free (t : T) (ptr : ℕ)
  | reserve (t : T) (sz : ℕ)
  | threadInit (t : T)
  | exit (t : T)
  /-- The thread goes on with its call. -/
  | step (t : T) (reply : MapReply)
  /-- A client writes to a live block. -/
  | write (ptr : ℕ) (value : Option ℕ)

/-! ## Magazines -/

variable {T : Type*} [DecidableEq T]

namespace Blocks

def setMag (b : Blocks T) (t : T) (c : Cls) (stk : List ℕ) : Blocks T :=
  { b with mag := Function.update b.mag t (Function.update (b.mag t) c stk) }

/-- The top `n` blocks of a magazine are chained and pushed. -/
def donateTop (b : Blocks T) (t : T) (c : Cls) (n : ℕ) : Blocks T :=
  match (b.mag t c).take n with
  | [] => b
  | head :: rest =>
    let next := link b.next (head :: rest)
    let last := (head :: rest).getLast (List.cons_ne_nil _ _)
    let (next, top) := TreiberStack.pushChain next (b.classes c) head last
    { b.setMag t c ((b.mag t c).drop n) with
      next
      classes := Function.update b.classes c top }

def donateBatch (b : Blocks T) (t : T) (c : Cls) : Blocks T :=
  b.donateTop t c batchSize

/-- One class of `donate_all`. -/
def donateClass (b : Blocks T) (t : T) (c : Cls) : Blocks T :=
  b.donateTop t c (b.mag t c).length

def push (b : Blocks T) (t : T) (blk : ℕ) (c : Cls) : Blocks T :=
  let b := if (b.mag t c).length = cacheSize then b.donateBatch t c else b
  b.setMag t c (blk :: b.mag t c)

end Blocks

/-- The loop that takes blocks from a chain, with room for `n` of them: the
magazine and what is left of the chain. -/
def fill (next : ℕ → Option ℕ) :
    ℕ → List ℕ → Option ℕ → List ℕ × Option ℕ
  | 0, stk, head => (stk, head)
  | _ + 1, stk, none => (stk, none)
  | n + 1, stk, some b => fill next n (b :: stk) (next b)

namespace Pool

def setPc (s : Pool T) (t : T) (pc : Pc) : Pool T :=
  { s with pc := Function.update s.pc t pc }

/-- `alloc` returns a block. -/
def returnBlock (s : Pool T) (t : T) (ptr : ℕ) (sz : ℕ) : Pool T :=
  { s.setPc t .idle with live := (ptr, sz) :: s.live }

/-- `return state.stk_[--state.top_]`. -/
def popTop (s : Pool T) (t : T) (sz : ℕ) : Pool T :=
  match s.mag t (clsOf sz) with
  | [] => s.setPc t .fault
  | b :: stk =>
    returnBlock { s with toBlocks := s.setMag t (clsOf sz) stk } t b sz

def pop (s : Pool T) (t : T) (sz : ℕ) (last : Bool) : Pool T :=
  if s.mag t (clsOf sz) = [] then
    { s.setPc t (.popTake sz last) with
      registered := Function.update s.registered t true }
  else s.popTop t sz

def resume (s : Pool T) (t : T) : Resume → Pool T
  | .pop sz => s.popTop t sz
  | .refill caller cnk => s.setPc t (.refillPush caller cnk)
  | .reserve sz => s.setPc t (.reserveTake sz)

/-- A magazine is filled from a chain; the excess is to be pushed back. -/
def takeChain (s : Pool T) (t : T) (c : Cls) (room : ℕ) (head : Option ℕ)
    (after : Resume) : Pool T :=
  let (stk, rest) := fill s.next room (s.mag t c) head
  let s := { s with toBlocks := s.setMag t c stk }
  match rest with
  | none => s.resume t after
  | some h => s.setPc t (.spill c h h after)

def refillFromChain (s : Pool T) (t : T) (c : Cls) (head : Option ℕ)
    (after : Resume) : Pool T :=
  s.takeChain t c (cacheSize - (s.mag t c).length) head after

/-- `take_batch`, and `pop` after it. -/
def takeBatch (s : Pool T) (t : T) (sz : ℕ) (last : Bool) : Pool T :=
  let c := clsOf sz
  let (head, top) := TreiberStack.takeAll (s.classes c)
  let s := { s with classes := Function.update s.classes c top }
  match head with
  | none => s.setPc t (if last then .idle else .refillPop (.alloc sz))
  | some _ =>
    let room := min batchSize (cacheSize - (s.mag t c).length)
    s.takeChain t c room head (.pop sz)

/-- What the callers do with the result of `refill`. -/
def refillReturn (s : Pool T) (t : T) : Caller → Bool → Pool T
  | .alloc _, false => s.setPc t .idle
  | .alloc sz, true => s.pop t sz true
  | .reserve _, false => s.setPc t .idle
  | .reserve sz, true => s.setPc t (.reserveTake sz)

/-- A new chunk is mapped and constructed. -/
def addChunk (s : Pool T) (mapped : AddressSpace) (cnk : ℕ) (h : Header) :
    Pool T :=
  { s with
    mapped
    header := Function.update s.header cnk h
    chunks := cnk :: s.chunks }

def refillMap (s : Pool T) (t : T) (caller : Caller) (reply : MapReply) : Pool T :=
  match allocateNewChunk s.mapped chunkSize reply with
  | (none, mapped) => refillReturn { s with mapped } t caller false
  | (some cnk, mapped) =>
    (s.addChunk mapped cnk {}).setPc t (.refillClaim caller cnk)

def refillClaim (s : Pool T) (t : T) (caller : Caller) (cnk : ℕ) : Pool T :=
  let c := caller.cls
  match (s.header cnk).claimRun cnk c with
  | none => s.refillReturn t caller false
  | some (base, h) =>
    refillFromChain
      { s with
        header := Function.update s.header cnk h
        next := carveRunInBlocks s.next base c
        carved := fun b => if b ∈ runBlocks base c then some c else s.carved b }
      t c (some base) (.refill caller cnk)

def refillPush (s : Pool T) (t : T) (caller : Caller) (cnk : ℕ) : Pool T :=
  let s :=
    if (s.header cnk).hasFreeRuns then
      { s with
        header := Function.update s.header cnk
          { s.header cnk with next := s.freeChunks }
        freeChunks := some cnk }
    else s
  s.refillReturn t caller true

def refillPop (s : Pool T) (t : T) (caller : Caller) : Pool T :=
  let (cnk, top) :=
    TreiberStack.pop (fun c => (s.header c).next) s.freeChunks
  match cnk with
  | none => s.setPc t (.refillMap caller)
  | some cnk => { s with freeChunks := top }.setPc t (.refillClaim caller cnk)

/-- One round of the loop of `reserve`. -/
def reserveTake (s : Pool T) (t : T) (sz : ℕ) : Pool T :=
  let c := clsOf sz
  if cacheSize ≤ (s.mag t c).length then s.setPc t .idle
  else
    let (head, top) := TreiberStack.takeAll (s.classes c)
    let s := { s with classes := Function.update s.classes c top }
    match head with
    | none => s.setPc t (.refillPop (.reserve sz))
    | some _ => s.refillFromChain t c head (.reserve sz)

def mapLarge (s : Pool T) (t : T) (sz : ℕ) (reply : MapReply) : Pool T :=
  let allocSize := roundToCnkSz (sz + sizeofChunk)
  match allocateNewChunk s.mapped allocSize reply with
  | (none, mapped) => { s with mapped }.setPc t .idle
  | (some cnk, mapped) =>
    (s.addChunk mapped cnk { isLarge := true, sz := allocSize }).returnBlock t
      (cnk + sizeofChunk) sz

/-- A step of the walk to the tail, or the push at its end. -/
def spill (s : Pool T) (t : T) (c : Cls) (head rtail : ℕ) (after : Resume) :
    Pool T :=
  match s.next rtail with
  | some r => s.setPc t (.spill c head r after)
  | none =>
    let (next, top) := TreiberStack.pushChain s.next (s.classes c) head rtail
    resume { s with next, classes := Function.update s.classes c top } t after

def flush (s : Pool T) (t : T) (n : ℕ) : Pool T :=
  if h : n < nClasses then
    { s with toBlocks := s.donateClass t ⟨n, h⟩ }.setPc t (.flush (n + 1))
  else { s.setPc t .idle with exited := Function.update s.exited t true }

/-- A thread goes on from where it is. -/
def stepThread (s : Pool T) (t : T) (reply : MapReply) : Option (Pool T) :=
  match s.pc t with
  | .idle => none
  | .fault => none
  | .popTake sz last => some (s.takeBatch t sz last)
  | .spill c head rtail after => some (s.spill t c head rtail after)
  | .refillPop caller => some (s.refillPop t caller)
  | .refillMap caller =>
    if reply.Valid s.mapped chunkSize then some (s.refillMap t caller reply)
    else none
  | .refillClaim caller cnk => some (s.refillClaim t caller cnk)
  | .refillPush caller cnk => some (s.refillPush t caller cnk)
  | .reserveTake sz => some (s.reserveTake t sz)
  | .mapLarge sz =>
    if reply.Valid s.mapped (roundToCnkSz (sz + sizeofChunk)) then
      some (s.mapLarge t sz reply)
    else none
  | .flush n => some (s.flush t n)

def alloc (s : Pool T) (t : T) (sz : ℕ) : Pool T :=
  if maxClassSize < sz then s.setPc t (.mapLarge sz) else s.pop t sz false

def free (s : Pool T) (t : T) (ptr : ℕ) : Pool T :=
  let s := { s with live := s.live.eraseP (·.1 = ptr) }
  let (cnk, c) := baseClsFromPtr s.header ptr
  if (s.header cnk).isLarge then
    { s with
      mapped := s.mapped.munmap cnk (s.header cnk).sz
      chunks := s.chunks.erase cnk }
  else { s with toBlocks := s.push t ptr c }

def threadInit (s : Pool T) (t : T) : Pool T :=
  { s with registered := Function.update s.registered t true }

def reserve (s : Pool T) (t : T) (sz : ℕ) : Pool T :=
  (s.threadInit t).setPc t (.reserveTake sz)

/-- The hook runs for a thread that has set the key. -/
def exit (s : Pool T) (t : T) : Pool T :=
  if s.registered t then s.setPc t (.flush 0)
  else { s with exited := Function.update s.exited t true }

/-- A thread that may make a call. -/
def Ready (s : Pool T) (t : T) : Prop :=
  s.pc t = .idle ∧ s.exited t = false

instance (s : Pool T) (t : T) : Decidable (s.Ready t) :=
  inferInstanceAs (Decidable (_ ∧ _))

/-- `none` if the action is not possible, or not allowed to a client. -/
def act (s : Pool T) : Action T → Option (Pool T)
  | .alloc t sz => if s.Ready t ∧ sz ≤ 2 ^ 40 then some (s.alloc t sz) else none
  | .free t ptr =>
    if s.Ready t ∧ ptr ∈ s.live.map Prod.fst then some (s.free t ptr) else none
  | .reserve t sz =>
    if s.Ready t ∧ sz ≤ maxClassSize then some (s.reserve t sz) else none
  | .threadInit t => if s.Ready t then some (s.threadInit t) else none
  | .exit t => if s.Ready t then some (s.exit t) else none
  | .step t reply => s.stepThread t reply
  | .write ptr value =>
    if ∃ e ∈ s.live, e.1 = ptr ∧ e.2 ≤ maxClassSize then
      some { s with next := Function.update s.next ptr value }
    else none

end Pool

/-- The pool and its threads, from the start of the program. -/
def system (T : Type*) [DecidableEq T] : TransitionSystem (Pool T) (Action T) where
  start := {}
  step := Pool.act

end Fastbook.BufferPool

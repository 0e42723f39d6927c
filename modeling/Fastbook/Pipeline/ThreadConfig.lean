import Mathlib.Algebra.GroupWithZero.Nat
import Mathlib.Data.List.DropRight

/-!
# The thread configuration

A model of `ThreadConfig` (`pipeline/thread_config.hpp`).  A text is the list of
its characters, a byte being the character with its code, and an exception is an
error with its message.  `N_SHARDS` is a parameter.
-/

namespace Fastbook

inductive SchedPolicy where
  | fifo
  | normal
  deriving DecidableEq, Repr

structure ThreadConfig (nShards : ℕ) where
  feedCore : UInt32
  builderCores : Vector UInt32 nShards
  sched : SchedPolicy
  deriving DecidableEq, Repr

namespace ThreadConfig

/-- An input stream: what can be read from it, and whether reading ends with an
error. -/
structure Stream where
  text : List Char
  bad : Bool := false

/-- The lines that `std::getline` reads, one after the other.  The last one need
not end with a newline, and there is none after a newline at the end. -/
def lines : List Char → List (List Char)
  | [] => []
  | c :: text =>
    if c = '\n' then [] :: lines text
    else
      match lines text with
      | [] => [[c]]
      | line :: rest => (c :: line) :: rest

/-- The characters of `ws`. -/
def isWs (c : Char) : Bool :=
  c = ' ' || c = '\t' || c = '\r'

def trim (s : List Char) : List Char :=
  (s.dropWhile isWs).rdropWhile isWs

/-! ## Numbers -/

inductive Errc where
  | ok
  | invalidArgument
  | resultOutOfRange
  deriving DecidableEq, Repr

/-- The number with the given decimal digits. -/
def decimal (digits : List Char) : ℕ :=
  digits.foldl (fun n c => n * 10 + (c.toNat - '0'.toNat)) 0

/-- `std::from_chars` of an unsigned 32-bit number: what it has stored, the
characters from the returned pointer on, and the error code. -/
def fromChars (s : List Char) : UInt32 × List Char × Errc :=
  let digits := s.takeWhile Char.isDigit
  let rest := s.dropWhile Char.isDigit
  if digits = [] then (0, s, .invalidArgument)
  else if decimal digits < 2 ^ 32 then (.ofNat (decimal digits), rest, .ok)
  else (0, rest, .resultOutOfRange)

/-! ## Parsing -/

/-- What the lines have set so far. -/
structure Entries where
  feed : Option UInt32 := none
  sched : Option SchedPolicy := none
  builders : List UInt32 := []
  deriving DecidableEq, Repr

def fail (source : String) (lineno : ℕ) (why : String) : String :=
  source ++ ":" ++ toString lineno ++ ": " ++ why

def quote (s : List Char) : String :=
  "'" ++ String.ofList s ++ "'"

section Parse

variable (nShards : ℕ) (source : String)

/-- A line whose role is `sched`. -/
def parseSched (st : Entries) (lineno : ℕ) (value : List Char) :
    Except String Entries :=
  if st.sched.isSome then .error (fail source lineno "duplicate 'sched' entry")
  else if value = "fifo".toList then .ok { st with sched := some .fifo }
  else if value = "normal".toList then .ok { st with sched := some .normal }
  else .error (fail source lineno
    ("invalid sched " ++ quote value ++ ", expected 'fifo' or 'normal'"))

/-- A line with another role, and its core. -/
def parseCore (st : Entries) (lineno : ℕ) (role : List Char) (core : UInt32) :
    Except String Entries :=
  if role = "feed".toList then
    if st.feed.isSome then .error (fail source lineno "duplicate 'feed' entry")
    else .ok { st with feed := some core }
  else if role = "builder".toList then
    if st.builders.length = nShards then
      .error (fail source lineno
        ("more than N_SHARDS (" ++ toString nShards ++ ") 'builder' entries"))
    else .ok { st with builders := st.builders ++ [core] }
  else .error (fail source lineno
    ("unknown role " ++ quote role ++ ", expected 'feed', 'builder' or 'sched'"))

/-- The body of the loop over the lines. -/
def parseLine (st : Entries) (lineno : ℕ) (line : List Char) :
    Except String Entries :=
  let entry := trim line
  if entry = [] ∨ entry.head? = some '#' then .ok st
  else
    match entry.findIdx? (· == ':') with
    | none => .error (fail source lineno "expected '<role>: <core>'")
    | some colon =>
      let role := trim (entry.take colon)
      let value := trim (entry.drop (colon + 1))
      if role = "sched".toList then parseSched source st lineno value
      else
        let (core, ptr, ec) := fromChars value
        if value = [] ∨ ec ≠ .ok ∨ ptr ≠ [] then
          .error (fail source lineno ("invalid core number " ++ quote value))
        else parseCore nShards source st lineno role core

/-- The lines after the first `lineno` ones. -/
def parseLines (st : Entries) (lineno : ℕ) :
    List (List Char) → Except String Entries
  | [] => .ok st
  | line :: rest =>
    match parseLine nShards source st (lineno + 1) line with
    | .error e => .error e
    | .ok st => parseLines st (lineno + 1) rest

def parse (input : Stream) : Except String (ThreadConfig nShards) :=
  match parseLines nShards source {} 0 (lines input.text) with
  | .error e => .error e
  | .ok st =>
    if input.bad then .error (source ++ ": read error")
    else
      match st.feed with
      | none => .error (source ++ ": missing 'feed' entry")
      | some feed =>
        if h : st.builders.length = nShards then
          .ok { feedCore := feed
                builderCores := ⟨st.builders.toArray, by simpa using h⟩
                sched := st.sched.getD .fifo }
        else .error (source ++ ": expected " ++ toString nShards ++
          " 'builder' entries, found " ++ toString st.builders.length)

end Parse

/-! ## Validation -/

/-- `std::ranges::adjacent_find`. -/
def adjacentFind : List UInt32 → Option UInt32
  | [] => none
  | [_] => none
  | a :: b :: rest => if a = b then some a else adjacentFind (b :: rest)

variable {nShards : ℕ}

/-- The cores of the hot threads. -/
def cores (cfg : ThreadConfig nShards) : List UInt32 :=
  cfg.feedCore :: cfg.builderCores.toList

/-- `configured` is what `sysconf` says of the number of CPUs. -/
def validate (cfg : ThreadConfig nShards) (source : String) (configured : ℤ) :
    Except String Unit :=
  if configured ≤ 0 then
    .error (source ++ ": cannot determine the number of CPUs")
  else
    let nCpus := UInt32.ofNat configured.toNat
    match cfg.cores.find? fun core => nCpus ≤ core with
    | some core =>
      .error (source ++ ": core " ++ toString core ++
        " does not exist (this machine has " ++ toString nCpus ++ " CPUs)")
    | none =>
      match adjacentFind (cfg.cores.mergeSort fun a b => a ≤ b) with
      | some dup =>
        .error (source ++ ": core " ++ toString dup ++
          " is assigned to more than one hot thread")
      | none => .ok ()

/-- `file` is `none` if the file cannot be opened. -/
def load (nShards : ℕ) (path : String) (file : Option Stream) (configured : ℤ) :
    Except String (ThreadConfig nShards) :=
  match file with
  | none => .error ("failed to open thread config: " ++ path)
  | some input =>
    match parse nShards path input with
    | .error e => .error e
    | .ok cfg =>
      match cfg.validate path configured with
      | .error e => .error e
      | .ok _ => .ok cfg

end ThreadConfig

end Fastbook

import Fastbook.Common.LogRecord

/-!
# The text of a log line

A model of the deferred formatting of `common/logger.hpp`: `count_fields` and
`split` take a format string apart when it is compiled, and `decode` weaves the
segments and the arguments of a record together on the logger thread.  A thread
without a ring prints at once, through `std::print`.

A format string that compiles is its segments joined by empty fields, and the
line that is printed later is the line that would have been printed at once, up
to the end of a last string that did not fit into the record.
-/

namespace Fastbook.Logger

def openBrace : UInt8 := 0x7b

def closeBrace : UInt8 := 0x7d

def countFields : List UInt8 → ℕ
  | a :: b :: rest =>
    if a = openBrace ∧ b = closeBrace then countFields rest + 1
    else countFields (b :: rest)
  | _ => 0

/-- Why `split` does not compile. -/
inductive SplitError where
  /-- `unsupported format: unclosed '{'` -/
  | unclosedOpen
  /-- `unsupported format: unclosed '}'` -/
  | unclosedClose
  /-- An index outside of the array of segments. -/
  | outOfRange
  deriving DecidableEq, Repr

/-- The loop of `split`: `current` has the characters from `current_start` on,
and `n` is `current_seg`. -/
def splitLoop (k : ℕ) (current : List UInt8) (n : ℕ) (segments : List (List UInt8)) :
    List UInt8 → Except SplitError (List (List UInt8))
  | [] => .ok (segments.set k current)
  | [c] =>
    if c = openBrace then .error .unclosedOpen
    else if c = closeBrace then .error .unclosedClose
    else splitLoop k (current ++ [c]) n segments []
  | c :: d :: rest =>
    if c = openBrace then
      if d = closeBrace then
        if n < segments.length then splitLoop k [] (n + 1) (segments.set n current) rest
        else .error .outOfRange
      else .error .unclosedOpen
    else if c = closeBrace then .error .unclosedClose
    else splitLoop k (current ++ [c]) n segments (d :: rest)

/-- `split<K>`. -/
def split (k : ℕ) (fmt : List UInt8) : Except SplitError (List (List UInt8)) :=
  splitLoop k [] 0 (List.replicate (k + 1) []) fmt

/-! ## The segments of a format string -/

/-- A format string is its segments, which have no braces, with an empty field
between any two of them. -/
inductive Spells : List UInt8 → List (List UInt8) → Prop
  | nil : Spells [] [[]]
  | char {c : UInt8} {rest s : List UInt8} {ss : List (List UInt8)}
      (hopen : c ≠ openBrace) (hclose : c ≠ closeBrace) (h : Spells rest (s :: ss)) :
      Spells (c :: rest) ((c :: s) :: ss)
  | field {rest : List UInt8} {ss : List (List UInt8)} (h : Spells rest ss) :
      Spells (openBrace :: closeBrace :: rest) ([] :: ss)

section Split

variable {k n : ℕ} {fmt rest current : List UInt8} {segments segs result : List (List UInt8)}

theorem countFields_char {c : UInt8} (h : c ≠ openBrace) (rest : List UInt8) :
    countFields (c :: rest) = countFields rest := by
  cases rest with
  | nil => rfl
  | cons d rest => rw [countFields, if_neg fun hc => h hc.1]

theorem countFields_field (rest : List UInt8) :
    countFields (openBrace :: closeBrace :: rest) = countFields rest + 1 := by
  rw [countFields, if_pos ⟨rfl, rfl⟩]

theorem Spells.length_eq (h : Spells fmt segs) : segs.length = countFields fmt + 1 := by
  induction h with
  | nil => rfl
  | char hopen hclose h ih =>
      rw [countFields_char hopen]
      exact ih
  | field h ih => rw [countFields_field, List.length_cons, ih]

/-- A loop that ends has found the segments. -/
theorem spells_of_splitLoop (h : splitLoop k current n segments rest = .ok result)
    (hlen : segments.length = k + 1) (hcount : n + countFields rest = k) :
    ∃ s ss, Spells rest (s :: ss) ∧ result = segments.take n ++ (current ++ s) :: ss := by
  fun_induction splitLoop k current n segments rest with
  | case1 current n segments =>
      cases h
      refine ⟨[], [], .nil, ?_⟩
      have hn : n = k := by simpa [countFields] using hcount
      rw [hn, List.append_nil, List.set_eq_take_append_cons_drop, if_pos (by omega),
        List.drop_of_length_le (by omega)]
  | case2 => cases h
  | case3 => cases h
  | case4 current n segments c hopen hclose ih =>
      obtain ⟨s, ss, hspells, hresult⟩ := ih h hlen hcount
      refine ⟨c :: s, ss, .char hopen hclose hspells, ?_⟩
      rw [hresult, List.append_assoc, List.singleton_append]
  | case5 current n segments rest hn ih =>
      rw [countFields_field] at hcount
      obtain ⟨s, ss, hspells, hresult⟩ := ih h (by rw [List.length_set, hlen]) (by omega)
      refine ⟨[], s :: ss, .field hspells, ?_⟩
      rw [hresult, List.take_add_one, List.take_set_of_le (le_refl n), List.getElem?_set_self hn,
        List.append_nil, List.nil_append, List.append_assoc]
      rfl
  | case6 => cases h
  | case7 => cases h
  | case8 => cases h
  | case9 current n segments c d rest hopen hclose ih =>
      rw [countFields_char hopen] at hcount
      obtain ⟨s, ss, hspells, hresult⟩ := ih h hlen hcount
      refine ⟨c :: s, ss, .char hopen hclose hspells, ?_⟩
      rw [hresult, List.append_assoc, List.singleton_append]

/-- The segments of a string are found. -/
theorem splitLoop_of_spells {s : List UInt8} {ss : List (List UInt8)}
    (h : Spells rest (s :: ss)) (hlen : segments.length = k + 1) (hn : n + ss.length = k) :
    splitLoop k current n segments rest =
      .ok (segments.take n ++ (current ++ s) :: ss) := by
  generalize hsegs : s :: ss = segs at h
  induction h generalizing current n segments s ss with
  | nil =>
      obtain ⟨rfl, rfl⟩ := List.cons.inj hsegs
      have hk : n = k := by simpa using hn
      rw [splitLoop, hk, List.append_nil, List.set_eq_take_append_cons_drop,
        if_pos (by omega), List.drop_of_length_le (by omega)]
  | @char c rest s' ss' hopen hclose h ih =>
      obtain ⟨rfl, rfl⟩ := List.cons.inj hsegs
      have hloop : splitLoop k current n segments (c :: rest) =
          splitLoop k (current ++ [c]) n segments rest := by
        cases rest with
        | nil => simp [splitLoop, hopen, hclose]
        | cons d rest => simp [splitLoop, hopen, hclose]
      rw [hloop, ih hlen hn rfl, List.append_assoc, List.singleton_append]
  | @field rest ss' h ih =>
      obtain ⟨rfl, rfl⟩ := List.cons.inj hsegs
      cases ss with
      | nil => cases h
      | cons s ss =>
          rw [List.length_cons] at hn
          have hlt : n < segments.length := by omega
          rw [splitLoop, if_pos rfl, if_pos rfl, if_pos hlt,
            ih (by rw [List.length_set, hlen]) (by omega) rfl, List.take_add_one,
            List.take_set_of_le (le_refl n), List.getElem?_set_self hlt, List.append_nil,
            List.nil_append, List.append_assoc]
          rfl

theorem Spells.ne_nil (h : Spells fmt segs) : ∃ s ss, segs = s :: ss := by
  cases h with
  | nil => exact ⟨_, _, rfl⟩
  | char => exact ⟨_, _, rfl⟩
  | field => exact ⟨_, _, rfl⟩

/-- A format string compiles exactly if it is spelled by segments, and these are
what it is split into. -/
theorem split_eq_ok_iff : split (countFields fmt) fmt = .ok segs ↔ Spells fmt segs := by
  have hlen : (List.replicate (countFields fmt + 1) ([] : List UInt8)).length =
      countFields fmt + 1 := List.length_replicate
  constructor
  · intro h
    obtain ⟨s, ss, hspells, hresult⟩ := spells_of_splitLoop h hlen (Nat.zero_add _)
    rw [hresult]
    exact hspells
  · intro h
    obtain ⟨s, ss, rfl⟩ := h.ne_nil
    have hss : 0 + ss.length = countFields fmt := by simpa using h.length_eq
    exact splitLoop_of_spells h hlen hss

end Split

/-! ## Formatting -/

/-- `std::format` with empty fields and escaped braces, for the texts of its
arguments.  Format specifications and argument ids are left out. -/
def stdFormat : List UInt8 → List (List UInt8) → Option (List UInt8)
  | [], _ => some []
  | [c], _ => if c = openBrace ∨ c = closeBrace then none else some [c]
  | c :: d :: rest, texts =>
    if c = openBrace then
      if d = openBrace then (stdFormat rest texts).map (openBrace :: ·)
      else if d = closeBrace then
        match texts with
        | [] => none
        | text :: texts => (stdFormat rest texts).map (text ++ ·)
      else none
    else if c = closeBrace then
      if d = closeBrace then (stdFormat rest texts).map (closeBrace :: ·) else none
    else (stdFormat (d :: rest) texts).map (c :: ·)

/-- The end of `decode`: a segment before each argument, and the last segment. -/
def weave : List (List UInt8) → List (List UInt8) → List UInt8
  | s :: ss, text :: texts => s ++ text ++ weave ss texts
  | s :: _, [] => s
  | [], _ => []

theorem stdFormat_of_spells {fmt : List UInt8} {segs texts : List (List UInt8)}
    (h : Spells fmt segs) (hlen : texts.length = countFields fmt) :
    stdFormat fmt texts = some (weave segs texts) := by
  induction h generalizing texts with
  | nil =>
      rw [List.length_eq_zero_iff.mp hlen]
      rfl
  | @char c rest s ss hopen hclose h ih =>
      rw [countFields_char hopen] at hlen
      have hformat : stdFormat (c :: rest) texts = (stdFormat rest texts).map (c :: ·) := by
        cases rest with
        | nil => simp [stdFormat, hopen, hclose]
        | cons d rest => simp [stdFormat, hopen, hclose]
      rw [hformat, ih hlen]
      cases texts <;> rfl
  | @field rest ss h ih =>
      rw [countFields_field] at hlen
      cases texts with
      | nil => cases hlen
      | cons text texts =>
          have hne : closeBrace ≠ openBrace := by decide
          simp [stdFormat, hne, ih (Nat.succ.inj hlen), weave]

/-! ## Log calls -/

def ascii (s : String) : List UInt8 :=
  s.toList.map fun c => UInt8.ofNat c.toNat

def decimal (n : ℕ) : List UInt8 :=
  (Nat.toDigits 10 n).map fun c => UInt8.ofNat c.toNat

/-- An unsigned number in memory, least significant byte first. -/
def leValue (bytes : List UInt8) : ℕ :=
  bytes.foldr (fun b n => b.toNat + 256 * n) 0

/-- The arithmetic types other than `bool` and `char`, with their sizes. -/
inductive Arith where
  | unsigned (size : ℕ)
  | signed (size : ℕ)
  | float (size : ℕ)
  deriving DecidableEq, Repr

def Arith.size : Arith → ℕ
  | unsigned size => size
  | signed size => size
  | float size => size

/-- The types that `format_arg` has a case for. -/
inductive Stored where
  | string
  | bool
  | char
  | arith (t : Arith)
  deriving DecidableEq, Repr

def Stored.argType : Stored → ArgType
  | string => .str
  | bool => .scalar 1
  | char => .scalar 1
  | arith t => .scalar t.size

def Arg.bytes : Arg → List UInt8
  | scalar bytes _ => bytes
  | str s => s

/-- An argument of a log call. -/
structure LogArg where
  stored : Stored
  arg : Arg
  typed : arg.type = stored.argType

inductive Level where
  | trace
  | debug
  | info
  | warn
  | error
  | fatal
  deriving DecidableEq, Repr

def levelToStr : Level → String
  | .trace => "TRACE"
  | .debug => "DEBUG"
  | .info => "INFO"
  | .warn => "WARN"
  | .error => "ERROR"
  | .fatal => "FATAL"

structure LogMetadata where
  fmt : List UInt8
  file : List UInt8
  line : UInt32
  level : Level

section Lines

-- `std::to_chars` of a floating-point object of a given size
variable (floatChars : ℕ → List UInt8 → List UInt8)

/-- `std::to_chars`. -/
def toChars : Arith → List UInt8 → List UInt8
  | .unsigned _, bytes => decimal (leValue bytes)
  | .signed size, bytes =>
    if leValue bytes < 2 ^ (8 * size - 1) then decimal (leValue bytes)
    else ascii "-" ++ decimal (2 ^ (8 * size) - leValue bytes)
  | .float size, bytes => floatChars size bytes

def formatArg : Stored → List UInt8 → List UInt8
  | .string, bytes => bytes
  | .bool, bytes => if bytes = [0] then ascii "false" else ascii "true"
  | .char, bytes => bytes
  | .arith t, bytes => toChars floatChars t bytes

/-- The text of an argument, for `std::format` and for `format_arg` alike. -/
def LogArg.text (a : LogArg) : List UInt8 :=
  formatArg floatChars a.stored a.arg.bytes

/-- What stands before the text in every line. -/
def preamble (m : LogMetadata) : List UInt8 :=
  ascii "[" ++ ascii (levelToStr m.level) ++ ascii "] " ++ m.file ++ ascii ":" ++
    decimal m.line.toNat ++ ascii " "

/-- `emit` on a thread without a ring. -/
def printedLine (m : LogMetadata) (args : List LogArg) : Option (List UInt8) :=
  (stdFormat m.fmt (args.map (LogArg.text floatChars))).map fun text =>
    preamble m ++ text ++ ascii "\n"

/-- `decode`, if it compiles. -/
def decode (fmt : List UInt8) (types : List Stored) (mem : ℕ → UInt8) :
    Option (List UInt8) :=
  if countFields fmt = types.length then
    match split (countFields fmt) fmt with
    | .error _ => none
    | .ok segs => some (weave segs (List.zipWith (formatArg floatChars) types
        (readArgs mem 0 (types.map Stored.argType))))
  else none

/-- The line of a record in `drain_and_log`. -/
def drainedLine (m : LogMetadata) (types : List Stored) (mem : ℕ → UInt8) :
    Option (List UInt8) :=
  (decode floatChars m.fmt types mem).map fun text => preamble m ++ text ++ ascii "\n"

/-- An argument, or a string cut off somewhere. -/
def CutFrom (a a' : LogArg) : Prop :=
  a' = a ∨ a.stored = .string ∧ a'.stored = .string ∧ a'.arg.bytes <+: a.arg.bytes

/-- The arguments as they are read back. -/
theorem exists_cut {fits : Prop} {args : List LogArg} {reads : List (List UInt8)}
    (h : List.Forall₂ (ReadsBack fits) (args.map LogArg.arg) reads) :
    ∃ args', List.Forall₂ CutFrom args args' ∧ (fits → args' = args) ∧
      List.zipWith (formatArg floatChars) (args.map LogArg.stored) reads =
        args'.map (LogArg.text floatChars) := by
  induction args generalizing reads with
  | nil =>
      cases h
      exact ⟨[], .nil, fun _ => rfl, rfl⟩
  | cons a args ih =>
      obtain ⟨read, reads, hread, hreads, rfl⟩ := List.forall₂_cons_left_iff.mp h
      obtain ⟨args', hcut, hfits, htexts⟩ := ih hreads
      obtain ⟨stored, arg, typed⟩ := a
      cases arg with
      | scalar bytes nonempty =>
          cases hread
          refine ⟨⟨stored, .scalar read nonempty, typed⟩ :: args', .cons (Or.inl rfl) hcut,
            fun hf => by rw [hfits hf], ?_⟩
          rw [List.map_cons, List.zipWith_cons_cons, htexts]
          rfl
      | str s =>
          obtain rfl : stored = .string := by
            cases stored with
            | string => rfl
            | bool | char | arith => cases typed
          refine ⟨⟨.string, .str read, rfl⟩ :: args',
            .cons (Or.inr ⟨rfl, rfl, hread.1⟩) hcut, fun hf => ?_, ?_⟩
          · have hs : read = s := hread.2 hf
            subst hs
            rw [hfits hf]
          · rw [List.map_cons, List.zipWith_cons_cons, htexts]
            rfl

/-- A log call that compiles and whose arguments have room in a record: the line
of the logger thread is the line that is printed without a ring, for the
arguments themselves if all of them fit. -/
theorem drained_eq_printed {m : LogMetadata} {args : List LogArg}
    {segs : List (List UInt8)} (hsplit : split (countFields m.fmt) m.fmt = .ok segs)
    (hcount : countFields m.fmt = args.length)
    (hroom : Room 0 (args.map LogArg.arg)) (mem : ℕ → UInt8) :
    ∃ args' line, List.Forall₂ CutFrom args args' ∧
      ((args.map fun a => a.arg.wireSize).sum ≤ payloadBytes → args' = args) ∧
      printedLine floatChars m args' = some line ∧
      drainedLine floatChars m (args.map LogArg.stored)
        (Payload.writeArgs { mem } (args.map LogArg.arg)).mem = some line := by
  have hspells := split_eq_ok_iff.mp hsplit
  have hreads := Payload.readArgs_writeArgs (p := { mem }) hroom
  have htypes : (args.map LogArg.arg).map Arg.type =
      (args.map LogArg.stored).map Stored.argType := by
    simp only [List.map_map]
    exact List.map_congr_left fun a _ => a.typed
  rw [htypes] at hreads
  obtain ⟨args', hcut, hfits, htexts⟩ := exists_cut floatChars hreads
  have hlen : (args'.map (LogArg.text floatChars)).length = countFields m.fmt := by
    rw [List.length_map, ← hcut.length_eq, hcount]
  refine ⟨args', preamble m ++ weave segs (args'.map (LogArg.text floatChars)) ++ ascii "\n",
    hcut, ?_, ?_, ?_⟩
  · intro hsum
    apply hfits
    change 0 + _ ≤ _
    rw [Nat.zero_add, List.map_map]
    exact hsum
  · rw [printedLine, stdFormat_of_spells hspells hlen]
    rfl
  · rw [drainedLine, decode, if_pos (by simpa using hcount)]
    simp only [hsplit]
    rw [htexts]
    rfl

end Lines

/-- A call with a number and a string. -/
def sampleCall : LogMetadata where
  fmt := ascii "\x7b\x7d orders of \x7b\x7d"
  file := ascii "book.cpp"
  line := 7
  level := .info

@[inherit_doc sampleCall]
def sampleArgs : List LogArg :=
  [⟨.arith (.unsigned 2), .scalar [1, 1] (by decide), rfl⟩, ⟨.string, .str (ascii "TEST"), rfl⟩]

theorem drained_eq_printed_sample :
    printedLine (fun _ _ => []) sampleCall sampleArgs =
        some (ascii "[INFO] book.cpp:7 257 orders of TEST\n") ∧
      drainedLine (fun _ _ => []) sampleCall (sampleArgs.map LogArg.stored)
        (Payload.writeArgs { mem := fun _ => 0 } (sampleArgs.map LogArg.arg)).mem =
      some (ascii "[INFO] book.cpp:7 257 orders of TEST\n") := by
  obtain ⟨segs, hsplit⟩ : ∃ segs, split (countFields sampleCall.fmt) sampleCall.fmt =
      .ok segs := ⟨_, rfl⟩
  have hroom : Room 0 (sampleArgs.map LogArg.arg) := by
    simp only [sampleArgs, List.map_cons, List.map_nil, Room]
    decide
  obtain ⟨args', line, -, hfits, hprinted, hdrained⟩ :=
    drained_eq_printed (fun _ _ => []) hsplit rfl hroom fun _ => 0
  rw [hfits (by decide)] at hprinted
  have hline : printedLine (fun _ _ => []) sampleCall sampleArgs =
      some (ascii "[INFO] book.cpp:7 257 orders of TEST\n") := rfl
  rw [hdrained, ← hprinted]
  exact ⟨hline, hline⟩

end Fastbook.Logger

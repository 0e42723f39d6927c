import Mathlib.Algebra.BigOperators.Group.List.Basic
import Mathlib.Algebra.GroupWithZero.Nat
import Mathlib.Data.List.Basic
import Mathlib.Data.List.Induction

/-!
# Reading a byte span

A model of `BufReader` (`feed/buf_reader.hpp`) as a release build runs it: the
length of the span is only asserted, so a read beyond its end yields the bytes
that lie behind the span in memory.  A reader therefore reads from a memory
that starts with the span and goes on after it, and keeps a record of its
reads.

`Consumes p ns` says that the reader program `p` makes reads of the sizes `ns`,
one after the other, and that its result depends on these bytes only.
-/

namespace Fastbook

/-- The number with the given bytes, the most significant first. -/
def beValue (bytes : List UInt8) : ℕ :=
  bytes.foldl (fun n b => n * 256 + b.toNat) 0

theorem beValue_lt (l : List UInt8) : beValue l < 256 ^ l.length := by
  induction l using List.reverseRecOn with
  | nil => simp [beValue]
  | append_singleton l b ih =>
      have hb := b.toNat_lt
      simp only [beValue, List.foldl_append, List.foldl_cons, List.foldl_nil,
        List.length_append, List.length_singleton, pow_succ] at ih ⊢
      omega

/-- `read_num<uint16_t>` at the start of a span of at least two bytes. -/
def readLength (bytes : List UInt8) : ℕ :=
  beValue (bytes.take 2)

theorem readLength_append {l : List UInt8} (h : 2 ≤ l.length)
    (l' : List UInt8) : readLength (l ++ l') = readLength l := by
  rw [readLength, List.take_append_of_le_length h, readLength]

theorem readLength_lt (l : List UInt8) : readLength l < 2 ^ 16 := by
  have hlt := beValue_lt (l.take 2)
  have hle : (l.take 2).length ≤ 2 := List.length_take_le 2 l
  calc readLength l < 256 ^ (l.take 2).length := hlt
    _ ≤ 256 ^ 2 := Nat.pow_le_pow_right (by decide) hle
    _ = 2 ^ 16 := by decide

/-- A read of `count` bytes at offset `pos` of the span. -/
structure Read where
  pos : ℕ
  count : ℕ
  deriving DecidableEq, Repr

structure BufReader where
  mem : ℕ → UInt8
  pos : ℕ
  reads : List Read

/-- A program that reads from a `BufReader`. -/
abbrev Reading (α : Type) := StateM BufReader α

namespace BufReader

def ofSpan (mem : ℕ → UInt8) : BufReader where
  mem := mem
  pos := 0
  reads := []

/-- The `memcpy` and `subspan` that every reader function makes. -/
def copy (n : ℕ) : Reading (List UInt8) := fun r =>
  ((List.range n).map fun i => r.mem (r.pos + i),
    { r with pos := r.pos + n, reads := r.reads ++ [⟨r.pos, n⟩] })

def readU8 : Reading UInt8 := do
  let bytes ← copy 1
  return UInt8.ofNat (beValue bytes)

def readU16 : Reading UInt16 := do
  let bytes ← copy 2
  return UInt16.ofNat (beValue bytes)

def readU32 : Reading UInt32 := do
  let bytes ← copy 4
  return UInt32.ofNat (beValue bytes)

def readU64 : Reading UInt64 := do
  let bytes ← copy 8
  return UInt64.ofNat (beValue bytes)

/-- `read_timestamp`: six bytes, below two zero bytes. -/
def readTimestamp : Reading UInt64 := do
  let bytes ← copy 6
  return UInt64.ofNat (beValue bytes)

def readChars (n : ℕ) : Reading (List UInt8) :=
  copy n

end BufReader

/-- Reads of the given sizes, one after the other. -/
def readsFrom (pos : ℕ) : List ℕ → List Read
  | [] => []
  | n :: ns => ⟨pos, n⟩ :: readsFrom (pos + n) ns

theorem readsFrom_append (pos : ℕ) (ns ms : List ℕ) :
    readsFrom pos (ns ++ ms) =
      readsFrom pos ns ++ readsFrom (pos + ns.sum) ms := by
  induction ns generalizing pos with
  | nil => simp [readsFrom]
  | cons n ns ih => simp [readsFrom, ih, Nat.add_assoc]

/-- Consecutive reads stay below a bound exactly when their total does. -/
theorem forall_readsFrom_le {pos size : ℕ} {ns : List ℕ} (hns : ns ≠ []) :
    (∀ read ∈ readsFrom pos ns, read.pos + read.count ≤ size) ↔
      pos + ns.sum ≤ size := by
  induction ns generalizing pos with
  | nil => exact absurd rfl hns
  | cons n ns ih =>
      by_cases hnil : ns = []
      · subst hnil
        simp [readsFrom]
      · rw [readsFrom, List.forall_mem_cons, ih hnil, List.sum_cons,
          ← Nat.add_assoc]
        simp only [and_iff_right_iff_imp]
        exact fun hle => Nat.le_trans (Nat.le_add_right _ _) hle

structure Consumes {α : Type} (p : Reading α) (ns : List ℕ) : Prop where
  reader : ∀ r, (p r).2 = { r with
    pos := r.pos + ns.sum
    reads := r.reads ++ readsFrom r.pos ns }
  value : ∀ r r' : BufReader,
    (∀ i < ns.sum, r.mem (r.pos + i) = r'.mem (r'.pos + i)) →
      (p r).1 = (p r').1

namespace Consumes

variable {α β : Type}

theorem pure (a : α) : Consumes (Pure.pure a) [] := by
  constructor
  · intro r
    change r = _
    simp [readsFrom]
  · intro r r' _
    rfl

theorem bind {p : Reading α} {f : α → Reading β} {ns ms : List ℕ}
    (hp : Consumes p ns) (hf : ∀ a, Consumes (f a) ms) :
    Consumes (p >>= f) (ns ++ ms) := by
  have hrun : ∀ r, (p >>= f) r = f (p r).1 (p r).2 := fun r => rfl
  constructor
  · intro r
    rw [hrun, (hf _).reader, hp.reader, readsFrom_append]
    simp [Nat.add_assoc]
  · intro r r' hsame
    rw [List.sum_append] at hsame
    have hfirst := hp.value r r' fun i hi => hsame i (by omega)
    rw [hrun, hrun, hfirst]
    apply (hf _).value
    intro i hi
    rw [hp.reader, hp.reader]
    simp only [Nat.add_assoc]
    exact hsame (ns.sum + i) (by omega)

theorem copy (n : ℕ) : Consumes (BufReader.copy n) [n] := by
  constructor
  · intro r
    simp [BufReader.copy, readsFrom]
  · intro r r' hsame
    simp only [BufReader.copy]
    apply List.map_congr_left
    intro i hi
    exact hsame i (by simpa using hi)

/-- A number computed from one copied field. -/
theorem number (n : ℕ) (f : List UInt8 → α) :
    Consumes (do let bytes ← BufReader.copy n; return f bytes) [n] :=
  (copy n).bind fun bytes => pure (f bytes)

theorem readU8 : Consumes BufReader.readU8 [1] := number 1 _

theorem readU16 : Consumes BufReader.readU16 [2] := number 2 _

theorem readU32 : Consumes BufReader.readU32 [4] := number 4 _

theorem readU64 : Consumes BufReader.readU64 [8] := number 8 _

theorem readTimestamp : Consumes BufReader.readTimestamp [6] := number 6 _

theorem readChars (n : ℕ) : Consumes (BufReader.readChars n) [n] := copy n

end Consumes

end Fastbook

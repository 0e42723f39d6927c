import Fastbook.Support.ByteMemory
import Fastbook.Support.Cyclic

/-!
# Log records

A model of `write_arg` and `read_arg` (`common/logger.hpp`).  Memory starts at
the payload of a record and goes on past its end, into the next slot of the
ring.  An argument is the bytes that are copied for it: those of the object for
a trivially copyable type, the characters for a string.  `written` is the log
of the copies made, each with its offset and its length.
-/

namespace Fastbook.Logger

open Support

/-- `RECORD_BYTES - sizeof(RecordHeader)`. -/
def payloadBytes : ℕ := 256 - 16

/-- `sizeof(StrLen)`; a payload of at most 255 bytes makes it one byte. -/
def strLenBytes : ℕ := 1

/-- A stored argument.  Every object has a size of at least one byte. -/
inductive Arg where
  | scalar (bytes : List UInt8) (nonempty : 0 < bytes.length)
  | str (s : List UInt8)

/-- What `decode` knows of an argument: its stored type. -/
inductive ArgType where
  | scalar (size : ℕ)
  | str
  deriving DecidableEq, Repr

namespace Arg

def type : Arg → ArgType
  | scalar bytes _ => .scalar bytes.length
  | str _ => .str

/-- `min_wire_size`. -/
def minWireSize : Arg → ℕ
  | scalar bytes _ => bytes.length
  | str _ => strLenBytes

/-- The bytes the whole argument takes. -/
def wireSize : Arg → ℕ
  | scalar bytes _ => bytes.length
  | str s => strLenBytes + s.length

end Arg

structure Payload where
  mem : ℕ → UInt8
  off : ℕ := 0
  written : List (ℕ × ℕ) := []

namespace Payload

/-- `std::memcpy(payload + off, ...)` and the step of `off` after it. -/
def copy (p : Payload) (bytes : List UInt8) : Payload where
  mem := store p.mem p.off bytes
  off := p.off + bytes.length
  written := p.written ++ [(p.off, bytes.length)]

/-- The length that is written for a string; the room is computed in `size_t`
and the minimum narrowed to `StrLen`. -/
def strLen (p : Payload) (s : List UInt8) : ℕ :=
  min s.length (subU64 (subU64 payloadBytes p.off) strLenBytes) % 256

def writeArg (p : Payload) : Arg → Payload
  | .scalar bytes _ => p.copy bytes
  | .str s =>
    let len := p.strLen s
    (p.copy [UInt8.ofNat len]).copy (s.take len)

/-- The fold of `emit` over its arguments. -/
def writeArgs (p : Payload) (args : List Arg) : Payload :=
  args.foldl writeArg p

end Payload

def readArg (mem : ℕ → UInt8) (off : ℕ) : ArgType → List UInt8 × ℕ
  | .scalar size => (load mem off size, off + size)
  | .str =>
    let len := (mem off).toNat
    (load mem (off + strLenBytes) len, off + strLenBytes + len)

/-- The fold of `decode` over the stored types. -/
def readArgs (mem : ℕ → UInt8) : ℕ → List ArgType → List (List UInt8)
  | _, [] => []
  | off, t :: ts =>
    let (bytes, off') := readArg mem off t
    bytes :: readArgs mem off' ts

/-! ## What a log call promises -/

/-- No copy reaches past the payload. -/
def InBounds (written : List (ℕ × ℕ)) : Prop :=
  ∀ w ∈ written, w.1 + w.2 ≤ payloadBytes

/-- What is read back for an argument: an object unchanged, a string up to some
character, and whole if everything fits. -/
def ReadsBack (fits : Prop) : Arg → List UInt8 → Prop
  | .scalar bytes _, read => read = bytes
  | .str s, read => read <+: s ∧ (fits → read = s)

/-- The arguments are written inside the payload and read back. -/
def Decodes (mem : ℕ → UInt8) (args : List Arg) : Prop :=
  InBounds (Payload.writeArgs { mem } args).written ∧
  List.Forall₂ (ReadsBack ((args.map Arg.wireSize).sum ≤ payloadBytes)) args
    (readArgs (Payload.writeArgs { mem } args).mem 0 (args.map Arg.type))

/-- From offset `off` on, all arguments but the last fit whole, and the last
one with its minimum size. -/
def Room : ℕ → List Arg → Prop
  | _, [] => True
  | off, [a] => off + a.minWireSize ≤ payloadBytes
  | off, a :: b :: args => Room (off + a.wireSize) (b :: args)

/-! ## One argument -/

namespace Arg

theorem minWireSize_pos (a : Arg) : 0 < a.minWireSize := by
  cases a with
  | scalar bytes nonempty => exact nonempty
  | str s => exact Nat.one_pos

theorem minWireSize_le_wireSize (a : Arg) : a.minWireSize ≤ a.wireSize := by
  cases a with
  | scalar bytes nonempty => exact Nat.le_refl _
  | str s => exact Nat.le_add_right _ _

end Arg

namespace Payload

variable {p : Payload} {a : Arg} {args : List Arg}

/-- Where the length byte fits, the room that is left is what it seems. -/
theorem strLen_of_le {s : List UInt8} (h : p.off + strLenBytes ≤ payloadBytes) :
    p.strLen s = min s.length (payloadBytes - p.off - strLenBytes) := by
  have hp : payloadBytes = 240 := rfl
  have hb : strLenBytes = 1 := rfl
  have hroom : subU64 payloadBytes p.off = payloadBytes - p.off :=
    subU64_of_le (by omega) (by omega)
  have hrest : subU64 (payloadBytes - p.off) strLenBytes =
      payloadBytes - p.off - strLenBytes :=
    subU64_of_le (by omega) (by omega)
  unfold strLen
  rw [hroom, hrest]
  exact Nat.mod_eq_of_lt (by omega)

theorem off_le_writeArg (p : Payload) (a : Arg) : p.off ≤ (p.writeArg a).off := by
  cases a with
  | scalar bytes nonempty => simp [writeArg, copy]
  | str s =>
      simp only [writeArg, copy, List.length_singleton]
      omega

/-- An argument that fits is stored whole. -/
theorem writeArg_off (h : p.off + a.wireSize ≤ payloadBytes) :
    (p.writeArg a).off = p.off + a.wireSize := by
  cases a with
  | scalar bytes nonempty => rfl
  | str s =>
      simp only [Arg.wireSize] at h
      simp only [writeArg, copy, Arg.wireSize, List.length_singleton,
        List.length_take]
      rw [strLen_of_le (by omega)]
      have hb : strLenBytes = 1 := rfl
      omega

theorem writeArg_frame {i : ℕ} (h : i < p.off) :
    (p.writeArg a).mem i = p.mem i := by
  cases a with
  | scalar bytes nonempty => exact store_of_lt h
  | str s =>
      exact (store_of_lt (Nat.lt_succ_of_lt h)).trans (store_of_lt h)

theorem writeArgs_frame {i : ℕ} (h : i < p.off) :
    (p.writeArgs args).mem i = p.mem i := by
  induction args generalizing p with
  | nil => rfl
  | cons a args ih =>
      calc (p.writeArgs (a :: args)).mem i
          = (p.writeArg a).mem i := ih (h.trans_le (p.off_le_writeArg a))
        _ = p.mem i := writeArg_frame h

theorem mem_writeArgs_written {w : ℕ × ℕ} (h : w ∈ p.written) :
    w ∈ (p.writeArgs args).written := by
  induction args generalizing p with
  | nil => exact h
  | cons a args ih =>
      apply ih
      cases a <;> simp [writeArg, copy, h]

/-- Where the least size of an argument fits, it is written inside. -/
theorem writeArg_inBounds (h : p.off + a.minWireSize ≤ payloadBytes)
    (hp : InBounds p.written) : InBounds (p.writeArg a).written := by
  intro w hw
  cases a with
  | scalar bytes nonempty =>
      simp only [writeArg, copy, List.mem_append, List.mem_singleton] at hw
      obtain hw | rfl := hw
      · exact hp w hw
      · exact h
  | str s =>
      simp only [Arg.minWireSize] at h
      have hb : strLenBytes = 1 := rfl
      simp only [writeArg, copy, List.mem_append, List.mem_singleton,
        List.length_singleton, List.length_take, strLen_of_le h] at hw
      obtain (hw | rfl) | rfl := hw
      · exact hp w hw
      · exact h
      · simp only
        omega

/-- Where it does not, the first copy made for it runs over the end. -/
theorem writeArg_overrun (h : payloadBytes < p.off + a.minWireSize) :
    ¬ InBounds (p.writeArg a).written := by
  intro hin
  cases a with
  | scalar bytes nonempty =>
      have := hin (p.off, bytes.length) (by simp [writeArg, copy])
      simp only [Arg.minWireSize] at h
      omega
  | str s =>
      have := hin (p.off, 1) (by simp [writeArg, copy])
      simp only [Arg.minWireSize, strLenBytes] at h
      omega

/-- An argument is read back from any memory that agrees with the one it was
written to up to the new offset. -/
theorem readArg_writeArg {mem : ℕ → UInt8}
    (h : p.off + a.minWireSize ≤ payloadBytes)
    (hmem : ∀ i, i < (p.writeArg a).off → mem i = (p.writeArg a).mem i) :
    ∃ bytes, readArg mem p.off a.type = (bytes, (p.writeArg a).off) ∧
      ReadsBack (p.off + a.wireSize ≤ payloadBytes) a bytes := by
  cases a with
  | scalar bytes nonempty =>
      refine ⟨bytes, ?_, rfl⟩
      have hload : load mem p.off bytes.length = bytes := by
        rw [load_congr hmem]
        exact load_store p.mem p.off bytes
      simp only [readArg, Arg.type, hload]
      rfl
  | str s =>
      simp only [Arg.minWireSize] at h
      have hb : strLenBytes = 1 := rfl
      have hp : payloadBytes = 240 := rfl
      have hlen := strLen_of_le (s := s) h
      have htake : (s.take (p.strLen s)).length = p.strLen s := by
        rw [List.length_take]
        omega
      have hoff : (p.writeArg (.str s)).off = p.off + 1 + p.strLen s := by
        simp only [writeArg, copy, htake, List.length_singleton]
      rw [hoff] at hmem
      -- the length byte, then the characters
      have hbyte : (mem p.off).toNat = p.strLen s := by
        rw [hmem p.off (by omega)]
        simp only [writeArg, copy, List.length_singleton]
        rw [store_of_lt (Nat.lt_succ_self _)]
        simp only [store, lt_irrefl, if_false, Nat.sub_self]
        simp only [List.getElem?_cons_zero, Option.getD_some]
        exact UInt8.toNat_ofNat_of_lt' (by simp only [UInt8.size]; omega)
      have hload : load mem (p.off + 1) (p.strLen s) = s.take (p.strLen s) := by
        rw [load_congr hmem]
        have := load_store (store p.mem p.off [UInt8.ofNat (p.strLen s)])
          (p.off + 1) (s.take (p.strLen s))
        rwa [htake] at this
      refine ⟨s.take (p.strLen s), ?_, List.take_prefix _ _, ?_⟩
      · simp only [readArg, Arg.type, hbyte, hoff, hb, hload]
      · intro hfits
        simp only [Arg.wireSize] at hfits
        exact List.take_of_length_le (by omega)

end Payload

/-! ## A list of arguments -/

theorem ReadsBack.mono {fits fits' : Prop} {a : Arg} {read : List UInt8}
    (h : ReadsBack fits a read) (hf : fits' → fits) : ReadsBack fits' a read := by
  cases a with
  | scalar bytes nonempty => exact h
  | str s => exact ⟨h.1, fun hfits => h.2 (hf hfits)⟩

theorem Room.le {off : ℕ} {a : Arg} {args : List Arg} (h : Room off (a :: args)) :
    off + a.minWireSize ≤ payloadBytes := by
  induction args generalizing off a with
  | nil => exact h
  | cons b args ih =>
      have hb := ih h
      have ha := a.minWireSize_le_wireSize
      omega

namespace Payload

variable {p : Payload} {a : Arg} {args : List Arg}

/-- An argument that leaves room for another one was stored whole. -/
theorem room_writeArg (h : Room p.off (a :: args)) :
    Room (p.writeArg a).off args := by
  cases args with
  | nil => exact trivial
  | cons b args =>
      have hb := Room.le (show Room (p.off + a.wireSize) (b :: args) from h)
      rw [writeArg_off (by omega)]
      exact h

theorem writeArgs_inBounds (h : Room p.off args) (hp : InBounds p.written) :
    InBounds (p.writeArgs args).written := by
  induction args generalizing p with
  | nil => exact hp
  | cons a args ih => exact ih (room_writeArg h) (writeArg_inBounds h.le hp)

theorem readArgs_writeArgs (h : Room p.off args) :
    List.Forall₂
      (ReadsBack (p.off + (args.map Arg.wireSize).sum ≤ payloadBytes)) args
      (readArgs (p.writeArgs args).mem p.off (args.map Arg.type)) := by
  induction args generalizing p with
  | nil => exact .nil
  | cons a args ih =>
      have hframe : ∀ i, i < (p.writeArg a).off →
          (p.writeArgs (a :: args)).mem i = (p.writeArg a).mem i :=
        fun i hi => writeArgs_frame hi
      obtain ⟨bytes, hread, hback⟩ := readArg_writeArg h.le hframe
      simp only [List.map_cons, readArgs, hread, List.sum_cons]
      refine .cons (hback.mono (by omega)) ?_
      refine (ih (room_writeArg h)).imp fun b read hb => hb.mono fun hfits => ?_
      rw [writeArg_off (by omega)]
      omega

/-- What goes wrong: either this argument runs over the end, or it has used up
the room of those that follow. -/
theorem not_room_writeArg (h : ¬ Room p.off (a :: args)) :
    ¬ InBounds (p.writeArg a).written ∨ ¬ Room (p.writeArg a).off args := by
  by_cases hmin : payloadBytes < p.off + a.minWireSize
  · exact .inl (writeArg_overrun hmin)
  · right
    cases args with
    | nil => exact absurd (Nat.le_of_not_lt hmin) h
    | cons b args =>
        by_cases hwire : p.off + a.wireSize ≤ payloadBytes
        · rw [writeArg_off hwire]
          exact h
        · cases a with
          | scalar bytes nonempty => exact absurd (Nat.le_of_not_lt hmin) hwire
          | str s =>
              -- the string is cut to end with the payload
              simp only [Arg.minWireSize, Arg.wireSize] at hmin hwire
              have hb : strLenBytes = 1 := rfl
              have hfull : (p.writeArg (.str s)).off = payloadBytes := by
                simp only [writeArg, copy, List.length_singleton,
                  List.length_take]
                rw [strLen_of_le (by omega)]
                omega
              rw [hfull]
              intro hroom
              have hle := hroom.le
              have hpos := b.minWireSize_pos
              omega

theorem writeArgs_overrun (h : ¬ Room p.off args) :
    ¬ InBounds (p.writeArgs args).written := by
  induction args generalizing p with
  | nil => exact absurd trivial h
  | cons a args ih =>
      obtain hover | hroom := not_room_writeArg h
      · intro hin
        exact hover fun w hw => hin w
          (mem_writeArgs_written (p := p.writeArg a) hw)
      · exact ih hroom

end Payload

theorem not_decodes_of_not_room {mem : ℕ → UInt8} {args : List Arg}
    (h : ¬ Room 0 args) : ¬ Decodes mem args :=
  fun hdec => Payload.writeArgs_overrun (p := { mem }) h hdec.1

/-- A record decodes to what was logged exactly when only its last argument may
have to be cut. -/
theorem decodes_iff_room (mem : ℕ → UInt8) (args : List Arg) :
    Decodes mem args ↔ Room 0 args := by
  constructor
  · intro hdec
    by_contra h
    exact not_decodes_of_not_room h hdec
  · intro h
    refine ⟨Payload.writeArgs_inBounds (p := { mem }) h ?_, ?_⟩
    · intro w hw
      exact absurd hw List.not_mem_nil
    · have hread := Payload.readArgs_writeArgs (p := { mem }) h
      simpa using hread

/-- A string of 300 characters before an eight-byte number: nine bytes at least,
and the number lands in the next slot. -/
theorem long_string_overruns :
    ¬ ∀ (mem : ℕ → UInt8) (args : List Arg),
      (args.map Arg.minWireSize).sum ≤ payloadBytes → Decodes mem args := by
  intro h
  refine not_decodes_of_not_room ?_ (h (fun _ => 0)
    [.str (List.replicate 300 65), .scalar (List.replicate 8 0) (by decide)] ?_)
  · simp only [Room, Arg.wireSize, Arg.minWireSize, List.length_replicate]
    decide
  · simp only [List.map_cons, List.map_nil, List.sum_cons, List.sum_nil,
      Arg.minWireSize, List.length_replicate]
    decide

end Fastbook.Logger

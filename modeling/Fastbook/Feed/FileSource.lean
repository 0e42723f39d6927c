import Fastbook.Feed.MessageBlocks

/-!
# The file path

A model of `FileSource` (`transport/file_source.hpp`), which hands a file to
the framer in slices.

The length-prefix framer delivers the complete messages of the file, as long as
none of them is too large; the cut-off tail is dropped, also where its length
is too large.
-/

namespace Fastbook

open Support Mold

namespace FileSource

def sliceSize : ℕ := 2 ^ 20

/-- `next`: a slice and the remaining bytes, or nothing at the end of the
file. -/
def next (remaining : List UInt8) : Option (List UInt8 × List UInt8) :=
  if remaining = [] then none
  else
    let n := min remaining.length sliceSize
    some (remaining.take n, remaining.drop n)

theorem next_some {remaining slice rest : List UInt8}
    (h : next remaining = some (slice, rest)) :
    remaining = slice ++ rest ∧ 0 < slice.length ∧
      slice.length ≤ sliceSize := by
  unfold next at h
  split_ifs at h with hnil
  obtain ⟨rfl, rfl⟩ := Prod.mk.inj (Option.some.inj h)
  have hpos := List.length_pos_iff.mpr hnil
  refine ⟨(List.take_append_drop _ _).symm, ?_, ?_⟩
  · rw [List.length_take, sliceSize]
    omega
  · rw [List.length_take]
    omega

/-- The slices until the end of the file. -/
def slices (remaining : List UInt8) : List (List UInt8) :=
  match _h : next remaining with
  | none => []
  | some (slice, rest) => slice :: slices rest
termination_by remaining.length
decreasing_by
  obtain ⟨rfl, hpos, -⟩ := next_some _h
  rw [List.length_append]
  omega

theorem slices_spec (remaining : List UInt8) :
    (slices remaining).flatten = remaining ∧
      ∀ c ∈ slices remaining, c.length ≤ sliceSize := by
  fun_induction slices remaining with
  | case1 remaining h =>
      unfold next at h
      split_ifs at h with hnil
      exact ⟨hnil.symm, List.forall_mem_nil _⟩
  | case2 remaining slice rest h ih =>
      obtain ⟨rfl, -, hle⟩ := next_some h
      refine ⟨?_, List.forall_mem_cons.mpr ⟨hle, ih.2⟩⟩
      rw [List.flatten_cons, ih.1]

end FileSource

open LengthPrefixFramer in
theorem step_block_append {maxPayload : ℕ} {m : List UInt8}
    (h : m.length < 2 ^ 16) (hmax : m.length ≤ maxPayload) (l : List UInt8) :
    (lengthPrefixed maxPayload).step (block m ++ l) = .item m l := by
  have hdrop : (block m ++ l).drop (2 + m.length) = l := by
    rw [← List.drop_drop, drop_block, List.drop_left]
  change frameStep maxPayload (block m ++ l) = _
  rw [frameStep, readLength_block h, hdrop, drop_block, List.take_left,
    List.length_append, length_block, if_neg (by omega), if_neg (by omega),
    if_neg (by omega)]

open LengthPrefixFramer in
theorem decode_block_append {maxPayload : ℕ} {m : List UInt8}
    (h : m.length < 2 ^ 16) (hmax : m.length ≤ maxPayload) (l : List UInt8) :
    ((lengthPrefixed maxPayload).decode (block m ++ l)).1 =
      m :: ((lengthPrefixed maxPayload).decode l).1 := by
  rw [Decoder.decode_of_item (step_block_append h hmax l)]

open LengthPrefixFramer in
theorem decode_cutOff (maxPayload : ℕ) {tail : List UInt8} (h : CutOff tail) :
    ((lengthPrefixed maxPayload).decode tail).1 = [] := by
  cases hstep : (lengthPrefixed maxPayload).step tail with
  | item a rest =>
      obtain ⟨h₁, -, h₃, -⟩ := frameStep_item hstep
      rcases h with hshort | hcut
      · omega
      · omega
  | needMore => rw [Decoder.decode_of_needMore hstep]
  | malformed n => rw [Decoder.decode_of_malformed hstep]

/-- Without an oversized message the framer finds all messages. -/
theorem decode_eq_blocks {maxPayload : ℕ} {data : List UInt8}
    (h : ∀ m ∈ blocks data, m.length ≤ maxPayload) :
    ((LengthPrefixFramer.lengthPrefixed maxPayload).decode data).1 =
      blocks data := by
  obtain ⟨tail, hdata, htail, hshort⟩ := exists_encode_blocks data
  generalize blocks data = ms at h hdata hshort
  subst hdata
  induction ms with
  | nil => exact decode_cutOff maxPayload htail
  | cons m ms ih =>
      obtain ⟨hm, hms⟩ := List.forall_mem_cons.mp h
      obtain ⟨hm', hms'⟩ := List.forall_mem_cons.mp hshort
      rw [encode_cons, List.append_assoc, decode_block_append hm' hm,
        ih hms hms']

namespace FileSource

/-- What `LengthPrefixFramer<true, maxPayload>` delivers from the slices of a
file. -/
def delivered (maxPayload : ℕ) (data : List UInt8) : List (List UInt8) :=
  (LengthPrefixFramer.feedAll
    (LengthPrefixFramer.fresh : LengthPrefixFramer true maxPayload)
    (slices data)).2.1

open LengthPrefixFramer in
/-- The cuts between the chunks of a stream do not change what is delivered. -/
theorem messages_feedAll {maxPayload : ℕ} {chunks : List (List UInt8)}
    (hchunks : ∀ c ∈ chunks, c.length < 2 ^ 32) :
    (feedAll (fresh : LengthPrefixFramer true maxPayload) chunks).2.1 =
      ((lengthPrefixed maxPayload).decode chunks.flatten).1 := by
  have hnil : (lengthPrefixed maxPayload).step [] = .needMore := rfl
  cases h : (lengthPrefixed maxPayload).decode chunks.flatten with
  | mk messages e =>
      cases e with
      | rest suffix =>
          have hall := feedAll_of_rest hnil hchunks h
          exact congrArg (fun r => r.2.1) hall
      | malformed n =>
          obtain ⟨before, c, after, -, -, -, hall⟩ :=
            feedAll_of_malformed hnil hchunks h
          exact congrArg (fun r => r.2.1) hall

open LengthPrefixFramer in
theorem delivered_eq_decode (maxPayload : ℕ) (data : List UInt8) :
    delivered maxPayload data = ((lengthPrefixed maxPayload).decode data).1 := by
  obtain ⟨hflat, hsize⟩ := slices_spec data
  have hslices : ∀ c ∈ slices data, c.length < 2 ^ 32 :=
    fun c hc => lt_of_le_of_lt (hsize c hc) (by decide)
  rw [delivered, messages_feedAll hslices, hflat]

/-- Without an oversized message the file path delivers all messages. -/
theorem delivered_eq_blocks {maxPayload : ℕ} {data : List UInt8}
    (h : ∀ m ∈ blocks data, m.length ≤ maxPayload) :
    delivered maxPayload data = blocks data := by
  rw [delivered_eq_decode, decode_eq_blocks h]

end FileSource

end Fastbook

import Fastbook.Common.BufferPoolChunks
import Fastbook.Support.Bits

/-!
# Large allocations in 64-bit arithmetic

`alloc` and `free` of more than `MAX_CLASS_SIZE` bytes
(`common/buffer_pool.hpp`) with every size and address a 64-bit word, so that
additions wrap around as they do in the source.  `mmap` grants no mapping of
length 0 and none that goes past the end of the address space.

For the sizes that do not wrap around this is the pool's `allocateNewChunk`.
-/

namespace Fastbook.BufferPool

open Support AddressSpace

namespace Large

/-- `CHUNK_SIZE`. -/
def chunkBytes : UInt64 := 2 * 1024 * 1024

/-- `sizeof(Chunk)`. -/
def headerBytes : UInt64 := 64

/-- What the operating system answers. -/
structure Reply where
  huge : Option UInt64 := none
  raw : Option UInt64 := none
  advised : Bool := true

/-- A mapping of `len` bytes may be placed at `a`. -/
def Granted (mapped : AddressSpace) (a len : UInt64) : Prop :=
  0 < a.toNat ∧ 0 < len.toNat ∧ a.toNat + len.toNat ≤ 2 ^ 64 ∧
    mapped.Free a.toNat len.toNat

def Reply.Valid (reply : Reply) (mapped : AddressSpace) (sz : UInt64) : Prop :=
  (∀ a ∈ reply.huge, Granted mapped a sz) ∧
    ∀ a ∈ reply.raw, Granted mapped a (sz + chunkBytes)

/-- The reply as the pool sees it. -/
def Reply.toMapReply (reply : Reply) : MapReply where
  huge := reply.huge.map UInt64.toNat
  raw := reply.raw.map UInt64.toNat
  advised := reply.advised

def roundToCnkSz (val : UInt64) : UInt64 :=
  (val + chunkBytes - 1) &&& ~~~(chunkBytes - 1)

/-- `std::align`: the aligned address and the space from there on. -/
def align (alignment size ptr space : UInt64) : Option (UInt64 × UInt64) :=
  if space < size then none
  else
    let aligned := (ptr - 1 + alignment) &&& ~~~(alignment - 1)
    let diff := aligned - ptr
    if space - size < diff then none else some (aligned, space - diff)

/-- A call of `munmap`. -/
abbrev Range := UInt64 × UInt64

def unmap (mapped : AddressSpace) (r : Range) : AddressSpace :=
  mapped.munmap r.1.toNat r.2.toNat

/-- The check of the alignment at the end of `allocate_new_chunk`. -/
def checked (aligned allocSize : UInt64) (mapped : AddressSpace)
    (trims : List Range) : Option UInt64 × AddressSpace × List Range :=
  if aligned &&& (chunkBytes - 1) ≠ 0 then
    (none, unmap mapped (aligned, allocSize), trims)
  else (some aligned, mapped, trims)

/-- The rest of the fallback, with what `std::align` has found. -/
def trim (sz raw allocSize : UInt64) (mapped : AddressSpace)
    (aligned space : UInt64) : Option UInt64 × AddressSpace × List Range :=
  let headSlack := allocSize - space
  let tailSlack := space - sz
  let head := if headSlack ≠ 0 then [(raw, headSlack)] else []
  let tail := if tailSlack ≠ 0 then [(aligned + sz, tailSlack)] else []
  checked aligned allocSize ((head ++ tail).foldl unmap mapped) (head ++ tail)

/-- The chunk, what is mapped afterwards, and the trims of the fallback.  The
assertion on `std::align` is not checked in a release build. -/
def allocateNewChunk (mapped : AddressSpace) (sz : UInt64) (reply : Reply) :
    Option UInt64 × AddressSpace × List Range :=
  match reply.huge with
  | some a => checked a sz (mapped.mmap a.toNat sz.toNat) []
  | none =>
    let allocSize := sz + chunkBytes
    match reply.raw with
    | none => (none, mapped, [])
    | some raw =>
      let mapped := mapped.mmap raw.toNat allocSize.toNat
      if ¬ reply.advised then (none, unmap mapped (raw, allocSize), [])
      else
        match align chunkBytes sz raw allocSize with
        | none => trim sz raw allocSize mapped 0 allocSize
        | some (aligned, space) => trim sz raw allocSize mapped aligned space

/-- How `alloc` ends.  The chunk is constructed where it was mapped, which
faults if there is nothing. -/
inductive Outcome where
  | null (a : Arena)
  | block (ptr : UInt64) (trims : List Range) (a : Arena)
  | fault

instance (m : AddressSpace) (x : ℕ) : Decidable (m.Covers x) :=
  inferInstanceAs (Decidable (∃ r ∈ m, _))

def alloc (a : Arena) (sz : UInt64) (reply : Reply) : Outcome :=
  let allocSize := roundToCnkSz (sz + headerBytes)
  match allocateNewChunk a.mapped allocSize reply with
  | (none, mapped, _) => .null { a with mapped }
  | (some c, mapped, trims) =>
    if ∀ i < sizeofChunk, mapped.Covers (c.toNat + i) then
      .block (c + headerBytes) trims
        { a with
          mapped
          header := Function.update a.header c.toNat
            { isLarge := true, sz := allocSize.toNat }
          chunks := c.toNat :: a.chunks }
    else .fault

/-- The range that `free` unmaps; `none` if the block goes to a magazine. -/
def free (a : Arena) (ptr : UInt64) : Option (ℕ × ℕ) :=
  let base := ptr &&& ~~~(chunkBytes - 1)
  let h := a.header base.toNat
  if h.isLarge then some (base.toNat, h.sz) else none

/-! ## Words and numbers -/

theorem toNat_chunkBytes : chunkBytes.toNat = chunkSize := rfl

theorem toNat_and_mask (x : UInt64) :
    (x &&& ~~~(chunkBytes - 1)).toNat = x.toNat / chunkSize * chunkSize :=
  toNat_and_not (k := 21) rfl

theorem toNat_roundToCnkSz (val : UInt64) :
    (roundToCnkSz val).toNat = BufferPool.roundToCnkSz val.toNat := by
  rw [roundToCnkSz, toNat_and_mask, BufferPool.roundToCnkSz]
  have hval := val.toNat_lt
  have hsum : (val + chunkBytes - 1).toNat = (val.toNat + chunkSize - 1) % 2 ^ 64 := by
    rw [UInt64.toNat_sub, UInt64.toNat_add]
    change (2 ^ 64 - 1 + (val.toNat + 2097152) % 2 ^ 64) % 2 ^ 64 =
      (val.toNat + 2097152 - 1) % 2 ^ 64
    omega
  rw [hsum]

variable {m : AddressSpace} {sz raw : UInt64} {reply : Reply}

/-- The length of the raw mapping does not wrap around. -/
theorem Granted.toNat_add (h : Granted m raw (sz + chunkBytes))
    (hsz : chunkSize ∣ sz.toNat) :
    (sz + chunkBytes).toNat = sz.toNat + chunkSize := by
  have hlt := sz.toNat_lt
  have hpos := h.2.1
  obtain ⟨k, hk⟩ := hsz
  rw [UInt64.toNat_add, toNat_chunkBytes] at hpos ⊢
  simp only [chunkSize] at hk hpos ⊢
  omega

theorem align_eq (h : Granted m raw (sz + chunkBytes))
    (hsz : chunkSize ∣ sz.toNat) :
    ∃ aligned space,
      align chunkBytes sz raw (sz + chunkBytes) = some (aligned, space) ∧
      aligned.toNat = alignUp raw.toNat ∧
      space.toNat = sz.toNat + chunkSize - (alignUp raw.toNat - raw.toNat) := by
  have hlen := h.toNat_add hsz
  have hpos := h.1
  have hend := h.2.2.1
  obtain ⟨-, hle, hlt⟩ := alignUp_spec raw.toNat
  rw [hlen] at hend
  let aligned := (raw - 1 + chunkBytes) &&& ~~~(chunkBytes - 1)
  have haligned : aligned.toNat = alignUp raw.toNat := by
    have hsum : (raw - 1 + chunkBytes).toNat = raw.toNat + chunkSize - 1 := by
      rw [UInt64.toNat_add, UInt64.toNat_sub, toNat_chunkBytes]
      change ((2 ^ 64 - 1 + raw.toNat) % 2 ^ 64 + chunkSize) % 2 ^ 64 = _
      simp only [chunkSize] at hend ⊢
      omega
    rw [toNat_and_mask, hsum, alignUp]
  have hdiff : (aligned - raw).toNat = alignUp raw.toNat - raw.toNat := by
    rw [UInt64.toNat_sub_of_le _ _ (UInt64.le_iff_toNat_le.mpr (by omega)),
      haligned]
  have hroom : (sz + chunkBytes - sz).toNat = chunkSize := by
    rw [UInt64.toNat_sub_of_le _ _ (UInt64.le_iff_toNat_le.mpr (by omega)), hlen]
    omega
  have hfits : ¬sz + chunkBytes < sz := by
    rw [UInt64.lt_iff_toNat_lt, hlen]
    omega
  have hnear : ¬sz + chunkBytes - sz < aligned - raw := by
    rw [UInt64.lt_iff_toNat_lt, hdiff, hroom]
    omega
  refine ⟨aligned, sz + chunkBytes - (aligned - raw), ?_, haligned, ?_⟩
  · rw [align, if_neg hfits]
    exact if_neg hnear
  · rw [UInt64.toNat_sub_of_le _ _ (UInt64.le_iff_toNat_le.mpr (by omega)), hlen,
      hdiff]

/-- The trims of the fallback: what lies before and behind the chunk. -/
structure Trims (raw c : UInt64) (sz : ℕ) (trims : List Range) : Prop where
  within : ∀ r ∈ trims, raw.toNat ≤ r.1.toNat ∧
    r.1.toNat + r.2.toNat ≤ raw.toNat + (sz + chunkSize)
  /-- An address of the raw mapping is in the chunk or in one trim. -/
  exact : ∀ x, raw.toNat ≤ x → x < raw.toNat + (sz + chunkSize) →
    trims.countP (fun r => decide (r.1.toNat ≤ x ∧ x < r.1.toNat + r.2.toNat)) =
      if c.toNat ≤ x ∧ x < c.toNat + sz then 0 else 1

theorem and_mask_eq_zero_iff (a : UInt64) :
    a &&& (chunkBytes - 1) = 0 ↔ chunkSize ∣ a.toNat := by
  rw [← UInt64.toNat_inj, UInt64.toNat_and,
    show (chunkBytes - 1).toNat = 2 ^ 21 - 1 from rfl,
    Nat.and_two_pow_sub_one_eq_mod, Nat.dvd_iff_mod_eq_zero]
  rfl

theorem checked_eq {a len : UInt64} {trims : List Range}
    (ha : chunkSize ∣ a.toNat) : checked a len m trims = (some a, m, trims) := by
  rw [checked, if_neg (not_not.mpr ((and_mask_eq_zero_iff a).mpr ha))]

theorem checked_eq_none {a len : UInt64} {trims : List Range}
    (ha : ¬chunkSize ∣ a.toNat) :
    checked a len m trims = (none, unmap m (a, len), trims) := by
  rw [checked, if_pos (mt (and_mask_eq_zero_iff a).mp ha)]

/-- The fallback trims what lies before and behind the chunk. -/
theorem allocateNewChunk_fallback (h : Granted m raw (sz + chunkBytes))
    (hsz : chunkSize ∣ sz.toNat) :
    ∃ c headSlack tailSlack : UInt64, c.toNat = alignUp raw.toNat ∧
      headSlack.toNat = alignUp raw.toNat - raw.toNat ∧
      tailSlack.toNat = chunkSize - (alignUp raw.toNat - raw.toNat) ∧
      (c + sz).toNat = alignUp raw.toNat + sz.toNat ∧
      allocateNewChunk m sz { raw := some raw } =
        let trims := (if headSlack ≠ 0 then [(raw, headSlack)] else []) ++
          if tailSlack ≠ 0 then [(c + sz, tailSlack)] else []
        (some c, trims.foldl unmap
          (m.mmap raw.toNat (sz + chunkBytes).toNat), trims) := by
  obtain ⟨aligned, space, halign, haligned, hspace⟩ := align_eq h hsz
  obtain ⟨hdvd, hle, hlt⟩ := alignUp_spec raw.toNat
  have hlen := h.toNat_add hsz
  have hend := h.2.2.1
  rw [hlen] at hend
  refine ⟨aligned, sz + chunkBytes - space, space - sz, haligned, ?_, ?_, ?_, ?_⟩
  · rw [UInt64.toNat_sub_of_le _ _ (UInt64.le_iff_toNat_le.mpr (by omega)), hlen,
      hspace]
    omega
  · rw [UInt64.toNat_sub_of_le _ _ (UInt64.le_iff_toNat_le.mpr (by omega)),
      hspace]
    omega
  · rw [UInt64.toNat_add, haligned]
    omega
  · rw [← haligned] at hdvd
    rw [allocateNewChunk]
    simp only [halign, not_true_eq_false, if_false]
    exact checked_eq hdvd

theorem pool_fallback (m : AddressSpace) (n raw : ℕ) :
    BufferPool.allocateNewChunk m n { raw := some raw } =
      (some (alignUp raw),
        let head := alignUp raw - raw
        let tail := n + chunkSize - head - n
        let m := m.mmap raw (n + chunkSize)
        let m := if head = 0 then m else m.munmap raw head
        if tail = 0 then m else m.munmap (alignUp raw + n) tail) := by
  have hmod : ¬alignUp raw % chunkSize ≠ 0 :=
    not_not.mpr (Nat.mod_eq_zero_of_dvd (alignUp_spec raw).1)
  simp only [BufferPool.allocateNewChunk, not_true_eq_false, if_false,
    if_neg hmod]

theorem ne_zero_iff_toNat (x : UInt64) : x ≠ 0 ↔ ¬x.toNat = 0 :=
  not_congr UInt64.toNat_inj.symm

/-- On valid replies the words do not wrap around, and the chunk is that of the
pool's model. -/
theorem allocateNewChunk_eq (h : reply.Valid m sz) (hsz : chunkSize ∣ sz.toNat) :
    ((allocateNewChunk m sz reply).1.map UInt64.toNat,
      (allocateNewChunk m sz reply).2.1) =
    BufferPool.allocateNewChunk m sz.toNat reply.toMapReply := by
  obtain ⟨huge, raw, advised⟩ := reply
  cases huge with
  | some a =>
      change ((checked a sz (m.mmap a.toNat sz.toNat) []).1.map UInt64.toNat,
        (checked a sz (m.mmap a.toNat sz.toNat) []).2.1) =
        if a.toNat % chunkSize ≠ 0 then
          (none, (m.mmap a.toNat sz.toNat).munmap a.toNat sz.toNat)
        else (some a.toNat, m.mmap a.toNat sz.toNat)
      by_cases ha : chunkSize ∣ a.toNat
      · rw [checked_eq ha, if_neg (not_not.mpr (Nat.mod_eq_zero_of_dvd ha))]
        rfl
      · rw [checked_eq_none ha, if_pos (mt Nat.dvd_of_mod_eq_zero ha)]
        rfl
  | none =>
      cases raw with
      | none => rfl
      | some raw =>
          have hgrant := h.2 raw rfl
          have hlen := hgrant.toNat_add hsz
          cases advised with
          | false =>
              simp only [allocateNewChunk, BufferPool.allocateNewChunk,
                Reply.toMapReply, unmap, hlen, Option.map_some, Option.map_none,
                Bool.false_eq_true, not_false_eq_true, if_true]
          | true =>
              obtain ⟨c, head, tail, hc, hhead, htail, hbehind, heq⟩ :=
                allocateNewChunk_fallback hgrant hsz
              obtain ⟨-, hle, hlt⟩ := alignUp_spec raw.toNat
              have hslack : sz.toNat + chunkSize - head.toNat - sz.toNat =
                  tail.toNat := by
                omega
              have htail : ¬tail.toNat = 0 := by
                omega
              rw [heq, hlen]
              refine Eq.trans ?_ (pool_fallback m sz.toNat raw.toNat).symm
              simp only [hslack, ← hhead, Option.map_some, hc,
                ne_zero_iff_toNat]
              by_cases hzero : head.toNat = 0
              · rw [if_neg (not_not.mpr hzero), if_pos htail, if_neg htail,
                  if_pos hzero, ← hbehind, List.nil_append, List.foldl_cons,
                  List.foldl_nil, unmap]
              · rw [if_pos hzero, if_pos htail, if_neg htail, if_neg hzero,
                  ← hbehind, List.singleton_append, List.foldl_cons,
                  List.foldl_cons, List.foldl_nil, unmap, unmap]

/-- Every address of the raw mapping is kept or trimmed once. -/
theorem trims_spec (h : Granted m raw (sz + chunkBytes))
    (hsz : chunkSize ∣ sz.toNat) :
    ∃ c, (allocateNewChunk m sz { raw := some raw }).1 = some c ∧
      Trims raw c sz.toNat (allocateNewChunk m sz { raw := some raw }).2.2 := by
  obtain ⟨c, head, tail, hc, hhead, htail, hbehind, heq⟩ :=
    allocateNewChunk_fallback h hsz
  obtain ⟨-, hle, hlt⟩ := alignUp_spec raw.toNat
  have htail' : ¬tail.toNat = 0 := by
    omega
  rw [heq]
  refine ⟨c, rfl, ?_⟩
  simp only [ne_zero_iff_toNat]
  by_cases hhead' : head.toNat = 0
  · simp only [hhead', htail', not_true_eq_false, not_false_eq_true, if_true,
      if_false, List.nil_append]
    constructor
    · intro r hr
      rw [List.mem_singleton.mp hr]
      simp only [hbehind]
      omega
    · intro x hx hx'
      rw [List.countP_singleton]
      simp only [hbehind, hc, decide_eq_true_eq]
      split_ifs <;> omega
  · simp only [hhead', htail', not_false_eq_true, if_true, List.cons_append,
      List.nil_append]
    constructor
    · intro r hr
      rcases List.mem_cons.mp hr with rfl | hr
      · simp only
        omega
      · rw [List.mem_singleton.mp hr]
        simp only [hbehind]
        omega
    · intro x hx hx'
      rw [List.countP_cons, List.countP_singleton]
      simp only [hbehind, hc, decide_eq_true_eq]
      split_ifs <;> omega

/-! ## Blocks that are large enough -/

/-- The region from `c` on, `len` bytes long, is kept for a block of `sz` bytes
at `ptr`. -/
structure Kept (a a' : Arena) (reply : Reply) (sz ptr : UInt64)
    (trims : List Range) (c : UInt64) (len : ℕ) : Prop where
  /-- It starts at a multiple of the chunk size, and is all that is new. -/
  region : Fresh a.mapped a'.mapped c.toNat len
  inside : c.toNat ≤ ptr.toNat ∧ ptr.toNat + sz.toNat ≤ c.toNat + len
  recorded : (a'.header c.toNat).isLarge = true ∧ (a'.header c.toNat).sz = len
  trims : reply.huge = none → ∀ raw ∈ reply.raw, Trims raw c len trims
  freed : free a' ptr = some (c.toNat, len)

/-- `alloc` returns null or a block that is large enough. -/
def Sound (a : Arena) (sz : UInt64) (reply : Reply) : Prop :=
  match alloc a sz reply with
  | .null _ => True
  | .block ptr trims a' => ∃ c len, Kept a a' reply sz ptr trims c len
  | .fault => False

theorem Reply.Valid.toMapReply (h : reply.Valid m sz)
    (hsz : chunkSize ∣ sz.toNat) : reply.toMapReply.Valid m sz.toNat := by
  constructor
  · intro a ha
    obtain ⟨w, hw, rfl⟩ := Option.map_eq_some_iff.mp ha
    exact ⟨(h.1 w hw).1, (h.1 w hw).2.2.2⟩
  · intro a ha
    obtain ⟨w, hw, rfl⟩ := Option.map_eq_some_iff.mp ha
    have hgrant := h.2 w hw
    refine ⟨hgrant.1, ?_⟩
    rw [← hgrant.toNat_add hsz]
    exact hgrant.2.2.2

variable {a : Arena} {c : UInt64} {m' : AddressSpace} {trims : List Range}

/-- A chunk that is returned is new memory. -/
theorem fresh_of_allocateNewChunk (h : reply.Valid m sz)
    (hsz : chunkSize ∣ sz.toNat)
    (heq : allocateNewChunk m sz reply = (some c, m', trims)) :
    Fresh m m' c.toNat sz.toNat := by
  have hspec := allocateNewChunk_spec (h.toMapReply hsz)
  rw [← allocateNewChunk_eq h hsz, heq] at hspec
  exact hspec

theorem trims_of_allocateNewChunk (h : reply.Valid m sz)
    (hsz : chunkSize ∣ sz.toNat)
    (heq : allocateNewChunk m sz reply = (some c, m', trims))
    (hhuge : reply.huge = none) (hraw : reply.raw = some raw) :
    Trims raw c sz.toNat trims := by
  obtain ⟨huge, raw', advised⟩ := reply
  obtain rfl : huge = none := hhuge
  obtain rfl : raw' = some raw := hraw
  cases advised with
  | false =>
      rw [allocateNewChunk] at heq
      simp at heq
  | true =>
      obtain ⟨c', hc', htrims⟩ := trims_spec (h.2 raw rfl) hsz
      rw [heq] at hc' htrims
      cases hc'
      exact htrims

theorem dvd_roundToCnkSz (val : UInt64) : chunkSize ∣ (roundToCnkSz val).toNat := by
  rw [toNat_roundToCnkSz]
  exact Nat.dvd_mul_left _ _

/-- A chunk with room for its header becomes a block. -/
theorem alloc_eq_block
    (heq : allocateNewChunk a.mapped (roundToCnkSz (sz + headerBytes)) reply =
      (some c, m', trims))
    (hfresh : Fresh a.mapped m' c.toNat (roundToCnkSz (sz + headerBytes)).toNat)
    (hle : sizeofChunk ≤ (roundToCnkSz (sz + headerBytes)).toNat) :
    ∃ a', alloc a sz reply = .block (c + headerBytes) trims a' ∧
      a'.mapped = m' ∧ a'.header c.toNat =
        { isLarge := true, sz := (roundToCnkSz (sz + headerBytes)).toNat } := by
  have hroom : ∀ i < sizeofChunk, m'.Covers (c.toNat + i) := fun i hi =>
    (hfresh.covers _).mpr (Or.inr ⟨by omega, by omega⟩)
  rw [alloc, heq]
  simp only [if_pos hroom]
  exact ⟨_, rfl, rfl, Function.update_self _ _ _⟩

/-- A chunk of length 0 is constructed in memory that is not mapped. -/
theorem alloc_eq_fault
    (heq : allocateNewChunk a.mapped (roundToCnkSz (sz + headerBytes)) reply =
      (some c, m', trims))
    (hfresh : Fresh a.mapped m' c.toNat (roundToCnkSz (sz + headerBytes)).toNat)
    (hzero : (roundToCnkSz (sz + headerBytes)).toNat = 0)
    (hout : ¬a.mapped.Covers c.toNat) : alloc a sz reply = .fault := by
  have hroom : ¬∀ i < sizeofChunk, m'.Covers (c.toNat + i) := by
    intro hall
    rcases (hfresh.covers _).mp (hall 0 (by decide)) with hmem | hmem
    · exact hout hmem
    · omega
  rw [alloc, heq]
  simp only [if_neg hroom]

/-- `free` finds the header of a block behind it. -/
theorem free_eq {n : ℕ} (hc : chunkSize ∣ c.toNat)
    (hheader : a.header c.toNat = { isLarge := true, sz := n }) :
    (c + headerBytes).toNat = c.toNat + sizeofChunk ∧
      free a (c + headerBytes) = some (c.toNat, n) := by
  have hlt := c.toNat_lt
  obtain ⟨k, hk⟩ := hc
  have hptr : (c + headerBytes).toNat = c.toNat + sizeofChunk := by
    rw [UInt64.toNat_add]
    change (c.toNat + 64) % 2 ^ 64 = c.toNat + 64
    simp only [chunkSize] at hk
    omega
  have hbase : ((c + headerBytes) &&& ~~~(chunkBytes - 1)).toNat = c.toNat := by
    rw [toNat_and_mask, hptr]
    simp only [chunkSize, sizeofChunk] at hk ⊢
    omega
  refine ⟨hptr, ?_⟩
  simp only [free, hbase, hheader, if_true]

theorem toNat_size (sz : UInt64) :
    (roundToCnkSz (sz + headerBytes)).toNat =
      (sz.toNat + sizeofChunk + (chunkSize - 1)) % 2 ^ 64 / chunkSize *
        chunkSize := by
  have hsum : (sz + headerBytes).toNat = (sz.toNat + 64) % 2 ^ 64 :=
    UInt64.toNat_add _ _
  rw [toNat_roundToCnkSz, hsum, BufferPool.roundToCnkSz]
  simp only [chunkSize, sizeofChunk]
  omega

/-- A size that does not wrap around is allocated as it should be. -/
theorem sound_of_lt (hlt : sz.toNat + sizeofChunk + (chunkSize - 1) < 2 ^ 64)
    (h : reply.Valid a.mapped (roundToCnkSz (sz + headerBytes))) :
    Sound a sz reply := by
  have hdvd := dvd_roundToCnkSz (sz + headerBytes)
  have hround : sz.toNat + sizeofChunk ≤
      (roundToCnkSz (sz + headerBytes)).toNat := by
    rw [toNat_size, Nat.mod_eq_of_lt hlt]
    simp only [chunkSize, sizeofChunk]
    omega
  unfold Sound
  rcases heq : allocateNewChunk a.mapped (roundToCnkSz (sz + headerBytes)) reply
    with ⟨_ | c, m', trims⟩
  · rw [alloc, heq]
    trivial
  · have hfresh := fresh_of_allocateNewChunk h hdvd heq
    obtain ⟨a', halloc, hmapped, hheader⟩ :=
      alloc_eq_block heq hfresh (by omega)
    obtain ⟨hptr, hfree⟩ := free_eq hfresh.aligned hheader
    rw [halloc]
    refine ⟨c, _, ?_, ?_, ?_, ?_, hfree⟩
    · rw [hmapped]
      exact hfresh
    · rw [hptr]
      omega
    · rw [hheader]
      exact ⟨rfl, rfl⟩
    · intro hhuge raw hraw
      exact trims_of_allocateNewChunk h hdvd heq hhuge hraw

/-- The address of the failing replies: one chunk into the address space. -/
theorem granted_chunkBytes {len : UInt64} (h : len = chunkBytes) :
    Granted [] chunkBytes len := by
  subst h
  refine ⟨by decide, by decide, by decide, ?_⟩
  intro r hr
  cases hr

/-- Nothing is asked for, and the fallback unmaps the whole raw mapping. -/
theorem not_sound_of_zero (hzero : (roundToCnkSz (sz + headerBytes)).toNat = 0) :
    Reply.Valid { raw := some chunkBytes } [] (roundToCnkSz (sz + headerBytes)) ∧
      ¬Sound {} sz { raw := some chunkBytes } := by
  have hdvd := dvd_roundToCnkSz (sz + headerBytes)
  have hgrant : Granted [] chunkBytes
      (roundToCnkSz (sz + headerBytes) + chunkBytes) := by
    have hword : roundToCnkSz (sz + headerBytes) = 0 :=
      UInt64.toNat_inj.mp hzero
    apply granted_chunkBytes
    rw [hword, UInt64.zero_add]
  have hvalid : Reply.Valid { raw := some chunkBytes } []
      (roundToCnkSz (sz + headerBytes)) := by
    refine ⟨by simp, ?_⟩
    intro w hw
    cases hw
    exact hgrant
  refine ⟨hvalid, ?_⟩
  obtain ⟨c, hc, -⟩ := trims_spec hgrant hdvd
  rcases heq : allocateNewChunk [] (roundToCnkSz (sz + headerBytes))
    { raw := some chunkBytes } with ⟨c', m', trims⟩
  rw [heq] at hc
  obtain rfl : c' = some c := hc
  have hfresh := fresh_of_allocateNewChunk hvalid hdvd heq
  have hfault := alloc_eq_fault (a := {}) heq hfresh hzero (by simp [Covers])
  rw [Sound, hfault]
  exact not_false

/-- One chunk is asked for, and it is too small. -/
theorem not_sound_of_one (hsz : chunkSize < sz.toNat)
    (hone : (roundToCnkSz (sz + headerBytes)).toNat = chunkSize) :
    Reply.Valid { huge := some chunkBytes } [] (roundToCnkSz (sz + headerBytes)) ∧
      ¬Sound {} sz { huge := some chunkBytes } := by
  have hdvd := dvd_roundToCnkSz (sz + headerBytes)
  have hvalid : Reply.Valid { huge := some chunkBytes } []
      (roundToCnkSz (sz + headerBytes)) := by
    refine ⟨?_, by simp⟩
    intro w hw
    cases hw
    exact granted_chunkBytes (UInt64.toNat_inj.mp hone)
  refine ⟨hvalid, ?_⟩
  have heq : allocateNewChunk [] (roundToCnkSz (sz + headerBytes))
      { huge := some chunkBytes } =
      (some chunkBytes, mmap [] chunkBytes.toNat
        (roundToCnkSz (sz + headerBytes)).toNat, []) := by
    rw [allocateNewChunk]
    exact checked_eq (dvd_refl chunkSize)
  have hfresh := fresh_of_allocateNewChunk hvalid hdvd heq
  obtain ⟨a', halloc, -, hheader⟩ :=
    alloc_eq_block (a := {}) heq hfresh (by rw [hone]; decide)
  obtain ⟨hptr, hfree⟩ := free_eq hfresh.aligned hheader
  rw [Sound, halloc]
  rintro ⟨c, len, hkept⟩
  have hfreed := hkept.freed
  rw [hfree] at hfreed
  simp only [Option.some.injEq, Prod.mk.injEq] at hfreed
  have hinside := hkept.inside.2
  rw [hptr, ← hfreed.1, ← hfreed.2, hone] at hinside
  omega

/-- A size that wraps around is allocated too small or not at all. -/
theorem not_sound_of_le
    (hle : 2 ^ 64 ≤ sz.toNat + sizeofChunk + (chunkSize - 1)) :
    ∃ reply : Reply, reply.Valid [] (roundToCnkSz (sz + headerBytes)) ∧
      ¬Sound {} sz reply := by
  have hlt := sz.toNat_lt
  by_cases hzero : (roundToCnkSz (sz + headerBytes)).toNat = 0
  · exact ⟨_, not_sound_of_zero hzero⟩
  · have hone : (roundToCnkSz (sz + headerBytes)).toNat = chunkSize := by
      rw [toNat_size] at hzero ⊢
      simp only [chunkSize, sizeofChunk] at hle hzero ⊢
      omega
    have hsz : chunkSize < sz.toNat := by
      simp only [chunkSize, sizeofChunk] at hle ⊢
      omega
    exact ⟨_, not_sound_of_one hsz hone⟩

/-- Allocations of more than `MAX_CLASS_SIZE` bytes are large enough, whatever
the operating system answers, exactly for the sizes that do not wrap around. -/
theorem alloc_sound_iff (sz : UInt64) :
    (∀ (a : Arena) (reply : Reply),
      reply.Valid a.mapped (roundToCnkSz (sz + headerBytes)) →
        Sound a sz reply) ↔
      sz.toNat + sizeofChunk + (chunkSize - 1) < 2 ^ 64 := by
  constructor
  · intro hall
    by_contra hlt
    obtain ⟨reply, hvalid, hnot⟩ := not_sound_of_le (Nat.le_of_not_lt hlt)
    exact hnot (hall {} reply hvalid)
  · intro hlt a reply hvalid
    exact sound_of_lt hlt hvalid

/-- `alloc(SIZE_MAX)` returns a block of one chunk. -/
theorem size_max_unsound :
    maxClassSize < (0xFFFFFFFFFFFFFFFF : UInt64).toNat ∧
    Reply.Valid { huge := some chunkBytes } []
      (roundToCnkSz (0xFFFFFFFFFFFFFFFF + headerBytes)) ∧
    ¬Sound {} 0xFFFFFFFFFFFFFFFF { huge := some chunkBytes } :=
  ⟨by decide, not_sound_of_one (by decide) (by decide)⟩

end Large

end Fastbook.BufferPool

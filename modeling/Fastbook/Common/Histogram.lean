import Fastbook.Support.Rank
import Mathlib.Algebra.Order.Floor.Div
import Mathlib.Data.Nat.Size

/-!
# Latency histograms

A model of `Histogram` (`common/profiling.hpp`).  The counters are 64-bit words;
the values, the buckets and the bounds of the values are numbers, since nothing
is computed on them that could wrap around.  A percentile is a number before its
exact conversion to `double`, or infinity.

A value below `2 ^ 32` falls into a bucket that is exact up to 15 and as wide as
a sixteenth of its values above that, so a percentile is off by at most that
much.
-/

namespace Fastbook.Profiling

open Support

def accuracyBits : ℕ := 4

def rangeBits : ℕ := 32

def sliceMask : ℕ := 2 ^ accuracyBits - 1

def exactLimit : ℕ := 2 ^ accuracyBits

def valueLimit : ℕ := 2 ^ rangeBits

def minBuckets : ℕ := exactLimit

def maxBuckets : ℕ := (rangeBits - accuracyBits + 1) <<< accuracyBits

structure Histogram where
  samples : ℕ → UInt64 := fun _ => 0
  totalSamples : UInt64 := 0
  minValue : ℕ := 2 ^ 64 - 1
  maxValue : ℕ := 0

/-- What `percentile` returns. -/
inductive Percentile where
  | value (r : ℕ)
  | infinity
  deriving DecidableEq, Repr

/-- `std::bit_width` is `Nat.size`. -/
def valueToBucket (value : ℕ) : ℕ :=
  if value < exactLimit then value
  else if value < valueLimit then
    let rangeBit := value.size - 1
    let d := rangeBit - accuracyBits
    let posInRange := value >>> d
    let group := d <<< accuracyBits
    group + posInRange
  else maxBuckets

def bucketToValue (bucket : ℕ) : ℕ :=
  if bucket < minBuckets then bucket
  else if bucket < maxBuckets then
    let slice := bucket &&& sliceMask
    let d := (bucket >>> accuracyBits) - 1
    let kept := 1 <<< accuracyBits + slice
    let bucketMaxWidth := 1 <<< d
    let valueMin := kept <<< d
    valueMin + bucketMaxWidth - 1
  else valueLimit

namespace Histogram

/-- The loop of `percentile` from bucket `i` on, with `n` buckets left. -/
def percentileLoop (h : Histogram) (threshold : UInt64) :
    ℕ → UInt64 → ℕ → Percentile
  | 0, _, _ => .value 0
  | n + 1, samplesS, i =>
    let samplesS := samplesS + h.samples i
    if threshold ≤ samplesS then
      if i = maxBuckets then .infinity
      else .value (min (bucketToValue i) h.maxValue)
    else h.percentileLoop threshold n samplesS (i + 1)

/-- The percentile with the weight `PER_100K`. -/
def percentile (h : Histogram) (per100K : UInt64) : Percentile :=
  let rank := (h.totalSamples * per100K + 99999) / 100000
  let threshold := if rank < 1 then 1 else rank
  h.percentileLoop threshold (maxBuckets + 1) 0 0

def merge (h other : Histogram) : Histogram where
  samples := fun i => h.samples i + other.samples i
  totalSamples := h.totalSamples + other.totalSamples
  minValue := min h.minValue other.minValue
  maxValue := max h.maxValue other.maxValue

def record (h : Histogram) (value : UInt64) : Histogram where
  samples := Function.update h.samples (valueToBucket value.toNat)
    (h.samples (valueToBucket value.toNat) + 1)
  totalSamples := h.totalSamples + 1
  minValue := min h.minValue value.toNat
  maxValue := max h.maxValue value.toNat

end Histogram

/-! ## Buckets -/

/-- The two parts of the bucket of a value that is not exact: the number of
bits dropped, and the bits kept. -/
theorem exists_group {v : ℕ} (hlow : exactLimit ≤ v) (hhigh : v < valueLimit) :
    ∃ d < rangeBits - accuracyBits, 16 ≤ v / 2 ^ d ∧ v / 2 ^ d < 32 ∧
      valueToBucket v = 16 * d + v / 2 ^ d := by
  have hsize : 4 < v.size := Nat.lt_size.mpr hlow
  have hsize' : v.size ≤ 32 := Nat.size_le.mpr hhigh
  have hle : 2 ^ (v.size - 1) ≤ v := Nat.lt_size.mp (by omega)
  have hlt : v < 2 ^ v.size := Nat.size_le.mp le_rfl
  refine ⟨v.size - 1 - 4, ?_, ?_, ?_, ?_⟩
  · simp only [rangeBits, accuracyBits]
    omega
  · rw [Nat.le_div_iff_mul_le (Nat.two_pow_pos _), show 16 = 2 ^ 4 from rfl,
      ← Nat.pow_add]
    rwa [show 4 + (v.size - 1 - 4) = v.size - 1 by omega]
  · rw [Nat.div_lt_iff_lt_mul (Nat.two_pow_pos _), show 32 = 2 ^ 5 from rfl,
      ← Nat.pow_add]
    rwa [show 5 + (v.size - 1 - 4) = v.size by omega]
  · rw [valueToBucket, if_neg (Nat.not_lt.mpr hlow), if_pos hhigh]
    simp only [accuracyBits, Nat.shiftLeft_eq, Nat.shiftRight_eq_div_pow]
    omega

theorem valueToBucket_of_lt {v : ℕ} (h : v < exactLimit) : valueToBucket v = v :=
  if_pos h

theorem valueToBucket_of_le {v : ℕ} (h : valueLimit ≤ v) :
    valueToBucket v = maxBuckets := by
  have hexact : ¬v < exactLimit :=
    Nat.not_lt.mpr (Nat.le_trans (by decide) h)
  rw [valueToBucket, if_neg hexact, if_neg (Nat.not_lt.mpr h)]

theorem valueToBucket_lt {v : ℕ} (h : v < valueLimit) :
    valueToBucket v < maxBuckets := by
  have hmax : maxBuckets = 464 := by
    decide
  by_cases hexact : v < exactLimit
  · rw [valueToBucket_of_lt hexact, hmax]
    exact lt_trans hexact (by decide)
  · obtain ⟨d, hd, -, hkept, heq⟩ := exists_group (Nat.le_of_not_lt hexact) h
    simp only [rangeBits, accuracyBits] at hd
    omega

/-- Only the values past the range are in the overflow bucket. -/
theorem valueToBucket_eq_max_iff (v : ℕ) :
    valueToBucket v = maxBuckets ↔ valueLimit ≤ v := by
  constructor
  · intro heq
    by_contra hlt
    exact absurd heq (Nat.ne_of_lt (valueToBucket_lt (Nat.lt_of_not_le hlt)))
  · exact valueToBucket_of_le

theorem valueToBucket_le (v : ℕ) : valueToBucket v ≤ maxBuckets := by
  by_cases h : v < valueLimit
  · exact (valueToBucket_lt h).le
  · rw [valueToBucket_of_le (Nat.le_of_not_lt h)]

/-- Larger values come in later buckets. -/
theorem valueToBucket_mono {v w : ℕ} (h : v ≤ w) :
    valueToBucket v ≤ valueToBucket w := by
  by_cases hw : w < valueLimit
  · by_cases hv : v < exactLimit
    · rw [valueToBucket_of_lt hv]
      by_cases hw' : w < exactLimit
      · rwa [valueToBucket_of_lt hw']
      · obtain ⟨d, -, hkept, -, heq⟩ := exists_group (Nat.le_of_not_lt hw') hw
        have hlimit : exactLimit = 16 := rfl
        omega
    · have hv' := Nat.le_of_not_lt hv
      obtain ⟨d, -, hle, hlt, heq⟩ := exists_group hv' (Nat.lt_of_le_of_lt h hw)
      obtain ⟨d', -, hle', hlt', heq'⟩ := exists_group (Nat.le_trans hv' h) hw
      rcases Nat.lt_trichotomy d d' with hd | rfl | hd
      · omega
      · have hdiv : v / 2 ^ d ≤ w / 2 ^ d := Nat.div_le_div_right h
        omega
      · -- More bits are dropped from the smaller value: it would be larger.
        have hpow : 2 ^ (d' + 1) ≤ 2 ^ d :=
          Nat.pow_le_pow_right (by decide) hd
        have hvd := (Nat.le_div_iff_mul_le (Nat.two_pow_pos d)).mp hle
        have hwd := (Nat.div_lt_iff_lt_mul (Nat.two_pow_pos d')).mp hlt'
        rw [Nat.pow_succ] at hpow
        omega
  · rw [valueToBucket_of_le (Nat.le_of_not_lt hw)]
    exact valueToBucket_le v

theorem bucketToValue_group {d kept : ℕ} (hd : d < rangeBits - accuracyBits)
    (hle : 16 ≤ kept) (hlt : kept < 32) :
    bucketToValue (16 * d + kept) + 1 = (kept + 1) * 2 ^ d := by
  have hslice : (16 * d + kept) &&& sliceMask = kept - 16 := by
    rw [sliceMask, accuracyBits, Nat.and_two_pow_sub_one_eq_mod]
    omega
  have hgroup : (16 * d + kept) >>> accuracyBits - 1 = d := by
    rw [accuracyBits, Nat.shiftRight_eq_div_pow]
    omega
  have hmin : ¬16 * d + kept < minBuckets := by
    simp only [minBuckets, exactLimit, accuracyBits]
    omega
  have hmax : 16 * d + kept < maxBuckets := by
    have hmax : maxBuckets = 464 := by
      decide
    simp only [rangeBits, accuracyBits] at hd
    omega
  rw [bucketToValue, if_neg hmin, if_pos hmax, hslice, hgroup]
  simp only [accuracyBits, Nat.shiftLeft_eq]
  have hkept : 1 * 2 ^ 4 + (kept - 16) = kept := by
    omega
  have hpos := Nat.two_pow_pos d
  rw [hkept, Nat.one_mul, Nat.succ_mul]
  omega

/-- The value of a bucket against the values in it. -/
theorem bucketToValue_valueToBucket {v : ℕ} (h : v < valueLimit) :
    v ≤ bucketToValue (valueToBucket v) ∧
      16 * bucketToValue (valueToBucket v) ≤ 17 * v ∧
      (v < 16 → bucketToValue (valueToBucket v) = v) := by
  by_cases hexact : v < exactLimit
  · have heq : bucketToValue (valueToBucket v) = v := by
      rw [valueToBucket_of_lt hexact]
      exact if_pos hexact
    rw [heq]
    exact ⟨le_rfl, by omega, fun _ => rfl⟩
  · obtain ⟨d, hd, hle, hlt, heq⟩ := exists_group (Nat.le_of_not_lt hexact) h
    have hvalue := bucketToValue_group hd hle hlt
    rw [← heq] at hvalue
    have hsplit := Nat.div_add_mod v (2 ^ d)
    have hmod := Nat.mod_lt v (Nat.two_pow_pos d)
    have hwidth : 2 ^ d * 16 ≤ 2 ^ d * (v / 2 ^ d) := Nat.mul_le_mul_left _ hle
    rw [Nat.succ_mul, Nat.mul_comm] at hvalue
    have hlimit : exactLimit = 16 := rfl
    exact ⟨by omega, by omega, by omega⟩

/-! ## Recording and merging -/

/-- The values of a bound: what it starts with, and the samples. -/
def seen (start : ℕ) (values : List UInt64) : Set ℕ :=
  {n | n = start ∨ ∃ v ∈ values, v.toNat = n}

theorem seen_append (start : ℕ) (values values' : List UInt64) :
    seen start (values ++ values') = seen start values ∪ seen start values' := by
  ext n
  simp only [seen, List.mem_append, Set.mem_union, Set.mem_ofPred_eq]
  constructor
  · rintro (rfl | ⟨v, hv | hv, rfl⟩)
    · exact Or.inl (Or.inl rfl)
    · exact Or.inl (Or.inr ⟨v, hv, rfl⟩)
    · exact Or.inr (Or.inr ⟨v, hv, rfl⟩)
  · rintro ((rfl | ⟨v, hv, rfl⟩) | (rfl | ⟨v, hv, rfl⟩))
    · exact Or.inl rfl
    · exact Or.inr ⟨v, Or.inl hv, rfl⟩
    · exact Or.inl rfl
    · exact Or.inr ⟨v, Or.inr hv, rfl⟩

theorem seen_perm {values values' : List UInt64} (h : values.Perm values')
    (start : ℕ) : seen start values = seen start values' := by
  simp only [seen, h.mem_iff]

namespace Histogram

/-- The histogram says this of the samples, in whatever order they came. -/
structure Summarises (h : Histogram) (values : List UInt64) : Prop where
  samples : ∀ i, h.samples i =
    UInt64.ofNat (values.countP fun v => valueToBucket v.toNat = i)
  total : h.totalSamples = UInt64.ofNat values.length
  least : IsLeast (seen (2 ^ 64 - 1) values) h.minValue
  greatest : IsGreatest (seen 0 values) h.maxValue

namespace Summarises

variable {h h' : Histogram} {values values' : List UInt64}

theorem new : Summarises {} [] where
  samples := fun _ => rfl
  total := rfl
  least := by
    simp [seen]
  greatest := by
    simp [seen]

theorem perm (hs : Summarises h values) (hperm : values.Perm values') :
    Summarises h values' where
  samples := by
    intro i
    rw [hs.samples, hperm.countP_eq]
  total := by
    rw [hs.total, hperm.length_eq]
  least := by
    rw [← seen_perm hperm]
    exact hs.least
  greatest := by
    rw [← seen_perm hperm]
    exact hs.greatest

theorem merge (hs : Summarises h values) (hs' : Summarises h' values') :
    Summarises (h.merge h') (values ++ values') where
  samples := by
    intro i
    rw [List.countP_append, UInt64.ofNat_add, ← hs.samples, ← hs'.samples]
    rfl
  total := by
    rw [List.length_append, UInt64.ofNat_add, ← hs.total, ← hs'.total]
    rfl
  least := by
    rw [seen_append]
    exact hs.least.union hs'.least
  greatest := by
    rw [seen_append]
    exact hs.greatest.union hs'.greatest

/-- Recording a sample merges the histogram that has this sample only. -/
theorem record_eq_merge (h : Histogram) (v : UInt64) :
    h.record v = h.merge (record {} v) := by
  have hmin : min (2 ^ 64 - 1) v.toNat = v.toNat := by
    have := v.toNat_lt
    omega
  simp only [Histogram.record, Histogram.merge, hmin, UInt64.zero_add,
    Nat.zero_max]
  congr 1
  funext i
  simp only [Function.update_apply]
  split
  · rename_i heq
    rw [heq]
  · simp

theorem single (v : UInt64) : Summarises (record {} v) [v] where
  samples := by
    intro i
    by_cases hi : i = valueToBucket v.toNat
    · simp [Histogram.record, hi]
    · simp [Histogram.record, hi, Ne.symm hi]
  total := rfl
  least := by
    have hlt := v.toNat_lt
    have hmin : (Histogram.record {} v).minValue = v.toNat := by
      simp only [Histogram.record]
      omega
    rw [hmin]
    refine ⟨Or.inr ⟨v, by simp, rfl⟩, ?_⟩
    rintro n (rfl | ⟨w, hw, rfl⟩)
    · omega
    · rw [List.mem_singleton.mp hw]
  greatest := by
    rw [Histogram.record, Nat.zero_max]
    refine ⟨Or.inr ⟨v, by simp, rfl⟩, ?_⟩
    rintro n (rfl | ⟨w, hw, rfl⟩)
    · exact Nat.zero_le _
    · rw [List.mem_singleton.mp hw]

theorem record (hs : Summarises h values) (v : UInt64) :
    Summarises (h.record v) (values ++ [v]) := by
  rw [record_eq_merge]
  exact hs.merge (single v)

/-- The samples determine the histogram. -/
theorem unique (hs : Summarises h values) (hs' : Summarises h' values) :
    h = h' := by
  obtain ⟨samples, total, low, high⟩ := h
  obtain ⟨samples', total', low', high'⟩ := h'
  obtain rfl : samples = samples' :=
    funext fun i => (hs.samples i).trans (hs'.samples i).symm
  obtain rfl : total = total' := hs.total.trans hs'.total.symm
  obtain rfl : low = low' := hs.least.unique hs'.least
  obtain rfl : high = high' := hs.greatest.unique hs'.greatest
  rfl

end Summarises

/-! ## Percentiles -/

/-- The samples in the buckets up to `i`. -/
def cumulative (values : List UInt64) (i : ℕ) : ℕ :=
  values.countP fun v => valueToBucket v.toNat ≤ i

variable {h : Histogram} {values : List UInt64}

theorem cumulative_succ (values : List UInt64) (i : ℕ) :
    cumulative values (i + 1) = cumulative values i +
      values.countP fun v => valueToBucket v.toNat = i + 1 := by
  induction values with
  | nil => rfl
  | cons v values ih =>
      simp only [cumulative, List.countP_cons] at ih ⊢
      rw [ih]
      simp only [decide_eq_true_eq]
      split_ifs <;> omega

/-- The loop stops at the first bucket where the threshold is reached. -/
theorem percentileLoop_eq {threshold samplesS : UInt64} {n i k : ℕ}
    (hs : Summarises h values) (hlen : values.length < 2 ^ 64)
    (hacc : samplesS + h.samples i = UInt64.ofNat (cumulative values i))
    (hik : i ≤ k) (hkn : k < i + n)
    (hreach : threshold.toNat ≤ cumulative values k)
    (hbelow : ∀ j < k, cumulative values j < threshold.toNat) :
    h.percentileLoop threshold n samplesS i =
      if k = maxBuckets then .infinity
      else .value (min (bucketToValue k) h.maxValue) := by
  induction n generalizing samplesS i with
  | zero => omega
  | succ n ih =>
      have hle : ∀ j, cumulative values j < 2 ^ 64 := fun j =>
        Nat.lt_of_le_of_lt List.countP_le_length hlen
      have hcmp : threshold ≤ samplesS + h.samples i ↔
          threshold.toNat ≤ cumulative values i := by
        rw [hacc, UInt64.le_iff_toNat_le, UInt64.toNat_ofNat',
          Nat.mod_eq_of_lt (hle i)]
      rw [percentileLoop]
      simp only [hcmp]
      rcases Nat.lt_or_eq_of_le hik with hlt | rfl
      · rw [if_neg (Nat.not_le.mpr (hbelow i hlt))]
        apply ih
        · rw [hacc, hs.samples, cumulative_succ, UInt64.ofNat_add]
        · omega
        · omega
      · rw [if_pos hreach]

/-- How a histogram has come about: any distribution of the samples, merged in
any order. -/
inductive Build where
  | new
  | record (b : Build) (value : UInt64)
  | merge (b other : Build)

namespace Build

def run : Build → Histogram
  | new => {}
  | record b value => b.run.record value
  | merge b other => b.run.merge other.run

def recorded : Build → List UInt64
  | new => []
  | record b value => b.recorded ++ [value]
  | merge b other => b.recorded ++ other.recorded

theorem summarises (b : Build) : Summarises b.run b.recorded := by
  induction b with
  | new => exact .new
  | record b value ih => exact ih.record value
  | merge b other ih ih' => exact ih.merge ih'

end Build

/-- One histogram that has recorded all the samples. -/
def recordAll (values : List UInt64) : Histogram :=
  values.foldl record {}

theorem summarises_recordAll (values : List UInt64) :
    Summarises (recordAll values) values := by
  induction values using List.reverseRecOn with
  | nil => exact .new
  | append_singleton values v ih =>
      rw [recordAll, List.foldl_append]
      exact ih.record v

/-- The samples from the smallest on. -/
def sorted (values : List UInt64) : List UInt64 :=
  values.mergeSort fun v w => decide (v ≤ w)

theorem sorted_perm (values : List UInt64) : (sorted values).Perm values :=
  List.mergeSort_perm values _

theorem sorted_pairwise (values : List UInt64) :
    (sorted values).Pairwise (· ≤ ·) := by
  have htrans : ∀ a b c : UInt64,
      decide (a ≤ b) = true → decide (b ≤ c) = true → decide (a ≤ c) = true := by
    intro a b c hab hbc
    simp only [decide_eq_true_eq] at hab hbc ⊢
    exact UInt64.le_trans hab hbc
  have htotal : ∀ a b : UInt64, (decide (a ≤ b) || decide (b ≤ a)) = true := by
    intro a b
    simp only [Bool.or_eq_true, decide_eq_true_eq]
    exact UInt64.le_total a b
  have hpair := List.pairwise_mergeSort htrans htotal values
  simpa only [sorted, decide_eq_true_eq] using hpair

/-- The rank, counted from 1, of the percentile with weight `q` among `n`
samples. -/
def rank (n q : ℕ) : ℕ :=
  max 1 (n * q ⌈/⌉ 100000)

theorem rank_le {n q : ℕ} (hn : 0 < n) (hq : q ≤ 100000) : rank n q ≤ n := by
  have hmul : n * q ≤ n * 100000 := Nat.mul_le_mul_left n hq
  rw [rank, Nat.ceilDiv_eq_add_pred_div]
  omega

/-- The threshold of the loop is the rank. -/
theorem percentile_eq_loop {n q : ℕ} (htotal : h.totalSamples = UInt64.ofNat n)
    (hbound : n * q + 99999 < 2 ^ 64) :
    ∃ threshold : UInt64, threshold.toNat = rank n q ∧
      h.percentile (UInt64.ofNat q) =
        h.percentileLoop threshold (maxBuckets + 1) 0 0 := by
  have hdiv : ((h.totalSamples * UInt64.ofNat q + 99999) / 100000).toNat =
      (n * q + 99999) / 100000 := by
    rw [htotal, ← UInt64.ofNat_mul, UInt64.toNat_div, UInt64.toNat_add,
      UInt64.toNat_ofNat']
    change (n * q % 2 ^ 64 + 99999) % 2 ^ 64 / 100000 = _
    rw [Nat.mod_eq_of_lt (by omega : n * q < 2 ^ 64), Nat.mod_eq_of_lt hbound]
  refine ⟨_, ?_, rfl⟩
  have hlt := UInt64.lt_iff_toNat_lt
    (a := (h.totalSamples * UInt64.ofNat q + 99999) / 100000) (b := 1)
  rw [hdiv] at hlt
  change _ ↔ _ < 1 at hlt
  rw [rank, Nat.ceilDiv_eq_add_pred_div]
  split
  · next hsmall =>
      have := hlt.mp hsmall
      change 1 = _
      omega
  · next hlarge =>
      have := mt hlt.mpr hlarge
      rw [hdiv]
      omega

/-- The percentile is the bucket of the sample with the rank. -/
theorem percentile_eq {q r : ℕ} {s : UInt64} (hs : Summarises h values)
    (hbound : values.length * q + 99999 < 2 ^ 64) (hq : 1 ≤ q)
    (hr : r = rank values.length q)
    (hrank : (sorted values)[r - 1]? = some s) :
    h.percentile (UInt64.ofNat q) =
      if valueToBucket s.toNat = maxBuckets then .infinity
      else .value (min (bucketToValue (valueToBucket s.toNat)) h.maxValue) := by
  obtain ⟨threshold, hthreshold, hloop⟩ := percentile_eq_loop hs.total hbound
  have hlen : values.length < 2 ^ 64 := by
    have hmul : values.length * 1 ≤ values.length * q :=
      Nat.mul_le_mul_left _ hq
    omega
  have hpos : 1 ≤ r := by
    rw [hr]
    exact le_max_left _ _
  -- At least `r` samples are in the buckets up to `j` if the sample with the
  -- rank is.
  have hreach : ∀ j, threshold.toNat ≤ cumulative values j ↔
      valueToBucket s.toNat ≤ j := by
    intro j
    have hcount := lt_countP_iff (sorted_perm values) (sorted_pairwise values)
      (p := fun v => valueToBucket v.toNat ≤ j) ?_ hrank
    · rw [hthreshold, ← hr, ← decide_eq_true_iff (p := valueToBucket _ ≤ j),
        ← hcount]
      change r ≤ cumulative values j ↔ r - 1 < cumulative values j
      omega
    · intro a b hab hb
      simp only [decide_eq_true_eq] at hb ⊢
      exact le_trans (valueToBucket_mono (UInt64.le_iff_toNat_le.mp hab)) hb
  rw [hloop]
  apply percentileLoop_eq hs hlen
  · rw [hs.samples, UInt64.zero_add, cumulative]
    simp
  · exact Nat.zero_le _
  · have := valueToBucket_le s.toNat
    omega
  · exact (hreach _).mpr le_rfl
  · intro j hj
    have := mt (hreach j).mp (Nat.not_le.mpr hj)
    omega

theorem Summarises.le_maxValue {v : UInt64} (hs : Summarises h values)
    (hv : v ∈ values) : v.toNat ≤ h.maxValue :=
  hs.greatest.2 (Or.inr ⟨v, hv, rfl⟩)

/-- The maximum is one of the samples. -/
theorem Summarises.exists_maxValue (hs : Summarises h values)
    (hne : values ≠ []) : ∃ v ∈ values, v.toNat = h.maxValue := by
  rcases hs.greatest.1 with hzero | hmem
  · obtain ⟨v, hv⟩ := List.exists_mem_of_ne_nil values hne
    have hle := hs.le_maxValue hv
    exact ⟨v, hv, by omega⟩
  · exact hmem

/-- A percentile against the sample `s` with its rank. -/
structure Honest (values : List UInt64) (s : UInt64) (p : Percentile) : Prop where
  infinite : p = .infinity ↔ 2 ^ 32 ≤ s.toNat
  finite : s.toNat < 2 ^ 32 → ∃ r, p = .value r ∧ s.toNat ≤ r ∧
    (∃ v ∈ values, r ≤ v.toNat) ∧ 16 * r ≤ 17 * s.toNat ∧
    (s.toNat < 16 → r = s.toNat)

theorem honest_of_summarises {q r : ℕ} {s : UInt64} (hs : Summarises h values)
    (hbound : values.length * q + 99999 < 2 ^ 64) (hq : 1 ≤ q)
    (hr : r = rank values.length q)
    (hrank : (sorted values)[r - 1]? = some s) :
    Honest values s (h.percentile (UInt64.ofNat q)) := by
  have hmem : s ∈ values :=
    (sorted_perm values).mem_iff.mp (List.mem_of_getElem? hrank)
  rw [percentile_eq hs hbound hq hr hrank]
  simp only [valueToBucket_eq_max_iff]
  change Honest values s (if 2 ^ 32 ≤ s.toNat then _ else _)
  by_cases hlarge : 2 ^ 32 ≤ s.toNat
  · rw [if_pos hlarge]
    exact ⟨iff_of_true rfl hlarge, fun hlt => absurd hlarge (Nat.not_le.mpr hlt)⟩
  · rw [if_neg hlarge]
    refine ⟨iff_of_false (by simp) hlarge, fun hlt => ⟨_, rfl, ?_⟩⟩
    obtain ⟨hle, hwidth, hexact⟩ := bucketToValue_valueToBucket hlt
    have hmax := hs.le_maxValue hmem
    obtain ⟨v, hv, hveq⟩ := hs.exists_maxValue (List.ne_nil_of_mem hmem)
    refine ⟨le_min hle hmax, ⟨v, hv, ?_⟩, ?_, ?_⟩
    · rw [hveq]
      exact min_le_right _ _
    · exact le_trans (Nat.mul_le_mul_left 16 (min_le_left _ _)) hwidth
    · intro hsmall
      rw [hexact hsmall, min_eq_left hmax]

/-- However the samples were distributed and merged, the histogram is the one
that has recorded them all, and its percentiles are honest. -/
theorem merged_honest (values : List UInt64) (hne : values ≠ []) (b : Build)
    (hb : b.recorded.Perm values) :
    b.run = recordAll values ∧
    ∀ q, 1 ≤ q → q ≤ 100000 → values.length * q + 99999 < 2 ^ 64 →
      ∃ s, (sorted values)[rank values.length q - 1]? = some s ∧
        Honest values s (b.run.percentile (UInt64.ofNat q)) := by
  have hs := b.summarises.perm hb
  refine ⟨hs.unique (summarises_recordAll values), ?_⟩
  intro q hq hq' hbound
  have hpos : 0 < values.length := List.length_pos_iff.mpr hne
  have hlt : rank values.length q - 1 < (sorted values).length := by
    have hle := rank_le hpos hq'
    rw [(sorted_perm values).length_eq]
    omega
  refine ⟨_, List.getElem?_eq_getElem hlt, ?_⟩
  exact honest_of_summarises hs hbound hq rfl (List.getElem?_eq_getElem hlt)

/-- Two histograms, merged into a third one. -/
def twoBuilders : Build :=
  .merge (.merge .new (.record (.record .new 70) 3)) (.record .new 5000000000)

theorem merged_honest_twoBuilders :
    twoBuilders.run = recordAll [3, 70, 5000000000] ∧
    ∃ s, (sorted [3, 70, 5000000000])[rank 3 99000 - 1]? = some s ∧
      Honest [3, 70, 5000000000] s (twoBuilders.run.percentile 99000) := by
  have hmerged := merged_honest [3, 70, 5000000000] (by simp) twoBuilders
    (List.Perm.swap 3 70 [5000000000])
  exact ⟨hmerged.1, hmerged.2 99000 (by decide) (by decide) (by decide)⟩

end Histogram

end Fastbook.Profiling

import Fastbook.Common.LogDrain

/-!
# What becomes of a log record

In every run of the threads and the logger thread a record that has been emitted is
in one place: on its way, in the ring, in the batch of the pass, in the output, or
refused.  The last pass leaves nothing on the way, and since it takes as many records
from a ring as fit into it, nothing in the rings.
-/

namespace Fastbook.Logger

open Support

variable {β : Type}

/-! ## Steps -/

/-- All that a thread can do to its slot. -/
inductive RingSlot.Step (i : Slot) (x : RingSlot β) : Action β → RingSlot β → Prop
  | publish : x.ring = none → Step i x (.publish i) { x with ring := some [] }
  | reserve {body q} : x.pc = .idle → x.ring = some q → q.length < ringCapacity →
      Step i x (.emit i body)
        { x with
          emitted := x.emitted ++ [body]
          pc := .reserved x.emitted.length body }
  | refuse {body q} : x.pc = .idle → x.ring = some q →
      Step i x (.emit i body)
        { x with
          emitted := x.emitted ++ [body]
          pc := .full x.emitted.length x.dropped }
  | commit {tsc number body q} : x.pc = .reserved number body → x.ring = some q →
      Step i x (.commit i tsc)
        { x with
          ring := some (q ++ [⟨i, number, tsc, body⟩])
          pc := .idle
          stamp := some tsc }
  | count {number dropped} : x.pc = .full number dropped →
      Step i x (.count i)
        { x with
          dropped := dropped + 1
          pc := .idle
          refused := x.refused ++ [number] }

/-- All that a step can do. -/
inductive Log.Step [DecidableEq β] (s : Log β) : Action β → Log β → Prop
  | claim : Step s .claim { s with slotsSoFar := s.slotsSoFar + 1 }
  | thread {a} {i : Slot} {x} : (s.slots i).Step i a x →
      (s.slotsSoFar ≤ i → x.ring = (s.slots i).ring ∨ (s.slots i).ring ≠ none) →
      Step s a (s.setSlot i x)
  | start : s.logger = .idle →
      Step s .start { s with logger := .slot { n := min s.slotsSoFar nSlots } 0 }
  | skip {p} {i : Slot} : s.logger = .slot p i → i < p.n → (s.slots i).ring = none →
      Step s .visit { s with logger := .slot p (i + 1) }
  | enter {p} {i : Slot} : s.logger = .slot p i → i < p.n →
      Step s .visit { s with logger := .pops p i 0 }
  | pop {p i k r q} : s.logger = .pops p i k → (s.slots i).ring = some (r :: q) →
      Step s .pop
        { s.setSlot i { s.slots i with ring := some q } with
          logger := .pops { p with recs := p.recs ++ [r] } i (k + 1) }
  | drained {p i k} : s.logger = .pops p i k →
      (k < logRingSize → (s.slots i).ring.getD [] = []) →
      Step s .pop { s with logger := .counter p i }
  | report {p i} : s.logger = .counter p i →
      Step s .load
        { s.setSlot i { s.slots i with seenDropped := (s.slots i).dropped } with
          logger := .slot { p with outBuff := p.outBuff ++
            [.dropped i ((s.slots i).dropped - (s.slots i).seenDropped)] } (i + 1) }
  | keep {p i} : s.logger = .counter p i →
      (s.slots i).dropped = (s.slots i).seenDropped →
      Step s .load { s with logger := .slot p (i + 1) }
  | finish {p i sorted} : s.logger = .slot p i → p.n ≤ i → Log.IsSorting p.recs sorted →
      Step s (.finish sorted)
        { s with
          logger := .idle
          out := s.out ++ (p.outBuff ++ Log.recordLines sorted ++ Log.failedLine sorted)
          handled := s.handled ++ sorted
          passes := s.passes + 1 }

namespace RingSlot

variable {x x' : RingSlot β} {i : Slot}

theorem step_of_publish (h : x.publish = some x') : x.Step i (.publish i) x' := by
  rw [publish] at h
  split at h
  · next hring =>
    cases h
    exact .publish hring
  · cases h

theorem step_of_emit {body : β} (h : x.emit body = some x') :
    x.Step i (.emit i body) x' ∧ x'.ring = x.ring := by
  rw [emit] at h
  split at h
  · next q hidle hring =>
    cases h
    refine ⟨?_, rfl⟩
    split
    · next hlt => exact .reserve hidle hring hlt
    · exact .refuse hidle hring
  · cases h

theorem step_of_commit {tsc : UInt64} (h : x.commit i tsc = some x') :
    x.Step i (.commit i tsc) x' ∧ x.ring ≠ none := by
  rw [commit] at h
  split at h
  · next hpc hring =>
    cases h
    exact ⟨.commit hpc hring, by simp [hring]⟩
  · cases h

theorem step_of_count (h : x.count = some x') :
    x.Step i (.count i) x' ∧ x'.ring = x.ring := by
  rw [count] at h
  split at h
  · next hpc =>
    cases h
    exact ⟨.count hpc, rfl⟩
  · cases h

end RingSlot

namespace Log

variable [DecidableEq β] {s s' : Log β}

theorem step_of_visit (h : s.visit = some s') : s.Step .visit s' := by
  rw [visit] at h
  split at h
  · next p i hlogger =>
    split at h
    · next hlt =>
      have hslot : s.logger = .slot p (⟨i, hlt.1⟩ : Slot) := hlogger
      split at h
      · next hring =>
        cases h
        exact .skip hslot hlt.2 hring
      · cases h
        exact .enter hslot hlt.2
    · cases h
  · cases h

theorem step_of_pop (h : s.pop = some s') : s.Step .pop s' := by
  rw [pop] at h
  split at h
  · next p i k hlogger =>
    split at h
    · split at h
      · next hring =>
        cases h
        exact .pop hlogger hring
      · next hring =>
        cases h
        refine .drained hlogger fun _ => ?_
        cases hr : (s.slots i).ring with
        | none => rfl
        | some q =>
          cases q with
          | nil => rfl
          | cons r q => exact absurd hr (hring r q)
    · next hk =>
      cases h
      exact .drained hlogger fun hlt => absurd hlt hk
  · cases h

theorem step_of_load (h : s.load = some s') : s.Step .load s' := by
  rw [load] at h
  split at h
  · next hlogger =>
    dsimp only at h
    split at h
    · cases h
      exact .report hlogger
    · next hsame =>
      cases h
      exact .keep hlogger (not_not.mp hsame)
  · cases h

theorem step_of_finish {sorted : List (Record β × Bool)} (h : s.finish sorted = some s') :
    s.Step (.finish sorted) s' := by
  rw [finish] at h
  split at h
  · next hlogger =>
    split at h
    · cases h
    · next hn =>
      split at h
      · next hsort =>
        cases h
        exact .finish hlogger (Nat.le_of_not_lt hn) hsort
      · cases h
  · cases h

theorem step_of_eq_some {a : Action β} (h : s.step a = some s') : s.Step a s' := by
  cases a with
  | claim =>
    cases h
    exact .claim
  | publish i =>
    rw [step] at h
    split at h
    · next hlt =>
      obtain ⟨x, hx, rfl⟩ := Option.map_eq_some_iff.mp h
      exact .thread (RingSlot.step_of_publish hx) fun hle =>
        absurd hlt (Nat.not_lt.mpr hle)
    · cases h
  | emit i body =>
    obtain ⟨x, hx, rfl⟩ := Option.map_eq_some_iff.mp h
    obtain ⟨hstep, hring⟩ := RingSlot.step_of_emit hx
    exact .thread hstep fun _ => .inl hring
  | commit i tsc =>
    obtain ⟨x, hx, rfl⟩ := Option.map_eq_some_iff.mp h
    obtain ⟨hstep, hring⟩ := RingSlot.step_of_commit hx
    exact .thread hstep fun _ => .inr hring
  | count i =>
    obtain ⟨x, hx, rfl⟩ := Option.map_eq_some_iff.mp h
    obtain ⟨hstep, hring⟩ := RingSlot.step_of_count hx
    exact .thread hstep fun _ => .inl hring
  | start =>
    rw [step] at h
    split at h
    · next hidle =>
      cases h
      exact .start hidle
    · cases h
  | visit => exact step_of_visit h
  | pop => exact step_of_pop h
  | load => exact step_of_load h
  | finish sorted => exact step_of_finish h

end Log

/-! ## One slot -/

/-- The number of the record that `emit` works on. -/
def EmitPc.numbers : EmitPc β → List ℕ
  | .idle => []
  | .reserved number _ | .full number _ => [number]

namespace RingSlot

def queue (x : RingSlot β) : List (Record β) :=
  x.ring.getD []

/-- The numbers of the records that have not left the slot. -/
def numbers (x : RingSlot β) : List ℕ :=
  x.refused ++ x.pc.numbers ++ x.queue.map Record.number

structure Inv (x : RingSlot β) (i : Slot) : Prop where
  unused : x.ring = none → x.pc = .idle ∧ x.dropped = 0 ∧ x.seenDropped = 0
  room : x.queue.length ≤ ringCapacity
  /-- A reserved place stays free. -/
  reserved : ∀ number body, x.pc = .reserved number body →
    x.queue.length < ringCapacity
  origin : ∀ r ∈ x.queue, r.slot = i
  /-- Only the thread of the slot writes to its counter. -/
  counter : ∀ number dropped, x.pc = .full number dropped → dropped = x.dropped
  refused : x.refused.length = x.dropped
  seen : x.seenDropped ≤ x.dropped

variable {x x' : RingSlot β} {i : Slot} {a : Action β}

theorem Inv.step (h : x.Inv i) (hstep : x.Step i a x') : x'.Inv i := by
  obtain ⟨hunused, hroom, hreserved, horigin, hcounter, hrefused, hseen⟩ := h
  cases hstep with
  | publish hring =>
    obtain ⟨hpc, hdropped, hseen'⟩ := hunused hring
    exact ⟨nofun, Nat.zero_le _, by simp [hpc], nofun, hcounter, hrefused, hseen⟩
  | reserve hpc hring hlt =>
    have hqueue : x.queue.length < ringCapacity := by simpa [queue, hring] using hlt
    exact ⟨by simp [hring], hroom, fun _ _ _ => hqueue, horigin, nofun, hrefused, hseen⟩
  | refuse hpc hring =>
    refine ⟨by simp [hring], hroom, nofun, horigin, ?_, hrefused, hseen⟩
    intro number dropped heq
    cases heq
    rfl
  | commit hpc hring =>
    have hlt := hreserved _ _ hpc
    simp only [queue, hring, Option.getD_some] at hlt horigin
    refine ⟨nofun, ?_, nofun, ?_, nofun, hrefused, hseen⟩
    · simpa [queue, Nat.add_one_le_iff] using hlt
    · intro r hr
      simp only [queue, Option.getD_some, List.mem_append, List.mem_singleton] at hr
      rcases hr with hr | rfl
      · exact horigin r hr
      · rfl
  | count hpc =>
    obtain rfl := hcounter _ _ hpc
    refine ⟨?_, hroom, nofun, horigin, nofun, ?_, Nat.le_succ_of_le hseen⟩
    · intro hring
      rw [(hunused hring).1] at hpc
      cases hpc
    · simp [hrefused]

theorem Step.seenDropped_eq (h : x.Step i a x') : x'.seenDropped = x.seenDropped := by
  cases h <;> rfl

/-- A call of `emit` adds the number of its record, and the other steps of the thread
only move it. -/
theorem Step.count_numbers (h : x.Step i a x') (k : ℕ) :
    x'.numbers.count k + (if k < x.emitted.length then 1 else 0) =
      x.numbers.count k + if k < x'.emitted.length then 1 else 0 := by
  -- the number of a new record is the number of calls before it
  have hlt : ∀ body : β, (if k < (x.emitted ++ [body]).length then 1 else 0) =
      (if k < x.emitted.length then 1 else 0) + if x.emitted.length = k then 1 else 0 := by
    intro body
    rw [List.length_append, List.length_singleton]
    split_ifs <;> omega
  cases h with
  | publish hring => simp [numbers, queue, hring]
  | reserve hpc hring hroom =>
    simp only [numbers, hpc, EmitPc.numbers, queue, List.count_append, List.count_nil,
      List.count_singleton, beq_iff_eq, hlt]
    omega
  | refuse hpc hring =>
    simp only [numbers, hpc, EmitPc.numbers, queue, List.count_append, List.count_nil,
      List.count_singleton, beq_iff_eq, hlt]
    omega
  | commit hpc hring =>
    simp only [numbers, hpc, hring, EmitPc.numbers, queue, Option.getD_some,
      List.map_append, List.map_singleton, List.count_append, List.count_nil]
    omega
  | count hpc =>
    simp only [numbers, hpc, EmitPc.numbers, queue, List.count_append, List.count_nil]
    omega

end RingSlot

/-! ## The output -/

/-- The batch of a pass so far. -/
def DrainPc.recs : DrainPc β → List (Record β)
  | .idle => []
  | .slot p _ | .pops p _ _ | .counter p _ => p.recs

/-- The output of a pass so far. -/
def DrainPc.lines : DrainPc β → List (Line β)
  | .idle => []
  | .slot p _ | .pops p _ _ | .counter p _ => p.outBuff

namespace Log

/-- The numbers that are reported as dropped for a slot. -/
def drops (i : Slot) (out : List (Line β)) : List ℕ :=
  out.filterMap fun
    | .dropped j n => if j = i then some n else none
    | _ => none

/-- The records that are printed. -/
def printed (out : List (Line β)) : List (Record β) :=
  out.filterMap fun
    | .record r => some r
    | _ => none

/-- The numbers that are reported as failed. -/
def failedTotals (out : List (Line β)) : List ℕ :=
  out.filterMap fun
    | .failed n => some n
    | _ => none

/-- The records that could not be formatted. -/
def unformatted (handled : List (Record β × Bool)) : List (Record β) :=
  (handled.filter fun o => !o.2).map Prod.fst

/-- The records that could. -/
def formatted (handled : List (Record β × Bool)) : List (Record β) :=
  (handled.filter fun o => o.2).map Prod.fst

section Lines

variable (front back : List (Line β)) (sorted : List (Record β × Bool)) (i : Slot)

@[simp] theorem drops_append : drops i (front ++ back) = drops i front ++ drops i back :=
  List.filterMap_append

@[simp] theorem printed_append : printed (front ++ back) = printed front ++ printed back :=
  List.filterMap_append

@[simp] theorem failedTotals_append :
    failedTotals (front ++ back) = failedTotals front ++ failedTotals back :=
  List.filterMap_append

@[simp] theorem drops_recordLines : drops i (recordLines sorted) = [] := by
  simp only [drops, recordLines, List.filterMap_filterMap, List.filterMap_eq_nil_iff]
  rintro ⟨r, ok⟩ -
  cases ok <;> rfl

@[simp] theorem failedTotals_recordLines : failedTotals (recordLines sorted) = [] := by
  simp only [failedTotals, recordLines, List.filterMap_filterMap,
    List.filterMap_eq_nil_iff]
  rintro ⟨r, ok⟩ -
  cases ok <;> rfl

@[simp] theorem printed_recordLines : printed (recordLines sorted) = formatted sorted := by
  induction sorted with
  | nil => rfl
  | cons o sorted ih =>
    obtain ⟨r, ok⟩ := o
    cases ok <;> simpa [printed, recordLines, formatted] using ih

@[simp] theorem drops_failedLine : drops i (failedLine sorted) = [] := by
  unfold failedLine
  split <;> rfl

@[simp] theorem printed_failedLine : printed (failedLine sorted) = [] := by
  unfold failedLine
  split <;> rfl

@[simp] theorem sum_failedTotals_failedLine :
    (failedTotals (failedLine sorted)).sum = failures sorted := by
  unfold failedLine
  split
  · simp [failedTotals]
  · next h => simpa [failedTotals, eq_comm] using h

theorem length_unformatted : (unformatted sorted).length = failures sorted := by
  rw [unformatted, List.length_map, ← List.countP_eq_length_filter]
  rfl

end Lines

/-! ## The invariant -/

/-- The numbers of the records of a slot. -/
def numbersOf (i : Slot) (recs : List (Record β)) : List ℕ :=
  (recs.filter fun r => r.slot = i).map Record.number

@[simp] theorem numbersOf_append (i : Slot) (front back : List (Record β)) :
    numbersOf i (front ++ back) = numbersOf i front ++ numbersOf i back := by
  simp [numbersOf]

theorem numbersOf_perm {recs recs' : List (Record β)} (h : recs.Perm recs') (i : Slot) :
    (numbersOf i recs).Perm (numbersOf i recs') :=
  (h.filter _).map _

structure Inv (s : Log β) : Prop where
  slots : ∀ i, (s.slots i).Inv i
  unclaimed : ∀ i : Slot, s.slotsSoFar ≤ i → (s.slots i).ring = none
  /-- A record is in one place. -/
  once : ∀ i k, (s.slots i).numbers.count k + (numbersOf i s.logger.recs).count k +
    (numbersOf i (s.handled.map Prod.fst)).count k =
      if k < (s.slots i).emitted.length then 1 else 0
  reported : ∀ i, (drops i s.out).sum + (drops i s.logger.lines).sum =
    (s.slots i).seenDropped
  /-- A pass begins its output with the numbers of dropped records. -/
  plain : printed s.logger.lines = [] ∧ failedTotals s.logger.lines = []
  printed : printed s.out = formatted s.handled
  failed : (failedTotals s.out).sum = failures s.handled

theorem inv_start : ({} : Log β).Inv where
  slots _ := ⟨fun _ => ⟨rfl, rfl, rfl⟩, Nat.zero_le _, nofun, nofun, nofun, rfl,
    Nat.le_refl _⟩
  unclaimed _ _ := rfl
  once _ _ := rfl
  reported _ := rfl
  plain := ⟨rfl, rfl⟩
  printed := rfl
  failed := rfl

variable {s : Log β}

/-- The logger thread goes on with the same batch and the same output. -/
theorem Inv.setLogger {pc : DrainPc β} (h : s.Inv) (hrecs : pc.recs = s.logger.recs)
    (hlines : pc.lines = s.logger.lines) : ({ s with logger := pc } : Log β).Inv :=
  ⟨h.slots, h.unclaimed, by simpa only [hrecs] using h.once,
    by simpa only [hlines] using h.reported, by simpa only [hlines] using h.plain,
    h.printed, h.failed⟩

/-- One slot changes, with what the logger thread has of its records and its counter.
The other slots are not concerned. -/
theorem Inv.update {i : Slot} {x : RingSlot β} {pc : DrainPc β} (h : s.Inv)
    (hslot : x.Inv i) (hclaimed : s.slotsSoFar ≤ i → x.ring = none)
    (honce : ∀ k, x.numbers.count k + (numbersOf i pc.recs).count k +
      (numbersOf i (s.handled.map Prod.fst)).count k =
        if k < x.emitted.length then 1 else 0)
    (hreported : (drops i s.out).sum + (drops i pc.lines).sum = x.seenDropped)
    (hplain : Log.printed pc.lines = [] ∧ failedTotals pc.lines = [])
    (hrecs : ∀ j, j ≠ i → numbersOf j pc.recs = numbersOf j s.logger.recs)
    (hlines : ∀ j, j ≠ i → drops j pc.lines = drops j s.logger.lines) :
    ({ s.setSlot i x with logger := pc } : Log β).Inv := by
  refine ⟨?_, ?_, ?_, ?_, hplain, h.printed, h.failed⟩
  · exact (Function.forall_update_iff s.slots (p := fun j y => y.Inv j)).mpr
      ⟨hslot, fun j _ => h.slots j⟩
  · exact (Function.forall_update_iff s.slots
      (p := fun j y => s.slotsSoFar ≤ j → y.ring = none)).mpr
        ⟨hclaimed, fun j _ => h.unclaimed j⟩
  · refine (Function.forall_update_iff s.slots (p := fun j y => ∀ k,
      y.numbers.count k + (numbersOf j pc.recs).count k +
        (numbersOf j (s.handled.map Prod.fst)).count k =
          if k < y.emitted.length then 1 else 0)).mpr ⟨honce, fun j hj => ?_⟩
    rw [hrecs j hj]
    exact h.once j
  · refine (Function.forall_update_iff s.slots (p := fun j y =>
      (drops j s.out).sum + (drops j pc.lines).sum = y.seenDropped)).mpr
        ⟨hreported, fun j hj => ?_⟩
    rw [hlines j hj]
    exact h.reported j

theorem Inv.thread {i : Slot} {x : RingSlot β} {a : Action β} (h : s.Inv)
    (hstep : (s.slots i).Step i a x)
    (hclaimed : s.slotsSoFar ≤ i → x.ring = (s.slots i).ring ∨ (s.slots i).ring ≠ none) :
    (s.setSlot i x).Inv := by
  refine h.update ((h.slots i).step hstep) ?_ ?_ ?_ h.plain (fun _ _ => rfl)
    fun _ _ => rfl
  · intro hle
    have hnone := h.unclaimed i hle
    rcases hclaimed hle with hring | hring
    · rw [hring, hnone]
    · exact absurd hnone hring
  · intro k
    have hnumbers := hstep.count_numbers k
    have honce := h.once i k
    omega
  · rw [hstep.seenDropped_eq]
    exact h.reported i

theorem Inv.pop {p : Pass β} {i : Slot} {k : ℕ} {r : Record β} {q : List (Record β)}
    (h : s.Inv) (hlogger : s.logger = .pops p i k)
    (hring : (s.slots i).ring = some (r :: q)) :
    ({ s.setSlot i { s.slots i with ring := some q } with
        logger := .pops { p with recs := p.recs ++ [r] } i (k + 1) } : Log β).Inv := by
  obtain ⟨hunused, hroom, hreserved, horigin, hcounter, hrefused, hseen⟩ := h.slots i
  simp only [RingSlot.queue, hring, Option.getD_some] at hroom hreserved horigin
  have hslot : r.slot = i := horigin r (by simp)
  have honce := h.once i
  have hreported := h.reported i
  have hplain := h.plain
  simp only [hlogger, DrainPc.recs, DrainPc.lines] at honce hreported hplain
  refine h.update ⟨nofun, ?_, ?_, ?_, hcounter, hrefused, hseen⟩ ?_ ?_ hreported hplain
    ?_ ?_
  · exact Nat.le_of_succ_le hroom
  · exact fun number body hpc => Nat.lt_of_succ_lt (hreserved number body hpc)
  · exact fun r' hr' => horigin r' (List.mem_cons_of_mem r hr')
  · intro hle
    rw [h.unclaimed i hle] at hring
    cases hring
  · intro k
    rw [← honce k]
    simp only [RingSlot.numbers, RingSlot.queue, hring, DrainPc.recs, Option.getD_some,
      List.map_cons, List.count_append, List.count_cons, numbersOf_append]
    simp only [numbersOf, hslot, List.filter_cons, List.filter_nil, decide_true, if_true,
      List.map_cons, List.map_nil, List.count_singleton]
    omega
  · intro j hj
    simp [hlogger, DrainPc.recs, numbersOf, hslot, Ne.symm hj]
  · intro j _
    rw [hlogger]
    rfl

theorem Inv.report {p : Pass β} {i : Slot} (h : s.Inv)
    (hlogger : s.logger = .counter p i) :
    ({ s.setSlot i { s.slots i with seenDropped := (s.slots i).dropped } with
        logger := .slot { p with outBuff := p.outBuff ++
          [.dropped i ((s.slots i).dropped - (s.slots i).seenDropped)] } (i + 1) } :
      Log β).Inv := by
  obtain ⟨hunused, hroom, hreserved, horigin, hcounter, hrefused, hseen⟩ := h.slots i
  have honce := h.once i
  have hreported := h.reported i
  have hplain := h.plain
  simp only [hlogger, DrainPc.recs, DrainPc.lines] at honce hreported hplain
  refine h.update ⟨?_, hroom, hreserved, horigin, hcounter, hrefused, Nat.le_refl _⟩
    (h.unclaimed i) honce ?_ ?_ ?_ ?_
  · intro hring
    exact ⟨(hunused hring).1, (hunused hring).2.1, (hunused hring).2.1⟩
  · have hnew : (drops i [Line.dropped (β := β) i
        ((s.slots i).dropped - (s.slots i).seenDropped)]).sum =
          (s.slots i).dropped - (s.slots i).seenDropped := by
      simp [drops]
    simp only [DrainPc.lines, drops_append, List.sum_append, hnew]
    omega
  · simp only [DrainPc.lines, printed_append, failedTotals_append, hplain]
    exact ⟨rfl, rfl⟩
  · intro j _
    rw [hlogger]
    rfl
  · intro j hj
    simp [hlogger, DrainPc.lines, drops, Ne.symm hj]

theorem Inv.finish {p : Pass β} {i : ℕ} {sorted : List (Record β × Bool)} (h : s.Inv)
    (hlogger : s.logger = .slot p i) (hsort : IsSorting p.recs sorted) :
    ({ s with
        logger := .idle
        out := s.out ++ (p.outBuff ++ recordLines sorted ++ failedLine sorted)
        handled := s.handled ++ sorted
        passes := s.passes + 1 } : Log β).Inv := by
  have honce := h.once
  have hreported := h.reported
  have hplain := h.plain
  simp only [hlogger, DrainPc.recs, DrainPc.lines] at honce hreported hplain
  refine ⟨h.slots, h.unclaimed, ?_, ?_, ⟨rfl, rfl⟩, ?_, ?_⟩
  · intro j k
    have hperm := (numbersOf_perm hsort.1 j).count_eq k
    have hj := honce j k
    simp only [DrainPc.recs, List.map_append, numbersOf_append, List.count_append]
    simp only [numbersOf, List.filter_nil, List.map_nil, List.count_nil] at hj hperm ⊢
    omega
  · intro j
    rw [← hreported j]
    have hnil : (drops j ([] : List (Line β))).sum = 0 := rfl
    simp [DrainPc.lines, hnil]
  · simp [h.printed, hplain.1, formatted]
  · simp [h.failed, hplain.2, failures]

variable [DecidableEq β] {s' : Log β} {a : Action β}

theorem Inv.step (h : s.Inv) (hstep : s.Step a s') : s'.Inv := by
  cases hstep with
  | claim =>
    refine ⟨h.slots, ?_, h.once, h.reported, h.plain, h.printed, h.failed⟩
    intro i hi
    exact h.unclaimed i (Nat.le_of_succ_le hi)
  | thread hthread hclaimed => exact h.thread hthread hclaimed
  | start hidle => exact h.setLogger (by rw [hidle]; rfl) (by rw [hidle]; rfl)
  | skip hlogger hlt hring => exact h.setLogger (by rw [hlogger]; rfl) (by rw [hlogger]; rfl)
  | enter hlogger hlt => exact h.setLogger (by rw [hlogger]; rfl) (by rw [hlogger]; rfl)
  | pop hlogger hring => exact h.pop hlogger hring
  | drained hlogger hempty => exact h.setLogger (by rw [hlogger]; rfl) (by rw [hlogger]; rfl)
  | report hlogger => exact h.report hlogger
  | keep hlogger hsame => exact h.setLogger (by rw [hlogger]; rfl) (by rw [hlogger]; rfl)
  | finish hlogger hn hsort => exact h.finish hlogger hsort

theorem inv_of_reachable (h : (log β).Reachable s) : s.Inv :=
  h.invariant inv_start fun _ _ _ hs hstep => hs.step (step_of_eq_some hstep)

end Log

end Fastbook.Logger

import Fastbook.Common.LogAccounting
import Fastbook.Support.SortedList

/-!
# The log loses nothing silently

The records of a slot leave its ring in the order in which they were emitted, and the
sorting of a batch does not change that order if the time stamps of the thread
increase.  A pass that runs after the last call of `emit` leaves every ring empty and
every dropped record reported, so what has been emitted is in the output.
-/

namespace Fastbook.Logger

open Support

variable {β : Type}

/-! ## One slot -/

namespace RingSlot

/-- The records have the bodies with which they were emitted. -/
structure Genuine (x : RingSlot β) (past : List (Record β)) : Prop where
  reserved : ∀ number body, x.pc = .reserved number body → x.emitted[number]? = some body
  bodies : ∀ r ∈ past ++ x.queue, x.emitted[r.number]? = some r.body

/-- The records are in the order in which they were emitted. -/
structure Ordered (x : RingSlot β) (past : List (Record β)) : Prop where
  increasing : (past ++ x.queue).Pairwise fun r r' =>
    r.number < r'.number ∧ r.tsc.toNat < r'.tsc.toNat
  stamped : ∀ r ∈ past ++ x.queue, ∃ t ∈ x.stamp, r.tsc ≤ t
  numbered : ∀ r ∈ past ++ x.queue, r.number < x.emitted.length
  reserved : ∀ number body, x.pc = .reserved number body →
    number < x.emitted.length ∧ ∀ r ∈ past ++ x.queue, r.number < number

variable {x x' : RingSlot β} {i : Slot} {a : Action β} {past : List (Record β)}

theorem getElem?_emitted_append {k : ℕ} {b body : β} (h : x.emitted[k]? = some b) :
    (x.emitted ++ [body])[k]? = some b := by
  obtain ⟨hk, -⟩ := List.getElem?_eq_some_iff.mp h
  rw [List.getElem?_append_left hk, h]

theorem Genuine.step (h : x.Genuine past) (hstep : x.Step i a x') : x'.Genuine past := by
  obtain ⟨hreserved, hbodies⟩ := h
  cases hstep with
  | publish hring => exact ⟨hreserved, by simpa [queue, hring] using hbodies⟩
  | reserve hpc hring hroom =>
    refine ⟨?_, fun r hr => getElem?_emitted_append (hbodies r hr)⟩
    intro number body heq
    cases heq
    simp
  | refuse hpc hring => exact ⟨by simp, fun r hr => getElem?_emitted_append (hbodies r hr)⟩
  | commit hpc hring =>
    refine ⟨by simp, ?_⟩
    simp only [queue, hring, Option.getD_some] at hbodies
    intro r hr
    simp only [queue, Option.getD_some, ← List.append_assoc] at hr
    rcases List.mem_append.mp hr with hr | hr
    · exact hbodies r hr
    · rw [List.mem_singleton.mp hr]
      exact hreserved _ _ hpc
  | count hpc => exact ⟨by simp, hbodies⟩

theorem Ordered.commit {tsc : UInt64} {number : ℕ} {body : β} {q : List (Record β)}
    (h : x.Ordered past) (hpc : x.pc = .reserved number body) (hring : x.ring = some q)
    (hlater : ∀ t ∈ x.stamp, t < tsc) :
    ({ x with
        ring := some (q ++ [⟨i, number, tsc, body⟩])
        pc := .idle
        stamp := some tsc } : RingSlot β).Ordered past := by
  obtain ⟨hincreasing, hstamped, hnumbered, hreserved⟩ := h
  obtain ⟨hlt, hbefore⟩ := hreserved _ _ hpc
  simp only [queue, hring, Option.getD_some] at hincreasing hstamped hnumbered hbefore
  have hqueue : past ++ ({ x with
      ring := some (q ++ [⟨i, number, tsc, body⟩])
      pc := .idle
      stamp := some tsc } : RingSlot β).queue =
        past ++ q ++ [⟨i, number, tsc, body⟩] := by
    simp [queue]
  have htsc : ∀ r ∈ past ++ q, r.tsc < tsc := by
    intro r hr
    obtain ⟨t, ht, hle⟩ := hstamped r hr
    exact UInt64.lt_of_le_of_lt hle (hlater t ht)
  refine ⟨?_, ?_, ?_, by simp⟩
  · rw [hqueue, List.pairwise_append]
    refine ⟨hincreasing, List.pairwise_singleton _ _, ?_⟩
    intro r hr r' hr'
    rw [List.mem_singleton.mp hr']
    exact ⟨hbefore r hr, UInt64.lt_iff_toNat_lt.mp (htsc r hr)⟩
  · rw [hqueue]
    intro r hr
    refine ⟨tsc, rfl, ?_⟩
    rcases List.mem_append.mp hr with hr | hr
    · exact UInt64.le_of_lt (htsc r hr)
    · rw [List.mem_singleton.mp hr]
      exact UInt64.le_refl _
  · rw [hqueue]
    intro r hr
    rcases List.mem_append.mp hr with hr | hr
    · exact hnumbered r hr
    · rw [List.mem_singleton.mp hr]
      exact hlt

/-- A thread stamps its records with increasing times. -/
theorem Ordered.step (h : x.Ordered past) (hstep : x.Step i a x')
    (hstamps : ∀ tsc, a = .commit i tsc → ∀ t ∈ x.stamp, t < tsc) : x'.Ordered past := by
  obtain ⟨hincreasing, hstamped, hnumbered, hreserved⟩ := h
  have hgrow : ∀ body, ∀ r ∈ past ++ x.queue,
      r.number < (x.emitted ++ [body]).length := by
    intro body r hr
    rw [List.length_append]
    exact Nat.lt_add_right _ (hnumbered r hr)
  cases hstep with
  | publish hring =>
    have hqueue : ({ x with ring := some [] } : RingSlot β).queue = x.queue := by
      simp [queue, hring]
    exact ⟨by rwa [hqueue], by rwa [hqueue], by rwa [hqueue], by rwa [hqueue]⟩
  | reserve hpc hring hroom =>
    refine ⟨hincreasing, hstamped, hgrow _, ?_⟩
    intro number body heq
    cases heq
    exact ⟨by simp, hnumbered⟩
  | refuse hpc hring => exact ⟨hincreasing, hstamped, hgrow _, by simp⟩
  | commit hpc hring =>
    exact Ordered.commit ⟨hincreasing, hstamped, hnumbered, hreserved⟩ hpc hring
      (hstamps _ rfl)
  | count hpc => exact ⟨hincreasing, hstamped, hnumbered, by simp⟩

/-- The sorting of a batch leaves the records of a thread as they are. -/
theorem Ordered.sorting {recs recs' : List (Record β)} (h : x.Ordered (past ++ recs))
    (hperm : recs'.Perm recs) (hsorted : recs'.Pairwise fun r r' => ¬ r'.tsc < r.tsc) :
    x.Ordered (past ++ recs') := by
  have hrecs : recs.Pairwise fun r r' => r.tsc.toNat < r'.tsc.toNat := by
    have hsub : recs.Sublist (past ++ recs ++ x.queue) :=
      (List.sublist_append_right past recs).trans (List.sublist_append_left _ _)
    exact (h.increasing.sublist hsub).imp And.right
  have hrecs' : recs'.Pairwise fun r r' => r.tsc.toNat ≤ r'.tsc.toNat :=
    hsorted.imp fun hlt => Nat.le_of_not_lt fun h => hlt (UInt64.lt_iff_toNat_lt.mpr h)
  rwa [eq_of_perm_of_pairwise hperm hrecs hrecs']

end RingSlot

namespace Log

/-! ## The records of a slot -/

/-- What the logger thread has taken from the ring of a slot. -/
def taken (s : Log β) (i : Slot) : List (Record β) :=
  (s.handled.map Prod.fst ++ s.logger.recs).filter fun r => r.slot = i

variable [DecidableEq β] {s s' : Log β} {a : Action β}

/-- What holds for a slot and the records taken from it, if it is kept by the steps of
the thread, by taking a record, and by the sorting of a batch. -/
theorem Step.forall_slot {P : RingSlot β → List (Record β) → Prop}
    (hthread : ∀ i x, P (s.slots i) (s.taken i) → (s.slots i).Step i a x →
      P x (s.taken i))
    (hpop : ∀ x r q past, x.ring = some (r :: q) → P x past →
      P { x with ring := some q } (past ++ [r]))
    (hseen : ∀ x n past, P x past → P { x with seenDropped := n } past)
    (hsorting : ∀ x past recs recs', P x (past ++ recs) → recs'.Perm recs →
      recs'.Pairwise (fun r r' => ¬ r'.tsc < r.tsc) → P x (past ++ recs'))
    (hinv : s.Inv) (hstep : s.Step a s') (h : ∀ i, P (s.slots i) (s.taken i)) :
    ∀ i, P (s'.slots i) (s'.taken i) := by
  cases hstep with
  | claim => exact h
  | @thread _ i x hx =>
    exact (Function.forall_update_iff s.slots (p := fun j y => P y (s.taken j))).mpr
      ⟨hthread i x (h i) hx, fun j _ => h j⟩
  | start hlogger | skip hlogger | enter hlogger | drained hlogger | keep hlogger =>
    simpa only [taken, hlogger, DrainPc.recs] using h
  | @pop p i k r q hlogger hring =>
    have hslot : r.slot = i := (hinv.slots i).origin r (by simp [RingSlot.queue, hring])
    simp only [taken, hlogger, DrainPc.recs] at h
    simp only [taken, DrainPc.recs, ← List.append_assoc]
    refine (Function.forall_update_iff s.slots (p := fun j y => P y
      ((s.handled.map Prod.fst ++ p.recs ++ [r]).filter fun r => r.slot = j))).mpr
        ⟨?_, fun j hj => ?_⟩
    · simpa [hslot] using hpop _ r q _ hring (h i)
    · simpa [hslot, Ne.symm hj] using h j
  | @report p i hlogger =>
    simp only [taken, hlogger, DrainPc.recs] at h
    exact (Function.forall_update_iff s.slots (p := fun j y => P y
      ((s.handled.map Prod.fst ++ p.recs).filter fun r => r.slot = j))).mpr
        ⟨hseen _ _ _ (h i), fun j _ => h j⟩
  | @finish p i sorted hlogger hn hsort =>
    intro j
    have hj := h j
    simp only [taken, hlogger, DrainPc.recs, List.filter_append] at hj
    simp only [taken, DrainPc.recs, List.map_append, List.append_nil, List.filter_append]
    refine hsorting _ _ _ _ hj (hsort.1.filter _) (List.Pairwise.filter _ ?_)
    exact List.pairwise_map.mpr hsort.2

theorem genuine_of_reachable (h : (log β).Reachable s) :
    ∀ i, (s.slots i).Genuine (s.taken i) := by
  refine (h.invariant (P := fun s => s.Inv ∧ ∀ i, (s.slots i).Genuine (s.taken i))
    ⟨inv_start, fun _ => ⟨nofun, nofun⟩⟩ ?_).2
  rintro s a s' ⟨hinv, hgenuine⟩ hstep
  have hstep := step_of_eq_some hstep
  refine ⟨hinv.step hstep, hstep.forall_slot (fun _ _ => .step) ?_ ?_ ?_ hinv hgenuine⟩
  · intro x r q past hring h
    refine ⟨h.reserved, ?_⟩
    simpa [RingSlot.queue, hring] using h.bodies
  · exact fun x n past h => ⟨h.reserved, h.bodies⟩
  · intro x past recs recs' h hperm _
    refine ⟨h.reserved, fun r hr => h.bodies r ?_⟩
    exact ((hperm.append_left past).append_right x.queue).subset hr

/-- The time stamps of every thread strictly increase. -/
def Increasing (s : Log β) : Action β → Prop
  | .commit i tsc => ∀ t ∈ (s.slots i).stamp, t < tsc
  | _ => True

instance (s : Log β) (a : Action β) : Decidable (Increasing s a) :=
  match a with
  | .commit i tsc =>
    match h : (s.slots i).stamp with
    | none => .isTrue (by simp [Increasing, h])
    | some t => decidable_of_iff (t < tsc) (by simp [Increasing, h])
  | .claim | .publish _ | .emit _ _ | .count _ | .start | .visit | .pop | .load
  | .finish _ => .isTrue trivial

theorem ordered_of_increasing (h : (log β).ReachableVia Increasing s) :
    ∀ i, (s.slots i).Ordered (s.taken i) := by
  refine (h.invariant (P := fun s => s.Inv ∧ ∀ i, (s.slots i).Ordered (s.taken i))
    ⟨inv_start, fun _ => ⟨.nil, nofun, nofun, nofun⟩⟩ ?_).2
  rintro s a s' ⟨hinv, hordered⟩ hincreasing hstep
  have hstep := step_of_eq_some hstep
  refine ⟨hinv.step hstep, hstep.forall_slot ?_ ?_ ?_ (fun _ _ _ _ => .sorting) hinv
    hordered⟩
  · intro i x h hthread
    refine h.step hthread fun tsc ha => ?_
    rw [ha] at hincreasing
    exact hincreasing
  · intro x r q past hring h
    have hqueue : past ++ [r] ++ ({ x with ring := some q } : RingSlot β).queue =
        past ++ x.queue := by
      simp [RingSlot.queue, hring]
    obtain ⟨hpairs, hstamped, hnumbered, hreserved⟩ := h
    exact ⟨by rwa [hqueue], by rwa [hqueue], by rwa [hqueue], by rwa [hqueue]⟩
  · exact fun x n past h => ⟨h.increasing, h.stamped, h.numbered, h.reserved⟩

end Log

/-! ## The last pass -/

def Action.IsEmit : Action β → Prop
  | .emit _ _ => True
  | _ => False

/-- Nothing to take, and nothing to report. -/
def RingSlot.Clean (x : RingSlot β) : Prop :=
  x.queue = [] ∧ x.dropped = x.seenDropped

/-- The slots before `i`, and those that a pass leaves out. -/
def CleanOutside (slots : Slot → RingSlot β) (i n : ℕ) : Prop :=
  ∀ j : Slot, (j < i ∨ n ≤ j) → (slots j).Clean

section Slots

variable {slots : Slot → RingSlot β} {i : Slot} {n : ℕ}

theorem CleanOutside.succ (h : CleanOutside slots i n) (hi : (slots i).Clean) :
    CleanOutside slots (i + 1) n := by
  intro j hj
  by_cases hji : j = i
  · rwa [hji]
  · have hne : (j : ℕ) ≠ i := fun heq => hji (Fin.ext heq)
    exact h j (by omega)

/-- The slot of the pass may change. -/
theorem CleanOutside.update {x : RingSlot β} (h : CleanOutside slots i n) (hi : i < n) :
    CleanOutside (Function.update slots i x) i n := by
  intro j hj
  have hne : j ≠ i := by
    rintro rfl
    omega
  rw [Function.update_of_ne hne]
  exact h j hj

theorem CleanOutside.congr {slots' : Slot → RingSlot β} {k : ℕ}
    (h : CleanOutside slots k n) (hslots : ∀ j, (slots j).Clean → (slots' j).Clean) :
    CleanOutside slots' k n :=
  fun j hj => hslots j (h j hj)

end Slots

namespace Log

/-- No thread is inside `emit`. -/
def EmitsDone (s : Log β) : Prop :=
  ∀ i, (s.slots i).pc = .idle

/-- What the passes since the last call of `emit` have done so far, where `m` passes
came before. -/
def Settled (m : ℕ) (s : Log β) : Prop :=
  match s.logger with
  | .idle => s.passes = m ∨ ∀ i, (s.slots i).Clean
  | .slot p i => CleanOutside s.slots i p.n
  | .pops p i k => i < p.n ∧ CleanOutside s.slots i p.n ∧
      (s.slots i).queue.length + k ≤ logRingSize
  | .counter p i => i < p.n ∧ CleanOutside s.slots i p.n ∧ (s.slots i).queue = []

variable {s s' : Log β} {a : Action β} {m : ℕ}

theorem Inv.clean_of_ring (h : s.Inv) {i : Slot} (hring : (s.slots i).ring = none) :
    (s.slots i).Clean := by
  obtain ⟨-, hdropped, hseen⟩ := (h.slots i).unused hring
  exact ⟨by simp [RingSlot.queue, hring], hdropped.trans hseen.symm⟩

/-- Only a `publish` is left to the threads. -/
theorem EmitsDone.thread {i : Slot} {x : RingSlot β} (h : s.EmitsDone)
    (hstep : (s.slots i).Step i a x) (ha : ¬ a.IsEmit) :
    (s.slots i).ring = none ∧ x = { s.slots i with ring := some [] } := by
  have hidle := h i
  cases hstep with
  | publish hring => exact ⟨hring, rfl⟩
  | reserve => exact absurd trivial ha
  | refuse => exact absurd trivial ha
  | commit hpc =>
    rw [hidle] at hpc
    cases hpc
  | count hpc =>
    rw [hidle] at hpc
    cases hpc

/-- It leaves the slots as they are for the logger thread. -/
theorem Settled.publish {i : Slot} (h : s.Settled m) (hring : (s.slots i).ring = none) :
    (s.setSlot i { s.slots i with ring := some [] }).Settled m := by
  have hqueue : ∀ j, ((s.setSlot i { s.slots i with ring := some [] }).slots j).queue =
      (s.slots j).queue := by
    refine (Function.forall_update_iff s.slots
      (p := fun j y => y.queue = (s.slots j).queue)).mpr ⟨?_, fun _ _ => rfl⟩
    simp [RingSlot.queue, hring]
  have hclean : ∀ j, (s.slots j).Clean →
      ((s.setSlot i { s.slots i with ring := some [] }).slots j).Clean := by
    refine (Function.forall_update_iff s.slots
      (p := fun j y => (s.slots j).Clean → y.Clean)).mpr ⟨?_, fun _ _ => id⟩
    exact fun hi => ⟨rfl, hi.2⟩
  have hlogger : (s.setSlot i { s.slots i with ring := some [] }).logger = s.logger := rfl
  unfold Settled at h ⊢
  rw [hlogger]
  split at h
  · exact h.imp_right fun hall j => hclean j (hall j)
  · exact h.congr hclean
  · exact ⟨h.1, h.2.1.congr hclean, by rw [hqueue]; exact h.2.2⟩
  · exact ⟨h.1, h.2.1.congr hclean, by rw [hqueue]; exact h.2.2⟩

/-- A record that has been taken is formatted or not. -/
theorem formatted_append_unformatted (handled : List (Record β × Bool)) :
    (formatted handled ++ unformatted handled).Perm (handled.map Prod.fst) := by
  rw [formatted, unformatted, ← List.map_append]
  refine List.Perm.map _ ?_
  simpa using List.filter_append_perm (fun o : Record β × Bool => o.2) handled

/-- With nothing on the way, an emitted record is in the output or refused. -/
theorem Inv.count_of_clean (h : s.Inv) (hidle : s.logger = .idle) {i : Slot}
    (hpc : (s.slots i).pc = .idle) (hclean : (s.slots i).Clean) (k : ℕ) :
    (numbersOf i (Log.printed s.out)).count k +
      (numbersOf i (unformatted s.handled)).count k + (s.slots i).refused.count k =
        if k < (s.slots i).emitted.length then 1 else 0 := by
  have hnumbers : (s.slots i).numbers = (s.slots i).refused := by
    simp [RingSlot.numbers, hpc, EmitPc.numbers, hclean.1]
  have hrecs : numbersOf i s.logger.recs = [] := by
    rw [hidle]
    rfl
  have hsplit := (numbersOf_perm (formatted_append_unformatted s.handled) i).count_eq k
  have honce := h.once i k
  rw [hnumbers, hrecs, List.count_nil] at honce
  rw [numbersOf_append, List.count_append] at hsplit
  rw [h.printed]
  omega

theorem Inv.sum_drops_of_clean (h : s.Inv) (hidle : s.logger = .idle) {i : Slot}
    (hclean : (s.slots i).Clean) :
    (drops i s.out).sum = (s.slots i).refused.length := by
  have hreported := h.reported i
  rw [hidle] at hreported
  calc (drops i s.out).sum
      = (s.slots i).seenDropped := hreported
    _ = (s.slots i).dropped := hclean.2.symm
    _ = (s.slots i).refused.length := (h.slots i).refused.symm

theorem printed_sublist (h : s.Inv) (i : Slot) :
    ((Log.printed s.out).filter fun r => r.slot = i).Sublist (s.taken i) := by
  rw [h.printed]
  refine List.Sublist.filter _ (List.Sublist.trans ?_ (List.sublist_append_left _ _))
  exact List.filter_sublist.map _

variable [DecidableEq β]

theorem EmitsDone.step (h : s.EmitsDone) (hstep : s.Step a s') (ha : ¬ a.IsEmit) :
    s'.EmitsDone := by
  cases hstep with
  | @thread _ i x hx =>
    obtain ⟨-, rfl⟩ := h.thread hx ha
    exact (Function.forall_update_iff s.slots (p := fun _ y => y.pc = .idle)).mpr
      ⟨h i, fun j _ => h j⟩
  | @pop p i k r q hlogger hring =>
    exact (Function.forall_update_iff s.slots (p := fun _ y => y.pc = .idle)).mpr
      ⟨h i, fun j _ => h j⟩
  | @report p i hlogger =>
    exact (Function.forall_update_iff s.slots (p := fun _ y => y.pc = .idle)).mpr
      ⟨h i, fun j _ => h j⟩
  | _ => exact h

theorem Settled.step (h : s.Settled m) (hdone : s.EmitsDone) (hinv : s.Inv)
    (hstep : s.Step a s') (ha : ¬ a.IsEmit) : s'.Settled m := by
  cases hstep with
  | claim => exact h
  | thread hx =>
    obtain ⟨hring, rfl⟩ := hdone.thread hx ha
    exact h.publish hring
  | start hlogger =>
    -- a slot that the pass leaves out has not been claimed
    intro j hj
    have hle : s.slotsSoFar ≤ j := by
      have hj' := j.isLt
      dsimp only at hj
      omega
    exact hinv.clean_of_ring (hinv.unclaimed j hle)
  | skip hlogger hlt hring =>
    simp only [Settled, hlogger] at h
    exact h.succ (hinv.clean_of_ring hring)
  | @enter p i hlogger hlt =>
    simp only [Settled, hlogger] at h
    exact ⟨hlt, h, Nat.le_trans (hinv.slots i).room (Nat.sub_le _ _)⟩
  | @pop p i k r q hlogger hring =>
    simp only [Settled, hlogger, RingSlot.queue, hring, Option.getD_some,
      List.length_cons] at h
    obtain ⟨hlt, hclean, hroom⟩ := h
    refine ⟨hlt, hclean.update hlt, ?_⟩
    simp only [setSlot, Function.update_self, RingSlot.queue, Option.getD_some]
    omega
  | @drained p i k hlogger hempty =>
    simp only [Settled, hlogger] at h
    obtain ⟨hlt, hclean, hroom⟩ := h
    refine ⟨hlt, hclean, ?_⟩
    by_cases hk : k < logRingSize
    · exact hempty hk
    · refine List.length_eq_zero_iff.mp ?_
      dsimp only
      omega
  | @report p i hlogger =>
    simp only [Settled, hlogger] at h
    obtain ⟨hlt, hclean, hqueue⟩ := h
    refine (hclean.update hlt).succ ?_
    rw [Function.update_self]
    exact ⟨hqueue, rfl⟩
  | @keep p i hlogger hsame =>
    simp only [Settled, hlogger] at h
    exact h.2.1.succ ⟨h.2.2, hsame⟩
  | @finish p i sorted hlogger hn =>
    simp only [Settled, hlogger] at h
    refine .inr fun j => h j ?_
    omega

/-- Steps that are not calls of `emit`. -/
def Steps : Log β → Log β → Prop :=
  Relation.ReflTransGen fun s s' => ∃ a : Action β, ¬ a.IsEmit ∧ s.step a = some s'

theorem Steps.of_run {l : List (Action β)} (hl : ∀ a ∈ l, ¬ a.IsEmit)
    (hrun : (log β).run s l = some s') : s.Steps s' := by
  induction l generalizing s with
  | nil =>
    cases hrun
    exact .refl
  | cons a l ih =>
    rw [TransitionSystem.run] at hrun
    split at hrun
    · cases hrun
    · next s₁ hstep =>
      exact (ih (fun b hb => hl b (by simp [hb])) hrun).head ⟨a, hl a (by simp), hstep⟩

/-- After all emits are done there is at least one more pass. -/
structure LastPass (s₀ s : Log β) : Prop where
  emitsDone : s₀.EmitsDone
  before : s₀.logger = .idle
  steps : s₀.Steps s
  after : s.logger = .idle
  passes : s₀.passes < s.passes

/-- The passes after the last call of `emit`. -/
theorem settled_of_steps {s₀ : Log β} (hreach : (log β).Reachable s₀)
    (hdone : s₀.EmitsDone) (hsettled : s₀.Settled m) (hsteps : s₀.Steps s) :
    (log β).Reachable s ∧ s.EmitsDone ∧ s.Settled m := by
  induction hsteps with
  | refl => exact ⟨hreach, hdone, hsettled⟩
  | tail _ hlast ih =>
    obtain ⟨a, ha, hstep⟩ := hlast
    obtain ⟨hreach, hdone, hsettled⟩ := ih
    have hstep' := step_of_eq_some hstep
    exact ⟨hreach.step hstep, hdone.step hstep' ha,
      hsettled.step hdone (inv_of_reachable hreach) hstep' ha⟩

theorem LastPass.settled {s₀ : Log β} (h : LastPass s₀ s)
    (hreach : (log β).Reachable s₀) :
    (log β).Reachable s ∧ s.EmitsDone ∧ ∀ i, (s.slots i).Clean := by
  have hstart : s₀.Settled s₀.passes := by
    simp only [Settled, h.before, true_or]
  obtain ⟨hreach', hdone, hsettled⟩ := settled_of_steps hreach h.emitsDone hstart h.steps
  simp only [Settled, h.after] at hsettled
  exact ⟨hreach', hdone, hsettled.resolve_left (Nat.ne_of_gt h.passes)⟩

/-! ## A pass comes to an end -/

omit [DecidableEq β] in
theorem exists_isSorting (recs : List (Record β)) : ∃ sorted, IsSorting recs sorted := by
  let le (r r' : Record β) : Bool := decide (r.tsc ≤ r'.tsc)
  refine ⟨(recs.mergeSort le).map fun r => (r, true), ?_, ?_⟩
  · rw [List.map_map, show Prod.fst ∘ (fun r : Record β => (r, true)) = id from rfl,
      List.map_id]
    exact List.mergeSort_perm recs le
  · refine List.pairwise_map.mpr ((List.pairwise_mergeSort ?_ ?_ recs).imp ?_)
    · intro r₁ r₂ r₃ h₁ h₂
      exact decide_eq_true (UInt64.le_trans (of_decide_eq_true h₁) (of_decide_eq_true h₂))
    · intro r₁ r₂
      simpa [le] using UInt64.le_total r₁.tsc r₂.tsc
    · intro r₁ r₂ h
      exact UInt64.not_lt.mpr (of_decide_eq_true h)

theorem exists_pop {p : Pass β} {i : Slot} {k : ℕ} (h : s.logger = .pops p i k) :
    ∃ s' p', s.step .pop = some s' ∧ s'.passes = s.passes ∧ p'.n = p.n ∧
      (s'.logger = .counter p' i ∨ k < logRingSize ∧ s'.logger = .pops p' i (k + 1)) := by
  simp only [step, pop, h]
  split
  · next hk =>
    split
    · next r q hring =>
      exact ⟨_, { p with recs := p.recs ++ [r] }, rfl, rfl, rfl, .inr ⟨hk, rfl⟩⟩
    · exact ⟨_, p, rfl, rfl, rfl, .inl rfl⟩
  · exact ⟨_, p, rfl, rfl, rfl, .inl rfl⟩

/-- The loop over the records makes at most `logRingSize` rounds. -/
theorem exists_counter {p : Pass β} {i : Slot} {k : ℕ} (h : s.logger = .pops p i k) :
    ∃ s' p', s.Steps s' ∧ s'.passes = s.passes ∧ p'.n = p.n ∧
      s'.logger = .counter p' i := by
  induction hrest : logRingSize - k generalizing s p k with
  | zero =>
    obtain ⟨s', p', hpop, hpasses, hn, hlogger | ⟨hk, -⟩⟩ := exists_pop h
    · exact ⟨s', p', .single ⟨.pop, not_false, hpop⟩, hpasses, hn, hlogger⟩
    · omega
  | succ rest ih =>
    obtain ⟨s₁, p₁, hpop, hpasses₁, hn₁, hlogger | ⟨hk, hlogger⟩⟩ := exists_pop h
    · exact ⟨s₁, p₁, .single ⟨.pop, not_false, hpop⟩, hpasses₁, hn₁, hlogger⟩
    · obtain ⟨s', p', hsteps, hpasses, hn, hlogger'⟩ := ih hlogger (by omega)
      exact ⟨s', p', hsteps.head ⟨.pop, not_false, hpop⟩, hpasses.trans hpasses₁, hn.trans hn₁,
        hlogger'⟩

theorem exists_load {p : Pass β} {i : Slot} (h : s.logger = .counter p i) :
    ∃ s' p', s.step .load = some s' ∧ s'.logger = .slot p' (i + 1) ∧
      s'.passes = s.passes ∧ p'.n = p.n := by
  simp only [step, load, h]
  split
  · exact ⟨_, _, rfl, rfl, rfl, rfl⟩
  · exact ⟨_, _, rfl, rfl, rfl, rfl⟩

/-- One slot of a pass. -/
theorem exists_slot_succ {p : Pass β} {i : Slot} (h : s.logger = .slot p i)
    (hi : i < p.n) :
    ∃ s' p', s.Steps s' ∧ s'.passes = s.passes ∧ p'.n = p.n ∧
      s'.logger = .slot p' (i + 1) := by
  cases hring : (s.slots i).ring with
  | none =>
    have hvisit : s.step .visit = some { s with logger := .slot p (i + 1) } := by
      simp [step, visit, h, hi, hring]
    exact ⟨_, p, .single ⟨.visit, not_false, hvisit⟩, rfl, rfl, rfl⟩
  | some q =>
    have hvisit : s.step .visit = some { s with logger := .pops p i 0 } := by
      simp [step, visit, h, hi, hring]
    obtain ⟨s₁, p₁, hsteps, hpasses₁, hn₁, hlogger₁⟩ :=
      exists_counter (s := { s with logger := .pops p i 0 }) rfl
    obtain ⟨s₂, p₂, hload, hlogger₂, hpasses₂, hn₂⟩ := exists_load hlogger₁
    exact ⟨s₂, p₂, (hsteps.head ⟨.visit, not_false, hvisit⟩).tail ⟨.load, not_false, hload⟩,
      hpasses₂.trans hpasses₁, hn₂.trans hn₁, hlogger₂⟩

theorem exists_pass_of_slot {p : Pass β} {i : ℕ} (h : s.logger = .slot p i)
    (hn : p.n ≤ nSlots) :
    ∃ s', s.Steps s' ∧ s'.logger = .idle ∧ s'.passes = s.passes + 1 := by
  induction hrest : p.n - i generalizing s p i with
  | zero =>
    obtain ⟨sorted, hsort⟩ := exists_isSorting p.recs
    have hi : ¬ i < p.n := by omega
    have hfinish : ∃ s', s.step (.finish sorted) = some s' ∧ s'.logger = .idle ∧
        s'.passes = s.passes + 1 := by
      simp only [step, finish, h, hi, hsort, if_true, if_false]
      exact ⟨_, rfl, rfl, rfl⟩
    obtain ⟨s', hstep, hlogger, hpasses⟩ := hfinish
    exact ⟨s', .single ⟨.finish sorted, not_false, hstep⟩, hlogger, hpasses⟩
  | succ rest ih =>
    have hi : i < p.n := by omega
    obtain ⟨s₁, p₁, hsteps₁, hpasses₁, hn₁, hlogger₁⟩ :=
      exists_slot_succ (i := ⟨i, by omega⟩) h hi
    obtain ⟨s', hsteps, hlogger, hpasses⟩ :=
      ih hlogger₁ (by omega) (by simp only; omega)
    exact ⟨s', hsteps₁.trans hsteps, hlogger, by rw [hpasses, hpasses₁]⟩

theorem exists_lastPass (hdone : s.EmitsDone) (hidle : s.logger = .idle) :
    ∃ s', LastPass s s' := by
  have hstart : s.step .start =
      some { s with logger := .slot { n := min s.slotsSoFar nSlots } 0 } := by
    simp [step, hidle]
  obtain ⟨s', hsteps, hlogger, hpasses⟩ := exists_pass_of_slot
    (s := { s with logger := .slot { n := min s.slotsSoFar nSlots } 0 }) rfl
      (Nat.min_le_right _ _)
  refine ⟨s', hdone, hidle, hsteps.head ⟨.start, not_false, hstart⟩, hlogger, ?_⟩
  rw [hpasses]
  exact Nat.lt_succ_self _

/-! ## What has been emitted -/

/-- The bodies with which the thread of the slot calls `emit`. -/
def bodies (i : Slot) (l : List (Action β)) : List β :=
  l.filterMap fun
    | .emit j body => if j = i then some body else none
    | _ => none

omit [DecidableEq β] in
theorem bodies_eq_nil {l : List (Action β)} (hl : ∀ a ∈ l, ¬ a.IsEmit) (i : Slot) :
    bodies i l = [] := by
  refine List.filterMap_eq_nil_iff.mpr fun a ha => ?_
  cases a with
  | emit j body => exact absurd trivial (hl _ ha)
  | _ => rfl

theorem emitted_step {a : Action β} (hstep : s.Step a s') (i : Slot) :
    (s'.slots i).emitted = (s.slots i).emitted ++ bodies i [a] := by
  cases hstep with
  | @thread _ j x hslot =>
    by_cases hij : i = j
    · subst hij
      cases hslot <;> simp [setSlot, bodies]
    · cases hslot <;> simp [setSlot, bodies, hij, Ne.symm hij]
  | @pop p j k r q hlogger hring =>
    by_cases hij : i = j
    · subst hij
      simp [setSlot, bodies]
    · simp [setSlot, bodies, hij]
  | @report p j hlogger =>
    by_cases hij : i = j
    · subst hij
      simp [setSlot, bodies]
    · simp [setSlot, bodies, hij]
  | _ => simp [bodies]

/-- In every run the slots record the calls of `emit` and no others. -/
theorem emitted_run {l : List (Action β)} (hrun : (log β).run s l = some s') (i : Slot) :
    (s'.slots i).emitted = (s.slots i).emitted ++ bodies i l := by
  induction l generalizing s with
  | nil =>
    cases hrun
    simp [bodies]
  | cons a l ih =>
    rw [TransitionSystem.run] at hrun
    split at hrun
    · cases hrun
    · next s₁ hstep =>
      rw [ih hrun, emitted_step (step_of_eq_some hstep), List.append_assoc,
        bodies, bodies, bodies, ← List.filterMap_append, List.singleton_append]

theorem Steps.emitted (hsteps : Steps s s') (i : Slot) :
    (s'.slots i).emitted = (s.slots i).emitted := by
  induction hsteps with
  | refl => rfl
  | tail _ hlast ih =>
    obtain ⟨a, ha, hstep⟩ := hlast
    rw [emitted_step (step_of_eq_some hstep), bodies_eq_nil (by simpa using ha),
      List.append_nil, ih]

/-- A record is refused only by a full ring. -/
theorem full_iff_of_emit {i : Slot} {body : β} (hstep : s.step (.emit i body) = some s') :
    ∃ q, (s.slots i).ring = some q ∧
      ((∃ number dropped, (s'.slots i).pc = .full number dropped) ↔
        ringCapacity ≤ q.length) := by
  obtain ⟨x, hx, rfl⟩ := Option.map_eq_some_iff.mp hstep
  rw [RingSlot.emit] at hx
  split at hx
  · next q hidle hring =>
    cases hx
    refine ⟨q, hring, ?_⟩
    by_cases hroom : q.length < ringCapacity
    · simp [setSlot, hroom]
    · simp [setSlot, hroom, Nat.le_of_not_lt hroom]
  · cases hx

end Log

open Log

/-- Two threads emit three records. -/
def threeRecords : List (Action Bool) :=
  [.claim, .claim, .publish 0, .publish 1, .emit 0 true, .emit 1 false, .commit 1 3,
    .commit 0 5, .emit 0 false, .commit 0 7]

/-- One pass over the two slots; the second record of the first slot cannot be
formatted. -/
def onePass : List (Action Bool) :=
  [.start, .visit, .pop, .pop, .pop, .load, .visit, .pop, .pop, .load,
    .finish [(⟨1, 0, 3, false⟩, true), (⟨0, 0, 5, true⟩, true), (⟨0, 1, 7, false⟩, false)]]

end Fastbook.Logger

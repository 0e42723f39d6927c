import Fastbook.Common.SpscQueue
import Fastbook.Support.Cyclic

/-!
# The queue is a bounded FIFO

The indices of the queue are counters modulo the number of slots: `head_` of
the committed values, `tail_` of the popped ones.  The cached copies are
earlier values of these counters, so that the producer may find the queue
fuller and the consumer may find it emptier than it is, but never the other way
round.
-/

namespace Fastbook

namespace SpscQueue

open Support

variable {α : Type*} {k : ℕ}

theorem next_mod (k i : ℕ) : next k (i % 2 ^ k) = (i + 1) % 2 ^ k := by
  rw [next, Nat.and_two_pow_sub_one_eq_mod, Nat.mod_add_mod]

/-- A counter less than a lap ahead that is not one step short of the lap. -/
theorem succ_lt_of_mod_ne {n a b : ℕ} (hlt : a < b + n)
    (h : (a + 1) % n ≠ b % n) : a + 1 < b + n := by
  rcases Nat.lt_or_eq_of_le (Nat.succ_le_of_lt hlt) with hsucc | hsucc
  · exact hsucc
  · exact absurd (by rw [← Nat.succ_eq_add_one, hsucc, Nat.add_mod_right]) h

/-- The values whose slot the consumer has emptied without storing `tail_`
yet. -/
def ConsumerPc.taken : ConsumerPc α → ℕ
  | .store _ _ => 1
  | _ => 0

/-- What holds for the counters and the slots; `ct` and `ch` are the counters
that `cached_tail_` and `cached_head_` are copies of. -/
structure Counts (k : ℕ) (q : SpscQueue α) (committed : List α)
    (popped : List (Option α)) (taken ct ch : ℕ) : Prop where
  head_eq : q.head = committed.length % 2 ^ k
  tail_eq : q.tail = popped.length % 2 ^ k
  cachedTail_eq : q.cachedTail = ct % 2 ^ k
  cachedHead_eq : q.cachedHead = ch % 2 ^ k
  cachedTail_le : ct ≤ popped.length
  span : committed.length < ct + 2 ^ k
  le_cachedHead : popped.length ≤ ch
  cachedHead_le : ch ≤ committed.length
  popped_eq : popped = (committed.take popped.length).map some
  slots : ∀ j, popped.length + taken ≤ j → j < committed.length →
    q.buffer (j % 2 ^ k) = committed[j]?

/-- What holds where the producer stands, after `n` commits.  A slot that it
may fill is free by the count of `cached_tail_`. -/
structure ProducerHolds (k : ℕ) (q : SpscQueue α) (pc : ProducerPc α)
    (reserved : Option ℕ) (staged : Option α) (n ct : ℕ) : Prop where
  pc : match pc with
    | .idle => True
    | .fullAt _ headVal => headVal = q.head
    | .construct _ slot => slot = q.head ∧ n + 1 < ct + 2 ^ k
    | .commit => staged ≠ none
    | .store _ headVal => headVal = q.head ∧ staged ≠ none
  reserved : ∀ slot, reserved = some slot →
    slot = q.head ∧ n + 1 < ct + 2 ^ k
  staged : ∀ v, staged = some v →
    q.buffer q.head = some v ∧ n + 1 < ct + 2 ^ k

/-- What holds where the consumer stands. -/
def ConsumerHolds (q : SpscQueue α) (committed : List α)
    (popped : List (Option α)) (ch : ℕ) : ConsumerPc α → Prop
  | .idle => True
  | .emptyAt tailVal => tailVal = q.tail
  | .take tailVal => tailVal = q.tail ∧ popped.length < ch
  | .store tailVal value => tailVal = q.tail ∧ popped.length < ch ∧
    value = committed[popped.length]?

/-- What the producer knows of the staged value.  While `push` has not
constructed its own value yet, there may still be one from before. -/
def Calls.Knows (c : Calls α) (staged : Option α) : ProducerPc α → Prop
  | .fullAt (.push v) _ =>
    c.pushing = some v ∧ ∀ w, staged = some w → c.constructed = some w
  | .construct v _ => c.pushing = some v
  | .commit => staged = c.pushing
  | .store true _ => staged = c.pushing
  | _ => ∀ w, staged = some w → c.constructed = some w

theorem Calls.knows_idle (c : Calls α) : c.Knows none .idle := by
  rintro w ⟨⟩

namespace Counts

variable {q : SpscQueue α} {committed : List α} {popped : List (Option α)}
  {taken ct ch : ℕ}

theorem popped_le (h : Counts k q committed popped taken ct ch) :
    popped.length ≤ committed.length :=
  h.le_cachedHead.trans h.cachedHead_le

theorem lt_lap (h : Counts k q committed popped taken ct ch) :
    committed.length < popped.length + 2 ^ k := by
  have hspan := h.span
  have hle := h.cachedTail_le
  omega

theorem next_head (h : Counts k q committed popped taken ct ch) :
    next k q.head = (committed.length + 1) % 2 ^ k := by
  rw [h.head_eq, next_mod]

/-- The producer refreshes `cached_tail_`. -/
theorem refreshTail (h : Counts k q committed popped taken ct ch) :
    Counts k { q with cachedTail := q.tail } committed popped taken
      popped.length ch :=
  { h with
    cachedTail_eq := h.tail_eq
    cachedTail_le := le_refl _
    span := h.lt_lap }

/-- The consumer refreshes `cached_head_`. -/
theorem refreshHead (h : Counts k q committed popped taken ct ch) :
    Counts k { q with cachedHead := q.head } committed popped taken ct
      committed.length :=
  { h with
    cachedHead_eq := h.head_eq
    le_cachedHead := h.popped_le
    cachedHead_le := le_refl _ }

/-- The slot behind the committed values holds none of them. -/
theorem construct (h : Counts k q committed popped taken ct ch)
    (hroom : committed.length + 1 < ct + 2 ^ k) (v : α) :
    Counts k (q.setSlot q.head (some v)) committed popped taken ct ch := by
  refine { h with slots := fun j hj hlt => ?_ }
  have hne : j % 2 ^ k ≠ q.head := by
    rw [h.head_eq]
    intro heq
    have hle := h.cachedTail_le
    have hsame := eq_of_mod_eq hlt.le (by omega) heq
    omega
  rw [setSlot]
  simp only [Function.update_of_ne hne]
  exact h.slots j hj hlt

/-- `commit` stores `head_`. -/
theorem commit (h : Counts k q committed popped taken ct ch)
    (hroom : committed.length + 1 < ct + 2 ^ k) {v : α}
    (hv : q.buffer q.head = some v) :
    Counts k { q with head := next k q.head } (committed ++ [v]) popped taken
      ct ch := by
  have hpopped := h.popped_le
  refine { h with
    head_eq := ?_, span := ?_, cachedHead_le := ?_, popped_eq := ?_
    slots := ?_ }
  · rw [List.length_append, List.length_singleton]
    exact h.next_head
  · rw [List.length_append, List.length_singleton]
    exact hroom
  · rw [List.length_append]
    exact h.cachedHead_le.trans (Nat.le_add_right _ _)
  · rw [List.take_append_of_le_length hpopped]
    exact h.popped_eq
  · intro j hj hlt
    rw [List.length_append, List.length_singleton] at hlt
    rcases Nat.lt_succ_iff_lt_or_eq.mp hlt with hlt | rfl
    · rw [List.getElem?_append_left hlt]
      exact h.slots j hj hlt
    · rw [List.getElem?_concat_length, ← h.head_eq]
      exact hv

/-- `pop` empties the slot of the first value. -/
theorem take (h : Counts k q committed popped 0 ct ch) :
    Counts k (q.setSlot q.tail none) committed popped 1 ct ch := by
  refine { h with slots := fun j hj hlt => ?_ }
  have hne : j % 2 ^ k ≠ q.tail := by
    rw [h.tail_eq]
    intro heq
    have hlap := h.lt_lap
    have hsame := eq_of_mod_eq (by omega) (by omega) heq.symm
    omega
  rw [setSlot]
  simp only [Function.update_of_ne hne]
  exact h.slots j (by omega) hlt

/-- `pop` stores `tail_`. -/
theorem pop (h : Counts k q committed popped 1 ct ch)
    (hlt : popped.length < ch) :
    Counts k { q with tail := next k q.tail } committed
      (popped ++ [committed[popped.length]?]) 0 ct ch := by
  have hlen : (popped ++ [committed[popped.length]?]).length =
      popped.length + 1 := by simp
  refine { h with
    tail_eq := ?_, cachedTail_le := ?_, le_cachedHead := ?_, popped_eq := ?_
    slots := ?_ }
  · rw [hlen, h.tail_eq, next_mod]
  · rw [hlen]
    exact h.cachedTail_le.trans (Nat.le_add_right _ _)
  · rw [hlen]
    exact hlt
  · have hlt' := hlt.trans_le h.cachedHead_le
    rw [hlen, List.take_add_one, List.map_append, ← h.popped_eq,
      List.getElem?_eq_getElem hlt']
    rfl
  · rw [hlen]
    exact h.slots

/-- The first value is in the slot at `tail_`. -/
theorem buffer_tail (h : Counts k q committed popped 0 ct ch)
    (hlt : popped.length < ch) :
    q.buffer q.tail = committed[popped.length]? := by
  rw [h.tail_eq]
  exact h.slots _ (by omega) (hlt.trans_le h.cachedHead_le)

end Counts

namespace Machine

/-- The invariant of the two threads. -/
structure Holds (k : ℕ) (s : Machine α) (ct ch : ℕ) : Prop where
  counts : Counts k s.queue s.committed s.popped s.consumer.taken ct ch
  producer : ProducerHolds k s.queue s.producer s.reserved s.staged
    s.committed.length ct
  consumer : ConsumerHolds s.queue s.committed s.popped ch s.consumer

/-- What the answers of a step say about the state before it. -/
def Answered (k : ℕ) (s : Machine α) : Option (Answer α) → Prop
  | some (.pushed false) => s.committed.length = s.popped.length + (2 ^ k - 1)
  | some (.reserved none) => s.committed.length = s.popped.length + (2 ^ k - 1)
  | some .nullopt => s.popped = s.committed.map some
  | _ => True

variable {s s' : Machine α} {ct ch : ℕ} {o : Option (Answer α)}

theorem init_holds : ({} : Machine α).Holds k 0 0 := by
  refine ⟨⟨?_, ?_, ?_, ?_, ?_, ?_, ?_, ?_, ?_, ?_⟩, ⟨trivial, ?_, ?_⟩, trivial⟩
  all_goals simp

/-- `try_reserve` has found a free slot. -/
theorem Holds.grant (h : s.Holds k ct ch)
    (hroom : s.committed.length + 1 < ct + 2 ^ k) (call : ProducerCall α) :
    (s.grant call s.queue.head).1.Holds k ct ch := by
  cases call with
  | push v =>
      exact ⟨h.counts, { h.producer with pc := ⟨rfl, hroom⟩ }, h.consumer⟩
  | tryReserve =>
      refine ⟨h.counts, ⟨trivial, ?_, h.producer.staged⟩, h.consumer⟩
      rintro slot ⟨⟩
      exact ⟨rfl, hroom⟩

theorem grant_answered (s t : Machine α) (call : ProducerCall α) (slot : ℕ) :
    Answered k s (t.grant call slot).2 := by
  cases call <;> trivial

theorem Holds.startReserve (h : s.Holds k ct ch) (call : ProducerCall α) :
    (s.startReserve k call).1.Holds k ct ch ∧
      Answered k s (s.startReserve k call).2 := by
  unfold Machine.startReserve
  by_cases hne : next k s.queue.head ≠ s.queue.cachedTail
  · simp only [if_pos hne]
    rw [h.counts.next_head, h.counts.cachedTail_eq] at hne
    exact ⟨h.grant (succ_lt_of_mod_ne h.counts.span hne) call,
      grant_answered _ _ _ _⟩
  · simp only [if_neg hne]
    exact ⟨⟨h.counts, { h.producer with pc := rfl }, h.consumer⟩, trivial⟩

/-- `full_at` is true only of a full queue. -/
theorem Holds.refuse (h : s.Holds k ct ch)
    (hfull : s.queue.tail = next k s.queue.head) (call : ProducerCall α) :
    (s.refuse call).1.Holds k ct ch ∧ Answered k s (s.refuse call).2 := by
  -- a whole lap minus one slot lies between the counters
  have hcount : s.committed.length = s.popped.length + (2 ^ k - 1) := by
    rw [h.counts.next_head, h.counts.tail_eq] at hfull
    have hlap := h.counts.lt_lap
    have hle := h.counts.popped_le
    by_contra hne
    have hsame := eq_of_mod_eq (by omega) (by omega) hfull
    omega
  have hidle : ProducerHolds k s.queue .idle s.reserved s.staged
      s.committed.length ct := { h.producer with pc := trivial }
  cases call with
  | push v => exact ⟨⟨h.counts, hidle, h.consumer⟩, hcount⟩
  | tryReserve => exact ⟨⟨h.counts, hidle, h.consumer⟩, hcount⟩

/-- `full_at` loads `tail_`. -/
theorem Holds.fullAt (h : s.Holds k ct ch) {call : ProducerCall α}
    {headVal : ℕ} (hpc : s.producer = .fullAt call headVal)
    (hstep : s.producerStep k = some (s', o)) :
    (∃ ct', s'.Holds k ct' ch) ∧ Answered k s o := by
  obtain ⟨q, pc, consumer, reserved, staged, committed, popped⟩ := s
  change pc = _ at hpc
  subst hpc
  obtain rfl : headVal = q.head := h.producer.pc
  simp only [producerStep] at hstep
  by_cases hfull : q.tail = next k q.head
  · rw [if_pos hfull] at hstep
    have hrefused := h.refuse hfull call
    rw [Option.some.inj hstep] at hrefused
    exact ⟨⟨ct, hrefused.1⟩, hrefused.2⟩
  · rw [if_neg hfull] at hstep
    have hroom : committed.length + 1 < popped.length + 2 ^ k := by
      rw [h.counts.next_head, h.counts.tail_eq] at hfull
      exact succ_lt_of_mod_ne h.counts.lt_lap (Ne.symm hfull)
    have hrefreshed : Holds k
        ⟨{ q with cachedTail := q.tail }, .fullAt call q.head, consumer,
          reserved, staged, committed, popped⟩ popped.length ch := by
      refine ⟨h.counts.refreshTail, ⟨rfl, ?_, ?_⟩, h.consumer⟩
      · intro slot hslot
        exact ⟨(h.producer.reserved slot hslot).1, hroom⟩
      · intro v hv
        exact ⟨(h.producer.staged v hv).1, hroom⟩
    have hgranted := hrefreshed.grant hroom call
    obtain ⟨hs, ho⟩ := Prod.mk.inj (Option.some.inj hstep)
    exact ⟨⟨_, hs ▸ hgranted⟩, ho ▸ grant_answered _ _ _ _⟩

/-- A value is constructed in the free slot. -/
theorem Holds.constructAt (h : s.Holds k ct ch)
    (hroom : s.committed.length + 1 < ct + 2 ^ k) (v : α)
    {pc : ProducerPc α} (hpc : pc = .idle ∨ pc = .commit) :
    ({ s.constructAt s.queue.head v with producer := pc } : Machine α).Holds
      k ct ch := by
  refine ⟨h.counts.construct hroom v, ⟨?_, ?_, ?_⟩, ?_⟩
  · rcases hpc with rfl | rfl
    · trivial
    · exact Option.some_ne_none v
  · exact h.producer.reserved
  · rintro w ⟨⟩
    exact ⟨Function.update_self _ _ _, hroom⟩
  · exact h.consumer

/-- `commit` stores `head_`. -/
theorem Holds.commit (h : s.Holds k ct ch) {v : α} (hv : s.staged = some v) :
    ({ s with
      queue := { s.queue with head := next k s.queue.head }
      producer := .idle
      reserved := none
      staged := none
      committed := s.committed ++ s.staged.toList } : Machine α).Holds
        k ct ch := by
  obtain ⟨hbuffer, hroom⟩ := h.producer.staged v hv
  refine ⟨?_, ⟨trivial, ?_, ?_⟩, ?_⟩
  · rw [hv]
    exact h.counts.commit hroom hbuffer
  · rintro slot ⟨⟩
  · rintro w ⟨⟩
  · have hconsumer := h.consumer
    have hle := h.counts.cachedHead_le
    revert hconsumer
    cases s.consumer with
    | idle => exact id
    | emptyAt tailVal => exact id
    | take tailVal => exact id
    | store tailVal value =>
        rintro ⟨htail, hlt, hvalue⟩
        refine ⟨htail, hlt, ?_⟩
        rw [List.getElem?_append_left (hlt.trans_le hle)]
        exact hvalue

theorem Holds.producerStep (h : s.Holds k ct ch)
    (hstep : s.producerStep k = some (s', o)) :
    (∃ ct', s'.Holds k ct' ch) ∧ Answered k s o := by
  have hp := h.producer.pc
  cases hpc : s.producer with
  | idle => simp [Machine.producerStep, hpc] at hstep
  | fullAt call headVal => exact h.fullAt hpc hstep
  | construct v slot =>
      rw [hpc] at hp
      obtain ⟨rfl, hroom⟩ := hp
      simp only [Machine.producerStep, hpc] at hstep
      cases hstep
      exact ⟨⟨ct, h.constructAt hroom v (Or.inr rfl)⟩, trivial⟩
  | commit =>
      rw [hpc] at hp
      simp only [Machine.producerStep, hpc] at hstep
      cases hstep
      exact ⟨⟨ct, h.counts, { h.producer with pc := ⟨rfl, hp⟩ }, h.consumer⟩,
        trivial⟩
  | store inPush headVal =>
      rw [hpc] at hp
      obtain ⟨rfl, hstaged⟩ := hp
      obtain ⟨v, hv⟩ := Option.ne_none_iff_exists'.mp hstaged
      simp only [Machine.producerStep, hpc] at hstep
      cases hstep
      refine ⟨⟨ct, h.commit hv⟩, ?_⟩
      cases inPush <;> trivial

/-- `empty_at` loads `head_`. -/
theorem Holds.emptyAt (h : s.Holds k ct ch)
    (hpc : s.consumer = .emptyAt s.queue.tail)
    (hstep : s.consumerStep k = some (s', o)) :
    (∃ ch', s'.Holds k ct ch') ∧ Answered k s o := by
  obtain ⟨q, producer, pc, reserved, staged, committed, popped⟩ := s
  change pc = .emptyAt q.tail at hpc
  subst hpc
  have hcounts : Counts k q committed popped 0 ct ch := h.counts
  simp only [Machine.consumerStep] at hstep
  by_cases hempty : q.head = q.tail
  · rw [if_pos hempty] at hstep
    cases hstep
    rw [hcounts.head_eq, hcounts.tail_eq] at hempty
    have hall := eq_of_mod_eq hcounts.popped_le hcounts.lt_lap hempty.symm
    refine ⟨⟨ch, hcounts, h.producer, trivial⟩, ?_⟩
    have hpopped := hcounts.popped_eq
    rw [hall, List.take_length] at hpopped
    exact hpopped
  · rw [if_neg hempty] at hstep
    cases hstep
    have hne : popped.length ≠ committed.length := by
      intro heq
      apply hempty
      rw [hcounts.head_eq, hcounts.tail_eq, heq]
    refine ⟨⟨_, hcounts.refreshHead, ?_, rfl, ?_⟩, trivial⟩
    · exact ⟨h.producer.pc, h.producer.reserved, h.producer.staged⟩
    · exact lt_of_le_of_ne hcounts.popped_le hne

/-- `pop` moves the first value out of its slot. -/
theorem Holds.take (h : s.Holds k ct ch)
    (hpc : s.consumer = .take s.queue.tail)
    (hlt : s.popped.length < ch) :
    ({ s with
      queue := s.queue.setSlot s.queue.tail none
      consumer := .store s.queue.tail (s.queue.buffer s.queue.tail) } :
        Machine α).Holds k ct ch := by
  have hcounts := h.counts
  rw [hpc] at hcounts
  refine ⟨hcounts.take, ⟨h.producer.pc, h.producer.reserved, ?_⟩, rfl, hlt,
    hcounts.buffer_tail hlt⟩
  -- the staged value is behind the committed ones, in another slot
  intro v hv
  obtain ⟨hbuffer, hroom⟩ := h.producer.staged v hv
  refine ⟨?_, hroom⟩
  have hne : s.queue.head ≠ s.queue.tail := by
    rw [hcounts.head_eq, hcounts.tail_eq]
    intro heq
    have hall := eq_of_mod_eq hcounts.popped_le hcounts.lt_lap heq.symm
    have hle := hcounts.cachedHead_le
    omega
  exact (Function.update_of_ne hne _ _).trans hbuffer

theorem Holds.consumerStep (h : s.Holds k ct ch)
    (hstep : s.consumerStep k = some (s', o)) :
    (∃ ch', s'.Holds k ct ch') ∧ Answered k s o := by
  have hc := h.consumer
  cases hpc : s.consumer with
  | idle => simp [Machine.consumerStep, hpc] at hstep
  | emptyAt tailVal =>
      rw [hpc] at hc
      subst hc
      exact h.emptyAt hpc hstep
  | take tailVal =>
      rw [hpc] at hc
      obtain ⟨rfl, hlt⟩ := hc
      have htaken := h.take hpc hlt
      simp only [Machine.consumerStep, hpc] at hstep
      cases hstep
      exact ⟨⟨ch, htaken⟩, trivial⟩
  | store tailVal value =>
      rw [hpc] at hc
      obtain ⟨rfl, hlt, rfl⟩ := hc
      have hcounts := h.counts
      rw [hpc] at hcounts
      simp only [Machine.consumerStep, hpc] at hstep
      cases hstep
      refine ⟨⟨ch, hcounts.pop hlt, ?_, trivial⟩, trivial⟩
      exact ⟨h.producer.pc, h.producer.reserved, h.producer.staged⟩

theorem Holds.pop (h : s.Holds k ct ch) (hpc : s.consumer = .idle) :
    (if s.queue.tail ≠ s.queue.cachedHead then
      ({ s with consumer := .take s.queue.tail } : Machine α)
    else { s with consumer := .emptyAt s.queue.tail }).Holds k ct ch := by
  have hcounts := h.counts
  rw [hpc] at hcounts
  by_cases hne : s.queue.tail ≠ s.queue.cachedHead
  · rw [if_pos hne]
    refine ⟨hcounts, h.producer, rfl, lt_of_le_of_ne hcounts.le_cachedHead ?_⟩
    intro heq
    apply hne
    rw [hcounts.tail_eq, hcounts.cachedHead_eq, heq]
  · rw [if_neg hne]
    exact ⟨hcounts, h.producer, rfl⟩

/-- Every step keeps the invariant, and its answer is justified by the state
in which it was made. -/
theorem Holds.step (h : s.Holds k ct ch) {a : Action α}
    (hstep : s.step k a = some (s', o)) :
    (∃ ct' ch', s'.Holds k ct' ch') ∧ Answered k s o := by
  have hstart : ∀ call, some (s.startReserve k call) = some (s', o) →
      (∃ ct' ch', s'.Holds k ct' ch') ∧ Answered k s o := by
    intro call heq
    have hreserve := h.startReserve call
    rw [Option.some.inj heq] at hreserve
    exact ⟨⟨ct, ch, hreserve.1⟩, hreserve.2⟩
  unfold Machine.step at hstep
  split at hstep
  · exact hstart _ hstep
  · exact hstart _ hstep
  · next _ _ v hpc =>
    split at hstep
    · cases hstep
    · next slot hslot =>
      obtain ⟨rfl, hroom⟩ := h.producer.reserved slot hslot
      have hconstruct := h.constructAt hroom v (Or.inl rfl)
      rw [← hpc] at hconstruct
      cases hstep
      exact ⟨⟨ct, ch, hconstruct⟩, trivial⟩
  · split at hstep
    · cases hstep
    · next v hv =>
      cases hstep
      refine ⟨⟨ct, ch, h.counts, ?_, h.consumer⟩, trivial⟩
      exact { h.producer with pc := ⟨rfl, by simp [hv]⟩ }
  · next hpc =>
    have hpop := h.pop hpc
    by_cases hne : s.queue.tail ≠ s.queue.cachedHead
    · simp only [if_pos hne] at hstep hpop
      cases hstep
      exact ⟨⟨ct, ch, hpop⟩, trivial⟩
    · simp only [if_neg hne] at hstep hpop
      cases hstep
      exact ⟨⟨ct, ch, hpop⟩, trivial⟩
  · obtain ⟨⟨ct', hholds⟩, hanswer⟩ := h.producerStep hstep
    exact ⟨⟨ct', ch, hholds⟩, hanswer⟩
  · obtain ⟨⟨ch', hholds⟩, hanswer⟩ := h.consumerStep hstep
    exact ⟨⟨ct, ch', hholds⟩, hanswer⟩
  · cases hstep

/-- What the threads know is what the queue has recorded. -/
structure Called (s : Machine α) (c : Calls α) : Prop where
  committed : s.committed = c.accepted
  popped : s.popped = c.returned
  producer : c.Knows s.staged s.producer

/-- What the answer of a step from `s` to `s'` promises. -/
def Kept (k : ℕ) (s : Machine α) (c : Calls α) (s' : Machine α) :
    Option (Answer α) → Prop
  | some (.pushed true) => ∃ v, c.pushing = some v ∧
    s'.committed = s.committed ++ [v] ∧ s'.popped = s.popped
  | some .committed => ∃ v, c.constructed = some v ∧
    s'.committed = s.committed ++ [v] ∧ s'.popped = s.popped
  | some (.reserved (some slot)) => slot = s.committed.length % 2 ^ k ∧
    s.committed.length + 1 < s.popped.length + 2 ^ k
  | some (.popped value) => ∃ v, value = some v ∧
    s.committed[s.popped.length]? = some v ∧
    s'.popped = s.popped ++ [some v] ∧ s'.committed = s.committed
  | _ => True

variable {c : Calls α}

/-- What the producer knows while its call has no slot yet. -/
structure Asking (s : Machine α) (c : Calls α) (call : ProducerCall α) :
    Prop where
  committed : s.committed = c.accepted
  popped : s.popped = c.returned
  pushing : ∀ v, call = .push v → c.pushing = some v
  constructed : ∀ w, s.staged = some w → c.constructed = some w

/-- The producer has its slot. -/
theorem Asking.grant {call : ProducerCall α} (h : s.Asking c call) {t : Machine α}
    {slot : ℕ} (hslot : slot = t.committed.length % 2 ^ k)
    (hroom : t.committed.length + 1 < t.popped.length + 2 ^ k) :
    Called (s.grant call slot).1 (c.answer (s.grant call slot).2) ∧
      Kept k t c (s.grant call slot).1 (s.grant call slot).2 := by
  cases call with
  | push v => exact ⟨⟨h.committed, h.popped, h.pushing v rfl⟩, trivial⟩
  | tryReserve =>
      exact ⟨⟨h.committed, h.popped, h.constructed⟩, hslot, hroom⟩

theorem Asking.refuse {call : ProducerCall α} (h : s.Asking c call) :
    Called (s.refuse call).1 (c.answer (s.refuse call).2) ∧
      Kept k s c (s.refuse call).1 (s.refuse call).2 := by
  cases call with
  | push v => exact ⟨⟨h.committed, h.popped, h.constructed⟩, trivial⟩
  | tryReserve => exact ⟨⟨h.committed, h.popped, h.constructed⟩, trivial⟩

theorem Asking.startReserve {call : ProducerCall α} (h : s.Asking c call)
    (hholds : s.Holds k ct ch) :
    Called (s.startReserve k call).1 (c.answer (s.startReserve k call).2) ∧
      Kept k s c (s.startReserve k call).1 (s.startReserve k call).2 := by
  unfold Machine.startReserve
  by_cases hne : next k s.queue.head ≠ s.queue.cachedTail
  · simp only [if_pos hne]
    rw [hholds.counts.next_head, hholds.counts.cachedTail_eq] at hne
    have hroom := succ_lt_of_mod_ne hholds.counts.span hne
    have hle := hholds.counts.cachedTail_le
    exact h.grant hholds.counts.head_eq (by omega)
  · simp only [if_neg hne]
    refine ⟨⟨h.committed, h.popped, ?_⟩, trivial⟩
    cases call with
    | push v => exact ⟨h.pushing v rfl, h.constructed⟩
    | tryReserve => exact h.constructed

theorem Called.asking (h : s.Called c) {call : ProducerCall α} {headVal : ℕ}
    (hpc : s.producer = .fullAt call headVal) : s.Asking c call := by
  have hknown := h.producer
  rw [hpc] at hknown
  cases call with
  | push v =>
      refine ⟨h.committed, h.popped, ?_, hknown.2⟩
      rintro w ⟨⟩
      exact hknown.1
  | tryReserve => exact ⟨h.committed, h.popped, by simp, hknown⟩

/-- `full_at` loads `tail_`. -/
theorem Called.fullAt (h : s.Called c) (hholds : s.Holds k ct ch)
    {call : ProducerCall α} {headVal : ℕ}
    (hpc : s.producer = .fullAt call headVal)
    (hstep : s.producerStep k = some (s', o)) :
    Called s' (c.answer o) ∧ Kept k s c s' o := by
  have hasking := h.asking hpc
  obtain ⟨q, pc, consumer, reserved, staged, committed, popped⟩ := s
  change pc = _ at hpc
  subst hpc
  obtain rfl : headVal = q.head := hholds.producer.pc
  simp only [Machine.producerStep] at hstep
  by_cases hfull : q.tail = next k q.head
  · rw [if_pos hfull] at hstep
    have hrefused := hasking.refuse (k := k)
    rwa [Option.some.inj hstep] at hrefused
  · rw [if_neg hfull] at hstep
    rw [hholds.counts.next_head, hholds.counts.tail_eq] at hfull
    have hroom := succ_lt_of_mod_ne hholds.counts.lt_lap (Ne.symm hfull)
    have hrefreshed : Asking ⟨{ q with cachedTail := q.tail }, .fullAt call q.head,
        consumer, reserved, staged, committed, popped⟩ c call := { hasking with }
    have hgranted := hrefreshed.grant hholds.counts.head_eq hroom
    rwa [Option.some.inj hstep] at hgranted

theorem Called.producerStep (h : s.Called c) (hholds : s.Holds k ct ch)
    (hstep : s.producerStep k = some (s', o)) :
    Called s' (c.answer o) ∧ Kept k s c s' o := by
  have hp := hholds.producer.pc
  have hknown := h.producer
  cases hpc : s.producer with
  | idle => simp [Machine.producerStep, hpc] at hstep
  | fullAt call headVal => exact h.fullAt hholds hpc hstep
  | construct v slot =>
      rw [hpc] at hknown
      simp only [Machine.producerStep, hpc] at hstep
      cases hstep
      exact ⟨⟨h.committed, h.popped, hknown.symm⟩, trivial⟩
  | commit =>
      rw [hpc] at hknown
      simp only [Machine.producerStep, hpc] at hstep
      cases hstep
      exact ⟨⟨h.committed, h.popped, hknown⟩, trivial⟩
  | store inPush headVal =>
      rw [hpc] at hp hknown
      obtain ⟨v, hv⟩ := Option.ne_none_iff_exists'.mp hp.2
      simp only [Machine.producerStep, hpc] at hstep
      cases hstep
      cases inPush with
      | true =>
          have hpushing : c.pushing = some v := hknown.symm.trans hv
          refine ⟨⟨?_, h.popped, c.knows_idle⟩, v, hpushing, by rw [hv]; rfl, rfl⟩
          simp [Calls.answer, h.committed, hv, hpushing]
      | false =>
          have hconstructed := hknown v hv
          refine ⟨⟨?_, h.popped, c.knows_idle⟩, v, hconstructed, by rw [hv]; rfl, rfl⟩
          simp [Calls.answer, h.committed, hv, hconstructed]

theorem Called.consumerStep (h : s.Called c) (hholds : s.Holds k ct ch)
    (hstep : s.consumerStep k = some (s', o)) :
    Called s' (c.answer o) ∧ Kept k s c s' o := by
  have hconsumer := hholds.consumer
  cases hpc : s.consumer with
  | idle => simp [Machine.consumerStep, hpc] at hstep
  | emptyAt tailVal =>
      simp only [Machine.consumerStep, hpc] at hstep
      split at hstep
      · cases hstep
        exact ⟨⟨h.committed, h.popped, h.producer⟩, trivial⟩
      · cases hstep
        exact ⟨⟨h.committed, h.popped, h.producer⟩, trivial⟩
  | take tailVal =>
      simp only [Machine.consumerStep, hpc] at hstep
      cases hstep
      exact ⟨⟨h.committed, h.popped, h.producer⟩, trivial⟩
  | store tailVal value =>
      rw [hpc] at hconsumer
      obtain ⟨-, hlt, hvalue⟩ := hconsumer
      have hlt' := hlt.trans_le hholds.counts.cachedHead_le
      rw [List.getElem?_eq_getElem hlt'] at hvalue
      simp only [Machine.consumerStep, hpc] at hstep
      cases hstep
      refine ⟨⟨h.committed, ?_, h.producer⟩, _, hvalue,
        List.getElem?_eq_getElem hlt', by rw [hvalue], rfl⟩
      simp [Calls.answer, h.popped]

/-- Every step keeps what the threads know in line with the queue, and does
what its answer promises. -/
theorem Called.step (h : s.Called c) (hholds : s.Holds k ct ch) {a : Action α}
    (hstep : s.step k a = some (s', o)) :
    Called s' ((c.call a).answer o) ∧ Kept k s (c.call a) s' o := by
  have hknown := h.producer
  unfold Machine.step at hstep
  split at hstep
  · next v hpc =>
    rw [hpc] at hknown
    have hasking : s.Asking (c.call (.push v)) (.push v) := by
      refine ⟨h.committed, h.popped, ?_, hknown⟩
      rintro w ⟨⟩
      rfl
    have hreserve := hasking.startReserve hholds
    rwa [Option.some.inj hstep] at hreserve
  · next hpc =>
    rw [hpc] at hknown
    have hasking : s.Asking c .tryReserve := ⟨h.committed, h.popped, by simp, hknown⟩
    have hreserve := hasking.startReserve hholds
    rwa [Option.some.inj hstep] at hreserve
  · next v hpc =>
    split at hstep
    · cases hstep
    · cases hstep
      refine ⟨⟨h.committed, h.popped, ?_⟩, trivial⟩
      change Calls.Knows _ _ s.producer
      rw [hpc]
      exact fun w hw => hw
  · next hpc =>
    rw [hpc] at hknown
    split at hstep
    · cases hstep
    · cases hstep
      exact ⟨⟨h.committed, h.popped, hknown⟩, trivial⟩
  · simp only at hstep
    split at hstep
    · cases hstep
      exact ⟨⟨h.committed, h.popped, hknown⟩, trivial⟩
    · cases hstep
      exact ⟨⟨h.committed, h.popped, hknown⟩, trivial⟩
  · exact h.producerStep hholds hstep
  · exact h.consumerStep hholds hstep
  · cases hstep

theorem holds_of_reachable (h : (system α k).Reachable (s, c)) :
    (∃ ct ch, s.Holds k ct ch) ∧ s.Called c := by
  refine h.invariant (P := fun m => (∃ ct ch, m.1.Holds k ct ch) ∧ m.1.Called m.2)
    ⟨⟨0, 0, init_holds⟩, ⟨rfl, rfl, Calls.knows_idle _⟩⟩ ?_
  rintro ⟨s, c⟩ a s' ⟨⟨ct, ch, hholds⟩, hcalled⟩ hstep
  obtain ⟨⟨t, o⟩, hmove, rfl⟩ := Option.map_eq_some_iff.mp hstep
  exact ⟨(hholds.step hmove).1, (hcalled.step hholds hmove).1⟩

/-- In every interleaving the popped values are the first accepted ones, the
other accepted values are intact in their slots, and there are at most
`2^k - 1` of them.  A push or a commit that succeeds adds its value behind
them, a reservation gives the next free slot, and a pop takes the first value.
A push or a reservation fails only when there are `2^k - 1` values, and a pop
comes back without a value only when there are none. -/
theorem reachable_fifo (h : (system α k).Reachable (s, c)) :
    c.returned <+: c.accepted.map some ∧
    c.accepted.length - c.returned.length ≤ 2 ^ k - 1 ∧
    (s.committed = c.accepted ∧ s.popped = c.returned) ∧
    (∀ j, s.popped.length + s.consumer.taken ≤ j → j < s.committed.length →
      s.queue.buffer (j % 2 ^ k) = s.committed[j]?) ∧
    ∀ a s' o, s.step k a = some (s', some o) → match o with
      | .pushed true => ∃ v, (c.call a).pushing = some v ∧
        s'.committed = s.committed ++ [v] ∧ s'.popped = s.popped
      | .pushed false =>
        s.committed.length - s.popped.length = 2 ^ k - 1
      | .reserved (some slot) => slot = s.committed.length % 2 ^ k ∧
        s.committed.length - s.popped.length < 2 ^ k - 1
      | .reserved none =>
        s.committed.length - s.popped.length = 2 ^ k - 1
      | .committed => ∃ v, (c.call a).constructed = some v ∧
        s'.committed = s.committed ++ [v] ∧ s'.popped = s.popped
      | .popped value => ∃ v, value = some v ∧
        s.committed[s.popped.length]? = some v ∧
        s'.popped = s.popped ++ [some v] ∧ s'.committed = s.committed
      | .nullopt => s.popped = s.committed.map some := by
  obtain ⟨⟨ct, ch, hholds⟩, hcalled⟩ := holds_of_reachable h
  have hcounts := hholds.counts
  have hlap := hcounts.lt_lap
  refine ⟨?_, ?_, ⟨hcalled.committed, hcalled.popped⟩, hcounts.slots, ?_⟩
  · rw [← hcalled.committed, ← hcalled.popped, hcounts.popped_eq, List.map_take]
    exact List.take_prefix _ _
  · rw [← hcalled.committed, ← hcalled.popped]
    omega
  · intro a s' o hstep
    have hanswer := (hholds.step hstep).2
    have hkept := (hcalled.step hholds hstep).2
    split
    · exact hkept
    · exact Nat.sub_eq_of_eq_add' hanswer
    · obtain ⟨hslot, hroom⟩ := hkept
      have hle := hcounts.popped_le
      exact ⟨hslot, by omega⟩
    · exact Nat.sub_eq_of_eq_add' hanswer
    · exact hkept
    · exact hkept
    · exact hanswer

/-- With two slots a second push is refused while the first value has not been
popped; the pop that follows returns that value. -/
theorem reachable_fifo_refused :
    ∃ (s t t' : Machine ℕ) (c : Calls ℕ),
      (system ℕ 1).Reachable (s, c) ∧ c.accepted = [5] ∧
      s.step 1 .producer = some (t, some (.pushed false)) ∧
      s.committed.length - s.popped.length = 1 ∧
      s.step 1 .consumer = some (t', some (.popped (some 5))) ∧
      t'.popped = s.popped ++ [some 5] := by
  obtain ⟨s, c, hrun, haccepted⟩ : ∃ s c, (system ℕ 1).run ({}, {})
      [.push 5, .producer, .producer, .producer, .push 6, .pop, .consumer, .consumer] =
        some (s, c) ∧ c.accepted = [5] := ⟨_, _, rfl, rfl⟩
  obtain ⟨⟨t, hrefused⟩, t', hpopped⟩ :
      (∃ t, s.step 1 .producer = some (t, some (.pushed false))) ∧
      ∃ t', s.step 1 .consumer = some (t', some (.popped (some 5))) := by
    cases hrun
    exact ⟨⟨_, rfl⟩, _, rfl⟩
  have hreach := TransitionSystem.Reachable.start.run hrun
  have hfifo := reachable_fifo hreach
  obtain ⟨v, hv, -, htaken, -⟩ := hfifo.2.2.2.2 _ _ _ hpopped
  obtain rfl := Option.some.inj hv
  exact ⟨s, t, t', c, hreach, haccepted, hrefused, hfifo.2.2.2.2 _ _ _ hrefused,
    hpopped, htaken⟩

end Machine

end SpscQueue

end Fastbook

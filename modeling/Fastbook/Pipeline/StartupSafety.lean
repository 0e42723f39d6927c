import Fastbook.Pipeline.Delivery
import Fastbook.Pipeline.Startup
import Fastbook.Pipeline.ThreadConfigGrammar
import Fastbook.Support.Slots

/-!
# Nothing runs before everything is ready

The gate opens in one of two ways: after every thread has been created, pinned
and counted as ready, or with the stop flags of all threads set.  So the feed
reads its input only if the whole pipeline is there, and a start that fails
leaves the input and the books alone.
-/

namespace Fastbook

open Support

namespace Stage

/-- The thread has counted down `ready`. -/
def Counted (st : Stage) : Prop :=
  st = .wait ∨ st = .running ∨ st = .exited

/-- The thread has added itself to `failed`. -/
def Registered (st : Stage) : Prop :=
  st = .failedReady ∨ st = .exited

/-- The thread waits at the gate, or is behind it. -/
def Ready (st : Stage) : Prop :=
  st = .wait ∨ st = .running

/-- The thread has failed, or has not been created. -/
def Dead (st : Stage) : Prop :=
  st = .absent ∨ st = .failed ∨ st = .failedReady ∨ st = .exited

instance : DecidablePred Counted :=
  fun _ => inferInstanceAs (Decidable (_ ∨ _ ∨ _))

instance : DecidablePred Registered :=
  fun _ => inferInstanceAs (Decidable (_ ∨ _))

theorem Dead.not_ready {st : Stage} (h : st.Dead) : ¬ st.Ready := by
  rcases h with rfl | rfl | rfl | rfl <;> simp [Ready]

end Stage

/-- The steps of `arrive`, with the counters they change. -/
inductive Arrival (g : StartGate) : Stage → StartGate → Stage → Prop where
  | pinned : Arrival g .pin g .ready
  | unpinned : Arrival g .pin g .failed
  | ready : Arrival g .ready g.countReady .wait
  | pass (hgo : g.go = 0) : Arrival g .wait g .running
  | failed : Arrival g .failed { g with failed := g.failed + 1 } .failedReady
  | failedReady : Arrival g .failedReady g.countReady .exited

theorem arrival_of_arrive {g g' : StartGate} {ok : Bool} {st st' : Stage}
    (h : g.arrive ok st = some (g', st')) : Arrival g st g' st' := by
  cases st with
  | absent | running | exited => cases h
  | pin =>
      cases ok <;> cases h
      · exact .unpinned
      · exact .pinned
  | ready =>
      cases h
      exact .ready
  | wait =>
      rw [StartGate.arrive] at h
      split at h
      · next hgo =>
        cases h
        exact .pass hgo
      · cases h
  | failed =>
      cases h
      exact .failed
  | failedReady =>
      cases h
      exact .failedReady

/-- Where a thread that goes on comes from, and where it gets to. -/
theorem Arrival.stages {g g' : StartGate} {st st' : Stage} (h : Arrival g st g' st') :
    st ≠ .absent ∧ st' ≠ .absent ∧ (st.Ready → st'.Ready) ∧ (st.Dead → st'.Dead) ∧
      (st' = .running → g'.go = 0) := by
  cases h <;> simp_all [Stage.Ready, Stage.Dead]

theorem Arrival.go {g g' : StartGate} {st st' : Stage} (h : Arrival g st g' st') :
    g'.go = g.go := by
  cases h with
  | ready | failedReady =>
      unfold StartGate.countReady
      split <;> rfl
  | _ => rfl

/-! ## What a step of the pipeline leaves alone -/

namespace Pipeline

variable {k capacity : ℕ} {s s' : Pipeline}

/-- No stop flag is taken back. -/
structure Frame (s s' : Pipeline) : Prop where
  builderStop : ∀ b, s.builderStop b = true → s'.builderStop b = true
  stopRequested : s.stopRequested = true → s'.stopRequested = true

theorem FeedMove.frame (h : FeedMove k capacity s s') :
    s.Frame s' ∧ s'.builder = s.builder ∧ s'.applied = s.applied := by
  cases h <;> exact ⟨⟨fun _ => id, by simp⟩, rfl, rfl⟩

theorem BuilderMove.frame {b : ℕ} (h : BuilderMove s b s') :
    s.Frame s' ∧ (s'.feed = s.feed ∧ s'.todo = s.todo) ∧
      ∀ b' ≠ b, s'.builder b' = s.builder b' := by
  cases h <;>
    exact ⟨⟨fun _ => id, id⟩, ⟨rfl, rfl⟩,
      fun b' hb' => by simp [setBuilder, handleEvent, hb']⟩

theorem FeedMove.not_exited (h : FeedMove k capacity s s') : s.feed ≠ .exited := by
  cases h with
  | placed hpc => rcases hpc with hpc | hpc <;> simp [hpc]
  | leave hpc | pass hpc | emit hpc | stop hpc | endPass hpc | full hpc | stillFull hpc
  | discard hpc | again hpc | finish hpc => simp [hpc]

theorem BuilderMove.not_exited {b : ℕ} (h : BuilderMove s b s') : s.builder b ≠ .exited := by
  cases h with
  | pop hpc | handle hpc => rcases hpc with ⟨hpc, -⟩ | ⟨hpc, -⟩ <;> simp [hpc]
  | stop hpc | poll hpc | empty hpc | exit hpc => simp [hpc]

/-- Nothing has been read, and nothing will be unless a loop is entered. -/
structure Untouched (script : List Iteration) (s : Pipeline) : Prop where
  script : s.script = script
  todo : s.todo = []
  emitted : s.emitted = []
  queue : s.queue = fun _ => []
  applied : s.applied = fun _ => []
  feed : s.feed = .loop ∨ s.feed = .finish ∨ s.feed = .exited
  builder : ∀ b, s.builder b = .loop ∨ s.builder b = .drain ∨ s.builder b = .exited

/-- The input is all there, and no event has left the parser. -/
def Unread (script : List Iteration) (s : Pipeline) : Prop :=
  s.script = script ∧ s.emitted = [] ∧ ∀ b, s.queue b = [] ∧ s.applied b = []

namespace Untouched

variable {script : List Iteration}

theorem unread (h : s.Untouched script) : s.Unread script :=
  ⟨h.script, h.emitted, fun b => ⟨by rw [h.queue], by rw [h.applied]⟩⟩

theorem start : ({ script } : Pipeline).Untouched script :=
  ⟨rfl, rfl, rfl, rfl, rfl, Or.inl rfl, fun _ => Or.inl rfl⟩

theorem feedMove (h : s.Untouched script) (hstop : s.stopRequested = true)
    (hmove : FeedMove k capacity s s') : s'.Untouched script := by
  have hfeed := h.feed
  cases hmove with
  | leave => exact { h with feed := Or.inr (Or.inl rfl) }
  | finish => exact { h with feed := Or.inr (Or.inr rfl) }
  | pass _ hstop' =>
      rw [hstop] at hstop'
      cases hstop'
  | placed hpc =>
      rcases hpc with hpc | hpc <;> simp [hpc] at hfeed
  | emit hpc | stop hpc | endPass hpc | full hpc | stillFull hpc | discard hpc
  | again hpc => simp [hpc] at hfeed

theorem setBuilder (h : s.Untouched script) {b : ℕ} {pc : BuilderPc}
    (hpc : pc = .loop ∨ pc = .drain ∨ pc = .exited) :
    (s.setBuilder b pc).Untouched script where
  __ := h
  builder b' := by
    by_cases hb : b' = b
    · subst hb
      simpa [Pipeline.setBuilder] using hpc
    · simpa [Pipeline.setBuilder, hb] using h.builder b'

theorem builderStep (h : s.Untouched script) {b : ℕ}
    (hstop : s.builderStop b = true) (hstep : s.builderStep b = some s') :
    s'.Untouched script := by
  have hqueue : s.queue b = [] := by rw [h.queue]
  unfold Pipeline.builderStep at hstep
  rcases h.builder b with hpc | hpc | hpc
  · simp only [hpc, hstop, if_true, Option.some.injEq] at hstep
    subst hstep
    exact h.setBuilder (Or.inr (Or.inl rfl))
  · simp only [hpc, popEvent, hqueue, Option.some.injEq] at hstep
    subst hstep
    exact h.setBuilder (Or.inr (Or.inr rfl))
  · simp only [hpc] at hstep
    cases hstep

end Untouched

end Pipeline

/-! ## What the client can do -/

namespace FeedHandler

variable {k capacity : ℕ} {path : String} {script : List Iteration}
  {s s' : FeedHandler}

inductive ClientMove (k : ℕ) (s : FeedHandler) : FeedHandler → Prop where
  | makeBuilder {i : ℕ} (hpc : s.client = .makeBuilders i) (hi : i < 2 ^ k) :
    ClientMove k s { s with builders := i + 1, client := .makeBuilders (i + 1) }
  | makeFailed {i : ℕ} (hpc : s.client = .makeBuilders i) :
    ClientMove k s { s with client := .idle }
  | made {i : ℕ} (hpc : s.client = .makeBuilders i) (hi : ¬ i < 2 ^ k) :
    ClientMove k s { s with client := .loadConfig }
  | createFeed (hpc : s.client = .createFeed) :
    ClientMove k s { s with
      feedThread := .pin, feedJoinable := true, client := .createBuilder 0 }
  | createFailed
    (hpc : s.client = .createFeed ∨ ∃ i < 2 ^ k, s.client = .createBuilder i) :
    ClientMove k s { s with client := .abortFeed }
  | createBuilder {i : ℕ} (hpc : s.client = .createBuilder i) (hi : i < 2 ^ k) :
    ClientMove k s { s with
      bbThread := Function.update s.bbThread i .pin
      bbJoinable := Function.update s.bbJoinable i true
      threads := i + 1
      client := .createBuilder (i + 1) }
  | created {i : ℕ} (hpc : s.client = .createBuilder i) (hi : ¬ i < 2 ^ k) :
    ClientMove k s { s with client := .waitReady }
  | ready (hpc : s.client = .waitReady) (hready : s.gate.ready = 0) :
    ClientMove k s { s with client := .loadFailed }
  | failed (hpc : s.client = .loadFailed) (hfailed : 0 < s.gate.failed) :
    ClientMove k s { s with client := .abortFeed }
  | unfailed (hpc : s.client = .loadFailed) (hfailed : s.gate.failed = 0) :
    ClientMove k s { s with client := .countGo }
  | go (hpc : s.client = .countGo) :
    ClientMove k s { s with gate := s.gate.countGo, client := .started true }
  | abortFeed (hpc : s.client = .abortFeed) :
    ClientMove k s { s.stopFeed with client := .abortBuilders 0 }
  | abortBuilder {i : ℕ} (hpc : s.client = .abortBuilders i) (hi : i < s.builders) :
    ClientMove k s { s.stopBuilder i with client := .abortBuilders (i + 1) }
  | abortedBuilders {i : ℕ} (hpc : s.client = .abortBuilders i) (hi : ¬ i < s.builders) :
    ClientMove k s { s with client := .abortGo }
  | abortGo (hpc : s.client = .abortGo) :
    ClientMove k s { s with gate := s.gate.countGo, client := .started false }
  | returned {ok : Bool} (hpc : s.client = .started ok) :
    ClientMove k s { s with startOk := ok, client := .idle }
  | stopFeed (hpc : s.client = .stopFeed) :
    ClientMove k s { s.stopFeed with client := .joinFeed }
  | joinFeed (hpc : s.client = .joinFeed) (hdone : s.feedDone = true) :
    ClientMove k s { s with feedJoinable := false, client := .stopBuilders 0 }
  | skipFeed (hpc : s.client = .joinFeed) (hnot : s.feedJoinable = false) :
    ClientMove k s { s with client := .stopBuilders 0 }
  | stopBuilder {i : ℕ} (hpc : s.client = .stopBuilders i) (hi : i < s.builders) :
    ClientMove k s { s.stopBuilder i with client := .stopBuilders (i + 1) }
  | stoppedBuilders {i : ℕ} (hpc : s.client = .stopBuilders i) (hi : ¬ i < s.builders) :
    ClientMove k s { s with client := .joinBuilders 0 }
  | joinBuilder {i : ℕ} (hpc : s.client = .joinBuilders i) (hi : i < s.threads)
    (hdone : s.bbDone i = true) :
    ClientMove k s { s with
      bbJoinable := Function.update s.bbJoinable i false
      client := .joinBuilders (i + 1) }
  | skipBuilder {i : ℕ} (hpc : s.client = .joinBuilders i) (hi : i < s.threads)
    (hnot : s.bbJoinable i = false) :
    ClientMove k s { s with client := .joinBuilders (i + 1) }
  | joined {i : ℕ} (hpc : s.client = .joinBuilders i) (hi : ¬ i < s.threads) :
    ClientMove k s s.leave

theorem clientMove_of_step {ok : Bool} (hstep : s.clientStep k ok = some s') :
    ClientMove k s s' := by
  unfold clientStep at hstep
  cases hpc : s.client with
  | idle | loadConfig | destroyed =>
    simp only [hpc] at hstep
    cases hstep
  | makeBuilders i =>
    simp only [hpc] at hstep
    split at hstep
    · next hi =>
      split at hstep
      · cases hstep
        exact .makeBuilder hpc hi
      · cases hstep
        exact .makeFailed hpc
    · next hi =>
      cases hstep
      exact .made hpc hi
  | createFeed =>
    simp only [hpc] at hstep
    split at hstep
    · cases hstep
      exact .createFeed hpc
    · cases hstep
      exact .createFailed (Or.inl hpc)
  | createBuilder i =>
    simp only [hpc] at hstep
    split at hstep
    · next hi =>
      split at hstep
      · cases hstep
        exact .createBuilder hpc hi
      · cases hstep
        exact .createFailed (Or.inr ⟨i, hi, hpc⟩)
    · next hi =>
      cases hstep
      exact .created hpc hi
  | waitReady =>
    simp only [hpc] at hstep
    split at hstep
    · next hready =>
      cases hstep
      exact .ready hpc hready
    · cases hstep
  | loadFailed =>
    simp only [hpc] at hstep
    split at hstep
    · next hfailed =>
      cases hstep
      exact .failed hpc hfailed
    · next hfailed =>
      cases hstep
      exact .unfailed hpc (Nat.eq_zero_of_not_pos hfailed)
  | countGo =>
    simp only [hpc] at hstep
    cases hstep
    exact .go hpc
  | abortFeed =>
    simp only [hpc] at hstep
    cases hstep
    exact .abortFeed hpc
  | abortBuilders i =>
    simp only [hpc] at hstep
    split at hstep
    · next hi =>
      cases hstep
      exact .abortBuilder hpc hi
    · next hi =>
      cases hstep
      exact .abortedBuilders hpc hi
  | abortGo =>
    simp only [hpc] at hstep
    cases hstep
    exact .abortGo hpc
  | started ok =>
    simp only [hpc] at hstep
    cases hstep
    exact .returned hpc
  | stopFeed =>
    simp only [hpc] at hstep
    cases hstep
    exact .stopFeed hpc
  | joinFeed =>
    simp only [hpc] at hstep
    split at hstep
    · split at hstep
      · next hdone =>
        cases hstep
        exact .joinFeed hpc hdone
      · cases hstep
    · next hnot =>
      cases hstep
      exact .skipFeed hpc (Bool.eq_false_iff.mpr hnot)
  | stopBuilders i =>
    simp only [hpc] at hstep
    split at hstep
    · next hi =>
      cases hstep
      exact .stopBuilder hpc hi
    · next hi =>
      cases hstep
      exact .stoppedBuilders hpc hi
  | joinBuilders i =>
    simp only [hpc] at hstep
    split at hstep
    · next hi =>
      split at hstep
      · split at hstep
        · next hdone =>
          cases hstep
          exact .joinBuilder hpc hi hdone
        · cases hstep
      · next hnot =>
        cases hstep
        exact .skipBuilder hpc hi (Bool.eq_false_iff.mpr hnot)
    · next hi =>
      cases hstep
      exact .joined hpc hi

end FeedHandler

/-! ## The invariant -/

/-- The client is in `start`. -/
def ClientPc.inStart : ClientPc → Bool
  | .makeBuilders _ | .loadConfig | .createFeed | .createBuilder _ | .waitReady
  | .loadFailed | .countGo | .abortFeed | .abortBuilders _ | .abortGo | .started _ => true
  | _ => false

namespace FeedHandler

variable {k capacity : ℕ} {path : String} {script : List Iteration}
  {s s' : FeedHandler}

/-- The feed thread is thread 0, and builder `b` is thread `b + 1`. -/
def stage (s : FeedHandler) : ℕ → Stage
  | 0 => s.feedThread
  | b + 1 => s.bbThread b

/-- The first `m` threads have been created. -/
def Created (k : ℕ) (s : FeedHandler) (m : ℕ) : Prop :=
  ∀ t < 2 ^ k + 1, (s.stage t = .absent ↔ m ≤ t)

/-- Every thread has been created, pinned and named. -/
def AllReady (k : ℕ) (s : FeedHandler) : Prop :=
  ∀ t < 2 ^ k + 1, (s.stage t).Ready

/-- Some thread has failed or does not exist. -/
def Broken (k : ℕ) (s : FeedHandler) : Prop :=
  ∃ t < 2 ^ k + 1, (s.stage t).Dead

/-- Every loop will be left at once. -/
def AllStopped (k : ℕ) (s : FeedHandler) : Prop :=
  s.pipe.stopRequested = true ∧ ∀ b < 2 ^ k, s.pipe.builderStop b = true

/-- `start` is under way, and the gate is closed. -/
def Starting (s : FeedHandler) : Prop :=
  s.started = true ∧ s.startOk = false ∧ s.gate.go = 1

/-- What holds at each point of the client. -/
def At (k : ℕ) (s : FeedHandler) : ClientPc → Prop
  | .makeBuilders i => s.Starting ∧ s.Created k 0 ∧ s.builders = i ∧ i ≤ 2 ^ k
  | .loadConfig | .createFeed =>
    s.Starting ∧ s.builders = 2 ^ k ∧ s.Created k 0
  | .createBuilder i => s.Starting ∧ s.builders = 2 ^ k ∧ s.Created k (i + 1)
  | .waitReady => s.Starting ∧ s.builders = 2 ^ k ∧ s.Created k (2 ^ k + 1)
  | .loadFailed => s.Starting ∧ s.builders = 2 ^ k ∧ s.gate.ready = 0
  | .countGo => s.Starting ∧ s.AllReady k
  | .abortFeed => s.Starting ∧ s.builders = 2 ^ k ∧ s.Broken k
  | .abortBuilders i =>
    s.Starting ∧ s.builders = 2 ^ k ∧ s.Broken k ∧
      s.pipe.stopRequested = true ∧ ∀ b < i, s.pipe.builderStop b = true
  | .abortGo => s.Starting ∧ s.Broken k ∧ s.AllStopped k
  | .started ok =>
    s.started = true ∧ s.startOk = false ∧ s.gate.go = 0 ∧
      if ok then s.AllReady k else s.Broken k
  | .idle | .stopFeed | .joinFeed | .stopBuilders _ | .joinBuilders _ | .destroyed =>
    s.started = true → s.startOk = true ∧ s.gate.go = 0 ∧ s.AllReady k ∨
      s.startOk = false ∧ s.Broken k

structure Gated (k : ℕ) (script : List Iteration) (s : FeedHandler) : Prop where
  misused : s.gate.misused = false
  ready : s.gate.ready + Nat.count (fun t => (s.stage t).Counted) (2 ^ k + 1) =
    2 ^ k + 1
  failed : s.gate.failed =
    Nat.count (fun t => (s.stage t).Registered) (2 ^ k + 1)
  fresh : s.started = false →
    s.startOk = false ∧ s.Created k 0 ∧ s.gate.go = 1 ∧ s.builders = 0
  running : ∀ t < 2 ^ k + 1, s.stage t = .running → s.gate.go = 0
  opened : s.gate.go = 0 → s.AllReady k ∨ s.Broken k ∧ s.AllStopped k
  untouched : ¬ (s.gate.go = 0 ∧ s.AllReady k) → s.pipe.Untouched script
  point : s.At k s.client

theorem Broken.not_allReady (h : s.Broken k) : ¬ s.AllReady k := by
  obtain ⟨t, ht, hdead⟩ := h
  exact fun hall => hdead.not_ready (hall t ht)

theorem gated_start : (system k capacity path script).start.Gated k script := by
  have hstage : ∀ t, (system k capacity path script).start.stage t = .absent := by
    rintro (_ | t) <;> rfl
  refine ⟨rfl, ?_, ?_, fun _ => ⟨rfl, fun t _ => ?_, rfl, rfl⟩, fun t _ ht => ?_,
    (by intro hgo; cases hgo),
    fun _ => .start, (by intro hstarted; cases hstarted)⟩
  · simp only [hstage, Stage.Counted, reduceCtorEq, or_self, Nat.count_false]
    rfl
  · simp only [hstage, Stage.Registered, reduceCtorEq, or_self, Nat.count_false]
    rfl
  · simp [hstage]
  · rw [hstage] at ht
    cases ht

/-! ## Threads that arrive at the gate -/

/-- Thread `t` has gone on to `st`, with the counters in `g`. -/
structure Arrives (s s' : FeedHandler) (t : ℕ) (g : StartGate) (st : Stage) : Prop where
  stage : s'.stage = Function.update s.stage t st
  gate : s'.gate = g
  pipe : s'.pipe = s.pipe
  client : s'.client = s.client
  builders : s'.builders = s.builders
  started : s'.started = s.started
  startOk : s'.startOk = s.startOk

namespace Gated

theorem counted_of_ready (h : s.Gated k script) (hready : s.gate.ready = 0) {t : ℕ}
    (ht : t < 2 ^ k + 1) : (s.stage t).Counted := by
  have hcount := h.ready
  rw [hready, Nat.zero_add] at hcount
  exact Nat.count_iff_forall.mp hcount t ht

theorem ready_pos (h : s.Gated k script) {t : ℕ} (ht : t < 2 ^ k + 1)
    (hst : ¬ (s.stage t).Counted) : s.gate.ready ≠ 0 :=
  fun hready => hst (h.counted_of_ready hready ht)

theorem arrival_gate (h : s.Gated k script) {t : ℕ} (ht : t < 2 ^ k + 1)
    {g : StartGate} {st : Stage} (harr : Arrival s.gate (s.stage t) g st) :
    g.misused = false ∧ g.go = s.gate.go ∧ (s.gate.ready = 0 → g.ready = 0) ∧
    g.ready + (if st.Counted then 1 else 0) =
      s.gate.ready + (if (s.stage t).Counted then 1 else 0) ∧
    g.failed + (if (s.stage t).Registered then 1 else 0) =
      s.gate.failed + (if st.Registered then 1 else 0) := by
  have hmisused := h.misused
  generalize hold : s.stage t = old at harr
  have hpos : ¬ old.Counted → s.gate.ready ≠ 0 := hold ▸ h.ready_pos ht
  cases harr with
  | pinned | unpinned | pass => simp [hmisused, Stage.Counted, Stage.Registered]
  | ready | failedReady =>
      have hready := hpos (by simp [Stage.Counted])
      rw [StartGate.countReady, if_neg hready]
      simp [hmisused, Stage.Counted, Stage.Registered]
      omega
  | failed => simp [hmisused, Stage.Counted, Stage.Registered]

end Gated

namespace Arrives

variable {t : ℕ} {g : StartGate} {st : Stage}

theorem stage_self (h : s.Arrives s' t g st) : s'.stage t = st := by
  rw [h.stage, Function.update_self]

theorem stage_of_ne (h : s.Arrives s' t g st) {u : ℕ} (hu : u ≠ t) :
    s'.stage u = s.stage u := by
  rw [h.stage, Function.update_of_ne hu]

variable (harr : Arrival s.gate (s.stage t) g st)
include harr

theorem absent_iff (h : s.Arrives s' t g st) (u : ℕ) :
    s'.stage u = .absent ↔ s.stage u = .absent := by
  by_cases hu : u = t
  · subst hu
    rw [h.stage_self]
    simp [harr.stages.1, harr.stages.2.1]
  · rw [h.stage_of_ne hu]

theorem created (h : s.Arrives s' t g st) {m : ℕ} (hs : s.Created k m) :
    s'.Created k m :=
  fun u hu => (h.absent_iff harr u).trans (hs u hu)

theorem allReady (h : s.Arrives s' t g st) (hs : s.AllReady k) : s'.AllReady k := by
  intro u hu
  by_cases hut : u = t
  · subst hut
    rw [h.stage_self]
    exact harr.stages.2.2.1 (hs u hu)
  · rw [h.stage_of_ne hut]
    exact hs u hu

theorem broken (h : s.Arrives s' t g st) (hs : s.Broken k) : s'.Broken k := by
  obtain ⟨u, hu, hdead⟩ := hs
  refine ⟨u, hu, ?_⟩
  by_cases hut : u = t
  · subst hut
    rw [h.stage_self]
    exact harr.stages.2.2.2.1 hdead
  · rwa [h.stage_of_ne hut]

/-- What holds at a point of the client is not disturbed. -/
theorem point (h : s.Arrives s' t g st) (hgo : g.go = s.gate.go)
    (hready : s.gate.ready = 0 → g.ready = 0) {pc : ClientPc} (hs : s.At k pc) :
    s'.At k pc := by
  have hstarting : s.Starting → s'.Starting := by
    rintro ⟨hstarted, hok, hs⟩
    exact ⟨h.started.trans hstarted, h.startOk.trans hok, by rw [h.gate, hgo, hs]⟩
  have hstopped : s.AllStopped k → s'.AllStopped k := by
    unfold AllStopped
    rw [h.pipe]
    exact id
  cases pc with
  | makeBuilders i =>
      exact ⟨hstarting hs.1, h.created harr hs.2.1, h.builders.trans hs.2.2.1, hs.2.2.2⟩
  | loadConfig | createFeed | createBuilder i | waitReady =>
      exact ⟨hstarting hs.1, h.builders.trans hs.2.1, h.created harr hs.2.2⟩
  | loadFailed =>
      exact ⟨hstarting hs.1, h.builders.trans hs.2.1, by rw [h.gate, hready hs.2.2]⟩
  | countGo => exact ⟨hstarting hs.1, h.allReady harr hs.2⟩
  | abortFeed => exact ⟨hstarting hs.1, h.builders.trans hs.2.1, h.broken harr hs.2.2⟩
  | abortBuilders i =>
      obtain ⟨hstart, hbuilders, hbroken, hflags⟩ := hs
      refine ⟨hstarting hstart, h.builders.trans hbuilders, h.broken harr hbroken, ?_⟩
      rwa [h.pipe]
  | abortGo => exact ⟨hstarting hs.1, h.broken harr hs.2.1, hstopped hs.2.2⟩
  | started ok =>
      obtain ⟨hstarted, hok, hgo', hall⟩ := hs
      refine ⟨h.started.trans hstarted, h.startOk.trans hok, by rw [h.gate, hgo, hgo'], ?_⟩
      cases ok
      · exact h.broken harr hall
      · exact h.allReady harr hall
  | idle | stopFeed | joinFeed | stopBuilders | joinBuilders | destroyed =>
      intro hstarted
      rcases hs (h.started ▸ hstarted) with ⟨hok, hgo', hall⟩ | ⟨hok, hbroken⟩
      · exact Or.inl ⟨h.startOk.trans hok, by rw [h.gate, hgo, hgo'], h.allReady harr hall⟩
      · exact Or.inr ⟨h.startOk.trans hok, h.broken harr hbroken⟩

end Arrives

namespace Gated

theorem arrive {t : ℕ} (h : s.Gated k script) (ht : t < 2 ^ k + 1) {g : StartGate}
    {st : Stage} (harr : Arrival s.gate (s.stage t) g st) (hs' : s.Arrives s' t g st) :
    s'.Gated k script := by
  obtain ⟨hmisused, hgo, hzero, hready, hfailed⟩ := h.arrival_gate ht harr
  have hgo' : s'.gate.go = s.gate.go := by rw [hs'.gate, hgo]
  refine ⟨by rw [hs'.gate, hmisused], ?_, ?_, ?_, ?_, ?_, ?_, ?_⟩
  · have hcount := count_update (c := s.stage) Stage.Counted st ht
    rw [hs'.stage, hs'.gate]
    have hold := h.ready
    omega
  · have hcount := count_update (c := s.stage) Stage.Registered st ht
    rw [hs'.stage, hs'.gate]
    have hold := h.failed
    omega
  · intro hstarted
    obtain ⟨hok, hcreated, hone, hbuilders⟩ := h.fresh (hs'.started ▸ hstarted)
    exact ⟨hs'.startOk.trans hok, hs'.created harr hcreated, hgo'.trans hone,
      hs'.builders.trans hbuilders⟩
  · intro u hu hrun
    by_cases hut : u = t
    · subst hut
      rw [hs'.gate]
      exact harr.stages.2.2.2.2 (hs'.stage_self.symm.trans hrun)
    · rw [hgo']
      exact h.running u hu (hs'.stage_of_ne hut ▸ hrun)
  · intro hopen
    rcases h.opened (hgo' ▸ hopen) with hall | ⟨hbroken, hstopped⟩
    · exact Or.inl (hs'.allReady harr hall)
    · refine Or.inr ⟨hs'.broken harr hbroken, ?_⟩
      unfold AllStopped
      rwa [hs'.pipe]
  · intro hnot
    rw [hs'.pipe]
    refine h.untouched fun ⟨hopen, hall⟩ => hnot ⟨hgo'.trans hopen, ?_⟩
    exact hs'.allReady harr hall
  · rw [hs'.client]
    exact hs'.point harr hgo hzero h.point

/-! ## Threads behind the gate -/

/-- A change of the pipeline that takes no stop flag back. -/
theorem setPipe (h : s.Gated k script) {pipe : Pipeline} (hframe : s.pipe.Frame pipe)
    (huntouched : ¬ (s.gate.go = 0 ∧ s.AllReady k) → pipe.Untouched script) :
    Gated k script { s with pipe } := by
  have hstopped : s.AllStopped k → AllStopped k { s with pipe } := by
    rintro ⟨hfeed, hbuilders⟩
    exact ⟨hframe.stopRequested hfeed, fun b hb => hframe.builderStop b (hbuilders b hb)⟩
  refine { h with opened := ?_, untouched := huntouched, point := ?_ }
  · intro hgo
    rcases h.opened hgo with hall | ⟨hbroken, hs⟩
    · exact Or.inl hall
    · exact Or.inr ⟨hbroken, hstopped hs⟩
  · have hpoint := h.point
    change At k _ s.client
    generalize s.client = pc at hpoint ⊢
    cases pc with
    | abortBuilders i =>
        obtain ⟨hstart, hbuilders, hbroken, hfeed, hflags⟩ := hpoint
        exact ⟨hstart, hbuilders, hbroken, hframe.stopRequested hfeed,
          fun b hb => hframe.builderStop b (hflags b hb)⟩
    | abortGo => exact ⟨hpoint.1, hpoint.2.1, hstopped hpoint.2.2⟩
    | _ => exact hpoint

/-- A thread behind the gate, when the gate may have been opened to stop it. -/
theorem pipeStep (h : s.Gated k script) {pipe : Pipeline} (hframe : s.pipe.Frame pipe)
    (hopen : s.gate.go = 0)
    (huntouched : s.AllStopped k → s.pipe.Untouched script → pipe.Untouched script) :
    Gated k script { s with pipe } := by
  refine h.setPipe hframe fun hnot => ?_
  rcases h.opened hopen with hall | ⟨-, hs⟩
  · exact absurd ⟨hopen, hall⟩ hnot
  · exact huntouched hs (h.untouched hnot)

theorem feedStep (h : s.Gated k script) {ok : Bool}
    (hstep : s.feedStep k capacity ok = some s') : s'.Gated k script := by
  unfold FeedHandler.feedStep at hstep
  split at hstep
  · next hrun =>
    obtain ⟨pipe, hpipe, rfl⟩ := Option.map_eq_some_iff.mp hstep
    have hmove := Pipeline.feedMove_of_step hpipe
    exact h.pipeStep hmove.frame.1 (h.running 0 (Nat.succ_pos _) hrun)
      fun hs hu => hu.feedMove hs.1 hmove
  · obtain ⟨⟨g, st⟩, harr, rfl⟩ := Option.map_eq_some_iff.mp hstep
    refine h.arrive (t := 0) (Nat.succ_pos _) (arrival_of_arrive harr)
      ⟨?_, rfl, rfl, rfl, rfl, rfl, rfl⟩
    funext t
    cases t <;> rfl

theorem builderStep (h : s.Gated k script) {b : ℕ} (hb : b < 2 ^ k) {ok : Bool}
    (hstep : s.builderStep b ok = some s') : s'.Gated k script := by
  unfold FeedHandler.builderStep at hstep
  split at hstep
  · next hrun =>
    obtain ⟨pipe, hpipe, rfl⟩ := Option.map_eq_some_iff.mp hstep
    have hmove := Pipeline.builderMove_of_step hpipe
    exact h.pipeStep hmove.frame.1 (h.running (b + 1) (by omega) hrun)
      fun hs hu => hu.builderStep (hs.2 b hb) hpipe
  · obtain ⟨⟨g, st⟩, harr, rfl⟩ := Option.map_eq_some_iff.mp hstep
    refine h.arrive (t := b + 1) (by omega) (arrival_of_arrive harr)
      ⟨?_, rfl, rfl, rfl, rfl, rfl, rfl⟩
    funext t
    cases t with
    | zero => rfl
    | succ t => simp [stage, Function.update_apply]

/-! ## The client -/

theorem stopFeed (h : s.Gated k script) : s.stopFeed.Gated k script :=
  h.setPipe ⟨fun _ => id, fun _ => rfl⟩ fun hnot => { h.untouched hnot with }

theorem stopBuilder (h : s.Gated k script) (b : ℕ) : (s.stopBuilder b).Gated k script := by
  refine h.setPipe ⟨fun b' hb' => ?_, id⟩ fun hnot => { h.untouched hnot with }
  by_cases hb : b' = b
  · simp [hb]
  · simpa [hb] using hb'

/-- A thread is created, while the gate is closed. -/
theorem create {t : ℕ} (h : s.Gated k script) (ht : t < 2 ^ k + 1)
    (habsent : s.stage t = .absent) (hgo : s.gate.go = 1) (hstarted : s'.started = true)
    (hstage : s'.stage = Function.update s.stage t .pin) (hgate : s'.gate = s.gate)
    (hpipe : s'.pipe = s.pipe) (hpoint : s'.At k s'.client) : s'.Gated k script := by
  have hclosed : s'.gate.go ≠ 0 := by
    rw [hgate, hgo]
    exact one_ne_zero
  refine ⟨by rw [hgate, h.misused], ?_, ?_, ?_, ?_, fun hopen => absurd hopen hclosed, ?_,
    hpoint⟩
  · have hcount := count_update (c := s.stage) Stage.Counted .pin ht
    rw [habsent, if_neg (by simp [Stage.Counted]), if_neg (by simp [Stage.Counted])] at hcount
    rw [hstage, hgate]
    have hold := h.ready
    omega
  · have hcount := count_update (c := s.stage) Stage.Registered .pin ht
    rw [habsent, if_neg (by simp [Stage.Registered]), if_neg (by simp [Stage.Registered])]
      at hcount
    rw [hstage, hgate]
    have hold := h.failed
    omega
  · intro hnot
    rw [hstarted] at hnot
    cases hnot
  · intro u hu hrun
    rw [hstage] at hrun
    by_cases hut : u = t
    · simp [hut] at hrun
    · rw [Function.update_of_ne hut] at hrun
      rw [hgate]
      exact h.running u hu hrun
  · intro _
    rw [hpipe]
    exact h.untouched fun hopen => by
      rw [hgo] at hopen
      cases hopen.1

theorem broken_of_created {m : ℕ} (h : s.Created k m) (hm : m < 2 ^ k + 1) : s.Broken k :=
  ⟨m, hm, Or.inl ((h m hm).mpr le_rfl)⟩

theorem created_update {m : ℕ} (h : s.Created k m)
    (hstage : s'.stage = Function.update s.stage m .pin) : s'.Created k (m + 1) := by
  intro u hu
  rw [hstage]
  by_cases hum : u = m
  · simp [hum]
  · rw [Function.update_of_ne hum, h u hu]
    omega

theorem broken_of_failed (h : s.Gated k script) (hfailed : 0 < s.gate.failed) :
    s.Broken k := by
  by_contra hnot
  have hnone : Nat.count (fun t => (s.stage t).Registered) (2 ^ k + 1) = 0 := by
    refine Nat.count_iff_forall_not.mpr fun t ht hreg => hnot ⟨t, ht, ?_⟩
    rcases hreg with hst | hst <;> simp [Stage.Dead, hst]
  rw [h.failed, hnone] at hfailed
  exact absurd hfailed (lt_irrefl 0)

theorem allReady_of_unfailed (h : s.Gated k script) (hready : s.gate.ready = 0)
    (hfailed : s.gate.failed = 0) : s.AllReady k := by
  intro t ht
  have hreg : ¬ (s.stage t).Registered := by
    rw [h.failed] at hfailed
    exact Nat.count_iff_forall_not.mp hfailed t ht
  rcases h.counted_of_ready hready ht with hst | hst | hst
  · exact Or.inl hst
  · exact Or.inr hst
  · exact absurd (Or.inr hst) hreg

/-- The gate is opened, for all threads or for none of them. -/
theorem countGo (h : s.Gated k script) (hstart : s.Starting) (ok : Bool)
    (hall : if ok then s.AllReady k else s.Broken k ∧ s.AllStopped k) :
    Gated k script { s with gate := s.gate.countGo, client := .started ok } := by
  obtain ⟨hstarted, hok, hgo⟩ := hstart
  have hgate : s.gate.countGo = { s.gate with go := 0 } := by
    simp [StartGate.countGo, hgo]
  have huntouched := h.untouched fun hopen => by
    rw [hgo] at hopen
    cases hopen.1
  rw [hgate]
  refine { h with
    fresh := ?_
    running := fun _ _ _ => rfl
    opened := ?_
    untouched := fun _ => huntouched
    point := ?_ }
  · intro hnot
    change s.started = false at hnot
    rw [hstarted] at hnot
    cases hnot
  · intro _
    cases ok
    · exact Or.inr hall
    · exact Or.inl hall
  · cases ok
    · exact ⟨hstarted, hok, rfl, hall.1⟩
    · exact ⟨hstarted, hok, rfl, hall⟩

theorem createFeed (h : s.Gated k script) (hpc : s.client = .createFeed) :
    Gated k script { s with
      feedThread := .pin, feedJoinable := true, client := .createBuilder 0 } := by
  have hpoint := h.point
  rw [hpc] at hpoint
  obtain ⟨hstart, hbuilders, hcreated⟩ := hpoint
  have hstage : stage { s with
      feedThread := .pin, feedJoinable := true, client := .createBuilder 0 } =
      Function.update s.stage 0 .pin := by
    funext t
    cases t <;> rfl
  exact h.create (Nat.succ_pos _) ((hcreated 0 (Nat.succ_pos _)).mpr le_rfl) hstart.2.2
    hstart.1 hstage rfl rfl ⟨hstart, hbuilders, created_update hcreated hstage⟩

theorem createBuilder (h : s.Gated k script) {i : ℕ} (hpc : s.client = .createBuilder i)
    (hi : i < 2 ^ k) :
    Gated k script { s with
      bbThread := Function.update s.bbThread i .pin
      bbJoinable := Function.update s.bbJoinable i true
      threads := i + 1
      client := .createBuilder (i + 1) } := by
  have hpoint := h.point
  rw [hpc] at hpoint
  obtain ⟨hstart, hbuilders, hcreated⟩ := hpoint
  have hstage : stage { s with
      bbThread := Function.update s.bbThread i .pin
      bbJoinable := Function.update s.bbJoinable i true
      threads := i + 1
      client := .createBuilder (i + 1) } = Function.update s.stage (i + 1) .pin := by
    funext t
    cases t with
    | zero => rfl
    | succ t => simp [stage, Function.update_apply]
  exact h.create (by omega) ((hcreated (i + 1) (by omega)).mpr le_rfl) hstart.2.2
    hstart.1 hstage rfl rfl ⟨hstart, hbuilders, created_update hcreated hstage⟩

theorem client (h : s.Gated k script) (hmove : ClientMove k s s') : s'.Gated k script := by
  have hpoint := h.point
  cases hmove with
  | makeBuilder hpc hi =>
      rw [hpc] at hpoint
      obtain ⟨hstart, hcreated, -, -⟩ := hpoint
      exact { h with
        fresh := fun hnot => by
          rw [hstart.1] at hnot
          cases hnot
        point := ⟨hstart, hcreated, rfl, hi⟩ }
  | makeFailed hpc =>
      rw [hpc] at hpoint
      obtain ⟨hstart, hcreated, -, -⟩ := hpoint
      exact { h with
        point := fun _ => Or.inr ⟨hstart.2.1, broken_of_created hcreated (Nat.succ_pos _)⟩ }
  | made hpc hi =>
      rw [hpc] at hpoint
      obtain ⟨hstart, hcreated, hbuilders, hle⟩ := hpoint
      exact { h with
        point := ⟨hstart, hbuilders.trans (le_antisymm hle (not_lt.mp hi)), hcreated⟩ }
  | createFeed hpc => exact h.createFeed hpc
  | createFailed hpc =>
      obtain ⟨hstart, hbuilders, hbroken⟩ :
          s.Starting ∧ s.builders = 2 ^ k ∧ s.Broken k := by
        rcases hpc with hpc | ⟨i, hi, hpc⟩
        · rw [hpc] at hpoint
          exact ⟨hpoint.1, hpoint.2.1, broken_of_created hpoint.2.2 (Nat.succ_pos _)⟩
        · rw [hpc] at hpoint
          exact ⟨hpoint.1, hpoint.2.1, broken_of_created hpoint.2.2 (by omega)⟩
      exact { h with point := ⟨hstart, hbuilders, hbroken⟩ }
  | createBuilder hpc hi => exact h.createBuilder hpc hi
  | created hpc hi =>
      rw [hpc] at hpoint
      obtain ⟨hstart, hbuilders, hcreated⟩ := hpoint
      refine { h with point := ⟨hstart, hbuilders, fun t ht => ?_⟩ }
      change s.stage t = .absent ↔ _
      rw [hcreated t ht]
      omega
  | ready hpc hready =>
      rw [hpc] at hpoint
      exact { h with point := ⟨hpoint.1, hpoint.2.1, hready⟩ }
  | failed hpc hfailed =>
      rw [hpc] at hpoint
      exact { h with point := ⟨hpoint.1, hpoint.2.1, h.broken_of_failed hfailed⟩ }
  | unfailed hpc hfailed =>
      rw [hpc] at hpoint
      exact { h with point := ⟨hpoint.1, h.allReady_of_unfailed hpoint.2.2 hfailed⟩ }
  | go hpc =>
      rw [hpc] at hpoint
      exact h.countGo hpoint.1 true hpoint.2
  | abortFeed hpc =>
      rw [hpc] at hpoint
      obtain ⟨hstart, hbuilders, hbroken⟩ := hpoint
      exact { h.stopFeed with
        point := ⟨hstart, hbuilders, hbroken, rfl, fun b hb => absurd hb (Nat.not_lt_zero b)⟩ }
  | @abortBuilder i hpc hi =>
      rw [hpc] at hpoint
      obtain ⟨hstart, hbuilders, hbroken, hfeed, hflags⟩ := hpoint
      refine { h.stopBuilder i with point := ⟨hstart, hbuilders, hbroken, hfeed, ?_⟩ }
      intro b hb
      change Function.update s.pipe.builderStop i true b = true
      by_cases hbi : b = i
      · simp [hbi]
      · simpa [hbi] using hflags b (by omega)
  | abortedBuilders hpc hi =>
      rw [hpc] at hpoint
      obtain ⟨hstart, hbuilders, hbroken, hfeed, hflags⟩ := hpoint
      exact { h with
        point := ⟨hstart, hbroken, hfeed, fun b hb => hflags b (by omega)⟩ }
  | abortGo hpc =>
      rw [hpc] at hpoint
      exact h.countGo hpoint.1 false hpoint.2
  | @returned ok hpc =>
      rw [hpc] at hpoint
      obtain ⟨hstarted, hok, hgo, hall⟩ := hpoint
      refine { h with fresh := fun hnot => ?_, point := fun _ => ?_ }
      · change s.started = false at hnot
        rw [hstarted] at hnot
        cases hnot
      · cases ok
        · exact Or.inr ⟨rfl, hall⟩
        · exact Or.inl ⟨rfl, hgo, hall⟩
  | stopFeed hpc =>
      rw [hpc] at hpoint
      exact { h.stopFeed with point := hpoint }
  | joinFeed hpc | skipFeed hpc | stoppedBuilders hpc | joinBuilder hpc | skipBuilder hpc =>
      rw [hpc] at hpoint
      exact { h with point := hpoint }
  | @stopBuilder i hpc =>
      rw [hpc] at hpoint
      exact { h.stopBuilder i with point := hpoint }
  | joined hpc =>
      rw [hpc] at hpoint
      refine { h with point := ?_ }
      unfold leave
      cases s.destroying <;> exact hpoint

theorem enter (h : s.Gated k script) (hpc : s.client = .idle) (c : Call) :
    (s.enter c).Gated k script := by
  have hpoint := h.point
  rw [hpc] at hpoint
  unfold FeedHandler.enter
  cases c with
  | start =>
    dsimp only
    split
    · exact h
    · next hnot =>
      obtain ⟨hok, hcreated, hgo, hbuilders⟩ := h.fresh (Bool.eq_false_iff.mpr hnot)
      exact { h with
        fresh := fun hnot' => by cases hnot'
        point := ⟨⟨rfl, hok, hgo⟩, hcreated, hbuilders, Nat.zero_le _⟩ }
  | stopAndWait =>
    dsimp only
    split
    · exact h
    · exact { h with point := hpoint }
  | destroy =>
    dsimp only
    split
    · exact { h with point := hpoint }
    · exact { h with point := hpoint }

theorem loadConfig (h : s.Gated k script) (hpc : s.client = .loadConfig)
    (file : Option ThreadConfig.Stream) (configured : ℤ) :
    (s.loadConfig k path file configured).Gated k script := by
  have hpoint := h.point
  rw [hpc] at hpoint
  obtain ⟨hstart, hbuilders, hcreated⟩ := hpoint
  unfold FeedHandler.loadConfig
  split
  · exact { h with
      point := ⟨hstart, hbuilders, broken_of_created hcreated (Nat.succ_pos _)⟩ }
  · exact { h with point := ⟨hstart, hbuilders, hcreated⟩ }

theorem step (h : s.Gated k script) {a : Act}
    (hstep : s.step k capacity path a = some s') : s'.Gated k script := by
  cases a with
  | call c =>
      rw [FeedHandler.step] at hstep
      split at hstep
      · next hpc =>
        cases hstep
        exact h.enter hpc c
      · cases hstep
  | load file configured =>
      rw [FeedHandler.step] at hstep
      split at hstep
      · next hpc =>
        cases hstep
        exact h.loadConfig hpc file configured
      · cases hstep
  | client ok => exact h.client (clientMove_of_step hstep)
  | feed ok => exact h.feedStep hstep
  | builder b ok =>
      rw [FeedHandler.step] at hstep
      split at hstep
      · next hb => exact h.builderStep hb hstep
      · cases hstep

end Gated

theorem gated_of_reachable (h : (system k capacity path script).Reachable s) :
    s.Gated k script :=
  h.invariant gated_start fun _ _ _ hs hstep => hs.step hstep

/-- In every interleaving, whatever fails: no latch is counted down too often;
the feed reads nothing, and no event is queued or applied, unless all threads
are ready; and `start` returns true exactly if they are. -/
theorem start_all_or_nothing (h : (system k capacity path script).Reachable s) :
    s.gate.misused = false ∧
    (s.AllReady k ∨ s.pipe.Unread script) ∧
    (s.started = true → s.client.inStart = false →
      (s.startOk = true ↔ s.AllReady k)) := by
  have hgated := gated_of_reachable h
  refine ⟨hgated.misused, ?_, ?_⟩
  · by_cases hall : s.AllReady k
    · exact Or.inl hall
    · exact Or.inr (hgated.untouched fun hopen => hall hopen.2).unread
  · intro hstarted hreturned
    have hpoint : s.startOk = true ∧ s.gate.go = 0 ∧ s.AllReady k ∨
        s.startOk = false ∧ s.Broken k := by
      have hpoint := hgated.point
      cases hpc : s.client <;> rw [hpc] at hpoint hreturned <;>
        first | exact hpoint hstarted | cases hreturned
    rcases hpoint with ⟨hok, -, hall⟩ | ⟨hok, hbroken⟩
    · exact ⟨fun _ => hall, fun _ => hok⟩
    · rw [hok]
      exact ⟨fun hok' => absurd hok' (by simp),
        fun hall => absurd hall hbroken.not_allReady⟩

/-- Builder 1 cannot be pinned, while the feed and builder 0 wait at the gate. -/
def unpinnedSchedule : List Act :=
  List.replicate 4 (.client true) ++
    List.replicate 2 (.feed true) ++ List.replicate 2 (.builder 0 true) ++
    [.builder 1 false, .builder 1 true, .builder 1 true] ++
    List.replicate 8 (.client true) ++
    List.replicate 3 (.feed true) ++ List.replicate 3 (.builder 0 true)

theorem step_load_plainFile (s : FeedHandler) (hpc : s.client = .loadConfig) :
    (system 1 capacity "threads.cfg" script).step s
        (.load (some ThreadConfig.plainFile) 8) =
      some { s with client := .createFeed } := by
  have hload : ThreadConfig.load (2 ^ 1) "threads.cfg" (some ThreadConfig.plainFile) 8 =
      .ok ThreadConfig.plainConfig := ThreadConfig.load_plainFile
  simp only [system, step, hpc, if_true, loadConfig, hload]

/-- `start`, up to the configuration that the file has. -/
def startSchedule : List Act :=
  .call .start :: List.replicate 3 (.client true) ++ [.load (some ThreadConfig.plainFile) 8]

/-- The state after `startSchedule`. -/
def configured (script : List Iteration) : FeedHandler :=
  { pipe := { script }, gate := { ready := 3 },
    started := true, builders := 2, client := .createFeed }

theorem run_startSchedule (l : List Act) :
    (system 1 capacity "threads.cfg" script).run
        (system 1 capacity "threads.cfg" script).start (startSchedule ++ l) =
      (system 1 capacity "threads.cfg" script).run (configured script) l := by
  have hbuilt : (system 1 capacity "threads.cfg" script).run
      (system 1 capacity "threads.cfg" script).start
      (.call .start :: List.replicate 3 (.client true)) =
      some { configured script with client := .loadConfig } := rfl
  rw [startSchedule, List.append_assoc, TransitionSystem.run_append, hbuilt, Option.bind_some,
    List.singleton_append, TransitionSystem.run, step_load_plainFile _ rfl]
  rfl

theorem start_all_or_nothing_unpinned :
    ∃ s, (system 1 4 "threads.cfg" Pipeline.sampleScript).Reachable s ∧
      s.client = .idle ∧ s.startOk = false ∧ s.gate.failed = 1 ∧
      s.pipe.Unread Pipeline.sampleScript := by
  obtain ⟨s, hrun, hpc, hstarted, hok, hfailed⟩ :
      ∃ s, (system 1 4 "threads.cfg" Pipeline.sampleScript).run
          (configured Pipeline.sampleScript) unpinnedSchedule = some s ∧
        s.client = .idle ∧ s.started = true ∧ s.startOk = false ∧ s.gate.failed = 1 :=
    ⟨_, rfl, rfl, rfl, rfl, rfl⟩
  have hreach := TransitionSystem.Reachable.start.run
    ((run_startSchedule unpinnedSchedule).trans hrun)
  obtain ⟨-, hread, hreturned⟩ := start_all_or_nothing hreach
  refine ⟨s, hreach, hpc, hok, hfailed, hread.resolve_left fun hall => ?_⟩
  have hok' := (hreturned hstarted (by rw [hpc]; rfl)).mpr hall
  rw [hok] at hok'
  cases hok'

end FeedHandler

end Fastbook

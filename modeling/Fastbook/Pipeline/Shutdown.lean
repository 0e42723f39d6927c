import Fastbook.Pipeline.StartupSafety
import Fastbook.Support.Fairness
import Mathlib.Algebra.BigOperators.Group.Finset.Basic
import Mathlib.Algebra.Order.BigOperators.Group.Finset
import Mathlib.Data.Prod.Lex

/-!
# Every call returns

`start` waits for the threads to arrive at the gate, and `stop_and_wait` for
them to return from `run`.  Under a fair scheduler neither wait lasts forever,
whatever fails on the way: the threads that are waited for exist, and they find
the gate open and their stop flags set.
-/

namespace Fastbook

open Support

namespace FeedHandler

variable {k capacity : ℕ} {path : String} {script : List Iteration}
  {s s' : FeedHandler}

/-! ## What a step of a thread leaves alone -/

structure ThreadFrame (s s' : FeedHandler) : Prop where
  client : s'.client = s.client
  builders : s'.builders = s.builders
  threads : s'.threads = s.threads
  feedJoinable : s'.feedJoinable = s.feedJoinable
  bbJoinable : s'.bbJoinable = s.bbJoinable
  stopped : s'.stopped = s.stopped
  started : s'.started = s.started
  destroying : s'.destroying = s.destroying
  go : s'.gate.go = s.gate.go
  pipe : s.pipe.Frame s'.pipe

/-- Neither the thread of builder `b` nor its place in the loop changes. -/
def SameBuilder (s s' : FeedHandler) (b : ℕ) : Prop :=
  s'.bbThread b = s.bbThread b ∧ s'.pipe.builder b = s.pipe.builder b

theorem SameBuilder.bbDone {b : ℕ} (h : s.SameBuilder s' b) : s'.bbDone b = s.bbDone b := by
  simp only [FeedHandler.bbDone, h.1, h.2]

/-- Neither the feed thread nor its place in the loop changes. -/
def SameFeed (s s' : FeedHandler) : Prop :=
  s'.feedThread = s.feedThread ∧ s'.pipe.feed = s.pipe.feed ∧ s'.pipe.todo = s.pipe.todo

theorem SameFeed.feedDone (h : s.SameFeed s') : s'.feedDone = s.feedDone := by
  simp only [FeedHandler.feedDone, h.1, h.2.1]

/-- A step of the feed thread: up to the gate, or behind it. -/
theorem feedStep_cases {ok : Bool} (hstep : s.feedStep k capacity ok = some s') :
    (∃ pipe, s.feedThread = .running ∧ s.pipe.feedStep k capacity = some pipe ∧
      s' = { s with pipe }) ∨
    (∃ g st, Arrival s.gate s.feedThread g st ∧
      s' = { s with gate := g, feedThread := st }) := by
  unfold feedStep at hstep
  split at hstep
  · next hrun =>
    obtain ⟨pipe, hpipe, rfl⟩ := Option.map_eq_some_iff.mp hstep
    exact Or.inl ⟨pipe, hrun, hpipe, rfl⟩
  · obtain ⟨⟨g, st⟩, harr, rfl⟩ := Option.map_eq_some_iff.mp hstep
    exact Or.inr ⟨g, st, arrival_of_arrive harr, rfl⟩

theorem builderStep_cases {b : ℕ} {ok : Bool} (hstep : s.builderStep b ok = some s') :
    (∃ pipe, s.bbThread b = .running ∧ s.pipe.builderStep b = some pipe ∧
      s' = { s with pipe }) ∨
    (∃ g st, Arrival s.gate (s.bbThread b) g st ∧
      s' = { s with gate := g, bbThread := Function.update s.bbThread b st }) := by
  unfold builderStep at hstep
  split at hstep
  · next hrun =>
    obtain ⟨pipe, hpipe, rfl⟩ := Option.map_eq_some_iff.mp hstep
    exact Or.inl ⟨pipe, hrun, hpipe, rfl⟩
  · obtain ⟨⟨g, st⟩, harr, rfl⟩ := Option.map_eq_some_iff.mp hstep
    exact Or.inr ⟨g, st, arrival_of_arrive harr, rfl⟩

theorem feedStep_frame {ok : Bool} (hstep : s.feedStep k capacity ok = some s') :
    s.ThreadFrame s' ∧ ∀ b, s.SameBuilder s' b := by
  rcases feedStep_cases hstep with ⟨pipe, -, hpipe, rfl⟩ | ⟨g, st, harr, rfl⟩
  · obtain ⟨hframe, hbuilder, -⟩ := (Pipeline.feedMove_of_step hpipe).frame
    exact ⟨⟨rfl, rfl, rfl, rfl, rfl, rfl, rfl, rfl, rfl, hframe⟩,
      fun b => ⟨rfl, congrFun hbuilder b⟩⟩
  · exact ⟨⟨rfl, rfl, rfl, rfl, rfl, rfl, rfl, rfl, harr.go, ⟨fun _ => id, id⟩⟩,
      fun b => ⟨rfl, rfl⟩⟩

theorem builderStep_frame {b : ℕ} {ok : Bool} (hstep : s.builderStep b ok = some s') :
    s.ThreadFrame s' ∧ s.SameFeed s' ∧ ∀ b' ≠ b, s.SameBuilder s' b' := by
  rcases builderStep_cases hstep with ⟨pipe, -, hpipe, rfl⟩ | ⟨g, st, harr, rfl⟩
  · obtain ⟨hframe, hfeed, hbuilder⟩ := (Pipeline.builderMove_of_step hpipe).frame
    exact ⟨⟨rfl, rfl, rfl, rfl, rfl, rfl, rfl, rfl, rfl, hframe⟩,
      ⟨rfl, hfeed⟩, fun b' hb' => ⟨rfl, hbuilder b' hb'⟩⟩
  · exact ⟨⟨rfl, rfl, rfl, rfl, rfl, rfl, rfl, rfl, harr.go, ⟨fun _ => id, id⟩⟩,
      ⟨rfl, rfl, rfl⟩, fun b' hb' => ⟨Function.update_of_ne hb' _ _, rfl⟩⟩

/-- A thread that takes a step exists, and has not returned from `run`. -/
theorem feedStep_alive {ok : Bool} (hstep : s.feedStep k capacity ok = some s') :
    s.feedThread ≠ .absent ∧ s'.feedThread ≠ .absent ∧ s.feedDone = false := by
  rcases feedStep_cases hstep with ⟨pipe, hrun, hpipe, rfl⟩ | ⟨g, st, harr, rfl⟩
  · simp [feedDone, hrun, (Pipeline.feedMove_of_step hpipe).not_exited]
  · refine ⟨harr.stages.1, harr.stages.2.1, ?_⟩
    generalize hst : s.feedThread = old at harr
    cases harr <;> simp [feedDone, hst]

theorem builderStep_alive {b : ℕ} {ok : Bool} (hstep : s.builderStep b ok = some s') :
    s.bbThread b ≠ .absent ∧ s'.bbThread b ≠ .absent ∧ s.bbDone b = false := by
  rcases builderStep_cases hstep with ⟨pipe, hrun, hpipe, rfl⟩ | ⟨g, st, harr, rfl⟩
  · simp [bbDone, hrun, (Pipeline.builderMove_of_step hpipe).not_exited]
  · refine ⟨harr.stages.1, by simpa using harr.stages.2.1, ?_⟩
    generalize hst : s.bbThread b = old at harr
    cases harr <;> simp [bbDone, hst]

/-! ## Who waits for whom -/

/-- The feed will not push another event. -/
def FeedGone (s : FeedHandler) : Prop :=
  s.feedThread = .absent ∨ s.feedDone = true

/-- What `stop_and_wait` has brought about. -/
def StopAt (s : FeedHandler) : ClientPc → Prop
  | .joinFeed => s.pipe.stopRequested = true
  | .stopBuilders i => s.FeedGone ∧ ∀ b < i, s.pipe.builderStop b = true
  | .joinBuilders _ => s.FeedGone ∧ ∀ b < s.builders, s.pipe.builderStop b = true
  | _ => True

structure Owned (k : ℕ) (s : FeedHandler) : Prop where
  feed : s.feedJoinable = true → s.feedThread ≠ .absent
  feedKept : s.feedThread ≠ .absent → s.feedJoinable = true ∨ s.feedDone = true
  builder : ∀ b, s.bbJoinable b = true → s.bbThread b ≠ .absent
  builderKept : ∀ b, s.bbThread b ≠ .absent →
    b < s.threads ∧ (s.bbJoinable b = true ∨ s.bbDone b = true)
  threads : s.threads ≤ 2 ^ k
  builders : s.builders ≤ 2 ^ k
  built : (∃ t < 2 ^ k + 1, s.stage t ≠ .absent) → s.builders = 2 ^ k
  opened : s.client.inStart = false → (∃ t < 2 ^ k + 1, s.stage t ≠ .absent) →
    s.gate.go = 0
  point : s.StopAt s.client

theorem owned_start : (system k capacity path script).start.Owned k := by
  have hstage : ∀ t, (system k capacity path script).start.stage t = .absent := by
    rintro (_ | t) <;> rfl
  refine ⟨?_, fun h => absurd rfl h, ?_, fun _ h => absurd rfl h, Nat.zero_le _,
    Nat.zero_le _, ?_, ?_, trivial⟩
  · simp [system]
  · simp [system]
  · rintro ⟨t, -, ht⟩
    exact absurd (hstage t) ht
  · rintro - ⟨t, -, ht⟩
    exact absurd (hstage t) ht

@[simp]
theorem stopFeed_client : s.stopFeed.client = s.client :=
  rfl

@[simp]
theorem stopBuilder_client (b : ℕ) : (s.stopBuilder b).client = s.client :=
  rfl

namespace Owned

theorem feedGone_of_not_joinable (h : s.Owned k) (hnot : s.feedJoinable = false) :
    s.FeedGone := by
  by_cases habsent : s.feedThread = .absent
  · exact Or.inl habsent
  · rcases h.feedKept habsent with hjoin | hdone
    · rw [hnot] at hjoin
      cases hjoin
    · exact Or.inr hdone

theorem not_feedGone_of_step {ok : Bool} (hstep : s.feedStep k capacity ok = some s') :
    ¬ s.FeedGone := by
  obtain ⟨halive, -, hdone⟩ := feedStep_alive hstep
  rintro (habsent | hdone')
  · exact halive habsent
  · rw [hdone] at hdone'
    cases hdone'

theorem stage_absent_of_feedStep {ok : Bool} (hstep : s.feedStep k capacity ok = some s')
    (t : ℕ) : s'.stage t = .absent ↔ s.stage t = .absent := by
  obtain ⟨halive, halive', -⟩ := feedStep_alive hstep
  cases t with
  | zero => exact iff_of_false halive' halive
  | succ b => rw [stage, stage, ((feedStep_frame hstep).2 b).1]

theorem stage_absent_of_builderStep {b : ℕ} {ok : Bool}
    (hstep : s.builderStep b ok = some s') (t : ℕ) :
    s'.stage t = .absent ↔ s.stage t = .absent := by
  obtain ⟨halive, halive', -⟩ := builderStep_alive hstep
  obtain ⟨-, hfeed, hothers⟩ := builderStep_frame hstep
  cases t with
  | zero => rw [stage, stage, hfeed.1]
  | succ b' =>
      by_cases hb : b' = b
      · subst hb
        exact iff_of_false halive' halive
      · rw [stage, stage, (hothers b' hb).1]

/-- A step of a thread, from what it does to the feed and to the builders. -/
theorem threadStep (h : s.Owned k) (hframe : s.ThreadFrame s')
    (habsent : ∀ t, s'.stage t = .absent ↔ s.stage t = .absent)
    (hfeed : s.feedDone = true → s'.feedDone = true)
    (hbuilder : ∀ b, s.bbDone b = true → s'.bbDone b = true) : s'.Owned k := by
  have hgone : s.FeedGone → s'.FeedGone := by
    rintro (hfeedAbsent | hdone)
    · exact Or.inl ((habsent 0).mpr hfeedAbsent)
    · exact Or.inr (hfeed hdone)
  have hexists : (∃ t < 2 ^ k + 1, s'.stage t ≠ .absent) →
      ∃ t < 2 ^ k + 1, s.stage t ≠ .absent := by
    rintro ⟨t, ht, hst⟩
    exact ⟨t, ht, fun h => hst ((habsent t).mpr h)⟩
  refine ⟨?_, ?_, ?_, ?_, ?_, ?_, ?_, ?_, ?_⟩
  · rw [hframe.feedJoinable]
    exact fun hjoin habs => h.feed hjoin ((habsent 0).mp habs)
  · rw [hframe.feedJoinable]
    intro hst
    exact (h.feedKept fun habs => hst ((habsent 0).mpr habs)).imp_right hfeed
  · rw [hframe.bbJoinable]
    exact fun b hjoin habs => h.builder b hjoin ((habsent (b + 1)).mp habs)
  · rw [hframe.bbJoinable, hframe.threads]
    intro b hst
    obtain ⟨hlt, hkept⟩ := h.builderKept b fun habs => hst ((habsent (b + 1)).mpr habs)
    exact ⟨hlt, hkept.imp_right (hbuilder b)⟩
  · rw [hframe.threads]
    exact h.threads
  · rw [hframe.builders]
    exact h.builders
  · rw [hframe.builders]
    exact fun hst => h.built (hexists hst)
  · rw [hframe.client, hframe.go]
    exact fun hpc hst => h.opened hpc (hexists hst)
  · have hpoint := h.point
    rw [hframe.client]
    generalize s.client = pc at hpoint
    cases pc with
    | joinFeed => exact hframe.pipe.stopRequested hpoint
    | stopBuilders i =>
        exact ⟨hgone hpoint.1, fun b hb => hframe.pipe.builderStop b (hpoint.2 b hb)⟩
    | joinBuilders i =>
        refine ⟨hgone hpoint.1, ?_⟩
        rw [hframe.builders]
        exact fun b hb => hframe.pipe.builderStop b (hpoint.2 b hb)
    | _ => trivial

theorem feedStep (h : s.Owned k) {ok : Bool}
    (hstep : s.feedStep k capacity ok = some s') : s'.Owned k := by
  obtain ⟨hframe, hbuilders⟩ := feedStep_frame hstep
  refine h.threadStep hframe (stage_absent_of_feedStep hstep) ?_ ?_
  · rw [(feedStep_alive hstep).2.2]
    intro hdone
    cases hdone
  · intro b hdone
    rwa [(hbuilders b).bbDone]

theorem builderStep (h : s.Owned k) {b : ℕ} {ok : Bool}
    (hstep : s.builderStep b ok = some s') : s'.Owned k := by
  obtain ⟨hframe, hfeed, hothers⟩ := builderStep_frame hstep
  refine h.threadStep hframe (stage_absent_of_builderStep hstep) ?_ ?_
  · rw [hfeed.feedDone]
    exact id
  · intro b' hdone
    by_cases hb : b' = b
    · subst hb
      rw [(builderStep_alive hstep).2.2] at hdone
      cases hdone
    · rwa [(hothers b' hb).bbDone]

/-- A step within `start` that creates nothing. -/
theorem inStart (h : s.Owned k) (pc : ClientPc) (hpc : pc.inStart = true) :
    Owned k { s with client := pc } := by
  refine { h with opened := fun hnot => ?_, point := ?_ }
  · change pc.inStart = false at hnot
    rw [hpc] at hnot
    cases hnot
  · change StopAt _ pc
    cases pc with
    | joinFeed | stopBuilders | joinBuilders => cases hpc
    | _ => trivial

/-- A step of `stop_and_wait`. -/
theorem notInStart (h : s.Owned k) (pc : ClientPc) (hpc : s.client.inStart = false)
    (hpoint : StopAt { s with client := pc } pc) : Owned k { s with client := pc } :=
  { h with opened := fun _ => h.opened hpc, point := hpoint }

theorem stopFlags (h : s.Owned k) {pipe : Pipeline} (hfeed : pipe.feed = s.pipe.feed)
    (hbuilder : pipe.builder = s.pipe.builder) (hframe : s.pipe.Frame pipe) :
    Owned k { s with pipe } := by
  refine h.threadStep ⟨rfl, rfl, rfl, rfl, rfl, rfl, rfl, rfl, rfl, hframe⟩
    (fun t => by cases t <;> rfl) ?_ ?_
  · simp only [feedDone, hfeed]
    exact id
  · simp only [bbDone, hbuilder]
    exact fun _ => id

theorem stopFeed (h : s.Owned k) : s.stopFeed.Owned k :=
  h.stopFlags rfl rfl ⟨fun _ => id, fun _ => rfl⟩

theorem stopBuilder (h : s.Owned k) (b : ℕ) : (s.stopBuilder b).Owned k := by
  refine h.stopFlags rfl rfl ⟨fun b' hb' => ?_, id⟩
  by_cases hb : b' = b
  · simp [hb]
  · simpa [hb] using hb'

theorem client (h : s.Owned k) (hgated : s.Gated k script) (hmove : ClientMove k s s') :
    s'.Owned k := by
  have hat := hgated.point
  have hpoint := h.point
  cases hmove with
  | @makeBuilder i hpc hi =>
      rw [hpc] at hat
      have hnone : ¬ ∃ t < 2 ^ k + 1, s.stage t ≠ .absent := by
        rintro ⟨t, ht, hst⟩
        exact hst ((hat.2.1 t ht).mpr (Nat.zero_le t))
      exact { h.inStart (.makeBuilders (i + 1)) rfl with
        builders := hi, built := fun hst => absurd hst hnone }
  | makeFailed hpc =>
      rw [hpc] at hat
      refine { h with opened := fun _ => ?_, point := trivial }
      rintro ⟨t, ht, hst⟩
      exact absurd ((hat.2.1 t ht).mpr (Nat.zero_le t)) hst
  | made | createFailed | created | ready | failed | unfailed | abortedBuilders =>
      exact h.inStart _ rfl
  | createFeed hpc =>
      rw [hpc] at hat
      exact { h with
        feed := fun _ => by simp
        feedKept := fun _ => Or.inl rfl
        built := fun _ => hat.2.1
        opened := fun hnot => by cases hnot
        point := trivial }
  | @createBuilder i hpc hi =>
      rw [hpc] at hat
      refine { h with
        builder := ?_
        builderKept := ?_
        threads := hi
        built := fun _ => hat.2.1
        opened := fun hnot => by cases hnot
        point := trivial }
      · intro b hjoin
        by_cases hb : b = i
        · simp [hb]
        · simp only [Function.update_of_ne hb] at hjoin ⊢
          exact h.builder b hjoin
      · intro b hst
        by_cases hb : b = i
        · simp [hb]
        · simp only [Function.update_of_ne hb] at hst ⊢
          obtain ⟨hlt, hkept⟩ := h.builderKept b hst
          -- the threads before this one are those with smaller numbers
          have hbi : ¬ i + 1 ≤ b + 1 := fun hle =>
            hst ((hat.2.2 (b + 1) (by have := h.threads; omega)).mpr hle)
          refine ⟨by omega, ?_⟩
          simpa [bbDone, hb] using hkept
  | go | abortGo =>
      exact { h with
        opened := fun hnot => by cases hnot
        point := trivial }
  | abortFeed hpc => exact h.stopFeed.inStart _ rfl
  | @abortBuilder i hpc => exact (h.stopBuilder i).inStart _ rfl
  | returned hpc =>
      rw [hpc] at hat
      exact { h with opened := fun _ _ => hat.2.2.1, point := trivial }
  | stopFeed hpc => exact h.stopFeed.notInStart _ (by rw [stopFeed_client, hpc]; rfl) rfl
  | joinFeed hpc hdone =>
      have hgone : s.FeedGone := Or.inr hdone
      exact { h with
        feed := fun hjoin => by cases hjoin
        feedKept := fun _ => Or.inr hdone
        opened := fun _ => h.opened (by rw [hpc]; rfl)
        point := ⟨hgone, fun b hb => absurd hb (Nat.not_lt_zero b)⟩ }
  | skipFeed hpc hnot =>
      exact h.notInStart _ (by rw [hpc]; rfl)
        ⟨h.feedGone_of_not_joinable hnot, fun b hb => absurd hb (Nat.not_lt_zero b)⟩
  | @stopBuilder i hpc =>
      have hpoint' := (h.stopBuilder i).point
      rw [stopBuilder_client, hpc] at hpoint'
      refine (h.stopBuilder i).notInStart _ (by rw [stopBuilder_client, hpc]; rfl)
        ⟨hpoint'.1, fun b hb => ?_⟩
      by_cases hbi : b = i
      · simp [FeedHandler.stopBuilder, hbi]
      · exact hpoint'.2 b (by omega)
  | stoppedBuilders hpc hi =>
      rw [hpc] at hpoint
      exact h.notInStart _ (by rw [hpc]; rfl)
        ⟨hpoint.1, fun b hb => hpoint.2 b (lt_of_lt_of_le hb (not_lt.mp hi))⟩
  | @joinBuilder i hpc hi hdone =>
      rw [hpc] at hpoint
      refine { h with
        builder := ?_
        builderKept := ?_
        opened := fun _ => h.opened (by rw [hpc]; rfl)
        point := hpoint }
      · intro b hjoin
        by_cases hb : b = i
        · simp [hb] at hjoin
        · exact h.builder b (by simpa [hb] using hjoin)
      · intro b hst
        obtain ⟨hlt, hkept⟩ := h.builderKept b hst
        refine ⟨hlt, ?_⟩
        by_cases hb : b = i
        · exact Or.inr (hb ▸ hdone)
        · exact hkept.imp_left fun hjoin => by simpa [hb] using hjoin
  | skipBuilder hpc =>
      rw [hpc] at hpoint
      exact h.notInStart _ (by rw [hpc]; rfl) hpoint
  | joined hpc =>
      refine h.notInStart _ (by rw [hpc]; rfl) ?_
      cases s.destroying <;> trivial

theorem enter (h : s.Owned k) (hpc : s.client = .idle) (c : Call) : (s.enter c).Owned k := by
  have hstart : s.client.inStart = false := by rw [hpc]; rfl
  unfold FeedHandler.enter
  cases c with
  | start =>
    dsimp only
    split
    · exact h
    · exact { h.inStart (.makeBuilders 0) rfl with }
  | stopAndWait =>
    dsimp only
    split
    · exact h
    · exact { h.notInStart (.stopFeed) hstart trivial with }
  | destroy =>
    dsimp only
    split
    · exact { h.notInStart (.destroyed) hstart trivial with }
    · exact { h.notInStart (.stopFeed) hstart trivial with }

theorem loadConfig (h : s.Owned k) (file : Option ThreadConfig.Stream) (configured : ℤ) :
    (s.loadConfig k path file configured).Owned k := by
  unfold FeedHandler.loadConfig
  split
  · exact h.inStart _ rfl
  · exact h.inStart _ rfl

theorem step (h : s.Owned k) (hgated : s.Gated k script) {a : Act}
    (hstep : s.step k capacity path a = some s') : s'.Owned k := by
  cases a with
  | call c =>
      rw [FeedHandler.step] at hstep
      split at hstep
      · next hpc =>
        cases hstep
        exact h.enter hpc c
      · cases hstep
  | load file configured =>
      rw [FeedHandler.step] at hstep
      split at hstep
      · cases hstep
        exact h.loadConfig file configured
      · cases hstep
  | client ok => exact h.client hgated (clientMove_of_step hstep)
  | feed ok => exact h.feedStep hstep
  | builder b ok =>
      rw [FeedHandler.step] at hstep
      split at hstep
      · exact h.builderStep hstep
      · cases hstep

end Owned

theorem owned_of_reachable (h : (system k capacity path script).Reachable s) : s.Owned k := by
  have hboth : s.Gated k script ∧ s.Owned k :=
    h.invariant (P := fun s => s.Gated k script ∧ s.Owned k) ⟨gated_start, owned_start⟩
      fun _ _ _ hs hstep => ⟨hs.1.step hstep, hs.2.step hs.1 hstep⟩
  exact hboth.2

end FeedHandler

/-! ## How far a thread is from its end -/

/-- The steps to the gate, or to the exit of a thread that fails. -/
def Stage.rank : Stage → ℕ
  | .pin => 3
  | .ready | .failed => 2
  | .wait | .failedReady => 1
  | .absent | .running | .exited => 0

theorem Arrival.rank_lt {g g' : StartGate} {st st' : Stage} (h : Arrival g st g' st') :
    st'.rank < st.rank := by
  cases h <;> simp [Stage.rank]

namespace Pipeline

variable {k capacity : ℕ} {s s' : Pipeline}

/-- The steps that the feed takes at most once it has been stopped. -/
def feedRank (s : Pipeline) : ℕ :=
  match s.feed with
  | .exited => 0
  | .finish => 1
  | .loop => 2
  | .emit => 4 * s.todo.length + 3
  | .check _ => 4 * s.todo.length + 4
  | .spin _ => 4 * s.todo.length + 5
  | .push _ => 4 * s.todo.length + 6

theorem feedRank_lt (hstep : s.feedStep k capacity = some s')
    (hstop : s.stopRequested = true) : s'.feedRank < s.feedRank := by
  unfold feedStep at hstep
  cases hpc : s.feed with
  | loop =>
      simp only [hpc, hstop, if_true, Option.some.injEq] at hstep
      subst hstep
      simp [feedRank, hpc]
  | emit =>
      simp only [hpc] at hstep
      split at hstep
      · next e todo htodo =>
        cases hstep
        simp [feedRank, hpc, htodo]
        omega
      · next htodo =>
        split at hstep <;> cases hstep <;> simp [feedRank, hpc]
  | push e =>
      simp only [hpc, pushEvent, Option.some.injEq] at hstep
      split at hstep <;> cases hstep <;> simp [feedRank, hpc]
  | spin e =>
      simp only [hpc, pushEvent, Option.some.injEq] at hstep
      split at hstep <;> cases hstep <;> simp [feedRank, hpc]
  | check e =>
      simp only [hpc, hstop, if_true, Option.some.injEq] at hstep
      subst hstep
      simp [feedRank, hpc]
  | finish =>
      simp only [hpc, Option.some.injEq] at hstep
      subst hstep
      simp [feedRank, hpc]
  | exited =>
      simp only [hpc] at hstep
      cases hstep

/-- The steps that builder `b` takes at most once it has been stopped, if no
event is pushed any more. -/
def builderRank (s : Pipeline) (b : ℕ) : ℕ :=
  match s.builder b with
  | .exited => 0
  | .drain => 2 * (s.queue b).length + 1
  | .loop | .drainHandle _ => 2 * (s.queue b).length + 2
  | .pop | .handle _ => 2 * (s.queue b).length + 3

theorem builderRank_lt {b : ℕ} (hstep : s.builderStep b = some s')
    (hstop : s.builderStop b = true) : s'.builderRank b < s.builderRank b := by
  unfold builderStep at hstep
  cases hpc : s.builder b with
  | loop =>
      simp only [hpc, hstop, if_true, Option.some.injEq] at hstep
      subst hstep
      simp [builderRank, setBuilder, hpc]
  | pop | drain =>
      simp only [hpc, popEvent, Option.some.injEq] at hstep
      split at hstep
      · next hqueue =>
        subst hstep
        simp [builderRank, setBuilder, hpc, hqueue]
      · next e rest hqueue =>
        subst hstep
        simp only [builderRank, setBuilder, hpc, hqueue, Function.update_self,
          List.length_cons]
        omega
  | handle e | drainHandle e =>
      simp only [hpc, Option.some.injEq] at hstep
      subst hstep
      simp [builderRank, setBuilder, handleEvent, hpc]
  | exited =>
      simp only [hpc] at hstep
      cases hstep

theorem feedStep_ne_none (hstop : s.stopRequested = true) (hpc : s.feed ≠ .exited) :
    s.feedStep k capacity ≠ none := by
  unfold feedStep
  split
  · simp [hstop]
  · split
    · simp
    · split <;> simp
  · simp
  · simp
  · split <;> simp
  · simp
  · next hexited => exact absurd hexited hpc

theorem builderStep_ne_none {b : ℕ} (hpc : s.builder b ≠ .exited) :
    s.builderStep b ≠ none := by
  unfold builderStep
  split
  · split <;> simp
  · simp
  · simp
  · simp
  · simp
  · next hexited => exact absurd hexited hpc

theorem BuilderMove.queue {b : ℕ} (h : BuilderMove s b s') {b' : ℕ} (hb : b' ≠ b) :
    s'.queue b' = s.queue b' := by
  cases h <;> simp [setBuilder, handleEvent, hb]

end Pipeline

/-! ## How far a call is from its end -/

/-- The steps that the client itself takes at most, with `n` builders. -/
def ClientPc.rank (n : ℕ) : ClientPc → ℕ
  | .idle | .destroyed => 0
  | .started _ => 1
  | .abortGo | .countGo => 2
  | .abortBuilders i => 3 + (n - i)
  | .abortFeed => 4 + n
  | .loadFailed => 5 + n
  | .waitReady => 6 + n
  | .createBuilder i => 7 + n + (n - i)
  | .createFeed => 8 + 2 * n
  | .loadConfig => 9 + 2 * n
  | .makeBuilders i => 10 + 2 * n + (n - i)
  | .joinBuilders i => 1 + (n - i)
  | .stopBuilders i => 2 + n + (n - i)
  | .joinFeed => 3 + 2 * n
  | .stopFeed => 4 + 2 * n

/-- No call is under way. -/
def ClientPc.Out (pc : ClientPc) : Prop :=
  pc = .idle ∨ pc = .destroyed

namespace FeedHandler

variable {k capacity : ℕ} {path : String} {script : List Iteration}
  {s s' : FeedHandler}

theorem ClientMove.rank_lt (h : ClientMove k s s') (howned : s.Owned k) :
    s'.client.rank (2 ^ k) < s.client.rank (2 ^ k) := by
  have hthreads := howned.threads
  have hbuilders := howned.builders
  cases h with
  | createFailed hpc =>
      rcases hpc with hpc | ⟨i, hi, hpc⟩ <;> simp only [hpc, ClientPc.rank] <;> omega
  | joined hpc =>
      unfold leave
      rw [hpc]
      cases s.destroying <;> simp [ClientPc.rank]
  | makeBuilder hpc | makeFailed hpc | made hpc | createFeed hpc | createBuilder hpc
  | created hpc | ready hpc | failed hpc | unfailed hpc | go hpc | abortFeed hpc
  | abortBuilder hpc | abortedBuilders hpc | abortGo hpc | returned hpc | stopFeed hpc
  | joinFeed hpc | skipFeed hpc | stopBuilder hpc | stoppedBuilders hpc | joinBuilder hpc
  | skipBuilder hpc =>
      simp only [hpc, ClientPc.rank]
      omega

/-- The steps of the feed thread, and of the thread of builder `b`. -/
def feedRank (s : FeedHandler) : ℕ :=
  s.feedThread.rank + s.pipe.feedRank

@[inherit_doc feedRank]
def bbRank (s : FeedHandler) (b : ℕ) : ℕ :=
  (s.bbThread b).rank + s.pipe.builderRank b

/-- The steps that others take at most before the client goes on. -/
def waitRank (k : ℕ) (s : FeedHandler) : ℕ :=
  match s.client with
  | .waitReady => ∑ t ∈ Finset.range (2 ^ k + 1), (s.stage t).rank
  | .joinFeed => s.feedRank
  | .joinBuilders i => s.bbRank i
  | _ => 0

/-- Thread 0 is the feed, as in `stage`. -/
def threadAt : ℕ → Pipeline.Thread
  | 0 => .feed
  | b + 1 => .builder b

/-- The thread whose step brings the call nearer to its end. -/
def waitsFor (k : ℕ) (s : FeedHandler) : Pipeline.Thread :=
  match s.client with
  | .waitReady =>
    match (List.range (2 ^ k + 1)).find? fun t => ¬ (s.stage t).Counted with
    | some t => threadAt t
    | none => .controller
  | .joinFeed => if s.feedJoinable && !s.feedDone then .feed else .controller
  | .joinBuilders i => if s.bbJoinable i && !s.bbDone i then .builder i else .controller
  | _ => .controller

/-- Whose step an action is.  That a call is made is up to the client's program. -/
def threadOf : Act → Option Pipeline.Thread
  | .call _ => none
  | .load _ _ => some .controller
  | .client _ => some .controller
  | .feed _ => some .feed
  | .builder b _ => some (.builder b)

/-! ### The steps of the threads -/

/-- While the client waits for the threads to arrive, no thread is behind the
gate. -/
theorem arrival_of_waitReady (hgated : s.Gated k script) (hpc : s.client = .waitReady)
    {t : ℕ} (ht : t < 2 ^ k + 1) : s.stage t ≠ .running := by
  intro hrun
  have hpoint := hgated.point
  rw [hpc] at hpoint
  have hgo := hgated.running t ht hrun
  rw [hpoint.1.2.2] at hgo
  cases hgo

theorem sum_rank_lt {t : ℕ} (ht : t < 2 ^ k + 1) {st : Stage}
    (hstage : s'.stage = Function.update s.stage t st) (hlt : st.rank < (s.stage t).rank) :
    ∑ u ∈ Finset.range (2 ^ k + 1), (s'.stage u).rank <
      ∑ u ∈ Finset.range (2 ^ k + 1), (s.stage u).rank := by
  refine Finset.sum_lt_sum (fun u _ => ?_) ⟨t, Finset.mem_range.mpr ht, ?_⟩
  · rw [hstage]
    by_cases hu : u = t
    · subst hu
      rw [Function.update_self]
      exact hlt.le
    · rw [Function.update_of_ne hu]
  · rwa [hstage, Function.update_self]

theorem feedRank_lt {ok : Bool} (hstep : s.feedStep k capacity ok = some s')
    (hstop : s.pipe.stopRequested = true) : s'.feedRank < s.feedRank := by
  rcases feedStep_cases hstep with ⟨pipe, -, hpipe, rfl⟩ | ⟨g, st, harr, rfl⟩
  · exact Nat.add_lt_add_left (Pipeline.feedRank_lt hpipe hstop) _
  · exact Nat.add_lt_add_right harr.rank_lt _

theorem bbRank_lt {b : ℕ} {ok : Bool} (hstep : s.builderStep b ok = some s')
    (hstop : s.pipe.builderStop b = true) : s'.bbRank b < s.bbRank b := by
  rcases builderStep_cases hstep with ⟨pipe, -, hpipe, rfl⟩ | ⟨g, st, harr, rfl⟩
  · exact Nat.add_lt_add_left (Pipeline.builderRank_lt hpipe hstop) _
  · refine Nat.add_lt_add_right ?_ _
    simpa only [Function.update_self] using harr.rank_lt

theorem bbRank_of_ne {b b' : ℕ} {ok : Bool} (hstep : s.builderStep b ok = some s')
    (hb : b' ≠ b) : s'.bbRank b' = s.bbRank b' := by
  have hsame := (builderStep_frame hstep).2.2 b' hb
  have hqueue : s'.pipe.queue b' = s.pipe.queue b' := by
    rcases builderStep_cases hstep with ⟨pipe, -, hpipe, rfl⟩ | ⟨g, st, -, rfl⟩
    · exact (Pipeline.builderMove_of_step hpipe).queue hb
    · rfl
  simp only [bbRank, Pipeline.builderRank, hsame.1, hsame.2, hqueue]

/-- The thread brings the call nearer to its end, or it is not the one that is
waited for. -/
def Helps (k : ℕ) (s s' : FeedHandler) (t : Pipeline.Thread) : Prop :=
  s'.waitRank k < s.waitRank k ∨
    s'.waitRank k = s.waitRank k ∧ s'.waitsFor k = s.waitsFor k ∧ s.waitsFor k ≠ t

theorem feedStep_helps (hgated : s.Gated k script) (howned : s.Owned k) {ok : Bool}
    (hstep : s.feedStep k capacity ok = some s') : s.Helps k s' .feed := by
  have hframe := (feedStep_frame hstep).1
  have hpoint := howned.point
  have hgone := Owned.not_feedGone_of_step hstep
  cases hpc : s.client with
  | waitReady =>
      refine Or.inl ?_
      simp only [waitRank, hframe.client, hpc]
      rcases feedStep_cases hstep with ⟨pipe, hrun, -, -⟩ | ⟨g, st, harr, rfl⟩
      · exact absurd hrun (arrival_of_waitReady hgated hpc (t := 0) (Nat.succ_pos _))
      · refine sum_rank_lt (t := 0) (Nat.succ_pos _) ?_ harr.rank_lt
        funext t
        cases t <;> rfl
  | joinFeed =>
      rw [hpc] at hpoint
      refine Or.inl ?_
      simp only [waitRank, hframe.client, hpc]
      exact feedRank_lt hstep hpoint
  | joinBuilders i =>
      rw [hpc] at hpoint
      exact absurd hpoint.1 hgone
  | _ =>
      refine Or.inr ⟨?_, ?_, ?_⟩ <;> simp [waitRank, waitsFor, hframe.client, hpc]

theorem builderStep_helps (hgated : s.Gated k script) (howned : s.Owned k) {b : ℕ}
    (hb : b < 2 ^ k) {ok : Bool} (hstep : s.builderStep b ok = some s') :
    s.Helps k s' (.builder b) := by
  obtain ⟨hframe, hfeed, hothers⟩ := builderStep_frame hstep
  have hpoint := howned.point
  cases hpc : s.client with
  | waitReady =>
      refine Or.inl ?_
      simp only [waitRank, hframe.client, hpc]
      rcases builderStep_cases hstep with ⟨pipe, hrun, -, -⟩ | ⟨g, st, harr, rfl⟩
      · exact absurd hrun (arrival_of_waitReady hgated hpc (t := b + 1) (by omega))
      · refine sum_rank_lt (t := b + 1) (by omega) ?_ harr.rank_lt
        funext t
        cases t with
        | zero => rfl
        | succ t => simp [stage, Function.update_apply]
  | joinFeed =>
      refine Or.inr ⟨?_, ?_, ?_⟩
      · simp only [waitRank, hframe.client, hpc, feedRank, Pipeline.feedRank, hfeed.1,
          hfeed.2.1, hfeed.2.2]
      · simp only [waitsFor, hframe.client, hpc, hframe.feedJoinable, hfeed.feedDone]
      · simp only [waitsFor, hpc]
        split <;> simp
  | joinBuilders i =>
      rw [hpc] at hpoint
      by_cases hbi : i = b
      · subst hbi
        refine Or.inl ?_
        simp only [waitRank, hframe.client, hpc]
        refine bbRank_lt hstep (hpoint.2 i ?_)
        rw [howned.built ⟨i + 1, by omega, (builderStep_alive hstep).1⟩]
        exact hb
      · refine Or.inr ⟨?_, ?_, ?_⟩
        · simp only [waitRank, hframe.client, hpc, bbRank_of_ne hstep hbi]
        · simp only [waitsFor, hframe.client, hpc, hframe.bbJoinable,
            (hothers i hbi).bbDone]
        · simp only [waitsFor, hpc]
          split <;> simp [hbi]
  | _ =>
      refine Or.inr ⟨?_, ?_, ?_⟩ <;> simp [waitRank, waitsFor, hframe.client, hpc]

/-- Every step within a call brings it nearer to its end, or leaves the thread
that is waited for to do so. -/
theorem step_helps (hgated : s.Gated k script) (howned : s.Owned k)
    (hbusy : ¬ s.client.Out) {a : Act} (hstep : s.step k capacity path a = some s') :
    s'.client.Out ∨ ¬ s'.client.Out ∧
      (toLex (s'.client.rank (2 ^ k), s'.waitRank k) <
          toLex (s.client.rank (2 ^ k), s.waitRank k) ∨
        toLex (s'.client.rank (2 ^ k), s'.waitRank k) =
            toLex (s.client.rank (2 ^ k), s.waitRank k) ∧
          s'.waitsFor k = s.waitsFor k ∧ threadOf a ≠ some (s.waitsFor k)) := by
  have hclient : s'.client.rank (2 ^ k) < s.client.rank (2 ^ k) →
      toLex (s'.client.rank (2 ^ k), s'.waitRank k) <
        toLex (s.client.rank (2 ^ k), s.waitRank k) :=
    fun hlt => Prod.Lex.toLex_lt_toLex.mpr (Or.inl hlt)
  have hthread : s'.client = s.client → ∀ t, s.Helps k s' t → threadOf a = some t →
      ¬ s'.client.Out ∧
      (toLex (s'.client.rank (2 ^ k), s'.waitRank k) <
          toLex (s.client.rank (2 ^ k), s.waitRank k) ∨
        toLex (s'.client.rank (2 ^ k), s'.waitRank k) =
            toLex (s.client.rank (2 ^ k), s.waitRank k) ∧
          s'.waitsFor k = s.waitsFor k ∧ threadOf a ≠ some (s.waitsFor k)) := by
    rintro hpc t (hlt | ⟨heq, hwaits, hne⟩) ha
    · rw [hpc]
      exact ⟨hbusy, Or.inl (Prod.Lex.toLex_lt_toLex.mpr (Or.inr ⟨rfl, hlt⟩))⟩
    · rw [hpc, heq, ha]
      exact ⟨hbusy, Or.inr ⟨rfl, hwaits, fun h => hne (Option.some.inj h).symm⟩⟩
  by_cases hout : s'.client.Out
  · exact Or.inl hout
  refine Or.inr ?_
  cases a with
  | call c =>
      rw [step] at hstep
      split at hstep
      · next hpc => exact absurd (Or.inl hpc) hbusy
      · cases hstep
  | load file configured =>
      rw [step] at hstep
      split at hstep
      · next hpc =>
        cases hstep
        refine ⟨hout, Or.inl (hclient ?_)⟩
        unfold loadConfig
        split <;> simp only [hpc, ClientPc.rank] <;> omega
      · cases hstep
  | client ok =>
      exact ⟨hout, Or.inl (hclient ((clientMove_of_step hstep).rank_lt howned))⟩
  | feed ok =>
      exact hthread (feedStep_frame hstep).1.client _ (feedStep_helps hgated howned hstep) rfl
  | builder b ok =>
      rw [step] at hstep
      split at hstep
      · next hb =>
        exact hthread (builderStep_frame hstep).1.client _
          (builderStep_helps hgated howned hb hstep) rfl
      · cases hstep

/-! ### The thread that is waited for can go on -/

theorem arrive_ne_none {g : StartGate} {ok : Bool} {st : Stage}
    (hwait : st = .wait → g.go = 0) (habsent : st ≠ .absent) (hrun : st ≠ .running)
    (hexited : st ≠ .exited) : g.arrive ok st ≠ none := by
  cases st with
  | wait => simp [StartGate.arrive, hwait rfl]
  | absent | running | exited => contradiction
  | _ => simp [StartGate.arrive]

theorem feedStep_enabled (hwait : s.feedThread = .wait → s.gate.go = 0)
    (habsent : s.feedThread ≠ .absent)
    (hrun : s.feedThread = .running → s.pipe.stopRequested = true)
    (hdone : s.feedDone = false) : s.feedStep k capacity true ≠ none := by
  unfold feedStep
  split
  · next hst =>
    have hpc : s.pipe.feed ≠ .exited := fun hpc => by simp [feedDone, hst, hpc] at hdone
    simpa using Pipeline.feedStep_ne_none (hrun hst) hpc
  · next hst =>
    simpa using arrive_ne_none hwait habsent hst
      fun hexited => by simp [feedDone, hexited] at hdone

theorem builderStep_enabled {b : ℕ} (hwait : s.bbThread b = .wait → s.gate.go = 0)
    (habsent : s.bbThread b ≠ .absent) (hdone : s.bbDone b = false) :
    s.builderStep b true ≠ none := by
  unfold builderStep
  split
  · next hst =>
    have hpc : s.pipe.builder b ≠ .exited := fun hpc => by simp [bbDone, hst, hpc] at hdone
    simpa using Pipeline.builderStep_ne_none hpc
  · next hst =>
    simpa using arrive_ne_none hwait habsent hst
      fun hexited => by simp [bbDone, hexited] at hdone

theorem arrival_enabled (hgated : s.Gated k script) (hpc : s.client = .waitReady) {t : ℕ}
    (ht : t < 2 ^ k + 1) (hst : ¬ (s.stage t).Counted) :
    ∃ a, threadOf a = some (threadAt t) ∧ s.step k capacity path a ≠ none := by
  have hpoint := hgated.point
  rw [hpc] at hpoint
  have habsent : s.stage t ≠ .absent := fun h => by
    have hle := (hpoint.2.2 t ht).mp h
    omega
  simp only [Stage.Counted, not_or] at hst
  cases t with
  | zero =>
      refine ⟨.feed true, rfl, feedStep_enabled (fun h => absurd h hst.1) habsent
        (fun h => absurd h hst.2.1) ?_⟩
      change s.feedThread ≠ _ ∧ s.feedThread ≠ _ ∧ s.feedThread ≠ _ at hst
      simp [feedDone, hst.2.1, hst.2.2]
  | succ b =>
      refine ⟨.builder b true, rfl, ?_⟩
      rw [step, if_pos (by omega)]
      refine builderStep_enabled (fun h => absurd h hst.1) habsent ?_
      change s.bbThread b ≠ _ ∧ s.bbThread b ≠ _ ∧ s.bbThread b ≠ _ at hst
      simp [bbDone, hst.2.1, hst.2.2]

theorem enabled (hgated : s.Gated k script) (howned : s.Owned k) (hbusy : ¬ s.client.Out) :
    ∃ a, threadOf a = some (s.waitsFor k) ∧ s.step k capacity path a ≠ none := by
  have hpoint := howned.point
  cases hpc : s.client with
  | idle | destroyed => simp [ClientPc.Out, hpc] at hbusy
  | waitReady =>
      simp only [waitsFor, hpc]
      split
      · next t hfind =>
        have ht := List.mem_range.mp (List.mem_of_find?_eq_some hfind)
        exact arrival_enabled hgated hpc ht (by simpa using List.find?_some hfind)
      · next hfind =>
        have hall : Nat.count (fun t => (s.stage t).Counted) (2 ^ k + 1) = 2 ^ k + 1 := by
          refine Nat.count_iff_forall.mpr fun t ht => ?_
          simpa using List.find?_eq_none.mp hfind t (List.mem_range.mpr ht)
        have hready := hgated.ready
        refine ⟨.client true, rfl, ?_⟩
        simp [step, clientStep, hpc, show s.gate.ready = 0 by omega]
  | joinFeed =>
      rw [hpc] at hpoint
      simp only [waitsFor, hpc]
      split
      · next hwaits =>
        obtain ⟨hjoin, hdone⟩ : s.feedJoinable = true ∧ s.feedDone = false := by
          simpa using hwaits
        have habsent := howned.feed hjoin
        exact ⟨.feed true, rfl, feedStep_enabled
          (fun _ => howned.opened (by rw [hpc]; rfl) ⟨0, Nat.succ_pos _, habsent⟩) habsent
          (fun _ => hpoint) hdone⟩
      · next hwaits =>
        refine ⟨.client true, rfl, ?_⟩
        have hdone : s.feedJoinable = true → s.feedDone = true := by simpa using hwaits
        simp only [step, clientStep, hpc]
        split
        · next hjoin => simp [hdone hjoin]
        · simp
  | joinBuilders i =>
      rw [hpc] at hpoint
      simp only [waitsFor, hpc]
      split
      · next hwaits =>
        obtain ⟨hjoin, hdone⟩ : s.bbJoinable i = true ∧ s.bbDone i = false := by
          simpa using hwaits
        have habsent := howned.builder i hjoin
        have hlt : i < 2 ^ k := (howned.builderKept i habsent).1.trans_le howned.threads
        refine ⟨.builder i true, rfl, ?_⟩
        rw [step, if_pos hlt]
        exact builderStep_enabled
          (fun _ => howned.opened (by rw [hpc]; rfl) ⟨i + 1, by omega, habsent⟩) habsent hdone
      · next hwaits =>
        refine ⟨.client true, rfl, ?_⟩
        have hdone : s.bbJoinable i = true → s.bbDone i = true := by simpa using hwaits
        simp only [step, clientStep, hpc]
        split
        · split
          · next hjoin => simp [hdone hjoin]
          · simp
        · simp
  | loadConfig => exact ⟨.load none 0, by simp [threadOf, waitsFor, hpc], by simp [step, hpc]⟩
  | makeBuilders i | createBuilder i | abortBuilders i | stopBuilders i =>
      refine ⟨.client true, by simp [threadOf, waitsFor, hpc], ?_⟩
      simp only [step, clientStep, hpc, if_true]
      split <;> simp
  | loadFailed =>
      refine ⟨.client true, by simp [threadOf, waitsFor, hpc], ?_⟩
      simp only [step, clientStep, hpc]
      split <;> simp
  | createFeed | countGo | abortFeed | abortGo | started | stopFeed =>
      exact ⟨.client true, by simp [threadOf, waitsFor, hpc], by simp [step, clientStep, hpc]⟩

/-- Under a fair scheduler every call returns: `start`, `stop_and_wait` and the
destructor, whichever threads cannot be created or pinned. -/
theorem call_returns {E : TransitionSystem.Execution (system k capacity path script)}
    (hfair : E.Fair threadOf) (i : ℕ) : ∃ j ≥ i, (E.state j).client.Out := by
  by_cases hout : (E.state i).client.Out
  · exact ⟨i, le_rfl, hout⟩
  · exact hfair.leadsTo (P := fun s => ¬ s.client.Out)
      (fun s => toLex (s.client.rank (2 ^ k), s.waitRank k)) (waitsFor k)
      (fun s a s' hs hbusy hstep =>
        step_helps (gated_of_reachable hs) (owned_of_reachable hs) hbusy hstep)
      (fun s hs hbusy => enabled (gated_of_reachable hs) (owned_of_reachable hs) hbusy) hout

/-- When the handler is destroyed and all threads have returned, nothing moves. -/
theorem step_eq_none (hpc : s.client = .destroyed) (hfeed : s.feedDone = true)
    (hbuilders : ∀ b < 2 ^ k, s.bbDone b = true) (a : Act) :
    s.step k capacity path a = none := by
  rw [Option.eq_none_iff_forall_ne_some]
  intro s' hstep
  cases a with
  | call c => simp [step, hpc] at hstep
  | load file configured => simp [step, hpc] at hstep
  | client ok => simp [step, clientStep, hpc] at hstep
  | feed ok =>
      have halive := (feedStep_alive hstep).2.2
      rw [hfeed] at halive
      cases halive
  | builder b ok =>
      rw [step] at hstep
      split at hstep
      · next hb =>
        have halive := (builderStep_alive hstep).2.2
        rw [hbuilders b hb] at halive
        cases halive
      · cases hstep

/-- A pipeline that starts, and is destroyed when the feed finds the queue of the
third event full. -/
def lifeSchedule : List Act :=
  List.replicate 4 (.client true) ++
    List.replicate 2 (.feed true) ++ List.replicate 2 (.builder 0 true) ++
    List.replicate 2 (.builder 1 true) ++ List.replicate 4 (.client true) ++
    List.replicate 8 (.feed true) ++ [.call .destroy, .client true] ++
    List.replicate 5 (.feed true) ++ List.replicate 4 (.client true) ++
    List.replicate 5 (.builder 0 true) ++ List.replicate 5 (.builder 1 true) ++
    List.replicate 3 (.client true)

theorem call_returns_life :
    ∃ E : TransitionSystem.Execution (system 1 1 "threads.cfg" Pipeline.sampleScript),
      E.Fair threadOf ∧ (E.state 1).client = .makeBuilders 0 ∧
      ∃ j ≥ 1, (E.state j).client.Out := by
  obtain ⟨s, hrun, hpc, hfeed, hb0, hb1⟩ :
      ∃ s, (system 1 1 "threads.cfg" Pipeline.sampleScript).run
          (configured Pipeline.sampleScript) lifeSchedule = some s ∧
        s.client = .destroyed ∧ s.feedDone = true ∧ s.bbDone 0 = true ∧
        s.bbDone 1 = true := ⟨_, rfl, rfl, rfl, rfl, rfl⟩
  have hlife := (run_startSchedule lifeSchedule).trans hrun
  have hbuilders : ∀ b < 2 ^ 1, s.bbDone b = true := by
    intro b hb
    rcases (by omega : b = 0 ∨ b = 1) with rfl | rfl
    · exact hb0
    · exact hb1
  have hfair := TransitionSystem.Execution.fair_ofRun (h := by rw [hlife]; rfl) threadOf hlife
    fun a t _ => step_eq_none hpc hfeed hbuilders a
  exact ⟨_, hfair, rfl, call_returns hfair 1⟩

end FeedHandler

end Fastbook

import Fastbook.Pipeline.EarlyStop

/-!
# The feed gets through

While nobody stops the pipeline, the feed waits in `on_event`
(`feed/venue_feed.hpp`) for room on a full queue.  The builder of that queue pops
an event sooner or later, so under a fair scheduler no event waits forever, and
the feed reads its input to the end.

What is left is measured by a pair: the work of the feed, and the steps until the
queue on which it waits has room.
-/

namespace Fastbook

open Support

namespace Pipeline

variable {k capacity : ℕ} {s s' : Pipeline}

/-! ## The work that is left -/

def scriptWork (script : List Iteration) : ℕ :=
  (script.map fun it => 2 * it.events.length + 2).sum

/-- The steps of the feed, but for those that find a queue full. -/
def work (s : Pipeline) : ℕ :=
  match s.feed with
  | .exited => 0
  | .finish => 1
  | .loop => if s.stopRequested then 2 else 3 + scriptWork s.script
  | .emit => 4 + 2 * s.todo.length + scriptWork s.script
  | .push _ | .spin _ | .check _ => 5 + 2 * s.todo.length + scriptWork s.script

/-- The builder that the feed waits for. -/
def blockedOn (k capacity : ℕ) (s : Pipeline) : Option ℕ :=
  s.feed.pending.head?.bind fun e =>
    if (s.queue (shard k e)).length < capacity then none else some (shard k e)

/-- The steps of builder `b` until its queue is empty, if it stays in its loop. -/
def popRank (s : Pipeline) (b : ℕ) : ℕ :=
  3 * (s.queue b).length +
    match s.builder b with
    | .pop => 1
    | .loop => 2
    | .handle _ => 3
    | _ => 0

/-- The steps until the feed can do some of its work. -/
def blockRank (k capacity : ℕ) (s : Pipeline) : ℕ :=
  match s.blockedOn k capacity with
  | some b => 2 + s.popRank b
  | none =>
    match s.feed with
    | .check _ => 1
    | _ => 0

theorem not_stopRequested_of_between (hstop : s.stopRequested = true → s.feed.between = true)
    (hpc : s.feed.between = false) : s.stopRequested = false := by
  rw [Bool.eq_false_iff]
  intro hflag
  rw [hstop hflag] at hpc
  cases hpc

/-- A step of the feed: some of the work is done, or the push is tried again, or
the queue stays full. -/
theorem feedStep_work (hstep : s.feedStep k capacity = some s')
    (hstop : s.stopRequested = true → s.feed.between = true) :
    s'.work < s.work ∨
    s'.work = s.work ∧
      (s.blockedOn k capacity = none ∧ s'.blockedOn k capacity = none ∧
          s'.blockRank k capacity < s.blockRank k capacity ∨
        ∃ b, s.blockedOn k capacity = some b ∧ s'.blockedOn k capacity = some b ∧
          s'.popRank b = s.popRank b) := by
  unfold feedStep at hstep
  cases hpc : s.feed with
  | loop =>
      simp only [hpc] at hstep
      split at hstep
      · next hflag =>
        cases hstep
        exact Or.inl (by simp [work, hpc, hflag])
      · next hflag =>
        split at hstep
        · cases hstep
        · next it rest hscript =>
          cases hstep
          refine Or.inl ?_
          simp only [work, hpc, hflag, hscript, scriptWork, Iteration.stamped, List.map_cons,
            List.sum_cons, List.length_map]
          simp only [Bool.false_eq_true, if_false]
          omega
  | emit =>
      simp only [hpc] at hstep
      split at hstep
      · next e todo htodo =>
        cases hstep
        refine Or.inl ?_
        simp only [work, hpc, htodo, List.length_cons]
        omega
      · next htodo =>
        have hflag := not_stopRequested_of_between hstop (by rw [hpc]; rfl)
        split at hstep
        · cases hstep
          refine Or.inl ?_
          simp only [work, hpc, if_true]
          omega
        · cases hstep
          refine Or.inl ?_
          simp only [work, hpc, hflag, htodo, Bool.false_eq_true, if_false, List.length_nil]
          omega
  | push e =>
      simp only [hpc, pushEvent, Option.some.injEq] at hstep
      split at hstep
      · cases hstep
        exact Or.inl (by simp [work, hpc])
      · next hfull =>
        cases hstep
        exact Or.inr ⟨by simp [work, hpc], Or.inr ⟨shard k e,
          by simp [blockedOn, FeedPc.pending, hpc, hfull],
          by simp [blockedOn, FeedPc.pending, hfull], rfl⟩⟩
  | spin e =>
      simp only [hpc, pushEvent, Option.some.injEq] at hstep
      split at hstep
      · cases hstep
        exact Or.inl (by simp [work, hpc])
      · next hfull =>
        cases hstep
        exact Or.inr ⟨by simp [work, hpc], Or.inr ⟨shard k e,
          by simp [blockedOn, FeedPc.pending, hpc, hfull],
          by simp [blockedOn, FeedPc.pending, hfull], rfl⟩⟩
  | check e =>
      have hflag := not_stopRequested_of_between hstop (by rw [hpc]; rfl)
      simp only [hpc, hflag, Bool.false_eq_true, if_false, Option.some.injEq] at hstep
      subst hstep
      refine Or.inr ⟨by simp [work, hpc], ?_⟩
      by_cases hroom : (s.queue (shard k e)).length < capacity
      · exact Or.inl ⟨by simp [blockedOn, FeedPc.pending, hpc, hroom],
          by simp [blockedOn, FeedPc.pending, hroom],
          by simp [blockRank, blockedOn, FeedPc.pending, hpc, hroom]⟩
      · exact Or.inr ⟨shard k e, by simp [blockedOn, FeedPc.pending, hpc, hroom],
          by simp [blockedOn, FeedPc.pending, hroom], rfl⟩
  | finish =>
      simp only [hpc, Option.some.injEq] at hstep
      subst hstep
      exact Or.inl (by simp [work, hpc])
  | exited =>
      simp only [hpc] at hstep
      cases hstep

theorem blockRank_of_some {b : ℕ} (h : s.blockedOn k capacity = some b) :
    s.blockRank k capacity = 2 + s.popRank b := by
  rw [blockRank, h]

theorem blockRank_of_none (h : s.blockedOn k capacity = none) :
    s.blockRank k capacity ≤ 1 := by
  rw [blockRank, h]
  dsimp only
  split <;> simp

theorem blockedOn_eq_some {b : ℕ} :
    s.blockedOn k capacity = some b ↔
      (∃ e, s.feed.pending.head? = some e ∧ shard k e = b) ∧
        capacity ≤ (s.queue b).length := by
  simp only [blockedOn, Option.bind_eq_some_iff, Option.ite_none_left_eq_some, not_lt,
    Option.some.injEq]
  constructor
  · rintro ⟨e, he, hfull, rfl⟩
    exact ⟨⟨e, he, rfl⟩, hfull⟩
  · rintro ⟨⟨e, he, rfl⟩, hfull⟩
    exact ⟨e, he, hfull, rfl⟩

/-- The feed never comes to wait for another queue while it has the same event. -/
theorem blockedOn_of_feed {b : ℕ} (hfeed : s'.feed = s.feed)
    (hblocked : s.blockedOn k capacity = some b) :
    s'.blockedOn k capacity = none ∨ s'.blockedOn k capacity = some b := by
  obtain ⟨⟨e, he, rfl⟩, -⟩ := blockedOn_eq_some.mp hblocked
  unfold blockedOn
  rw [hfeed, he, Option.bind_some]
  split
  · exact Or.inl rfl
  · exact Or.inr rfl

/-- A queue that gets shorter does not block the feed. -/
theorem blockedOn_shorter (hfeed : s'.feed = s.feed)
    (hqueue : ∀ b, (s'.queue b).length ≤ (s.queue b).length)
    (hblocked : s.blockedOn k capacity = none) : s'.blockedOn k capacity = none := by
  rw [Option.eq_none_iff_forall_ne_some] at hblocked ⊢
  intro b hb
  obtain ⟨hpending, hfull⟩ := blockedOn_eq_some.mp hb
  rw [hfeed] at hpending
  exact hblocked b (blockedOn_eq_some.mpr ⟨hpending, hfull.trans (hqueue b)⟩)

theorem blockedOn_lt (hk : k < 32) {b : ℕ} (h : s.blockedOn k capacity = some b) :
    b < 2 ^ k := by
  obtain ⟨⟨e, -, rfl⟩, -⟩ := blockedOn_eq_some.mp h
  rw [shard, toNat_shardOf hk]
  exact Nat.mod_lt _ (Nat.two_pow_pos k)

/-- A builder in its loop makes room. -/
theorem builderStep_popRank {b : ℕ} (hstep : s.builderStep b = some s')
    (hnot : (s.builder b).draining = false) (hstop : s.builderStop b = false)
    (hqueue : s.queue b ≠ []) : s'.popRank b < s.popRank b := by
  unfold builderStep at hstep
  cases hpc : s.builder b with
  | loop =>
      simp only [hpc, hstop, Bool.false_eq_true, if_false, Option.some.injEq] at hstep
      subst hstep
      simp [popRank, setBuilder, hpc]
  | pop =>
      simp only [hpc, popEvent, Option.some.injEq] at hstep
      split at hstep
      · next hnil => exact absurd hnil hqueue
      · next e rest hcons =>
        subst hstep
        simp [popRank, setBuilder, hpc, hcons]
        omega
  | handle e =>
      simp only [hpc, Option.some.injEq] at hstep
      subst hstep
      simp [popRank, setBuilder, handleEvent, hpc]
  | drain | drainHandle | exited =>
      rw [hpc] at hnot
      cases hnot

theorem builderStep_queue_le {b : ℕ} (hstep : s.builderStep b = some s') (b' : ℕ) :
    (s'.queue b').length ≤ (s.queue b').length := by
  by_cases hb : b' = b
  · subst hb
    cases builderMove_of_step hstep with
    | pop hpc hqueue => simp [hqueue]
    | _ => simp [setBuilder, handleEvent]
  · rw [(builderMove_of_step hstep).queue hb]

/-- A step of a builder: the feed is not affected, or a queue gets nearer to having
room. -/
theorem builderStep_work {b : ℕ} (hstep : s.builderStep b = some s')
    (hnot : (s.builder b).draining = false) (hstop : s.builderStop b = false)
    (hcap : 0 < capacity) :
    s'.work = s.work ∧
      (s.blockedOn k capacity ≠ some b ∧ s'.blockedOn k capacity = s.blockedOn k capacity ∧
          s'.blockRank k capacity = s.blockRank k capacity ∨
        s.blockedOn k capacity = some b ∧
          (s'.blockedOn k capacity = none ∨
            s'.blockedOn k capacity = some b ∧ s'.popRank b < s.popRank b)) := by
  have hmove := builderMove_of_step hstep
  have hfeed : s'.feed = s.feed := hmove.frame.2.1.1
  have hwork : s'.work = s.work := by
    cases hmove <;> rfl
  refine ⟨hwork, ?_⟩
  cases hblocked : s.blockedOn k capacity with
  | none =>
      have hblocked' := blockedOn_shorter hfeed (builderStep_queue_le hstep) hblocked
      refine Or.inl ⟨by simp, hblocked', ?_⟩
      rw [blockRank, blockRank, hblocked, hblocked', hfeed]
  | some b' =>
      by_cases hb : b' = b
      · subst hb
        refine Or.inr ⟨rfl, ?_⟩
        have hlen := (blockedOn_eq_some.mp hblocked).2
        have hne : s.queue b' ≠ [] := List.length_pos_iff.mp (hcap.trans_le hlen)
        exact (blockedOn_of_feed hfeed hblocked).imp_right fun hstill =>
          ⟨hstill, builderStep_popRank hstep hnot hstop hne⟩
      · have hqueue := hmove.queue hb
        have hblocked' : s'.blockedOn k capacity = some b' := by
          rw [blockedOn_eq_some, hfeed, hqueue]
          exact blockedOn_eq_some.mp hblocked
        refine Or.inl ⟨by simpa using hb, hblocked', ?_⟩
        rw [blockRank_of_some hblocked', blockRank_of_some hblocked, popRank, popRank, hqueue,
          hmove.frame.2.2 b' hb]

/-! ## The input does not run dry -/

/-- The last pass of the feed is the one that stops it. -/
structure Fed (s : Pipeline) : Prop where
  loop : s.feed = .loop → s.stopRequested = false → s.script ≠ []
  exited : s.feed = .exited → s.finished = true

theorem Fed.of_ne (hloop : s.feed ≠ .loop) (hexited : s.feed ≠ .exited) : s.Fed :=
  ⟨fun h => absurd h hloop, fun h => absurd h hexited⟩

theorem fed_of_feedStep (hstep : s.feedStep k capacity = some s') : s'.Fed := by
  unfold Pipeline.feedStep at hstep
  cases hpc : s.feed with
  | loop =>
      simp only [hpc] at hstep
      split at hstep
      · cases hstep
        exact .of_ne (by simp) (by simp)
      · split at hstep
        · cases hstep
        · cases hstep
          exact .of_ne (by simp) (by simp)
  | emit =>
      simp only [hpc] at hstep
      split at hstep
      · cases hstep
        exact .of_ne (by simp) (by simp)
      · split at hstep
        · cases hstep
          exact ⟨fun _ hflag => absurd hflag (by simp), fun hexited => by cases hexited⟩
        · next it rest hscript =>
          cases hstep
          refine ⟨fun _ _ => ?_, fun hexited => by cases hexited⟩
          rw [hscript]
          exact List.cons_ne_nil it rest
  | push e | spin e =>
      simp only [hpc, pushEvent, Option.some.injEq] at hstep
      split at hstep <;> cases hstep <;>
        exact .of_ne (by simp) (by simp)
  | check e =>
      simp only [hpc] at hstep
      split at hstep <;> cases hstep <;>
        exact .of_ne (by simp) (by simp)
  | finish =>
      simp only [hpc, Option.some.injEq] at hstep
      subst hstep
      exact ⟨fun hloop => absurd hloop (by simp), fun _ => rfl⟩
  | exited =>
      simp only [hpc] at hstep
      cases hstep

theorem Fed.builderStep (h : s.Fed) {b : ℕ} (hstep : s.builderStep b = some s') : s'.Fed := by
  cases builderMove_of_step hstep <;> exact { h with }

/-- A feed in its loop can go on. -/
theorem Fed.feedStep_ne_none (h : s.Fed) (hfin : s.finished = false) :
    s.feedStep k capacity ≠ none := by
  unfold Pipeline.feedStep
  cases hpc : s.feed with
  | loop =>
      dsimp only
      split
      · simp
      · next hflag =>
        have hscript := h.loop hpc (Bool.eq_false_iff.mpr hflag)
        split
        · next hnil => exact absurd hnil hscript
        · simp
  | emit =>
      dsimp only
      split
      · simp
      · split <;> simp
  | check e =>
      dsimp only
      split <;> simp
  | exited =>
      rw [h.exited hpc] at hfin
      cases hfin
  | push | spin | finish => simp

end Pipeline

namespace FeedHandler

variable {k capacity : ℕ} {path : String} {script : List Iteration} {s s' : FeedHandler}

theorem fed_step (h : s.pipe.Fed) {a : Act} (hstep : s.step k capacity path a = some s') :
    s'.pipe.Fed := by
  cases a with
  | call c =>
      rw [step] at hstep
      split at hstep
      · cases hstep
        rwa [enter_pipe]
      · cases hstep
  | load file configured =>
      rw [step] at hstep
      split at hstep
      · cases hstep
        rwa [loadConfig_pipe]
      · cases hstep
  | client ok =>
      rcases (clientMove_of_step hstep).pipe with hpipe | hpipe | ⟨i, hpipe⟩
      · rwa [hpipe]
      · rw [hpipe]
        exact ⟨fun _ hflag => absurd hflag (by simp), h.exited⟩
      · rw [hpipe]
        exact { h with }
  | feed ok =>
      rcases feedStep_cases hstep with ⟨pipe, -, hpipe, rfl⟩ | ⟨g, st, -, rfl⟩
      · exact Pipeline.fed_of_feedStep hpipe
      · exact h
  | builder b ok =>
      rw [step] at hstep
      split at hstep
      · rcases builderStep_cases hstep with ⟨pipe, -, hpipe, rfl⟩ | ⟨g, st, -, rfl⟩
        · exact h.builderStep hpipe
        · exact h
      · cases hstep

/-! ## A handler that runs -/

/-- The threads are at the gate or behind it, and nobody has stopped them. -/
structure Runs (k : ℕ) (s : FeedHandler) : Prop where
  ready : s.AllReady k
  opened : s.gate.go = 0
  stop : s.pipe.stopRequested = true → s.pipe.feed.between = true
  kept : ∀ b, s.pipe.builderStop b = false ∧ (s.pipe.builder b).draining = false
  fed : s.pipe.Fed

theorem runs_of_idle (hgated : s.Gated k script) (hdrains : s.Drains k) (hfinishes : s.Finishes k)
    (hfed : s.pipe.Fed) (hidle : s.client = .idle) (hstarted : s.started = true)
    (hok : s.startOk = true) (hfin : s.pipe.finished = false) : s.Runs k := by
  have hpoint := hgated.point
  rw [hidle] at hpoint
  obtain ⟨-, hopen, hready⟩ : s.startOk = true ∧ s.gate.go = 0 ∧ s.AllReady k := by
    refine (hpoint hstarted).resolve_right fun hbad => ?_
    rw [hok] at hbad
    cases hbad.1
  have hflag : ∀ b, s.pipe.builderStop b = false := by
    intro b
    rw [Bool.eq_false_iff]
    intro hstop
    rcases hdrains.stopped b hstop with hbroken | habsent | hdone
    · exact hbroken.not_allReady hready
    · rcases hready 0 (Nat.succ_pos _) with hst | hst <;> rw [stage, habsent] at hst <;> cases hst
    · have hexited : s.pipe.feed = .exited := by
        rcases hready 0 (Nat.succ_pos _) with hst | hst <;> rw [stage] at hst
        · simp [feedDone, hst] at hdone
        · simpa [feedDone, hst] using hdone
      rw [hfed.exited hexited] at hfin
      cases hfin
  refine ⟨hready, hopen, hfinishes.between hgated, fun b => ⟨hflag b, ?_⟩, hfed⟩
  rw [Bool.eq_false_iff]
  intro hdraining
  have hstop := hdrains.draining b hdraining
  rw [hflag b] at hstop
  cases hstop

/-- The steps until the feed can do some of its work. -/
def blockWait (k capacity : ℕ) (s : FeedHandler) : ℕ :=
  match s.pipe.blockedOn k capacity with
  | some b => (s.bbThread b).rank + s.pipe.blockRank k capacity
  | none => s.pipe.blockRank k capacity

theorem blockWait_of_some {b : ℕ} (h : s.pipe.blockedOn k capacity = some b) :
    s.blockWait k capacity = (s.bbThread b).rank + (2 + s.pipe.popRank b) := by
  rw [blockWait, h, ← Pipeline.blockRank_of_some h]

theorem blockWait_of_none (h : s.pipe.blockedOn k capacity = none) :
    s.blockWait k capacity = s.pipe.blockRank k capacity := by
  rw [blockWait, h]

/-- How far the feed is from its end, and from its next piece of work. -/
def runRank (k capacity : ℕ) (s : FeedHandler) : ℕ ×ₗ ℕ :=
  toLex (s.feedThread.rank + s.pipe.work, s.blockWait k capacity)

/-- The thread that the feed needs. -/
def runsFor (k capacity : ℕ) (s : FeedHandler) : Pipeline.Thread :=
  match s.pipe.blockedOn k capacity with
  | some b => .builder b
  | none => .feed

/-- The step of the thread brings the feed nearer to its end, or another thread is
needed for that. -/
def Advances (k capacity : ℕ) (s s' : FeedHandler) (t : Pipeline.Thread) : Prop :=
  s'.runRank k capacity < s.runRank k capacity ∨
    s'.runRank k capacity = s.runRank k capacity ∧
      s'.runsFor k capacity = s.runsFor k capacity ∧ s.runsFor k capacity ≠ t

theorem advances_of_work {t : Pipeline.Thread}
    (h : s'.feedThread.rank + s'.pipe.work < s.feedThread.rank + s.pipe.work) :
    s.Advances k capacity s' t :=
  Or.inl (Prod.Lex.toLex_lt_toLex.mpr (Or.inl h))

theorem advances_of_block {t : Pipeline.Thread} (hthread : s'.feedThread = s.feedThread)
    (hwork : s'.pipe.work = s.pipe.work)
    (h : s'.blockWait k capacity < s.blockWait k capacity) : s.Advances k capacity s' t := by
  refine Or.inl (Prod.Lex.toLex_lt_toLex.mpr (Or.inr ⟨?_, h⟩))
  rw [hthread, hwork]

theorem Runs.feedStep (h : s.Runs k) {ok : Bool}
    (hstep : s.feedStep k capacity ok = some s') : s.Advances k capacity s' .feed := by
  rcases feedStep_cases hstep with ⟨pipe, -, hpipe, rfl⟩ | ⟨g, st, harr, rfl⟩
  · rcases Pipeline.feedStep_work hpipe h.stop with hlt | ⟨heq, hrest⟩
    · exact advances_of_work (Nat.add_lt_add_left hlt _)
    · rcases hrest with ⟨hnone, hnone', hlt⟩ | ⟨b, hsome, hsome', hpop⟩
      · refine advances_of_block rfl heq ?_
        rw [blockWait_of_none hnone, blockWait_of_none hnone']
        exact hlt
      · refine Or.inr ⟨?_, ?_, ?_⟩
        · rw [runRank, runRank, blockWait_of_some hsome, blockWait_of_some hsome', heq, hpop]
        · rw [runsFor, runsFor, hsome, hsome']
        · simp [runsFor, hsome]
  · exact advances_of_work (Nat.add_lt_add_right harr.rank_lt _)

theorem Runs.builderStep (h : s.Runs k) (hcap : 0 < capacity) {b : ℕ} {ok : Bool}
    (hstep : s.builderStep b ok = some s') : s.Advances k capacity s' (.builder b) := by
  rcases builderStep_cases hstep with ⟨pipe, -, hpipe, rfl⟩ | ⟨g, st, harr, rfl⟩
  · obtain ⟨hstop, hnot⟩ := h.kept b
    obtain ⟨hwork, hrest⟩ := Pipeline.builderStep_work (k := k) hpipe hnot hstop hcap
    rcases hrest with ⟨hother, hsame, hrank⟩ | ⟨hblocked, hfree | ⟨hstill, hlt⟩⟩
    · refine Or.inr ⟨?_, ?_, ?_⟩
      · simp only [runRank, blockWait, hwork, hsame, hrank]
      · simp only [runsFor, hsame]
      · rw [runsFor]
        split
        · next b' hb' =>
          rintro ⟨⟩
          exact hother hb'
        · simp
    · refine advances_of_block rfl hwork ?_
      have hle := Pipeline.blockRank_of_none hfree
      rw [blockWait_of_some hblocked, blockWait_of_none hfree]
      dsimp only
      omega
    · refine advances_of_block rfl hwork ?_
      rw [blockWait_of_some hblocked, blockWait_of_some hstill]
      dsimp only
      omega
  · have hlt := harr.rank_lt
    cases hblocked : s.pipe.blockedOn k capacity with
    | none =>
        exact Or.inr ⟨by simp only [runRank, blockWait, hblocked],
          by simp only [runsFor, hblocked], by simp [runsFor, hblocked]⟩
    | some b' =>
        by_cases hb : b' = b
        · subst hb
          refine advances_of_block rfl rfl ?_
          simp only [blockWait, hblocked, Function.update_self]
          omega
        · refine Or.inr ⟨?_, by simp only [runsFor, hblocked],
            by simpa [runsFor, hblocked] using hb⟩
          simp only [runRank, blockWait, hblocked, Function.update_of_ne hb]

theorem Runs.work_pos (h : s.Runs k) (hfin : s.pipe.finished = false) :
    0 < s.feedThread.rank + s.pipe.work := by
  refine Nat.add_pos_right _ ?_
  unfold Pipeline.work
  cases hpc : s.pipe.feed with
  | exited =>
      rw [h.fed.exited hpc] at hfin
      cases hfin
  | loop =>
      dsimp only
      split <;> omega
  | _ =>
      dsimp only
      omega

/-- The thread that the feed needs can take a step. -/
theorem Runs.enabled (h : s.Runs k) (hk : k < 32) (hfin : s.pipe.finished = false) :
    ∃ a, threadOf a = some (s.runsFor k capacity) ∧ (∀ c, a ≠ .call c) ∧
      s.step k capacity path a ≠ none := by
  cases hblocked : s.pipe.blockedOn k capacity with
  | none =>
      refine ⟨.feed true, by simp [threadOf, runsFor, hblocked], by simp, ?_⟩
      rw [step, FeedHandler.feedStep]
      split
      · simpa using h.fed.feedStep_ne_none hfin
      · next hrun =>
        have hwait : s.feedThread = .wait :=
          (h.ready 0 (Nat.succ_pos _)).resolve_right hrun
        simp [hwait, StartGate.arrive, h.opened]
  | some b =>
      have hb := Pipeline.blockedOn_lt hk hblocked
      refine ⟨.builder b true, by simp [threadOf, runsFor, hblocked], by simp, ?_⟩
      rw [step, if_pos hb, FeedHandler.builderStep]
      split
      · have hpc : s.pipe.builder b ≠ .exited := fun hpc => by
          have hnot := (h.kept b).2
          rw [hpc] at hnot
          cases hnot
        simpa using Pipeline.builderStep_ne_none hpc
      · next hrun =>
        have hwait : s.bbThread b = .wait :=
          (h.ready (b + 1) (by omega)).resolve_right hrun
        simp [hwait, StartGate.arrive, h.opened]

end FeedHandler

end Fastbook

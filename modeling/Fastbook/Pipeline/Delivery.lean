import Fastbook.Pipeline.FeedHandler

/-!
# The pipeline drops nothing

Every emitted event is in one place: still with the feed, in the queue of its
shard, in the hands of its builder, or applied.  The branch of `on_event` that
discards an event is never taken here, because `stop_requested_` is set only
between two events of the feed: by the feed itself at its end, or by a
controller that has seen it finish.
-/

namespace Fastbook

open Support

/-- The event that `on_event` has not placed yet. -/
def FeedPc.pending : FeedPc → List MboEvent
  | .push e => [e]
  | .spin e => [e]
  | .check e => [e]
  | _ => []

/-- The feed is not in the middle of a pass. -/
def FeedPc.between : FeedPc → Bool
  | .loop => true
  | .finish => true
  | .exited => true
  | _ => false

/-- The event that has been popped and not applied yet. -/
def BuilderPc.held : BuilderPc → List MboEvent
  | .handle e => [e]
  | .drainHandle e => [e]
  | _ => []

/-- The builder has seen its stop flag. -/
def BuilderPc.draining : BuilderPc → Bool
  | .drain => true
  | .drainHandle _ => true
  | .exited => true
  | _ => false

/-- The builders whose thread has been joined. -/
def ControllerPc.joined (k : ℕ) : ControllerPc → ℕ
  | .joinBuilders i => i
  | .returned => 2 ^ k
  | _ => 0

namespace Pipeline

variable {k capacity : ℕ} {script : List Iteration} {s s' : Pipeline}

/-- The events of shard `b`. -/
def ofShard (k b : ℕ) (events : List MboEvent) : List MboEvent :=
  events.filter fun e => shard k e = b

theorem ofShard_append (k b : ℕ) (l₁ l₂ : List MboEvent) :
    ofShard k b (l₁ ++ l₂) = ofShard k b l₁ ++ ofShard k b l₂ :=
  List.filter_append ..

/-- Where the emitted events of every shard are. -/
def Placed (k : ℕ) (s : Pipeline) : Prop :=
  ∀ b, s.applied b ++ (s.builder b).held ++ s.queue b ++
    ofShard k b s.feed.pending = ofShard k b s.emitted

/-- All events that the feed is to emit. -/
def allEvents (script : List Iteration) : List MboEvent :=
  script.flatMap Iteration.stamped

structure Holds (k : ℕ) (script : List Iteration) (s : Pipeline) : Prop where
  placed : s.Placed k
  input : s.emitted ++ s.todo ++ allEvents s.script = allEvents script
  todo : s.feed.between = true → s.todo = []
  stopRequested : s.stopRequested = true →
    s.feed.between = true ∧ s.script = []
  finishing : s.feed = .finish ∨ s.feed = .exited → s.stopRequested = true
  finished : s.finished = true → s.feed = .exited
  controller : s.controller ≠ .running → s.finished = true
  stopped : ∀ b, s.builderStop b = true → s.finished = true
  draining : ∀ b, (s.builder b).draining = true → s.builderStop b = true
  exited : ∀ b, s.builder b = .exited → s.queue b = []
  joined : ∀ b < s.controller.joined k, s.builder b = .exited

theorem start_holds : ({ script } : Pipeline).Holds k script := by
  refine ⟨fun b => rfl, rfl, fun _ => rfl, ?_, ?_, ?_, ?_, ?_, ?_, ?_, ?_⟩
  all_goals simp [BuilderPc.draining, ControllerPc.joined]

/-- What the feed can do in one step. -/
inductive FeedMove (k capacity : ℕ) (s : Pipeline) : Pipeline → Prop where
  | leave (hpc : s.feed = .loop) (hstop : s.stopRequested = true) :
    FeedMove k capacity s { s with feed := .finish }
  | pass (hpc : s.feed = .loop) (hstop : s.stopRequested = false)
    {it : Iteration} {rest : List Iteration} (hscript : s.script = it :: rest) :
    FeedMove k capacity s
      { s with feed := .emit, script := rest, todo := it.stamped }
  | emit (hpc : s.feed = .emit) {e : MboEvent} {todo : List MboEvent}
    (htodo : s.todo = e :: todo) :
    FeedMove k capacity s
      { s with feed := .push e, todo, emitted := s.emitted ++ [e] }
  | stop (hpc : s.feed = .emit) (htodo : s.todo = []) (hscript : s.script = []) :
    FeedMove k capacity s { s with feed := .loop, stopRequested := true }
  | endPass (hpc : s.feed = .emit) (htodo : s.todo = []) :
    FeedMove k capacity s { s with feed := .loop }
  | placed {e : MboEvent} (hpc : s.feed = .push e ∨ s.feed = .spin e)
    (hroom : (s.queue (shard k e)).length < capacity) :
    FeedMove k capacity s { s with
      queue := Function.update s.queue (shard k e) (s.queue (shard k e) ++ [e])
      feed := .emit }
  | full {e : MboEvent} (hpc : s.feed = .push e) :
    FeedMove k capacity s
      { s with feed := .spin e, queueFull := s.queueFull + 1 }
  | stillFull {e : MboEvent} (hpc : s.feed = .spin e) :
    FeedMove k capacity s { s with feed := .check e }
  | discard {e : MboEvent} (hpc : s.feed = .check e)
    (hstop : s.stopRequested = true) :
    FeedMove k capacity s { s with feed := .emit }
  | again {e : MboEvent} (hpc : s.feed = .check e) :
    FeedMove k capacity s { s with feed := .spin e }
  | finish (hpc : s.feed = .finish) :
    FeedMove k capacity s { s with feed := .exited, finished := true }

theorem feedMove_of_step (hstep : s.feedStep k capacity = some s') :
    FeedMove k capacity s s' := by
  unfold feedStep at hstep
  split at hstep
  · next hpc =>
    split at hstep
    · next hstop =>
      cases hstep
      exact .leave hpc hstop
    · next hstop =>
      split at hstep
      · cases hstep
      · next it rest hscript =>
        cases hstep
        exact .pass hpc (Bool.eq_false_iff.mpr hstop) hscript
  · next hpc =>
    split at hstep
    · next e todo htodo =>
      cases hstep
      exact .emit hpc htodo
    · next htodo =>
      split at hstep
      · next hscript =>
        cases hstep
        exact .stop hpc htodo hscript
      · cases hstep
        exact .endPass hpc htodo
  · next e hpc =>
    unfold pushEvent at hstep
    by_cases hroom : (s.queue (shard k e)).length < capacity
    · simp only [if_pos hroom] at hstep
      cases hstep
      exact .placed (Or.inl hpc) hroom
    · simp only [if_neg hroom] at hstep
      cases hstep
      exact .full hpc
  · next e hpc =>
    unfold pushEvent at hstep
    by_cases hroom : (s.queue (shard k e)).length < capacity
    · simp only [if_pos hroom] at hstep
      cases hstep
      exact .placed (Or.inr hpc) hroom
    · simp only [if_neg hroom] at hstep
      cases hstep
      exact .stillFull hpc
  · next e hpc =>
    split at hstep
    · next hstop =>
      cases hstep
      exact .discard hpc hstop
    · cases hstep
      exact .again hpc
  · next hpc =>
    cases hstep
    exact .finish hpc
  · cases hstep

/-- What builder `b` can do in one step. -/
inductive BuilderMove (s : Pipeline) (b : ℕ) : Pipeline → Prop where
  | stop (hpc : s.builder b = .loop) (hstop : s.builderStop b = true) :
    BuilderMove s b (s.setBuilder b .drain)
  | poll (hpc : s.builder b = .loop) : BuilderMove s b (s.setBuilder b .pop)
  | empty (hpc : s.builder b = .pop) : BuilderMove s b (s.setBuilder b .loop)
  | exit (hpc : s.builder b = .drain) (hqueue : s.queue b = []) :
    BuilderMove s b (s.setBuilder b .exited)
  | pop {e : MboEvent} {rest : List MboEvent} {pc : BuilderPc}
    (hpc : s.builder b = .pop ∧ pc = .handle e ∨
      s.builder b = .drain ∧ pc = .drainHandle e)
    (hqueue : s.queue b = e :: rest) :
    BuilderMove s b { s.setBuilder b pc with
      queue := Function.update s.queue b rest }
  | handle {e : MboEvent} {pc : BuilderPc}
    (hpc : s.builder b = .handle e ∧ pc = .loop ∨
      s.builder b = .drainHandle e ∧ pc = .drain) :
    BuilderMove s b ((s.handleEvent b e).setBuilder b pc)

theorem builderMove_of_step {b : ℕ} (hstep : s.builderStep b = some s') :
    BuilderMove s b s' := by
  unfold builderStep at hstep
  split at hstep
  · next hpc =>
    split at hstep
    · next hstop =>
      cases hstep
      exact .stop hpc hstop
    · cases hstep
      exact .poll hpc
  · next hpc =>
    unfold popEvent at hstep
    split at hstep
    · cases hstep
      exact .empty hpc
    · next e rest hqueue =>
      cases hstep
      exact .pop (Or.inl ⟨hpc, rfl⟩) hqueue
  · next e hpc =>
    cases hstep
    exact .handle (Or.inl ⟨hpc, rfl⟩)
  · next hpc =>
    unfold popEvent at hstep
    split at hstep
    · next hqueue =>
      cases hstep
      exact .exit hpc hqueue
    · next e rest hqueue =>
      cases hstep
      exact .pop (Or.inr ⟨hpc, rfl⟩) hqueue
  · next e hpc =>
    cases hstep
    exact .handle (Or.inr ⟨hpc, rfl⟩)
  · cases hstep

namespace Holds

theorem not_finished (h : s.Holds k script) (hpc : s.feed ≠ .exited) :
    s.finished = false :=
  Bool.eq_false_iff.mpr fun hfin => hpc (h.finished hfin)

theorem not_stopRequested (h : s.Holds k script)
    (hpc : s.feed.between = false) : s.stopRequested = false := by
  rw [Bool.eq_false_iff]
  intro hstop
  rw [(h.stopRequested hstop).1] at hpc
  cases hpc

/-- No builder leaves its loops before the feed has finished. -/
theorem not_exited (h : s.Holds k script) (hfin : s.finished = false) (b : ℕ) :
    s.builder b ≠ .exited := by
  intro hb
  have hstop := h.draining b (by rw [hb]; rfl)
  rw [h.stopped b hstop] at hfin
  cases hfin

/-! ## The feed -/

/-- A step of the feed before a stop is requested. -/
theorem feedStep (h : s.Holds k script) (hstop : s.stopRequested = false)
    (hfin : s.finished = false) {pc : FeedPc} {script' : List Iteration}
    {todo emitted : List MboEvent} {queueFull : ℕ}
    {queue : ℕ → List MboEvent}
    (hpc : pc ≠ .finish ∧ pc ≠ .exited)
    (hplaced : ∀ b, s.applied b ++ (s.builder b).held ++ queue b ++
      ofShard k b pc.pending = ofShard k b emitted)
    (hinput : emitted ++ todo ++ allEvents script' = allEvents script)
    (htodo : pc.between = true → todo = []) :
    Holds k script { s with
      feed := pc, script := script', todo, emitted, queueFull, queue } where
  placed := hplaced
  input := hinput
  todo := htodo
  stopRequested hstop' := by
    change s.stopRequested = true at hstop'
    rw [hstop] at hstop'
    cases hstop'
  finishing hpc' := by
    rcases hpc' with heq | heq
    · exact absurd heq hpc.1
    · exact absurd heq hpc.2
  finished hfin' := by
    change s.finished = true at hfin'
    rw [hfin] at hfin'
    cases hfin'
  controller := h.controller
  stopped := h.stopped
  draining := h.draining
  exited b hb := absurd hb (h.not_exited hfin b)
  joined := h.joined

theorem feed (h : s.Holds k script) (hmove : FeedMove k capacity s s') :
    s'.Holds k script := by
  have hplaced := h.placed
  have hinput := h.input
  unfold Placed at hplaced
  cases hmove with
  | leave hpc hstop =>
      have hfin := h.not_finished (by simp [hpc])
      rw [hpc] at hplaced
      exact { h with
        placed := hplaced
        todo := fun _ => h.todo (by rw [hpc]; rfl)
        stopRequested := fun _ => ⟨rfl, (h.stopRequested hstop).2⟩
        finishing := fun _ => hstop
        finished := fun hfin' => absurd hfin' (by simp [hfin]) }
  | pass hpc hstop hscript =>
      rw [h.todo (by rw [hpc]; rfl), hscript] at hinput
      rw [hpc] at hplaced
      refine h.feedStep hstop (h.not_finished (by simp [hpc])) (by simp)
        hplaced ?_ (fun hbetween => by cases hbetween)
      simpa [allEvents] using hinput
  | emit hpc htodo =>
      rw [htodo] at hinput
      rw [hpc] at hplaced
      refine h.feedStep (h.not_stopRequested (by rw [hpc]; rfl))
        (h.not_finished (by simp [hpc])) (by simp) ?_ (by simpa using hinput)
        (fun hbetween => by cases hbetween)
      intro b
      rw [ofShard_append, ← hplaced b]
      simp [FeedPc.pending, ofShard]
  | stop hpc htodo hscript =>
      have hfin := h.not_finished (by simp [hpc])
      rw [hpc] at hplaced
      exact { h with
        placed := hplaced
        todo := fun _ => htodo
        stopRequested := fun _ => ⟨rfl, hscript⟩
        finishing := fun _ => rfl
        finished := fun hfin' => absurd hfin' (by simp [hfin]) }
  | endPass hpc htodo =>
      rw [hpc] at hplaced
      exact h.feedStep (h.not_stopRequested (by rw [hpc]; rfl))
        (h.not_finished (by simp [hpc])) (by simp) hplaced hinput
        (fun _ => htodo)
  | @placed e hpc hroom =>
      have hbetween : s.feed.between = false := by
        rcases hpc with hpc | hpc <;> rw [hpc] <;> rfl
      have hpending : s.feed.pending = [e] := by
        rcases hpc with hpc | hpc <;> rw [hpc] <;> rfl
      rw [hpending] at hplaced
      refine h.feedStep (h.not_stopRequested hbetween) (h.not_finished ?_)
        (by simp) ?_ hinput (fun hbetween' => by cases hbetween')
      · rcases hpc with hpc | hpc <;> simp [hpc]
      · intro b
        rw [← hplaced b]
        by_cases hb : b = shard k e
        · subst hb
          simp [ofShard, FeedPc.pending]
        · simp [ofShard, FeedPc.pending, hb, Ne.symm hb]
  | full hpc | stillFull hpc | again hpc =>
      rw [hpc] at hplaced
      exact h.feedStep (h.not_stopRequested (by rw [hpc]; rfl))
        (h.not_finished (by simp [hpc])) (by simp) hplaced hinput
        (fun hbetween => by cases hbetween)
  | discard hpc hstop =>
      -- the feed is in a pass, so no stop can have been requested
      have hstop' := h.not_stopRequested (by rw [hpc]; rfl)
      rw [hstop] at hstop'
      cases hstop'
  | finish hpc =>
      rw [hpc] at hplaced
      exact { h with
        placed := hplaced
        todo := fun _ => h.todo (by rw [hpc]; rfl)
        stopRequested := fun hstop => ⟨rfl, (h.stopRequested hstop).2⟩
        finishing := fun _ => h.finishing (Or.inl hpc)
        finished := fun _ => rfl
        controller := fun _ => rfl
        stopped := fun _ _ => rfl }

/-! ## The builders -/

/-- A step of builder `b` to `pc`, which has not exited before. -/
theorem builderStep (h : s.Holds k script) {b : ℕ} {pc : BuilderPc}
    {events queue : List MboEvent} (hrunning : s.builder b ≠ .exited)
    (hplaced : events ++ pc.held ++ queue =
      s.applied b ++ (s.builder b).held ++ s.queue b)
    (hdraining : pc.draining = true → s.builderStop b = true)
    (hexited : pc = .exited → queue = []) :
    Holds k script { s with
      builder := Function.update s.builder b pc
      queue := Function.update s.queue b queue
      applied := Function.update s.applied b events } := by
  refine { h with placed := ?_, draining := ?_, exited := ?_, joined := ?_ }
  · intro b'
    by_cases hb : b' = b
    · subst hb
      simp only [Function.update_self, hplaced]
      exact h.placed b'
    · simp only [Function.update_of_ne hb]
      exact h.placed b'
  · intro b'
    by_cases hb : b' = b
    · subst hb
      simpa using hdraining
    · simpa [hb] using h.draining b'
  · intro b'
    by_cases hb : b' = b
    · subst hb
      simpa using hexited
    · simpa [hb] using h.exited b'
  · intro b' hb'
    have hne : b' ≠ b := by
      rintro rfl
      exact hrunning (h.joined b' hb')
    simpa [hne] using h.joined b' hb'

theorem builder {b : ℕ} (h : s.Holds k script) (hmove : BuilderMove s b s') :
    s'.Holds k script := by
  have hsame : ∀ {pc : BuilderPc}, s.builder b ≠ .exited →
      pc.held = (s.builder b).held →
      (pc.draining = true → s.builderStop b = true) →
      (pc = .exited → s.queue b = []) → (s.setBuilder b pc).Holds k script := by
    intro pc hrunning hheld hdraining hexited
    have hstep := h.builderStep hrunning (by rw [hheld]) hdraining hexited
    simpa [setBuilder] using hstep
  cases hmove with
  | stop hpc hstop =>
      exact hsame (by simp [hpc]) (by simp [hpc, BuilderPc.held])
        (fun _ => hstop) (by simp)
  | poll hpc =>
      exact hsame (by simp [hpc]) (by simp [hpc, BuilderPc.held])
        (by simp [BuilderPc.draining]) (by simp)
  | empty hpc =>
      exact hsame (by simp [hpc]) (by simp [hpc, BuilderPc.held])
        (by simp [BuilderPc.draining]) (by simp)
  | exit hpc hqueue =>
      exact hsame (by simp [hpc]) (by simp [hpc, BuilderPc.held])
        (fun _ => h.draining b (by rw [hpc]; rfl)) (fun _ => hqueue)
  | @pop e rest pc hpc hqueue =>
      have hstep : Holds k script { s with
          builder := Function.update s.builder b pc
          queue := Function.update s.queue b rest
          applied := Function.update s.applied b (s.applied b) } := by
        rcases hpc with ⟨hpc, rfl⟩ | ⟨hpc, rfl⟩
        · exact h.builderStep (by simp [hpc])
            (by simp [hpc, hqueue, BuilderPc.held])
            (by simp [BuilderPc.draining]) (by simp)
        · exact h.builderStep (by simp [hpc])
            (by simp [hpc, hqueue, BuilderPc.held])
            (fun _ => h.draining b (by rw [hpc]; rfl)) (by simp)
      simpa [setBuilder] using hstep
  | @handle e pc hpc =>
      have hstep : Holds k script { s with
          builder := Function.update s.builder b pc
          queue := Function.update s.queue b (s.queue b)
          applied := Function.update s.applied b (s.applied b ++ [e]) } := by
        rcases hpc with ⟨hpc, rfl⟩ | ⟨hpc, rfl⟩
        · exact h.builderStep (by simp [hpc]) (by simp [hpc, BuilderPc.held])
            (by simp [BuilderPc.draining]) (by simp)
        · exact h.builderStep (by simp [hpc]) (by simp [hpc, BuilderPc.held])
            (fun _ => h.draining b (by rw [hpc]; rfl)) (by simp)
      simpa [setBuilder, handleEvent] using hstep

/-! ## The controller -/

/-- A step of the controller that touches no flag. -/
theorem moveController (h : s.Holds k script) {pc : ControllerPc}
    (hfin : s.finished = true)
    (hjoined : ∀ b < pc.joined k, s.builder b = .exited) :
    Holds k script { s with controller := pc } :=
  { h with controller := fun _ => hfin, joined := hjoined }

theorem controllerStep (h : s.Holds k script)
    (hstep : s.controllerStep k = some s') : s'.Holds k script := by
  have hcontroller := h.controller
  unfold Pipeline.controllerStep at hstep
  split at hstep
  · split at hstep
    · next hfin =>
      cases hstep
      exact h.moveController hfin (by simp [ControllerPc.joined])
    · cases hstep
      exact h
  · next hpc =>
    have hfin := hcontroller (by simp [hpc])
    have hexited := h.finished hfin
    cases hstep
    exact { h with
      stopRequested := fun _ => ⟨by rw [hexited]; rfl,
        (h.stopRequested (h.finishing (Or.inr hexited))).2⟩
      finishing := fun _ => rfl
      controller := fun _ => hfin
      joined := by simp [ControllerPc.joined] }
  · next hpc =>
    split at hstep
    · cases hstep
      exact h.moveController (hcontroller (by simp [hpc]))
        (by simp [ControllerPc.joined])
    · cases hstep
  · next i hpc =>
    have hfin := hcontroller (by simp [hpc])
    split at hstep
    · cases hstep
      exact { h with
        controller := fun _ => hfin
        stopped := fun _ _ => hfin
        draining := fun b hb => by
          by_cases hi : b = i
          · simp [hi]
          · simpa [hi] using h.draining b hb
        joined := by simp [ControllerPc.joined] }
    · cases hstep
      exact h.moveController hfin (by simp [ControllerPc.joined])
  · next i hpc =>
    have hfin := hcontroller (by simp [hpc])
    have hjoined := h.joined
    rw [hpc] at hjoined
    split at hstep
    · split at hstep
      · next hexited =>
        cases hstep
        refine h.moveController hfin ?_
        intro b hb
        rcases Nat.lt_succ_iff_lt_or_eq.mp hb with hlt | rfl
        · exact hjoined b hlt
        · exact hexited
      · cases hstep
    · next hi =>
      cases hstep
      refine h.moveController hfin ?_
      intro b hb
      exact hjoined b (lt_of_lt_of_le hb (not_lt.mp hi))
  · cases hstep

theorem step (h : s.Holds k script) {t : Thread}
    (hstep : s.step k capacity t = some s') : s'.Holds k script := by
  cases t with
  | feed => exact h.feed (feedMove_of_step hstep)
  | builder b =>
      rw [Pipeline.step] at hstep
      split at hstep
      · exact h.builder (builderMove_of_step hstep)
      · cases hstep
  | controller => exact h.controllerStep hstep

end Holds

/-- At every point of every interleaving each builder has applied the first
events of its shard, in the order in which they were emitted; when
`stop_and_wait` returns it has applied all of them. -/
theorem applied_eq_of_returned
    (h : (system k capacity script).Reachable s) {b : ℕ} (hb : b < 2 ^ k) :
    s.applied b <+: ofShard k b (allEvents script) ∧
    (s.controller = .returned →
      s.applied b = ofShard k b (allEvents script)) := by
  have hholds : s.Holds k script :=
    h.invariant start_holds fun _ _ _ hs hstep => hs.step hstep
  have hplaced := hholds.placed b
  constructor
  · rw [← hholds.input, List.append_assoc, ofShard_append, ← hplaced]
    simp only [List.append_assoc]
    exact List.prefix_append _ _
  · intro hreturned
    have hfeed := hholds.finished (hholds.controller (by simp [hreturned]))
    have hscript :=
      (hholds.stopRequested (hholds.finishing (Or.inr hfeed))).2
    have htodo := hholds.todo (by rw [hfeed]; rfl)
    have hinput := hholds.input
    rw [hscript, htodo] at hinput
    have hexited := hholds.joined b (by rw [hreturned]; exact hb)
    rw [hexited, hholds.exited b hexited, hfeed] at hplaced
    simp only [allEvents, List.flatMap_nil, List.append_nil] at hinput
    rw [allEvents, ← hinput, ← hplaced]
    simp [BuilderPc.held, FeedPc.pending, ofShard]

/-- Two events for one shard and one for the other. -/
def sampleScript : List Iteration :=
  [⟨9, [{ instrument := 0 }, { instrument := 1 }, { instrument := 2 }]⟩]

/-- The third event finds the queue of its shard full. -/
def sampleSchedule : List Thread :=
  List.replicate 9 .feed ++ List.replicate 2 (.builder 0) ++
    List.replicate 4 .feed ++ List.replicate 6 .controller ++
    List.replicate 5 (.builder 0) ++ List.replicate 4 (.builder 1) ++
    List.replicate 3 .controller

theorem applied_eq_of_returned_sample :
    ∃ s, (system 1 1 sampleScript).run { script := sampleScript }
        sampleSchedule = some s ∧
      s.controller = .returned ∧ s.queueFull = 1 ∧
      s.applied 0 = [{ instrument := 0, rxTsc := 9 },
        { instrument := 2, rxTsc := 9 }] := by
  obtain ⟨s, hrun, hreturned, hfull⟩ : ∃ s, (system 1 1 sampleScript).run
      { script := sampleScript } sampleSchedule = some s ∧
      s.controller = .returned ∧ s.queueFull = 1 := ⟨_, rfl, rfl, rfl⟩
  have hreach := TransitionSystem.Reachable.start.run hrun
  have happlied := (applied_eq_of_returned hreach (b := 0) (by decide)).2
    hreturned
  refine ⟨s, hrun, hreturned, hfull, happlied.trans ?_⟩
  decide

end Pipeline

end Fastbook

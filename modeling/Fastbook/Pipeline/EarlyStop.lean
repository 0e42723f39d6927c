import Fastbook.Pipeline.Shutdown

/-!
# Stopping a pipeline that is still reading

A client may call `stop_and_wait` at any time, for instance when it gets a
signal.  The feed then drops an event that finds its queue full, and goes on
with the events of the buffer it has; it reads no other buffer.  So what the
builders miss are events of the last buffer.  A client that waits for
`feed_finished()` loses nothing.
-/

namespace Fastbook

open Support

namespace Pipeline

variable {k capacity : ℕ} {script : List Iteration} {s s' : Pipeline}

/-! ## What the builders get -/

/-- The events that have come through to builder `b`. -/
def delivered (s : Pipeline) (b : ℕ) : List MboEvent :=
  s.applied b ++ (s.builder b).held ++ s.queue b

/-- `passes` buffers have been read.  Of all but the last, every event has come
through; of the last one, those of `kept`. -/
structure Kept (k : ℕ) (script : List Iteration) (whole : Prop) (s : Pipeline)
    (passes : ℕ) (current : List MboEvent) : Prop where
  le_length : passes ≤ script.length
  rest : s.script = script.drop passes
  emitted : s.emitted = allEvents (script.take (passes - 1)) ++ current
  todo : s.emitted ++ s.todo = allEvents (script.take passes)
  between : s.feed.between = true → s.todo = []
  kept : ∀ b, ∃ kept,
    s.delivered b = ofShard k b (allEvents (script.take (passes - 1))) ++ kept ∧
    (kept ++ ofShard k b s.feed.pending).Sublist (ofShard k b current) ∧
    (whole ∨ s.stopRequested = false →
      kept ++ ofShard k b s.feed.pending = ofShard k b current)

variable {whole : Prop} {passes : ℕ} {current : List MboEvent}

theorem kept_start : ({ script } : Pipeline).Kept k script whole 0 [] := by
  refine ⟨Nat.zero_le _, rfl, rfl, rfl, fun _ => rfl, fun b => ⟨[], rfl, ?_, fun _ => rfl⟩⟩
  exact List.Sublist.refl _

theorem allEvents_append (l₁ l₂ : List Iteration) :
    allEvents (l₁ ++ l₂) = allEvents l₁ ++ allEvents l₂ :=
  List.flatMap_append

theorem allEvents_take_succ {it : Iteration} {rest : List Iteration}
    (h : script.drop passes = it :: rest) :
    allEvents (script.take (passes + 1)) = allEvents (script.take passes) ++ it.stamped := by
  have hget : script[passes]? = some it := by
    rw [← List.head?_drop, h, List.head?_cons]
  rw [List.take_add_one, hget, allEvents_append]
  simp [allEvents]

namespace Kept

/-- A step after which the feed holds what it held before. -/
theorem feedMoved (h : s.Kept k script whole passes current) {pc : FeedPc} {stop : Bool}
    {queueFull : ℕ} (hpending : pc.pending = s.feed.pending)
    (hbetween : pc.between = true → s.todo = [])
    (hstop : stop = false → s.stopRequested = false) {finished : Bool} :
    Kept k script whole
      { s with feed := pc, stopRequested := stop, queueFull, finished } passes current := by
  refine { h with between := hbetween, kept := fun b => ?_ }
  obtain ⟨kept, hdel, hsub, hall⟩ := h.kept b
  refine ⟨kept, hdel, ?_, ?_⟩
  · rw [hpending]
    exact hsub
  · rw [hpending]
    exact fun hw => hall (hw.imp_right hstop)

theorem pass (h : s.Kept k script whole passes current) (hpc : s.feed = .loop)
    (hstop : s.stopRequested = false) {it : Iteration} {rest : List Iteration}
    (hscript : s.script = it :: rest) :
    Kept k script whole { s with feed := .emit, script := rest, todo := it.stamped }
      (passes + 1) [] := by
  have htodo := h.between (by rw [hpc]; rfl)
  have hdrop : script.drop passes = it :: rest := h.rest.symm.trans hscript
  have hlt : passes < script.length := by
    by_contra hge
    rw [List.drop_eq_nil_of_le (not_lt.mp hge)] at hdrop
    cases hdrop
  have hemitted : s.emitted = allEvents (script.take passes) := by
    have := h.todo
    rwa [htodo, List.append_nil] at this
  refine ⟨hlt, ?_, ?_, ?_, (by intro hbetween; cases hbetween), fun b => ?_⟩
  · rw [← List.tail_drop, hdrop, List.tail_cons]
  · simpa using hemitted
  · rw [allEvents_take_succ hdrop, ← hemitted]
  · obtain ⟨kept, hdel, -, hall⟩ := h.kept b
    have hkept := hall (Or.inr hstop)
    rw [hpc] at hkept
    refine ⟨[], ?_, List.Sublist.refl _, fun _ => rfl⟩
    change s.delivered b = _
    rw [hdel, Nat.add_sub_cancel, ← hemitted, h.emitted, ofShard_append, ← hkept]
    simp [FeedPc.pending, ofShard]

theorem emit (h : s.Kept k script whole passes current) (hpc : s.feed = .emit)
    {e : MboEvent} {todo : List MboEvent} (htodo : s.todo = e :: todo) :
    Kept k script whole { s with feed := .push e, todo, emitted := s.emitted ++ [e] }
      passes (current ++ [e]) := by
  refine { h with
    emitted := by simp [h.emitted]
    todo := ?_
    between := fun hbetween => by cases hbetween
    kept := fun b => ?_ }
  · have := h.todo
    rw [htodo] at this
    simpa using this
  · obtain ⟨kept, hdel, hsub, hall⟩ := h.kept b
    rw [hpc] at hsub hall
    simp only [FeedPc.pending, ofShard, List.filter_nil, List.append_nil] at hsub hall
    refine ⟨kept, hdel, ?_, fun hw => ?_⟩
    · rw [ofShard_append]
      exact hsub.append (List.Sublist.refl _)
    · rw [ofShard_append]
      exact congrArg (· ++ _) (hall hw)

theorem push (h : s.Kept k script whole passes current) {e : MboEvent}
    (hpc : s.feed = .push e ∨ s.feed = .spin e) :
    Kept k script whole { s with
      queue := Function.update s.queue (shard k e) (s.queue (shard k e) ++ [e])
      feed := .emit } passes current := by
  have hpending : s.feed.pending = [e] := by
    rcases hpc with hpc | hpc <;> rw [hpc] <;> rfl
  refine { h with
    between := fun hbetween => by cases hbetween
    kept := fun b => ?_ }
  obtain ⟨kept, hdel, hsub, hall⟩ := h.kept b
  rw [hpending] at hsub hall
  refine ⟨kept ++ ofShard k b [e], ?_, ?_, ?_⟩
  · rw [← List.append_assoc, ← hdel]
    by_cases hb : b = shard k e
    · subst hb
      simp [delivered, ofShard]
    · simp [delivered, ofShard, hb, Ne.symm hb]
  · simpa [FeedPc.pending, ofShard] using hsub
  · simpa [FeedPc.pending, ofShard] using hall

/-- The event is lost. -/
theorem discard (h : s.Kept k script whole passes current)
    (hstop : s.stopRequested = true) (hnot : ¬ whole) :
    Kept k script whole { s with feed := .emit } passes current := by
  refine { h with
    between := fun hbetween => by cases hbetween
    kept := fun b => ?_ }
  obtain ⟨kept, hdel, hsub, -⟩ := h.kept b
  refine ⟨kept, hdel, ?_, fun hw => ?_⟩
  · simp only [FeedPc.pending, ofShard, List.filter_nil, List.append_nil]
    exact (List.sublist_append_left _ _).trans hsub
  · rcases hw with hw | hw
    · exact absurd hw hnot
    · change s.stopRequested = false at hw
      rw [hstop] at hw
      cases hw

theorem feed (h : s.Kept k script whole passes current)
    (hwhole : whole → s.stopRequested = true → s.feed.between = true)
    (hmove : FeedMove k capacity s s') :
    ∃ passes current, s'.Kept k script whole passes current := by
  cases hmove with
  | leave hpc =>
      exact ⟨_, _, h.feedMoved (by rw [hpc]; rfl) (fun _ => h.between (by rw [hpc]; rfl)) id⟩
  | pass hpc hstop hscript => exact ⟨_, _, h.pass hpc hstop hscript⟩
  | emit hpc htodo => exact ⟨_, _, h.emit hpc htodo⟩
  | stop hpc htodo =>
      exact ⟨_, _, h.feedMoved (by rw [hpc]; rfl) (fun _ => htodo) (fun h => by cases h)⟩
  | endPass hpc htodo =>
      exact ⟨_, _, h.feedMoved (by rw [hpc]; rfl) (fun _ => htodo) id⟩
  | placed hpc => exact ⟨_, _, h.push hpc⟩
  | full hpc | stillFull hpc | again hpc =>
      exact ⟨_, _, h.feedMoved (by rw [hpc]; rfl) (fun hb => by cases hb) id⟩
  | discard hpc hstop =>
      refine ⟨_, _, h.discard hstop fun hw => ?_⟩
      have hbetween := hwhole hw hstop
      rw [hpc] at hbetween
      cases hbetween
  | finish hpc =>
      exact ⟨_, _, h.feedMoved (by rw [hpc]; rfl) (fun _ => h.between (by rw [hpc]; rfl)) id⟩

theorem builder {b : ℕ} (h : s.Kept k script whole passes current)
    (hmove : BuilderMove s b s') : s'.Kept k script whole passes current := by
  have hsame : ∀ b', s'.delivered b' = s.delivered b' := by
    intro b'
    by_cases hb : b' = b
    · subst hb
      cases hmove with
      | stop hpc | poll hpc | empty hpc | exit hpc =>
          simp [delivered, setBuilder, hpc, BuilderPc.held]
      | pop hpc hqueue =>
          rcases hpc with ⟨hpc, rfl⟩ | ⟨hpc, rfl⟩ <;>
            simp [delivered, setBuilder, hpc, hqueue, BuilderPc.held]
      | handle hpc =>
          rcases hpc with ⟨hpc, rfl⟩ | ⟨hpc, rfl⟩ <;>
            simp [delivered, setBuilder, handleEvent, hpc, BuilderPc.held]
    · cases hmove <;> simp [delivered, setBuilder, handleEvent, hb]
  have hkept : ∀ b', ∃ kept,
      s'.delivered b' = ofShard k b' (allEvents (script.take (passes - 1))) ++ kept ∧
      (kept ++ ofShard k b' s.feed.pending).Sublist (ofShard k b' current) ∧
      (whole ∨ s.stopRequested = false →
        kept ++ ofShard k b' s.feed.pending = ofShard k b' current) := by
    intro b'
    rw [hsame b']
    exact h.kept b'
  cases hmove <;> exact { h with kept := hkept }

/-- When the feed and the builders have returned. -/
theorem applied_eq (h : s.Kept k script whole passes current) (hfeed : s.feed = .exited)
    {b : ℕ} (hbuilder : s.builder b = .exited) (hqueue : s.queue b = []) :
    ∃ kept, s.applied b = ofShard k b (allEvents (script.take (passes - 1))) ++ kept ∧
      kept.Sublist (ofShard k b current) ∧ (whole → kept = ofShard k b current) := by
  obtain ⟨kept, hdel, hsub, hall⟩ := h.kept b
  simp only [delivered, hbuilder, BuilderPc.held, hqueue, List.append_nil] at hdel
  simp only [hfeed, FeedPc.pending, ofShard, List.filter_nil, List.append_nil] at hsub hall
  exact ⟨kept, hdel, hsub, fun hw => hall (Or.inl hw)⟩

/-- The events of the last buffer. -/
theorem current_eq (h : s.Kept k script whole passes current) (hfeed : s.feed = .exited) :
    allEvents (script.take (passes - 1)) ++ current = allEvents (script.take passes) := by
  have htodo := h.todo
  rwa [h.between (by rw [hfeed]; rfl), List.append_nil, h.emitted] at htodo

end Kept

theorem FeedMove.builderStop (h : FeedMove k capacity s s') :
    s'.builderStop = s.builderStop := by
  cases h <;> rfl

/-- A builder drains its queue once it has been stopped, and then leaves. -/
theorem BuilderMove.drains {b : ℕ} (h : BuilderMove s b s')
    (hdraining : ∀ b, (s.builder b).draining = true → s.builderStop b = true)
    (hexited : ∀ b, s.builder b = .exited → s.queue b = []) :
    s'.builderStop = s.builderStop ∧
    (∀ b', (s'.builder b').draining = true → s.builderStop b' = true) ∧
    (∀ b', s'.builder b' = .exited → s'.queue b' = []) := by
  have hold := hdraining b
  refine ⟨by cases h <;> rfl, fun b' => ?_, fun b' => ?_⟩
  · by_cases hb : b' = b
    · subst hb
      cases h with
      | stop hpc hstop => exact fun _ => hstop
      | poll hpc | empty hpc => simp [setBuilder, BuilderPc.draining]
      | exit hpc => exact fun _ => hold (by rw [hpc]; rfl)
      | pop hpc =>
          rcases hpc with ⟨hpc, rfl⟩ | ⟨hpc, rfl⟩
          · simp [setBuilder, BuilderPc.draining]
          · exact fun _ => hold (by rw [hpc]; rfl)
      | handle hpc =>
          rcases hpc with ⟨hpc, rfl⟩ | ⟨hpc, rfl⟩
          · simp [setBuilder, BuilderPc.draining]
          · exact fun _ => hold (by rw [hpc]; rfl)
    · rw [h.frame.2.2 b' hb]
      exact hdraining b'
  · by_cases hb : b' = b
    · subst hb
      cases h with
      | exit hpc hqueue => exact fun _ => hqueue
      | stop | poll | empty => simp [setBuilder]
      | pop hpc =>
          rcases hpc with ⟨hpc, rfl⟩ | ⟨hpc, rfl⟩ <;> simp [setBuilder]
      | handle hpc =>
          rcases hpc with ⟨hpc, rfl⟩ | ⟨hpc, rfl⟩ <;> simp [setBuilder]
    · rw [h.frame.2.2 b' hb, h.queue hb]
      exact hexited b'

end Pipeline

/-- The client is in `start`, and no flag has been set by it. -/
def ClientPc.creating : ClientPc → Bool
  | .makeBuilders _ | .loadConfig | .createFeed | .createBuilder _ | .waitReady
  | .loadFailed | .countGo => true
  | _ => false

namespace FeedHandler

variable {k capacity : ℕ} {path : String} {script : List Iteration} {whole : Prop}
  {s s' : FeedHandler}

/-! ## A builder that leaves its loop leaves nothing behind -/

structure Drains (k : ℕ) (s : FeedHandler) : Prop where
  unset : s.started = false ∨ s.client.creating = true →
    ∀ b, s.pipe.builderStop b = false
  stopped : ∀ b, s.pipe.builderStop b = true → s.Broken k ∨ s.FeedGone
  draining : ∀ b, (s.pipe.builder b).draining = true → s.pipe.builderStop b = true
  exited : ∀ b, s.pipe.builder b = .exited → s.pipe.queue b = []

theorem drains_start : (system k capacity path script).start.Drains k := by
  refine ⟨fun _ _ => rfl, ?_, ?_, ?_⟩ <;> simp [system, BuilderPc.draining]

theorem broken_of_feedStep (h : s.Broken k) {ok : Bool}
    (hstep : s.feedStep k capacity ok = some s') : s'.Broken k := by
  rcases feedStep_cases hstep with ⟨pipe, -, -, rfl⟩ | ⟨g, st, harr, rfl⟩
  · exact h
  · refine Arrives.broken (t := 0) harr ⟨?_, rfl, rfl, rfl, rfl, rfl, rfl⟩ h
    funext t
    cases t <;> rfl

theorem broken_of_builderStep (h : s.Broken k) {b : ℕ} {ok : Bool}
    (hstep : s.builderStep b ok = some s') : s'.Broken k := by
  rcases builderStep_cases hstep with ⟨pipe, -, -, rfl⟩ | ⟨g, st, harr, rfl⟩
  · exact h
  · refine Arrives.broken (t := b + 1) harr ⟨?_, rfl, rfl, rfl, rfl, rfl, rfl⟩ h
    funext t
    cases t with
    | zero => rfl
    | succ t => simp [stage, Function.update_apply]

namespace Drains

/-- The feed pushes nothing on the queue of a builder that has been stopped. -/
theorem queue_of_feedStep (h : s.Drains k) (hgated : s.Gated k script) {ok : Bool}
    (hstep : s.feedStep k capacity ok = some s') {b : ℕ}
    (hstop : s.pipe.builderStop b = true) : s'.pipe.queue b = [] := by
  rcases h.stopped b hstop with hbroken | hgone
  · have hnot := (broken_of_feedStep hbroken hstep).not_allReady
    rw [((hgated.feedStep hstep).untouched fun hopen => hnot hopen.2).queue]
  · exact absurd hgone (Owned.not_feedGone_of_step hstep)

theorem feedStep (h : s.Drains k) (hgated : s.Gated k script) {ok : Bool}
    (hstep : s.feedStep k capacity ok = some s') : s'.Drains k := by
  obtain ⟨hframe, hsame⟩ := feedStep_frame hstep
  have hflags : s'.pipe.builderStop = s.pipe.builderStop := by
    rcases feedStep_cases hstep with ⟨pipe, -, hpipe, rfl⟩ | ⟨g, st, -, rfl⟩
    · exact (Pipeline.feedMove_of_step hpipe).builderStop
    · rfl
  refine ⟨?_, ?_, ?_, ?_⟩
  · rw [hframe.started, hframe.client, hflags]
    exact h.unset
  · rw [hflags]
    intro b hb
    rcases h.stopped b hb with hbroken | hgone
    · exact Or.inl (broken_of_feedStep hbroken hstep)
    · exact absurd hgone (Owned.not_feedGone_of_step hstep)
  · intro b hb
    rw [(hsame b).2] at hb
    rw [hflags]
    exact h.draining b hb
  · intro b hb
    rw [(hsame b).2] at hb
    exact h.queue_of_feedStep hgated hstep (h.draining b (by rw [hb]; rfl))

theorem builderStep (h : s.Drains k) {b : ℕ} {ok : Bool}
    (hstep : s.builderStep b ok = some s') : s'.Drains k := by
  obtain ⟨hframe, hfeed, -⟩ := builderStep_frame hstep
  obtain ⟨hflags, hdraining, hexited⟩ :
      s'.pipe.builderStop = s.pipe.builderStop ∧
      (∀ b', (s'.pipe.builder b').draining = true → s.pipe.builderStop b' = true) ∧
      (∀ b', s'.pipe.builder b' = .exited → s'.pipe.queue b' = []) := by
    rcases builderStep_cases hstep with ⟨pipe, -, hpipe, rfl⟩ | ⟨g, st, -, rfl⟩
    · exact (Pipeline.builderMove_of_step hpipe).drains h.draining h.exited
    · exact ⟨rfl, h.draining, h.exited⟩
  refine ⟨?_, ?_, ?_, hexited⟩
  · rw [hframe.started, hframe.client, hflags]
    exact h.unset
  · rw [hflags]
    intro b' hb'
    refine (h.stopped b' hb').imp (fun hbroken => broken_of_builderStep hbroken hstep) ?_
    rintro (habsent | hdone)
    · exact Or.inl (hfeed.1.trans habsent)
    · exact Or.inr (hfeed.feedDone.trans hdone)
  · rw [hflags]
    exact hdraining

/-- No builder has been stopped yet. -/
theorem unstopped (h : s.Drains k) (hpc : s.client.creating = true)
    (hpipe : s'.pipe = s.pipe) : s'.Drains k := by
  have hflags := h.unset (Or.inr hpc)
  refine ⟨?_, ?_, ?_, ?_⟩ <;> rw [hpipe]
  · exact fun _ => hflags
  · intro b hb
    rw [hflags b] at hb
    cases hb
  · exact h.draining
  · exact h.exited

/-- A step of the client that touches neither a flag nor a thread. -/
theorem move (h : s.Drains k) (pc : ClientPc) (hpc : pc.creating = false) :
    Drains k { s with client := pc } := by
  refine { h with unset := ?_ }
  rintro (hstarted | hcreating)
  · exact h.unset (Or.inl hstarted)
  · change pc.creating = true at hcreating
    rw [hpc] at hcreating
    cases hcreating

theorem stopFeed (h : s.Drains k) : s.stopFeed.Drains k :=
  { h with }

theorem stopBuilder (h : s.Drains k) (hgated : s.Gated k script) {b : ℕ}
    (hpc : s.client.creating = false) (hb : b < s.builders)
    (hstop : s.Broken k ∨ s.FeedGone) : (s.stopBuilder b).Drains k := by
  have hmono : ∀ b', s.pipe.builderStop b' = true →
      Function.update s.pipe.builderStop b true b' = true := by
    intro b' hb'
    by_cases hbb : b' = b
    · simp [hbb]
    · simpa [hbb] using hb'
  refine { h with
    unset := ?_, stopped := ?_, draining := fun b' hb' => hmono b' (h.draining b' hb') }
  · rintro (hstarted | hcreating)
    · rw [(hgated.fresh hstarted).2.2.2] at hb
      exact absurd hb (Nat.not_lt_zero b)
    · change s.client.creating = true at hcreating
      rw [hpc] at hcreating
      cases hcreating
  · intro b' hb'
    by_cases hbb : b' = b
    · exact hstop
    · exact h.stopped b' (by simpa [FeedHandler.stopBuilder, hbb] using hb')

theorem client (h : s.Drains k) (hgated : s.Gated k script) (howned : s.Owned k)
    (hmove : ClientMove k s s') : s'.Drains k := by
  have hat := hgated.point
  have hpoint := howned.point
  cases hmove with
  | createFailed hpc =>
      refine h.unstopped ?_ rfl
      rcases hpc with hpc | ⟨i, -, hpc⟩ <;> rw [hpc] <;> rfl
  | makeBuilder hpc | makeFailed hpc | made hpc | createFeed hpc | createBuilder hpc
  | created hpc | ready hpc | failed hpc | unfailed hpc | go hpc =>
      exact h.unstopped (by rw [hpc]; rfl) rfl
  | abortFeed hpc | stopFeed hpc => exact h.stopFeed.move _ rfl
  | abortBuilder hpc hi =>
      rw [hpc] at hat
      exact (h.stopBuilder hgated (by rw [hpc]; rfl) hi (Or.inl hat.2.2.1)).move _ rfl
  | stopBuilder hpc hi =>
      rw [hpc] at hpoint
      exact (h.stopBuilder hgated (by rw [hpc]; rfl) hi (Or.inr hpoint.1)).move _ rfl
  | abortedBuilders | skipFeed | stoppedBuilders | skipBuilder => exact h.move _ rfl
  | abortGo => exact { h.move (.started false) rfl with }
  | returned => exact { h.move .idle rfl with }
  | joinFeed => exact { h.move (.stopBuilders 0) rfl with }
  | @joinBuilder i => exact { h.move (.joinBuilders (i + 1)) rfl with }
  | joined =>
      refine h.move _ ?_
      cases s.destroying <;> rfl

theorem enter (h : s.Drains k) (c : Call) : (s.enter c).Drains k := by
  unfold FeedHandler.enter
  cases c with
  | start =>
    dsimp only
    split
    · exact h
    · next hnot =>
      exact { h with unset := fun _ => h.unset (Or.inl (Bool.eq_false_iff.mpr hnot)) }
  | stopAndWait =>
    dsimp only
    split
    · exact h
    · exact { h.move .stopFeed rfl with }
  | destroy =>
    dsimp only
    split
    · exact { h.move .destroyed rfl with }
    · exact { h.move .stopFeed rfl with }

theorem step (h : s.Drains k) (hgated : s.Gated k script) (howned : s.Owned k) {a : Act}
    (hstep : s.step k capacity path a = some s') : s'.Drains k := by
  cases a with
  | call c =>
      rw [FeedHandler.step] at hstep
      split at hstep
      · cases hstep
        exact h.enter c
      · cases hstep
  | load file configured =>
      rw [FeedHandler.step] at hstep
      split at hstep
      · next hpc =>
        cases hstep
        refine h.unstopped (by rw [hpc]; rfl) ?_
        unfold FeedHandler.loadConfig
        split <;> rfl
      · cases hstep
  | client ok => exact h.client hgated howned (clientMove_of_step hstep)
  | feed ok => exact h.feedStep hgated hstep
  | builder b ok =>
      rw [FeedHandler.step] at hstep
      split at hstep
      · exact h.builderStep hstep
      · cases hstep

end Drains

/-! ## The events that come through -/

/-- The client changes only the stop flags of the pipeline. -/
theorem ClientMove.pipe (h : ClientMove k s s') :
    s'.pipe = s.pipe ∨
    s'.pipe = { s.pipe with stopRequested := true } ∨
    ∃ i, s'.pipe = { s.pipe with
      builderStop := Function.update s.pipe.builderStop i true } := by
  cases h with
  | abortFeed | stopFeed => exact Or.inr (Or.inl rfl)
  | @abortBuilder i | @stopBuilder i => exact Or.inr (Or.inr ⟨i, rfl⟩)
  | _ => exact Or.inl rfl

theorem enter_pipe (c : Call) : (s.enter c).pipe = s.pipe := by
  unfold enter
  cases c <;> dsimp only <;> split <;> rfl

theorem loadConfig_pipe (file : Option ThreadConfig.Stream) (configured : ℤ) :
    (s.loadConfig k path file configured).pipe = s.pipe := by
  unfold loadConfig
  split <;> rfl

/-- What a step does to the pipeline. -/
theorem step_pipe {a : Act} (hstep : s.step k capacity path a = some s') :
    s'.pipe = s.pipe ∨
    s'.pipe = { s.pipe with stopRequested := true } ∨
    (∃ i, s'.pipe = { s.pipe with
      builderStop := Function.update s.pipe.builderStop i true }) ∨
    Pipeline.FeedMove k capacity s.pipe s'.pipe ∨
    ∃ b, Pipeline.BuilderMove s.pipe b s'.pipe := by
  cases a with
  | call c =>
      rw [step] at hstep
      split at hstep
      · cases hstep
        exact Or.inl (enter_pipe c)
      · cases hstep
  | load file configured =>
      rw [step] at hstep
      split at hstep
      · cases hstep
        exact Or.inl (loadConfig_pipe file configured)
      · cases hstep
  | client ok =>
      rcases (clientMove_of_step hstep).pipe with h | h | h
      · exact Or.inl h
      · exact Or.inr (Or.inl h)
      · exact Or.inr (Or.inr (Or.inl h))
  | feed ok =>
      rcases feedStep_cases hstep with ⟨pipe, -, hpipe, rfl⟩ | ⟨g, st, -, rfl⟩
      · exact Or.inr (Or.inr (Or.inr (Or.inl (Pipeline.feedMove_of_step hpipe))))
      · exact Or.inl rfl
  | builder b ok =>
      rw [step] at hstep
      split at hstep
      · rcases builderStep_cases hstep with ⟨pipe, -, hpipe, rfl⟩ | ⟨g, st, -, rfl⟩
        · exact Or.inr (Or.inr (Or.inr (Or.inr ⟨b, Pipeline.builderMove_of_step hpipe⟩)))
        · exact Or.inl rfl
      · cases hstep

theorem kept_of_step {a : Act} (hstep : s.step k capacity path a = some s')
    (hwhole : whole → s.pipe.stopRequested = true → s.pipe.feed.between = true)
    (h : ∃ passes current, s.pipe.Kept k script whole passes current) :
    ∃ passes current, s'.pipe.Kept k script whole passes current := by
  obtain ⟨passes, current, h⟩ := h
  rcases step_pipe hstep with hpipe | hpipe | ⟨i, hpipe⟩ | hmove | ⟨b, hmove⟩
  · rw [hpipe]
    exact ⟨passes, current, h⟩
  · rw [hpipe]
    exact ⟨passes, current, h.feedMoved rfl h.between fun hstop => by cases hstop⟩
  · rw [hpipe]
    exact ⟨passes, current, { h with }⟩
  · exact h.feed hwhole hmove
  · exact ⟨passes, current, h.builder hmove⟩

/-- All that is needed to say what a stopped pipeline has applied. -/
structure Sound (k : ℕ) (script : List Iteration) (whole : Prop) (s : FeedHandler) : Prop where
  gated : s.Gated k script
  owned : s.Owned k
  drains : s.Drains k
  kept : ∃ passes current, s.pipe.Kept k script whole passes current

theorem sound_start : (system k capacity path script).start.Sound k script whole :=
  ⟨gated_start, owned_start, drains_start, 0, [], Pipeline.kept_start⟩

namespace Sound

theorem step (h : s.Sound k script whole) {a : Act}
    (hstep : s.step k capacity path a = some s')
    (hwhole : whole → s.pipe.stopRequested = true → s.pipe.feed.between = true) :
    s'.Sound k script whole :=
  ⟨h.gated.step hstep, h.owned.step h.gated hstep, h.drains.step h.gated h.owned hstep,
    kept_of_step hstep hwhole h.kept⟩

theorem allReady (h : s.Sound k script whole) (hok : s.startOk = true) : s.AllReady k := by
  have hpoint := h.gated.point
  have hfresh : s.started = true := by
    by_contra hnot
    rw [(h.gated.fresh (Bool.eq_false_iff.mpr hnot)).1] at hok
    cases hok
  cases hpc : s.client <;> rw [hpc] at hpoint
  case makeBuilders | loadConfig | createFeed | createBuilder | waitReady | loadFailed
      | countGo | abortFeed | abortBuilders | abortGo =>
    rw [hpoint.1.2.1] at hok
    cases hok
  case started =>
    rw [hpoint.2.1] at hok
    cases hok
  all_goals
    rcases hpoint hfresh with ⟨-, -, hall⟩ | ⟨hnot, -⟩
    · exact hall
    · rw [hnot] at hok
      cases hok

/-- The threads that have been joined have returned from their loops. -/
theorem exited (h : s.Sound k script whole) (hok : s.startOk = true)
    (hfeed : s.feedJoinable = false) (hbuilders : ∀ b, s.bbJoinable b = false) :
    s.pipe.feed = .exited ∧
    ∀ b < 2 ^ k, s.pipe.builder b = .exited ∧ s.pipe.queue b = [] := by
  have hall := h.allReady hok
  constructor
  · have hready : s.feedThread.Ready := hall 0 (Nat.succ_pos _)
    rcases h.owned.feedGone_of_not_joinable hfeed with habsent | hdone
    · simp [Stage.Ready, habsent] at hready
    · rcases hready with hst | hst
      · simp [feedDone, hst] at hdone
      · simpa [feedDone, hst] using hdone
  · intro b hb
    have hready : (s.bbThread b).Ready := hall (b + 1) (by omega)
    have hexited : s.pipe.builder b = .exited := by
      have hkept := (h.owned.builderKept b fun habsent => by
        simp [Stage.Ready, habsent] at hready).2
      rw [hbuilders b] at hkept
      rcases hready with hst | hst
      · simp [bbDone, hst] at hkept
      · simpa [bbDone, hst] using hkept
    exact ⟨hexited, h.drains.exited b hexited⟩

end Sound

theorem allEvents_drop_take {passes : ℕ} {current : List MboEvent}
    (h : Pipeline.allEvents (script.take (passes - 1)) ++ current =
      Pipeline.allEvents (script.take passes)) :
    current = Pipeline.allEvents ((script.take passes).drop (passes - 1)) := by
  have hsplit : script.take passes =
      script.take (passes - 1) ++ (script.take passes).drop (passes - 1) := by
    have hprefix := List.take_append_drop (passes - 1) (script.take passes)
    rw [List.take_take, min_eq_left (Nat.sub_le _ _)] at hprefix
    exact hprefix.symm
  rw [hsplit, Pipeline.allEvents_append] at h
  exact List.append_cancel_left h

/-- The handler is stopped and destroyed only after `feed_finished()` has returned
true, or `start` has failed. -/
def Waits (s : FeedHandler) : Act → Prop
  | .call .stopAndWait | .call .destroy =>
    s.pipe.finished = true ∨ s.started = true ∧ s.startOk = false
  | _ => True

structure Finishes (k : ℕ) (s : FeedHandler) : Prop where
  unset : s.started = false ∨ s.client.creating = true → s.pipe.stopRequested = false
  stopRequested : s.pipe.stopRequested = true →
    s.Broken k ∨ s.pipe.feed.between = true ∧ s.pipe.script = []
  finishing : s.pipe.feed = .finish ∨ s.pipe.feed = .exited → s.pipe.stopRequested = true
  finished : s.pipe.finished = true → s.pipe.feed = .exited
  stopping : s.client = .stopFeed →
    s.started = true ∧ s.Broken k ∨ s.pipe.stopRequested = true

theorem finishes_start : (system k capacity path script).start.Finishes k := by
  refine ⟨fun _ => rfl, ?_, ?_, ?_, ?_⟩ <;> simp [system]

namespace Finishes

/-- No event is dropped. -/
theorem between (h : s.Finishes k) (hgated : s.Gated k script)
    (hstop : s.pipe.stopRequested = true) : s.pipe.feed.between = true := by
  rcases h.stopRequested hstop with hbroken | ⟨hbetween, -⟩
  · have huntouched := hgated.untouched fun hopen => hbroken.not_allReady hopen.2
    rcases huntouched.feed with hpc | hpc | hpc <;> rw [hpc] <;> rfl
  · exact hbetween

theorem not_stopRequested (h : s.Finishes k) (hgated : s.Gated k script)
    (hpc : s.pipe.feed.between = false) : s.pipe.stopRequested = false := by
  rw [Bool.eq_false_iff]
  intro hstop
  rw [h.between hgated hstop] at hpc
  cases hpc

theorem not_creating (hgated : s.Gated k script) (hopen : s.gate.go = 0) :
    ¬ (s.started = false ∨ s.client.creating = true) := by
  have hpoint := hgated.point
  have hnot : ¬ s.Starting := fun hstart => by
    have hgo := hstart.2.2
    rw [hopen] at hgo
    cases hgo
  rintro (hstarted | hcreating)
  · rw [(hgated.fresh hstarted).2.2.1] at hopen
    cases hopen
  · cases hpc : s.client <;> rw [hpc] at hpoint hcreating <;>
      first | exact hnot hpoint.1 | cases hcreating

/-- A step of the feed that keeps it in its loop, before a stop is requested. -/
theorem feedStays (h : s.Finishes k) (hstop : s.pipe.stopRequested = false)
    (hold : s.pipe.feed ≠ .exited) {pc : FeedPc} (hpc : pc ≠ .finish ∧ pc ≠ .exited)
    {script' : List Iteration} {todo emitted : List MboEvent} {queueFull : ℕ}
    {queue : ℕ → List MboEvent} :
    Finishes k { s with pipe := { s.pipe with
      feed := pc, script := script', todo, emitted, queueFull, queue } } := by
  refine { h with stopRequested := ?_, finishing := ?_, finished := ?_ }
  · intro hstop'
    change s.pipe.stopRequested = true at hstop'
    rw [hstop] at hstop'
    cases hstop'
  · rintro (heq | heq)
    · exact absurd heq hpc.1
    · exact absurd heq hpc.2
  · exact fun hfin => absurd (h.finished hfin) hold

theorem feedMove (h : s.Finishes k) (hgated : s.Gated k script) (hopen : s.gate.go = 0)
    {pipe : Pipeline} (hmove : Pipeline.FeedMove k capacity s.pipe pipe) :
    Finishes k { s with pipe } := by
  have hold := hmove.not_exited
  have hnot := not_creating hgated hopen
  cases hmove with
  | leave hpc hstop =>
      refine { h with
        stopRequested := fun _ => ?_
        finishing := fun _ => hstop
        finished := fun hfin => absurd (h.finished hfin) hold }
      exact (h.stopRequested hstop).imp_right fun hright => ⟨rfl, hright.2⟩
  | pass hpc hstop => exact h.feedStays hstop hold (by simp)
  | placed hpc =>
      refine h.feedStays (h.not_stopRequested hgated ?_) hold (by simp)
      rcases hpc with hpc | hpc <;> rw [hpc] <;> rfl
  | emit hpc | full hpc | stillFull hpc | again hpc | endPass hpc =>
      exact h.feedStays (h.not_stopRequested hgated (by rw [hpc]; rfl)) hold (by simp)
  | stop hpc htodo hscript =>
      exact { h with
        unset := fun hcreating => absurd hcreating hnot
        stopRequested := fun _ => Or.inr ⟨rfl, hscript⟩
        finishing := fun _ => rfl
        finished := fun hfin => absurd (h.finished hfin) hold
        stopping := fun _ => Or.inr rfl }
  | discard hpc hstop =>
      rw [h.not_stopRequested hgated (by rw [hpc]; rfl)] at hstop
      cases hstop
  | finish hpc =>
      have hstop := h.finishing (Or.inl hpc)
      exact { h with
        stopRequested := fun _ => (h.stopRequested hstop).imp_right fun hright => ⟨rfl, hright.2⟩
        finishing := fun _ => hstop
        finished := fun _ => rfl }

theorem feedStep (h : s.Finishes k) (hgated : s.Gated k script) {ok : Bool}
    (hstep : s.feedStep k capacity ok = some s') : s'.Finishes k := by
  have hbroken := fun hb : s.Broken k => broken_of_feedStep hb hstep
  rcases feedStep_cases hstep with ⟨pipe, hrun, hpipe, rfl⟩ | ⟨g, st, -, rfl⟩
  · exact h.feedMove hgated (hgated.running 0 (Nat.succ_pos _) hrun)
      (Pipeline.feedMove_of_step hpipe)
  · exact { h with
      stopRequested := fun hstop => (h.stopRequested hstop).imp_left hbroken
      stopping := fun hpc => (h.stopping hpc).imp_left fun hleft => ⟨hleft.1, hbroken hleft.2⟩ }

theorem builderStep (h : s.Finishes k) {b : ℕ} {ok : Bool}
    (hstep : s.builderStep b ok = some s') : s'.Finishes k := by
  have hbroken := fun hb : s.Broken k => broken_of_builderStep hb hstep
  rcases builderStep_cases hstep with ⟨pipe, -, hpipe, rfl⟩ | ⟨g, st, -, rfl⟩
  · have hmove := Pipeline.builderMove_of_step hpipe
    cases hmove <;> exact { h with }
  · exact { h with
      stopRequested := fun hstop => (h.stopRequested hstop).imp_left hbroken
      stopping := fun hpc => (h.stopping hpc).imp_left fun hleft => ⟨hleft.1, hbroken hleft.2⟩ }

/-! ### The client -/

/-- The feed has not been stopped yet. -/
theorem unstopped (h : s.Finishes k) (hpc : s.client.creating = true)
    (hpipe : s'.pipe = s.pipe) (hpc' : s'.client ≠ .stopFeed) : s'.Finishes k := by
  have hflag := h.unset (Or.inr hpc)
  refine ⟨?_, ?_, ?_, ?_, fun hstop => absurd hstop hpc'⟩ <;> rw [hpipe]
  · exact fun _ => hflag
  · intro hstop
    rw [hflag] at hstop
    cases hstop
  · exact h.finishing
  · exact h.finished

theorem move (h : s.Finishes k) (pc : ClientPc) (hpc : pc.creating = false)
    (hpc' : pc ≠ .stopFeed) : Finishes k { s with client := pc } := by
  refine { h with unset := ?_, stopping := fun hstop => absurd hstop hpc' }
  rintro (hstarted | hcreating)
  · exact h.unset (Or.inl hstarted)
  · change pc.creating = true at hcreating
    rw [hpc] at hcreating
    cases hcreating

theorem stopFeed (h : s.Finishes k) (hpc : s.client.creating = false)
    (hstop : s.started = true ∧ s.Broken k ∨ s.pipe.stopRequested = true) :
    s.stopFeed.Finishes k := by
  have hstarted : s.started = true := by
    by_contra hnot
    rcases hstop with hleft | hstop
    · exact hnot hleft.1
    · rw [h.unset (Or.inl (Bool.eq_false_iff.mpr hnot))] at hstop
      cases hstop
  refine { h with
    unset := ?_
    stopRequested := fun _ => hstop.elim (fun hleft => Or.inl hleft.2) h.stopRequested
    finishing := fun _ => rfl
    stopping := fun _ => Or.inr rfl }
  rintro (hnot | hcreating)
  · change s.started = false at hnot
    rw [hstarted] at hnot
    cases hnot
  · change s.client.creating = true at hcreating
    rw [hpc] at hcreating
    cases hcreating

theorem client (h : s.Finishes k) (hgated : s.Gated k script)
    (hmove : ClientMove k s s') : s'.Finishes k := by
  have hat := hgated.point
  cases hmove with
  | createFailed hpc =>
      refine h.unstopped ?_ rfl (by simp)
      rcases hpc with hpc | ⟨i, -, hpc⟩ <;> rw [hpc] <;> rfl
  | makeBuilder hpc | makeFailed hpc | made hpc | createFeed hpc | createBuilder hpc
  | created hpc | ready hpc | failed hpc | unfailed hpc | go hpc =>
      exact h.unstopped (by rw [hpc]; rfl) rfl (by simp)
  | abortFeed hpc =>
      rw [hpc] at hat
      exact (h.stopFeed (by rw [hpc]; rfl) (Or.inl ⟨hat.1.1, hat.2.2⟩)).move _ rfl (by simp)
  | stopFeed hpc =>
      exact (h.stopFeed (by rw [hpc]; rfl) (h.stopping hpc)).move _ rfl (by simp)
  | @abortBuilder i => exact { h.move (.abortBuilders (i + 1)) rfl (by simp) with }
  | @stopBuilder i => exact { h.move (.stopBuilders (i + 1)) rfl (by simp) with }
  | abortedBuilders | skipFeed | stoppedBuilders | skipBuilder => exact h.move _ rfl (by simp)
  | abortGo => exact { h.move (.started false) rfl (by simp) with }
  | returned => exact { h.move .idle rfl (by simp) with }
  | joinFeed => exact { h.move (.stopBuilders 0) rfl (by simp) with }
  | @joinBuilder i => exact { h.move (.joinBuilders (i + 1)) rfl (by simp) with }
  | joined =>
      refine h.move _ ?_ ?_ <;> cases s.destroying <;> simp [ClientPc.creating]

theorem stopCall (h : s.Finishes k) (hgated : s.Gated k script) (hpc : s.client = .idle)
    (hwaits : s.pipe.finished = true ∨ s.started = true ∧ s.startOk = false) :
    s.started = true ∧ s.Broken k ∨ s.pipe.stopRequested = true := by
  rcases hwaits with hfin | ⟨hstarted, hok⟩
  · exact Or.inr (h.finishing (Or.inr (h.finished hfin)))
  · have hat := hgated.point
    rw [hpc] at hat
    rcases hat hstarted with ⟨hok', -⟩ | ⟨-, hbroken⟩
    · rw [hok] at hok'
      cases hok'
    · exact Or.inl ⟨hstarted, hbroken⟩

theorem enter (h : s.Finishes k) (hgated : s.Gated k script) (hpc : s.client = .idle)
    {c : Call} (hwaits : s.Waits (.call c)) : (s.enter c).Finishes k := by
  have hunset : ∀ {pc : ClientPc}, pc.creating = false →
      s.started = false ∨ pc.creating = true → s.pipe.stopRequested = false := by
    rintro pc hnot (hstarted | hcreating)
    · exact h.unset (Or.inl hstarted)
    · rw [hnot] at hcreating
      cases hcreating
  unfold FeedHandler.enter
  cases c with
  | start =>
    dsimp only
    split
    · exact h
    · next hnot =>
      exact { h with
        unset := fun _ => h.unset (Or.inl (Bool.eq_false_iff.mpr hnot))
        stopping := fun hstop => by cases hstop }
  | stopAndWait =>
    dsimp only
    split
    · exact h
    · exact { h with
        unset := hunset rfl
        stopping := fun _ => h.stopCall hgated hpc hwaits }
  | destroy =>
    dsimp only
    split
    · exact { h with
        unset := hunset rfl
        stopping := fun hstop => by cases hstop }
    · exact { h with
        unset := hunset rfl
        stopping := fun _ => h.stopCall hgated hpc hwaits }

theorem step (h : s.Finishes k) (hgated : s.Gated k script) {a : Act} (hwaits : s.Waits a)
    (hstep : s.step k capacity path a = some s') : s'.Finishes k := by
  cases a with
  | call c =>
      rw [FeedHandler.step] at hstep
      split at hstep
      · next hpc =>
        cases hstep
        exact h.enter hgated hpc hwaits
      · cases hstep
  | load file configured =>
      rw [FeedHandler.step] at hstep
      split at hstep
      · next hpc =>
        cases hstep
        refine h.unstopped (by rw [hpc]; rfl) (loadConfig_pipe file configured) ?_
        unfold FeedHandler.loadConfig
        split <;> simp
      · cases hstep
  | client ok => exact h.client hgated (clientMove_of_step hstep)
  | feed ok => exact h.feedStep hgated hstep
  | builder b ok =>
      rw [FeedHandler.step] at hstep
      split at hstep
      · exact h.builderStep hstep
      · cases hstep

end Finishes

theorem sound_of_waits (h : (system k capacity path script).ReachableVia Waits s) :
    s.Sound k script True ∧ s.Finishes k :=
  h.invariant (P := fun s => s.Sound k script True ∧ s.Finishes k)
    ⟨sound_start, finishes_start⟩ fun _ _ _ hs hwaits hstep =>
      ⟨hs.1.step hstep fun _ hstop => hs.2.between hs.1.gated hstop,
        hs.2.step hs.1.gated hwaits hstep⟩

/-- A client that waits for the feed before it stops the handler: once the threads
are joined, every builder has applied all events of its shard, in order. -/
theorem finished_applied (h : (system k capacity path script).ReachableVia Waits s)
    (hok : s.startOk = true) (hfeed : s.feedJoinable = false)
    (hbuilders : ∀ b, s.bbJoinable b = false) {b : ℕ} (hb : b < 2 ^ k) :
    s.pipe.applied b = Pipeline.ofShard k b (Pipeline.allEvents script) := by
  obtain ⟨hsound, hfinishes⟩ := sound_of_waits h
  obtain ⟨hexited, hall⟩ := hsound.exited hok hfeed hbuilders
  obtain ⟨passes, current, hkept⟩ := hsound.kept
  obtain ⟨kept, happlied, -, hwhole⟩ := hkept.applied_eq hexited (hall b hb).1 (hall b hb).2
  have hscript : s.pipe.script = [] := by
    rcases hfinishes.stopRequested (hfinishes.finishing (Or.inr hexited)) with hbroken | hright
    · exact absurd (hsound.allReady hok) hbroken.not_allReady
    · exact hright.2
  have htake : script.take passes = script :=
    List.take_of_length_le (List.drop_eq_nil_iff.mp (hkept.rest.symm.trans hscript))
  rw [happlied, hwhole trivial, ← Pipeline.ofShard_append, hkept.current_eq hexited, htake]

/-! ## The destructor -/

/-- A handler that has been stopped is not started any more. -/
def Orderly (s : FeedHandler) (a : Act) : Prop :=
  a = .call .start → s.started = true ∨ s.stopped = false

/-- The threads that are not joinable any more. -/
def JoinedAt (s : FeedHandler) : ClientPc → Prop
  | .stopFeed | .joinFeed => s.stopped = true
  | .stopBuilders _ => s.stopped = true ∧ s.feedJoinable = false
  | .joinBuilders i =>
    s.stopped = true ∧ s.feedJoinable = false ∧ ∀ b < i, s.bbJoinable b = false
  | .destroyed => s.feedJoinable = false ∧ ∀ b, s.bbJoinable b = false
  | .idle => s.stopped = true → s.feedJoinable = false ∧ ∀ b, s.bbJoinable b = false
  | _ => s.stopped = false

theorem joinedAt_of_frame (hframe : s.ThreadFrame s') (h : s.JoinedAt s.client) :
    s'.JoinedAt s'.client := by
  rw [hframe.client]
  generalize s.client = pc at h
  cases pc <;>
    simpa only [JoinedAt, hframe.stopped, hframe.feedJoinable, hframe.bbJoinable] using h

theorem ClientMove.joinedAt (hmove : ClientMove k s s') (howned : s.Owned k)
    (h : s.JoinedAt s.client) : s'.JoinedAt s'.client := by
  cases hmove with
  | createFailed hpc =>
      rcases hpc with hpc | ⟨i, -, hpc⟩ <;> rw [hpc] at h <;> exact h
  | makeFailed hpc =>
      rw [hpc] at h
      change s.stopped = false at h
      intro hstopped
      change s.stopped = true at hstopped
      rw [h] at hstopped
      cases hstopped
  | returned hpc =>
      rw [hpc] at h
      change s.stopped = false at h
      intro hstopped
      change s.stopped = true at hstopped
      rw [h] at hstopped
      cases hstopped
  | joinFeed hpc =>
      rw [hpc] at h
      exact ⟨h, rfl⟩
  | skipFeed hpc hnot =>
      rw [hpc] at h
      exact ⟨h, hnot⟩
  | stoppedBuilders hpc =>
      rw [hpc] at h
      exact ⟨h.1, h.2, fun b hb => absurd hb (Nat.not_lt_zero b)⟩
  | @joinBuilder i hpc =>
      rw [hpc] at h
      refine ⟨h.1, h.2.1, fun b hb => ?_⟩
      by_cases hbi : b = i
      · simp [hbi]
      · simpa [hbi] using h.2.2 b (by omega)
  | @skipBuilder i hpc hi hnot =>
      rw [hpc] at h
      refine ⟨h.1, h.2.1, fun b hb => ?_⟩
      rcases Nat.lt_succ_iff_lt_or_eq.mp hb with hlt | rfl
      · exact h.2.2 b hlt
      · exact hnot
  | @joined i hpc hi =>
      rw [hpc] at h
      have hall : s.feedJoinable = false ∧ ∀ b, s.bbJoinable b = false := by
        refine ⟨h.2.1, fun b => ?_⟩
        rw [Bool.eq_false_iff]
        intro hjoin
        have hlt := (howned.builderKept b (howned.builder b hjoin)).1
        rw [h.2.2 b (hlt.trans_le (not_lt.mp hi))] at hjoin
        cases hjoin
      unfold leave
      cases s.destroying
      · exact fun _ => hall
      · exact hall
  | makeBuilder hpc | made hpc | createFeed hpc | createBuilder hpc
  | created hpc | ready hpc | failed hpc | unfailed hpc | go hpc | abortFeed hpc
  | abortBuilder hpc | abortedBuilders hpc | abortGo hpc | stopFeed hpc | stopBuilder hpc =>
      rw [hpc] at h
      exact h

theorem joinedAt_step (howned : s.Owned k) (h : s.JoinedAt s.client) {a : Act}
    (horderly : s.Orderly a) (hstep : s.step k capacity path a = some s') :
    s'.JoinedAt s'.client := by
  cases a with
  | call c =>
      rw [step] at hstep
      split at hstep
      · next hpc =>
        cases hstep
        rw [hpc] at h
        cases c with
        | start =>
          rw [enter]
          split
          · rwa [hpc]
          · next hnot => exact (horderly rfl).resolve_left hnot
        | stopAndWait =>
          rw [enter]
          split
          · rwa [hpc]
          · rfl
        | destroy =>
          rw [enter]
          split
          · next hstopped => exact h hstopped
          · rfl
      · cases hstep
  | load file configured =>
      rw [step] at hstep
      split at hstep
      · next hpc =>
        cases hstep
        rw [hpc] at h
        unfold loadConfig
        split <;> exact h
      · cases hstep
  | client ok => exact (clientMove_of_step hstep).joinedAt howned h
  | feed ok => exact joinedAt_of_frame (feedStep_frame hstep).1 h
  | builder b ok =>
      rw [step] at hstep
      split at hstep
      · exact joinedAt_of_frame (builderStep_frame hstep).1 h
      · cases hstep

theorem joinedAt_of_orderly (h : (system k capacity path script).ReachableVia Orderly s) :
    s.JoinedAt s.client := by
  have hboth := h.invariant
    (P := fun s => (system k capacity path script).Reachable s ∧ s.JoinedAt s.client)
    ⟨.start, by intro hstopped; cases hstopped⟩ fun _ _ _ hs horderly hstep =>
      ⟨hs.1.step hstep, joinedAt_step (owned_of_reachable hs.1) hs.2 horderly hstep⟩
  exact hboth.2

/-- If a handler is not started after it has been stopped, then every thread that
was created has returned from `run` and has been joined when the destructor is
over, however far `start` has got. -/
theorem destroyed_joined (h : (system k capacity path script).ReachableVia Orderly s)
    (hpc : s.client = .destroyed) :
    s.feedJoinable = false ∧ (∀ b, s.bbJoinable b = false) ∧
    (s.feedThread ≠ .absent → s.feedDone = true) ∧
    ∀ b, s.bbThread b ≠ .absent → s.bbDone b = true := by
  have howned := owned_of_reachable h.reachable
  have hjoined := joinedAt_of_orderly h
  rw [hpc] at hjoined
  refine ⟨hjoined.1, hjoined.2, fun hst => ?_, fun b hst => ?_⟩
  · rcases howned.feedKept hst with hjoin | hdone
    · rw [hjoined.1] at hjoin
      cases hjoin
    · exact hdone
  · rcases (howned.builderKept b hst).2 with hjoin | hdone
    · rw [hjoined.2 b] at hjoin
      cases hjoin
    · exact hdone

theorem destroyed_joined_life :
    ∃ s, (system 1 1 "threads.cfg" Pipeline.sampleScript).ReachableVia Orderly s ∧
      s.client = .destroyed ∧ s.feedThread = .running ∧ s.feedDone = true := by
  let T := system 1 1 "threads.cfg" Pipeline.sampleScript
  have hstart : T.run T.start (startSchedule ++ []) = some (configured Pipeline.sampleScript) :=
    run_startSchedule []
  have hconfigured : T.ReachableVia Orderly (configured Pipeline.sampleScript) :=
    (TransitionSystem.ReachableVia.start.step (a := .call .start) (fun _ => Or.inr rfl) rfl).run
      (l := List.replicate 3 (.client true) ++ [.load (some ThreadConfig.plainFile) 8])
      (by simp [Orderly]) hstart
  obtain ⟨s, hrun, hpc, hst⟩ :
      ∃ s, T.run (configured Pipeline.sampleScript) lifeSchedule = some s ∧
        s.client = .destroyed ∧ s.feedThread = .running := ⟨_, rfl, rfl, rfl⟩
  have hreach := hconfigured.run (by simp [lifeSchedule, Orderly]) hrun
  exact ⟨s, hreach, hpc, hst, (destroyed_joined hreach hpc).2.2.1 (by simp [hst])⟩

end FeedHandler

end Fastbook

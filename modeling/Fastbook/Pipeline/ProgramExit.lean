import Fastbook.Pipeline.FileBooks
import Fastbook.Pipeline.Program

/-!
# The end of the program

Under a fair scheduler the program comes to its end, and its exit code tells how.
Without a signal, the books at the end are those of the whole input.

The phases of the main thread come first in the rank.  Within a call it is the rank of
the call, and while the main thread polls, that of the feed.
-/

namespace Fastbook

open Support

namespace Program

variable {k capacity : ℕ} {path : String} {cmd : Command} {made : Bool}
  {script : List Iteration} {input : CommandLine.Source → List Iteration} {s s' : Program}

/-! ## The program comes to its end -/

/-- How far a call is from its end. -/
def callRank (k : ℕ) (h : FeedHandler) : ℕ ×ₗ ℕ :=
  toLex (h.client.rank (2 ^ k), h.waitRank k)

/-- How far the loop of `run_until_done` is from its end, before and after the wait
for a signal. -/
def pollRank (k capacity : ℕ) (h : FeedHandler) (waits : ℕ) : ℕ ×ₗ ℕ :=
  if h.pipe.finished then toLex (0, waits) else h.runRank k capacity

def phase : MainPc → ℕ
  | .starting => 4
  | .poll | .wait => 3
  | .stopping => 2
  | .destroying _ => 1
  | .exited _ | .terminated => 0

/-- How far the main thread is from its next phase. -/
def left (k capacity : ℕ) (s : Program) : ℕ ×ₗ ℕ :=
  match s.main with
  | .poll => pollRank k capacity s.handler 0
  | .wait => pollRank k capacity s.handler 1
  | _ => callRank k s.handler

def rank (k capacity : ℕ) (s : Program) : ℕ ×ₗ (ℕ ×ₗ ℕ) :=
  toLex (phase s.main, s.left k capacity)

/-- The thread whose step brings the program nearer to its end. -/
def helpful (k capacity : ℕ) (s : Program) : Pipeline.Thread :=
  match s.main with
  | .poll | .wait =>
    if s.handler.pipe.finished then .controller else s.handler.runsFor k capacity
  | _ => s.handler.waitsFor k

/-- The step of a thread brings the program nearer to its end, or another thread is
needed for that. -/
def Nears (k capacity : ℕ) (s s' : Program) (t : Option Pipeline.Thread) : Prop :=
  s'.rank k capacity < s.rank k capacity ∨
    s'.rank k capacity = s.rank k capacity ∧
      s'.helpful k capacity = s.helpful k capacity ∧ t ≠ some (s.helpful k capacity)

theorem nears_of_phase {t : Option Pipeline.Thread} (h : phase s'.main < phase s.main) :
    s.Nears k capacity s' t :=
  Or.inl (Prod.Lex.toLex_lt_toLex.mpr (Or.inl h))

theorem nears_of_left {t : Option Pipeline.Thread} (hphase : phase s'.main = phase s.main)
    (h : s'.left k capacity < s.left k capacity) : s.Nears k capacity s' t :=
  Or.inl (Prod.Lex.toLex_lt_toLex.mpr (Or.inr ⟨hphase, h⟩))

theorem nears_of_helpful {t : Option Pipeline.Thread} (hphase : phase s'.main = phase s.main)
    (hleft : s'.left k capacity = s.left k capacity)
    (hsame : s'.helpful k capacity = s.helpful k capacity)
    (hother : t ≠ some (s.helpful k capacity)) : s.Nears k capacity s' t := by
  refine Or.inr ⟨?_, hsame, hother⟩
  rw [rank, rank, hphase, hleft]

theorem callRank_of_out {h : FeedHandler} (hout : h.client.Out) :
    callRank k h = toLex (0, 0) := by
  rcases hout with hpc | hpc <;> simp [callRank, FeedHandler.waitRank, hpc, ClientPc.rank]

theorem waitsFor_of_out {h : FeedHandler} (hout : h.client.Out) :
    h.waitsFor k = .controller := by
  rcases hout with hpc | hpc <;> simp [FeedHandler.waitsFor, hpc]

theorem callRank_pos {h : FeedHandler} (hbusy : ¬ h.client.Out) :
    toLex (0, 0) < callRank k h := by
  refine Prod.Lex.toLex_lt_toLex.mpr (Or.inl ?_)
  cases hpc : h.client with
  | idle => exact absurd (Or.inl hpc) hbusy
  | destroyed => exact absurd (Or.inr hpc) hbusy
  | _ =>
      -- the bounds of the loops do not matter
      generalize 2 ^ k = n
      simp only [ClientPc.rank]
      omega

/-- The main thread is in a call. -/
def Calls (s : Program) : Prop :=
  s.main = .starting ∨ s.main = .stopping ∨ ∃ code, s.main = .destroying code

theorem Calls.left (h : s.Calls) : s.left k capacity = callRank k s.handler := by
  rcases h with hmain | hmain | ⟨code, hmain⟩ <;> rw [Program.left, hmain]

theorem Calls.helpful (h : s.Calls) : s.helpful k capacity = s.handler.waitsFor k := by
  rcases h with hmain | hmain | ⟨code, hmain⟩ <;> rw [Program.helpful, hmain]

/-- A step within a call of the main thread, or of another thread in the meantime. -/
theorem Calls.nears (h : s.Calls)
    (hreach : (FeedHandler.system k capacity path script).Reachable s.handler)
    {a : FeedHandler.Act} (hcall : ∀ c, a ≠ .call c) {handler : FeedHandler}
    (hstep : s.handler.step k capacity path a = some handler) :
    s.Nears k capacity { s with handler } (FeedHandler.threadOf a) := by
  have h' : Calls { s with handler } := h
  by_cases hout : s.handler.client.Out
  · obtain ⟨t, ha, ht⟩ := FeedHandler.threadOf_of_out hout hcall hstep
    have hclient := (FeedHandler.step_of_thread ha ht hstep).1.client
    have hout' : handler.client.Out := by rwa [hclient]
    refine nears_of_helpful rfl ?_ ?_ ?_
    · rw [h.left, h'.left, callRank_of_out hout, callRank_of_out hout']
    · rw [h.helpful, h'.helpful, waitsFor_of_out hout, waitsFor_of_out hout']
    · rw [h.helpful, waitsFor_of_out hout, ha]
      exact fun heq => ht (Option.some.inj heq)
  · have hhelps := FeedHandler.step_helps (FeedHandler.gated_of_reachable hreach)
      (FeedHandler.owned_of_reachable hreach) hout hstep
    rcases hhelps with hout' | ⟨-, hlt | ⟨heq, hsame, hother⟩⟩
    · refine nears_of_left rfl ?_
      rw [h.left, h'.left, callRank_of_out hout']
      exact callRank_pos hout
    · refine nears_of_left rfl ?_
      rw [h.left, h'.left]
      exact hlt
    · refine nears_of_helpful rfl ?_ ?_ ?_
      · rw [h.left, h'.left]
        exact heq
      · rw [h.helpful, h'.helpful, hsame]
      · rw [h.helpful]
        exact hother

theorem runsFor_ne_controller {h : FeedHandler} : h.runsFor k capacity ≠ .controller := by
  unfold FeedHandler.runsFor
  split <;> simp

/-- A step of the main thread between its calls. -/
theorem mainStep_nears {sig : Option Signal} (hstep : s.mainStep sig = some s') :
    s'.Over ∨ s.Nears k capacity s' (some .controller) := by
  unfold Program.mainStep at hstep
  cases hmain : s.main with
  | starting =>
      simp only [hmain] at hstep
      split_ifs at hstep <;> cases hstep <;>
        exact Or.inr (nears_of_phase (by simp [phase, hmain]))
  | poll =>
      simp only [hmain] at hstep
      split_ifs at hstep with hfin
      · cases hstep
        exact Or.inr (nears_of_phase (by simp [phase, hmain]))
      · cases hstep
        refine Or.inr (nears_of_helpful (by simp [phase, hmain]) ?_ ?_ ?_)
        · simp [left, pollRank, hmain, hfin]
        · simp [helpful, hmain]
        · simpa [helpful, hmain, hfin] using runsFor_ne_controller.symm
  | wait =>
      simp only [hmain] at hstep
      cases sig with
      | none =>
        cases hstep
        refine Or.inr ?_
        cases hfin : s.handler.pipe.finished with
        | true =>
            refine nears_of_left (by simp [phase, hmain]) ?_
            simp only [left, pollRank, hmain, hfin, if_true]
            exact Prod.Lex.toLex_lt_toLex.mpr (Or.inr ⟨rfl, Nat.zero_lt_one⟩)
        | false =>
            refine nears_of_helpful (by simp [phase, hmain]) ?_ ?_ ?_
            · simp [left, pollRank, hmain, hfin]
            · simp [helpful, hmain]
            · simpa [helpful, hmain, hfin] using runsFor_ne_controller.symm
      | some sg =>
        cases hstep
        exact Or.inr (nears_of_phase (by simp [phase, hmain]))
  | stopping =>
      simp only [hmain] at hstep
      split_ifs at hstep
      cases hstep
      exact Or.inr (nears_of_phase (by simp [phase, hmain]))
  | destroying code =>
      simp only [hmain] at hstep
      split_ifs at hstep
      cases hstep
      exact Or.inl (Or.inr ⟨code, rfl⟩)
  | exited code | terminated =>
      simp only [hmain] at hstep
      cases hstep

/-- The main thread waits for the feed or for a signal. -/
def Polls (s : Program) : Prop :=
  s.main = .poll ∨ s.main = .wait

theorem Polls.helpful (h : s.Polls) :
    s.helpful k capacity =
      if s.handler.pipe.finished then .controller else s.handler.runsFor k capacity := by
  rcases h with hmain | hmain <;> rw [Program.helpful, hmain]

theorem Polls.left (h : s.Polls) (k capacity : ℕ) (handler : FeedHandler) : ∃ waits,
    s.left k capacity = pollRank k capacity s.handler waits ∧
      Program.left k capacity { s with handler } = pollRank k capacity handler waits := by
  rcases h with hmain | hmain <;> simp only [Program.left, hmain] <;> exact ⟨_, rfl, rfl⟩

theorem Inv.runs (h : s.Inv k capacity path script) (hscript : script ≠ []) (hpolls : s.Polls)
    (hfin : s.handler.pipe.finished = false) : s.handler.Runs k := by
  have hpoint := h.point
  obtain ⟨hsig, hstarted, -, -, hidle, hok⟩ : s.At .poll := by
    rcases hpolls with hmain | hmain <;> rwa [hmain] at hpoint
  obtain ⟨hsound, hfinishes⟩ := FeedHandler.sound_of_waits (h.waits hsig)
  exact FeedHandler.runs_of_idle hsound.gated hsound.drains hfinishes (h.fed hscript) hidle
    hstarted hok hfin

/-- A step of the feed or of a builder while the main thread polls. -/
theorem Polls.nears (h : s.Polls) (hcap : 0 < capacity) (hscript : script ≠ [])
    (hinv : s.Inv k capacity path script) {a : FeedHandler.Act} (hcall : ∀ c, a ≠ .call c)
    {handler : FeedHandler} (hstep : s.handler.step k capacity path a = some handler) :
    s.Nears k capacity { s with handler } (FeedHandler.threadOf a) := by
  have hpoint := hinv.point
  obtain ⟨-, -, -, -, hidle, -⟩ : s.At .poll := by
    rcases h with hmain | hmain <;> rwa [hmain] at hpoint
  have h' : Polls { s with handler } := h
  obtain ⟨waits, hleft, hleft'⟩ := h.left k capacity handler
  obtain ⟨t, ha, ht⟩ := FeedHandler.threadOf_of_out (Or.inl hidle) hcall hstep
  cases hfin : s.handler.pipe.finished with
  | true =>
      have hfin' := FeedHandler.finished_of_step hstep hfin
      refine nears_of_helpful rfl ?_ ?_ ?_
      · simp only [hleft, hleft', pollRank, hfin, hfin', if_true]
      · simp only [h.helpful, h'.helpful, hfin, hfin', if_true]
      · simpa [h.helpful, hfin, ha] using ht
  | false =>
      have hruns := hinv.runs hscript h hfin
      have hadvances : s.handler.Advances k capacity handler t := by
        cases a with
        | call c => exact absurd rfl (hcall c)
        | load file configured | client ok =>
            cases ha
            exact absurd rfl ht
        | feed ok =>
            cases ha
            exact hruns.feedStep hstep
        | builder b ok =>
            cases ha
            rw [FeedHandler.step] at hstep
            split at hstep
            · exact hruns.builderStep hcap hstep
            · cases hstep
      cases hfin' : handler.pipe.finished with
      | true =>
          refine nears_of_left rfl ?_
          simp only [hleft, hleft', pollRank, hfin, hfin', if_true, Bool.false_eq_true, if_false]
          exact Prod.Lex.toLex_lt_toLex.mpr (Or.inl (hruns.work_pos hfin))
      | false =>
          rcases hadvances with hlt | ⟨heq, hsame, hother⟩
          · refine nears_of_left rfl ?_
            simpa only [hleft, hleft', pollRank, hfin, hfin', Bool.false_eq_true, if_false]
          · refine nears_of_helpful rfl ?_ ?_ ?_
            · simpa only [hleft, hleft', pollRank, hfin, hfin', Bool.false_eq_true, if_false]
            · simpa only [h.helpful, h'.helpful, hfin, hfin', Bool.false_eq_true, if_false]
            · simpa [h.helpful, hfin, ha] using hother.symm

theorem calls_or_polls (hover : ¬ s.Over) : s.Calls ∨ s.Polls := by
  cases hmain : s.main with
  | starting => exact Or.inl (Or.inl hmain)
  | poll => exact Or.inr (Or.inl hmain)
  | wait => exact Or.inr (Or.inr hmain)
  | stopping => exact Or.inl (Or.inr (Or.inl hmain))
  | destroying code => exact Or.inl (Or.inr (Or.inr ⟨code, hmain⟩))
  | exited code => exact absurd (Or.inr ⟨code, hmain⟩) hover
  | terminated => exact absurd (Or.inl hmain) hover

theorem handlerStep_nears (hcap : 0 < capacity) (hscript : script ≠ [])
    (hinv : s.Inv k capacity path script) {a : FeedHandler.Act}
    (hstep : s.handlerStep k capacity path a = some s') :
    s'.Over ∨ s.Nears k capacity s' (FeedHandler.threadOf a) := by
  obtain ⟨hover, hcall, handler, hhandler, rfl⟩ := handlerStep_cases hstep
  by_cases hthrows : throws k s.handler a = true
  · exact Or.inl (Or.inl (if_pos hthrows))
  · refine Or.inr ?_
    simp only [hthrows, Bool.false_eq_true, if_false]
    rcases calls_or_polls hover with h | h
    · exact h.nears hinv.orderly.reachable hcall hhandler
    · exact h.nears hcap hscript hinv hcall hhandler

theorem step_nears (hcap : 0 < capacity) (hscript : script ≠ [])
    (hinv : s.Inv k capacity path script) {a : Act} (hstep : s.step k capacity path a = some s') :
    s'.Over ∨ s.Nears k capacity s' (threadOf a) := by
  cases a with
  | main sig => exact mainStep_nears hstep
  | handler a => exact handlerStep_nears hcap hscript hinv hstep

/-! ### The thread that is needed can go on -/

theorem handlerStep_ne_none (hover : ¬ s.Over) {a : FeedHandler.Act}
    (hcall : ∀ c, a ≠ .call c) (h : s.handler.step k capacity path a ≠ none) :
    s.handlerStep k capacity path a ≠ none := by
  obtain ⟨handler, hhandler⟩ := Option.ne_none_iff_exists'.mp h
  unfold handlerStep
  split
  · next code hmain => exact absurd (Or.inr ⟨code, hmain⟩) hover
  · next hmain => exact absurd (Or.inl hmain) hover
  · next c _ _ => exact absurd rfl (hcall c)
  · rw [hhandler]
    simp

/-- A call that has returned lets the main thread go on. -/
theorem mainStep_ne_none (h : s.At s.main) (hcalls : s.Calls) (hout : s.handler.client.Out) :
    s.mainStep none ≠ none := by
  unfold Program.mainStep
  rcases hcalls with hmain | hmain | ⟨code, hmain⟩ <;> rw [hmain] at h ⊢
  · have hidle : s.handler.client = .idle := by
      refine hout.resolve_right fun hdestroyed => ?_
      simp [At, hdestroyed, ClientPc.inStart] at h
    dsimp only
    rw [if_pos hidle]
    split <;> simp
  · have hidle : s.handler.client = .idle := hout.resolve_right h.2.2.2.2.2.1
    simp [hidle]
  · have hdestroyed : s.handler.client = .destroyed := hout.resolve_left h.2.2.2.1
    simp [hdestroyed]

theorem enabled (hk : k < 32) (hscript : script ≠ []) (hinv : s.Inv k capacity path script)
    (hover : ¬ s.Over) :
    ∃ a, threadOf a = some (s.helpful k capacity) ∧ s.step k capacity path a ≠ none := by
  rcases calls_or_polls hover with h | h
  · rw [h.helpful]
    by_cases hout : s.handler.client.Out
    · rw [waitsFor_of_out hout]
      exact ⟨.main none, rfl, mainStep_ne_none hinv.point h hout⟩
    · have hreach := hinv.orderly.reachable
      obtain ⟨a, ha, hstep⟩ : ∃ a, FeedHandler.threadOf a = some (s.handler.waitsFor k) ∧
          s.handler.step k capacity path a ≠ none :=
        FeedHandler.enabled (FeedHandler.gated_of_reachable hreach)
          (FeedHandler.owned_of_reachable hreach) hout
      have hcall : ∀ c, a ≠ .call c := by
        rintro c rfl
        cases ha
      exact ⟨.handler a, ha, handlerStep_ne_none hover hcall hstep⟩
  · rw [h.helpful]
    cases hfin : s.handler.pipe.finished with
    | true =>
        refine ⟨.main none, rfl, ?_⟩
        simp only [step, Program.mainStep]
        rcases h with hmain | hmain <;> simp [hmain, hfin]
    | false =>
        obtain ⟨a, ha, hcall, hstep⟩ :
            ∃ a, FeedHandler.threadOf a = some (s.handler.runsFor k capacity) ∧
              (∀ c, a ≠ .call c) ∧ s.handler.step k capacity path a ≠ none :=
          (hinv.runs hscript h hfin).enabled hk hfin
        exact ⟨.handler a, ha, handlerStep_ne_none hover hcall hstep⟩

theorem script_ne_nil (hinput : ∀ source, input source ≠ [])
    (hover : ¬ (system k capacity cmd made input).start.Over) : cmd.script input ≠ [] := by
  unfold Command.script
  split
  · next hselect =>
    refine absurd (Or.inr ⟨1, ?_⟩) hover
    change (boot cmd made _).main = _
    rw [boot, hselect]
  · exact hinput _

/-- Under a fair scheduler the program comes to its end. -/
theorem exists_over (hk : k < 32) (hcap : 0 < capacity) (hinput : ∀ source, input source ≠ [])
    {E : TransitionSystem.Execution (system k capacity cmd made input)}
    (hfair : E.Fair threadOf) : ∃ j, (E.state j).Over := by
  by_cases hover : (E.state 0).Over
  · exact ⟨0, hover⟩
  · have hscript := script_ne_nil hinput (E.start ▸ hover)
    obtain ⟨j, -, hj⟩ := hfair.leadsTo (P := fun s => ¬ s.Over) (Q := Over)
      (rank k capacity) (helpful k capacity)
      (fun s a s' hs _ hstep => by
        by_cases hover' : s'.Over
        · exact Or.inl hover'
        · have hnears := step_nears hcap hscript (inv_of_reachable hs) hstep
          exact Or.inr ⟨hover', hnears.resolve_left hover'⟩)
      (fun s hs hnot => enabled hk hscript (inv_of_reachable hs) hnot) hover
    exact ⟨j, hj⟩

/-! ## How it ends -/

/-- The command line asks for a pipeline that there is. -/
def Command.Accepted (cmd : Command) : Prop :=
  ∃ args, cmd.opts.foldlM CommandLine.parseOpt {} = .ok args ∧ cmd.unexpected = none ∧
    CommandLine.Complete args ∧ args.exchange = some .nasdaq

theorem Command.accepted_of_select {cmd : Command}
    {r : CommandLine.Args × CommandLine.Source} (h : cmd.select = .ok r) : cmd.Accepted := by
  unfold select at h
  split at h
  · cases h
  · next args hargs =>
    obtain ⟨hopts, hunexpected, hcomplete⟩ := CommandLine.parseArgs_eq_ok_iff.mp hargs
    refine ⟨args, hopts, hunexpected, hcomplete, ?_⟩
    split at h
    · cases h
    · next exchange hexchange =>
      rw [hexchange]
      cases exchange with
      | nasdaq => rfl
      | cme | cboe | nyse | eurex =>
          rw [CommandLine.source] at h
          cases h

/-- A program that does not get to `start()` has the exit code 1. -/
theorem exited_or_booted (h : (system k capacity cmd made input).Reachable s) :
    s.main = .exited 1 ∨ made = true ∧ cmd.Accepted := by
  have hstay : (system k capacity cmd made input).start.main = .exited 1 →
      s.main = .exited 1 := by
    intro hstart
    refine h.invariant (P := fun s => s.main = .exited 1) hstart fun s a s' hs hstep => ?_
    have hnone : (system k capacity cmd made input).step s a = none :=
      step_of_over (Or.inr ⟨1, hs⟩) a
    rw [hnone] at hstep
    cases hstep
  cases hselect : cmd.select with
  | error e =>
      refine Or.inl (hstay ?_)
      change (boot cmd made _).main = _
      rw [boot, hselect]
  | ok r =>
      cases hmade : made with
      | true => exact Or.inr ⟨rfl, Command.accepted_of_select hselect⟩
      | false =>
          refine Or.inl (hstay ?_)
          change (boot cmd made _).main = _
          rw [boot, hselect, hmade]
          rfl

/-- The ways in which the program ends. -/
inductive Ends (k : ℕ) (cmd : Command) (made : Bool) (script : List Iteration) (s : Program) :
    Prop
  /-- An exception has left `start()`. -/
  | terminated (hmain : s.main = .terminated) (hless : s.handler.Threadless)
  | failed (hmain : s.main = .exited 1) (hok : s.handler.startOk = false)
      (hjoined : s.handler.AllJoined)
  | done (hmain : s.main = .exited 0) (hok : s.handler.startOk = true) (hmade : made = true)
      (hcmd : cmd.Accepted) (hjoined : s.handler.AllJoined)
      (happlied : s.sig = none → ∀ b < 2 ^ k,
        s.handler.pipe.applied b = Pipeline.ofShard k b (Pipeline.allEvents script))

theorem Inv.allJoined (h : s.Inv k capacity path script) {code : ℕ}
    (hmain : s.main = .exited code) : s.handler.AllJoined ∧ CodeOf code s.handler := by
  have hpoint := h.point
  have hreach := h.orderly.reachable
  have howned := FeedHandler.owned_of_reachable hreach
  rw [hmain] at hpoint
  rcases hpoint with ⟨hcode, hstarted⟩ | ⟨hpc, hcode⟩
  · obtain ⟨hok, hcreated, -⟩ := (FeedHandler.gated_of_reachable hreach).fresh hstarted
    have hless := FeedHandler.threadless_of_created howned hcreated
    exact ⟨FeedHandler.allJoined_of_threadless howned hless, Or.inr ⟨hcode, hok⟩⟩
  · exact ⟨FeedHandler.allJoined_of_destroyed howned
      (FeedHandler.joinedAt_of_orderly h.orderly) hpc, hcode⟩

/-- Under a fair scheduler the program ends, whatever the command line is, whatever
fails in `start()` and whenever a signal arrives, and no thread is left behind.
The exit code is 0 if the pipeline has run.  If no signal has arrived, the builders have
then applied the whole input. -/
theorem exits (hk : k < 32) (hcap : 0 < capacity) (hinput : ∀ source, input source ≠ [])
    {E : TransitionSystem.Execution (system k capacity cmd made input)}
    (hfair : E.Fair threadOf) : ∃ j, (E.state j).Ends k cmd made (cmd.script input) := by
  obtain ⟨j, hover⟩ := exists_over hk hcap hinput hfair
  have hreach := TransitionSystem.Execution.reachable (E := E) j
  have hinv := inv_of_reachable hreach
  refine ⟨j, ?_⟩
  rcases hover with hmain | ⟨code, hmain⟩
  · have hpoint := hinv.point
    rw [hmain] at hpoint
    exact .terminated hmain hpoint
  · obtain ⟨hjoined, ⟨rfl, hok⟩ | ⟨rfl, hok⟩⟩ := hinv.allJoined hmain
    · have hbooted : made = true ∧ cmd.Accepted := by
        refine (exited_or_booted hreach).resolve_left fun hone => ?_
        rw [hmain] at hone
        cases hone
      refine .done hmain hok hbooted.1 hbooted.2 hjoined fun hsig b hb => ?_
      exact FeedHandler.finished_applied (hinv.waits hsig) hok hjoined.feed.1
        (fun b => (hjoined.builders b).1) hb
    · exact .failed hmain hok hjoined

/-! ### A run over a file -/

def sampleCommand : Command where
  opts := [.exchange "Nasdaq", .config "threads.cfg", .file "itch.bin"]

theorem select_sampleCommand :
    sampleCommand.select =
      .ok ({ configFpath := "threads.cfg", exchange := some .nasdaq,
             exchangeName := some "Nasdaq", file := some "itch.bin" }, .file "itch.bin") :=
  rfl

def sampleInput : CommandLine.Source → List Iteration
  | .file _ => FeedHandler.sampleFileScript
  | .multicast _ _ _ _ _ => [⟨0, []⟩]

def loadSchedule : List Act :=
  List.replicate 3 (.handler (.client true)) ++
    [.handler (.load (some ThreadConfig.plainFile) 8)]

/-- The file is read to its end, and the main thread finds that the feed is
finished. -/
def fileSchedule : List Act :=
  (FeedHandler.readSchedule 9).map .handler ++ List.replicate 2 (.main none) ++
    FeedHandler.destroySchedule.map .handler ++ List.replicate 2 (.main none)

theorem run_loadSchedule (l : List Act) :
    (system 1 4 sampleCommand true sampleInput).run
        (system 1 4 sampleCommand true sampleInput).start (loadSchedule ++ l) =
      (system 1 4 sampleCommand true sampleInput).run
        { handler := FeedHandler.configured FeedHandler.sampleFileScript
          main := .starting } l := by
  let made := { FeedHandler.configured FeedHandler.sampleFileScript with
    client := .loadConfig }
  have hbuilt : (system 1 4 sampleCommand true sampleInput).run
      (system 1 4 sampleCommand true sampleInput).start
      (List.replicate 3 (.handler (.client true))) =
      some { handler := made, main := .starting } := rfl
  have hload : (system 1 4 sampleCommand true sampleInput).step
      { handler := made, main := .starting }
      (.handler (.load (some ThreadConfig.plainFile) 8)) =
      some { handler := FeedHandler.configured FeedHandler.sampleFileScript
             main := .starting } := by
    have hstep : made.step 1 4 "threads.cfg" (.load (some ThreadConfig.plainFile) 8) =
        some (FeedHandler.configured FeedHandler.sampleFileScript) :=
      @FeedHandler.step_load_plainFile 4 FeedHandler.sampleFileScript made rfl
    have hconfig : sampleCommand.configFpath = "threads.cfg" := rfl
    change handlerStep 1 4 sampleCommand.configFpath { handler := made, main := .starting }
      (.load (some ThreadConfig.plainFile) 8) = _
    simp only [handlerStep, hconfig, hstep]
    rfl
  rw [loadSchedule, List.append_assoc, TransitionSystem.run_append, hbuilt, Option.bind_some,
    List.singleton_append, TransitionSystem.run, hload]

theorem exits_sample :
    ∃ E : TransitionSystem.Execution (system 1 4 sampleCommand true sampleInput),
      E.Fair threadOf ∧ (E.state 0).main = .starting ∧
      ∃ j, (E.state j).Ends 1 sampleCommand true FeedHandler.sampleFileScript := by
  obtain ⟨s, hrun, hmain⟩ :
      ∃ s, (system 1 4 sampleCommand true sampleInput).run
          { handler := FeedHandler.configured FeedHandler.sampleFileScript
            main := .starting } fileSchedule = some s ∧
        s.main = .exited 0 := ⟨_, rfl, rfl⟩
  have hall := (run_loadSchedule fileSchedule).trans hrun
  have hfair := TransitionSystem.Execution.fair_ofRun (h := by rw [hall]; rfl) threadOf hall
    fun a t _ => step_of_over (Or.inr ⟨0, hmain⟩) a
  refine ⟨_, hfair, rfl, exits (by decide) (by decide) (fun source => ?_) hfair⟩
  cases source <;> simp [sampleInput, FeedHandler.sampleFileScript]

/-- A program that was asked to read a file whose messages are well formed, and that no
signal has stopped: with the exit code 0, the builders show the market of the file. -/
theorem exited_file_books {args : CommandLine.Args} {fpath : String} {data : List UInt8}
    (hk : k < 32) (hselect : cmd.select = .ok (args, .file fpath))
    (hpasses : VenueFeed.FilePasses
      (LengthPrefixFramer.fresh : LengthPrefixFramer true 4096) data (input (.file fpath)))
    (hroom : 2 ≤ k ∨ (instruments (fileEvents data)).card ≤ BookBuilder.mapSlots)
    (hdata : ∀ m ∈ ((LengthPrefixFramer.lengthPrefixed 4096).decode data).1,
      ItchParser.WellFormed m)
    (haccept : Market.Acceptable (fileEvents data))
    (h : (system k capacity cmd made input).Reachable s) (hmain : s.main = .exited 0)
    (hsig : s.sig = none) :
    ∃ builders, (∀ b < 2 ^ k, s.handler.pipe.bookBuilder b = .ok (builders b)) ∧
      FeedHandler.ShowsMarket k builders (fileEvents data) := by
  have hinv := inv_of_reachable h
  have hscript : cmd.script input = input (.file fpath) := by
    rw [Command.script, hselect]
  obtain ⟨hjoined, ⟨-, hok⟩ | ⟨hone, -⟩⟩ := hinv.allJoined hmain
  · have hwaits := hinv.waits hsig
    rw [hscript] at hwaits
    rw [← hpasses.fileEvents_eq hdata] at hroom haccept ⊢
    exact FeedHandler.finished_shows hk hroom hpasses.locate haccept hwaits hok
      hjoined.feed.1 fun b => (hjoined.builders b).1
  · cases hone

theorem exited_file_books_sample :
    ∃ s builders, (system 1 4 sampleCommand true sampleInput).Reachable s ∧
      s.main = .exited 0 ∧ s.sig = none ∧
      (∀ b < 2 ^ 1, s.handler.pipe.bookBuilder b = .ok (builders b)) ∧
      FeedHandler.ShowsMarket 1 builders [FeedHandler.sampleEvent] := by
  obtain ⟨s, hrun, hmain, hsig⟩ :
      ∃ s, (system 1 4 sampleCommand true sampleInput).run
          { handler := FeedHandler.configured FeedHandler.sampleFileScript
            main := .starting } fileSchedule = some s ∧
        s.main = .exited 0 ∧ s.sig = none := ⟨_, rfl, rfl, rfl⟩
  have hreach := TransitionSystem.Reachable.start.run
    ((run_loadSchedule fileSchedule).trans hrun)
  have haccept := FeedHandler.acceptable_sampleEvent
  have hroom : (instruments [FeedHandler.sampleEvent]).card ≤ BookBuilder.mapSlots := by decide
  rw [← FeedHandler.fileEvents_sampleFile] at haccept hroom ⊢
  have hdata : ∀ m ∈
      ((LengthPrefixFramer.lengthPrefixed 4096).decode FeedHandler.sampleFile).1,
      ItchParser.WellFormed m := by
    rw [FeedHandler.decode_sampleFile]
    exact List.forall_mem_singleton.mpr FeedHandler.wellFormed_sampleMessage
  obtain ⟨builders, hbuilt, hshows⟩ := exited_file_books (by decide) select_sampleCommand
    FeedHandler.filePasses_sampleFile (Or.inr hroom) hdata haccept hreach hmain hsig
  exact ⟨s, builders, hreach, hmain, hsig, hbuilt, hshows⟩

end Program

end Fastbook

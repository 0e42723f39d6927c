import Fastbook.Pipeline.CommandLine
import Fastbook.Pipeline.FeedProgress

/-!
# The program

A model of `main` and `run_until_done` (`main.cpp`) around the feed handler.  The
main thread makes the handler, starts it, polls `feed_finished()` and the signals
`SIGINT` and `SIGTERM`, stops the handler and destroys it.  An exception that
leaves `start()` terminates the program.

The invariant of the runs says, for each point of the main thread, which of the calls
have been made and what they have returned.
-/

namespace Fastbook

open Support

inductive Signal where
  | sigint
  | sigterm
  deriving DecidableEq, Repr

/-- What the main thread does next. -/
inductive MainPc where
  /-- In `start()`. -/
  | starting
  /-- `feed_finished()`. -/
  | poll
  /-- `sigtimedwait`. -/
  | wait
  /-- In `stop_and_wait()`. -/
  | stopping
  /-- In the destructor of the handler. -/
  | destroying (code : ℕ)
  | exited (code : ℕ)
  /-- `std::terminate`. -/
  | terminated
  deriving DecidableEq, Repr

/-- The handler before it is made is one that has not been started. -/
structure Program where
  handler : FeedHandler
  main : MainPc
  sig : Option Signal := none

namespace Program

/-- The arguments of the program, as `getopt_long` gives them. -/
structure Command where
  opts : List CommandLine.Opt
  unexpected : Option String := none

/-- The arguments and the pipeline that they ask for. -/
def Command.select (cmd : Command) :
    Except (Option String) (CommandLine.Args × CommandLine.Source) :=
  match CommandLine.parseArgs cmd.opts cmd.unexpected with
  | .error e => .error e
  | .ok args =>
    match args.exchange with
    | none => .error none
    | some exchange =>
      match CommandLine.source args exchange with
      | .error e => .error e
      | .ok source => .ok (args, source)

def Command.configFpath (cmd : Command) : String :=
  match cmd.select with
  | .error _ => ""
  | .ok (args, _) => args.configFpath

/-- What the source that is asked for delivers. -/
def Command.script (cmd : Command) (input : CommandLine.Source → List Iteration) :
    List Iteration :=
  match cmd.select with
  | .error _ => []
  | .ok (_, source) => input source

/-- `main` up to the call of `start()`; `made` is whether the constructor of the
pipeline succeeds. -/
def boot (cmd : Command) (made : Bool) (handler : FeedHandler) : Program :=
  match cmd.select with
  | .error _ => { handler, main := .exited 1 }
  | .ok _ =>
    if made then { handler := handler.enter .start, main := .starting }
    else { handler, main := .exited 1 }

/-- `std::make_unique` throws in the loop of `start()`. -/
def throws (k : ℕ) (h : FeedHandler) : FeedHandler.Act → Bool
  | .client ok =>
    match h.client with
    | .makeBuilders i => decide (i < 2 ^ k) && !ok
    | _ => false
  | _ => false

/-- A step of the main thread between its calls; `sig` is what `sigtimedwait`
returns. -/
def mainStep (s : Program) (sig : Option Signal) : Option Program :=
  match s.main with
  | .starting =>
    if s.handler.client = .idle then
      if s.handler.startOk then some { s with main := .poll }
      else some { s with handler := s.handler.enter .destroy, main := .destroying 1 }
    else none
  | .poll =>
    if s.handler.pipe.finished then
      some { s with handler := s.handler.enter .stopAndWait, main := .stopping }
    else some { s with main := .wait }
  | .wait =>
    match sig with
    | none => some { s with main := .poll }
    | some sg =>
      some { handler := s.handler.enter .stopAndWait, main := .stopping, sig := some sg }
  | .stopping =>
    if s.handler.client = .idle then
      some { s with handler := s.handler.enter .destroy, main := .destroying 0 }
    else none
  | .destroying code =>
    if s.handler.client = .destroyed then some { s with main := .exited code } else none
  | .exited _ | .terminated => none

/-- The process is gone. -/
def Over (s : Program) : Prop :=
  s.main = .terminated ∨ ∃ code, s.main = .exited code

inductive Act where
  | main (sig : Option Signal)
  /-- A step within a call, or of another thread. -/
  | handler (a : FeedHandler.Act)

def handlerStep (k capacity : ℕ) (path : String) (s : Program) (a : FeedHandler.Act) :
    Option Program :=
  match s.main, a with
  | .exited _, _ | .terminated, _ | _, .call _ => none
  | _, a =>
    match s.handler.step k capacity path a with
    | none => none
    | some handler =>
      some { s with handler, main := if throws k s.handler a then .terminated else s.main }

def step (k capacity : ℕ) (path : String) (s : Program) : Act → Option Program
  | .main sig => s.mainStep sig
  | .handler a => s.handlerStep k capacity path a

/-- A program with `2^k` builders; `input` is what there is to read. -/
def system (k capacity : ℕ) (cmd : Command) (made : Bool)
    (input : CommandLine.Source → List Iteration) : TransitionSystem Program Act where
  start := boot cmd made
    (FeedHandler.system k capacity cmd.configFpath (cmd.script input)).start
  step := step k capacity cmd.configFpath

/-- Whose step an action is. -/
def threadOf : Act → Option Pipeline.Thread
  | .main _ => some .controller
  | .handler a => FeedHandler.threadOf a

end Program

/-! ## What a step within a call leaves alone -/

namespace FeedHandler

variable {k capacity : ℕ} {path : String} {script : List Iteration} {s s' : FeedHandler}

theorem ClientMove.flags (h : ClientMove k s s') :
    s'.started = s.started ∧ s'.stopped = s.stopped ∧ s'.destroying = s.destroying := by
  cases h <;> exact ⟨rfl, rfl, rfl⟩

theorem ClientMove.stays_inStart (h : ClientMove k s s') (hpc : s.client.inStart = true) :
    s'.client.inStart = true ∨ s'.client = .idle := by
  cases h with
  | makeFailed | returned => exact Or.inr rfl
  | stopFeed hpc' | joinFeed hpc' | skipFeed hpc' | stopBuilder hpc' | stoppedBuilders hpc'
  | joinBuilder hpc' | skipBuilder hpc' | joined hpc' =>
      rw [hpc'] at hpc
      cases hpc
  | _ => exact Or.inl rfl

/-- `stop_and_wait` returns to where it was called. -/
theorem ClientMove.stays_inStop (h : ClientMove k s s') (hpc : s.client.inStart = false) :
    s'.startOk = s.startOk ∧ s'.client.inStart = false ∧
      (s'.client = .idle → s.destroying = false) ∧
      (s'.client = .destroyed → s.destroying = true) := by
  cases h with
  | joined hpc' =>
      unfold leave
      cases s.destroying <;> simp [ClientPc.inStart]
  | stopFeed hpc' | joinFeed hpc' | skipFeed hpc' | stopBuilder hpc' | stoppedBuilders hpc'
  | joinBuilder hpc' | skipBuilder hpc' => exact ⟨rfl, rfl, by simp, by simp⟩
  | createFailed hpc' =>
      rcases hpc' with hpc' | ⟨i, -, hpc'⟩ <;> rw [hpc'] at hpc <;> cases hpc
  | makeBuilder hpc' | makeFailed hpc' | made hpc' | createFeed hpc' | createBuilder hpc'
  | created hpc' | ready hpc' | failed hpc' | unfailed hpc' | go hpc' | abortFeed hpc'
  | abortBuilder hpc' | abortedBuilders hpc' | abortGo hpc' | returned hpc' =>
      rw [hpc'] at hpc
      cases hpc

/-- A step of the feed or of a builder. -/
theorem step_of_thread {a : Act} {t : Pipeline.Thread} (ha : threadOf a = some t)
    (ht : t ≠ .controller) (hstep : s.step k capacity path a = some s') :
    s.ThreadFrame s' ∧ s'.startOk = s.startOk := by
  cases a with
  | call c => cases ha
  | load file configured | client ok =>
      cases ha
      exact absurd rfl ht
  | feed ok =>
      refine ⟨(feedStep_frame hstep).1, ?_⟩
      rcases feedStep_cases hstep with ⟨pipe, -, -, rfl⟩ | ⟨g, st, -, rfl⟩ <;> rfl
  | builder b ok =>
      rw [step] at hstep
      split at hstep
      · refine ⟨(builderStep_frame hstep).1, ?_⟩
        rcases builderStep_cases hstep with ⟨pipe, -, -, rfl⟩ | ⟨g, st, -, rfl⟩ <;> rfl
      · cases hstep

/-- A step that is not a call: of another thread, of `ThreadConfig::load`, or of the
call that is under way. -/
theorem step_within {a : Act} (hcall : ∀ c, a ≠ .call c)
    (hstep : s.step k capacity path a = some s') :
    (s.ThreadFrame s' ∧ s'.startOk = s.startOk) ∨
    (s.client = .loadConfig ∧ s'.client.inStart = true ∧ s'.started = s.started ∧
      s'.stopped = s.stopped ∧ s'.destroying = s.destroying) ∨
    ClientMove k s s' := by
  cases a with
  | call c => exact absurd rfl (hcall c)
  | load file configured =>
      rw [step] at hstep
      split at hstep
      · next hpc =>
        cases hstep
        refine Or.inr (Or.inl ⟨hpc, ?_⟩)
        unfold loadConfig
        split <;> exact ⟨rfl, rfl, rfl, rfl⟩
      · cases hstep
  | client ok => exact Or.inr (Or.inr (clientMove_of_step hstep))
  | feed ok => exact Or.inl (step_of_thread rfl (by simp) hstep)
  | builder b ok => exact Or.inl (step_of_thread rfl (by simp) hstep)

theorem step_flags {a : Act} (hcall : ∀ c, a ≠ .call c)
    (hstep : s.step k capacity path a = some s') :
    s'.started = s.started ∧ s'.stopped = s.stopped ∧ s'.destroying = s.destroying := by
  rcases step_within hcall hstep with ⟨hframe, -⟩ | ⟨-, -, hflags⟩ | hmove
  · exact ⟨hframe.started, hframe.stopped, hframe.destroying⟩
  · exact hflags
  · exact hmove.flags

theorem step_inStart {a : Act} (hcall : ∀ c, a ≠ .call c) (hpc : s.client.inStart = true)
    (hstep : s.step k capacity path a = some s') :
    s'.client.inStart = true ∨ s'.client = .idle := by
  rcases step_within hcall hstep with ⟨hframe, -⟩ | ⟨-, hload, -⟩ | hmove
  · rw [hframe.client]
    exact Or.inl hpc
  · exact Or.inl hload
  · exact hmove.stays_inStart hpc

theorem step_inStop {a : Act} (hcall : ∀ c, a ≠ .call c) (hpc : s.client.inStart = false)
    (hstep : s.step k capacity path a = some s') :
    s'.startOk = s.startOk ∧ s'.client.inStart = false ∧
      (s'.client = .idle → s.client = .idle ∨ s.destroying = false) ∧
      (s'.client = .destroyed → s.client = .destroyed ∨ s.destroying = true) := by
  rcases step_within hcall hstep with ⟨hframe, hok⟩ | ⟨hload, -⟩ | hmove
  · rw [hframe.client]
    exact ⟨hok, hpc, Or.inl, Or.inl⟩
  · rw [hload] at hpc
    cases hpc
  · obtain ⟨hok, hstop, hidle, hdestroyed⟩ := hmove.stays_inStop hpc
    exact ⟨hok, hstop, fun h => Or.inr (hidle h), fun h => Or.inr (hdestroyed h)⟩

theorem finished_of_step {a : Act} (hstep : s.step k capacity path a = some s')
    (hfin : s.pipe.finished = true) : s'.pipe.finished = true := by
  rcases step_pipe hstep with hpipe | hpipe | ⟨i, hpipe⟩ | hmove | ⟨b, hmove⟩
  · rwa [hpipe]
  · rwa [hpipe]
  · rwa [hpipe]
  · generalize s'.pipe = pipe at hmove ⊢
    cases hmove <;> first | exact hfin | rfl
  · generalize s'.pipe = pipe at hmove ⊢
    cases hmove <;> exact hfin

theorem enter_stopAndWait (h : s.stopped = false) :
    s.enter .stopAndWait = { s with stopped := true, client := .stopFeed } := by
  simp [enter, h]

theorem enter_destroy (h : s.stopped = false) :
    s.enter .destroy =
      { s with destroying := true, stopped := true, client := .stopFeed } := by
  simp [enter, h]

theorem enter_destroy_of_stopped (h : s.stopped = true) :
    s.enter .destroy = { s with destroying := true, client := .destroyed } := by
  simp [enter, h]

/-- No thread has been created. -/
def Threadless (s : FeedHandler) : Prop :=
  s.feedThread = .absent ∧ ∀ b, s.bbThread b = .absent

theorem threadless_of_created (howned : s.Owned k) (h : s.Created k 0) : s.Threadless := by
  refine ⟨(h 0 (Nat.succ_pos _)).mpr le_rfl, fun b => ?_⟩
  by_contra hst
  have hlt := (howned.builderKept b hst).1.trans_le howned.threads
  exact hst ((h (b + 1) (by omega)).mpr (Nat.zero_le _))

/-- Every thread that has been created has returned from `run`, and is joined. -/
structure AllJoined (s : FeedHandler) : Prop where
  feed : s.feedJoinable = false ∧ (s.feedThread ≠ .absent → s.feedDone = true)
  builders : ∀ b, s.bbJoinable b = false ∧ (s.bbThread b ≠ .absent → s.bbDone b = true)

theorem allJoined_of_threadless (howned : s.Owned k) (h : s.Threadless) : s.AllJoined := by
  refine ⟨⟨?_, fun hst => absurd h.1 hst⟩, fun b => ⟨?_, fun hst => absurd (h.2 b) hst⟩⟩
  · exact Bool.eq_false_iff.mpr fun hjoin => howned.feed hjoin h.1
  · exact Bool.eq_false_iff.mpr fun hjoin => howned.builder b hjoin (h.2 b)

theorem allJoined_of_destroyed (howned : s.Owned k) (hjoined : s.JoinedAt s.client)
    (hpc : s.client = .destroyed) : s.AllJoined := by
  rw [hpc] at hjoined
  refine ⟨⟨hjoined.1, fun hst => ?_⟩, fun b => ⟨hjoined.2 b, fun hst => ?_⟩⟩
  · exact (howned.feedKept hst).resolve_left (Bool.eq_false_iff.mp hjoined.1)
  · exact (howned.builderKept b hst).2.resolve_left (Bool.eq_false_iff.mp (hjoined.2 b))

/-- Between two calls only the other threads move. -/
theorem threadOf_of_out {a : Act} (hout : s.client.Out) (hcall : ∀ c, a ≠ .call c)
    (hstep : s.step k capacity path a = some s') :
    ∃ t, threadOf a = some t ∧ t ≠ .controller := by
  have hload : s.client ≠ .loadConfig := by
    rcases hout with hpc | hpc <;> rw [hpc] <;> simp
  have hclient : ∀ ok, s.clientStep k ok = none := by
    intro ok
    unfold clientStep
    rcases hout with hpc | hpc <;> rw [hpc]
  cases a with
  | call c => exact absurd rfl (hcall c)
  | load file configured => simp [step, hload] at hstep
  | client ok => simp [step, hclient] at hstep
  | feed ok => exact ⟨.feed, rfl, by simp⟩
  | builder b ok => exact ⟨.builder b, rfl, by simp⟩

end FeedHandler

namespace Program

open FeedHandler (Orderly Waits)

variable {k capacity : ℕ} {path : String} {cmd : Command} {made : Bool}
  {script : List Iteration} {input : CommandLine.Source → List Iteration} {s s' : Program}

/-! ## The invariant -/

/-- The exit code tells whether the pipeline was started. -/
def CodeOf (code : ℕ) (h : FeedHandler) : Prop :=
  code = 0 ∧ h.startOk = true ∨ code = 1 ∧ h.startOk = false

/-- How far the calls of the main thread have got. -/
def At (s : Program) : MainPc → Prop
  | .starting =>
    s.sig = none ∧ s.handler.started = true ∧ s.handler.stopped = false ∧
      s.handler.destroying = false ∧
      (s.handler.client.inStart = true ∨ s.handler.client = .idle)
  | .poll | .wait =>
    s.sig = none ∧ s.handler.started = true ∧ s.handler.stopped = false ∧
      s.handler.destroying = false ∧ s.handler.client = .idle ∧ s.handler.startOk = true
  | .stopping =>
    (s.sig = none → s.handler.pipe.finished = true) ∧ s.handler.started = true ∧
      s.handler.stopped = true ∧ s.handler.destroying = false ∧
      s.handler.client.inStart = false ∧ s.handler.client ≠ .destroyed ∧
      s.handler.startOk = true
  | .destroying code =>
    s.handler.started = true ∧ s.handler.destroying = true ∧
      s.handler.client.inStart = false ∧ s.handler.client ≠ .idle ∧
      CodeOf code s.handler
  | .exited code =>
    code = 1 ∧ s.handler.started = false ∨
      s.handler.client = .destroyed ∧ CodeOf code s.handler
  | .terminated => s.handler.Threadless

structure Inv (k capacity : ℕ) (path : String) (script : List Iteration) (s : Program) :
    Prop where
  orderly : (FeedHandler.system k capacity path script).ReachableVia Orderly s.handler
  waits : s.sig = none →
    (FeedHandler.system k capacity path script).ReachableVia Waits s.handler
  fed : script ≠ [] → s.handler.pipe.Fed
  point : s.At s.main

/-- A step of the handler that the main thread is not part of, or that is within one of
its calls. -/
theorem handlerStep_cases {a : FeedHandler.Act}
    (hstep : s.handlerStep k capacity path a = some s') :
    ¬ s.Over ∧ (∀ c, a ≠ .call c) ∧ ∃ handler,
      s.handler.step k capacity path a = some handler ∧
      s' = { s with
        handler, main := if throws k s.handler a then .terminated else s.main } := by
  unfold handlerStep at hstep
  split at hstep
  · cases hstep
  · cases hstep
  · cases hstep
  · next hcall hexited hterminated =>
    split at hstep
    · cases hstep
    · next handler hhandler =>
      cases hstep
      refine ⟨?_, fun c hc => hcall c hc, handler, hhandler, rfl⟩
      rintro (hover | ⟨code, hover⟩)
      · exact hterminated hover
      · exact hexited code hover

theorem step_of_over (hover : s.Over) (a : Act) : s.step k capacity path a = none := by
  rw [Option.eq_none_iff_forall_ne_some]
  intro s' hstep
  cases a with
  | main sig =>
      change s.mainStep sig = some s' at hstep
      unfold Program.mainStep at hstep
      rcases hover with hmain | ⟨code, hmain⟩ <;> rw [hmain] at hstep <;> cases hstep
  | handler a => exact (handlerStep_cases hstep).1 hover

/-- An exception leaves `start()` before there is a thread. -/
theorem threadless_of_throws {h h' : FeedHandler} {a : FeedHandler.Act}
    (hreach : (FeedHandler.system k capacity path script).Reachable h)
    (hthrows : throws k h a = true) (hstep : h.step k capacity path a = some h') :
    h'.Threadless := by
  unfold throws at hthrows
  split at hthrows
  · next ok =>
    split at hthrows
    · next i hpc =>
      obtain ⟨hi, rfl⟩ : i < 2 ^ k ∧ ok = false := by simpa using hthrows
      have hpoint := (FeedHandler.gated_of_reachable hreach).point
      rw [hpc] at hpoint
      have hless := FeedHandler.threadless_of_created
        (FeedHandler.owned_of_reachable hreach) hpoint.2.1
      simp only [FeedHandler.step, FeedHandler.clientStep, hpc, hi, if_true,
        Bool.false_eq_true, if_false, Option.some.injEq] at hstep
      subst hstep
      exact hless
    · cases hthrows
  · cases hthrows

/-- A call of the main thread. -/
theorem Inv.call (h : s.Inv k capacity path script) {c : FeedHandler.Call}
    (hidle : s.handler.client = .idle) (hc : c ≠ .start) {main : MainPc}
    {sig : Option Signal} (hwaits : sig = none → s.sig = none ∧ s.handler.Waits (.call c))
    (hpoint : At { handler := s.handler.enter c, main, sig } main) :
    Inv k capacity path script { handler := s.handler.enter c, main, sig } := by
  have hstep : s.handler.step k capacity path (.call c) = some (s.handler.enter c) :=
    if_pos hidle
  refine ⟨h.orderly.step (a := .call c) (fun heq => ?_) hstep, fun hsig => ?_,
    fun hscript => ?_, hpoint⟩
  · cases heq
    exact absurd rfl hc
  · exact (h.waits (hwaits hsig).1).step (hwaits hsig).2 hstep
  · rw [FeedHandler.enter_pipe]
    exact h.fed hscript

theorem Inv.mainStep (h : s.Inv k capacity path script) {sig : Option Signal}
    (hstep : s.mainStep sig = some s') : s'.Inv k capacity path script := by
  have hpoint := h.point
  unfold Program.mainStep at hstep
  cases hmain : s.main with
  | starting =>
      rw [hmain] at hpoint
      obtain ⟨hsig, hstarted, hstopped, hdestroying, -⟩ := hpoint
      simp only [hmain] at hstep
      split_ifs at hstep with hidle hok
      · cases hstep
        exact ⟨h.orderly, h.waits, h.fed, hsig, hstarted, hstopped, hdestroying, hidle, hok⟩
      · cases hstep
        have hnot : s.handler.startOk = false := Bool.eq_false_iff.mpr hok
        refine h.call hidle (by simp) (fun _ => ⟨hsig, Or.inr ⟨hstarted, hnot⟩⟩) ?_
        rw [FeedHandler.enter_destroy hstopped]
        exact ⟨hstarted, rfl, rfl, by simp, Or.inr ⟨rfl, hnot⟩⟩
  | poll =>
      rw [hmain] at hpoint
      obtain ⟨hsig, hstarted, hstopped, hdestroying, hidle, hok⟩ := hpoint
      simp only [hmain] at hstep
      split_ifs at hstep with hfin
      · cases hstep
        refine h.call hidle (by simp) (fun _ => ⟨hsig, Or.inl hfin⟩) ?_
        rw [FeedHandler.enter_stopAndWait hstopped]
        exact ⟨fun _ => hfin, hstarted, rfl, hdestroying, rfl, by simp, hok⟩
      · cases hstep
        exact ⟨h.orderly, h.waits, h.fed, hsig, hstarted, hstopped, hdestroying, hidle, hok⟩
  | wait =>
      rw [hmain] at hpoint
      obtain ⟨hsig, hstarted, hstopped, hdestroying, hidle, hok⟩ := hpoint
      simp only [hmain] at hstep
      cases sig with
      | none =>
        cases hstep
        exact ⟨h.orderly, h.waits, h.fed, hsig, hstarted, hstopped, hdestroying, hidle, hok⟩
      | some sg =>
        cases hstep
        refine h.call hidle (by simp) (fun hnone => by cases hnone) ?_
        rw [FeedHandler.enter_stopAndWait hstopped]
        exact ⟨fun hnone => absurd hnone (by simp), hstarted, rfl, hdestroying, rfl, by simp, hok⟩
  | stopping =>
      rw [hmain] at hpoint
      obtain ⟨hfin, hstarted, hstopped, hdestroying, -, -, hok⟩ := hpoint
      simp only [hmain] at hstep
      split_ifs at hstep with hidle
      cases hstep
      refine h.call hidle (by simp) (fun hsig => ⟨hsig, Or.inl (hfin hsig)⟩) ?_
      rw [FeedHandler.enter_destroy_of_stopped hstopped]
      exact ⟨hstarted, rfl, rfl, by simp, Or.inl ⟨rfl, hok⟩⟩
  | destroying code =>
      rw [hmain] at hpoint
      simp only [hmain] at hstep
      split_ifs at hstep with hdone
      cases hstep
      exact ⟨h.orderly, h.waits, h.fed, Or.inr ⟨hdone, hpoint.2.2.2.2⟩⟩
  | exited code | terminated =>
      simp only [hmain] at hstep
      cases hstep

/-- No step within a call, and none of another thread, takes the main thread anywhere
else. -/
theorem At.handlerStep (h : s.At s.main) {a : FeedHandler.Act} (hcall : ∀ c, a ≠ .call c)
    (hover : ¬ s.Over) {handler : FeedHandler}
    (hstep : s.handler.step k capacity path a = some handler) :
    At { s with handler } s.main := by
  obtain ⟨hstarted', hstopped', hdestroying'⟩ := FeedHandler.step_flags hcall hstep
  have hout : s.handler.client = .idle →
      handler.client = .idle ∧ handler.startOk = s.handler.startOk := by
    intro hidle
    obtain ⟨t, ha, ht⟩ := FeedHandler.threadOf_of_out (Or.inl hidle) hcall hstep
    obtain ⟨hframe, hok⟩ := FeedHandler.step_of_thread ha ht hstep
    exact ⟨hframe.client.trans hidle, hok⟩
  cases hmain : s.main with
  | starting =>
      rw [hmain] at h
      obtain ⟨hsig, hstarted, hstopped, hdestroying, hclient⟩ := h
      refine ⟨hsig, hstarted'.trans hstarted, hstopped'.trans hstopped,
        hdestroying'.trans hdestroying, ?_⟩
      rcases hclient with hclient | hidle
      · exact FeedHandler.step_inStart hcall hclient hstep
      · exact Or.inr (hout hidle).1
  | poll | wait =>
      rw [hmain] at h
      obtain ⟨hsig, hstarted, hstopped, hdestroying, hidle, hok⟩ := h
      exact ⟨hsig, hstarted'.trans hstarted, hstopped'.trans hstopped,
        hdestroying'.trans hdestroying, (hout hidle).1, (hout hidle).2.trans hok⟩
  | stopping =>
      rw [hmain] at h
      obtain ⟨hfin, hstarted, hstopped, hdestroying, hclient, hnot, hok⟩ := h
      obtain ⟨hok', hstop, -, hdestroyed⟩ := FeedHandler.step_inStop hcall hclient hstep
      refine ⟨fun hsig => FeedHandler.finished_of_step hstep (hfin hsig),
        hstarted'.trans hstarted, hstopped'.trans hstopped, hdestroying'.trans hdestroying,
        hstop, fun hpc => ?_, hok'.trans hok⟩
      rcases hdestroyed hpc with hpc | hdes
      · exact hnot hpc
      · rw [hdestroying] at hdes
        cases hdes
  | destroying code =>
      rw [hmain] at h
      obtain ⟨hstarted, hdestroying, hclient, hnot, hcode⟩ := h
      obtain ⟨hok', hstop, hidle, -⟩ := FeedHandler.step_inStop hcall hclient hstep
      refine ⟨hstarted'.trans hstarted, hdestroying'.trans hdestroying, hstop, fun hpc => ?_, ?_⟩
      · rcases hidle hpc with hpc | hdes
        · exact hnot hpc
        · rw [hdestroying] at hdes
          cases hdes
      · rw [CodeOf, hok']
        exact hcode
  | exited code => exact absurd (Or.inr ⟨code, hmain⟩) hover
  | terminated => exact absurd (Or.inl hmain) hover

theorem Inv.handlerStep (h : s.Inv k capacity path script) {a : FeedHandler.Act}
    (hstep : s.handlerStep k capacity path a = some s') : s'.Inv k capacity path script := by
  obtain ⟨hover, hcall, handler, hhandler, rfl⟩ := handlerStep_cases hstep
  refine ⟨h.orderly.step (fun hstart => absurd hstart (hcall _)) hhandler, fun hsig => ?_,
    fun hscript => FeedHandler.fed_step (h.fed hscript) hhandler, ?_⟩
  · refine (h.waits hsig).step ?_ hhandler
    cases a with
    | call c => exact absurd rfl (hcall c)
    | _ => trivial
  · dsimp only
    split_ifs with hthrows
    · exact threadless_of_throws h.orderly.reachable hthrows hhandler
    · exact h.point.handlerStep hcall hover hhandler

theorem Inv.step (h : s.Inv k capacity path script) {a : Act}
    (hstep : s.step k capacity path a = some s') : s'.Inv k capacity path script := by
  cases a with
  | main sig => exact h.mainStep hstep
  | handler a => exact h.handlerStep hstep

theorem inv_start :
    (system k capacity cmd made input).start.Inv k capacity cmd.configFpath
      (cmd.script input) := by
  have hfed : cmd.script input ≠ [] →
      (FeedHandler.system k capacity cmd.configFpath (cmd.script input)).start.pipe.Fed :=
    fun hscript => ⟨fun _ _ => hscript, fun hexited => by cases hexited⟩
  have hrejected : Inv k capacity cmd.configFpath (cmd.script input)
      { handler := (FeedHandler.system k capacity cmd.configFpath (cmd.script input)).start
        main := .exited 1 } :=
    ⟨.start, fun _ => .start, hfed, Or.inl ⟨rfl, rfl⟩⟩
  change (boot cmd made _).Inv _ _ _ _
  unfold boot
  split
  · exact hrejected
  · split_ifs
    · refine ⟨TransitionSystem.ReachableVia.start.step (a := .call .start)
        (fun _ => Or.inr rfl) rfl, fun _ => TransitionSystem.ReachableVia.start.step
        (a := .call .start) trivial rfl, hfed, rfl, rfl, rfl, rfl, Or.inl rfl⟩
    · exact hrejected

theorem inv_of_reachable (h : (system k capacity cmd made input).Reachable s) :
    s.Inv k capacity cmd.configFpath (cmd.script input) :=
  h.invariant inv_start fun _ _ _ hs hstep => hs.step hstep

end Program

end Fastbook

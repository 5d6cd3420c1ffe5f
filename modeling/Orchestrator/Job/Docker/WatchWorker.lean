/-
  Orchestrator.Job.Docker.WatchWorker

  The worker container next to its watch.

  `Scene` adds the worker's process to a watch: what an inspection says of it is what
  holds, a start that succeeds makes it run, a failed start may have taken effect all the
  same, and it may end at any time.  The question is what holds of the worker when the
  watch closes the job with `failed` or `completed`.
-/

import Orchestrator.Job.Docker.Watcher

namespace Orchestrator.Job.Docker

open Lifecycle Lib.Machine

structure Scene where
  w : Watch
  running : Bool
  killed : Bool
  deriving DecidableEq, Repr

inductive Happening where
  | workerEnds
  /-- The watch gets an input; `took` says whether a start that is reported as failed has
  taken effect nevertheless. -/
  | input (i : Input) (took : Bool)
  deriving DecidableEq, Repr

/-- What holds of the worker when the watch closes the job. -/
structure Verdict where
  running : Bool
  killed : Bool
  deriving DecidableEq, Repr

/-- An inspection of the worker tells whether it runs. -/
def Look.tell (seen : Look) (running : Bool) : Look :=
  { seen with worker := seen.worker.map fun ws => { ws with running := running } }

def Scene.see (s : Scene) : Input → Input
  | .reconcile seen => .reconcile (seen.tell s.running)
  | i => i

def Scene.act (s : Scene) (took : Bool) : Action → Scene × List Verdict
  | .startWorker true => ({ s with running := true }, [])
  | .startWorker false => ({ s with running := s.running || took }, [])
  | .killWorker => ({ s with killed := true }, [])
  | .emit (.failed _) => (s, [⟨s.running, s.killed⟩])
  | .emit .completed => (s, [⟨s.running, s.killed⟩])
  | _ => (s, [])

def Scene.perform (s : Scene) (took : Bool) (acts : List Action) : Scene × List Verdict :=
  run (fun s a => s.act took a) s acts

def Scene.step (s : Scene) : Happening → Scene × List Verdict
  | .workerEnds => ({ s with running := false }, [])
  | .input i took =>
    let (w, acts) := s.w.step (s.see i)
    ({ s with w := w } : Scene).perform took acts

/-- A watch that starts next to a worker in any state. -/
def newScene (timeout : Int) (running : Bool) : Scene := ⟨newWatch timeout, running, false⟩

def scene (timeout : Int) (running : Bool) (history : List Happening) : Scene × List Verdict :=
  run Scene.step (newScene timeout running) history

/-- Whenever the watch closed the job, the worker was not running or had been killed. -/
def NoOrphan (verdicts : List Verdict) : Prop :=
  ∀ v ∈ verdicts, v.running = true → v.killed = true

instance (verdicts : List Verdict) : Decidable (NoOrphan verdicts) :=
  inferInstanceAs (Decidable (∀ v ∈ _, _ → _))

/-! ## The condition -/

/-- A start of the worker that the watch attempts here is safe: a failed one leaves no
worker running, a successful one does not follow a reported exit. -/
def Scene.StartSafe (s : Scene) (startFails took : Bool) : Prop :=
  if startFails then s.running = false ∧ took = false else s.w.st.isWorkerExited = false

instance (s : Scene) (startFails took : Bool) : Decidable (s.StartSafe startFails took) :=
  inferInstanceAs (Decidable (if startFails then _ ∧ _ else _ = _))

/-- A `reconcile` pass knows of the worker what it needs: a dead sidecar is met with the
worker's start known or with no worker running. -/
def Look.Knows (seen : Look) (s : Scene) (took : Bool) : Prop :=
  match seen.sidecar with
  | none => True
  | some sidecar =>
    if sidecar.running then
      (detectResume s.w.st seen.worker).isWorkerStarted = false → sidecar.healthy = true →
        s.StartSafe seen.startFails took
    else s.w.st.isWorkerStarted = false → s.running = false

instance (s : Scene) (took : Bool) : (seen : Look) → Decidable (seen.Knows s took)
  | ⟨none, _, _, _⟩ => .isTrue trivial
  | ⟨some sidecar, _, _, _⟩ =>
    inferInstanceAs (Decidable (if sidecar.running then _ → _ → _ else _ → _))

/-- The same for an event; the death that is reported is not one the worker has been
restarted after. -/
def DockerEvent.Knows : DockerEvent → Scene → Bool → Prop
  | .sidecarHealthy startFails, s, took =>
    s.w.st.isWorkerStarted = false → s.StartSafe startFails took
  | .sidecarDie _, s, _ => s.w.st.isWorkerStarted = false → s.running = false
  | .workerDie _ _, s, _ => s.w.st.isWorkerExited = false → s.running = false
  | _, _, _ => True

instance (s : Scene) (took : Bool) : (e : DockerEvent) → Decidable (e.Knows s took)
  | .sidecarHealthy _ | .sidecarDie _ | .workerDie _ _ => inferInstanceAs (Decidable (_ → _))
  | .workerOOM | .other => .isTrue trivial

/-- Each input the watch acts on finds it knowing enough of the worker. -/
def KnowsWorker (s : Scene) : Happening → Prop
  | .input (.reconcile seen) took =>
    s.w.phase = .top → s.w.cancelled = false → seen.Knows s took
  | .input (.event e) took => s.w.phase = .stream → e.Knows s took
  | _ => True

instance (s : Scene) : (h : Happening) → Decidable (KnowsWorker s h)
  | .input (.reconcile _) _ => inferInstanceAs (Decidable (_ → _ → _))
  | .input (.event _) _ => inferInstanceAs (Decidable (_ → _))
  | .workerEnds | .input .cancel _ | .input .ctxDone _ | .input .disconnect _ | .input .retry _
  | .input .deadline _ | .input (.log _ _) _ => .isTrue trivial

/-! ## What the actions leave behind -/

/-- A reported exit is one of a worker that does not run, or was killed. -/
def Scene.Settled (s : Scene) : Prop :=
  s.w.st.isWorkerExited = true → s.running = true → s.killed = true

/-- A step is safe: what it leaves is settled unless the watch has returned, and its
verdicts find no worker running unkilled. -/
def Scene.SafeStep (r : Scene × List Verdict) : Prop :=
  (r.1.w.phase ≠ .returned → r.1.Settled) ∧ NoOrphan r.2

variable {s : Scene} {took : Bool}

theorem NoOrphan.nil : NoOrphan [] := by simp [NoOrphan]

theorem noOrphan_singleton {v : Verdict} (h : v.running = true → v.killed = true) :
    NoOrphan [v] := by
  simpa [NoOrphan] using h

/-- The watch after a part of it, with the part's actions carried out. -/
def Scene.after (s : Scene) (took : Bool) (r : WatcherState × List Action × Bool) :
    Scene × List Verdict :=
  ({ s with w := (s.w.resume r).1 } : Scene).perform took r.2.1

-- One lemma per list of actions a part can return.

theorem after_quiet {st : WatcherState} (h : s.Settled)
    (he : st.isWorkerExited = s.w.st.isWorkerExited) :
    Scene.SafeStep (s.after took (st, [], false)) := by
  refine ⟨fun _ hexit => ?_, NoOrphan.nil⟩
  exact h (he ▸ hexit)

variable (st : WatcherState)

theorem after_lost : Scene.SafeStep (s.after took (st, [], true)) :=
  ⟨fun hlive => absurd rfl hlive, NoOrphan.nil⟩

theorem after_failed (reason : String) (h : s.running = false) :
    Scene.SafeStep (s.after took (st, [.emit (.failed reason)], true)) := by
  refine ⟨fun hlive => absurd rfl hlive, noOrphan_singleton fun hrun => ?_⟩
  exact absurd hrun (by simp [h])

theorem after_completed (h : s.Settled) (he : s.w.st.isWorkerExited = true) :
    Scene.SafeStep (s.after took (st, [.emit .completed], true)) :=
  ⟨fun hlive => absurd rfl hlive, noOrphan_singleton (h he)⟩

theorem after_orphaned (reason : String) :
    Scene.SafeStep (s.after took (st, [.killWorker, .emit (.failed reason)], true)) :=
  ⟨fun hlive => absurd rfl hlive, noOrphan_singleton fun _ => rfl⟩

theorem after_startFailed (reason : String) (h : s.running = false) (ht : took = false) :
    Scene.SafeStep (s.after took (st, [.startWorker false, .emit (.failed reason)], true)) := by
  refine ⟨fun hlive => absurd rfl hlive, noOrphan_singleton fun hrun => ?_⟩
  exact absurd hrun (by simp [Scene.act, h, ht])

theorem after_started {st : WatcherState} (he : st.isWorkerExited = false) :
    Scene.SafeStep (s.after took (st, [.startWorker true, .emit .started], false)) := by
  refine ⟨fun _ hexit => ?_, NoOrphan.nil⟩
  exact absurd hexit (by simp [Scene.after, Scene.perform, run, Scene.act, Watch.resume, he])

theorem after_exited (code : Int) (reason : ExitReason) (h : s.running = false) :
    Scene.SafeStep (s.after took (st, [.signalSidecar, .emit (.exited code reason)], false)) := by
  refine ⟨fun _ _ hrun => ?_, NoOrphan.nil⟩
  exact absurd hrun (by simp [Scene.after, Scene.perform, run, Scene.act, h])

theorem after_sidecarGone (h : s.Settled) (hknown : s.w.st.isWorkerStarted = false →
    s.running = false) (detail : String) :
    Scene.SafeStep (s.after took (sidecarGone s.w.st detail)) := by
  unfold sidecarGone
  split
  next hs => exact after_failed _ _ (hknown hs)
  split
  next he => exact after_completed _ h he
  · exact after_orphaned _ _

theorem reconcile_safe (h : s.Settled) {seen : Look}
    (htrue : ∀ ws, seen.worker = some ws → ws.running = s.running) (hknows : seen.Knows s took) :
    Scene.SafeStep (s.after took (reconcile s.w.st seen)) := by
  rcases reconcile_cases s.w.st seen with ⟨-, hq⟩ | ⟨sidecar, hsome, hcases⟩
  · rw [hq]
    exact after_lost _
  rw [Look.Knows, hsome] at hknows
  rcases hcases with ⟨hrun, hq⟩ | ⟨hrun, hh, hs', hstart⟩ | ⟨-, -, st', he, -, hq⟩
  · rw [hq]
    exact after_sidecarGone h (by simpa [hrun] using hknows) seen.detail
  · have hsafe : s.StartSafe seen.startFails took := by
      simpa [hrun, hh, hs'] using hknows
    rcases hstart with ⟨hf, st', hq⟩ | ⟨hf, st', -, he, hq⟩
    · rw [hf, Scene.StartSafe, if_pos rfl] at hsafe
      rw [hq]
      exact after_startFailed _ _ hsafe.1 hsafe.2
    · rw [hf, Scene.StartSafe, if_neg (by simp)] at hsafe
      rw [hq]
      exact after_started (he.trans hsafe)
  · rcases reconcileExit_cases st' seen.worker with hx | ⟨snap, reason, hws, hnot, -, -, hx⟩
    · rw [hq, hx]
      exact after_quiet h he
    · -- the exit the pass sees is that of a worker that does not run
      rw [hq, hx]
      exact after_exited _ _ _ (by rw [← htrue snap hws, hnot])

theorem process_safe (h : s.Settled) {e : DockerEvent} (hknows : e.Knows s took) :
    Scene.SafeStep (s.after took (process s.w.st e)) := by
  rcases process_cases s.w.st e with ⟨startFails, rfl, hnot, hstart⟩ | ⟨detail, rfl, hq⟩ |
    ⟨code, oomKilled, reason, rfl, he, hq⟩ | ⟨-, -, st', he, -, hq⟩
  · have hsafe : s.StartSafe startFails took := hknows hnot
    rcases hstart with ⟨rfl, hq⟩ | ⟨rfl, st', -, he, hq⟩
    · rw [Scene.StartSafe, if_pos rfl] at hsafe
      rw [hq]
      exact after_startFailed _ _ hsafe.1 hsafe.2
    · rw [Scene.StartSafe, if_neg (by simp)] at hsafe
      rw [hq]
      exact after_started (he.trans hsafe)
  · rw [hq]
    exact after_sidecarGone h hknows detail
  · rw [hq]
    exact after_exited _ _ _ (hknows he)
  · rw [hq]
    exact after_quiet h he

/-! ## Whole histories -/

/-- The invariant: the verdicts so far are fine, and a live watch is settled. -/
def Scene.Guarded (s : Scene) (verdicts : List Verdict) : Prop :=
  (s.w.phase ≠ .returned → s.Settled) ∧ NoOrphan verdicts

theorem NoOrphan.append {xs ys : List Verdict} (hx : NoOrphan xs) (hy : NoOrphan ys) :
    NoOrphan (xs ++ ys) :=
  List.forall_mem_append.mpr ⟨hx, hy⟩

/-- Whether the worker counts as started depends on its status word only. -/
theorem detectResume_tell (seen : Look) (running : Bool) :
    (detectResume st (seen.tell running).worker).isWorkerStarted =
      (detectResume st seen.worker).isWorkerStarted := by
  obtain ⟨sidecar, detail, ws, startFails⟩ := seen
  cases ws with
  | none => rfl
  | some ws =>
    simp only [Look.tell, Option.map_some, detectResume]
    repeat' split
    all_goals simp_all

theorem Look.Knows.tell {seen : Look} (h : seen.Knows s took) :
    (seen.tell s.running).Knows s took := by
  have hsidecar : (seen.tell s.running).sidecar = seen.sidecar := rfl
  rw [Look.Knows, hsidecar, detectResume_tell]
  exact h

theorem step_after {i : Input} {r : WatcherState × List Action × Bool}
    (hstep : s.w.step (s.see i) = s.w.resume r) : s.step (.input i took) = s.after took r := by
  simp only [Scene.step, hstep, Scene.after, Watch.resume_snd]

/-- Killing the worker or passing on its log lines closes nothing. -/
theorem perform_idle (s : Scene) (took : Bool) {acts : List Action} (h : IdleActs acts) :
    (s.perform took acts).1.w = s.w ∧ (s.perform took acts).1.running = s.running ∧
      (s.killed = true → (s.perform took acts).1.killed = true) ∧
      (s.perform took acts).2 = [] := by
  rcases h with rfl | rfl | ⟨stream, lines, rfl⟩ <;> simp [Scene.perform, run, Scene.act]

theorem input_safe (h : s.w.phase ≠ .returned → s.Settled) {i : Input}
    (hknows : KnowsWorker s (.input i took)) : Scene.SafeStep (s.step (.input i took)) := by
  by_cases hret : s.w.phase = .returned
  · simp only [Scene.step, Watch.step_returned hret]
    exact ⟨fun hlive => absurd hret hlive, NoOrphan.nil⟩
  have hset := h hret
  rcases Watch.step_cases hret (s.see i) with ⟨seen, hi, htop, hc, hstep⟩ |
    ⟨e, hi, hstream, hstep⟩ | ⟨-, -, ⟨-, hstep⟩ | ⟨-, -, he, hacts⟩⟩
  · rw [step_after hstep]
    cases i with
    | reconcile seen' =>
      obtain rfl : seen'.tell s.running = seen := by simpa [Scene.see] using hi
      apply reconcile_safe hset _ (hknows htop hc).tell
      intro ws hws
      simp only [Look.tell, Option.map_eq_some_iff] at hws
      obtain ⟨ws', -, rfl⟩ := hws
      rfl
    | _ => simp [Scene.see] at hi
  · rw [step_after hstep]
    cases i with
    | event e' =>
      obtain rfl : e' = e := by simpa [Scene.see] using hi
      exact process_safe hset (hknows hstream)
    | _ => simp [Scene.see] at hi
  · simp only [Scene.step, hstep]
    exact ⟨fun hlive => absurd rfl hlive, NoOrphan.nil⟩
  · obtain ⟨hw, hrun, hkill, hnone⟩ :=
      perform_idle { s with w := (s.w.step (s.see i)).1 } took hacts
    constructor
    · intro _ hexit hrunning
      simp only [Scene.step] at hexit hrunning
      rw [hw, he] at hexit
      rw [hrun] at hrunning
      exact hkill (hset hexit hrunning)
    · simp only [Scene.step, hnone]
      exact NoOrphan.nil

theorem Scene.Guarded.step {verdicts : List Verdict} {h : Happening} (hknows : KnowsWorker s h)
    (hs : s.Guarded verdicts) : (s.step h).1.Guarded (verdicts ++ (s.step h).2) := by
  cases h with
  | workerEnds =>
    refine ⟨fun _ _ hrun => absurd hrun (by simp [Scene.step]), ?_⟩
    exact hs.2.append NoOrphan.nil
  | input i took =>
    obtain ⟨hsettled, hverdicts⟩ := input_safe hs.1 hknows
    exact ⟨hsettled, hs.2.append hverdicts⟩

/-- In every history in which the watch knows enough of the worker whenever it acts, from
the first start of a job or resumed next to any worker, no worker is left running
unkilled when the watch closes the job. -/
theorem noOrphan_of_knowsWorker (timeout : Int) (running : Bool) (history : List Happening)
    (h : Along KnowsWorker Scene.step (newScene timeout running) history) :
    NoOrphan (scene timeout running history).2 := by
  have hstart : (newScene timeout running).Guarded [] :=
    ⟨fun _ hexit => absurd hexit (by simp [newScene, newWatch, newWatcherState]), NoOrphan.nil⟩
  exact (run_invariant Scene.Guarded (fun _ _ _ => Scene.Guarded.step) h hstart).2

/-- A watch resumed next to a running worker, whose sidecar dies before the worker ends. -/
theorem noOrphan_resumed :
    (scene 60 true
      [.input (.reconcile ⟨some ⟨true, true⟩, "", some ⟨.running, true, 0, false⟩, false⟩) false,
        .input (.event (.sidecarDie "")) false]).2 = [⟨true, true⟩] ∧
    NoOrphan (scene 60 true
      [.input (.reconcile ⟨some ⟨true, true⟩, "", some ⟨.running, true, 0, false⟩, false⟩) false,
        .input (.event (.sidecarDie "")) false]).2 :=
  ⟨by decide, noOrphan_of_knowsWorker 60 true _ (by decide)⟩

/-- A watch resumed next to a running worker whose sidecar is already gone fails the job
and leaves the worker running. -/
theorem resumed_leaves_orphan :
    ¬ NoOrphan (scene 60 true
      [.input (.reconcile ⟨some ⟨false, false⟩, "", some ⟨.running, true, 0, false⟩, false⟩)
        false]).2 := by
  decide

end Orchestrator.Job.Docker

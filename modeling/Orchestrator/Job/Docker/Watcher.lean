/-
  Orchestrator.Job.Docker.Watcher

  The Docker backend's lifecycle watcher (`internal/job/docker/watcher.go`): one watch
  follows a sidecar and a worker container and turns what the daemon says about them into
  lifecycle signals.

  A watch is a machine (`Lib.Machine`): its inputs are what reaches it from outside
  (answers, events, the loss of the stream, the end of its context, its deadline timer, log
  lines) and its outputs are what it does, in order.  Clock values are left out: the timer
  is an input.
-/

import Orchestrator.Lib.Machine
import Orchestrator.Lifecycle.Store

namespace Orchestrator.Job.Docker

open Lifecycle

/-! ## What the daemon tells and what it is asked -/

inductive Status where
  | created
  | running
  | paused
  | restarting
  | removing
  | exited
  | dead
  deriving DecidableEq, Repr

structure SidecarSnap where
  running : Bool
  /-- The health record is present and says healthy. -/
  healthy : Bool
  deriving DecidableEq, Repr

structure WorkerSnap where
  status : Status
  running : Bool
  exitCode : Int
  oomKilled : Bool
  deriving DecidableEq, Repr

/-- What one `reconcile` pass is told; a missing snapshot is an inspect error. -/
structure Look where
  sidecar : Option SidecarSnap
  /-- The last line of the sidecar's log, empty if unavailable. -/
  detail : String
  worker : Option WorkerSnap
  /-- The answer to the start call, if the pass makes one. -/
  startFails : Bool
  deriving DecidableEq, Repr

/-- An event of the subscription, with the answers to the calls its handling makes. -/
inductive DockerEvent where
  | sidecarHealthy (startFails : Bool)
  | sidecarDie (detail : String)
  | workerOOM
  /-- The exit code attribute, if it is there and reads as a number. -/
  | workerDie (exitCode : Option Int) (oomKilled : Bool)
  | other
  deriving DecidableEq, Repr

inductive Action where
  | emit (s : Signal)
  | startWorker (ok : Bool)
  | killWorker
  /-- SIGUSR1 to the sidecar: the worker is done, start the post phase. -/
  | signalSidecar
  deriving DecidableEq, Repr

/-! ## The watcher's state -/

structure WatcherState where
  isWorkerStarted : Bool
  isWorkerExited : Bool
  isWorkerOOM : Bool
  /-- The log stream is open (`logCancel` is set). -/
  streaming : Bool
  timeout : Int
  deadline : Bool
  timedOut : Bool
  deriving DecidableEq, Repr

def newWatcherState (timeout : Int) : WatcherState :=
  { isWorkerStarted := false, isWorkerExited := false, isWorkerOOM := false,
    streaming := false, timeout := timeout, deadline := false, timedOut := false }

/-- Arm the timer that kills the worker; a second call keeps the first timer. -/
def armDeadline (st : WatcherState) : WatcherState :=
  if st.timeout ≤ 0 || st.deadline then st else { st with deadline := true }

def stopLogStreaming (st : WatcherState) : WatcherState := { st with streaming := false }

/-- An out-of-memory kill counts only when the worker died non-zero. -/
def exitReason (exitCode : Int) (oomKilled : Bool) : ExitReason :=
  if exitCode ≠ 0 && oomKilled then .oom else .none

def workerExitReason (exitCode : Int) (oomKilled : Bool) (st : WatcherState) : ExitReason :=
  if st.timedOut then .timeout else exitReason exitCode oomKilled

def parseExitCode (exitCode : Option Int) : Int := exitCode.getD (-1)

-- The longest beginning whose encoding has at most `limit` bytes.
def fits : List Char → Nat → List Char
  | [], _ => []
  | c :: cs, limit => if c.utf8Size ≤ limit then c :: fits cs (limit - c.utf8Size) else []

def maxFailureDetail : Nat := 512

def truncateDetail (s : String) (limit : Nat) : String := String.ofList (fits s.toList limit)

def sidecarFailureReason (detail : String) : String :=
  let reason := "sidecar exited before inputs completed"
  if detail = "" then reason else reason ++ ": " ++ truncateDetail detail maxFailureDetail

/-- The sidecar is gone and the worker runs: kill the worker and fail the job. -/
def stopOrphanedWorker (st : WatcherState) : WatcherState × List Action :=
  ({ stopLogStreaming st with isWorkerExited := true },
    [.killWorker, .emit (.failed "sidecar exited while the worker was running")])

/-! ## reconcile -/

/-- The worker was started in a previous session. -/
def detectResume (st : WatcherState) (ws : Option WorkerSnap) : WatcherState :=
  match ws with
  | none => st
  | some ws =>
    if !st.isWorkerStarted && (ws.status = .running || ws.status = .exited || ws.status = .dead)
    then
      let st := { st with isWorkerStarted := true }
      if ws.running then armDeadline st else st
    else st

def resumeLogStreaming (st : WatcherState) : WatcherState :=
  if st.isWorkerStarted && !st.streaming && !st.isWorkerExited then { st with streaming := true }
  else st

/-- The worker's exit, seen by inspection because its event was missed. -/
def reconcileExit (st : WatcherState) (ws : Option WorkerSnap) : WatcherState × List Action :=
  match ws with
  | none => (st, [])
  | some ws =>
    if st.isWorkerStarted && !st.isWorkerExited && !ws.running then
      let reason := workerExitReason ws.exitCode (st.isWorkerOOM || ws.oomKilled) st
      (stopLogStreaming { st with isWorkerExited := true },
        [.signalSidecar, .emit (.exited ws.exitCode reason)])
    else (st, [])

/-- One pass over the current container states; `true` ends the watch. -/
def reconcile (st : WatcherState) (seen : Look) : WatcherState × List Action × Bool :=
  match seen.sidecar with
  | none => (st, [], true)
  | some sidecar =>
    if !sidecar.running then
      if !st.isWorkerStarted then
        (st, [.emit (.failed (sidecarFailureReason seen.detail))], true)
      else if st.isWorkerExited then (st, [.emit .completed], true)
      else
        let (st, acts) := stopOrphanedWorker st
        (st, acts, true)
    else
      let st := detectResume st seen.worker
      if !st.isWorkerStarted && sidecar.healthy then
        if seen.startFails then
          (st, [.startWorker false, .emit (.failed "failed to start worker")], true)
        else
          let st := armDeadline { st with isWorkerStarted := true }
          -- the snapshot is older than the start: it now counts as running
          let ws := seen.worker.map fun ws => { ws with running := true }
          let (st, acts) := reconcileExit (resumeLogStreaming st) ws
          (st, .startWorker true :: .emit .started :: acts, false)
      else
        let (st, acts) := reconcileExit (resumeLogStreaming st) seen.worker
        (st, acts, false)

-- What the parts of a pass do to the two flags.

@[simp] theorem armDeadline_isWorkerStarted (st : WatcherState) :
    (armDeadline st).isWorkerStarted = st.isWorkerStarted := by
  unfold armDeadline
  split <;> rfl

@[simp] theorem armDeadline_isWorkerExited (st : WatcherState) :
    (armDeadline st).isWorkerExited = st.isWorkerExited := by
  unfold armDeadline
  split <;> rfl

@[simp] theorem resumeLogStreaming_isWorkerStarted (st : WatcherState) :
    (resumeLogStreaming st).isWorkerStarted = st.isWorkerStarted := by
  unfold resumeLogStreaming
  split <;> rfl

@[simp] theorem resumeLogStreaming_isWorkerExited (st : WatcherState) :
    (resumeLogStreaming st).isWorkerExited = st.isWorkerExited := by
  unfold resumeLogStreaming
  split <;> rfl

@[simp] theorem detectResume_isWorkerExited (st : WatcherState) (ws : Option WorkerSnap) :
    (detectResume st ws).isWorkerExited = st.isWorkerExited := by
  unfold detectResume
  repeat' split
  all_goals simp

theorem detectResume_isWorkerStarted {st : WatcherState} (h : st.isWorkerStarted = true)
    (ws : Option WorkerSnap) : (detectResume st ws).isWorkerStarted = true := by
  unfold detectResume
  cases ws <;> simp [h]

theorem reconcileExit_cases (st : WatcherState) (ws : Option WorkerSnap) :
    reconcileExit st ws = (st, []) ∨
      ∃ snap reason, ws = some snap ∧ snap.running = false ∧ st.isWorkerStarted = true ∧
        st.isWorkerExited = false ∧
        reconcileExit st ws = (stopLogStreaming { st with isWorkerExited := true },
          [.signalSidecar, .emit (.exited snap.exitCode reason)]) := by
  cases ws with
  | none => exact .inl rfl
  | some snap =>
    by_cases h : st.isWorkerStarted = true ∧ st.isWorkerExited = false ∧ snap.running = false
    · obtain ⟨hs, he, hr⟩ := h
      right
      refine ⟨snap, workerExitReason snap.exitCode (st.isWorkerOOM || snap.oomKilled) st,
        rfl, hr, hs, he, ?_⟩
      simp only [reconcileExit, hs, he, hr, Bool.not_false, Bool.and_self, if_true]
    · left
      simp only [reconcileExit]
      rw [if_neg]
      simpa [and_assoc] using h

/-- In the pass that starts the worker no exit is seen. -/
@[simp] theorem reconcileExit_map_running (st : WatcherState) (ws : Option WorkerSnap) :
    reconcileExit st (ws.map fun ws => { ws with running := true }) = (st, []) := by
  cases ws <;> simp [reconcileExit]

/-! ## process: one event -/

/-- The body of the event loop; `true` ends the watch. -/
def process (st : WatcherState) (event : DockerEvent) : WatcherState × List Action × Bool :=
  match event with
  | .sidecarHealthy startFails =>
    if !st.isWorkerStarted then
      if startFails then
        (st, [.startWorker false, .emit (.failed "failed to start worker")], true)
      else
        let st := armDeadline { st with isWorkerStarted := true }
        ({ st with streaming := true }, [.startWorker true, .emit .started], false)
    else (st, [], false)
  | .workerOOM => ({ st with isWorkerOOM := true }, [], false)
  | .workerDie code oomKilled =>
    if !st.isWorkerExited then
      let exitCode := parseExitCode code
      let reason := workerExitReason exitCode (st.isWorkerOOM || oomKilled) st
      (stopLogStreaming { st with isWorkerExited := true },
        [.signalSidecar, .emit (.exited exitCode reason)], false)
    else (st, [], false)
  | .sidecarDie detail =>
    if !st.isWorkerStarted then
      (st, [.emit (.failed (sidecarFailureReason detail))], true)
    else if !st.isWorkerExited then
      let (st, acts) := stopOrphanedWorker st
      (st, acts, true)
    else (st, [.emit .completed], true)
  | .other => (st, [], false)

/-! ## What the two parts can do -/

/-- The end of the watch when the sidecar is found dead: both parts do this. -/
def sidecarGone (st : WatcherState) (detail : String) : WatcherState × List Action × Bool :=
  if st.isWorkerStarted = false then
    (st, [.emit (.failed (sidecarFailureReason detail))], true)
  else if st.isWorkerExited then (st, [.emit .completed], true)
  else ((stopOrphanedWorker st).1, (stopOrphanedWorker st).2, true)

theorem reconcile_cases (st : WatcherState) (seen : Look) :
    (seen.sidecar = none ∧ reconcile st seen = (st, [], true)) ∨
    ∃ sidecar, seen.sidecar = some sidecar ∧
      ((sidecar.running = false ∧ reconcile st seen = sidecarGone st seen.detail) ∨
      (sidecar.running = true ∧ sidecar.healthy = true ∧
        (detectResume st seen.worker).isWorkerStarted = false ∧
        ((seen.startFails = true ∧ ∃ st', reconcile st seen =
            (st', [.startWorker false, .emit (.failed "failed to start worker")], true)) ∨
          (seen.startFails = false ∧ ∃ st', st'.isWorkerStarted = true ∧
            st'.isWorkerExited = st.isWorkerExited ∧
            reconcile st seen = (st', [.startWorker true, .emit .started], false)))) ∨
      (sidecar.running = true ∧
        ((detectResume st seen.worker).isWorkerStarted = true ∨ sidecar.healthy = false) ∧
        ∃ st', st'.isWorkerExited = st.isWorkerExited ∧
          (st.isWorkerStarted = true → st'.isWorkerStarted = true) ∧
          reconcile st seen =
            ((reconcileExit st' seen.worker).1, (reconcileExit st' seen.worker).2, false))) := by
  obtain ⟨sidecar, detail, ws, startFails⟩ := seen
  cases sidecar with
  | none => exact .inl ⟨rfl, rfl⟩
  | some sidecar =>
    right
    refine ⟨sidecar, rfl, ?_⟩
    cases hrun : sidecar.running with
    | false =>
      left
      refine ⟨rfl, ?_⟩
      cases hs : st.isWorkerStarted <;> cases he : st.isWorkerExited <;>
        simp [reconcile, sidecarGone, hrun, hs, he]
    | true =>
      right
      have hstarted : st.isWorkerStarted = true →
          (detectResume st ws).isWorkerStarted = true :=
        fun h => detectResume_isWorkerStarted h ws
      -- the worker is started when it has not been and the sidecar is healthy
      by_cases hstart : (detectResume st ws).isWorkerStarted = false ∧ sidecar.healthy = true
      · left
        obtain ⟨hs', hh⟩ := hstart
        refine ⟨rfl, hh, hs', ?_⟩
        cases startFails with
        | true => exact .inl ⟨rfl, detectResume st ws, by simp [reconcile, hrun, hs', hh]⟩
        | false =>
          right
          refine ⟨rfl, resumeLogStreaming
            (armDeadline { detectResume st ws with isWorkerStarted := true }), by simp,
            by simp, ?_⟩
          simp [reconcile, hrun, hs', hh]
      · right
        have hif : (!(detectResume st ws).isWorkerStarted && sidecar.healthy) = false := by
          simpa using hstart
        refine ⟨rfl, by simpa [or_iff_not_imp_left] using hstart,
          resumeLogStreaming (detectResume st ws), by simp, by simpa using hstarted, ?_⟩
        simp only [reconcile, hrun, hif, Bool.not_true, Bool.false_eq_true, if_false]

theorem process_cases (st : WatcherState) (e : DockerEvent) :
    (∃ startFails, e = .sidecarHealthy startFails ∧ st.isWorkerStarted = false ∧
      ((startFails = true ∧ process st e =
          (st, [.startWorker false, .emit (.failed "failed to start worker")], true)) ∨
        (startFails = false ∧ ∃ st', st'.isWorkerStarted = true ∧
          st'.isWorkerExited = st.isWorkerExited ∧
          process st e = (st', [.startWorker true, .emit .started], false)))) ∨
    (∃ detail, e = .sidecarDie detail ∧ process st e = sidecarGone st detail) ∨
    (∃ code oomKilled reason, e = .workerDie code oomKilled ∧ st.isWorkerExited = false ∧
      process st e = (stopLogStreaming { st with isWorkerExited := true },
        [.signalSidecar, .emit (.exited (parseExitCode code) reason)], false)) ∨
    ((∀ detail, e ≠ .sidecarDie detail) ∧
      ((∃ startFails, e = .sidecarHealthy startFails) → st.isWorkerStarted = true) ∧
      ∃ st', st'.isWorkerExited = st.isWorkerExited ∧ st'.isWorkerStarted = st.isWorkerStarted ∧
        process st e = (st', [], false)) := by
  cases e with
  | sidecarHealthy startFails =>
    cases hs : st.isWorkerStarted with
    | true =>
      right; right; right
      exact ⟨by simp, fun _ => rfl, st, rfl, hs, by simp [process, hs]⟩
    | false =>
      left
      refine ⟨startFails, rfl, rfl, ?_⟩
      cases startFails with
      | true => exact .inl ⟨rfl, by simp [process, hs]⟩
      | false =>
        right
        refine ⟨rfl, { armDeadline { st with isWorkerStarted := true } with
          streaming := true }, by simp, by simp, by simp [process, hs]⟩
  | sidecarDie detail =>
    right; left
    refine ⟨detail, rfl, ?_⟩
    cases hs : st.isWorkerStarted <;> cases he : st.isWorkerExited <;>
      simp [process, sidecarGone, hs, he]
  | workerDie code oomKilled =>
    cases he : st.isWorkerExited with
    | false =>
      right; right; left
      exact ⟨code, oomKilled, _, rfl, rfl, by simp only [process, he]; rfl⟩
    | true =>
      right; right; right
      exact ⟨by simp, by simp, st, he, rfl, by simp [process, he]⟩
  | workerOOM =>
    right; right; right
    exact ⟨by simp, by simp, { st with isWorkerOOM := true }, rfl, rfl, rfl⟩
  | other =>
    right; right; right
    exact ⟨by simp, by simp, st, rfl, rfl, rfl⟩

/-! ## Watch -/

inductive Phase where
  /-- At the head of the loop, about to subscribe and inspect. -/
  | top
  | stream
  | backoff
  | returned
  deriving DecidableEq, Repr

structure Watch where
  st : WatcherState
  phase : Phase
  cancelled : Bool
  deriving DecidableEq, Repr

inductive Input where
  | cancel
  /-- The loop's select takes the branch of the ended context. -/
  | ctxDone
  | reconcile (seen : Look)
  | event (e : DockerEvent)
  | disconnect
  | retry
  | deadline
  | log (stream : Stream) (lines : List String)
  deriving DecidableEq, Repr

def newWatch (timeout : Int) : Watch := ⟨newWatcherState timeout, .top, false⟩

/-- Go on with a part's result: `true` returns from `Watch`, which stops the log stream and
the timer. -/
def Watch.resume (w : Watch) (r : WatcherState × List Action × Bool) : Watch × List Action :=
  if r.2.2 then ({ w with st := stopLogStreaming r.1, phase := .returned }, r.2.1)
  else ({ w with st := r.1, phase := .stream }, r.2.1)

def Watch.stop (w : Watch) : Watch := { w with st := stopLogStreaming w.st, phase := .returned }

/-- One input; what a phase does not wait for changes nothing. -/
def Watch.step (w : Watch) (i : Input) : Watch × List Action :=
  if w.phase = .returned then (w, [])
  else
    match i with
    | .cancel => ({ w with cancelled := true }, [])
    | .deadline =>
      if w.st.deadline && !w.st.timedOut then
        ({ w with st := { w.st with timedOut := true } }, [.killWorker])
      else (w, [])
    | .log stream lines =>
      if w.st.streaming then (w, [.emit (.logLine stream lines)]) else (w, [])
    | .reconcile seen =>
      if w.phase = .top then
        if w.cancelled then (w.stop, []) else w.resume (Docker.reconcile w.st seen)
      else (w, [])
    | .event e => if w.phase = .stream then w.resume (process w.st e) else (w, [])
    | .disconnect => if w.phase = .stream then ({ w with phase := .backoff }, []) else (w, [])
    | .retry => if w.phase = .backoff then ({ w with phase := .top }, []) else (w, [])
    | .ctxDone => if w.cancelled && w.phase ≠ .top then (w.stop, []) else (w, [])

theorem Watch.step_returned {w : Watch} (h : w.phase = .returned) (i : Input) :
    w.step i = (w, []) := by
  simp only [Watch.step, h, if_true]

section

variable (w : Watch) (r : WatcherState × List Action × Bool)
include w r

theorem Watch.resume_phase_returned :
    (w.resume r).1.phase = .returned ↔ r.2.2 = true := by
  unfold Watch.resume
  split <;> simp_all

theorem Watch.resume_cancelled :
    (w.resume r).1.cancelled = w.cancelled := by
  unfold Watch.resume
  split <;> rfl

theorem Watch.resume_snd :
    (w.resume r).2 = r.2.1 := by
  unfold Watch.resume
  split <;> rfl

end

/-- The actions of an input that neither inspects nor handles an event. -/
def IdleActs (acts : List Action) : Prop :=
  acts = [] ∨ acts = [.killWorker] ∨ ∃ stream lines, acts = [.emit (.logLine stream lines)]

/-- What an input can do to a watch that has not returned: a pass of `reconcile`, one event
of `process`, the return of a cancelled watch, or nothing that concerns the two flags. -/
theorem Watch.step_cases {w : Watch} (hlive : w.phase ≠ .returned) (i : Input) :
    (∃ seen, i = .reconcile seen ∧ w.phase = .top ∧ w.cancelled = false ∧
      w.step i = w.resume (Docker.reconcile w.st seen)) ∨
    (∃ e, i = .event e ∧ w.phase = .stream ∧ w.step i = w.resume (process w.st e)) ∨
    ((∀ seen, i = .reconcile seen → w.phase = .top → w.cancelled = true) ∧
      (∀ e, i = .event e → w.phase ≠ .stream) ∧
      ((w.cancelled = true ∧ w.step i = (w.stop, [])) ∨
        ((w.step i).1.phase ≠ .returned ∧
          (w.step i).1.st.isWorkerStarted = w.st.isWorkerStarted ∧
          (w.step i).1.st.isWorkerExited = w.st.isWorkerExited ∧ IdleActs (w.step i).2))) := by
  cases i with
  | reconcile seen =>
    by_cases htop : w.phase = .top
    · cases hc : w.cancelled with
      | true =>
        right; right
        exact ⟨fun _ _ _ => rfl, by simp, .inl ⟨rfl, by simp [Watch.step, htop, hc]⟩⟩
      | false =>
        left
        exact ⟨seen, rfl, htop, rfl, by simp [Watch.step, htop, hc]⟩
    · right; right
      refine ⟨fun _ _ h => absurd h htop, by simp, .inr ?_⟩
      simp [Watch.step, htop, hlive, IdleActs]
  | event e =>
    by_cases hstream : w.phase = .stream
    · right; left
      exact ⟨e, rfl, hstream, by simp [Watch.step, hstream]⟩
    · right; right
      refine ⟨by simp, fun _ _ => hstream, .inr ?_⟩
      simp [Watch.step, hstream, hlive, IdleActs]
  | ctxDone =>
    right; right
    refine ⟨by simp, by simp, ?_⟩
    by_cases h : w.cancelled = true ∧ w.phase ≠ .top
    · exact .inl ⟨h.1, by simp [Watch.step, hlive, h]⟩
    right
    have hstep : w.step .ctxDone = (w, []) := by
      simp only [Watch.step, hlive, if_false]
      rw [if_neg]
      simpa using h
    rw [hstep]
    exact ⟨hlive, rfl, rfl, .inl rfl⟩
  | cancel =>
    right; right
    refine ⟨by simp, by simp, .inr ?_⟩
    simp [Watch.step, hlive, IdleActs]
  | _ =>
    -- the other inputs move the loop, or log
    right; right
    refine ⟨by simp, by simp, .inr ?_⟩
    simp only [Watch.step, hlive, if_false]
    split <;> simp [hlive, IdleActs]

/-- A watch from its start through a list of inputs. -/
def watch (timeout : Int) (inputs : List Input) : Watch × List Action :=
  Lib.Machine.run Watch.step (newWatch timeout) inputs

-- A first run: the sidecar gets healthy, the worker runs and exits, the post phase ends.
example :
    (watch 0
      [.reconcile ⟨some ⟨true, false⟩, "", some ⟨.created, false, 0, false⟩, false⟩,
        .event (.sidecarHealthy false), .log .stdout ["hi"], .event (.workerDie (some 0) false),
        .event (.sidecarDie "")]).2 =
      [.startWorker true, .emit .started, .emit (.logLine .stdout ["hi"]), .signalSidecar,
        .emit (.exited 0 .none), .emit .completed] := by decide

end Orchestrator.Job.Docker

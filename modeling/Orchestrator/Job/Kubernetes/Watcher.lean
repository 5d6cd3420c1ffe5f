/-
  Orchestrator.Job.Kubernetes.Watcher

  The lifecycle watcher of the Kubernetes backend (`internal/job/kubernetes/watcher.go`).

  One call of `Start` is a leadership term: the informer's events are handled one at a
  time, each job id has a tracker from its pod's first event on, and the end of the term
  drops all trackers.  It does not wait for the informer, so a handler may run after that;
  what it leaves is still there when the replica leads again.

  Log lines and the durations of exits are left out; the drain of the log stream before an
  exit has no effect on what is emitted.  A handler that finds its tracker closed by the end
  of the term does nothing and is not a step here.
-/

import Orchestrator.Lib.Machine
import Orchestrator.Lifecycle.Store
import Orchestrator.Job.Kubernetes.Pod

namespace Orchestrator.Job.Kubernetes

open Lifecycle

/-! ## The tracker of one job -/

structure TrackerState where
  isStarted : Bool
  isExited : Bool
  deriving DecidableEq, Repr

structure JobTracker where
  state : TrackerState
  closed : Bool
  deriving DecidableEq, Repr

def newJobTracker : JobTracker := ⟨⟨false, false⟩, false⟩

/-- What `applyPodStateLocked` leaves: the state, what it emitted, and whether the job
reached its terminal state. -/
structure Applied where
  state : TrackerState
  emitted : List Signal
  terminal : Bool
  deriving DecidableEq, Repr

/-- The reason of a pod that failed before its worker ran. -/
def startFailureReason (pod : Pod) : String :=
  if pod.reason ≠ "" then pod.reason
  else if initFailureReason pod ≠ "" then initFailureReason pod
  else "pod failed before worker started"

/-- The reason of a pod that failed under its worker. -/
def podFailureReason (pod : Pod) : String :=
  if pod.reason = "" then "pod failed" else pod.reason

def exitReason (term : Terminated) : ExitReason :=
  if term.exitCode ≠ 0 ∧ term.reason = "OOMKilled" then .oom else .none

/-- A worker seen running starts the job, once. -/
def noteRunning (s : TrackerState) (worker : ContainerState) : TrackerState × List Signal :=
  if !s.isStarted && worker.isRunning then ({ s with isStarted := true }, [.started])
  else (s, [])

/-- A started job whose worker is seen terminated has exited, once. -/
def noteExit (s : TrackerState) (worker : ContainerState) : TrackerState × List Signal :=
  match worker with
  | .terminated term =>
    if s.isStarted && !s.isExited then
      ({ s with isExited := true }, [.exited term.exitCode (exitReason term)])
    else (s, [])
  | _ => (s, [])

/-- The last two blocks: a pod that failed under its worker, and a pod all of whose
containers have stopped after the exit. -/
def notePhase (s : TrackerState) (pod : Pod) (emitted : List Signal) : Applied :=
  if s.isStarted && !s.isExited && pod.phase = .failed then
    ⟨{ s with isExited := true }, emitted ++ [.failed (podFailureReason pod)], true⟩
  else if s.isExited && isPodTerminal pod then ⟨s, emitted ++ [.completed], true⟩
  else ⟨s, emitted, false⟩

/-- Advance the state machine for one pod update. -/
def applyPodStateLocked (termStart : Nat) (s : TrackerState) (pod : Pod) : Applied :=
  if !s.isStarted && pod.phase = .failed && !workerRan pod then
    ⟨s, [.failed (startFailureReason pod)], true⟩
  else
    match pod.worker with
    | none => ⟨s, [], false⟩
    | some worker =>
      let (s, started) := noteRunning s worker
      if !s.isStarted && worker.isTerminated then
        if ¬ termStart < pod.createdAt then
          -- created before the term: taken as reported by the previous leader
          ⟨⟨true, true⟩, started, isPodTerminal pod⟩
        else
          let s : TrackerState := { s with isStarted := true }
          let (s, exited) := noteExit s worker
          notePhase s pod (started ++ [.started] ++ exited)
      else
        let (s, exited) := noteExit s worker
        notePhase s pod (started ++ exited)

def JobTracker.handleUpdate (termStart : Nat) (t : JobTracker) (pod : Pod) :
    JobTracker × List Signal :=
  if t.closed then (t, [])
  else
    let applied := applyPodStateLocked termStart t.state pod
    (⟨applied.state, applied.terminal⟩, applied.emitted)

def JobTracker.handleDelete (t : JobTracker) : JobTracker × List Signal :=
  if t.closed then (t, [])
  else if !t.state.isExited then ({ t with closed := true }, [.failed "pod deleted"])
  else ({ t with closed := true }, [.completed])

/-! ## The watcher -/

inductive Notification where
  | update (pod : Pod)
  | delete (pod : Pod)
  /-- `cache.DeletedFinalStateUnknown`: the deletion itself was missed. -/
  | tombstone (pod : Pod)
  deriving DecidableEq, Repr

/-- An event that is handled: an add or update, or a deletion with the last state. -/
structure Sighting where
  pod : Pod
  deleted : Bool
  deriving DecidableEq, Repr

def Notification.sighting : Notification → Option Sighting
  | update pod => some ⟨pod, false⟩
  | delete pod => some ⟨pod, true⟩
  -- no `*corev1.Pod`: the type assertion in `DeleteFunc` fails
  | tombstone _ => none

structure Watcher where
  termStart : Nat
  trackers : String → Option JobTracker

def newWatcher : Watcher := ⟨0, fun _ => none⟩

/-- The part of `handle` under one job id: the tracker is created on the pod's first
event and evicted when the pod is deleted. -/
def observe (termStart : Nat) (t : Option JobTracker) (s : Sighting) :
    Option JobTracker × List Signal :=
  match t, s.deleted with
  | none, true => (none, [])
  | some t, true => (none, t.handleDelete.2)
  | t, false =>
    let after := (t.getD newJobTracker).handleUpdate termStart s.pod
    (some after.1, after.2)

def Watcher.set (w : Watcher) (jobID : String) (t : Option JobTracker) : Watcher :=
  { w with trackers := fun i => if i = jobID then t else w.trackers i }

def Watcher.handle (w : Watcher) (s : Sighting) : Watcher × List (String × Signal) :=
  if s.pod.jobID = "" then (w, [])
  else
    let after := observe w.termStart (w.trackers s.pod.jobID) s
    (w.set s.pod.jobID after.1, after.2.map (s.pod.jobID, ·))

inductive Step where
  /-- `Start` is called: a leadership term begins. -/
  | begin (now : Nat)
  /-- A handler of the informer comes to the trackers. -/
  | notify (n : Notification)
  /-- The term is over, and its trackers are closed and dropped. -/
  | drop
  deriving DecidableEq, Repr

def Watcher.step (w : Watcher) : Step → Watcher × List (String × Signal)
  | .begin now => ({ w with termStart := now }, [])
  | .notify n =>
    match n.sighting with
    | none => (w, [])
    | some s => w.handle s
  | .drop => ({ w with trackers := fun _ => none }, [])

/-- Everything that the replicas of a fleet emit, each over its own steps. -/
def emissions (fleet : List (List Step)) : List (String × Signal) :=
  fleet.flatMap fun steps => (Lib.Machine.run Watcher.step newWatcher steps).2

end Orchestrator.Job.Kubernetes

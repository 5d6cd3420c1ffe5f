/-
  Orchestrator.Job.Kubernetes.Pod

  What the jobs service reads of a pod (`internal/job/kubernetes`): its job label, when it
  was created, its phase and the states of its containers.
-/

import Mathlib.Data.List.Basic

namespace Orchestrator.Job.Kubernetes

inductive PodPhase where
  | pending
  | running
  | succeeded
  | failed
  | unknown
  deriving DecidableEq, Repr

structure Terminated where
  exitCode : Int
  reason : String
  message : String
  deriving DecidableEq, Repr

/-- A container state names one of its members; none of them reads as waiting. -/
inductive ContainerState where
  | waiting
  | running
  | terminated (term : Terminated)
  deriving DecidableEq, Repr

structure ContainerStatus where
  name : String
  state : ContainerState
  deriving DecidableEq, Repr

structure Pod where
  -- the label `job.id`, empty when the pod has none
  jobID : String
  createdAt : Nat
  phase : PodPhase
  reason : String
  initContainerStatuses : List ContainerStatus
  containerStatuses : List ContainerStatus
  deriving DecidableEq, Repr

def ContainerWorker : String := "worker"

def ContainerState.isRunning : ContainerState → Bool
  | .running => true
  | _ => false

def ContainerState.isTerminated : ContainerState → Bool
  | .terminated _ => true
  | _ => false

/-- The first status under the worker's name. -/
def findWorkerStatus (pod : Pod) : Option ContainerStatus :=
  pod.containerStatuses.find? (fun cs => cs.name = ContainerWorker)

/-- The worker's state, as far as the kubelet has listed the worker. -/
def Pod.worker (pod : Pod) : Option ContainerState :=
  (findWorkerStatus pod).map (·.state)

/-- "Never ran" is a state check, not a presence check: the kubelet lists a worker as
waiting even when it will never start. -/
def workerRan (pod : Pod) : Bool :=
  match pod.worker with
  | some state => state.isRunning || state.isTerminated
  | none => false

/-- Names the first init container that failed, or nothing. -/
def initFailureReason (pod : Pod) : String :=
  let failed (cs : ContainerStatus) : Option String :=
    match cs.state with
    | .terminated term =>
      if term.exitCode ≠ 0 then
        some ("init container " ++ cs.name ++ " failed with exit code "
          ++ toString term.exitCode)
      else none
    | _ => none
  (pod.initContainerStatuses.findSome? failed).getD ""

/-- Every container has stopped, the native sidecar included. -/
def isPodTerminal (pod : Pod) : Bool :=
  pod.phase = .succeeded || pod.phase = .failed

end Orchestrator.Job.Kubernetes

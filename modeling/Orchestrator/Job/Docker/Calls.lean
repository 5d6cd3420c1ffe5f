/-
  Orchestrator.Job.Docker.Calls

  `Run` and `Stop` of the Docker backend (`internal/job/docker/docker.go`) on one job id.

  Each call is a machine that makes one operation on the shared store or daemon per step,
  so that calls can be interleaved at every point between two operations.

  A container's id is fresh for each creation; it is modelled by the number of the `Run`
  call that creates it, and `none` is the empty id.  A container's name is a function of
  the job id, and the daemon refuses to create a container under a name in use.
-/

import Orchestrator.Lib.Machine
import Orchestrator.Lifecycle.Store

namespace Orchestrator.Job.Docker

open Lifecycle

/-! ## Handles and resources -/

structure DockerHandle where
  sidecarContainerID : Option Nat
  jobContainerID : Option Nat
  /-- The shared workspace volume (jobs without mounts). -/
  volumeName : String
  /-- The shared workspace directory of the host (jobs with mounts). -/
  hostDir : String
  deriving DecidableEq, Repr

instance : Inhabited DockerHandle := ⟨⟨none, none, "", ""⟩⟩

inductive Resource where
  | sidecar (id : Nat)
  | worker (id : Nat)
  | volume (name : String)
  | hostDir (path : String)
  deriving DecidableEq, Repr

/-- What `cleanup` asks to be removed, in its order. -/
def cleanup (h : DockerHandle) : List Resource :=
  (h.sidecarContainerID.map Resource.sidecar).toList ++
    (h.jobContainerID.map Resource.worker).toList ++
    (if h.volumeName ≠ "" then [.volume h.volumeName] else []) ++
    (if h.hostDir ≠ "" then [.hostDir h.hostDir] else [])

/-! ## Calls -/

/-- Where a `Run` call stands: the operation it makes next. -/
inductive Stage where
  | reserve
  | workspace
  | pullImage
  | createJob
  | pullSidecar
  | createSidecar
  | startSidecar
  | commit
  | watch
  | release (err : String)
  | cleanup (rest : List Resource) (err : String)
  | returned (err : Option String)
  deriving DecidableEq, Repr

structure RunCall where
  hasMounts : Bool
  stage : Stage
  h : DockerHandle
  created : List Resource
  deriving DecidableEq, Repr

def newRunCall (hasMounts : Bool) : RunCall := ⟨hasMounts, .reserve, default, []⟩

inductive StopStage where
  | release
  | cancel (h : Handle DockerHandle Nat)
  | cleanup (rest : List Resource)
  | returned (err : Option String)

structure StopCall where
  stage : StopStage
  /-- The `Run` calls accepted before this one took its entry. -/
  after : List Nat

def newStopCall : StopCall := ⟨.release, []⟩

structure Answer where
  /-- The operation succeeded; one that fails is taken to have no effect. -/
  ok : Bool
  /-- The directory `MkdirTemp` made. -/
  path : String
  now : Nat
  deriving DecidableEq, Repr

/-- A container: the call that created it, and whether it runs. -/
structure Container where
  owner : Nat
  running : Bool
  deriving DecidableEq, Repr

structure System where
  id : String
  store : MemoryStore DockerHandle Nat
  /-- The `Run` call whose reservation the store holds. -/
  owner : Option Nat
  /-- The `Run` calls whose reservation succeeded. -/
  accepted : List Nat
  runs : Nat → RunCall
  stops : Nat → StopCall
  sidecar : Option Container
  worker : Option Container
  volume : Bool
  /-- What the daemon and the host have been asked to remove. -/
  asked : List Resource
  cancelled : Nat → Bool
  /-- The watch of a call has been started, and has not ended by itself. -/
  watching : Nat → Bool

namespace System

def setRun (s : System) (r : Nat) (c : RunCall) : System :=
  { s with runs := fun i => if i = r then c else s.runs i }

def setStop (s : System) (t : Nat) (c : StopCall) : System :=
  { s with stops := fun i => if i = t then c else s.stops i }

def goto (s : System) (r : Nat) (stage : Stage) : System :=
  s.setRun r { s.runs r with stage := stage }

def remove (s : System) (x : Resource) (ok : Bool) : System :=
  let s := { s with asked := s.asked ++ [x] }
  if ok then
    match x with
    | .sidecar id => if s.sidecar.any (·.owner = id) then { s with sidecar := none } else s
    | .worker id => if s.worker.any (·.owner = id) then { s with worker := none } else s
    | .volume _ => { s with volume := false }
    | .hostDir _ => s
  else s

/-- The reservation another call finds in the store when a failing `Run` releases it. -/
structure Freed where
  run : Nat
  owner : Option Nat
  deriving DecidableEq, Repr

/-- The next operation of `Run` call `r`.  A daemon call that fails changes nothing at the
    daemon. -/
def runStep (s : System) (r : Nat) (a : Answer) : System × List Freed :=
  let c := s.runs r
  match c.stage with
  | .reserve =>
    match s.store.reserve a.now s.id with
    | .error err => (s.goto r (.returned (some err)), [])
    | .ok store =>
      ({ s.goto r .workspace with
          store := store, owner := some r, accepted := s.accepted ++ [r] }, [])
  | .workspace =>
    if c.hasMounts then
      if a.ok then
        (s.setRun r
          { c with
            stage := .pullImage
            h := { c.h with hostDir := a.path }
            created := c.created ++ [.hostDir a.path] }, [])
      else (s.goto r (.release "docker.createWorkspaceDir"), [])
    else
      let h := { c.h with volumeName := "job-" ++ s.id ++ "-workspace" }
      if a.ok then
        -- `VolumeCreate` takes a volume that is there as it is
        let created := if s.volume then [] else [Resource.volume h.volumeName]
        ({ s.setRun r { c with stage := .pullImage, h := h, created := c.created ++ created } with
            volume := true }, [])
      else (s.setRun r { c with stage := .release "docker.createVolume", h := h }, [])
  | .pullImage =>
    if a.ok then (s.goto r .createJob, []) else (s.goto r (.release "docker.pullImage"), [])
  | .createJob =>
    -- the name is taken as long as an earlier worker has not been removed
    if a.ok && s.worker.isNone then
      ({ s.setRun r
          { c with
            stage := .pullSidecar
            h := { c.h with jobContainerID := some r }
            created := c.created ++ [.worker r] } with
        worker := some ⟨r, false⟩ }, [])
    else (s.goto r (.release "docker.createJobContainer"), [])
  | .pullSidecar =>
    if a.ok then (s.goto r .createSidecar, [])
    else (s.goto r (.release "docker.pullSidecarImage"), [])
  | .createSidecar =>
    if a.ok && s.sidecar.isNone then
      ({ s.setRun r
          { c with
            stage := .startSidecar
            h := { c.h with sidecarContainerID := some r }
            created := c.created ++ [.sidecar r] } with
        sidecar := some ⟨r, false⟩ }, [])
    else (s.goto r (.release "docker.createSidecarContainer"), [])
  | .startSidecar =>
    if a.ok && s.sidecar.any (·.owner = r) then
      ({ s.goto r .commit with sidecar := some ⟨r, true⟩ }, [])
    else (s.goto r (.release "docker.startSidecarContainer"), [])
  | .commit => ({ s.goto r .watch with store := s.store.commit s.id c.h (some r) }, [])
  | .watch =>
    ({ s.goto r (.returned none) with
        watching := fun i => if i = r then true else s.watching i }, [])
  | .release err =>
    match s.store.release s.id with
    | (_, none) => (s.goto r (.returned (some err)), [])
    | (store, some rh) =>
      ({ s.goto r (.cleanup (Docker.cleanup rh.runtime) err) with
          store := store, owner := none }, [⟨r, s.owner⟩])
  | .cleanup [] err => (s.goto r (.returned (some err)), [])
  | .cleanup (x :: rest) err => ((s.goto r (.cleanup rest err)).remove x a.ok, [])
  | .returned _ => (s, [])

def stopStep (s : System) (t : Nat) (a : Answer) : System :=
  let c := s.stops t
  match c.stage with
  | .release =>
    match s.store.release s.id with
    | (_, none) =>
      s.setStop t ⟨.returned (some ("job " ++ s.id ++ " not found")), s.accepted⟩
    | (store, some h) =>
      { s.setStop t ⟨.cancel h, s.accepted⟩ with store := store, owner := none }
  | .cancel h =>
    { s.setStop t { c with stage := .cleanup (Docker.cleanup h.runtime) } with
        cancelled := fun i => if h.cancelWatch = some i then true else s.cancelled i }
  | .cleanup [] => s.setStop t { c with stage := .returned none }
  | .cleanup (x :: rest) => (s.setStop t { c with stage := .cleanup rest }).remove x a.ok
  | .returned _ => s

/-- What happens next: an operation of a call, a watch that ends, or a watch that starts
the worker (also one whose cancellation is on its way). -/
inductive Move where
  | run (r : Nat) (a : Answer)
  | stop (t : Nat) (a : Answer)
  | watchEnds (r : Nat)
  | startWorker (r : Nat)
  deriving DecidableEq, Repr

def step (s : System) : Move → System × List Freed
  | .run r a => s.runStep r a
  | .stop t a => (s.stopStep t a, [])
  | .watchEnds r =>
    ({ s with watching := fun i => if i = r then false else s.watching i }, [])
  | .startWorker r =>
    if (s.runs r).stage = .returned none && s.worker.any (·.owner = r) then
      ({ s with worker := some ⟨r, true⟩ }, [])
    else (s, [])

end System

/-- No call made yet; call `r` asks for mounts if `mounts r`. -/
def newSystem (id : String) (mounts : Nat → Bool) : System :=
  { id := id, store := newMemoryStore "job", owner := none, accepted := []
    runs := fun r => newRunCall (mounts r), stops := fun _ => newStopCall
    sidecar := none, worker := none, volume := false, asked := []
    cancelled := fun _ => false, watching := fun _ => false }

end Orchestrator.Job.Docker

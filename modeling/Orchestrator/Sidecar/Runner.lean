/-
  Orchestrator.Sidecar.Runner

  The combined flow of the sidecar (internal/sidecar/runner.go, mount.go, marker.go),
  from the artifacts before the workload to the teardown.

  Everything the flow asks of its surroundings (files, downloads, mounts) goes through
  `call`, and the `Host` answers each call as it likes: done, an error with or without
  the effect having happened, or the end of the sidecar's process.  `World` is the markers
  and the mount table, the runner's list of mounts, and a log of what was applied when.
  The sync loops and the reports to the jobs service change none of these and are left out.
-/

import Orchestrator.Artifact.Graph

namespace Orchestrator.Sidecar

open Lib Lib.Prog Artifact

/-- What happens in a run of the sidecar, in order. -/
inductive Event where
  | apply (id : String)
  | applied (id : String)
  | ready
  /-- The signal that the worker has finished has arrived. -/
  | workerDone
deriving DecidableEq, Repr

inductive Err where
  | io (text : String)
  | wrap (text : String) (cause : Err)
  | join (first second : Err)
deriving DecidableEq, Repr

/-- How a call ends.  An error may be reported although the effect has happened, and the
    process may end before or after it. -/
inductive Answer where
  | ok
  | err (effect : Bool) (e : String)
  | crash (effect : Bool)
deriving DecidableEq, Repr

/-- How the wait for the completion signal ends. -/
inductive Hold where
  | signal
  | deadline
  | crash
deriving DecidableEq, Repr

/-- The surroundings: how each call ends, what a mount's source turns out to be, and how
    the wait ends. -/
structure Host where
  answer : Nat → Answer
  isTar : Nat → Bool
  hold : Hold

/-- Surroundings in which nothing goes wrong. -/
def Host.Reliable (host : Host) : Prop := (∀ n, host.answer n = .ok) ∧ host.hold = .signal

structure World where
  markerReady : Bool := false
  markerArtifactsComplete : Bool := false
  /-- The targets of the mounts beneath the workspace, the newest last. -/
  mountTable : List String := []
  /-- The runner's own list of the targets to unmount. -/
  mounted : List String := []
  log : List Event := []
  calls : Nat := 0
deriving DecidableEq, Repr

abbrev Flow := Prog World (Stop Err)

/-- Ask the surroundings for `effect`. -/
def call (host : Host) (effect : World → World) : Flow Unit := do
  let w ← get
  modify fun w => { w with calls := w.calls + 1 }
  match host.answer w.calls with
  | .ok => modify effect
  | .err done e =>
    modify fun w => if done then effect w else w
    throw (.err (.io e))
  | .crash done =>
    modify fun w => if done then effect w else w
    throw .crash

def record (e : Event) : Flow Unit := modify fun w => { w with log := w.log ++ [e] }

/-- Return the error of `m`, if it has one, under a text. -/
def wrapping (text : String) (m : Flow α) : Flow α := do
  match ← attempt m with
  | .ok a => return a
  | .error e => throw (.err (.wrap text e))

/-- `errors.Join`. -/
def joinErr : Option Err → Option Err → Option Err
  | none, e => e
  | some e, none => some e
  | some e, some e' => some (.join e e')

/-- An artifact joins the mounts or the rest. -/
def splitStep (lists : List Mount × List Artifact) : Artifact → List Mount × List Artifact
  | .mount m => (lists.1 ++ [m], lists.2)
  | a => (lists.1, lists.2 ++ [a])

/-- The mounts of a list and the other artifacts, each in order. -/
def splitMounts (artifacts : List Artifact) : List Mount × List Artifact :=
  artifacts.foldl splitStep ([], [])

/-- The workspace-relative directory a mount goes to. -/
def target (m : Mount) : String := String.ofList (Posix.clean m.out.toList)

/-! ## Markers -/

def clearReady (host : Host) : Flow Unit := call host fun w => { w with markerReady := false }

def writeReady (host : Host) : Flow Unit :=
  call host fun w => { w with markerReady := true, log := w.log ++ [.ready] }

def writeArtifactsComplete (host : Host) : Flow Unit :=
  call host fun w => { w with markerArtifactsComplete := true }

/-! ## Artifacts -/

/-- The `Apply` of an artifact: its error, or none. -/
def applyArtifact (host : Host) (a : Artifact) : Flow (Option Err) := do
  record (.apply a.artifactID)
  match ← attempt (call host id) with
  | .error e => return some e
  | .ok _ =>
    record (.applied a.artifactID)
    return none

/-- The callback of `processArtifacts`. -/
def processArtifact (host : Host) (waitForFiles : Bool) (a : Artifact) : Flow (Option Err) := do
  if waitForFiles ∧ a.sourceFile ≠ "" then
    match ← attempt (call host id) with
    | .error e => return some (.wrap (a.sourceFile ++ " did not appear") e)
    | .ok _ => pure ()
  applyArtifact host a

/-- Process a list in dependency order; the last error, or none. -/
def processArtifacts (host : Host) (artifacts : List Artifact) (waitForFiles : Bool) :
    Flow (Option Err) := do
  match ← attempt (call host id) with
  | .error e => return some e
  | .ok _ => runInOrder artifacts (processArtifact host waitForFiles)

/-! ## Mounts -/

/-- The kernel takes the newest mount at `t` away. -/
def unmountTop (t : String) (w : World) : World :=
  { w with mountTable := (w.mountTable.reverse.erase t).reverse }

/-- Unmount the targets of `rev`, the last first; `kept` are those behind them that could
    not be unmounted. -/
def unmountEach (host : Host) : List String → List String → Option Err → Flow (Option Err)
  | [], _, errs => return errs
  | t :: rev, kept, errs => do
    match ← attempt (call host (unmountTop t)) with
    | .error e => unmountEach host rev (t :: kept) (joinErr errs (some e))
    | .ok _ =>
      modify fun w => { w with mounted := rev.reverse ++ kept }
      unmountEach host rev kept errs

/-- Tear the mounts down, in reverse order. -/
def unmountAll (host : Host) : Flow (Option Err) := do
  let w ← get
  unmountEach host w.mounted.reverse [] none

def release (host : Host) : Flow (Option Err) := unmountAll host

/-- The requested targets that are mounted. -/
def activeMounts (host : Host) (mounts : List Mount) : Flow (List String) :=
  mounts.foldlM (fun active m => do
    wrapping ("inspect mount " ++ m.id) (call host id)
    let w ← get
    return if target m ∈ w.mountTable then active ++ [target m] else active) []

/-- Take the mounts of an earlier run over if they are all there, and take a part of them
    down. -/
def adoptExistingMounts (host : Host) (mounts : List Mount) : Flow Bool := do
  let active ← activeMounts host mounts
  if active.length = mounts.length ∧ mounts ≠ [] then
    modify fun w => { w with mounted := w.mounted ++ active }
    return true
  active.reverse.forM fun t =>
    wrapping ("remove partial mount " ++ t) (call host (unmountTop t))
  return false

/-- Establish one mount: its image is there, its target directory is made, a tar source is
    extracted, and the source is mounted. -/
def establishMount (host : Host) (m : Mount) : Flow Unit := do
  record (.apply m.id)
  call host id
  call host id
  call host id
  let w ← get
  if host.isTar w.calls then call host id
  call host fun w => { w with mountTable := w.mountTable ++ [target m] }
  modify fun w => { w with mounted := w.mounted ++ [target m] }
  record (.applied m.id)

def establishMounts (host : Host) (mounts : List Mount) : Flow Unit :=
  mounts.forM fun m => wrapping ("mount " ++ m.id) (establishMount host m)

def rollingBack (host : Host) (m : Flow Unit) : Flow Unit := do
  match ← attempt m with
  | .ok _ => return
  | .error e =>
    match joinErr (some e) (← unmountAll host) with
    | some e => throw (.err e)
    | none => return

/-- Restore the deltas of synced mounts, then establish the mounts. -/
def mount (host : Host) (mounts : List Mount) : Flow Unit := do
  if mounts = [] then return
  mounts.forM fun m =>
    if m.sync = "" then pure ()
    else rollingBack host (wrapping ("mount " ++ m.id) (call host id))
  rollingBack host (establishMounts host mounts)

/-! ## The flow -/

/-- A computation that cannot run out of its fuel. -/
def total (m : Exec α) : Flow α :=
  match m with
  | .ok a => return a
  | .error _ => throw .fuel

/-- The phase before the workload, unless an earlier run has finished it. -/
def preJobPhase (host : Host) (preJob : List Artifact) : Flow Unit := do
  let w ← get
  if w.markerArtifactsComplete then return
  match ← processArtifacts host preJob false with
  | some e => throw (.err (.wrap "pre-job artifact processing failed" e))
  | none => writeArtifactsComplete host

def mountPhase (host : Host) (mounts : List Mount) : Flow Unit := do
  let adopted ← wrapping "mount adoption failed" (adoptExistingMounts host mounts)
  if adopted then return
  wrapping "mount setup failed" (mount host mounts)

def readyPhase (host : Host) : Flow Unit := do
  match ← attempt (writeReady host) with
  | .ok _ => return
  | .error e =>
    match joinErr (some e) (← release host) with
    | some e => throw (.err e)
    | none => return

/-- Wait for the worker.  A job with a timeout gives up some time after its deadline. -/
def holdPhase (host : Host) (timeoutSeconds : Int) : Flow Unit := do
  match host.hold with
  | .signal => record .workerDone
  | .crash => throw .crash
  | .deadline =>
    if timeoutSeconds > 0 then
      match joinErr (some (.io "no worker completion signal by the job deadline"))
          (← release host) with
      | some e => throw (.err e)
      | none => return
    else record .workerDone

/-- The phase after the workload: its errors are only logged. -/
def postJobPhase (host : Host) (postJob : List Artifact) : Flow Unit := do
  let _ ← processArtifacts host postJob true
  match ← release host with
  | some e => throw (.err e)
  | none => return

def run (host : Host) (timeoutSeconds : Int) (artifacts : List Artifact) : Flow Unit := do
  let (mounts, rest) := splitMounts artifacts
  let (preJob, postJob) ← total (partition rest)
  clearReady host
  preJobPhase host preJob
  mountPhase host mounts
  readyPhase host
  holdPhase host timeoutSeconds
  postJobPhase host postJob

end Orchestrator.Sidecar

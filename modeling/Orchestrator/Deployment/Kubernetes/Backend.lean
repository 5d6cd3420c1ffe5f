/-
  Orchestrator.Deployment.Kubernetes.Backend

  The Kubernetes backend of deployments as programs of API calls: the marker and spec
  helpers, routes and traffic, `Apply` and the rollout reconciler.

  Every program is written as the source has it, one `request` for each API call, so that
  other callers may come in between any two of them.  Metrics and logs are left out, and
  so is the synchronous reconcile that only runs before `Start`.
-/

import Mathlib.Algebra.Group.Nat.Defs
import Mathlib.Data.List.Sort
import Orchestrator.Deployment.Kubernetes.Cluster

namespace Orchestrator.Deployment

open Lib
open Lib.Proc (Fallible attempt)

/-- `apperrors`. -/
inductive AppError where
  | validation (field message : String)
  | notFound (resource id : String)
  | internal (op : String) (cause : ApiError)
deriving DecidableEq, Repr

abbrev Api := Fallible Call Reply AppError

abbrev request (k : Call) : Api (Reply k) := Proc.ask k

/-- `Config`, as far as it is read here. -/
structure Config where
  gatewayEnabled : Bool
  activatorService : String
  revisionHistoryLimit : Nat
  runtimeClasses : List (String × String)
deriving DecidableEq, Repr

/-! ## Names of revisions -/

/-- `revisionName`: the id and the number with at least five digits. -/
def revisionName (id : String) (n : Nat) : String :=
  id ++ "-" ++ String.ofList (List.leftpad 5 '0' (Nat.toDigits 10 n))

/-- `strconv.Atoi` of a text without a minus sign. -/
def atoi (text : List Char) : Option Nat :=
  let digits := match text with
    | '+' :: rest => rest
    | _ => text
  if digits ≠ [] ∧ digits.all Char.isDigit = true ∧ Nat.ofDigitChars 10 digits 0 < 2 ^ 63 then
    some (Nat.ofDigitChars 10 digits 0)
  else none

/-- `revisionNumber`: what follows the last hyphen, or 0. -/
def revisionNumber (rev : String) : Nat :=
  if '-' ∈ rev.toList then
    (atoi (rev.toList.reverse.takeWhile (· ≠ '-')).reverse).getD 0
  else 0

/-! ## Markers and specs -/

def getMarker (id : String) : Api Marker := do
  match ← request (.getMarker id) with
  | .ok v => return v.value
  | .error .notFound => throw (.notFound "deployment" id)
  | .error e => throw (.internal "kubernetes.getMarker" e)

def createMarker (id : String) (m : Marker) : Api Unit := do
  match ← request (.createMarker id m) with
  | .ok _ => return ()
  | .error e => throw (.internal "kubernetes.createMarker" e)

def updateMarker (id : String) (mutate : Marker → Marker) : Api Unit := do
  match ← request (.getMarker id) with
  | .error .notFound => throw (.notFound "deployment" id)
  | .error e => throw (.internal "kubernetes.getMarker" e)
  | .ok v =>
    match ← request (.updateMarker id v.version (mutate v.value)) with
    | .ok _ => return ()
    | .error e => throw (.internal "kubernetes.updateMarker" e)

/-- `getSpecJSON`; a missing Secret is `none`. -/
def getSpecJSON (id : String) : Api (Option Request) := do
  match ← request (.getSecret id) with
  | .ok spec => return some spec
  | .error .notFound => return none
  | .error e => throw (.internal "kubernetes.getSpecSecret" e)

def writeSpecJSON (id : String) (spec : Request) : Api Unit := do
  match ← request (.createSecret id spec) with
  | .ok _ => return ()
  | .error .alreadyExists =>
    match ← request (.updateSecret id spec) with
    | .ok _ => return ()
    | .error e => throw (.internal "kubernetes.writeSpecSecret" e)
  | .error e => throw (.internal "kubernetes.writeSpecSecret" e)

/-! ## Routes -/

def objectNameFor (name : String) : String := "dep-" ++ name

def backendRef (service : String) (t : Target) : BackendRef :=
  ⟨service, some t.percent, t.revisionName⟩

/-- `buildRouteRules`: the async rule first. -/
def buildRouteRules (cfg : Config) (targets : List Target) : List RouteRule :=
  [⟨true, targets.map (backendRef cfg.activatorService)⟩,
    ⟨false, targets.map fun t => backendRef (objectNameFor t.revisionName) t⟩]

def buildHTTPRoute (cfg : Config) (m : Marker) (targets : List Target) : HTTPRoute :=
  ⟨m.hosts, buildRouteRules cfg targets⟩

/-- `routeTargets`: the split of the first rule that does not match on `Prefer`. -/
def routeTargets (route : HTTPRoute) : List Target :=
  match route.rules.find? fun rule => !rule.prefer with
  | some rule => rule.backendRefs.map fun ref => ⟨ref.revision, ref.weight.getD 0⟩
  | none => []

/-- `fallbackTargets`: the table the marker implies. -/
def fallbackTargets (m : Marker) : List Target :=
  let rev := if m.lastReady = "" then m.latestRevision else m.lastReady
  if rev = "" then [] else [⟨rev, 100⟩]

/-- `currentTargets`: an error of the read falls back like a missing route. -/
def currentTargets (cfg : Config) (id : String) (m : Marker) : Api (List Target) := do
  if cfg.gatewayEnabled then
    match ← request (.getRoute id) with
    | .ok v =>
      if routeTargets v.value ≠ [] then return routeTargets v.value
      else return fallbackTargets m
    | .error _ => return fallbackTargets m
  else return fallbackTargets m

/-- `ensureRoute`: a route that exists keeps its rules. -/
def ensureRoute (cfg : Config) (id : String) (m : Marker) (targets : List Target) : Api Unit := do
  if cfg.gatewayEnabled then
    match ← request (.getRoute id) with
    | .error .notFound =>
      match ← request (.createRoute id (buildHTTPRoute cfg m targets)) with
      | .ok _ => return ()
      | .error .alreadyExists => return ()
      | .error e => throw (.internal "kubernetes.createRoute" e)
    | .error e => throw (.internal "kubernetes.getRoute" e)
    | .ok v =>
      if v.value.hostnames = m.hosts then return ()
      else
        match ← request (.updateRoute id v.version { v.value with hostnames := m.hosts }) with
        | .ok _ => return ()
        | .error e => throw (.internal "kubernetes.updateRoute" e)
  else return ()

def writeRouteTraffic (cfg : Config) (id : String) (m : Marker) (targets : List Target) :
    Api Unit := do
  if cfg.gatewayEnabled then
    match ← request (.getRoute id) with
    | .error .notFound =>
      match ← request (.createRoute id (buildHTTPRoute cfg m targets)) with
      | .ok _ => return ()
      | .error e => throw (.internal "kubernetes.createRoute" e)
    | .error e => throw (.internal "kubernetes.getRoute" e)
    | .ok v =>
      match ← request (.updateRoute id v.version
        { v.value with rules := buildRouteRules cfg targets }) with
      | .ok _ => return ()
      | .error e => throw (.internal "kubernetes.updateRoute" e)
  else return ()

/-! ## Traffic -/

/-- Every target of `SetTraffic` must name a Revision. -/
def checkTarget (t : Target) : Api Unit := do
  match ← request (.getRevision t.revisionName) with
  | .ok _ => return ()
  | .error .notFound => throw (.validation "traffic.revisionName"
      ("revision \"" ++ t.revisionName ++ "\" does not exist"))
  | .error e => throw (.internal "kubernetes.getRevision" e)

/-- The mode a table stands for. -/
def modeOf (m : Marker) (targets : List Target) : TrafficMode :=
  if targets = [⟨m.latestRevision, 100⟩] then .auto else .manual

/-- `SetTraffic`: the mode goes before the route when traffic is pinned, and after it when it is
    released. -/
def setTraffic (cfg : Config) (id : String) (targets : List Target) : Api Unit := do
  let m ← getMarker id
  let targets := if targets = [] then [⟨m.latestRevision, 100⟩] else targets
  targets.forM checkTarget
  match modeOf m targets with
  | .manual =>
    updateMarker id fun m => { m with trafficMode := .manual }
    writeRouteTraffic cfg id m targets
  | .auto =>
    writeRouteTraffic cfg id m targets
    updateMarker id fun m => { m with trafficMode := .auto }

/-! ## Apply -/

/-- `kube.RuntimeClassFor`. -/
def runtimeClassFor (cfg : Config) (tier : String) : String :=
  if tier = "" ∨ tier = "runc" then "" else (cfg.runtimeClasses.lookup tier).getD ""

def checkRuntimeClass (cfg : Config) (tier : String) : Api Unit := do
  let rc := runtimeClassFor cfg tier
  if rc = "" then return ()
  else
    match ← request (.getRuntimeClass rc) with
    | .ok _ => return ()
    | .error .notFound => throw (.validation "runtimeClass"
        ("RuntimeClass \"" ++ rc ++ "\" (tier \"" ++ tier ++ "\") is not installed"))
    | .error e => throw (.internal "kubernetes.getRuntimeClass" e)

/-- `buildPDB` gives a budget. -/
def durablyMultiReplica (req : Request) : Bool :=
  match req.minReplicas with
  | none => decide (req.replicas > 1)
  | some n => decide (n ≥ 2)

/-- The Revision is there, new or from before. -/
def ensureRevision (req : Request) (rev : String) : Api Unit := do
  match ← request (.createRevision rev req) with
  | .ok _ => return ()
  | .error .alreadyExists =>
    match ← request (.getRevision rev) with
    | .ok _ => return ()
    | .error e => throw (.internal "kubernetes.createRevision" e)
  | .error e => throw (.internal "kubernetes.createRevision" e)

def ensurePDB (req : Request) (rev : String) : Api Unit := do
  if durablyMultiReplica req then
    match ← request (.createPodDisruptionBudget rev) with
    | .ok _ => return ()
    | .error .alreadyExists => return ()
    | .error e => throw (.internal "kubernetes.createPodDisruptionBudget" e)
  else return ()

def ensureService (id rev : String) : Api Unit := do
  match ← request (.createService id rev) with
  | .ok _ => return ()
  | .error .alreadyExists => return ()
  | .error e => throw (.internal "kubernetes.createService" e)

def ensureRevisionObjects (req : Request) (rev : String) : Api Unit := do
  ensureRevision req rev
  ensurePDB req rev
  ensureService req.id rev

def createFirstRevision (cfg : Config) (req : Request) : Api Unit := do
  let rev := revisionName req.id 1
  let m : Marker := ⟨req.hosts, rev, "", .auto⟩
  createMarker req.id m
  writeSpecJSON req.id req
  ensureRevisionObjects req rev
  ensureRoute cfg req.id m [⟨rev, 100⟩]

def mintNextRevision (cfg : Config) (req : Request) (m : Marker) : Api Unit := do
  let rev := revisionName req.id (revisionNumber m.latestRevision + 1)
  ensureRevisionObjects req rev
  writeSpecJSON req.id req
  updateMarker req.id fun m => { m with latestRevision := rev, hosts := req.hosts }
  ensureRoute cfg req.id { m with hosts := req.hosts } (fallbackTargets m)

/-- The spec is the stored one: ensure that the objects of the head still exist. -/
def ensureHead (cfg : Config) (req : Request) (m : Marker) : Api Unit := do
  ensureRevisionObjects req m.latestRevision
  ensureRoute cfg req.id m (fallbackTargets m)

/-- `Apply` on a deployment that exists; a missing spec counts as a changed one. -/
def applyExisting (cfg : Config) (req : Request) (m : Marker) : Api Unit := do
  let stored ← getSpecJSON req.id
  if stored = some req then ensureHead cfg req m else mintNextRevision cfg req m

/-- `Apply`: whether the deployment is new. -/
def apply (cfg : Config) (req : Request) : Api Bool := do
  checkRuntimeClass cfg req.runtimeClass
  match ← attempt (getMarker req.id) with
  | .error (.notFound _ _) =>
    createFirstRevision cfg req
    return true
  | .error e => throw e
  | .ok m =>
    applyExisting cfg req m
    return false

/-! ## Rollouts -/

/-- Newest first; ties stay in order. -/
def newestFirst (names : List String) : List String :=
  names.insertionSort fun a b => revisionNumber b ≤ revisionNumber a

/-- `revisionNames`: every name that has a Revision or a Service. -/
def revisionNames (id : String) : Api (List String) := do
  match ← request (.listRevisions id) with
  | .error e => throw (.internal "kubernetes.listRevisions" e)
  | .ok revisions =>
    match ← request (.listServices id) with
    | .error e => throw (.internal "kubernetes.listServices" e)
    | .ok services =>
      return newestFirst (newestFirst revisions ++
        services.filter fun rev => rev ≠ "" ∧ rev ∉ revisions)

/-- A deletion, tolerating that there is nothing to delete. -/
def deleteObject (op : String) (k : Call) : Api Unit := do
  match ← request k with
  | .ok _ => return ()
  | .error .notFound => return ()
  | .error e => throw (.internal op e)

def deleteRevisionPods (rev : String) : Api Unit := do
  match ← request (.deletePods rev) with
  | .ok _ => return ()
  | .error e => throw (.internal "kubernetes.deleteRevisionPods" e)

def deleteRevisionObjects (rev : String) : Api Unit := do
  deleteObject "kubernetes.deleteRevision" (.deleteRevision rev)
  deleteRevisionPods rev
  deleteObject "kubernetes.deletePodDisruptionBudget" (.deletePodDisruptionBudget rev)
  deleteObject "kubernetes.deleteService" (.deleteService rev)

/-- The revisions `retire` keeps whatever their age. -/
def isProtected (m : Marker) (targets : List Target) (rev : String) : Bool :=
  rev = m.lastReady || targets.any fun t => decide (t.percent > 0) && decide (t.revisionName = rev)

/-- The revisions `retire` deletes, of those that exist. -/
def surplus (cfg : Config) (m : Marker) (targets : List Target) (revs : List String) :
    List String :=
  (revs.drop cfg.revisionHistoryLimit).filter fun rev => !isProtected m targets rev

def retire (cfg : Config) (id : String) (m : Marker) : Api Unit := do
  let revs ← revisionNames id
  let targets ← currentTargets cfg id m
  (surplus cfg m targets revs).forM deleteRevisionObjects

def reconcileRollout (cfg : Config) (id : String) (m : Marker) : Api Unit := do
  if m.latestRevision = "" then return ()
  else if m.trafficMode ≠ .auto ∨ m.latestRevision = m.lastReady then retire cfg id m
  else
    match ← request (.getRevision m.latestRevision) with
    | .error .notFound => return ()
    | .error e => throw (.internal "kubernetes.getRevision" e)
    | .ok revision =>
      if revision.readyReplicas < 1 then return ()
      else
        writeRouteTraffic cfg id m [⟨m.latestRevision, 100⟩]
        updateMarker id fun u => { u with lastReady := m.latestRevision }
        retire cfg id { m with lastReady := m.latestRevision }

/-- One deployment of a sweep; its error is only logged. -/
def reconcileListed (cfg : Config) (e : String × Marker) : Api Unit := do
  if e.1 = "" then return ()
  else
    let _ ← attempt (reconcileRollout cfg e.1 e.2)
    return ()

/-- `reconcileRollouts`: every marker as it was when the sweep listed it. -/
def reconcileRollouts (cfg : Config) : Api Unit := do
  match ← request .listMarkers with
  | .error _ => return ()
  | .ok markers => markers.forM (reconcileListed cfg)

/-! ## What runs in the cluster -/

inductive Task where
  | apply (req : Request)
  | setTraffic (id : String) (targets : List Target)
  | rollouts
  /-- The revision controller reports how many replicas are ready. -/
  | report (rev : String) (replicas : Nat)
deriving DecidableEq, Repr

def errorOf {α : Type} (m : Api α) : Proc Call Reply (Option AppError) :=
  m.run.bind fun r => .done (match r with
    | .ok _ => none
    | .error e => some e)

def program (cfg : Config) : Task → Proc Call Reply (Option AppError)
  | .apply req => errorOf (apply cfg req)
  | .setTraffic id targets => errorOf (setTraffic cfg id targets)
  | .rollouts => errorOf (reconcileRollouts cfg)
  | .report rev replicas => .call (.reportReady rev replicas) fun _ => .done none

end Orchestrator.Deployment

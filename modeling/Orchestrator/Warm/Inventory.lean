/-
  Orchestrator.Warm.Inventory

  Warm pools on Kubernetes: how a caller wins a warm pod.  `claim.Claim` goes over the
  free pods of a pool, reserves one by a patch that holds for one resourceVersion only,
  and activates it through its sidecar; without a free pod it may create one.

  Programs are written one API call a step.  The server notes which caller's patches it
  has applied and which callers have posted, for the statements only; everything else
  about a pod that no step here reads is left out, and so are metrics and logs.
-/

import Orchestrator.Lib.Objects
import Orchestrator.Lib.Proc

namespace Orchestrator.Warm

open Lib

/-! ## Pods -/

abbrev Labels := Objects String

/-- A pod.  A version is never given twice, and neither is a uid. -/
structure Pod where
  name : String
  uid : Nat
  version : Nat
  labels : Labels
  deleting : Bool
  podIP : String
  ready : Bool

/-- What is noted of the claims. -/
inductive Note where
  | stamped (caller uid : Nat) (labels : Labels)
  | posted (caller : Nat) (unit : String)

structure Cluster where
  pods : Objects Pod
  nextUid : Nat
  nextVersion : Nat
  notes : List Note

inductive ClaimError where
  /-- `ErrConflict`. -/
  | conflict
  | poison (unit message : String)
  | exhausted (reason : String)
  | internal (op : String)
  | other (message : String)
deriving DecidableEq, Repr

inductive Call where
  | listPods (selector : List (String × String))
  | getPod (name : String)
  | patchPod (caller : Nat) (name : String) (version : Nat) (labels : Labels)
  | createPod (name : String) (labels : Labels)
  | deletePod (name : String)
  | updateStatus (name podIP : String) (ready : Bool)
  | removePod (name : String)
  | randHex
  | post (caller : Nat) (unit addr token claimID : String)

abbrev Reply : Call → Type
  | .listPods _ => Except ApiError (List Pod)
  | .getPod _ => Except ApiError Pod
  | .patchPod _ _ _ _ => Except ApiError Pod
  | .createPod _ _ => Except ApiError Pod
  | .deletePod _ => Except ApiError Unit
  | .updateStatus _ _ _ => Except ApiError Unit
  | .removePod _ => Except ApiError Unit
  | .randHex => Except ApiError String
  | .post _ _ _ _ _ => Except ClaimError Unit

def Cluster.put (s : Cluster) (pod : Pod) : Cluster :=
  { s with
    pods := s.pods.insert pod.name { pod with version := s.nextVersion }
    nextVersion := s.nextVersion + 1 }

/-- What becomes of a call. -/
inductive Fate where
  | through
  /-- It fails before it has any effect. -/
  | refused (e : ApiError)
  /-- It has its effect, and the answer is an error. -/
  | lost (e : ApiError)
  /-- The random text that comes up. -/
  | random (text : String)
  | answer (r : Except ClaimError Unit)

def Cluster.change (s : Cluster) (name : String) (f : Pod → Pod) : Except ApiError Unit × Cluster :=
  match s.pods.lookup name with
  | some pod => (.ok (), s.put (f pod))
  | none => (.error .notFound, s)

/-- A strategic merge patch with a resourceVersion: rejected unless the version is current. -/
def Cluster.patch (s : Cluster) (caller : Nat) (name : String) (version : Nat) (labels : Labels) :
    Except ApiError Pod × Cluster :=
  match s.pods.lookup name with
  | some pod =>
    if pod.version = version then
      (.ok { pod with labels := labels ∪ pod.labels, version := s.nextVersion },
        { s.put { pod with labels := labels ∪ pod.labels } with
          notes := s.notes ++ [.stamped caller pod.uid labels] })
    else (.error .conflict, s)
  | none => (.error .notFound, s)

def Cluster.create (s : Cluster) (name : String) (labels : Labels) :
    Except ApiError Pod × Cluster :=
  match s.pods.lookup name with
  | some _ => (.error .alreadyExists, s)
  | none =>
    (.ok ⟨name, s.nextUid, s.nextVersion, labels, false, "", false⟩,
      { s.put ⟨name, s.nextUid, s.nextVersion, labels, false, "", false⟩ with
        nextUid := s.nextUid + 1 })

def Cluster.matching (s : Cluster) (selector : List (String × String)) : List Pod :=
  (s.pods.entries.map Sigma.snd).filter fun pod =>
    selector.all fun e => pod.labels.lookup e.1 = some e.2

def Cluster.handle (s : Cluster) : (k : Call) → Reply k × Cluster
  | .listPods selector => (.ok (s.matching selector), s)
  | .getPod name => (s.pods.get name, s)
  | .patchPod caller name version labels => s.patch caller name version labels
  | .createPod name labels => s.create name labels
  | .deletePod name => s.change name fun pod => { pod with deleting := true }
  | .updateStatus name podIP ready => s.change name fun pod => { pod with podIP, ready }
  | .removePod name =>
    let (r, pods) := s.pods.delete name
    (r, { s with pods })
  | .randHex => (.error .failed, s)
  | .post _ _ _ _ _ => (.ok (), s)

def failure (e : ApiError) : (k : Call) → Reply k
  | .listPods _ => .error e
  | .getPod _ => .error e
  | .patchPod _ _ _ _ => .error e
  | .createPod _ _ => .error e
  | .deletePod _ => .error e
  | .updateStatus _ _ _ => .error e
  | .removePod _ => .error e
  | .randHex => .error e
  | .post _ _ _ _ _ => .error (.other "")

def Cluster.answer (s : Cluster) (k : Call) : Fate → Reply k × Cluster
  | .refused e => (failure e k, s)
  | .lost e => (failure e k, (s.handle k).2)
  | _ => s.handle k

def sidecarAnswer : Fate → Except ClaimError Unit
  | .answer r => r
  | .through => .ok ()
  | _ => .error (.other "")

def serve (s : Cluster) : (k : Call) → Fate → Reply k × Cluster
  | .listPods selector, f => s.answer (.listPods selector) f
  | .getPod name, f => s.answer (.getPod name) f
  | .patchPod caller name version labels, f => s.answer (.patchPod caller name version labels) f
  | .createPod name labels, f => s.answer (.createPod name labels) f
  | .deletePod name, f => s.answer (.deletePod name) f
  | .updateStatus name podIP ready, f => s.answer (.updateStatus name podIP ready) f
  | .removePod name, f => s.answer (.removePod name) f
  | .randHex, .random text => (.ok text, s)
  | .randHex, _ => (.error .failed, s)
  | .post caller unit _ _ _, f =>
    (sidecarAnswer f, { s with notes := s.notes ++ [.posted caller unit] })

/-! ## The manager -/

inductive Burst where
  | reject
  | cold
deriving DecidableEq, Repr

structure Pool where
  id : String
  burst : Burst
deriving DecidableEq, Repr

/-- A `Manager`: its label contract, and the claim token of a pod's name. -/
structure Manager where
  managedBy : String
  poolKey : String
  claimKey : String
  namePrefix : String
  token : String → String

/-- A claim: the id and the labels of its binding.  Callers claim under an id, and their labels do
    not replace it. -/
structure Request (m : Manager) where
  claimID : String
  labels : Labels
  named : claimID ≠ ""
  apart : labels.lookup m.claimKey = none

/-- `claim.Unit`. -/
structure WarmUnit where
  id : String
  addr : String
  token : String
deriving DecidableEq, Repr

abbrev Prog := Proc Call Reply

abbrev request (k : Call) : Prog (Reply k) := Proc.perform k

def claimID (m : Manager) (pod : Pod) : String := (pod.labels.lookup m.claimKey).getD ""

def claimable (m : Manager) (pod : Pod) : Bool :=
  claimID m pod = "" && !pod.deleting && pod.podIP ≠ "" && pod.ready

def unitFor (m : Manager) (pod : Pod) : WarmUnit := ⟨pod.name, pod.podIP, m.token pod.name⟩

/-- The labels a reservation sets; those of the binding come last. -/
def stamp (m : Manager) (req : Request m) : Labels :=
  req.labels ∪ (∅ : Labels).insert m.claimKey req.claimID

/-- The attempts of `reserve`: after a conflict the pod is read again and, if it is still free,
    patched at its new version.  A conflict as the answer of the read is retried as well. -/
def attempts (m : Manager) (caller : Nat) (req : Request m) (name : String) :
    Nat → Pod → Prog (Except ClaimError Pod)
  | 0, _ => return .error (.internal "kubernetes.reservePod")
  | n + 1, candidate => do
    match ← request (.patchPod caller name candidate.version (stamp m req)) with
    | .ok bound => return .ok bound
    | .error .conflict =>
      match ← request (.getPod name) with
      | .ok latest =>
        if claimable m latest then attempts m caller req name n latest
        else return .error .conflict
      | .error .conflict => attempts m caller req name n candidate
      | .error _ => return .error (.internal "kubernetes.reservePod")
    | .error _ => return .error (.internal "kubernetes.reservePod")

/-- `reserve`; `retry.DefaultRetry` has five steps. -/
def reserve (m : Manager) (caller : Nat) (req : Request m) (pod : Pod) :
    Prog (Except ClaimError Pod) :=
  attempts m caller req pod.name 5 pod

def poolLabels (m : Manager) (poolID : String) : Labels :=
  ((∅ : Labels).insert "managed-by" m.managedBy).insert m.poolKey poolID

/-- `Create`, with the name chosen by the caller. -/
def createPod (m : Manager) (poolID : String) : Prog (Except ClaimError Pod) := do
  match ← request .randHex with
  | .error _ => return .error (.internal "kubernetes.podName")
  | .ok suffix =>
    match ← request (.createPod (m.namePrefix ++ "-" ++ poolID ++ "-" ++ suffix)
      (poolLabels m poolID)) with
    | .error _ => return .error (.internal "kubernetes.createPod")
    | .ok pod => return .ok pod

def pollPod (m : Manager) (name : String) (rest : Prog (Except ClaimError Pod)) :
    Prog (Except ClaimError Pod) := do
  match ← request (.getPod name) with
  | .error _ => return .error (.internal "kubernetes.getPod")
  | .ok pod => if claimable m pod then return .ok pod else rest

def awaitClaimable (m : Manager) (name : String) : Nat → Prog (Except ClaimError Pod)
  | 0 => pollPod m name (return .error (.internal "kubernetes.coldClaim"))
  | n + 1 => pollPod m name (awaitClaimable m name n)

/-- `createClaimable`: a pod that does not warm up is discarded. -/
def createClaimable (m : Manager) (poolID : String) (rounds : Nat) :
    Prog (Except ClaimError Pod) := do
  match ← createPod m poolID with
  | .error e => return .error e
  | .ok created =>
    match ← awaitClaimable m created.name rounds with
    | .ok pod => return .ok pod
    | .error e =>
      let _ ← request (.deletePod created.name)
      return .error e

/-! ## The inventory -/

abbrev ByName := Objects Pod

def free (m : Manager) (pool : Pool) (byName : ByName) :
    Prog (ByName × Except ClaimError (List WarmUnit)) := do
  match ← request (.listPods [("managed-by", m.managedBy), (m.poolKey, pool.id)]) with
  | .error _ => return (byName, .error (.internal "kubernetes.listPods"))
  | .ok pods =>
    let pods := pods.filter (claimable m)
    return (pods.foldl (fun t pod => t.insert pod.name pod) byName,
      .ok (pods.map (unitFor m)))

def reserveUnit (m : Manager) (caller : Nat) (req : Request m) (byName : ByName) (unit : WarmUnit) :
    Prog (ByName × Except ClaimError Unit) := do
  match byName.lookup unit.id with
  | none => return (byName, .error (.internal "kubernetes.reservePod"))
  | some pod =>
    match ← reserve m caller req pod with
    | .error e => return (byName, .error e)
    | .ok bound => return (byName.insert unit.id bound, .ok ())

/-- `Create`. -/
def createUnit (m : Manager) (pool : Pool) (rounds : Nat) (byName : ByName) :
    Prog (ByName × Except ClaimError WarmUnit) := do
  match ← createClaimable m pool.id rounds with
  | .error e => return (byName, .error e)
  | .ok pod => return (byName.insert pod.name pod, .ok (unitFor m pod))

/-- `Discard`; of its error only the log is told. -/
def discard (unit : WarmUnit) : Prog Unit := do
  let _ ← request (.deletePod unit.id)
  return ()

/-! ## The claim protocol -/

/-- `claimUnit`: a unit whose activation failed is discarded, unless the sidecar has taken another
    claim. -/
def claimUnit (m : Manager) (caller : Nat) (req : Request m) (byName : ByName) (unit : WarmUnit) :
    Prog (ByName × Except ClaimError Unit) := do
  match ← reserveUnit m caller req byName unit with
  | (byName, .error e) => return (byName, .error e)
  | (byName, .ok _) =>
    match ← request (.post caller unit.id unit.addr unit.token req.claimID) with
    | .ok _ => return (byName, .ok ())
    | .error .conflict => return (byName, .error .conflict)
    | .error e =>
      discard unit
      return (byName, .error e)

inductive Tried where
  | won (unit : WarmUnit)
  | noneFree
  | failed (e : ClaimError)
deriving DecidableEq, Repr

/-- The loop of `tryWarm`: only a poisoned workload ends it. -/
def tryUnits (m : Manager) (caller : Nat) (req : Request m) :
    ByName → List WarmUnit → Prog (ByName × Tried)
  | byName, [] => return (byName, .noneFree)
  | byName, unit :: rest => do
    match ← claimUnit m caller req byName unit with
    | (byName, .ok _) => return (byName, .won unit)
    | (byName, .error (.poison _ message)) =>
      return (byName, .failed (.poison unit.id message))
    | (byName, .error _) => tryUnits m caller req byName rest

def tryWarm (m : Manager) (pool : Pool) (caller : Nat) (req : Request m) (byName : ByName) :
    Prog (ByName × Tried) := do
  match ← free m pool byName with
  | (byName, .error e) => return (byName, .failed e)
  | (byName, .ok units) => tryUnits m caller req byName units

def exhausted (pool : Pool) : ClaimError :=
  .exhausted ("pool " ++ pool.id ++ " has no free warm capacity")

def outcome (unit : String) : ClaimError → ClaimError
  | .poison _ message => .poison unit message
  | _ => .internal "pool.claim"

/-- The cold start of `Claim`. -/
def claimCold (m : Manager) (pool : Pool) (rounds caller : Nat) (req : Request m)
    (byName : ByName) : Prog (ByName × Except ClaimError WarmUnit) := do
  match ← createUnit m pool rounds byName with
  | (byName, .error e) => return (byName, .error e)
  | (byName, .ok created) =>
    match ← claimUnit m caller req byName created with
    | (byName, .ok _) => return (byName, .ok created)
    | (byName, .error .conflict) =>
      match ← tryWarm m pool caller req byName with
      | (byName, .won unit) => return (byName, .ok unit)
      | (byName, .failed e) => return (byName, .error e)
      | (byName, .noneFree) => return (byName, .error (exhausted pool))
    | (byName, .error e) => return (byName, .error (outcome created.id e))

/-- `claim.Claim`. -/
def claimWarm (m : Manager) (pool : Pool) (rounds caller : Nat) (req : Request m) :
    Prog (ByName × Except ClaimError WarmUnit) := do
  match ← tryWarm m pool caller req ∅ with
  | (byName, .won unit) => return (byName, .ok unit)
  | (byName, .failed e) => return (byName, .error e)
  | (byName, .noneFree) =>
    if pool.burst = .cold then claimCold m pool rounds caller req byName
    else return (byName, .error (exhausted pool))

inductive Result where
  /-- `Claim` without an error: the pod of the unit, if the inventory has one. -/
  | claimed (pod : Option Pod)
  | failed (e : ClaimError)
  | done

def claim (m : Manager) (pool : Pool) (rounds caller : Nat) (req : Request m) : Prog Result := do
  match ← claimWarm m pool rounds caller req with
  | (byName, .ok unit) => return .claimed (byName.lookup unit.id)
  | (_, .error e) => return .failed e

/-- `CreateClaimed`: a pod of its own for one claim, discarded when the claim fails. -/
def createClaimed (m : Manager) (poolID : String) (rounds caller : Nat) (req : Request m) :
    Prog (Except ClaimError Pod) := do
  match ← createClaimable m poolID rounds with
  | .error e => return .error e
  | .ok pod =>
    match ← reserve m caller req pod with
    | .error e =>
      let _ ← request (.deletePod pod.name)
      return .error e
    | .ok bound =>
      match ← request (.post caller pod.name pod.podIP (m.token pod.name) req.claimID) with
      | .ok _ => return .ok bound
      | .error e =>
        let _ ← request (.deletePod pod.name)
        return .error (outcome pod.name e)

/-- `Claimed`, over all pools. -/
def claimedPods (m : Manager) (claimID : String) : Prog (Except ClaimError (List Pod)) := do
  match ← request (.listPods [("managed-by", m.managedBy), (m.claimKey, claimID)]) with
  | .error _ => return .error (.internal "kubernetes.listPods")
  | .ok pods => return .ok pods

/-- What is done in the cluster: claims, and what happens to pods meanwhile. -/
inductive Job (m : Manager) where
  | claim (pool : Pool) (rounds : Nat) (req : Request m)
  | replenish (poolID : String)
  | delete (name : String)
  | updateStatus (name podIP : String) (ready : Bool)
  | remove (name : String)

/-- A job and the number of the program that does it. -/
structure Task (m : Manager) where
  caller : Nat
  job : Job m

def program (m : Manager) (task : Task m) : Prog Result :=
  match task.job with
  | .claim pool rounds req => claim m pool rounds task.caller req
  | .replenish poolID => do
    let _ ← createPod m poolID
    return .done
  | .delete name => do
    let _ ← request (.deletePod name)
    return .done
  | .updateStatus name podIP ready => do
    let _ ← request (.updateStatus name podIP ready)
    return .done
  | .remove name => do
    let _ ← request (.removePod name)
    return .done

end Orchestrator.Warm

/-
  Orchestrator.Deployment.Kubernetes.RevisionStatus

  `deriveRevisionStatus`: how many slots of a Revision are taken and ready, and its Ready
  condition.

  Two divergences are exact here.  Four places decide whether a pod may have traffic, and
  they agree only on some pods.  And an exceeded deadline is told by the reason of the
  condition alone, which a rejected create overwrites.

  Of the conditions of a Revision only the Ready one is kept; the others are copied.
-/

import Mathlib.Data.Finset.Insert
import Orchestrator.Deployment.Endpointflip

namespace Orchestrator.Deployment

open Lib List
open Endpointflip (Pod Condition ConditionStatus isReady labelPoolClaim labelServing)

/-! ## Readiness -/

inductive Phase where
  | pending
  | running
  | succeeded
  | failed
  | unknown
deriving DecidableEq, Repr

structure RevisionPod extends Pod where
  /-- `strconv.Atoi` of its slot label, unless that fails or is negative. -/
  slot : Option Nat
  phase : Phase

def claimedNotServing (pod : Pod) : Bool :=
  pod.labels.value labelPoolClaim ≠ "" && pod.labels.value labelServing ≠ "true"

/-- The first condition of type `Ready` is true. -/
def hasReadyCondition (pod : Pod) : Bool :=
  match pod.conditions.find? Condition.isReadyType with
  | some cond => cond.status = .true
  | none => false

def podReadyForRevision (pod : Pod) : Bool :=
  if claimedNotServing pod then false else hasReadyCondition pod

/-- `podReady` of the activator. -/
def podReady (pod : Pod) : Bool :=
  if pod.terminating then false else hasReadyCondition pod

def readyPodTarget (pods : List RevisionPod) : Option RevisionPod :=
  pods.find? fun pod => podReady pod.toPod && pod.podIP ≠ ""

/-- The first pod whose sidecar answers; `probeReady` is what a probe of a pod finds. -/
def probeCandidates (probeReady : RevisionPod → Bool) (pods : List RevisionPod) :
    Option RevisionPod :=
  pods.find? fun pod =>
    !pod.terminating && (pod.phase = .running && pod.podIP ≠ "") && probeReady pod

/-- `Target` of a revision: the pod that has the request. -/
def target (probeReady : RevisionPod → Bool) (pods : List RevisionPod) : Option RevisionPod :=
  (readyPodTarget pods).or (probeCandidates probeReady pods)

/-- The activator sends requests to the pod if there is no other. -/
def isActivatorTarget (probeReady : RevisionPod → Bool) (pod : RevisionPod) : Bool :=
  (target probeReady [pod]).isSome

/-- What `Endpoints` asks of a pod of a routed revision. -/
def isEndpoint (pod : Pod) : Bool := podReadyForRevision pod && pod.podIP ≠ ""

/-! ## Counts -/

/-- `int32(slot)`, which wraps. -/
def int32 (slot : Nat) : Int := (BitVec.ofNat 32 slot).toInt

def RevisionPod.countedSlot (replicas : Int) (pod : RevisionPod) : Option Nat :=
  if pod.terminating || pod.phase = .succeeded || pod.phase = .failed then none
  else pod.slot.filter fun slot => int32 slot < replicas

structure ReplicaCounts where
  replicas : Nat
  ready : Nat
deriving DecidableEq, Repr

/-- The loop of `deriveRevisionStatus`: the first pod of a slot counts. -/
def countPods (replicas : Int) (seen : Finset Nat) : List RevisionPod → ReplicaCounts
  | [] => ⟨0, 0⟩
  | pod :: pods =>
    match pod.countedSlot replicas with
    | none => countPods replicas seen pods
    | some slot =>
      if slot ∈ seen then countPods replicas seen pods
      else
        let rest := countPods replicas (insert slot seen) pods
        ⟨rest.replicas + 1, rest.ready + if podReadyForRevision pod.toPod then 1 else 0⟩

/-- The pod adds to the ready count of its Revision. -/
def isCounted (replicas : Int) (pod : RevisionPod) : Bool :=
  (countPods replicas ∅ [pod]).ready = 1

theorem isReady_eq (pod : Pod) :
    isReady pod = (!pod.terminating && pod.podIP ≠ "" && podReadyForRevision pod) := by
  rw [isReady, podReadyForRevision, claimedNotServing, hasReadyCondition]
  by_cases hstays : pod.terminating = true
  · simp [hstays]
  by_cases hip : pod.podIP = ""
  · simp [hip]
  cases pod.conditions.find? Condition.isReadyType <;> simp [hstays, hip]

theorem isCounted_eq (replicas : Int) (pod : RevisionPod) :
    isCounted replicas pod = ((pod.countedSlot replicas).isSome && podReadyForRevision pod.toPod) := by
  rw [isCounted, countPods]
  cases pod.countedSlot replicas with
  | none => rfl
  | some slot => cases hready : podReadyForRevision pod.toPod <;> simp [countPods]

theorem isActivatorTarget_eq (probeReady : RevisionPod → Bool) (pod : RevisionPod) :
    isActivatorTarget probeReady pod =
      (!pod.terminating && pod.podIP ≠ "" &&
        (hasReadyCondition pod.toPod || pod.phase = .running && probeReady pod)) := by
  have hone : ∀ p : RevisionPod → Bool, ([pod].find? p).isSome = p pod := by
    intro p
    cases hp : p pod <;> simp [hp]
  rw [isActivatorTarget, target, Option.isSome_or, readyPodTarget, probeCandidates, hone, hone]
  cases hdel : pod.terminating <;> by_cases hip : pod.podIP = "" <;> simp [podReady, hdel, hip]

/-- A request goes to a pod that would have it if it were alone. -/
theorem isActivatorTarget_of_target {probeReady : RevisionPod → Bool} {pods : List RevisionPod}
    {pod : RevisionPod} (h : target probeReady pods = some pod) :
    pod ∈ pods ∧ isActivatorTarget probeReady pod = true := by
  rw [isActivatorTarget_eq]
  rcases Option.or_eq_some_iff.mp h with hready | ⟨-, hprobe⟩
  · have hpod := find?_some hready
    refine ⟨mem_of_find?_eq_some hready, ?_⟩
    revert hpod
    cases hdel : pod.terminating <;> simp +contextual [podReady, hdel]
  · have hpod := find?_some hprobe
    refine ⟨mem_of_find?_eq_some hprobe, ?_⟩
    simp only [Bool.and_eq_true] at hpod ⊢
    simp [hpod]

/-- The endpoint reconciler, the activator, `Endpoints` and the ready count agree on a pod. -/
def Agree (probeReady : RevisionPod → Bool) (replicas : Int) (pod : RevisionPod) : Prop :=
  isActivatorTarget probeReady pod = isReady pod.toPod ∧
    isEndpoint pod.toPod = isReady pod.toPod ∧ isCounted replicas pod = isReady pod.toPod

/-- **Who may have traffic.**  The four agree on exactly these pods: without an address, those
    that are not counted as ready; terminating, those without a true Ready condition or claimed
    and not serving; of the others, the ready ones that serve and are counted for a slot, and
    those that are not ready and do not answer a probe while they run. -/
theorem agree_iff (probeReady : RevisionPod → Bool) (replicas : Int) (pod : RevisionPod) :
    Agree probeReady replicas pod ↔
      if pod.podIP = "" then
        hasReadyCondition pod.toPod = true →
          claimedNotServing pod.toPod = true ∨ pod.countedSlot replicas = none
      else if pod.terminating = true then
        hasReadyCondition pod.toPod = true → claimedNotServing pod.toPod = true
      else if hasReadyCondition pod.toPod = true then
        claimedNotServing pod.toPod = false ∧ (pod.countedSlot replicas).isSome = true
      else ¬ (pod.phase = .running ∧ probeReady pod = true) := by
  rw [Agree, isActivatorTarget_eq, isEndpoint, isReady_eq, isCounted_eq, podReadyForRevision]
  by_cases hip : pod.podIP = ""
  · cases hasReadyCondition pod.toPod <;> cases claimedNotServing pod.toPod <;> simp [hip]
  rw [if_neg hip]
  cases hdel : pod.terminating with
  | true =>
    have hgone : pod.countedSlot replicas = none := by simp [RevisionPod.countedSlot, hdel]
    cases hasReadyCondition pod.toPod <;> cases claimedNotServing pod.toPod <;> simp [hip, hgone]
  | false =>
    cases hasReadyCondition pod.toPod <;> cases claimedNotServing pod.toPod <;>
      cases pod.countedSlot replicas <;> simp [hip]

/-- A warm pod whose claim does not serve yet: the activator sends it requests, the endpoint
    reconciler does not. -/
theorem agree_fails_claimed :
    let pod : RevisionPod :=
      ⟨⟨"default", AList.insert labelPoolClaim "rev-1" ∅, false, "10.0.0.1", [⟨true, .true⟩]⟩,
        some 0, .running⟩
    ∀ probeReady, isActivatorTarget probeReady pod = true ∧ isReady pod.toPod = false ∧
      ¬ Agree probeReady 1 pod := by
  intro pod probeReady
  have htarget : isActivatorTarget probeReady pod = true := rfl
  have hready : isReady pod.toPod = false := by
    clear htarget probeReady
    decide +revert
  refine ⟨htarget, hready, fun h => ?_⟩
  rw [h.1, hready] at htarget
  cases htarget

/-! ## The progress deadline -/

/-- The Ready condition of a Revision; times are in nanoseconds. -/
structure ReadyCondition where
  status : ConditionStatus
  reason : String
  message : String
  observedGeneration : Int
  lastTransitionTime : Int
deriving DecidableEq, Repr

/-- What `deriveRevisionStatus` reads of a Revision besides its condition. -/
structure RevisionSpec where
  generation : Int
  replicas : Int
  readyTimeoutSeconds : Int
  /-- None before the API server has set it. -/
  creationTimestamp : Option Int
deriving DecidableEq, Repr

/-- What a status pass meets: `failureMessage` is what `revisionFailureMessage` finds in the pods. -/
structure StatusPass where
  pods : List RevisionPod
  createErr : Option String
  failureMessage : String
  now : Int

def progressDeadlineExceeded : String := "ProgressDeadlineExceeded"

def readyDeadline (rev : RevisionSpec) (condition : Option ReadyCondition) : Option Int :=
  if rev.readyTimeoutSeconds ≤ 0 then none
  else
    let timeout := rev.readyTimeoutSeconds * 1000000000
    match condition with
    | none => rev.creationTimestamp.map (· + timeout)
    | some c =>
      if c.observedGeneration ≠ rev.generation ∨ c.status ≠ .unknown then none
      else some (c.lastTransitionTime + timeout)

def revisionTimedOut (rev : RevisionSpec) (condition : Option ReadyCondition) (now : Int) : Bool :=
  -- once exceeded, the deadline stays exceeded
  if condition.any fun c =>
      c.reason = progressDeadlineExceeded && c.observedGeneration = rev.generation then true
  else (readyDeadline rev condition).any (· ≤ now)

def StatusPass.allReady (rev : RevisionSpec) (pass : StatusPass) : Bool :=
  rev.replicas ≤ (countPods rev.replicas ∅ pass.pods).ready

/-- The status, the reason and the message that a pass finds. -/
def findCondition (rev : RevisionSpec) (condition : Option ReadyCondition) (pass : StatusPass) :
    ConditionStatus × String × String :=
  if rev.replicas = 0 then (.true, "ScaledToZero", "revision is scaled to zero")
  else if pass.allReady rev then (.true, "PodsReady", "all desired pods are ready")
  else
    match pass.createErr with
    | some err => (.false, "ReplicaFailure", err)
    | none =>
      if revisionTimedOut rev condition pass.now then
        (.false, progressDeadlineExceeded, pass.failureMessage)
      else (.unknown, "PodsNotReady", "waiting for desired pods to become ready")

/-- The Ready condition after a pass: one of an older generation is dropped, and the time of
    transition changes with the status. -/
def setCondition (rev : RevisionSpec) (condition : Option ReadyCondition) (pass : StatusPass) :
    ReadyCondition :=
  let (status, reason, message) := findCondition rev condition pass
  let since := match condition with
    | some c =>
      if c.observedGeneration = rev.generation ∧ c.status = status then c.lastTransitionTime
      else pass.now
    | none => pass.now
  ⟨status, reason, message, rev.generation, since⟩

/-- The conditions that passes write one after the other. -/
def conditions (rev : RevisionSpec) (condition : Option ReadyCondition) :
    List StatusPass → List ReadyCondition
  | [] => []
  | pass :: passes =>
    let c := setCondition rev condition pass
    c :: conditions rev (some c) passes

variable {rev : RevisionSpec} {c : ReadyCondition} {pass : StatusPass}

/-- Pods are missing, and the condition is of this generation and tells why. -/
structure Stuck (rev : RevisionSpec) (reason : String) (c : ReadyCondition) : Prop where
  status : c.status = .false
  reason : c.reason = reason
  generation : c.observedGeneration = rev.generation

theorem stuck_of_exceeded {condition : Option ReadyCondition}
    (h : (setCondition rev condition pass).reason = progressDeadlineExceeded) :
    Stuck rev progressDeadlineExceeded (setCondition rev condition pass) := by
  refine ⟨?_, h, rfl⟩
  revert h
  simp only [setCondition, findCondition]
  -- no other branch gives this reason
  repeat' split
  all_goals simp [progressDeadlineExceeded]

section

variable (hwaiting : pass.allReady rev = false)
include hwaiting

theorem replicas_ne_zero_of_waiting : rev.replicas ≠ 0 := by
  intro hzero
  rw [StatusPass.allReady, hzero] at hwaiting
  simp at hwaiting

theorem setCondition_createErr (condition : Option ReadyCondition)
    (herr : pass.createErr.isSome = true) :
    Stuck rev "ReplicaFailure" (setCondition rev condition pass) := by
  obtain ⟨err, herr⟩ := Option.isSome_iff_exists.mp herr
  constructor <;>
    simp [setCondition, findCondition, replicas_ne_zero_of_waiting hwaiting, hwaiting, herr]

theorem setCondition_exceeded (h : Stuck rev progressDeadlineExceeded c)
    (herr : pass.createErr = none) :
    Stuck rev progressDeadlineExceeded (setCondition rev (some c) pass) := by
  constructor <;>
    simp [setCondition, findCondition, replicas_ne_zero_of_waiting hwaiting, hwaiting, herr,
      revisionTimedOut, h.reason, h.generation]

/-- A rejected create is forgotten by the next pass without one: no clock was running. -/
theorem setCondition_failed (h : Stuck rev "ReplicaFailure" c) (herr : pass.createErr = none) :
    (setCondition rev (some c) pass).status = .unknown := by
  have hreason : c.reason ≠ progressDeadlineExceeded := by
    rw [h.reason]
    decide
  simp [setCondition, findCondition, replicas_ne_zero_of_waiting hwaiting, hwaiting, herr,
    revisionTimedOut, hreason, readyDeadline, h.status]

end

def Decided (cs : List ReadyCondition) : Prop := ∀ c ∈ cs, c.status ≠ .unknown

theorem decided_cons (cs : List ReadyCondition) :
    Decided (c :: cs) ↔ c.status ≠ .unknown ∧ Decided cs :=
  forall_mem_cons

theorem Stuck.decided_iff {reason : String} (h : Stuck rev reason c) (cs : List ReadyCondition) :
    Decided (c :: cs) ↔ Decided cs := by
  rw [decided_cons, h.status]
  exact and_iff_right (by decide)

theorem decided_of_failed {passes : List StatusPass} (h : Stuck rev "ReplicaFailure" c)
    (hwaiting : ∀ pass ∈ passes, pass.allReady rev = false) :
    Decided (conditions rev (some c) passes) ↔ ∀ pass ∈ passes, pass.createErr.isSome = true := by
  induction passes generalizing c with
  | nil => simp [conditions, Decided]
  | cons pass passes ih =>
    obtain ⟨hpass, hpasses⟩ := forall_mem_cons.mp hwaiting
    rw [conditions, forall_mem_cons]
    cases herr : pass.createErr with
    | none =>
      rw [decided_cons, setCondition_failed hpass h herr]
      simp
    | some err =>
      have hnext := setCondition_createErr hpass (some c) (by rw [herr]; rfl)
      rw [hnext.decided_iff, ih hnext hpasses]
      exact (and_iff_right rfl).symm

/-- **The progress deadline.**  Once it is exceeded, and until a pass finds all pods ready, the
    condition is not Unknown again exactly if no pass without a creation error comes after one
    with it. -/
theorem deadline_sticks_iff (rev : RevisionSpec) (condition : Option ReadyCondition)
    (last : StatusPass) (passes : List StatusPass)
    (hexceeded : (setCondition rev condition last).reason = progressDeadlineExceeded)
    (hwaiting : ∀ pass ∈ passes, pass.allReady rev = false) :
    Decided (conditions rev (some (setCondition rev condition last)) passes) ↔
      passes.Pairwise fun p q => p.createErr.isSome = true → q.createErr.isSome = true := by
  have hstuck := stuck_of_exceeded hexceeded
  generalize setCondition rev condition last = c at hstuck
  clear hexceeded
  induction passes generalizing c with
  | nil => simp [conditions, Decided]
  | cons pass passes ih =>
    obtain ⟨hpass, hpasses⟩ := forall_mem_cons.mp hwaiting
    rw [conditions, pairwise_cons]
    cases herr : pass.createErr with
    | none =>
      have hnext := setCondition_exceeded hpass hstuck herr
      refine (hnext.decided_iff _).trans ((ih hpasses _ hnext).trans ?_)
      simp
    | some err =>
      have hnext := setCondition_createErr hpass (some c) (by rw [herr]; rfl)
      rw [hnext.decided_iff, decided_of_failed hnext hpasses]
      refine ⟨fun hall => ⟨fun q hq _ => hall q hq, ?_⟩, fun h q hq => h.1 q hq rfl⟩
      exact pairwise_of_forall_mem_list fun p _ q hq _ => hall q hq

/-- The Revision and the passes of the example: the deadline passes, a create is rejected, and
    the next pass finds nothing new. -/
def web : RevisionSpec := ⟨1, 1, 10, some 0⟩

theorem deadline_forgotten :
    (conditions web none [⟨[], none, "no node", 10000000000⟩, ⟨[], some "quota", "no node", 11000000000⟩,
      ⟨[], none, "no node", 12000000000⟩]).map (fun c => (c.status, c.reason)) =
      [(.false, progressDeadlineExceeded), (.false, "ReplicaFailure"), (.unknown, "PodsNotReady")] := by
  decide

/-- The deadline passes again, and then two creates are rejected. -/
theorem deadline_sticks_iff_web :
    Decided (conditions web (some (setCondition web none ⟨[], none, "no node", 10000000000⟩))
      [⟨[], none, "no node", 11000000000⟩, ⟨[], some "quota", "no node", 12000000000⟩,
        ⟨[], some "quota", "no node", 13000000000⟩]) :=
  (deadline_sticks_iff web none ⟨[], none, "no node", 10000000000⟩ _ (by decide) (by decide)).mpr
    (by decide)

end Orchestrator.Deployment

/-
  Orchestrator.Job.Kubernetes.Status

  The status of a job, derived from the Job object and its pod
  (`internal/job/kubernetes/status.go`), along a run of the cluster.

  `Cluster.step` lets the Job controller and the kubelet change the two objects as they
  may, and a client read the status in between.  A read may find the pod list call
  failing; the derivation then goes on as if there were no pod.
-/

import Orchestrator.Lib.Machine
import Orchestrator.Lifecycle.Store
import Orchestrator.Job.Kubernetes.Pod

namespace Orchestrator.Job.Kubernetes

open Lifecycle Lib.Machine List

/-! ## The derivation -/

inductive JobConditionType where
  | suspended
  | complete
  | failed
  | failureTarget
  | successCriteriaMet
  deriving DecidableEq, Repr

inductive ConditionStatus where
  | isTrue
  | isFalse
  | unknown
  deriving DecidableEq, Repr

structure JobCondition where
  type : JobConditionType
  status : ConditionStatus
  reason : String
  deriving DecidableEq, Repr

structure BatchJob where
  name : String
  -- the label `job.id`, empty when the Job has none
  jobID : String
  succeeded : Nat
  failed : Nat
  conditions : List JobCondition
  deriving DecidableEq, Repr

structure StatusResponse where
  id : String
  state : State
  exitCode : Option Int
  error : String
  deriving DecidableEq, Repr

def LabelJobID : String := "job.id"

/-- The first pod listed under the job's label; none when the call fails. -/
def fetchPodForJob (pods : Option (List Pod)) : Option Pod := pods.bind head?

/-- A terminated worker's exit code, and what the kubelet said about it. -/
def annotateTermination (term : Terminated) (resp : StatusResponse) : StatusResponse :=
  let resp := { resp with exitCode := some term.exitCode }
  -- a clean exit carries the reason "Completed", which is not an error
  if term.exitCode = 0 then resp
  else if term.message ≠ "" then { resp with error := term.message }
  else if term.reason ≠ "" then { resp with error := term.reason }
  else resp

def annotateFailure (pods : Option (List Pod)) (resp : StatusResponse) : StatusResponse :=
  match fetchPodForJob pods with
  | none => resp
  | some pod =>
    match pod.worker with
    | some (.terminated term) => annotateTermination term resp
    | _ => if pod.reason ≠ "" then { resp with error := pod.reason } else resp

def JobCondition.isFailure (c : JobCondition) : Bool :=
  c.type = .failed && c.status = .isTrue

/-- The status of a job, from its Job object and the answer to the pod list call. -/
def deriveStatus (pods : Option (List Pod)) (j : BatchJob) : Except String StatusResponse :=
  if j.jobID = "" then .error ("job " ++ j.name ++ " missing " ++ LabelJobID ++ " label")
  else if 0 < j.succeeded then .ok ⟨j.jobID, .completed, some 0, ""⟩
  else
    match j.conditions.find? JobCondition.isFailure with
    | some condition => .ok (annotateFailure pods ⟨j.jobID, .failed, none, condition.reason⟩)
    | none =>
      if 0 < j.failed then .ok (annotateFailure pods ⟨j.jobID, .failed, none, ""⟩)
      else
        -- the worker may have exited while the sidecar keeps the Job open
        match (fetchPodForJob pods).bind Pod.worker with
        | some (.terminated term) =>
          .ok (annotateTermination term ⟨j.jobID, stateForExit term.exitCode, none, ""⟩)
        | some .running => .ok ⟨j.jobID, .running, none, ""⟩
        | _ => .ok ⟨j.jobID, .accepted, none, ""⟩

def BatchJob.hasFailed (j : BatchJob) : Bool :=
  j.conditions.any JobCondition.isFailure || 0 < j.failed

/-- The state a worker speaks for, once the Job itself has not decided. -/
def workerState : Option ContainerState → State
  | some (.terminated term) => stateForExit term.exitCode
  | some .running => .running
  | _ => .accepted

@[simp] theorem annotateTermination_state (term : Terminated) (resp : StatusResponse) :
    (annotateTermination term resp).state = resp.state := by
  unfold annotateTermination
  dsimp only
  split_ifs <;> rfl

@[simp] theorem annotateFailure_state (pods : Option (List Pod)) (resp : StatusResponse) :
    (annotateFailure pods resp).state = resp.state := by
  unfold annotateFailure
  split
  · rfl
  · split
    · exact annotateTermination_state _ _
    · split_ifs <;> rfl

/-- The priority of the sources: a success of the Job, its failure, then the worker. -/
theorem deriveStatus_state {j : BatchJob} (hlabel : j.jobID ≠ "") (pods : Option (List Pod)) :
    ∃ resp, deriveStatus pods j = .ok resp ∧
      resp.state =
        if 0 < j.succeeded then .completed
        else if j.hasFailed then .failed
        else workerState ((fetchPodForJob pods).bind Pod.worker) := by
  unfold deriveStatus
  rw [if_neg hlabel]
  by_cases hsucceeded : 0 < j.succeeded
  · simp [hsucceeded]
  rw [if_neg hsucceeded, if_neg hsucceeded]
  cases hfind : j.conditions.find? JobCondition.isFailure with
  | some condition =>
    have hany : j.conditions.any JobCondition.isFailure = true :=
      any_eq_true.mpr
        ⟨condition, mem_of_find?_eq_some hfind, find?_some hfind⟩
    simp [BatchJob.hasFailed, hany]
  | none =>
    have hany : j.conditions.any JobCondition.isFailure = false := by
      simpa [any_eq_false] using hfind
    by_cases hfailed : 0 < j.failed
    · simp [BatchJob.hasFailed, hfailed]
    simp only [BatchJob.hasFailed, hany, hfailed, if_false, decide_false, Bool.or_self,
      Bool.false_eq_true]
    cases hw : (fetchPodForJob pods).bind Pod.worker with
    | none => simp [workerState]
    | some state => cases state <;> simp [workerState]

/-! ## The cluster -/

/-- The exit code of a worker that has terminated. -/
def Pod.exitCode (pod : Pod) : Option Int :=
  match pod.worker with
  | some (.terminated term) => some term.exitCode
  | _ => none

/-- A pod never restarts its worker: a running worker can only terminate, and how it
terminated stays as it is. -/
def Pod.follows (old new : Pod) : Bool :=
  match old.worker, new.worker with
  | some (.terminated term), some (.terminated term') => term' = term
  | some (.terminated _), _ => false
  | some .running, some .waiting => false
  | some .running, none => false
  | _, _ => true

/-- What the Job controller may do: it counts a success only of a worker that exited with
0, takes back neither a success nor a failure, and counts nothing more after a failure. -/
def BatchJob.Follows (exit : Option Int) (old new : BatchJob) : Prop :=
  new.jobID = old.jobID ∧ (0 < old.succeeded → 0 < new.succeeded) ∧
    (0 < new.succeeded → exit = some 0) ∧
    (old.hasFailed → new.hasFailed ∧ new.succeeded = old.succeeded)

instance (exit : Option Int) (old new : BatchJob) : Decidable (old.Follows exit new) :=
  inferInstanceAs (Decidable (_ ∧ _ ∧ _ ∧ _))

/-- The two objects of a job. `exit` remembers how the worker terminated after its pod is
gone, and `toldRunning` that a client has been told that the job runs. -/
structure Cluster where
  job : BatchJob
  pod : Option Pod
  podCreated : Bool
  exit : Option Int
  toldRunning : Bool

def newCluster (name jobID : String) : Cluster :=
  ⟨⟨name, jobID, 0, 0, []⟩, none, false, none, false⟩

inductive ClusterEvent where
  | podCreated (pod : Pod)
  | podUpdated (pod : Pod)
  | podRemoved
  | jobUpdated (job : BatchJob)
  | read (listFails : Bool)

/-- What a client is told, next to how the worker had terminated by then. -/
structure Answer where
  state : State
  exit : Option Int
  deriving DecidableEq, Repr

def Cluster.listPods (c : Cluster) (fails : Bool) : Option (List Pod) :=
  if fails then none else some c.pod.toList

/-- One change of the cluster, or one read. A change Kubernetes does not make is no step. -/
def Cluster.step (c : Cluster) : ClusterEvent → Cluster × List Answer
  | .podCreated pod =>
    -- one pod per Job: `backoffLimit` is 0
    if c.podCreated = false ∧ workerRan pod = false then
      ({ c with pod := some pod, podCreated := true }, [])
    else (c, [])
  | .podUpdated pod =>
    match c.pod with
    | some old =>
      if old.follows pod then ({ c with pod := some pod, exit := pod.exitCode }, [])
      else (c, [])
    | none => (c, [])
  | .podRemoved => ({ c with pod := none }, [])
  | .jobUpdated job => if c.job.Follows c.exit job then ({ c with job := job }, []) else (c, [])
  | .read fails =>
    match deriveStatus (c.listPods fails) c.job with
    | .ok resp =>
      ({ c with toldRunning := c.toldRunning || resp.state = .running },
        [⟨resp.state, c.exit⟩])
    | .error _ => (c, [])

/-- A terminal state is not followed by another one, nor running by accepted. -/
def NotBack (earlier later : Answer) : Prop :=
  (earlier.state.terminal → later.state = earlier.state) ∧
    (earlier.state = .running → later.state ≠ .accepted)

/-- A terminated worker's exit code is the whole rule. -/
def Answer.Agrees (a : Answer) : Prop := ∀ code, a.exit = some code → a.state = stateForExit code

/-- The answers never move back, and agree with the exit once there is one. -/
structure Steady (answers : List Answer) : Prop where
  forward : answers.Pairwise NotBack
  agrees : ∀ a ∈ answers, a.Agrees

/-- A read that can tell. After the exit, the Job has counted a success, or it has failed
and the exit was not clean, or it is undecided and the pod can be listed; before the exit,
if running has been reported, the Job has failed or the pod can be listed. -/
def CanTell (c : Cluster) (fails : Bool) : Option Int → Prop
  | some code =>
    0 < c.job.succeeded ∨ (c.job.hasFailed ∧ code ≠ 0) ∨
      (c.job.hasFailed = false ∧ fails = false ∧ c.pod.isSome)
  | none => c.toldRunning → c.job.hasFailed ∨ (fails = false ∧ c.pod.isSome)

instance (c : Cluster) (fails : Bool) : (exit : Option Int) → Decidable (CanTell c fails exit)
  | some _ => inferInstanceAs (Decidable (_ ∨ _ ∨ _))
  | none => inferInstanceAs (Decidable (_ → _))

def Informed (c : Cluster) : ClusterEvent → Prop
  | .read fails => CanTell c fails c.exit
  | _ => True

instance (c : Cluster) : (e : ClusterEvent) → Decidable (Informed c e)
  | .read fails => inferInstanceAs (Decidable (CanTell c fails c.exit))
  | .podCreated _ | .podUpdated _ | .podRemoved | .jobUpdated _ => .isTrue trivial

/-! ## What a read answers -/

/-- What the two objects say about each other. -/
structure Cluster.Sound (c : Cluster) : Prop where
  label : c.job.jobID ≠ ""
  shown : ∀ p, c.pod = some p → p.exitCode = c.exit
  success : 0 < c.job.succeeded → c.exit = some 0
  running : c.toldRunning → c.exit = none → ∀ p, c.pod = some p → p.worker = some .running
  unborn : c.podCreated = false → c.pod = none ∧ c.exit = none ∧ c.toldRunning = false

def Cluster.answer (c : Cluster) (fails : Bool) : State :=
  if 0 < c.job.succeeded then .completed
  else if c.job.hasFailed then .failed
  else workerState ((if fails then none else c.pod).bind Pod.worker)

variable {c : Cluster}

theorem Cluster.Sound.step_read (h : c.Sound) (fails : Bool) :
    c.step (.read fails) =
      ({ c with toldRunning := c.toldRunning || c.answer fails = .running },
        [⟨c.answer fails, c.exit⟩]) := by
  obtain ⟨resp, hderive, hstate⟩ := deriveStatus_state h.label (c.listPods fails)
  have hfetch : fetchPodForJob (c.listPods fails) = if fails then none else c.pod := by
    unfold Cluster.listPods fetchPodForJob
    cases fails <;> cases c.pod <;> rfl
  have hanswer : resp.state = c.answer fails := by
    rw [hstate, hfetch]
    rfl
  simp only [Cluster.step, hderive, hanswer]

theorem workerState_of_exitCode {p : Pod} {code : Int} (h : p.exitCode = some code) :
    workerState p.worker = stateForExit code := by
  unfold Pod.exitCode at h
  split at h
  · rename_i term hw
    rw [hw, workerState, Option.some.inj h]
  · cases h

variable {fails : Bool}

theorem answer_of_success (h : 0 < c.job.succeeded) : c.answer fails = .completed := if_pos h

theorem answer_of_failure (h : c.job.hasFailed) (hno : ¬ 0 < c.job.succeeded) :
    c.answer fails = .failed := by
  rw [Cluster.answer, if_neg hno, if_pos h]

theorem answer_of_listed {p : Pod} (hno : ¬ 0 < c.job.succeeded)
    (hopen : c.job.hasFailed = false) (hpod : c.pod = some p) :
    c.answer false = workerState p.worker := by
  simp [Cluster.answer, hno, hopen, hpod]

theorem answer_of_unlisted (hno : ¬ 0 < c.job.succeeded) (hopen : c.job.hasFailed = false)
    (hpod : ¬ (fails = false ∧ c.pod.isSome)) : c.answer fails = .accepted := by
  have hnone : (if fails then none else c.pod) = none := by
    cases fails <;> simp_all
  rw [Cluster.answer, if_neg hno, hopen, hnone]
  rfl

theorem answer_cases (h : c.Sound) (fails : Bool) :
    (c.answer fails = .completed ∧ c.exit = some 0) ∨
    (c.answer fails = .failed ∧
      ((c.job.hasFailed ∧ ¬ 0 < c.job.succeeded) ∨ ∃ code, code ≠ 0 ∧ c.exit = some code)) ∨
    (c.answer fails = .running ∧ ∃ p, c.pod = some p ∧ p.worker = some .running) ∨
    c.answer fails = .accepted := by
  -- as the read goes: the success count, the failure condition, then the pod
  by_cases hsucceeded : 0 < c.job.succeeded
  · exact .inl ⟨answer_of_success hsucceeded, h.success hsucceeded⟩
  cases hfailed : c.job.hasFailed with
  | true =>
    exact .inr (.inl ⟨answer_of_failure hfailed hsucceeded, .inl ⟨rfl, hsucceeded⟩⟩)
  | false =>
    by_cases hlist : fails = false ∧ c.pod.isSome
    · obtain ⟨rfl, hpod⟩ := hlist
      obtain ⟨p, hp⟩ := Option.isSome_iff_exists.mp hpod
      have hshown := h.shown p hp
      rw [answer_of_listed hsucceeded hfailed hp]
      cases hw : p.worker with
      | none => exact .inr (.inr (.inr rfl))
      | some state =>
        cases state with
        | waiting => exact .inr (.inr (.inr rfl))
        | running => exact .inr (.inr (.inl ⟨rfl, p, hp, hw⟩))
        | terminated term =>
          simp only [Pod.exitCode, hw] at hshown
          by_cases hzero : term.exitCode = 0
          · left
            rw [← hshown, hzero]
            exact ⟨by simp [workerState, stateForExit, hzero], rfl⟩
          · right; left
            exact ⟨by simp [workerState, stateForExit, hzero],
              .inr ⟨term.exitCode, hzero, hshown.symm⟩⟩
    · exact .inr (.inr (.inr (answer_of_unlisted hsucceeded hfailed hlist)))

theorem running_of_answer (h : c.Sound) (hs : c.answer fails = .running) :
    ∃ p, c.pod = some p ∧ p.worker = some .running := by
  have hcases := answer_cases h fails
  simpa [hs] using hcases

/-- After the exit, an informed read answers with the state of the exit. -/
theorem answer_agrees (h : c.Sound) (hinf : Informed c (.read fails)) {code : Int}
    (hcode : c.exit = some code) : c.answer fails = stateForExit code := by
  by_cases hsucceeded : 0 < c.job.succeeded
  · have hzero : code = 0 := by
      rw [h.success hsucceeded] at hcode
      exact (Option.some.inj hcode).symm
    rw [answer_of_success hsucceeded, hzero]
    rfl
  · simp only [Informed, hcode, CanTell] at hinf
    obtain hcontra | ⟨hfailed, hne⟩ | ⟨hopen, hlist, hpod⟩ := hinf
    · exact absurd hcontra hsucceeded
    · rw [answer_of_failure hfailed hsucceeded, stateForExit, if_neg hne]
    · obtain ⟨p, hp⟩ := Option.isSome_iff_exists.mp hpod
      rw [hlist, answer_of_listed hsucceeded hopen hp]
      exact workerState_of_exitCode ((h.shown p hp).trans hcode)

/-- Once running has been reported, an informed read does not answer accepted. -/
theorem answer_ne_accepted (h : c.Sound) (hinf : Informed c (.read fails))
    (htold : c.toldRunning) : c.answer fails ≠ .accepted := by
  cases hexit : c.exit with
  | some code =>
    rw [answer_agrees h hinf hexit, stateForExit]
    split <;> decide
  | none =>
    by_cases hsucceeded : 0 < c.job.succeeded
    · rw [answer_of_success hsucceeded]
      decide
    cases hfailed : c.job.hasFailed with
    | true =>
      rw [answer_of_failure hfailed hsucceeded]
      decide
    | false =>
      simp only [Informed, hexit, CanTell] at hinf
      obtain ⟨hlist, hpod⟩ := (hinf htold).resolve_left (by rw [hfailed]; decide)
      obtain ⟨p, hp⟩ := Option.isSome_iff_exists.mp hpod
      rw [hlist, answer_of_listed hsucceeded hfailed hp, h.running htold hexit p hp]
      decide

/-- A read that is not informed contradicts the exit, or takes back that the job runs. -/
theorem answer_of_not_informed (h : c.Sound) (hinf : ¬ Informed c (.read fails)) :
    (∃ code, c.exit = some code ∧ c.answer fails ≠ stateForExit code) ∨
      (c.toldRunning ∧ c.answer fails = .accepted) := by
  cases hexit : c.exit with
  | some code =>
    left
    simp only [Informed, hexit, CanTell, not_or, not_and] at hinf
    obtain ⟨hno, hfailure, hlist⟩ := hinf
    refine ⟨code, rfl, ?_⟩
    cases hfailed : c.job.hasFailed with
    | true =>
      have hzero : code = 0 := by simpa using hfailure hfailed
      rw [answer_of_failure hfailed hno, hzero]
      decide
    | false =>
      rw [answer_of_unlisted hno hfailed (fun hl => hlist hfailed hl.1 hl.2), stateForExit]
      split <;> decide
  | none =>
    right
    simp only [Informed, hexit, CanTell, Classical.not_imp, not_or] at hinf
    obtain ⟨htold, hopen, hlist⟩ := hinf
    have hno : ¬ 0 < c.job.succeeded := by
      intro hsucceeded
      rw [h.success hsucceeded] at hexit
      cases hexit
    exact ⟨htold, answer_of_unlisted hno (by simpa using hopen) hlist⟩

/-! ## Runs of the cluster -/

/-- What has been answered, as far as later answers depend on it. -/
structure Heard (c : Cluster) (out : List Answer) : Prop where
  steady : Steady out
  told : c.toldRunning ↔ ∃ a ∈ out, a.state = .running
  completed : ∀ a ∈ out, a.state = .completed → c.exit = some 0
  failed : ∀ a ∈ out, a.state = .failed →
    (c.job.hasFailed ∧ ¬ 0 < c.job.succeeded) ∨ ∃ code, code ≠ 0 ∧ c.exit = some code
  cancelled : ∀ a ∈ out, a.state ≠ .cancelled

/-- A change of the cluster: what the answers rest on stays. -/
structure Later (c c' : Cluster) : Prop where
  sound : c'.Sound
  exit : ∀ code, c.exit = some code → c'.exit = some code
  failed : c.job.hasFailed ∧ ¬ 0 < c.job.succeeded →
    c'.job.hasFailed ∧ ¬ 0 < c'.job.succeeded
  told : c'.toldRunning = c.toldRunning

theorem Later.refl (h : c.Sound) : Later c c := ⟨h, fun _ h => h, id, rfl⟩

variable {out : List Answer}

theorem Heard.of_later {c' : Cluster} (h : Heard c out) (hc : Later c c') : Heard c' out where
  steady := h.steady
  told := by rw [hc.told, h.told]
  completed a ha hs := hc.exit 0 (h.completed a ha hs)
  failed a ha hs := by
    obtain hjob | ⟨code, hne, hexit⟩ := h.failed a ha hs
    · exact .inl (hc.failed hjob)
    · exact .inr ⟨code, hne, hc.exit code hexit⟩
  cancelled := h.cancelled

variable {old new : Pod}

theorem follows_exitCode (h : old.follows new) {code : Int}
    (hcode : old.exitCode = some code) : new.exitCode = some code := by
  unfold Pod.exitCode at hcode ⊢
  unfold Pod.follows at h
  cases hold : old.worker with
  | none => simp [hold] at hcode
  | some state =>
    cases state with
    | terminated term =>
      cases hnew : new.worker with
      | none => simp [hold, hnew] at h
      | some state' => cases state' <;> simp_all
    | waiting | running => simp [hold] at hcode

theorem follows_running (h : old.follows new) (hold : old.worker = some .running)
    (hexit : new.exitCode = none) : new.worker = some .running := by
  unfold Pod.exitCode at hexit
  unfold Pod.follows at h
  cases hnew : new.worker with
  | none => simp [hold, hnew] at h
  | some state => cases state <;> simp_all

theorem exitCode_of_not_ran (h : workerRan new = false) : new.exitCode = none := by
  unfold workerRan at h
  unfold Pod.exitCode
  cases hw : new.worker with
  | none => rfl
  | some state => cases state <;> simp_all [ContainerState.isTerminated]

/-- The update of a pod: its exit code is remembered, and a worker reported as running
is still running or has exited. -/
theorem Cluster.Sound.updated (h : c.Sound) (hpod : c.pod = some old) (hfollows : old.follows new) :
    Later c { c with pod := some new, exit := new.exitCode } := by
  have hexit : ∀ code, c.exit = some code → new.exitCode = some code :=
    fun code hcode => follows_exitCode hfollows ((h.shown old hpod).trans hcode)
  have hnone : new.exitCode = none → c.exit = none := by
    intro hnew
    cases hold : c.exit with
    | none => rfl
    | some code => rw [hexit code hold] at hnew; cases hnew
  refine ⟨⟨h.label, ?_, ?_, ?_, ?_⟩, hexit, id, rfl⟩
  · rintro p ⟨⟩
    rfl
  · exact fun hsucceeded => hexit 0 (h.success hsucceeded)
  · rintro htold hnew p ⟨⟩
    exact follows_running hfollows (h.running htold (hnone hnew) old hpod) hnew
  · intro hunborn
    rw [(h.unborn hunborn).1] at hpod
    cases hpod

/-- Whatever Kubernetes changes, the answers given so far keep their ground. -/
theorem Cluster.Sound.step_later (h : c.Sound) (e : ClusterEvent)
    (hread : ∀ fails, e ≠ .read fails) : Later c (c.step e).1 ∧ (c.step e).2 = [] := by
  cases e with
  | read fails => exact absurd rfl (hread fails)
  | podRemoved =>
    have hsound : ({ c with pod := none } : Cluster).Sound :=
      ⟨h.label, nofun, h.success, fun _ _ => nofun, fun hn => ⟨rfl, (h.unborn hn).2⟩⟩
    exact ⟨⟨hsound, fun _ h => h, id, rfl⟩, rfl⟩
  | podCreated pod =>
    simp only [Cluster.step]
    split
    · rename_i hnew
      -- before the first pod nothing has exited and nothing was told
      obtain ⟨-, hexit, htold⟩ := h.unborn hnew.1
      have hsound : ({ c with pod := some pod, podCreated := true } : Cluster).Sound := by
        refine ⟨h.label, ?_, h.success, ?_, nofun⟩
        · rintro p ⟨⟩
          exact (exitCode_of_not_ran hnew.2).trans hexit.symm
        · intro htold'
          rw [htold] at htold'
          cases htold'
      exact ⟨⟨hsound, fun _ h => h, id, rfl⟩, rfl⟩
    · exact ⟨.refl h, rfl⟩
  | podUpdated pod =>
    simp only [Cluster.step]
    cases hpod : c.pod with
    | none => exact ⟨.refl h, rfl⟩
    | some old =>
      dsimp only
      split
      · exact ⟨h.updated hpod (by assumption), rfl⟩
      · exact ⟨.refl h, rfl⟩
  | jobUpdated job =>
    simp only [Cluster.step]
    split
    · rename_i hfollows
      obtain ⟨hid, hkept, hsuccess, hfailed⟩ := hfollows
      have hsound : ({ c with job := job } : Cluster).Sound :=
        ⟨hid ▸ h.label, h.shown, hsuccess, h.running, h.unborn⟩
      refine ⟨⟨hsound, fun _ h => h, ?_, rfl⟩, rfl⟩
      intro ⟨hf, hno⟩
      obtain ⟨hf', hsame⟩ := hfailed hf
      exact ⟨hf', by rwa [hsame]⟩
    · exact ⟨.refl h, rfl⟩

/-- A read leaves the cluster sound: running is reported only of a running worker. -/
theorem Cluster.Sound.told (h : c.Sound) (fails : Bool) :
    ({ c with toldRunning := c.toldRunning || c.answer fails = .running } : Cluster).Sound := by
  refine ⟨h.label, h.shown, h.success, ?_, ?_⟩
  · intro htold hexit p hp
    cases hbefore : c.toldRunning with
    | true => exact h.running hbefore hexit p hp
    | false =>
      obtain ⟨p', hp', hw⟩ := running_of_answer h (by simpa [hbefore] using htold)
      obtain rfl : p' = p := Option.some.inj (hp'.symm.trans hp)
      exact hw
  · intro hunborn
    obtain ⟨hpod, hexit, htold⟩ := h.unborn hunborn
    have hanswer : c.answer fails ≠ .running := by
      intro hs
      obtain ⟨p, hp, -⟩ := running_of_answer h hs
      rw [hpod] at hp
      cases hp
    exact ⟨hpod, hexit, by simp [htold, hanswer]⟩

/-- An informed read does not take back any earlier answer. -/
theorem Heard.notBack (hh : Heard c out) (h : c.Sound) (hinf : Informed c (.read fails)) {a : Answer}
    (ha : a ∈ out) : NotBack a ⟨c.answer fails, c.exit⟩ := by
  constructor
  · intro hterminal
    show c.answer fails = a.state
    cases hstate : a.state with
    | completed => rw [answer_agrees h hinf (hh.completed a ha hstate)]; rfl
    | failed =>
      obtain ⟨hfailed, hno⟩ | ⟨code, hne, hexit⟩ := hh.failed a ha hstate
      · exact answer_of_failure hfailed hno
      · rw [answer_agrees h hinf hexit, stateForExit, if_neg hne]
    | cancelled => exact absurd hstate (hh.cancelled a ha)
    | accepted | running => rw [hstate] at hterminal; cases hterminal
  · intro hrunning
    exact answer_ne_accepted h hinf (hh.told.mpr ⟨a, ha, hrunning⟩)

theorem Heard.read (hh : Heard c out) (h : c.Sound) (hinf : Informed c (.read fails)) :
    Heard { c with toldRunning := c.toldRunning || c.answer fails = .running }
      (out ++ [⟨c.answer fails, c.exit⟩]) := by
  have hcases := answer_cases h fails
  refine ⟨⟨?_, ?_⟩, ?_, ?_, ?_, ?_⟩
  · rw [pairwise_append]
    refine ⟨hh.steady.forward, pairwise_singleton _ _, ?_⟩
    intro a ha
    exact forall_mem_singleton.mpr (hh.notBack h hinf ha)
  · refine forall_mem_append.mpr ⟨hh.steady.agrees, forall_mem_singleton.mpr ?_⟩
    exact fun code hcode => answer_agrees h hinf hcode
  · simp [hh.told, or_and_right, exists_or]
  · refine forall_mem_append.mpr ⟨hh.completed, forall_mem_singleton.mpr ?_⟩
    grind
  · refine forall_mem_append.mpr ⟨hh.failed, forall_mem_singleton.mpr ?_⟩
    grind
  · refine forall_mem_append.mpr ⟨hh.cancelled, forall_mem_singleton.mpr ?_⟩
    grind

theorem Steady.of_append {a b : List Answer} (h : Steady (a ++ b)) : Steady a :=
  ⟨(pairwise_append.mp h.forward).1, fun x hx => h.agrees x (mem_append_left b hx)⟩

/-- A read that is not informed spoils the answers. -/
theorem Heard.spoilt (hh : Heard c out) (h : c.Sound) (hinf : ¬ Informed c (.read fails)) :
    ¬ Steady (out ++ [⟨c.answer fails, c.exit⟩]) := by
  intro hsteady
  have hlast := mem_append_right out (mem_singleton_self ⟨c.answer fails, c.exit⟩)
  obtain ⟨code, hexit, hne⟩ | ⟨htold, haccepted⟩ := answer_of_not_informed h hinf
  · exact hne (hsteady.agrees _ hlast code hexit)
  · obtain ⟨a, ha, hrunning⟩ := hh.told.mp htold
    have hnotBack := (pairwise_append.mp hsteady.forward).2.2 a ha _ (mem_singleton_self _)
    exact hnotBack.2 hrunning haccepted

/-- The invariant of a run whose reads have all been informed. -/
structure Tracked (c : Cluster) (out : List Answer) : Prop where
  sound : c.Sound
  heard : Heard c out

variable {e : ClusterEvent}

theorem Tracked.step (hinf : Informed c e) (h : Tracked c out) :
    Tracked (c.step e).1 (out ++ (c.step e).2) := by
  by_cases hread : ∃ fails, e = .read fails
  · obtain ⟨fails, rfl⟩ := hread
    rw [h.sound.step_read fails]
    exact ⟨h.sound.told fails, h.heard.read h.sound hinf⟩
  · obtain ⟨hlater, hout⟩ := h.sound.step_later e (fun fails he => hread ⟨fails, he⟩)
    rw [hout, append_nil]
    exact ⟨hlater.sound, h.heard.of_later hlater⟩

theorem Tracked.spoilt (hinf : ¬ Informed c e) (h : Tracked c out) : ¬ Steady (out ++ (c.step e).2) := by
  cases e with
  | read fails =>
    rw [h.sound.step_read fails]
    exact h.heard.spoilt h.sound hinf
  | podCreated | podUpdated | podRemoved | jobUpdated => exact absurd trivial hinf

theorem newCluster_tracked (name : String) {jobID : String} (hid : jobID ≠ "") :
    Tracked (newCluster name jobID) [] where
  sound := ⟨hid, nofun, nofun, nofun, fun _ => ⟨rfl, rfl, rfl⟩⟩
  heard := ⟨⟨.nil, nofun⟩, by simp [newCluster], nofun, nofun, nofun⟩

/-- The derived status moves forward and agrees with the exit along exactly those runs all
of whose reads are informed. -/
theorem steady_iff_informed (name : String) {jobID : String} (hid : jobID ≠ "")
    (events : List ClusterEvent) :
    Steady (run Cluster.step (newCluster name jobID) events).2 ↔
      Along Informed Cluster.step (newCluster name jobID) events := by
  have hstart := newCluster_tracked name hid
  exact run_iff_along Tracked (fun _ out => Steady out) (fun _ _ h => h.heard.steady)
    (fun _ _ _ => Tracked.step) (fun _ _ _ => Tracked.spoilt)
    (fun _ _ _ hbad hgood => hbad hgood.of_append) events hstart

def shownPod (phase : PodPhase) (worker : ContainerState) : Pod :=
  ⟨"build", 0, phase, "", [], [⟨ContainerWorker, worker⟩]⟩

/-- The worker runs, exits and the Job succeeds, with a read after each step. -/
def quietRun : List ClusterEvent :=
  [.read false, .podCreated (shownPod .pending .waiting), .read true,
    .podUpdated (shownPod .running .running), .read false,
    .podUpdated (shownPod .running (.terminated ⟨0, "Completed", ""⟩)), .read false,
    .jobUpdated ⟨"job-build", "build", 1, 0, []⟩, .podRemoved, .read true]

theorem steady_quietRun :
    Steady (run Cluster.step (newCluster "job-build" "build") quietRun).2 :=
  (steady_iff_informed "job-build" (by decide) quietRun).mpr (by decide)

/-- The pod list call fails once while the worker runs. -/
def listFailsOnce : List ClusterEvent :=
  [.podCreated (shownPod .pending .waiting), .podUpdated (shownPod .running .running),
    .read false, .read true]

/-- The worker exits cleanly, and the deadline expires while the sidecar is uploading. -/
def deadlineAfterExit : List ClusterEvent :=
  [.podCreated (shownPod .pending .waiting), .podUpdated (shownPod .running .running),
    .podUpdated (shownPod .running (.terminated ⟨0, "Completed", ""⟩)), .read false,
    .read true, .jobUpdated ⟨"job-build", "build", 0, 0, [⟨.failed, .isTrue, "DeadlineExceeded"⟩]⟩,
    .podRemoved, .read false]

/-- Running is followed by accepted, and completed by accepted and by failed, against the
worker's exit code. -/
theorem status_moves_back :
    (run Cluster.step (newCluster "job-build" "build") listFailsOnce).2 =
      [⟨.running, none⟩, ⟨.accepted, none⟩] ∧
    (run Cluster.step (newCluster "job-build" "build") deadlineAfterExit).2 =
      [⟨.completed, some 0⟩, ⟨.accepted, some 0⟩, ⟨.failed, some 0⟩] ∧
    ¬ Steady (run Cluster.step (newCluster "job-build" "build") listFailsOnce).2 ∧
    ¬ Steady (run Cluster.step (newCluster "job-build" "build") deadlineAfterExit).2 := by
  have hfirst : (run Cluster.step (newCluster "job-build" "build") listFailsOnce).2 =
      [⟨.running, none⟩, ⟨.accepted, none⟩] := by decide
  have hsecond : (run Cluster.step (newCluster "job-build" "build") deadlineAfterExit).2 =
      [⟨.completed, some 0⟩, ⟨.accepted, some 0⟩, ⟨.failed, some 0⟩] := by decide
  refine ⟨hfirst, hsecond, ?_, ?_⟩
  · intro hsteady
    rw [hfirst] at hsteady
    exact (rel_of_pairwise_cons hsteady.forward (mem_singleton_self _)).2 rfl rfl
  · intro hsteady
    rw [hsecond] at hsteady
    have hagrees := hsteady.agrees ⟨.accepted, some 0⟩ (by decide) 0 rfl
    cases hagrees

end Orchestrator.Job.Kubernetes

/-
  Orchestrator.Job.Kubernetes.Terms

  A job over the leadership terms of a fleet of replicas.

  A tracker lives from the first event of its pod to the deletion of the pod or to the end of
  the term, and what it emits depends on the events that it is given and the start of the
  term when it is, on nothing another tracker did.  `lives` cuts the steps of a replica into
  these stretches, `meetsStart` and `meetsEnd` read off one whether it reports the start and
  the end of the job, and over a fleet the reports add up.
-/

import Orchestrator.Job.Kubernetes.Watcher

namespace Orchestrator.Job.Kubernetes

open Lifecycle Lib.Machine ContainerState Sighting List

/-! ## What is counted -/

/-- The callbacks that end a job: an exit, or a failure without one. -/
def isEnding : Signal → Bool
  | .exited _ _ | .failed _ => true
  | _ => false

def starts (out : List Signal) : Nat := out.countP (fun s => s = .started)
def endings (out : List Signal) : Nat := out.countP isEnding

@[simp] theorem starts_nil : starts [] = 0 := rfl
@[simp] theorem endings_nil : endings [] = 0 := rfl

@[simp] theorem starts_cons (s : Signal) (out : List Signal) :
    starts (s :: out) = starts out + (if s = .started then 1 else 0) := by
  simp [starts, countP_cons]

@[simp] theorem endings_cons (s : Signal) (out : List Signal) :
    endings (s :: out) = endings out + (if isEnding s then 1 else 0) :=
  countP_cons

@[simp] theorem starts_append (a b : List Signal) : starts (a ++ b) = starts a + starts b :=
  countP_append

@[simp] theorem endings_append (a b : List Signal) :
    endings (a ++ b) = endings a + endings b :=
  countP_append

def signalsOf (jobID : String) (out : List (String × Signal)) : List Signal :=
  (out.filter (fun e => e.1 = jobID)).map (·.2)

@[simp] theorem signalsOf_append (jobID : String) (a b : List (String × Signal)) :
    signalsOf jobID (a ++ b) = signalsOf jobID a ++ signalsOf jobID b := by
  simp [signalsOf]

/-- At most one `started`, and exactly one callback that ends the job. -/
structure Once (out : List Signal) : Prop where
  started : starts out ≤ 1
  ended : endings out = 1

instance (out : List Signal) : Decidable (Once out) :=
  decidable_of_iff (starts out ≤ 1 ∧ endings out = 1) ⟨fun h => ⟨h.1, h.2⟩, fun h => ⟨h.1, h.2⟩⟩

/-! ## What a term sees -/

/-- The worker has run, or the pod has failed or is gone. -/
def Sighting.notable (s : Sighting) : Bool :=
  s.deleted || workerRan s.pod || s.pod.phase = .failed

/-- The worker is running, or has terminated in a pod created after `start`. -/
def Sighting.live (start : Nat) (s : Sighting) : Bool :=
  match s.deleted, s.pod.worker with
  | false, some .running => true
  | false, some (.terminated _) => start < s.pod.createdAt
  | _, _ => false

/-- The pod has failed and its worker has not run. -/
def Sighting.doomed (s : Sighting) : Bool :=
  !s.deleted && s.pod.phase = .failed && !workerRan s.pod

/-- What ends a job that has started: the pod is gone, the worker has terminated, or the
pod has failed while its worker is still listed. -/
def Sighting.ends (s : Sighting) : Bool :=
  match s.deleted, s.pod.worker with
  | true, _ => true
  | false, some (.terminated _) => true
  | false, some _ => s.pod.phase = .failed
  | false, none => false

/-- An event that is handled, and the start of the term as the watcher has it then. -/
structure Handled extends Sighting where
  start : Nat
  deriving DecidableEq, Repr

def meetsStart (seen : List Handled) : Bool :=
  (seen.find? (·.notable)).any (fun s => s.live s.start)

/-- The first notable sight is of a pod that is gone or failed before its worker ran; or
it is of a live worker, and the end of the job is seen as well. -/
def meetsOutcome (seen : List Handled) : Bool :=
  (seen.find? (·.notable)).any
    (fun s => s.deleted || s.doomed || (s.live s.start && seen.any (·.ends)))

/-- The pod has been seen before it was gone, and its outcome is met. -/
def meetsEnd (seen : List Handled) : Bool :=
  seen.any (fun s => !s.deleted) && meetsOutcome seen

def GoneLast (seen : List Handled) : Prop := seen.Pairwise (fun s _ => s.deleted = false)

def consFirst (s : Handled) : List (List Handled) → List (List Handled)
  | [] => [[s]]
  | life :: lives => (s :: life) :: lives

/-- The events of one job that a replica handles, cut after each deletion and at each drop;
`now` is the start of the term. -/
def lives (jobID : String) : Nat → List Step → List (List Handled)
  | _, [] => [[]]
  | _, .begin now :: rest => lives jobID now rest
  | now, .drop :: rest => [] :: lives jobID now rest
  | now, .notify n :: rest =>
    match n.sighting with
    | none => lives jobID now rest
    | some s =>
      if s.pod.jobID ≠ jobID then lives jobID now rest
      else if s.deleted then [⟨s, now⟩] :: lives jobID now rest
      else consFirst ⟨s, now⟩ (lives jobID now rest)

/-! ## One pod update -/

section

variable {start : Nat} {pod : Pod}

/-- A waiting tracker takes no notice of a pod that has neither run its worker nor failed. -/
theorem apply_idle (start : Nat) (hran : workerRan pod = false) (hphase : pod.phase ≠ .failed) :
    applyPodStateLocked start ⟨false, false⟩ pod = ⟨⟨false, false⟩, [], false⟩ := by
  unfold workerRan at hran
  unfold applyPodStateLocked
  cases hw : pod.worker with
  | none => simp [hphase]
  | some state =>
    cases state <;> simp [hw, isRunning, isTerminated] at hran
    simp [hphase, noteRunning, noteExit, notePhase, isRunning,
      isTerminated]

theorem apply_doomed (start : Nat) (hran : workerRan pod = false) (hphase : pod.phase = .failed) :
    applyPodStateLocked start ⟨false, false⟩ pod =
      ⟨⟨false, false⟩, [.failed (startFailureReason pod)], true⟩ := by
  simp [applyPodStateLocked, hran, hphase]

theorem apply_running (start : Nat) (hw : pod.worker = some .running) :
    applyPodStateLocked start ⟨false, false⟩ pod =
      if pod.phase = .failed then
        ⟨⟨true, true⟩, [.started, .failed (podFailureReason pod)], true⟩
      else ⟨⟨true, false⟩, [.started], false⟩ := by
  simp [applyPodStateLocked, workerRan, hw, noteRunning, noteExit, notePhase,
    isRunning, isTerminated]

/-- First seen terminated in a pod of this term: the whole lifecycle is emitted. -/
theorem apply_fresh {term : Terminated} (hw : pod.worker = some (.terminated term))
    (hnew : start < pod.createdAt) :
    applyPodStateLocked start ⟨false, false⟩ pod =
      if isPodTerminal pod then
        ⟨⟨true, true⟩, [.started, .exited term.exitCode (exitReason term), .completed], true⟩
      else ⟨⟨true, true⟩, [.started, .exited term.exitCode (exitReason term)], false⟩ := by
  simp [applyPodStateLocked, workerRan, hw, hnew, noteRunning, noteExit, notePhase,
    isRunning, isTerminated]

/-- First seen terminated in a pod older than this term: nothing is emitted. -/
theorem apply_stale {term : Terminated} (hw : pod.worker = some (.terminated term))
    (hold : ¬ start < pod.createdAt) :
    applyPodStateLocked start ⟨false, false⟩ pod = ⟨⟨true, true⟩, [], isPodTerminal pod⟩ := by
  simp [applyPodStateLocked, workerRan, hw, hold, noteRunning,
    isRunning, isTerminated]

theorem apply_started_open {s : Sighting} (start : Nat) (hgone : s.deleted = false)
    (hend : s.ends = false) :
    applyPodStateLocked start ⟨true, false⟩ s.pod = ⟨⟨true, false⟩, [], false⟩ := by
  unfold ends at hend
  unfold applyPodStateLocked
  cases hw : s.pod.worker with
  | none => simp
  | some state =>
    cases state <;> simp [hgone, hw] at hend <;>
      simp [hend, noteRunning, noteExit, notePhase, isRunning,
        isTerminated]

theorem apply_started_end {s : Sighting} (start : Nat) (hgone : s.deleted = false)
    (hend : s.ends = true) :
    let after := applyPodStateLocked start ⟨true, false⟩ s.pod
    after.state = ⟨true, true⟩ ∧ starts after.emitted = 0 ∧ endings after.emitted = 1 := by
  unfold ends at hend
  unfold applyPodStateLocked
  cases hw : s.pod.worker with
  | none => simp [hgone, hw] at hend
  | some state =>
    cases state with
    | terminated term =>
      by_cases hterm : isPodTerminal s.pod <;>
        simp [hterm, noteRunning, noteExit, notePhase, isEnding]
    | waiting | running =>
      have hphase : s.pod.phase = .failed := by simpa [hgone, hw] using hend
      simp [hphase, noteRunning, noteExit, notePhase, isEnding,
        isTerminated]

theorem apply_exited (start : Nat) (pod : Pod) :
    let after := applyPodStateLocked start ⟨true, true⟩ pod
    after.state = ⟨true, true⟩ ∧ starts after.emitted = 0 ∧ endings after.emitted = 0 := by
  unfold applyPodStateLocked
  cases hw : pod.worker with
  | none => simp
  | some state =>
    by_cases hterm : isPodTerminal pod <;> cases state <;>
      simp [hterm, noteRunning, noteExit, notePhase, isEnding]

end

/-! ## The life of a tracker -/

section

variable {s : Handled} {rest seen : List Handled}

theorem GoneLast.nil_of_deleted (h : GoneLast (s :: rest)) (hgone : s.deleted = true) :
    rest = [] := by
  cases rest with
  | nil => rfl
  | cons next rest =>
    have hkept := rel_of_pairwise_cons h mem_cons_self
    rw [hgone] at hkept
    cases hkept

def take (t : Option JobTracker) (s : Handled) : Option JobTracker × List Signal :=
  observe s.start t s.toSighting

theorem take_seen (t : JobTracker) (h : s.deleted = false) :
    take (some t) s = (some (t.handleUpdate s.start s.pod).1, (t.handleUpdate s.start s.pod).2) := by
  simp [take, observe, h]

theorem take_gone (t : JobTracker) (h : s.deleted = true) :
    take (some t) s = (none, t.handleDelete.2) := by
  simp [take, observe, h]

/-- The start is reported as often as `b` says, and the end as often as `e` says. -/
def Reports (t : Option JobTracker) (seen : List Handled) (b e : Bool) : Prop :=
  starts (run take t seen).2 = b.toNat ∧ endings (run take t seen).2 = e.toNat

/-- A tracker that has nothing more to report than the completion. -/
def JobTracker.Done (t : JobTracker) : Prop := t.closed = true ∨ t.state = ⟨true, true⟩

theorem handleUpdate_done {t : JobTracker} (h : t.Done) (start : Nat) (pod : Pod) :
    (t.handleUpdate start pod).1.Done ∧ starts (t.handleUpdate start pod).2 = 0 ∧
      endings (t.handleUpdate start pod).2 = 0 := by
  unfold JobTracker.handleUpdate
  by_cases hclosed : t.closed
  · simp [hclosed, JobTracker.Done]
  · have hstate : t.state = ⟨true, true⟩ := h.resolve_left hclosed
    obtain ⟨hafter, hs, he⟩ := apply_exited start pod
    simp [hclosed, hstate, JobTracker.Done, hafter, hs, he]

theorem handleDelete_done {t : JobTracker} (h : t.Done) :
    starts t.handleDelete.2 = 0 ∧ endings t.handleDelete.2 = 0 := by
  unfold JobTracker.handleDelete
  by_cases hclosed : t.closed
  · simp [hclosed]
  · have hstate : t.state = ⟨true, true⟩ := h.resolve_left hclosed
    simp [hclosed, hstate, isEnding]

/-- A pod update to an open tracker, and what the rest of the term reports after it. -/
theorem Reports.update {st : TrackerState} {a : Applied} {b e b₁ e₁ : Bool}
    (hgone : s.deleted = false) (happly : applyPodStateLocked s.start st s.pod = a)
    (hrest : Reports (some ⟨a.state, a.terminal⟩) rest b₁ e₁)
    (hs : starts a.emitted + b₁.toNat = b.toNat)
    (he : endings a.emitted + e₁.toNat = e.toNat) :
    Reports (some ⟨st, false⟩) (s :: rest) b e := by
  have hstep : JobTracker.handleUpdate s.start ⟨st, false⟩ s.pod =
      (⟨a.state, a.terminal⟩, a.emitted) := by
    simp [JobTracker.handleUpdate, happly]
  unfold Reports
  simp only [run, take_seen _ hgone, hstep, starts_append, endings_append]
  rw [hrest.1, hrest.2]
  exact ⟨hs, he⟩

/-- The deletion is the last thing a term reports of the pod. -/
theorem Reports.gone {t : JobTracker} {e : Bool} (hgone : s.deleted = true)
    (hlast : GoneLast (s :: rest)) (hs : starts t.handleDelete.2 = 0)
    (he : endings t.handleDelete.2 = e.toNat) : Reports (some t) (s :: rest) false e := by
  unfold Reports
  simp [run, take_gone t hgone, hlast.nil_of_deleted hgone, hs, he]

theorem reports_done {t : JobTracker} (h : t.Done) (hseen : GoneLast seen) :
    Reports (some t) seen false false := by
  induction seen generalizing t with
  | nil => exact ⟨rfl, rfl⟩
  | cons s rest ih =>
    cases hgone : s.deleted with
    | true =>
      obtain ⟨hs, he⟩ := handleDelete_done h
      exact Reports.gone hgone hseen hs he
    | false =>
      obtain ⟨hafter, hs, he⟩ := handleUpdate_done h s.start s.pod
      obtain ⟨hrs, hre⟩ := ih hafter hseen.of_cons
      simp [Reports, run, take_seen t hgone, hs, he, hrs, hre]

/-- A tracker that has reported the start reports the first end it sees. -/
theorem reports_started (hseen : GoneLast seen) :
    Reports (some ⟨⟨true, false⟩, false⟩) seen false (seen.any (·.ends)) := by
  induction seen with
  | nil => exact ⟨rfl, rfl⟩
  | cons s rest ih =>
    rw [any_cons]
    cases hgone : s.deleted with
    | true =>
      have hend : s.ends = true := by simp [ends, hgone]
      rw [hend]
      exact Reports.gone hgone hseen rfl rfl
    | false =>
      cases hend : s.ends with
      | true =>
        obtain ⟨hafter, hs, he⟩ := apply_started_end s.start hgone hend
        exact Reports.update hgone rfl (reports_done (.inr hafter) hseen.of_cons) hs he
      | false =>
        have hstep := apply_started_open s.start hgone hend
        exact Reports.update hgone hstep (ih hseen.of_cons) rfl (by simp)

theorem ends_of_not_notable {s : Sighting} (h : s.notable = false) : s.ends = false := by
  unfold notable workerRan at h
  unfold ends
  cases hgone : s.deleted with
  | true => simp [hgone] at h
  | false =>
    cases hw : s.pod.worker with
    | none => rfl
    | some state =>
      cases state <;>
        simp_all [isRunning, isTerminated]

/-- What a waiting tracker reports when its first notable sight is `s`. -/
def FirstReport (s : Handled) (rest : List Handled) : Prop :=
  Reports (some newJobTracker) (s :: rest) (s.live s.start)
    (s.deleted || s.doomed || (s.live s.start && (s :: rest).any (·.ends)))

theorem reports_doomed (hseen : GoneLast (s :: rest)) (hgone : s.deleted = false)
    (hran : workerRan s.pod = false) (hphase : s.pod.phase = .failed) :
    FirstReport s rest := by
  have hlive : s.live s.start = false := by
    unfold live
    unfold workerRan at hran
    cases hw : s.pod.worker with
    | none => simp [hgone]
    | some state => cases state <;> simp_all [isRunning, isTerminated]
  have hdoomed : s.doomed = true := by simp [doomed, hgone, hran, hphase]
  have hrest := reports_done (.inl rfl : JobTracker.Done ⟨⟨false, false⟩, true⟩) hseen.of_cons
  unfold FirstReport
  rw [hlive, hdoomed, hgone]
  exact Reports.update hgone (apply_doomed s.start hran hphase) hrest rfl rfl

theorem reports_running (hseen : GoneLast (s :: rest)) (hgone : s.deleted = false)
    (hw : s.pod.worker = some .running) : FirstReport s rest := by
  have hlive : s.live s.start = true := by simp [live, hgone, hw]
  have hdoomed : s.doomed = false := by
    simp [doomed, workerRan, hw, isRunning]
  have hstep := apply_running s.start hw
  unfold FirstReport
  rw [hlive, hdoomed, hgone, Bool.or_self, Bool.false_or, Bool.true_and, any_cons]
  by_cases hphase : s.pod.phase = .failed
  · -- the pod has failed under the worker: the start and the failure come together
    have hend : s.ends = true := by simp [ends, hgone, hw, hphase]
    rw [if_pos hphase] at hstep
    rw [hend]
    exact Reports.update hgone hstep (reports_done (.inl rfl) hseen.of_cons) rfl rfl
  · have hend : s.ends = false := by simp [ends, hgone, hw, hphase]
    rw [if_neg hphase] at hstep
    rw [hend]
    exact Reports.update hgone hstep (reports_started hseen.of_cons) rfl (Nat.zero_add _)

theorem reports_terminated (hseen : GoneLast (s :: rest)) (hgone : s.deleted = false)
    {term : Terminated} (hw : s.pod.worker = some (.terminated term)) :
    FirstReport s rest := by
  have hdoomed : s.doomed = false := by
    simp [doomed, workerRan, hw, isTerminated]
  have hend : s.ends = true := by simp [ends, hgone, hw]
  unfold FirstReport
  rw [hdoomed, hgone, any_cons, hend]
  by_cases hnew : s.start < s.pod.createdAt
  · have hlive : s.live s.start = true := by simp [live, hgone, hw, hnew]
    have hstep := apply_fresh hw hnew
    rw [hlive]
    cases hterm : isPodTerminal s.pod with
    | true =>
      rw [hterm, if_pos rfl] at hstep
      exact Reports.update hgone hstep (reports_done (.inl rfl) hseen.of_cons) rfl rfl
    | false =>
      rw [hterm, if_neg Bool.false_ne_true] at hstep
      exact Reports.update hgone hstep (reports_done (.inr rfl) hseen.of_cons) rfl rfl
  · have hlive : s.live s.start = false := by simp [live, hgone, hw, hnew]
    rw [hlive]
    exact Reports.update hgone (apply_stale hw hnew) (reports_done (.inr rfl) hseen.of_cons)
      rfl rfl

/-- The first notable sight decides what a waiting tracker reports. -/
theorem reports_first (hseen : GoneLast (s :: rest)) (hnote : s.notable = true) :
    FirstReport s rest := by
  cases hgone : s.deleted with
  | true =>
    have hlive : s.live s.start = false := by simp [live, hgone]
    unfold FirstReport
    rw [hlive, hgone]
    exact Reports.gone hgone hseen rfl rfl
  | false =>
    cases hran : workerRan s.pod with
    | false =>
      apply reports_doomed hseen hgone hran
      simpa [notable, hgone, hran] using hnote
    | true =>
      unfold workerRan at hran
      cases hw : s.pod.worker with
      | none => simp [hw] at hran
      | some state =>
        cases state with
        | waiting => simp [hw, isRunning, isTerminated] at hran
        | running => exact reports_running hseen hgone hw
        | terminated term => exact reports_terminated hseen hgone hw

/-- A tracker that has seen nothing notable reports what the first notable sight calls
for. -/
theorem reports_waiting (hseen : GoneLast seen) :
    Reports (some newJobTracker) seen (meetsStart seen) (meetsOutcome seen) := by
  induction seen with
  | nil => exact ⟨rfl, rfl⟩
  | cons s rest ih =>
    cases hnote : s.notable with
    | true =>
      have hfind : (s :: rest).find? (·.notable) = some s := by simp [hnote]
      unfold meetsStart meetsOutcome
      rw [hfind]
      exact reports_first hseen hnote
    | false =>
      -- the tracker and the first notable sight are those of the rest
      have hfind : (s :: rest).find? (·.notable) = rest.find? (·.notable) := by
        simp [hnote]
      have hany : (s :: rest).any (·.ends) = rest.any (·.ends) := by
        simp [ends_of_not_notable hnote]
      simp only [notable, Bool.or_eq_false_iff, decide_eq_false_iff_not] at hnote
      have hstep := apply_idle s.start hnote.1.2 hnote.2
      unfold meetsStart meetsOutcome
      rw [hfind, hany]
      exact Reports.update hnote.1.1 hstep (ih hseen.of_cons) (Nat.zero_add _) (Nat.zero_add _)

theorem reports_life (hseen : GoneLast seen) :
    Reports none seen (meetsStart seen) (meetsEnd seen) := by
  cases seen with
  | nil => exact ⟨rfl, rfl⟩
  | cons s rest =>
    cases hgone : s.deleted with
    | true =>
      -- deleted before it was ever seen: there is no tracker to tell
      simp [Reports, run, take, observe, hgone, hseen.nil_of_deleted hgone, meetsStart, meetsEnd,
        notable, live]
    | false =>
      have hany : (s :: rest).any (fun s => !s.deleted) = true := by simp [hgone]
      have hfirst : run take none (s :: rest) =
          run take (some newJobTracker) (s :: rest) := by
        simp [run, take, observe, hgone]
      unfold Reports meetsEnd
      rw [hfirst, hany, Bool.true_and]
      exact reports_waiting hseen

end

/-! ## The lives of a fleet -/

section

variable {jobID : String}

theorem handle_termStart (w : Watcher) (s : Sighting) : (w.handle s).1.termStart = w.termStart := by
  unfold Watcher.handle
  split <;> rfl

/-- Events of other jobs leave the tracker of a job alone. -/
theorem handle_other (w : Watcher) {s : Sighting} (h : s.pod.jobID ≠ jobID) :
    (w.handle s).1.trackers jobID = w.trackers jobID ∧ signalsOf jobID (w.handle s).2 = [] := by
  unfold Watcher.handle
  split
  · exact ⟨rfl, rfl⟩
  · simp [Watcher.set, signalsOf, h, Ne.symm h]

theorem handle_own (w : Watcher) {s : Sighting} (hid : jobID ≠ "") (h : s.pod.jobID = jobID) :
    (w.handle s).1.trackers jobID = (observe w.termStart (w.trackers jobID) s).1 ∧
      signalsOf jobID (w.handle s).2 = (observe w.termStart (w.trackers jobID) s).2 := by
  subst h
  simp [Watcher.handle, hid, Watcher.set, signalsOf, filter_map, Function.comp_def]

/-- What is told over the lives of a job's trackers, the first of which is `t` already. -/
def told (t : Option JobTracker) : List (List Handled) → List Signal
  | [] => []
  | life :: lives => (run take t life).2 ++ lives.flatMap fun life => (run take none life).2

theorem told_none (lives : List (List Handled)) :
    told none lives = lives.flatMap fun life => (run take none life).2 := by
  cases lives <;> rfl

theorem told_consFirst (t : Option JobTracker) (s : Handled) (lives : List (List Handled)) :
    told t (consFirst s lives) = (take t s).2 ++ told (take t s).1 lives := by
  cases lives with
  | nil => simp [consFirst, told, run]
  | cons life lives => simp [consFirst, told, run]

/-- **What a watcher emits for a job** is what its trackers tell over their lives. -/
theorem signalsOf_run (hid : jobID ≠ "") (w : Watcher) (steps : List Step) :
    signalsOf jobID (run Watcher.step w steps).2 =
      told (w.trackers jobID) (lives jobID w.termStart steps) := by
  induction steps generalizing w with
  | nil => simp [run, lives, told, signalsOf]
  | cons step rest ih =>
    rw [run, signalsOf_append, ih]
    cases step with
    | begin now => rfl
    | drop => exact told_none _
    | notify n =>
      rw [lives, Watcher.step]
      cases n.sighting with
      | none => rfl
      | some s =>
        dsimp only
        rw [handle_termStart]
        by_cases hown : s.pod.jobID = jobID
        · obtain ⟨htracker, hsent⟩ := handle_own w hid hown
          rw [if_neg (not_not.mpr hown), htracker, hsent]
          cases hgone : s.deleted with
          | false =>
            rw [if_neg Bool.false_ne_true, told_consFirst]
            rfl
          | true =>
            -- the tracker is evicted, so the rest begins without one
            have hevicted : (observe w.termStart (w.trackers jobID) s).1 = none := by
              unfold observe
              rw [hgone]
              cases w.trackers jobID <;> rfl
            rw [if_pos rfl, hevicted, told_none, told]
            simp [run, take]
        · obtain ⟨htracker, hsent⟩ := handle_other w hown
          rw [if_pos hown, htracker, hsent, nil_append]

theorem goneLast_consFirst {s : Handled} {lives : List (List Handled)} (hs : s.deleted = false)
    (h : ∀ life ∈ lives, GoneLast life) : ∀ life ∈ consFirst s lives, GoneLast life := by
  cases lives with
  | nil =>
    intro life hlife
    rw [mem_singleton.mp hlife]
    exact pairwise_singleton _ _
  | cons first lives =>
    rw [consFirst, forall_mem_cons]
    exact ⟨pairwise_cons.mpr ⟨fun _ _ => hs, h first mem_cons_self⟩,
      fun life hlife => h life (mem_cons_of_mem first hlife)⟩

theorem goneLast_lives (now : Nat) (steps : List Step) :
    ∀ life ∈ lives jobID now steps, GoneLast life := by
  induction steps generalizing now with
  | nil => simp [lives, GoneLast]
  | cons step rest ih =>
    cases step with
    | begin now => exact ih now
    | drop =>
      rw [lives, forall_mem_cons]
      exact ⟨Pairwise.nil, ih now⟩
    | notify n =>
      rw [lives]
      cases n.sighting with
      | none => exact ih now
      | some s =>
        dsimp only
        split
        · exact ih now
        · split
          · rw [forall_mem_cons]
            exact ⟨pairwise_singleton _ _, ih now⟩
          · rename_i hgone
            exact goneLast_consFirst (Bool.not_eq_true _ ▸ hgone) (ih now)

theorem counts_told {all : List (List Handled)} (h : ∀ life ∈ all, GoneLast life) :
    starts (told none all) = all.countP meetsStart ∧
      endings (told none all) = all.countP meetsEnd := by
  rw [told_none]
  induction all with
  | nil => exact ⟨rfl, rfl⟩
  | cons life rest ih =>
    rw [forall_mem_cons] at h
    obtain ⟨hs, he⟩ := reports_life h.1
    obtain ⟨hrs, hre⟩ := ih h.2
    simp only [flatMap_cons, starts_append, endings_append, hs, he, hrs, hre, countP_cons]
    exact ⟨by cases meetsStart life <;> simp [Nat.add_comm],
      by cases meetsEnd life <;> simp [Nat.add_comm]⟩

theorem counts_fleet (hid : jobID ≠ "") (fleet : List (List Step)) :
    starts (signalsOf jobID (emissions fleet)) =
        (fleet.flatMap (lives jobID 0)).countP meetsStart ∧
      endings (signalsOf jobID (emissions fleet)) =
        (fleet.flatMap (lives jobID 0)).countP meetsEnd := by
  unfold emissions
  induction fleet with
  | nil => exact ⟨rfl, rfl⟩
  | cons steps rest ih =>
    have hrun := signalsOf_run hid newWatcher steps
    have hgone : ∀ life ∈ lives jobID 0 steps, GoneLast life := goneLast_lives 0 steps
    obtain ⟨hs, he⟩ := counts_told hgone
    rw [flatMap_cons, flatMap_cons, signalsOf_append, hrun, starts_append, endings_append,
      countP_append, countP_append, ih.1, ih.2]
    exact ⟨congrArg (· + _) hs, congrArg (· + _) he⟩

/-- Over all terms together a job starts at most once and ends exactly once just when at
most one tracker's life meets its start and exactly one meets its end. -/
theorem once_iff_met (hid : jobID ≠ "") (fleet : List (List Step)) :
    Once (signalsOf jobID (emissions fleet)) ↔
      (fleet.flatMap (lives jobID 0)).countP meetsStart ≤ 1 ∧
        (fleet.flatMap (lives jobID 0)).countP meetsEnd = 1 := by
  obtain ⟨hs, he⟩ := counts_fleet hid fleet
  rw [← hs, ← he]
  exact ⟨fun h => ⟨h.started, h.ended⟩, fun h => ⟨h.1, h.2⟩⟩

end

/-! ## The order of what a tracker emits -/

inductive Told : TrackerState → List Signal → Prop where
  | waiting : Told ⟨false, false⟩ []
  | started : Told ⟨true, false⟩ [.started]
  | exited (code : Int) (reason : ExitReason) : Told ⟨true, true⟩ [.started, .exited code reason]
  /-- The worker had terminated before the term. -/
  | before : Told ⟨true, true⟩ []

inductive ToldAll : List Signal → Prop where
  | course (code : Int) (reason : ExitReason) :
      ToldAll [.started, .exited code reason, .completed]
  | failed (reason : String) : ToldAll [.failed reason]
  | startedFailed (reason : String) : ToldAll [.started, .failed reason]
  | completed : ToldAll [.completed]
  | nothing : ToldAll []

/-- A prefix of the course of a job, a failure, or a completion alone. -/
def InGrammar (out : List Signal) : Prop :=
  (∃ code reason, out <+: [.started, .exited code reason, .completed]) ∨
    (∃ reason, out = [.failed reason] ∨ out = [.started, .failed reason]) ∨ out = [.completed]

def JobTracker.handle (termStart : Nat) (t : JobTracker) (s : Sighting) :
    JobTracker × List Signal :=
  if s.deleted then t.handleDelete else t.handleUpdate termStart s.pod

def JobTracker.HasTold (t : JobTracker) (out : List Signal) : Prop :=
  if t.closed then ToldAll out else Told t.state out

section

variable (start : Nat) {out : List Signal} {t : JobTracker}

theorem apply_told {state : TrackerState} (h : Told state out) (pod : Pod) :
    let a := applyPodStateLocked start state pod
    if a.terminal then ToldAll (out ++ a.emitted) else Told a.state (out ++ a.emitted) := by
  cases hw : pod.worker with
  | none =>
    cases h <;> by_cases hphase : pod.phase = .failed <;>
      simp [applyPodStateLocked, workerRan, hw, hphase] <;> constructor
  | some worker =>
    -- the flags of the tracker, the worker, the phase and the age of the pod decide
    cases h <;> cases worker <;> by_cases hphase : pod.phase = .failed <;>
      by_cases hterm : isPodTerminal pod <;> by_cases hnew : start < pod.createdAt <;>
        simp [applyPodStateLocked, workerRan, hw, hphase, hterm, hnew, noteRunning, noteExit,
          notePhase, isRunning, isTerminated] <;> constructor

theorem JobTracker.handle_closed (s : Sighting) (h : t.closed = true) :
    t.handle start s = (t, []) := by
  simp [handle, handleDelete, handleUpdate, h]

theorem run_closed (h : t.closed = true) (seen : List Sighting) :
    (run (JobTracker.handle start) t seen).2 = [] := by
  induction seen with
  | nil => rfl
  | cons s rest ih =>
    rw [run, JobTracker.handle_closed start s h]
    exact ih

theorem JobTracker.HasTold.handle (s : Sighting) (h : t.HasTold out) :
    (t.handle start s).1.HasTold (out ++ (t.handle start s).2) := by
  cases hclosed : t.closed with
  | true =>
    rw [handle_closed start s hclosed, append_nil]
    exact h
  | false =>
    have htold : Told t.state out := by simpa [HasTold, hclosed] using h
    cases hgone : s.deleted with
    | false =>
      simp only [JobTracker.handle, hgone, handleUpdate, hclosed]
      exact apply_told start htold s.pod
    | true =>
      obtain ⟨state, closed⟩ := t
      simp only at hclosed htold
      subst hclosed
      cases htold <;> simp [JobTracker.handle, hgone, handleDelete, HasTold] <;> constructor

theorem JobTracker.HasTold.inGrammar (h : t.HasTold out) : InGrammar out := by
  obtain ⟨state, closed⟩ := t
  cases closed with
  | true =>
    have hall : ToldAll out := h
    cases hall with
    | nothing => exact .inl ⟨0, .none, nil_prefix⟩
    | _ => simp [InGrammar]
  | false =>
    have htold : Told state out := h
    cases htold with
    | exited code reason => exact .inl ⟨code, reason, by simp⟩
    | _ => exact .inl ⟨0, .none, by simp⟩

/-- **The order of a tracker's signals**, over every sequence of pod updates and deletions; a
closed tracker emits nothing more. -/
theorem tracker_inGrammar (start : Nat) (seen : List Sighting) :
    InGrammar (run (JobTracker.handle start) newJobTracker seen).2 ∧
      ∀ later, (run (JobTracker.handle start) newJobTracker seen).1.closed = true →
        (run (JobTracker.handle start) newJobTracker (seen ++ later)).2 =
          (run (JobTracker.handle start) newJobTracker seen).2 := by
  have hnew : newJobTracker.HasTold [] := Told.waiting
  have htold := run_preserves JobTracker.HasTold (fun _ _ s h => h.handle start s) seen hnew
  refine ⟨htold.inGrammar, fun later hclosed => ?_⟩
  rw [run_append, run_closed start hclosed, append_nil]

end

/-- The worker has terminated, or the pod has failed. -/
def Pod.over (pod : Pod) : Bool :=
  pod.worker.any isTerminated || pod.phase = .failed

def Notification.pod : Notification → Pod
  | update pod | delete pod | tombstone pod => pod

/-- Some replica sees the pod, or its deletion, when its outcome is decided. -/
def Observed (jobID : String) (fleet : List (List Step)) : Bool :=
  fleet.any fun steps => steps.any fun step =>
    match step with
    | .notify n => n.pod.jobID = jobID && n.pod.over
    | _ => false

def buildPod (phase : PodPhase) (worker : ContainerState) : Pod :=
  ⟨"build", 5, phase, "", [], [⟨ContainerWorker, worker⟩]⟩

def exitedPod : Pod := buildPod .succeeded (.terminated ⟨0, "Completed", ""⟩)

/-- A term of a replica, from its start to the drop. -/
def term (now : Nat) (seen : List Notification) : List Step :=
  .begin now :: seen.map .notify ++ [.drop]

/-- One replica sees the job through; another one then finds it finished. -/
def seenThrough : List (List Step) :=
  [term 0 [.update (buildPod .pending .waiting), .update (buildPod .running .running),
      .update (buildPod .running (.terminated ⟨0, "Completed", ""⟩)), .update exitedPod],
    term 20 [.update exitedPod]]

theorem once_seenThrough : Once (signalsOf "build" (emissions seenThrough)) :=
  (once_iff_met (by decide) seenThrough).mpr (by decide)

/-- The worker runs when the second term begins, and ends in it. -/
def handedOver : List (List Step) :=
  [term 0 [.update (buildPod .running .running)],
    term 20 [.update (buildPod .running .running), .update exitedPod]]

def endedInGap : List (List Step) :=
  [term 0 [.update (buildPod .running .running)], term 20 [.update exitedPod]]

/-- An init container failed in the first term, and the pod is still there in the second. -/
def failedEarly : List (List Step) :=
  [term 0 [.update (buildPod .failed .waiting)], term 20 [.update (buildPod .failed .waiting)]]

/-- One term, with a handler that comes to the trackers after they were dropped. -/
def handledLate : List (List Step) :=
  [term 0 [.update (buildPod .running .running)] ++ [.notify (.update (buildPod .running .running))],
    term 20 [.delete exitedPod]]

/-- The informer has missed the deletion of the pod. -/
def deletionMissed : List (List Step) :=
  [term 0 [.update (buildPod .running .running), .tombstone exitedPod]]

/-- A hand-over under a running worker starts the job twice, and so does a late handler; an
exit between two terms is never reported, nor is a deletion that was missed; and an early
failure is reported by every term that sees the pod. -/
theorem handover_not_once :
    (Observed "build" handedOver = true ∧
      signalsOf "build" (emissions handedOver) =
        [.started, .started, .exited 0 .none, .completed]) ∧
    (Observed "build" endedInGap = true ∧
      signalsOf "build" (emissions endedInGap) = [.started]) ∧
    (Observed "build" failedEarly = true ∧
      signalsOf "build" (emissions failedEarly) =
        [.failed "pod failed before worker started",
          .failed "pod failed before worker started"]) ∧
    (Observed "build" handledLate = true ∧
      signalsOf "build" (emissions handledLate) = [.started, .started]) ∧
    (Observed "build" deletionMissed = true ∧
      signalsOf "build" (emissions deletionMissed) = [.started]) ∧
    ¬ Once (signalsOf "build" (emissions handedOver)) ∧
    ¬ Once (signalsOf "build" (emissions endedInGap)) ∧
    ¬ Once (signalsOf "build" (emissions failedEarly)) ∧
    ¬ Once (signalsOf "build" (emissions handledLate)) ∧
    ¬ Once (signalsOf "build" (emissions deletionMissed)) := by
  decide

end Orchestrator.Job.Kubernetes

/-
  Orchestrator.Sidecar.Trace

  What a run of the sidecar's combined flow leaves in its log.

  `Plan` is what a run is given: its three lists of artifacts, and what an earlier run
  has left in the workspace.  `Trace` puts the logs of the phases in sequence, and
  `run_triple` says that whatever the surroundings do, the log of a run is a trace; the
  results about the flow are then facts about traces.
-/

import Orchestrator.Sidecar.Phases

namespace Orchestrator.Sidecar

open Lib Lib.Prog Artifact

/-! ## The flow -/

/-- What a run is given: its three lists, and what an earlier run has left in the
    workspace. -/
structure Plan where
  preJob : List Artifact
  mounts : List Mount
  postJob : List Artifact
  /-- The pre phase was finished by an earlier run. -/
  complete : Bool
  table : List String

namespace Plan

/-- The log of the pre phase of a run that got past it. -/
def PreDone (plan : Plan) (log : List Event) : Prop :=
  if plan.complete then log = [] else PhaseDone plan.preJob log

/-- The mounts of an earlier run are all there. -/
def Adopts (plan : Plan) : Prop := plan.mounts ≠ [] ∧ ∀ m ∈ plan.mounts, target m ∈ plan.table

/-- The log of the mount phase of a run that got past it. -/
def MountsDone (plan : Plan) (log : List Event) : Prop :=
  log = mountEvents plan.mounts ∨ plan.Adopts ∧ log = []

end Plan

/-- The log of a run, up to any point. -/
inductive Trace (plan : Plan) : List Event → Prop where
  | pre {pre : List Event} (hpre : PhaseLog plan.preJob pre) : Trace plan pre
  | mounting {pre mounts : List Event} (hpre : plan.PreDone pre)
      (hmounts : MountLog plan.mounts mounts) : Trace plan (pre ++ mounts)
  | ready {pre mounts : List Event} (hpre : plan.PreDone pre) (hmounts : plan.MountsDone mounts) :
      Trace plan (pre ++ mounts ++ [.ready])
  | post {pre mounts post : List Event} (hpre : plan.PreDone pre)
      (hmounts : plan.MountsDone mounts) (hpost : PhaseLog plan.postJob post) :
      Trace plan (pre ++ mounts ++ [.ready] ++ [.workerDone] ++ post)

/-- The log of a run to its end in reliable surroundings. -/
def FullTrace (plan : Plan) (log : List Event) : Prop :=
  ∃ pre mounts post, plan.PreDone pre ∧ plan.MountsDone mounts ∧ PhaseDone plan.postJob post ∧
    log = pre ++ mounts ++ [.ready] ++ [.workerDone] ++ post

section

variable {plan : Plan} {pre mounts : List Event} {table : List String}

theorem Plan.PreDone.trace (h : plan.PreDone pre) : Trace plan pre := by
  have hlog : MountLog plan.mounts [] := ⟨[], plan.mounts, rfl, .inl rfl⟩
  have htrace := Trace.mounting h hlog
  rwa [List.append_nil] at htrace

theorem preJobPhase_triple (host : Host) (plan : Plan) :
    Triple (fun w => w.markerArtifactsComplete = plan.complete ∧ Shows plan.table [] w)
      (preJobPhase host plan.preJob)
      (fun _ w => ∃ pre, plan.PreDone pre ∧ Shows plan.table pre w)
      (Blamed host (LogIn (Trace plan))) := by
  unfold preJobPhase
  apply Triple.bind (Q := fun w w' => w.markerArtifactsComplete = plan.complete ∧
    Shows plan.table [] w') (triple_get fun w hw => ⟨hw.1, hw.2⟩)
  intro w
  apply triple_of_prop
  intro hcomplete
  rw [hcomplete]
  -- a finished pre phase is not run again
  apply triple_ite
  · intro htrue
    apply triple_pure
    intro w' hw'
    exact ⟨[], by rw [Plan.PreDone, if_pos htrue], hw'⟩
  · intro hfalse
    have hphase := processArtifacts_triple plan.table [] host plan.preJob false
    have hstop : ∀ w, PhaseEnds plan.table [] (PhaseLog plan.preJob) w → LogIn (Trace plan) w := by
      rintro w ⟨pre, hpre, hshows⟩
      show Trace plan w.log
      rw [hshows.2]
      exact .pre hpre
    apply Triple.bind (hphase.mono (fun _ h => h) (fun _ _ h => h)
      fun _ _ h => h.mono hstop)
    intro r
    cases r with
    | some e => exact triple_throw fun w hw => ⟨hw.1, by simp, hstop w hw.2⟩
    | none =>
      apply triple_exists
      intro pre
      apply triple_of_prop
      intro hpre
      have hdone : plan.PreDone pre := by
        rw [Plan.PreDone, if_neg hfalse]
        exact hpre
      have hends : ∀ w, Shows plan.table pre w → LogIn (Trace plan) w := by
        intro w hw
        show Trace plan w.log
        rw [hw.2]
        exact hdone.trace
      exact Triple.post (call_keeps hends)
        fun _ _ hw => ⟨pre, hdone, hw⟩

theorem mountPhase_triple (host : Host) (hpre : plan.PreDone pre) :
    Triple (Shows plan.table pre) (mountPhase host plan.mounts)
      (fun _ w => ∃ mounts, plan.MountsDone mounts ∧ w.log = pre ++ mounts)
      (Blamed host (LogIn (Trace plan))) := by
  have hstart : ∀ w, LogIn (· = pre) w → LogIn (Trace plan) w := by
    intro w hw
    show Trace plan w.log
    rw [show w.log = pre from hw]
    exact hpre.trace
  unfold mountPhase
  apply Triple.bind (wrapping_triple ((adoptExistingMounts_triple host plan.mounts).mono
    (fun _ h => h) (fun _ _ h => h) fun _ _ h => h.mono hstart))
  intro adopted
  apply triple_of_prop
  intro hadopted
  apply triple_ite
  · intro htrue
    apply triple_pure
    intro w hw
    exact ⟨[], .inr ⟨hadopted htrue, rfl⟩, by rw [List.append_nil]; exact hw⟩
  · intro _
    apply wrapping_triple
    apply (mount_triple host pre plan.mounts).mono (fun _ h => h)
    · intro _ w hw
      exact ⟨mountEvents plan.mounts, .inl rfl, hw⟩
    · intro _ w hw
      apply hw.mono
      rintro w ⟨own, hown, hlog⟩
      show Trace plan w.log
      rw [hlog]
      exact .mounting hpre hown

theorem Plan.MountsDone.log (h : plan.MountsDone mounts) : MountLog plan.mounts mounts := by
  rcases h with rfl | ⟨-, rfl⟩
  · exact ⟨plan.mounts, [], by rw [List.append_nil], .inl rfl⟩
  · exact ⟨[], plan.mounts, rfl, .inl rfl⟩

theorem readyPhase_triple (host : Host) (hpre : plan.PreDone pre)
    (hmounts : plan.MountsDone mounts) :
    Triple (LogIn (· = pre ++ mounts)) (readyPhase host)
      (fun _ => LogIn (· = pre ++ mounts ++ [.ready])) (Blamed host (LogIn (Trace plan))) := by
  have hwrite : Triple (LogIn (· = pre ++ mounts)) (writeReady host)
      (fun _ => LogIn (· = pre ++ mounts ++ [.ready])) (Blamed host (LogIn (Trace plan))) := by
    apply call_triple
    · intro w n hw
      exact hw
    · intro w hw
      show w.log ++ [.ready] = _
      rw [show w.log = pre ++ mounts from hw]
    · intro stop w hblame hfuel hw
      refine ⟨hblame, hfuel, ?_⟩
      show Trace plan w.log
      rcases hw with hw | hw
      · rw [show w.log = _ from hw]
        exact .mounting hpre hmounts.log
      · rw [show w.log = _ from hw]
        exact .ready hpre hmounts
  unfold readyPhase
  apply Triple.bind (attempt_triple hwrite)
  intro r
  cases r with
  | ok _ => exact triple_pure
  | error e =>
    apply triple_of_prop
    intro hblame
    exact failing_triple host e hblame

theorem holdPhase_triple (host : Host) (timeoutSeconds : Int) (hpre : plan.PreDone pre)
    (hmounts : plan.MountsDone mounts) :
    Triple (LogIn (· = pre ++ mounts ++ [.ready])) (holdPhase host timeoutSeconds)
      (fun _ => LogIn (· = pre ++ mounts ++ [.ready] ++ [.workerDone]))
      (Blamed host (LogIn (Trace plan))) := by
  have hready : ∀ w, LogIn (· = pre ++ mounts ++ [.ready]) w → LogIn (Trace plan) w := by
    intro w hw
    show Trace plan w.log
    rw [show w.log = _ from hw]
    exact .ready hpre hmounts
  unfold holdPhase
  cases hhold : host.hold with
  | signal => exact record_log _
  | crash =>
    have hblame : ¬host.Reliable := by
      rintro ⟨-, hsignal⟩
      rw [hsignal] at hhold
      cases hhold
    exact triple_throw fun w hw => ⟨hblame, by simp, hready w hw⟩
  | deadline =>
    have hblame : ¬host.Reliable := by
      rintro ⟨-, hsignal⟩
      rw [hsignal] at hhold
      cases hhold
    apply triple_ite
    · intro _
      exact (failing_triple host _ hblame).mono (fun w hw => hready w hw) (fun _ _ h => h)
        (fun _ _ h => h)
    · intro _
      exact record_log _

/-- The logs of runs that come to their end. -/
def EndTrace (host : Host) (plan : Plan) (log : List Event) : Prop :=
  Trace plan log ∧ (host.Reliable → FullTrace plan log)

theorem postJobPhase_triple (host : Host) (hpre : plan.PreDone pre)
    (hmounts : plan.MountsDone mounts) :
    Triple (Shows table (pre ++ mounts ++ [.ready] ++ [.workerDone]))
      (postJobPhase host plan.postJob) (fun _ => LogIn (EndTrace host plan))
      (Blamed host (LogIn (Trace plan))) := by
  have hpost : ∀ w, PhaseEnds table (pre ++ mounts ++ [.ready] ++ [.workerDone])
      (PhaseLog plan.postJob) w → LogIn (Trace plan) w := by
    rintro w ⟨post, hlog, hshows⟩
    show Trace plan w.log
    rw [hshows.2]
    exact .post hpre hmounts hlog
  unfold postJobPhase
  apply Triple.bind (Q := fun _ => LogIn (EndTrace host plan))
  · apply (processArtifacts_triple table _ host plan.postJob true).mono (fun _ h => h)
    · intro r w hr
      cases r with
      | none =>
        obtain ⟨post, hlog, hshows⟩ := hr
        refine ⟨hpost w ⟨post, hlog.toPhaseLog, hshows⟩, fun _ => ?_⟩
        exact ⟨pre, mounts, post, hpre, hmounts, hlog, hshows.2⟩
      | some e =>
        obtain ⟨hblame, hends⟩ := hr
        exact ⟨hpost w hends, fun hreliable => absurd hreliable hblame⟩
    · intro _ w hw
      exact hw.mono hpost
  · intro _
    apply Triple.bind ((unmountAll_triple host).mono (fun _ h => h) (fun _ _ h => h)
      fun _ _ hstop => hstop.mono fun w hw => hw.1)
    intro r
    cases r with
    | none => exact triple_pure fun w hw => hw.2
    | some e => exact triple_throw fun w hw => ⟨hw.1 (by simp), by simp, hw.2.1⟩

end

/-! ## The whole run -/

def mount? : Artifact → Option Mount
  | .mount m => some m
  | _ => none

def nonMounts (artifacts : List Artifact) : List Artifact :=
  artifacts.filter fun a => mount? a = none

theorem splitMounts_eq (artifacts : List Artifact) :
    splitMounts artifacts = (artifacts.filterMap mount?, nonMounts artifacts) := by
  have hfold : ∀ (xs : List Artifact) (lists : List Mount × List Artifact),
      xs.foldl splitStep lists = (lists.1 ++ xs.filterMap mount?, lists.2 ++ nonMounts xs) := by
    intro xs
    induction xs with
    | nil => simp [nonMounts]
    | cons a xs ih =>
      intro lists
      rw [List.foldl_cons, ih]
      cases a <;> simp [mount?, nonMounts, splitStep, List.filterMap_cons]
  rw [splitMounts, hfold]
  rfl

/-- The three lists of a run and what it finds in the workspace `w`. -/
def planOf (artifacts : List Artifact) (w : World) : Plan :=
  let lists := (partition (nonMounts artifacts)).toOption.getD ([], [])
  { preJob := lists.1
    mounts := artifacts.filterMap mount?
    postJob := lists.2
    complete := w.markerArtifactsComplete
    table := w.mountTable }

/-- **Every run leaves a trace**: whatever the surroundings do, the log is one; and in
    reliable surroundings the run comes to its end. -/
theorem run_triple (host : Host) (timeoutSeconds : Int) (artifacts : List Artifact) {w₀ : World}
    (hlog : w₀.log = []) :
    Triple (fun w => w = w₀) (run host timeoutSeconds artifacts)
      (fun _ => LogIn (EndTrace host (planOf artifacts w₀)))
      (Blamed host (LogIn (Trace (planOf artifacts w₀)))) := by
  obtain ⟨marked, -, hpart⟩ := partition_spec (nonMounts artifacts)
  set plan := planOf artifacts w₀ with hplan
  have hlists : partition (nonMounts artifacts) = .ok (plan.preJob, plan.postJob) := by
    rw [hplan, planOf, hpart]
    rfl
  unfold run
  rw [splitMounts_eq]
  show Triple _ (total (partition (nonMounts artifacts)) >>= _) _ _
  rw [hlists]
  -- the phases in order, once the lists are known
  show Triple _ (clearReady host >>= fun _ => preJobPhase host plan.preJob >>= fun _ =>
    mountPhase host plan.mounts >>= fun _ => readyPhase host >>= fun _ =>
    holdPhase host timeoutSeconds >>= fun _ => postJobPhase host plan.postJob) _ _
  apply Triple.bind (Q := fun _ w => w.markerArtifactsComplete = plan.complete ∧
    Shows plan.table [] w)
  · apply Triple.pre (P := fun w => w.markerArtifactsComplete = plan.complete ∧
      Shows plan.table [] w) _ (by rintro w rfl; exact ⟨rfl, rfl, hlog⟩)
    refine call_keeps ?_
    intro w hw
    show Trace plan w.log
    rw [hw.2.2]
    exact .pre (PhaseLog.nil _)
  intro _
  apply Triple.bind (preJobPhase_triple host plan)
  intro _
  apply triple_exists
  intro pre
  apply triple_of_prop
  intro hpre
  apply Triple.bind (mountPhase_triple host hpre)
  intro _
  apply triple_exists
  intro mounts
  apply triple_of_prop
  intro hmounts
  apply Triple.bind (readyPhase_triple host hpre hmounts)
  intro _
  apply Triple.bind (holdPhase_triple host timeoutSeconds hpre hmounts)
  intro _
  apply triple_of_states
  intro w hw
  apply (postJobPhase_triple host hpre hmounts).pre
  rintro w' rfl
  exact ⟨rfl, hw⟩

end Orchestrator.Sidecar

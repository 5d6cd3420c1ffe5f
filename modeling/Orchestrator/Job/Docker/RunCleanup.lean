/-
  Orchestrator.Job.Docker.RunCleanup

  What a failing `Run` leaves behind.

  The deferred function of `Run` cleans up with the handle it finds in the store, and the
  store has the call's handle only after `Commit`, which is past the last failure.  So
  nothing the call created is ever asked to be removed.
-/

import Mathlib.Logic.Function.Iterate
import Orchestrator.Job.Docker.Calls

namespace Orchestrator.Job.Docker

open Lifecycle

/-- Which operations of one `Run` call succeed. -/
structure Outcomes where
  workspace : Bool
  pullImage : Bool
  createJob : Bool
  pullSidecar : Bool
  createSidecar : Bool
  startSidecar : Bool
  /-- The removal calls of the deferred function. -/
  removes : Bool
  hostDir : String
  now : Nat
  deriving DecidableEq, Repr

def Outcomes.ok (o : Outcomes) : Stage → Bool
  | .workspace => o.workspace
  | .pullImage => o.pullImage
  | .createJob => o.createJob
  | .pullSidecar => o.pullSidecar
  | .createSidecar => o.createSidecar
  | .startSidecar => o.startSidecar
  | .cleanup _ _ => o.removes
  | _ => true

namespace System

/-- The next operation of call `0`, with the outcome chosen for it. -/
def next (o : Outcomes) (s : System) : System :=
  (s.runStep 0 ⟨o.ok (s.runs 0).stage, o.hostDir, o.now⟩).1

/-- A `Run` call by itself, next to whatever containers and volume stand under the job's
    names. -/
def alone (id : String) (hasMounts : Bool) (worker sidecar : Option Container) (volume : Bool) :
    System :=
  { newSystem id (fun _ => hasMounts) with worker := worker, sidecar := sidecar, volume := volume }

/-- `Run` from its call to its return: no path makes more than twelve operations. -/
def runCall (o : Outcomes) (s : System) : System := (next o)^[12] s

/-- Everything the call created has been asked to be removed, and the id is free. -/
def Cleaned (s : System) : Prop :=
  (∀ x ∈ (s.runs 0).created, x ∈ s.asked) ∧ s.store.entries s.id = none

/-! ## The invariant of a call by itself -/

/-- Nothing is created by a call that starts in `s₀`: it gets no workspace or, where the
    volume is there already, no worker container. -/
def Barren (o : Outcomes) (s₀ : System) : Prop :=
  o.workspace = false ∨
    (s₀.runs 0).hasMounts = false ∧ s₀.volume = true ∧
      ¬ (o.pullImage = true ∧ o.createJob = true ∧ s₀.worker = none)

/-- The store holds the reservation, with no handle yet. -/
def Reserved (s : System) : Prop :=
  ∃ e, s.store.entries s.id = some e ∧ e.handle = default

/-- What has been created tells whether anything was. -/
def Made (o : Outcomes) (s s₀ : System) : Prop := (s.runs 0).created = [] ↔ Barren o s₀

/-- In front of the workspace. -/
def Untouched (s s₀ : System) : Prop :=
  (s.runs 0).created = [] ∧ (s.runs 0).hasMounts = (s₀.runs 0).hasMounts ∧
    s.volume = s₀.volume ∧ s.worker = s₀.worker

/-- Past the workspace, in front of the worker container. -/
def Housed (o : Outcomes) (s s₀ : System) : Prop :=
  ((s.runs 0).created = [] ↔ (s₀.runs 0).hasMounts = false ∧ s₀.volume = true) ∧
    o.workspace = true ∧ s.worker = s₀.worker

/-- Past the worker container. -/
def Built (o : Outcomes) (s s₀ : System) : Prop :=
  (s.runs 0).created ≠ [] ∧ ¬ Barren o s₀

/-- What holds at each operation of the call. -/
def AtStage (o : Outcomes) (s s₀ : System) : Prop :=
  match (s.runs 0).stage with
  | .reserve => s.Untouched s₀ ∧ s.store.entries s.id = none
  | .workspace => s.Untouched s₀ ∧ s.Reserved
  | .pullImage => s.Housed o s₀ ∧ s.Reserved
  | .createJob => (s.Housed o s₀ ∧ o.pullImage = true) ∧ s.Reserved
  | .pullSidecar | .createSidecar | .startSidecar => s.Built o s₀ ∧ s.Reserved
  | .release _ => s.Made o s₀ ∧ s.Reserved
  | .commit | .watch | .returned none => True
  | .cleanup rest _ => rest = [] ∧ s.Made o s₀ ∧ s.store.entries s.id = none
  | .returned (some _) => s.Made o s₀ ∧ s.store.entries s.id = none

def left (s : System) : Nat :=
  match (s.runs 0).stage with
  | .reserve => 12
  | .workspace => 11
  | .pullImage => 10
  | .createJob => 9
  | .pullSidecar => 8
  | .createSidecar => 7
  | .startSidecar => 6
  | .commit => 5
  | .watch => 4
  | .release _ => 2
  | .cleanup _ _ => 1
  | .returned _ => 0

section

variable (s : System) (r : Nat) (c : RunCall)
include s r c

@[simp] theorem setRun_runs_self :
    (s.setRun r c).runs r = c := by
  simp [setRun]

@[simp] theorem setRun_store :
    (s.setRun r c).store = s.store := rfl

@[simp] theorem setRun_id : (s.setRun r c).id = s.id := rfl

@[simp] theorem setRun_worker : (s.setRun r c).worker = s.worker := rfl

@[simp] theorem setRun_volume : (s.setRun r c).volume = s.volume := rfl

end

variable {o : Outcomes} {s s₀ : System}

theorem atStage_release (hm : s.Made o s₀) (hr : s.Reserved) (err : String) :
    (s.goto 0 (.release err)).AtStage o s₀ := by
  simpa [AtStage, goto, Made, Reserved] using ⟨hm, hr⟩

theorem Built.made (h : s.Built o s₀) : s.Made o s₀ := by
  simp [Made, h.1, h.2]

theorem Housed.made (h : s.Housed o s₀)
    (hfail : ¬ (o.pullImage = true ∧ o.createJob = true ∧ s₀.worker = none)) : s.Made o s₀ := by
  rw [Made, h.1, Barren, h.2.1]
  simp [hfail]

/-- Every operation of the call keeps the invariant, asks for no removal, and leaves fewer
operations to make. -/
theorem next_spec (h : s.AtStage o s₀) (ha : s.asked = []) :
    (s.next o).AtStage o s₀ ∧ (s.next o).asked = [] ∧ (s.next o).left ≤ s.left - 1 := by
  cases hst : (s.runs 0).stage with
  | reserve =>
    simp only [AtStage, hst] at h
    simp only [next, runStep, hst, MemoryStore.reserve, h.2]
    refine ⟨?_, ha, by simp [left, goto, hst]⟩
    simpa [AtStage, goto, Untouched, Reserved] using h.1
  | workspace =>
    simp only [AtStage, hst] at h
    obtain ⟨⟨hc, hmounts, hvolume, hworker⟩, e, he, hz⟩ := h
    simp only [next, runStep, hst, Outcomes.ok]
    repeat' split
    all_goals
      refine ⟨?_, ha, by simp [left, goto, hst]⟩
      simp_all [AtStage, goto, Housed, Made, Barren, Reserved]
  | pullImage =>
    simp only [AtStage, hst] at h
    simp only [next, runStep, hst]
    split
    · rename_i hok
      refine ⟨?_, ha, by simp [left, goto, hst]⟩
      simpa [AtStage, goto, Housed, Reserved] using ⟨⟨h.1, hok⟩, h.2⟩
    · rename_i hfail
      exact ⟨atStage_release (h.1.made fun hc => hfail hc.1) h.2 _, ha, by simp [left, goto, hst]⟩
  | createJob =>
    simp only [AtStage, hst] at h
    obtain ⟨⟨hhoused, hpulled⟩, hr⟩ := h
    simp only [next, runStep, hst, Outcomes.ok, hhoused.2.2]
    split
    · rename_i hok
      refine ⟨?_, ha, by simp [left, setRun, hst]⟩
      have hmade : o.createJob = true ∧ s₀.worker = none := by simpa using hok
      simpa [AtStage, Built, Barren, Reserved, hhoused.2.1, hpulled, hmade] using hr
    · rename_i hfail
      refine ⟨atStage_release (hhoused.made fun hc => hfail ?_) hr _, ha, by simp [left, goto, hst]⟩
      simp [hc.2]
  | pullSidecar =>
    simp only [AtStage, hst] at h
    simp only [next, runStep, hst]
    split
    · refine ⟨?_, ha, by simp [left, goto, hst]⟩
      simpa [AtStage, goto, Built, Reserved] using h
    · exact ⟨atStage_release h.1.made h.2 _, ha, by simp [left, goto, hst]⟩
  | createSidecar =>
    simp only [AtStage, hst] at h
    simp only [next, runStep, hst]
    split
    · refine ⟨?_, ha, by simp [left, setRun, hst]⟩
      simpa [AtStage, Built, Reserved] using ⟨h.1.2, h.2⟩
    · exact ⟨atStage_release h.1.made h.2 _, ha, by simp [left, goto, hst]⟩
  | startSidecar =>
    simp only [AtStage, hst] at h
    simp only [next, runStep, hst]
    split
    · exact ⟨by simp [AtStage, goto], ha, by simp [left, goto, hst]⟩
    · exact ⟨atStage_release h.1.made h.2 _, ha, by simp [left, goto, hst]⟩
  | commit | watch =>
    simp only [next, runStep, hst]
    exact ⟨by simp [AtStage, goto], ha, by simp [left, goto, hst]⟩
  | release err =>
    simp only [AtStage, hst] at h
    obtain ⟨hm, e, he, hz⟩ := h
    -- the handle found in the store is the zero one: there is nothing to clean up
    simp only [next, runStep, hst, MemoryStore.release, he, hz]
    refine ⟨?_, ha, by simp [left, goto, hst]⟩
    refine ⟨by rfl, ?_, by simp [goto]⟩
    simpa [goto, Made] using hm
  | cleanup rest err =>
    simp only [AtStage, hst] at h
    obtain ⟨rfl, hm, hfree⟩ := h
    simp only [next, runStep, hst]
    refine ⟨?_, ha, by simp [left, goto, hst]⟩
    simpa [AtStage, goto, Made] using ⟨hm, hfree⟩
  | returned res =>
    simp only [next, runStep, hst]
    exact ⟨h, ha, by simp [left, hst]⟩

theorem iterate_next_spec (h : s.AtStage o s₀) (ha : s.asked = []) (n : Nat) :
    ((next o)^[n] s).AtStage o s₀ ∧ ((next o)^[n] s).asked = [] ∧
      ((next o)^[n] s).left ≤ s.left - n := by
  induction n generalizing s with
  | zero => exact ⟨h, ha, by simp⟩
  | succ n ih =>
    obtain ⟨h', ha', hle⟩ := next_spec h ha
    obtain ⟨h'', ha'', hle'⟩ := ih h' ha'
    rw [Function.iterate_succ_apply]
    exact ⟨h'', ha'', by omega⟩

/-- `Run` returns, whatever fails, a daemon call that fails being without effect; and a `Run`
that returns an error has cleaned up after itself exactly if it has created nothing: the
creation of the workspace failed or, where the volume was there before, the image or the
container of the worker did. -/
theorem runCall_cleaned_iff (o : Outcomes) (id : String) (hasMounts : Bool)
    (worker sidecar : Option Container) (volume : Bool) :
    ∃ res, ((runCall o (alone id hasMounts worker sidecar volume)).runs 0).stage = .returned res ∧
      ∀ err, res = some err →
        ((runCall o (alone id hasMounts worker sidecar volume)).Cleaned ↔
          Barren o (alone id hasMounts worker sidecar volume)) := by
  generalize hs₀ : alone id hasMounts worker sidecar volume = s₀
  have hstart : s₀.AtStage o s₀ := by
    rw [← hs₀]
    exact ⟨⟨rfl, rfl, rfl, rfl⟩, rfl⟩
  obtain ⟨hend, ha, hle⟩ := iterate_next_spec hstart (by rw [← hs₀]; rfl) 12
  have hfirst : s₀.left = 12 := by rw [← hs₀]; rfl
  generalize hs : (next o)^[12] s₀ = s at hend ha hle
  simp only [runCall, hs]
  have hzero : s.left = 0 := by omega
  cases hst : (s.runs 0).stage with
  | returned res =>
    refine ⟨res, rfl, ?_⟩
    rintro err rfl
    simp only [AtStage, hst] at hend
    obtain ⟨hmade, hfree⟩ := hend
    -- nothing has been asked for, so only a call that created nothing is clean
    rw [Made] at hmade
    rw [Cleaned, ha, ← hmade]
    simp [hfree, List.eq_nil_iff_forall_not_mem]
  | cleanup rest err | release err | _ => simp [left, hst] at hzero

/-- Everything works but the start of the sidecar. -/
def sidecarStartFails : Outcomes :=
  { workspace := true, pullImage := true, createJob := true, pullSidecar := true,
    createSidecar := true, startSidecar := false, removes := true, hostDir := "", now := 0 }

/-- The sidecar does not start: `Run` fails and leaves the volume and both containers. -/
theorem failed_start_not_cleaned :
    ((runCall sidecarStartFails (alone "a" false none none false)).runs 0).stage =
        .returned (some "docker.startSidecarContainer") ∧
      ((runCall sidecarStartFails (alone "a" false none none false)).runs 0).created =
        [.volume "job-a-workspace", .worker 0, .sidecar 0] ∧
      ¬ (runCall sidecarStartFails (alone "a" false none none false)).Cleaned := by
  refine ⟨by decide, by decide, fun hclean => ?_⟩
  have hworker := hclean.1 (.worker 0) (by decide)
  exact absurd hworker (by decide)

end System
end Orchestrator.Job.Docker

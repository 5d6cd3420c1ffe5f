/-
  Orchestrator.Job.Docker.RunView

  One run among interleaved `Run` and `Stop` calls on its job id.

  What an interleaving does to one run is read off its `View`: the call's own state, its
  containers, its watch, and whether the store holds its reservation.  `RunOK` is what
  holds of every view, `StopOK` what a `Stop` call in progress relies on, and `Later` what
  may change of a view under it.  The module shows what each step of a `Run` call does to
  its own view; the views of the other runs it leaves alone.
-/

import Orchestrator.Job.Docker.Calls

namespace Orchestrator.Job.Docker

open Lifecycle Lib.Machine Stage Docker.System

/-! ## Stages -/

namespace Stage

/-- The call has its reservation and has not committed its handle. -/
def pending : Stage → Bool
  | .workspace | .pullImage | .createJob | .pullSidecar | .createSidecar | .startSidecar => true
  | .commit | .release _ => true
  | _ => false

def committed : Stage → Bool
  | .watch | .returned none => true
  | _ => false

def failed : Stage → Bool
  | .cleanup _ _ | .returned (some _) => true
  | _ => false

def hasWorker : Stage → Bool
  | .pullSidecar | .createSidecar | .startSidecar | .commit | .watch | .returned none => true
  | _ => false

def hasSidecar : Stage → Bool
  | .startSidecar | .commit | .watch | .returned none => true
  | _ => false

variable {st : Stage}

theorem not_committed (h : st.pending = true) : st.committed = false := by
  cases st <;> simp_all [pending, committed]

theorem not_failed (h : st.pending = true) : st.failed = false := by
  cases st <;> simp_all [pending, failed]

theorem kinds (st : Stage) :
    st = .reserve ∨ st.pending = true ∨ st.committed = true ∨ st.failed = true := by
  cases st with
  | returned err => cases err <;> simp [committed, failed]
  | _ => simp [pending, committed, failed]

theorem has_of_committed (h : st.committed = true) :
    st.hasWorker = true ∧ st.hasSidecar = true := by
  cases st with
  | returned err => cases err <;> simp_all [committed, hasWorker, hasSidecar]
  | _ => simp_all [committed, hasWorker, hasSidecar]

theorem pending_at {st' : Stage} (hst : st' = st) (h : st.pending = true := by rfl) :
    st'.pending = true := hst ▸ h

theorem pending_ne (h : st.pending = true) :
    st ≠ .reserve ∧ st ≠ .returned none ∧ ∀ rest err, st ≠ .cleanup rest err := by
  cases st <;> simp_all [pending]

end Stage

/-! ## The view of one run -/

structure View where
  stage : Stage
  h : DockerHandle
  owns : Prop
  cancelled : Bool
  watching : Bool
  /-- Whether the run's container runs; `none` if there is none. -/
  worker : Option Bool
  sidecar : Option Bool

/-- A container slot as run `r` sees it. -/
def slot (c : Option Container) (r : Nat) : Option Bool :=
  c.bind fun c => if c.owner = r then some c.running else none

@[simp] theorem slot_none (r : Nat) : slot none r = none := rfl

@[simp] theorem slot_self (r : Nat) (b : Bool) : slot (some ⟨r, b⟩) r = some b := by
  simp [slot]

theorem slot_other {r r' : Nat} (h : r ≠ r') (b : Bool) : slot (some ⟨r, b⟩) r' = none := by
  simp [slot, h]

variable {c : Option Container}

theorem slot_eq_some {r : Nat} {b : Bool} (h : slot c r = some b) :
    c = some ⟨r, b⟩ := by
  obtain _ | ⟨owner, running⟩ := c
  · simp at h
  by_cases ho : owner = r
  · subst ho
    simpa [slot] using h
  · simp [slot, ho] at h

theorem slot_of_any {r : Nat} (h : c.any (·.owner = r) = true) :
    ∃ b, c = some ⟨r, b⟩ := by
  obtain _ | ⟨owner, running⟩ := c
  · simp at h
  · obtain rfl : owner = r := by simpa using h
    exact ⟨running, rfl⟩

theorem slot_unique {r r' : Nat} (h : (slot c r).isSome) (hne : r ≠ r') :
    slot c r' = none := by
  obtain ⟨b, hb⟩ := Option.isSome_iff_exists.mp h
  rw [slot_eq_some hb]
  exact slot_other hne b

def System.view (s : System) (r : Nat) : View :=
  { stage := (s.runs r).stage
    h := (s.runs r).h
    owns := s.owner = some r
    cancelled := s.cancelled r
    watching := s.watching r
    worker := slot s.worker r
    sidecar := slot s.sidecar r }

structure RunOK (r : Nat) (v : View) : Prop where
  pending_owns : v.stage.pending = true → v.owns
  owns_stage : v.owns → v.stage.pending = true ∨ v.stage.committed = true
  owns_live : v.owns → v.cancelled = false
  worker_runs : v.worker = some true → v.stage.committed = true
  sidecar_runs : v.sidecar = some true → v.stage = .commit ∨ v.stage.committed = true
  worker_id : v.stage.hasWorker = true → v.h.jobContainerID = some r
  sidecar_id : v.stage.hasSidecar = true → v.h.sidecarContainerID = some r
  worker_there : v.stage.hasWorker = true → v.cancelled = false → v.worker.isSome
  sidecar_there : v.stage.hasSidecar = true → v.cancelled = false → v.sidecar.isSome
  watching_stage : v.watching = true → v.stage = .returned none
  cancelled_stage : v.cancelled = true → v.stage.committed = true
  cleanup_nil : ∀ rest err, v.stage = .cleanup rest err → rest = []

/-- Nothing of the run is left that runs or could be started. -/
def View.Settled (v : View) : Prop :=
  v.stage.failed = true ∨
    (v.stage.committed = true ∧ v.cancelled = true ∧ v.worker = none ∧ v.sidecar = none)

/-- No container of the run runs and its watch is not active. -/
def View.Quiet (v : View) : Prop :=
  v.worker ≠ some true ∧ v.sidecar ≠ some true ∧ ¬ (v.watching = true ∧ v.cancelled = false)

variable {v : View}

theorem View.Settled.quiet {r : Nat} (h : v.Settled) (hok : RunOK r v) : v.Quiet := by
  rcases h with hfailed | ⟨-, hc, hw, hs⟩
  · -- a failed call is not committed, so nothing of it was ever started
    have hnot : v.stage.committed = false ∧ v.stage ≠ .commit ∧ v.stage ≠ .returned none := by
      cases hst : v.stage with
      | returned err => cases err <;> simp_all [failed, committed]
      | _ => simp_all [failed, committed]
    refine ⟨fun hw => ?_, fun hs => ?_, fun ⟨hwatch, _⟩ => ?_⟩
    · exact absurd (hok.worker_runs hw) (by simp [hnot.1])
    · exact (hok.sidecar_runs hs).elim hnot.2.1 (by simp [hnot.1])
    · exact hnot.2.2 (hok.watching_stage hwatch)
  · exact ⟨by simp [hw], by simp [hs], fun ⟨_, h⟩ => absurd hc (by simp [h])⟩

/-- What steps may change of a run that is committed or has failed. -/
structure Later (v v' : View) : Prop where
  failed : v.stage.failed = true → v'.stage.failed = true
  committed : v.stage.committed = true → v'.stage.committed = true ∧ v'.h = v.h
  owns : v.stage.committed = true → ¬ v.owns → ¬ v'.owns
  cancelled : v.cancelled = true → v'.cancelled = true
  worker : v.stage.committed = true → v.worker = none → v'.worker = none
  sidecar : v.stage.committed = true → v.sidecar = none → v'.sidecar = none

theorem Later.refl (v : View) : Later v v :=
  ⟨id, fun h => ⟨h, rfl⟩, fun _ => id, id, fun _ => id, fun _ => id⟩

variable {v' : View}

theorem Later.settled (h : Later v v') (hs : v.Settled) : v'.Settled := by
  rcases hs with hf | ⟨hc, hx, hw, hs⟩
  · exact .inl (h.failed hf)
  · exact .inr ⟨(h.committed hc).1, h.cancelled hx, h.worker hc hw, h.sidecar hc hs⟩

/-! ## The invariant -/

def EntryOK (s : System) : Prop :=
  match s.owner with
  | none => s.store.entries s.id = none
  | some r =>
    ∃ e, s.store.entries s.id = some e ∧
      if (s.runs r).stage.committed then e.handle = (s.runs r).h ∧ e.cancelWatch = some r
      else e.handle = default ∧ e.cancelWatch = none

/-- What a `Stop` call in progress has taken, and what it has still to do. -/
def StopOK (s : System) (c : StopCall) : Prop :=
  match c.stage with
  | .cancel h =>
    ∃ r, h = ⟨some r, (s.view r).h⟩ ∧ (s.view r).stage.committed = true ∧
      ¬ (s.view r).owns ∧ ∀ i ∈ c.after, i = r ∨ (s.view i).Settled
  | .cleanup rest =>
    ∃ r, (s.view r).stage.committed = true ∧ (s.view r).cancelled = true ∧
      ((s.view r).worker.isSome → .worker r ∈ rest) ∧
      ((s.view r).sidecar.isSome → .sidecar r ∈ rest) ∧
      (∀ i, .worker i ∈ rest → i = r) ∧ (∀ i, .sidecar i ∈ rest → i = r) ∧
      ∀ i ∈ c.after, i = r ∨ (s.view i).Settled
  | .returned none => ∀ i ∈ c.after, (s.view i).Settled
  | _ => True

structure Orderly (s : System) (freed : List System.Freed) : Prop where
  runs : ∀ r, RunOK r (s.view r)
  stops : ∀ t, StopOK s (s.stops t)
  entry : EntryOK s
  accepted : ∀ r ∈ s.accepted, (s.view r).stage ≠ .reserve
  freed : ∀ f ∈ freed, f.owner = some f.run

theorem StopOK.later {s s' : System} {c : StopCall} (h : StopOK s c)
    (hl : ∀ r, Later (s.view r) (s'.view r)) : StopOK s' c := by
  unfold StopOK at h ⊢
  split at h
  · obtain ⟨r, rfl, hc, ho, hafter⟩ := h
    refine ⟨r, by rw [((hl r).committed hc).2], ((hl r).committed hc).1, (hl r).owns hc ho, ?_⟩
    exact fun i hi => (hafter i hi).imp_right (hl i).settled
  · obtain ⟨r, hc, hx, hw, hs, hw', hs', hafter⟩ := h
    refine ⟨r, ((hl r).committed hc).1, (hl r).cancelled hx, ?_, ?_, hw', hs', ?_⟩
    · intro hsome
      apply hw
      by_contra hnone
      rw [(hl r).worker hc (by simpa using hnone)] at hsome
      simp at hsome
    · intro hsome
      apply hs
      by_contra hnone
      rw [(hl r).sidecar hc (by simpa using hnone)] at hsome
      simp at hsome
    · exact fun i hi => (hafter i hi).imp_right (hl i).settled
  · exact fun i hi => (hl i).settled (h i hi)
  · trivial

/-! ## Steps of Run -/

structure RunEffect (s s' : System) (r : Nat) : Prop where
  others : ∀ i, i ≠ r → s'.view i = s.view i
  self : RunOK r (s'.view r)
  later : Later (s.view r) (s'.view r)
  stops : s'.stops = s.stops
  entry : EntryOK s'
  accepted : ∀ i ∈ s'.accepted, i ∈ s.accepted ∨ i = r
  begun : (s'.view r).stage ≠ .reserve

/-- The volume is no part of what a call sees of itself. -/
theorem RunEffect.volume {s s' : System} {r : Nat} (h : RunEffect s s' r) (volume : Bool) :
    RunEffect s { s' with volume := volume } r :=
  ⟨h.others, h.self, h.later, h.stops, h.entry, h.accepted, h.begun⟩

theorem view_setRun_other {s : System} {r i : Nat} (h : i ≠ r) (c : RunCall) :
    (s.setRun r c).view i = s.view i := by
  simp [view, System.setRun, h]

theorem view_setRun_self (s : System) (r : Nat) (c : RunCall) :
    (s.setRun r c).view r = { s.view r with stage := c.stage, h := c.h } := by
  simp [view, System.setRun]

variable {s : System} {r : Nat}

/-- No `Stop` call depends on a run that is neither committed nor failed. -/
theorem later_of_uncommitted (hnc : v.stage.committed = false) (hnf : v.stage.failed = false)
    (hc : v.cancelled = false) : Later v v' :=
  { failed := by simp [hnf]
    committed := by simp [hnc]
    owns := by simp [hnc]
    cancelled := by simp [hc]
    worker := by simp [hnc]
    sidecar := by simp [hnc] }

theorem later_of_pending (h : RunOK r v) (hp : v.stage.pending = true) :
    Later v v' :=
  later_of_uncommitted (not_committed hp) (not_failed hp)
    (h.owns_live (h.pending_owns hp))

/-- Before its commit a call has nothing that runs, but for the sidecar at the commit. -/
theorem RunOK.not_running (h : RunOK r v) (hnc : v.stage.committed = false) :
    v.worker ≠ some true ∧ (v.sidecar = some true → v.stage = .commit) := by
  constructor
  · intro hrun
    exact absurd (h.worker_runs hrun) (by simp [hnc])
  · intro hrun
    exact (h.sidecar_runs hrun).resolve_right (by simp [hnc])

/-- A pending call's view after a step, if the step leaves its containers to it. -/
theorem RunOK.pending_step (h : RunOK r v) (hold : v.stage.pending = true)
    (hnew : v'.stage.pending = true) (howns : v'.owns) (hcan : v'.cancelled = v.cancelled)
    (hwatch : v'.watching = v.watching) (hwrun : v'.worker ≠ some true)
    (hsrun : v'.sidecar = some true → v'.stage = .commit)
    (hw : v'.stage.hasWorker = true → v'.h.jobContainerID = some r ∧ v'.worker.isSome)
    (hs : v'.stage.hasSidecar = true → v'.h.sidecarContainerID = some r ∧ v'.sidecar.isSome) :
    RunOK r v' := by
  have hlive := h.owns_live (h.pending_owns hold)
  exact
    { pending_owns := fun _ => howns
      owns_stage := fun _ => .inl hnew
      owns_live := fun _ => hcan.trans hlive
      worker_runs := fun hrun => absurd hrun hwrun
      sidecar_runs := fun hrun => .inl (hsrun hrun)
      worker_id := fun hx => (hw hx).1
      sidecar_id := fun hx => (hs hx).1
      worker_there := fun hx _ => (hw hx).2
      sidecar_there := fun hx _ => (hs hx).2
      watching_stage := fun hx =>
        absurd (h.watching_stage (hwatch ▸ hx)) (pending_ne hold).2.1
      cancelled_stage := fun hx => absurd (hcan ▸ hx) (by simp [hlive])
      cleanup_nil := fun rest err hx => absurd hx ((pending_ne hnew).2.2 rest err) }

theorem RunOK.live (h : RunOK r v) (hnc : v.stage.committed = false) : v.cancelled = false := by
  by_contra hx
  exact absurd (h.cancelled_stage (by simpa using hx)) (by simp [hnc])

/-- A call that is not committed goes to a stage that needs no container. -/
theorem RunOK.bare_step (h : RunOK r v) (hnc : v.stage.committed = false) (hne : v.stage ≠ .commit)
    {st : Stage} {owns : Prop} (howns : owns ↔ st.pending = true) (hw : st.hasWorker = false)
    (hs : st.hasSidecar = false) (hnil : ∀ rest err, st = .cleanup rest err → rest = []) :
    RunOK r { v with stage := st, owns := owns } :=
  { pending_owns := howns.mpr
    owns_stage := fun hx => .inl (howns.mp hx)
    owns_live := fun _ => h.live hnc
    worker_runs := fun hx => absurd hx (h.not_running hnc).1
    sidecar_runs := fun hx => absurd ((h.not_running hnc).2 hx) hne
    worker_id := by simp [hw]
    sidecar_id := by simp [hs]
    worker_there := by simp [hw]
    sidecar_there := by simp [hs]
    watching_stage := fun hx => absurd hnc (by simp [h.watching_stage hx, committed])
    cancelled_stage := by simp [h.live hnc]
    cleanup_nil := hnil }

/-- A call with both containers commits, or goes on after its commit. -/
theorem RunOK.committed_step (h : RunOK r v) (hw : v.stage.hasWorker = true)
    (hs : v.stage.hasSidecar = true) {st : Stage} {watching : Bool} (hnew : st.committed = true)
    (hwatch : watching = true → st = .returned none) :
    RunOK r { v with stage := st, watching := watching } :=
  { pending_owns := fun hx => absurd hnew (by simp [not_committed hx])
    owns_stage := fun _ => .inr hnew
    owns_live := h.owns_live
    worker_runs := fun _ => hnew
    sidecar_runs := fun _ => .inr hnew
    worker_id := fun _ => h.worker_id hw
    sidecar_id := fun _ => h.sidecar_id hs
    worker_there := fun _ => h.worker_there hw
    sidecar_there := fun _ => h.sidecar_there hs
    watching_stage := hwatch
    cancelled_stage := fun _ => hnew
    cleanup_nil := fun rest err hx => by
      simp only at hx
      simp [hx, committed] at hnew }

theorem EntryOK.setRun (he : EntryOK s) {c : RunCall} (hc : s.owner = some r →
      c.stage.committed = (s.runs r).stage.committed ∧ c.h = (s.runs r).h) :
    EntryOK (s.setRun r c) := by
  unfold EntryOK at he ⊢
  simp only [System.setRun]
  cases ho : s.owner with
  | none =>
    rw [ho] at he
    exact he
  | some i =>
    rw [ho] at he
    by_cases hi : i = r
    · subst hi
      simpa [hc ho] using he
    · simpa [hi] using he

/-- A step of call `r` that touches only its own record and containers. -/
structure Own (s s' : System) (r : Nat) : Prop where
  runs : ∀ i, i ≠ r → s'.runs i = s.runs i
  owner : s'.owner = s.owner
  cancelled : s'.cancelled = s.cancelled
  watching : s'.watching = s.watching
  stops : s'.stops = s.stops
  store : s'.store = s.store
  id : s'.id = s.id
  accepted : s'.accepted = s.accepted
  worker : ∀ i, i ≠ r → slot s'.worker i = slot s.worker i
  sidecar : ∀ i, i ≠ r → slot s'.sidecar i = slot s.sidecar i

theorem own_setRun (s : System) (r : Nat) (c : RunCall) : Own s (s.setRun r c) r := by
  refine ⟨fun i hi => ?_, rfl, rfl, rfl, rfl, rfl, rfl, rfl, fun _ _ => rfl, fun _ _ => rfl⟩
  simp [System.setRun, hi]

section

variable (h : RunOK r (s.view r)) (he : EntryOK s)
include h he

/-- A pending call makes a container, starts its sidecar, or just goes on. -/
theorem effect_own {s' : System} (hown : Own s s' r) (hold : (s.view r).stage.pending = true)
    (hnew : (s'.view r).stage.pending = true) (hwrun : (s'.view r).worker ≠ some true)
    (hsrun : (s'.view r).sidecar = some true → (s'.view r).stage = .commit)
    (hw : (s'.view r).stage.hasWorker = true →
      (s'.view r).h.jobContainerID = some r ∧ (s'.view r).worker.isSome)
    (hs : (s'.view r).stage.hasSidecar = true →
      (s'.view r).h.sidecarContainerID = some r ∧ (s'.view r).sidecar.isSome) :
    RunEffect s s' r := by
  have howns : s.owner = some r := h.pending_owns hold
  refine
    { others := fun i hi => ?_
      self := ?_
      later := later_of_pending h hold
      stops := hown.stops
      entry := ?_
      accepted := fun i hi => .inl (hown.accepted ▸ hi)
      begun := (pending_ne hnew).1 }
  · simp only [view, hown.runs i hi, hown.owner, hown.cancelled, hown.watching,
      hown.worker i hi, hown.sidecar i hi]
  · exact h.pending_step hold hnew (hown.owner.trans howns) (congrFun hown.cancelled r)
      (congrFun hown.watching r) hwrun hsrun hw hs
  · -- before the commit the store knows nothing of the call's record
    rw [EntryOK, howns] at he
    rw [EntryOK, hown.owner, howns, hown.store, hown.id]
    obtain ⟨e, he, hz⟩ := he
    have hold' : (s.runs r).stage.committed = false := not_committed hold
    have hnew' : (s'.runs r).stage.committed = false := not_committed hnew
    rw [hold', if_neg (by simp)] at hz
    refine ⟨e, he, ?_⟩
    rw [hnew', if_neg (by simp)]
    exact hz

theorem effect_setRun {c : RunCall} (hold : (s.view r).stage.pending = true)
    (hnc : (s.view r).stage ≠ .commit) (hnew : c.stage.pending = true)
    (hw : c.stage.hasWorker = true → (s.view r).stage.hasWorker = true ∧
      c.h.jobContainerID = (s.view r).h.jobContainerID) (hs : c.stage.hasSidecar = false) :
    RunEffect s (s.setRun r c) r := by
  have hlive := h.owns_live (h.pending_owns hold)
  have hrun := h.not_running (not_committed hold)
  have hv := view_setRun_self s r c
  apply effect_own h he (own_setRun s r c) hold
  · rw [hv]
    exact hnew
  · rw [hv]
    exact hrun.1
  · rw [hv]
    exact fun hx => absurd (hrun.2 hx) hnc
  · rw [hv]
    intro hx
    obtain ⟨hx', hid⟩ := hw hx
    exact ⟨hid.trans (h.worker_id hx'), h.worker_there hx' hlive⟩
  · rw [hv]
    exact fun hx => absurd hx (by simp [hs])

theorem effect_reserve {store : MemoryStore DockerHandle Nat} {now : Nat}
    (hst : (s.view r).stage = .reserve) (hres : s.store.reserve now s.id = .ok store) :
    RunEffect s
      { s.goto r .workspace with
        store := store, owner := some r, accepted := s.accepted ++ [r] } r := by
  -- the id was free, so no run had a reservation
  have hfree : s.owner = none := by
    unfold EntryOK at he
    cases ho : s.owner with
    | none => rfl
    | some i =>
      rw [ho] at he
      obtain ⟨e, he, -⟩ := he
      simp [MemoryStore.reserve, he] at hres
  have hentry : ∃ e, store.entries s.id = some e ∧ e.handle = default ∧ e.cancelWatch = none := by
    rw [EntryOK, hfree] at he
    rw [MemoryStore.reserve, he] at hres
    cases hres
    exact ⟨_, MemoryStore.entries_set_self s.store s.id _, rfl, rfl⟩
  have hnot : (s.view r).stage.committed = false := by rw [hst]; rfl
  refine
    { others := fun i hi => ?_
      self := ?_
      later := ?_
      stops := rfl
      entry := ?_
      accepted := fun i hi => by simpa using hi
      begun := by simp [view, goto, System.setRun] }
  · simp [view, goto, System.setRun, hi, hfree, Ne.symm hi]
  · simp only [view, goto, System.setRun, if_true]
    exact h.bare_step hnot (by simp [hst]) (by simp [pending]) rfl rfl (by simp)
  · exact later_of_uncommitted hnot (by rw [hst]; rfl) (h.live hnot)
  · obtain ⟨e, he', hz⟩ := hentry
    refine ⟨e, he', ?_⟩
    simpa [goto, System.setRun, committed] using hz

theorem effect_commit (hst : (s.view r).stage = .commit) :
    RunEffect s
      { s.goto r .watch with store := s.store.commit s.id (s.runs r).h (some r) } r := by
  have hold := pending_at hst
  have howns : s.owner = some r := h.pending_owns hold
  refine
    { others := fun i hi => view_setRun_other hi _
      self := ?_
      later := later_of_pending h hold
      stops := rfl
      entry := ?_
      accepted := fun i hi => .inl hi
      begun := by simp [view, goto, System.setRun] }
  · simp only [view, goto, System.setRun, if_true]
    apply h.committed_step (by rw [hst]; rfl) (by rw [hst]; rfl) rfl
    exact fun hx => absurd (h.watching_stage hx) (by simp [hst])
  · rw [EntryOK, howns] at he
    obtain ⟨e, he, -⟩ := he
    simp only [EntryOK, goto, System.setRun, howns, if_true, committed,
      MemoryStore.commit, he]
    exact ⟨_, MemoryStore.entries_set_self s.store s.id _, rfl, rfl⟩

theorem effect_watch (hst : (s.view r).stage = .watch) :
    RunEffect s
      { s.goto r (.returned none) with
        watching := fun i => if i = r then true else s.watching i } r := by
  have hst' : (s.runs r).stage = .watch := hst
  refine
    { others := fun i hi => by simp [view, goto, System.setRun, hi]
      self := ?_
      later := ?_
      stops := rfl
      entry := ?_
      accepted := fun i hi => .inl hi
      begun := by simp [view, goto, System.setRun] }
  · simp only [view, goto, System.setRun, if_true]
    exact h.committed_step (by rw [hst]; rfl) (by rw [hst]; rfl) rfl fun _ => rfl
  · simp only [view, goto, System.setRun, if_true]
    exact
      { failed := by simp [hst', failed]
        committed := fun _ => ⟨rfl, rfl⟩
        owns := fun _ => id
        cancelled := id
        worker := fun _ => id
        sidecar := fun _ => id }
  · exact he.setRun (r := r) fun _ => ⟨by rw [hst']; rfl, rfl⟩

/-- A failing call gives its reservation up; the handle it finds there is the zero one. -/
theorem effect_release {err : String} {rh : Handle DockerHandle Nat}
    {store : MemoryStore DockerHandle Nat} (hst : (s.view r).stage = .release err)
    (hrel : s.store.release s.id = (store, some rh)) :
    RunEffect s
      { s.goto r (.cleanup (cleanup rh.runtime) err) with store := store, owner := none } r := by
  have hold := pending_at hst
  have howns : s.owner = some r := h.pending_owns hold
  have hstage : (s.runs r).stage.committed = false := not_committed hold
  rw [EntryOK, howns] at he
  obtain ⟨e, he, hz⟩ := he
  rw [hstage, if_neg (by simp)] at hz
  simp only [MemoryStore.release, he, Prod.mk.injEq, Option.some.injEq] at hrel
  obtain ⟨rfl, rfl⟩ := hrel
  refine
    { others := fun i hi => ?_
      self := ?_
      later := later_of_pending h hold
      stops := rfl
      entry := MemoryStore.entries_set_self s.store s.id none
      accepted := fun i hi => .inl hi
      begun := by simp [view, goto, System.setRun] }
  · simp [view, goto, System.setRun, hi, howns, Ne.symm hi]
  · simp only [view, goto, System.setRun, if_true]
    apply h.bare_step hstage (by simp [hst]) (by simp [pending]) rfl rfl
    rintro rest err' hx
    cases hx
    rw [hz.1]
    rfl

theorem effect_return_error (err : String) (hnp : (s.view r).stage.pending = false)
    (hnc : (s.view r).stage.committed = false) :
    RunEffect s (s.goto r (.returned (some err))) r := by
  have hnot : ¬ (s.view r).owns := by
    intro hx
    rcases h.owns_stage hx with hx | hx
    · exact absurd hx (by simp [hnp])
    · exact absurd hx (by simp [hnc])
  have hncommit : (s.view r).stage ≠ .commit := by
    intro hx
    rw [hx] at hnp
    exact absurd hnp (by simp [pending])
  have hv := view_setRun_self s r { s.runs r with stage := .returned (some err) }
  refine
    { others := fun i hi => view_setRun_other hi _
      self := ?_
      later := ?_
      stops := rfl
      entry := ?_
      accepted := fun i hi => .inl hi
      begun := by simp [view, goto, System.setRun] }
  · rw [goto, hv]
    exact h.bare_step hnc hncommit (by simp [hnot, pending]) rfl rfl (by simp)
  · rw [goto, hv]
    exact
      { failed := fun _ => rfl
        committed := by simp [hnc]
        owns := by simp [hnc]
        cancelled := id
        worker := by simp [hnc]
        sidecar := by simp [hnc] }
  · exact he.setRun fun ho => absurd ho hnot

theorem effect_fail {st : Stage} (hst : (s.view r).stage = st) (err : String)
    (hold : st.pending = true := by rfl) (hnc : st ≠ .commit := by simp) :
    RunEffect s (s.goto r (.release err)) r := by
  subst hst
  apply effect_setRun h he hold hnc rfl
  · simp [hasWorker]
  · rfl

theorem effect_createJob (hst : (s.view r).stage = .createJob) (hfree : s.worker = none)
    (created : List Resource) :
    RunEffect s
      { s.setRun r
          { s.runs r with
            stage := .pullSidecar
            h := { (s.runs r).h with jobContainerID := some r }
            created := created } with
        worker := some ⟨r, false⟩ } r := by
  have hold := pending_at hst
  have hrun := h.not_running (not_committed hold)
  refine effect_own h he { own_setRun s r _ with worker := ?_ } hold ?_ ?_ ?_ ?_ ?_
  · exact fun i hi => by simp [slot_other (Ne.symm hi), hfree]
  · simp [view, System.setRun, pending]
  · simp [view]
  · intro hx
    exact absurd (hrun.2 hx) (by simp [hst])
  · simp [view, System.setRun]
  · simp [view, System.setRun, hasSidecar]

theorem effect_createSidecar (hst : (s.view r).stage = .createSidecar) (hfree : s.sidecar = none)
    (created : List Resource) :
    RunEffect s
      { s.setRun r
          { s.runs r with
            stage := .startSidecar
            h := { (s.runs r).h with sidecarContainerID := some r }
            created := created } with
        sidecar := some ⟨r, false⟩ } r := by
  have hold := pending_at hst
  have hrun := h.not_running (not_committed hold)
  have hlive := h.owns_live (h.pending_owns hold)
  have hid := h.worker_id (by rw [hst]; rfl)
  have hthere := h.worker_there (by rw [hst]; rfl) hlive
  refine effect_own h he { own_setRun s r _ with sidecar := ?_ } hold ?_ ?_ ?_ ?_ ?_
  · exact fun i hi => by simp [slot_other (Ne.symm hi), hfree]
  · simp [view, System.setRun, pending]
  · exact hrun.1
  · simp [view]
  · intro _
    exact ⟨by simpa [view, System.setRun] using hid, hthere⟩
  · simp [view, System.setRun]

theorem effect_startSidecar (hst : (s.view r).stage = .startSidecar)
    (hthere : s.sidecar.any (·.owner = r) = true) :
    RunEffect s { s.goto r .commit with sidecar := some ⟨r, true⟩ } r := by
  have hold := pending_at hst
  have hrun := h.not_running (not_committed hold)
  have hlive := h.owns_live (h.pending_owns hold)
  obtain ⟨b, hb⟩ := slot_of_any hthere
  have hwid := h.worker_id (by rw [hst]; rfl)
  have hsid := h.sidecar_id (by rw [hst]; rfl)
  have hwthere := h.worker_there (by rw [hst]; rfl) hlive
  refine effect_own h he { own_setRun s r _ with sidecar := ?_ } hold ?_ ?_ ?_ ?_ ?_
  · exact fun i hi => by simp [hb, slot_other (Ne.symm hi)]
  · simp [view, goto, System.setRun, pending]
  · exact hrun.1
  · simp [view, goto, System.setRun]
  · intro _
    exact ⟨by simpa [view, goto, System.setRun] using hwid, hwthere⟩
  · intro _
    exact ⟨by simpa [view, goto, System.setRun] using hsid, by simp [view]⟩

theorem runStep_effect (a : Answer) :
    (RunEffect s (s.runStep r a).1 r ∨ (s.runStep r a).1 = s) ∧
      ∀ f ∈ (s.runStep r a).2, f.owner = some f.run := by
  obtain ⟨st, hst⟩ : ∃ st, (s.runs r).stage = st := ⟨_, rfl⟩
  have hst' : (s.view r).stage = st := hst
  cases st with
  | reserve =>
    simp only [runStep, hst]
    cases hres : s.store.reserve a.now s.id with
    | error err =>
      refine ⟨.inl ?_, by simp⟩
      exact effect_return_error h he err (by rw [hst']; rfl) (by rw [hst']; rfl)
    | ok store => exact ⟨.inl (effect_reserve h he hst' hres), by simp⟩
  | workspace =>
    simp only [runStep, hst]
    have hgo : ∀ c : RunCall, (c.stage = .pullImage ∨ ∃ err, c.stage = .release err) →
        RunEffect s (s.setRun r c) r := by
      intro c hc
      apply effect_setRun h he <;> rcases hc with hc | ⟨err, hc⟩ <;>
        simp [hst', hc, pending, hasWorker, hasSidecar]
    split
    · split
      · exact ⟨.inl (hgo _ (.inl rfl)), by simp⟩
      · exact ⟨.inl (hgo _ (.inr ⟨_, rfl⟩)), by simp⟩
    · split
      · exact ⟨.inl ((hgo _ (.inl rfl)).volume true), by simp⟩
      · exact ⟨.inl (hgo _ (.inr ⟨_, rfl⟩)), by simp⟩
  | pullImage =>
    simp only [runStep, hst]
    split
    · refine ⟨.inl (effect_setRun h he ?_ ?_ ?_ ?_ ?_), by simp⟩ <;>
        simp [hst', pending, hasWorker, hasSidecar]
    · exact ⟨.inl (effect_fail h he hst' _), by simp⟩
  | createJob =>
    simp only [runStep, hst]
    split
    next hok =>
      have hfree : s.worker = none := by simp_all
      exact ⟨.inl (effect_createJob h he hst' hfree _), by simp⟩
    · exact ⟨.inl (effect_fail h he hst' _), by simp⟩
  | pullSidecar =>
    simp only [runStep, hst]
    split
    · refine ⟨.inl (effect_setRun h he ?_ ?_ ?_ ?_ ?_), by simp⟩ <;>
        simp [view, hst, pending, hasWorker, hasSidecar]
    · exact ⟨.inl (effect_fail h he hst' _), by simp⟩
  | createSidecar =>
    simp only [runStep, hst]
    split
    next hok =>
      have hfree : s.sidecar = none := by simp_all
      exact ⟨.inl (effect_createSidecar h he hst' hfree _), by simp⟩
    · exact ⟨.inl (effect_fail h he hst' _), by simp⟩
  | startSidecar =>
    simp only [runStep, hst]
    split
    next hok =>
      have hthere := (Bool.and_eq_true_iff.mp hok).2
      exact ⟨.inl (effect_startSidecar h he hst' hthere), by simp⟩
    · exact ⟨.inl (effect_fail h he hst' _), by simp⟩
  | commit =>
    simp only [runStep, hst]
    exact ⟨.inl (effect_commit h he hst'), by simp⟩
  | watch =>
    simp only [runStep, hst]
    exact ⟨.inl (effect_watch h he hst'), by simp⟩
  | release err =>
    have howns : s.owner = some r := h.pending_owns (pending_at hst')
    simp only [runStep, hst]
    cases hrel : s.store.release s.id with
    | mk store rh =>
      cases rh with
      | none =>
        -- the call's own reservation is in the store
        rw [EntryOK, howns] at he
        obtain ⟨e, he, -⟩ := he
        simp [MemoryStore.release, he] at hrel
      | some rh => exact ⟨.inl (effect_release h he hst' hrel), by simp [howns]⟩
  | cleanup rest err =>
    obtain rfl := h.cleanup_nil rest err hst'
    simp only [runStep, hst]
    refine ⟨.inl ?_, by simp⟩
    exact effect_return_error h he err (by rw [hst']; rfl) (by rw [hst']; rfl)
  | returned res => simp [runStep, hst]

end

end Orchestrator.Job.Docker

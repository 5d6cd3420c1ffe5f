/-
  Orchestrator.Job.Docker.RunStop

  `Run` and `Stop` calls on one job id, interleaved at will.

  `Stop` works from the entry it takes out of the store.  If that entry is committed it
  knows the containers and the watch of the `Run` that made it; if `Run` has not come to
  its `Commit` yet, `Stop` knows nothing and `Run` goes on without its reservation.  The
  module shows that this, and removals that fail, are the only ways in which a stopped
  run survives.
-/

import Orchestrator.Job.Docker.RunView

namespace Orchestrator.Job.Docker

open Lifecycle Lib.Machine Docker.System

variable {s : System} {r : Nat}

/-! ## What Stop asks for and changes -/

/-- What the next operation of a `Stop` call needs: the entry it takes is committed, and
the removal of a container succeeds. -/
def StopStage.Careful (s : System) (a : Answer) : StopStage → Prop
  | .release => ∀ r ∈ s.owner, (s.runs r).stage.committed = true
  | .cleanup (.worker _ :: _) => a.ok = true
  | .cleanup (.sidecar _ :: _) => a.ok = true
  | _ => True

instance (s : System) (a : Answer) : (c : StopStage) → Decidable (c.Careful s a)
  | .release => inferInstanceAs (Decidable (∀ r ∈ s.owner, _ = _))
  | .cleanup (.worker _ :: _) | .cleanup (.sidecar _ :: _) => inferInstanceAs (Decidable (_ = _))
  | .cleanup [] | .cleanup (.volume _ :: _) | .cleanup (.hostDir _ :: _) | .cancel _
  | .returned _ => .isTrue trivial

/-- A `Stop` takes only committed entries, and its removals of containers succeed. -/
def Careful (s : System) : System.Move → Prop
  | .stop t a => (s.stops t).stage.Careful s a
  | _ => True

instance (s : System) : (m : System.Move) → Decidable (Careful s m)
  | .stop t a => inferInstanceAs (Decidable ((s.stops t).stage.Careful s a))
  | .run _ _ | .watchEnds _ | .startWorker _ => .isTrue trivial

theorem RunOK.disown {v : View} (h : RunOK r v) (hp : v.stage.pending = false) :
    RunOK r { v with owns := False } :=
  { h with
    pending_owns := by simp [hp]
    owns_stage := False.elim
    owns_live := False.elim }

theorem later_disown (v : View) : Later v { v with owns := False } :=
  { Later.refl v with owns := fun _ _ => id }

theorem mem_cleanup (h : DockerHandle) (i : Nat) :
    (Resource.worker i ∈ cleanup h ↔ h.jobContainerID = some i) ∧
      (Resource.sidecar i ∈ cleanup h ↔ h.sidecarContainerID = some i) := by
  obtain ⟨sidecar, worker, volume, dir⟩ := h
  cases sidecar <;> cases worker <;> simp [cleanup, eq_comm]

theorem slot_removed (c : Option Container) (r i : Nat) :
    slot (if c.any (·.owner = r) then none else c) i = if i = r then none else slot c i := by
  by_cases hany : c.any (·.owner = r) = true
  · obtain ⟨b, rfl⟩ := slot_of_any hany
    by_cases hi : i = r
    · simp [hi]
    · simp [hi, slot_other (Ne.symm hi)]
  · rw [if_neg hany]
    by_cases hi : i = r
    · subst hi
      rw [if_pos rfl]
      obtain _ | ⟨owner, running⟩ := c
      · rfl
      · have ho : owner ≠ i := by simpa using hany
        simp [slot, ho]
    · rw [if_neg hi]

theorem view_remove (s : System) (x : Resource) (i : Nat) :
    (s.remove x true).view i =
      { s.view i with
        worker := if x = .worker i then none else (s.view i).worker
        sidecar := if x = .sidecar i then none else (s.view i).sidecar } := by
  cases x with
  | worker r =>
    have hremove : s.remove (.worker r) true =
        { s with
          asked := s.asked ++ [.worker r]
          worker := if s.worker.any (·.owner = r) then none else s.worker } := by
      simp only [remove, if_true]
      split <;> rfl
    rw [hremove]
    simp only [view, slot_removed, Resource.worker.injEq, reduceCtorEq, if_false]
    simp only [eq_comm]
  | sidecar r =>
    have hremove : s.remove (.sidecar r) true =
        { s with
          asked := s.asked ++ [.sidecar r]
          sidecar := if s.sidecar.any (·.owner = r) then none else s.sidecar } := by
      simp only [remove, if_true]
      split <;> rfl
    rw [hremove]
    simp only [view, slot_removed, Resource.sidecar.injEq, reduceCtorEq, if_false]
    simp only [eq_comm]
  | volume name | hostDir path => simp [remove, view]

theorem remove_frame (s : System) (x : Resource) (ok : Bool) :
    (s.remove x ok).owner = s.owner ∧ (s.remove x ok).store = s.store ∧
      (s.remove x ok).id = s.id ∧ (s.remove x ok).runs = s.runs ∧
      (s.remove x ok).stops = s.stops ∧ (s.remove x ok).accepted = s.accepted := by
  simp only [remove]
  repeat' split
  all_goals simp

/-! ## Steps of Stop, and of the watches -/

section

variable {freed : List System.Freed} {t : Nat} {a : Answer} (h : Orderly s freed)
include h

theorem Orderly.of_others {s' : System} (hother : ∀ i, i ≠ r → s'.view i = s.view i)
    (hself : RunOK r (s'.view r)) (hlater : Later (s.view r) (s'.view r)) :
    (∀ i, RunOK i (s'.view i)) ∧ ∀ i, Later (s.view i) (s'.view i) := by
  constructor
  · intro i
    by_cases hi : i = r
    · exact hi ▸ hself
    · rw [hother i hi]
      exact h.runs i
  · intro i
    by_cases hi : i = r
    · exact hi ▸ hlater
    · rw [hother i hi]
      exact Later.refl _

section

variable {s' : System} (hruns : ∀ r, RunOK r (s'.view r)) (hl : ∀ r, Later (s.view r) (s'.view r))
  (hentry : EntryOK s') (hacc : s'.accepted = s.accepted)
  (hstage : ∀ r, (s'.view r).stage = (s.view r).stage)
include hruns hl hentry hacc hstage

/-- A step that changes views only as `Later` allows keeps the invariant, if the `Stop`
call that makes it is accounted for. -/
theorem Orderly.of_later (hstops : ∀ t, s'.stops t = s.stops t ∨ StopOK s' (s'.stops t)) :
    Orderly s' freed where
  runs := hruns
  stops t := by
    rcases hstops t with ht | ht
    · rw [ht]
      exact (h.stops t).later hl
    · exact ht
  entry := hentry
  accepted r hr := by
    rw [hstage r]
    exact h.accepted r (hacc ▸ hr)
  freed := h.freed

theorem Orderly.of_stop {c : StopCall} (hstops : s'.stops = (s.setStop t c).stops)
    (hc : StopOK s' c) :
    Orderly s' freed := by
  refine h.of_later hruns hl hentry hacc hstage fun i => ?_
  rw [hstops]
  by_cases hi : i = t
  · right
    simpa [setStop, hi] using hc
  · left
    simp [setStop, hi]

end

theorem Orderly.runStep (r : Nat) (a : Answer) :
    Orderly (s.runStep r a).1 (freed ++ (s.runStep r a).2) := by
  obtain ⟨heff, hfreed⟩ := runStep_effect (h.runs r) h.entry a
  have hall : ∀ f ∈ freed ++ (s.runStep r a).2, f.owner = some f.run := by
    intro f hf
    exact (List.mem_append.mp hf).elim (h.freed f) (hfreed f)
  rcases heff with heff | hsame
  · obtain ⟨hruns, hlater⟩ := h.of_others heff.others heff.self heff.later
    refine ⟨hruns, fun t => ?_, heff.entry, fun i hi => ?_, hall⟩
    · rw [heff.stops]
      exact (h.stops t).later hlater
    · by_cases hir : i = r
      · exact hir ▸ heff.begun
      · rw [heff.others i hir]
        exact h.accepted i ((heff.accepted i hi).resolve_right hir)
  · rw [hsame]
    exact ⟨h.runs, h.stops, h.entry, h.accepted, hall⟩

/-- A committed run whose entry `Stop` takes is the only one that is not settled. -/
theorem Orderly.others_settled (howner : s.owner = some r)
    (hc : (s.runs r).stage.committed = true) :
    ∀ i ∈ s.accepted, i = r ∨ (s.view i).Settled := by
  intro i hi
  by_cases hir : i = r
  · exact .inl hir
  right
  have hnot : ¬ (s.view i).owns := by
    intro hx
    exact hir (Option.some.inj (hx.symm.trans howner))
  have hlive := (h.runs r).owns_live howner
  have hrw : (s.view r).stage.hasWorker = true ∧ (s.view r).stage.hasSidecar = true :=
    Stage.has_of_committed hc
  -- both names are taken by the run whose entry is there
  have hw : (s.view i).worker = none :=
    slot_unique ((h.runs r).worker_there hrw.1 hlive) (Ne.symm hir)
  have hs : (s.view i).sidecar = none :=
    slot_unique ((h.runs r).sidecar_there hrw.2 hlive) (Ne.symm hir)
  rcases (s.view i).stage.kinds with hst | hst | hst | hst
  · exact absurd hst (h.accepted i hi)
  · exact absurd ((h.runs i).pending_owns hst) hnot
  · refine .inr ⟨hst, ?_, hw, hs⟩
    by_contra hx
    have hthere := (h.runs i).worker_there (Stage.has_of_committed hst).1 (by simpa using hx)
    rw [hw] at hthere
    simp at hthere
  · exact .inl hst

theorem Orderly.stop_release (hst : (s.stops t).stage = .release) (hcare : Careful s (.stop t a)) :
    Orderly (s.stopStep t a) freed := by
  have hentry := h.entry
  simp only [Careful, hst, StopStage.Careful] at hcare
  simp only [System.stopStep, hst]
  cases ho : s.owner with
  | none =>
    rw [EntryOK, ho] at hentry
    simp only [MemoryStore.release, hentry]
    exact h.of_stop h.runs (fun i => Later.refl _) h.entry rfl (fun _ => rfl) rfl trivial
  | some r =>
    -- the entry that is taken is committed, so its run waits for nothing
    have hc : (s.runs r).stage.committed = true := hcare r (by simp [ho])
    have hsettled := h.others_settled ho hc
    rw [EntryOK, ho] at hentry
    obtain ⟨e, he, hz⟩ := hentry
    rw [if_pos hc] at hz
    simp only [MemoryStore.release, he, hz.1, hz.2]
    generalize hs' : ({ s.setStop t ⟨.cancel ⟨some r, (s.runs r).h⟩, s.accepted⟩ with
      store := s.store.set s.id none, owner := none } : System) = s'
    have hview : ∀ i, s'.view i = { s.view i with owns := False } := by
      intro i
      rw [← hs']
      simp [view, setStop]
    -- a pending run owns the entry, and that one is committed
    have hnp : ∀ i, (s.view i).stage.pending = false := by
      intro i
      by_contra hx
      have hown := (h.runs i).pending_owns (by simpa using hx)
      obtain rfl : i = r := Option.some.inj (hown.symm.trans ho)
      have hp : (s.view i).stage.pending = true := by simpa using hx
      have hc' : (s.view i).stage.committed = true := hc
      exact absurd hc' (by simp [Stage.not_committed hp])
    apply h.of_stop (t := t) (c := ⟨.cancel ⟨some r, (s.runs r).h⟩, s.accepted⟩)
    · intro i
      rw [hview]
      exact (h.runs i).disown (hnp i)
    · intro i
      rw [hview]
      exact later_disown _
    · rw [← hs']
      exact MemoryStore.entries_set_self s.store s.id none
    · rw [← hs']
      rfl
    · intro i
      rw [hview]
    · rw [← hs']
    · refine ⟨r, by rw [hview]; rfl, by rw [hview]; exact hc, by rw [hview]; exact id, ?_⟩
      intro j hj
      rw [hview]
      exact hsettled j hj

theorem Orderly.stop_cancel {hd : Handle DockerHandle Nat} (hst : (s.stops t).stage = .cancel hd) :
    Orderly (s.stopStep t a) freed := by
  have hstop := h.stops t
  simp only [StopOK, hst] at hstop
  obtain ⟨r, rfl, hc, hno, hafter⟩ := hstop
  simp only [System.stopStep, hst]
  generalize hs' : ({ s.setStop t
    { s.stops t with stage := .cleanup (cleanup (s.view r).h) } with
      cancelled := fun i => if some r = some i then true else s.cancelled i } : System) = s'
  have hother : ∀ i, i ≠ r → s'.view i = s.view i := by
    intro i hi
    rw [← hs']
    simp [view, setStop, Ne.symm hi]
  have hself : s'.view r = { s.view r with cancelled := true } := by
    rw [← hs']
    simp [view, setStop]
  have hhas := Stage.has_of_committed hc
  have hrun : RunOK r (s'.view r) := by
    rw [hself]
    exact
      { h.runs r with
        owns_live := fun hx => absurd hx hno
        worker_there := fun _ hx => absurd hx (by simp)
        sidecar_there := fun _ hx => absurd hx (by simp)
        cancelled_stage := fun _ => hc }
  have hcancelled : Later (s.view r) (s'.view r) := by
    rw [hself]
    exact { Later.refl (s.view r) with cancelled := fun _ => rfl }
  obtain ⟨hruns, hlater⟩ := h.of_others hother hrun hcancelled
  apply h.of_stop (t := t) (c := { s.stops t with stage := .cleanup (cleanup (s.view r).h) }) hruns
    hlater
  · rw [← hs']
    exact h.entry
  · rw [← hs']
    rfl
  · intro i
    rw [← hs']
    rfl
  · rw [← hs']
  -- the handle has the ids of the run, so the removals are of its containers
  · have hwid := (h.runs r).worker_id hhas.1
    have hsid := (h.runs r).sidecar_id hhas.2
    refine ⟨r, by rw [hself]; exact hc, by rw [hself], ?_, ?_, ?_, ?_, ?_⟩
    · exact fun _ => (mem_cleanup _ _).1.mpr hwid
    · exact fun _ => (mem_cleanup _ _).2.mpr hsid
    · intro j hj
      exact Option.some.inj (((mem_cleanup _ _).1.mp hj).symm.trans hwid)
    · intro j hj
      exact Option.some.inj (((mem_cleanup _ _).2.mp hj).symm.trans hsid)
    · exact fun j hj => (hafter j hj).imp_right (hlater j).settled

/-- `Stop` is done with its removals: nothing of its run is left. -/
theorem Orderly.stop_return (hst : (s.stops t).stage = .cleanup []) :
    Orderly (s.stopStep t a) freed := by
  have hstop := h.stops t
  simp only [StopOK, hst] at hstop
  obtain ⟨r, hc, hx, hw, hs, -, -, hafter⟩ := hstop
  have hsettled : (s.view r).Settled := by
    refine .inr ⟨hc, hx, ?_, ?_⟩
    · exact Option.not_isSome_iff_eq_none.mp fun hsome => by simpa using hw hsome
    · exact Option.not_isSome_iff_eq_none.mp fun hsome => by simpa using hs hsome
  simp only [System.stopStep, hst]
  refine h.of_stop h.runs (fun i => Later.refl _) h.entry rfl (fun _ => rfl) rfl ?_
  intro j hj
  rcases hafter j hj with rfl | hj
  · exact hsettled
  · exact hj

theorem Orderly.stop_remove {x : Resource} {rest : List Resource}
    (hst : (s.stops t).stage = .cleanup (x :: rest)) (hcare : Careful s (.stop t a)) :
    Orderly (s.stopStep t a) freed := by
  have hstop := h.stops t
  simp only [StopOK, hst] at hstop
  obtain ⟨r, hc, hx, hw, hs, hw', hs', hafter⟩ := hstop
  simp only [System.stopStep, hst]
  generalize hmid : s.setStop t { s.stops t with stage := .cleanup rest } = mid
  have hmidview : ∀ i, mid.view i = s.view i := by
    intro i
    rw [← hmid]
    rfl
  -- a removal that may fail is none of a container
  have hview : ∀ i, (mid.remove x a.ok).view i =
      { s.view i with
        worker := if x = .worker i then none else (s.view i).worker
        sidecar := if x = .sidecar i then none else (s.view i).sidecar } := by
    intro i
    rw [← hmidview i]
    cases hok : a.ok with
    | true => exact view_remove mid x i
    | false =>
      cases x with
      | worker j | sidecar j => simp [Careful, StopStage.Careful, hst, hok] at hcare
      | volume name | hostDir path => simp [remove, view]
  obtain ⟨howner, hstore, hid, hruns, hstops, hacc⟩ := remove_frame mid x a.ok
  -- only the run this call has taken can lose a container, and it is cancelled
  have hxw : ∀ i, x = .worker i → i = r := fun i hi => hw' i (by simp [hi])
  have hxs : ∀ i, x = .sidecar i → i = r := fun i hi => hs' i (by simp [hi])
  have hlater : ∀ i, Later (s.view i) ((mid.remove x a.ok).view i) := by
    intro i
    rw [hview i]
    exact
      { Later.refl (s.view i) with
        worker := fun _ hn => by simp [hn]
        sidecar := fun _ hn => by simp [hn] }
  refine h.of_stop (t := t) (c := { s.stops t with stage := .cleanup rest }) (fun i => ?_) hlater
    ?_ ?_ (fun i => ?_) ?_ ?_
  · rw [hview i]
    have hok := h.runs i
    have hlive : (s.view i).cancelled = false → x ≠ .worker i ∧ x ≠ .sidecar i := by
      intro hn
      constructor
      · rintro hi
        obtain rfl := hxw i hi
        exact absurd hx (by simp [hn])
      · rintro hi
        obtain rfl := hxs i hi
        exact absurd hx (by simp [hn])
    refine
      { hok with
        worker_runs := fun hrun => hok.worker_runs ?_
        sidecar_runs := fun hrun => hok.sidecar_runs ?_
        worker_there := fun hhas hn => ?_
        sidecar_there := fun hhas hn => ?_ }
    · by_contra hnot
      simp [hnot] at hrun
    · by_contra hnot
      simp [hnot] at hrun
    · rw [if_neg (hlive hn).1]
      exact hok.worker_there hhas hn
    · rw [if_neg (hlive hn).2]
      exact hok.sidecar_there hhas hn
  · unfold EntryOK
    rw [howner, hstore, hid, hruns, ← hmid]
    exact h.entry
  · rw [hacc, ← hmid]
    rfl
  · rw [hview i]
  · rw [hstops, ← hmid]
  · refine ⟨r, by rw [hview]; exact hc, by rw [hview]; exact hx, ?_, ?_, ?_, ?_, ?_⟩
    · rw [hview]
      intro hsome
      by_cases hxr : x = .worker r
      · simp [hxr] at hsome
      · simp only [if_neg hxr] at hsome
        exact (List.mem_cons.mp (hw hsome)).resolve_left (Ne.symm hxr)
    · rw [hview]
      intro hsome
      by_cases hxr : x = .sidecar r
      · simp [hxr] at hsome
      · simp only [if_neg hxr] at hsome
        exact (List.mem_cons.mp (hs hsome)).resolve_left (Ne.symm hxr)
    · exact fun j hj => hw' j (List.mem_cons_of_mem x hj)
    · exact fun j hj => hs' j (List.mem_cons_of_mem x hj)
    · exact fun j hj => (hafter j hj).imp_right (hlater j).settled

theorem Orderly.stopStep (hcare : Careful s (.stop t a)) :
    Orderly (s.stopStep t a) freed := by
  cases hst : (s.stops t).stage with
  | release => exact h.stop_release hst hcare
  | cancel hd => exact h.stop_cancel hst
  | cleanup rest =>
    cases rest with
    | nil => exact h.stop_return hst
    | cons x rest => exact h.stop_remove hst hcare
  | returned err =>
    simp only [System.stopStep, hst]
    exact h

theorem Orderly.watchEnds (r : Nat) :
    Orderly (s.step (.watchEnds r)).1 freed := by
  have hview : ∀ i, (s.step (.watchEnds r)).1.view i =
      { s.view i with watching := if i = r then false else (s.view i).watching } := by
    intro i
    rfl
  refine h.of_later (fun i => ?_) (fun i => ?_) h.entry rfl (fun _ => rfl) (fun _ => .inl rfl)
  · rw [hview i]
    refine { h.runs i with watching_stage := fun hx => (h.runs i).watching_stage ?_ }
    by_contra hnot
    simp [hnot] at hx
  · rw [hview i]
    exact { Later.refl (s.view i) with }

theorem Orderly.startWorker (r : Nat) :
    Orderly (s.step (.startWorker r)).1 freed := by
  simp only [System.step]
  split
  next hgo =>
    obtain ⟨hst, hany⟩ : (s.runs r).stage = .returned none ∧
        s.worker.any (·.owner = r) = true := by simpa using hgo
    obtain ⟨b, hb⟩ := slot_of_any hany
    have hother : ∀ i, i ≠ r →
        ({ s with worker := some ⟨r, true⟩ } : System).view i = s.view i := by
      intro i hi
      simp [view, hb, slot_other (Ne.symm hi)]
    have hself : ({ s with worker := some ⟨r, true⟩ } : System).view r =
        { s.view r with worker := some true } := by
      simp [view]
    have hcommitted : (s.view r).stage.committed = true := by
      simp [view, hst, Stage.committed]
    have hrun : RunOK r { s.view r with worker := some true } :=
      { h.runs r with
        worker_runs := fun _ => hcommitted
        worker_there := fun _ _ => rfl }
    have hthere : (s.view r).worker = some b := by simp [view, hb]
    have hstarted : Later (s.view r) { s.view r with worker := some true } :=
      { Later.refl (s.view r) with worker := fun _ hn => absurd hn (by simp [hthere]) }
    obtain ⟨hruns, hlater⟩ := h.of_others hother (hself ▸ hrun) (hself ▸ hstarted)
    exact h.of_later hruns hlater h.entry rfl (fun _ => rfl) (fun _ => .inl rfl)
  · exact h

end

/-! ## Whole interleavings -/

theorem Orderly.step {freed : List System.Freed} (m : System.Move) (hcare : Careful s m)
    (h : Orderly s freed) :
    Orderly (s.step m).1 (freed ++ (s.step m).2) := by
  cases m with
  | run r a => exact h.runStep r a
  | stop t a =>
    simp only [System.step, List.append_nil]
    exact h.stopStep hcare
  | watchEnds r =>
    have hout : (s.step (.watchEnds r)).2 = [] := rfl
    rw [hout, List.append_nil]
    exact h.watchEnds r
  | startWorker r =>
    have hout : (s.step (.startWorker r)).2 = [] := by
      simp only [System.step]
      split <;> rfl
    rw [hout, List.append_nil]
    exact h.startWorker r

theorem orderly_newSystem (id : String) (mounts : Nat → Bool) : Orderly (newSystem id mounts) [] where
  runs r := by
    constructor <;> simp [view, newSystem, newRunCall, Stage.pending, Stage.committed,
      Stage.hasWorker, Stage.hasSidecar]
  stops t := trivial
  entry := rfl
  accepted r hr := by simp [newSystem] at hr
  freed := by simp

/-- Once a `Stop` has returned nil, no container of a run accepted before it runs, and no
watch of such a run is active. -/
def Stopped (s : System) : Prop :=
  ∀ t, (s.stops t).stage = .returned none → ∀ r ∈ (s.stops t).after, (s.view r).Quiet

/-- In every interleaving in which `Stop` takes only committed entries and its removals of
containers succeed, a stopped run stays stopped, and a failing `Run` gives up no
reservation but its own. -/
theorem stopped_of_careful (id : String) (mounts : Nat → Bool) (moves : List System.Move)
    (hcare : Along Careful System.step (newSystem id mounts) moves) :
    Stopped (run System.step (newSystem id mounts) moves).1 ∧
      ∀ f ∈ (run System.step (newSystem id mounts) moves).2, f.owner = some f.run := by
  have hend := run_invariant Orderly (fun _ _ m => Orderly.step m) hcare
    (orderly_newSystem id mounts)
  rw [List.nil_append] at hend
  constructor
  · intro t hret r hr
    have hstop := hend.stops t
    simp only [StopOK, hret] at hstop
    exact (hstop r hr).quiet (hend.runs r)
  · exact hend.freed

def fine : Answer := ⟨true, "/tmp/job-a-ws-1", 0⟩

/-- Run 0 starts its worker, past run 1, which finds the id taken.  `Stop` has taken the entry
when run 2 reserves the id; it removes the containers while run 2 fails at their names. -/
def stopAmongRuns : List System.Move :=
  [.run 0 fine, .run 1 fine] ++ List.replicate 8 (.run 0 fine) ++
    [.startWorker 0, .stop 0 fine, .run 2 fine, .run 2 fine, .stop 0 fine, .run 2 fine,
      .stop 0 fine, .run 2 fine, .stop 0 fine, .run 2 fine, .stop 0 fine, .run 2 fine, .stop 0 fine]

/-- A `Stop` comes between `Reserve` and `Commit`; the run goes on and starts its sidecar. -/
def stopBeforeCommit : List System.Move :=
  [.run 0 fine] ++ List.replicate 3 (.stop 0 fine) ++ List.replicate 8 (.run 0 fine)

theorem stopped_stopAmongRuns :
    let (s, freed) := run System.step (newSystem "a" fun _ => false) stopAmongRuns
    (s.stops 0).stage = .returned none ∧ 0 ∈ (s.stops 0).after ∧ Stopped s ∧
      (s.runs 1).stage = .returned (some "job already exists") ∧
      (s.runs 2).stage = .returned (some "docker.createJobContainer") ∧ freed = [⟨2, some 2⟩] :=
  ⟨rfl, by decide, (stopped_of_careful "a" (fun _ => false) stopAmongRuns (by decide)).1, by decide,
    by decide, by decide⟩

/-- `Stop` has returned nil, and the sidecar of the run it stopped is running. -/
theorem stopBeforeCommit_not_stopped :
    ¬ Stopped (run System.step (newSystem "a" fun _ => false) stopBeforeCommit).1 := by
  intro h
  have hquiet := h 0 rfl 0 (by decide)
  exact absurd hquiet.2.1 (by decide)

end Orchestrator.Job.Docker

/-
  Orchestrator.Sidecar.Phases

  Specifications of the parts of the sidecar's flow.

  A phase (`PhaseLog`) applies artifacts of its list only, each at most once and after
  its dependency within the list has been applied; when it ends without an error it has
  applied exactly the grounded ones (`PhaseDone`).  The mounts are established in the
  order of the list (`MountLog`).  Every stop is one that the surroundings are to blame
  for (`Blamed`), so that in reliable surroundings there is none.
-/

import Orchestrator.Sidecar.Runner

namespace Orchestrator.Sidecar

open Lib Lib.Prog Artifact List

/-! ## Calls -/

section

variable {host : Host} {P Q : World → Prop} {E : Stop Err → World → Prop}

/-- A call: the effect, or a failure that the surroundings are to blame for, with the effect
    or without it. -/
theorem call_triple {effect : World → World}
    (hcalls : ∀ w n, P w → P { w with calls := n }) (heffect : ∀ w, P w → Q (effect w))
    (hstop : ∀ stop w, ¬host.Reliable → stop ≠ .fuel → P w ∨ Q w → E stop w) :
    Triple P (call host effect) (fun _ => Q) E := by
  unfold call
  apply Triple.bind (triple_get (Q := fun w w' => w = w' ∧ P w') fun w hw => ⟨rfl, hw⟩)
  intro w
  apply Triple.bind (Q := fun _ => P)
    (triple_modify fun w' hw' => hcalls _ _ hw'.2)
  intro _
  have hfails : ∀ (done : Bool) (stop : Stop Err), host.answer w.calls ≠ .ok → stop ≠ .fuel →
      Triple P (do
        modify fun w => if done then effect w else w
        throw stop) (fun (_ : Unit) => Q) E := by
    intro done stop hanswer hfuel
    have hblame : ¬host.Reliable := fun hreliable => hanswer (hreliable.1 _)
    apply Triple.bind (Q := fun _ w => P w ∨ Q w)
    · apply triple_modify
      intro w' hw'
      cases done with
      | true => exact .inr (heffect w' hw')
      | false => exact .inl hw'
    · intro _
      exact triple_throw fun w' hw' => hstop stop w' hblame hfuel hw'
  cases hanswer : host.answer w.calls with
  | ok => exact triple_modify heffect
  | err done e => exact hfails done (.err (.io e)) (by rw [hanswer]; simp) (by simp)
  | crash done => exact hfails done .crash (by rw [hanswer]; simp) (by simp)

/-- A stop that the surroundings are to blame for, in a state in `R`. -/
def Blamed (host : Host) (R : World → Prop) (stop : Stop Err) (w : World) : Prop :=
  ¬host.Reliable ∧ stop ≠ .fuel ∧ R w

theorem Blamed.mono {R R' : World → Prop} (h : ∀ w, R w → R' w) {stop : Stop Err} {w : World}
    (hstop : Blamed host R stop w) : Blamed host R' stop w :=
  ⟨hstop.1, hstop.2.1, h w hstop.2.2⟩

variable {α : Type} {m : Flow α} {R : World → Prop} {S : α → World → Prop}

theorem call_keeps {effect : World → World} (hR : ∀ w, P w → R w)
    (heffect : ∀ w, P w → P (effect w) := by exact fun _ h => h)
    (hcalls : ∀ w n, P w → P { w with calls := n } := by exact fun _ _ h => h) :
    Triple P (call host effect) (fun _ => P) (Blamed host R) :=
  call_triple hcalls heffect fun _ w hblame hfuel hw => ⟨hblame, hfuel, hR w (hw.elim id id)⟩

theorem attempt_triple (h : Triple P m S (Blamed host R)) :
    Triple P (attempt m)
      (fun r w => match r with
        | .ok a => S a w
        | .error _ => ¬host.Reliable ∧ R w) (Blamed host R) := by
  apply triple_attempt
  apply h.mono (fun _ h => h) (fun _ _ h => h)
  intro stop w hstop
  cases stop with
  | err e => exact ⟨hstop.1, hstop.2.2⟩
  | crash | fuel => exact hstop

theorem wrapping_triple {text : String} (h : Triple P m S (Blamed host R)) :
    Triple P (wrapping text m) S (Blamed host R) := by
  apply Triple.bind (attempt_triple h)
  intro r
  cases r with
  | ok a => exact triple_pure
  | error e => exact triple_throw fun w hw => ⟨hw.1, by simp, hw.2⟩

/-- The part of the world that the results are about. -/
def Shows (table : List String) (log : List Event) (w : World) : Prop :=
  w.mountTable = table ∧ w.log = log

theorem record_triple {table : List String} {log : List Event} (e : Event) :
    Triple (Shows table log) (record e) (fun _ => Shows table (log ++ [e])) E :=
  triple_modify fun w hw => ⟨hw.1, by rw [hw.2]⟩

end

/-! ## A phase -/

/-- The log of a phase over `xs` up to some point. -/
structure PhaseLog (xs : List Artifact) (log : List Event) : Prop where
  only : ∀ e ∈ log, ∃ id, e = .apply id ∨ e = .applied id
  applied : ∀ id, .applied id ∈ log → .apply id ∈ log
  grounded : ∀ id, .apply id ∈ log → Grounded xs id
  once : ∀ id, log.count (.apply id) ≤ 1
  ordered : ∀ before id after, log = before ++ .apply id :: after →
    ∃ a ∈ xs, a.artifactID = id ∧ (a.dependsOn ∈ ids xs → .applied a.dependsOn ∈ before)

structure PhaseDone (xs : List Artifact) (log : List Event) : Prop extends PhaseLog xs log where
  all : ∀ id, Grounded xs id → .applied id ∈ log

/-- The log of a phase against its bookkeeping. -/
structure SchedLog (host : Host) (xs : List Artifact) (st : Sched Err) (log : List Event) : Prop
    extends PhaseLog xs log where
  completed : ∀ id ∈ st.completed, Grounded xs id
  begun : ∀ id, .apply id ∈ log → id ∈ st.completed
  succeeded : ∀ id ∈ st.completed, id ∉ st.failed → .applied id ∈ log
  clean : st.lastErr = none → st.failed = ∅
  blamed : st.lastErr ≠ none → ¬host.Reliable

section

variable {host : Host} {xs : List Artifact} {log : List Event}

theorem PhaseLog.nil (xs : List Artifact) : PhaseLog xs [] := by
  refine ⟨by simp, by simp, by simp, by simp, ?_⟩
  intro before id after h
  cases before <;> cases h

/-- One more event: a success behind its beginning, or the beginning of an artifact that
    has its turn. -/
theorem PhaseLog.snoc (h : PhaseLog xs log) {e : Event} (honly : ∃ id, e = .apply id ∨ e = .applied id)
    (happlied : ∀ id, e = .applied id → .apply id ∈ log)
    (happly : ∀ id, e = .apply id → e ∉ log ∧ Grounded xs id ∧
      ∃ a ∈ xs, a.artifactID = id ∧ (a.dependsOn ∈ ids xs → .applied a.dependsOn ∈ log)) :
    PhaseLog xs (log ++ [e]) := by
  constructor
  · exact forall_mem_append.mpr ⟨h.only, forall_mem_singleton.mpr honly⟩
  · intro id hid
    rcases mem_append.mp hid with hid | hid
    · exact mem_append_left _ (h.applied id hid)
    · exact mem_append_left _ (happlied id (mem_singleton.mp hid).symm)
  · intro id hid
    rcases mem_append.mp hid with hid | hid
    · exact h.grounded id hid
    · exact (happly id (mem_singleton.mp hid).symm).2.1
  · intro id
    rw [count_append, count_singleton]
    by_cases he : e = .apply id
    · rw [← he, count_eq_zero_of_not_mem (happly id he).1]
      simp
    · rw [if_neg (by simpa using he)]
      exact h.once id
  · intro before id after hsplit
    rcases eq_nil_or_concat after with rfl | ⟨after, e', rfl⟩
    · obtain rfl : log = before := append_inj_left' hsplit rfl
      have hlast := append_inj_right' hsplit rfl
      exact (happly id (singleton_inj.mp hlast)).2.2
    · rw [concat_eq_append, ← cons_append, ← append_assoc] at hsplit
      exact h.ordered before id after (append_inj_left' hsplit rfl)

theorem SchedLog.nil (host : Host) (xs : List Artifact) : SchedLog host xs {} [] :=
  { PhaseLog.nil xs with
    completed := by simp
    begun := by simp
    succeeded := by simp
    clean := fun _ => rfl
    blamed := fun h => absurd rfl h }

variable {st : Sched Err} {a : Artifact}

section

variable (h : SchedLog host xs st log) (hready : st.Ready xs a)
include h hready

theorem SchedLog.skip (hfailed : a.dependsOn ∈ st.failed) : SchedLog host xs (st.skip a) log := by
  refine { h.toPhaseLog with
    completed := hready.grounded_insert h.completed
    begun := ?_
    succeeded := ?_
    clean := ?_
    blamed := ?_ }
  · intro id hid
    exact Finset.mem_insert_of_mem (h.begun id hid)
  · intro id hid hnot
    rcases Finset.mem_insert.mp hid with rfl | hid
    · exact absurd (Finset.mem_insert_self _ _) hnot
    · exact h.succeeded id hid fun hmem => hnot (Finset.mem_insert_of_mem hmem)
  · intro hnone
    rw [h.clean hnone] at hfailed
    cases hfailed
  · exact h.blamed

theorem SchedLog.begin (hfailed : a.dependsOn ∉ st.failed) :
    PhaseLog xs (log ++ [.apply a.artifactID]) := by
  apply h.snoc ⟨_, .inl rfl⟩ nofun
  rintro id ⟨⟩
  refine ⟨fun hmem => hready.new (h.begun _ hmem), hready.grounded h.completed, a, hready.mem, rfl, ?_⟩
  exact fun hscope => h.succeeded _ (hready.dep hscope) hfailed

theorem SchedLog.fail {log' : List Event} (hlog' : PhaseLog xs log') (hsub : ∀ e ∈ log, e ∈ log')
    (hbegun : ∀ id, .apply id ∈ log' → id = a.artifactID ∨ .apply id ∈ log)
    (hblame : ¬host.Reliable) (e : Err) : SchedLog host xs (st.called a (some e)) log' := by
  refine { hlog' with
    completed := hready.grounded_insert h.completed
    begun := ?_
    succeeded := ?_
    clean := ?_
    blamed := ?_ }
  · intro id hid
    rcases hbegun id hid with rfl | hold
    · exact Finset.mem_insert_self _ _
    · exact Finset.mem_insert_of_mem (h.begun id hold)
  · intro id hid hnot
    rcases Finset.mem_insert.mp hid with rfl | hid
    · exact absurd (Finset.mem_insert_self _ _) hnot
    · exact hsub _ (h.succeeded id hid fun hmem => hnot (Finset.mem_insert_of_mem hmem))
  · intro hnone
    cases hnone
  · intro _
    exact hblame

theorem SchedLog.succeed (hfailed : a.dependsOn ∉ st.failed) :
    SchedLog host xs (st.called a none) (log ++ [.apply a.artifactID] ++ [.applied a.artifactID]) := by
  have hlog : PhaseLog xs (log ++ [.apply a.artifactID] ++ [.applied a.artifactID]) := by
    apply (h.begin hready hfailed).snoc ⟨_, .inr rfl⟩ ?_ nofun
    rintro id ⟨⟩
    exact mem_append_right log (mem_singleton.mpr rfl)
  refine { hlog with
    completed := hready.grounded_insert h.completed
    begun := ?_
    succeeded := ?_
    clean := ?_
    blamed := ?_ }
  · intro id hid
    by_cases hold : Event.apply id ∈ log
    · exact Finset.mem_insert_of_mem (h.begun id hold)
    · obtain rfl : id = a.artifactID := by simpa [hold] using hid
      exact Finset.mem_insert_self _ _
  · intro id hid hnot
    rcases Finset.mem_insert.mp hid with rfl | hid
    · simp
    · have hmem := h.succeeded id hid hnot
      simp [hmem]
  · exact h.clean
  · exact h.blamed

end

variable {table : List String}

/-- The states in which the callback for `a` can fail. -/
def Begun (table : List String) (log : List Event) (a : Artifact) (w : World) : Prop :=
  Shows table log w ∨ Shows table (log ++ [.apply a.artifactID]) w

theorem applyArtifact_triple (host : Host) (a : Artifact) :
    Triple (Shows table log) (applyArtifact host a)
      (fun r w => match r with
        | none => Shows table (log ++ [.apply a.artifactID] ++ [.applied a.artifactID]) w
        | some _ => ¬host.Reliable ∧ Begun table log a w)
      (Blamed host (Begun table log a)) := by
  apply Triple.bind (record_triple _)
  intro _
  apply Triple.bind
    (attempt_triple (call_keeps fun _ hw => .inr hw))
  intro r
  cases r with
  | error e => exact triple_pure
  | ok _ =>
    apply Triple.bind (record_triple _)
    intro _
    exact triple_pure

theorem processArtifact_triple (host : Host) (waitForFiles : Bool) (a : Artifact) :
    Triple (Shows table log) (processArtifact host waitForFiles a)
      (fun r w => match r with
        | none => Shows table (log ++ [.apply a.artifactID] ++ [.applied a.artifactID]) w
        | some _ => ¬host.Reliable ∧ Begun table log a w)
      (Blamed host (Begun table log a)) := by
  unfold processArtifact
  apply triple_ite
  · intro _
    apply Triple.bind
      (attempt_triple (call_keeps fun _ hw => .inl hw))
    intro r
    cases r with
    | error e => exact triple_pure
    | ok _ => exact applyArtifact_triple host a
  · intro _
    exact applyArtifact_triple host a

/-- How a phase over `xs` ends: with a log of its own behind `base`. -/
def PhaseEnds (table : List String) (base : List Event) (Log : List Event → Prop) (w : World) :
    Prop :=
  ∃ log, Log log ∧ Shows table (base ++ log) w

theorem SchedLog.done (h : SchedLog host xs st log) (hstuck : st.Stuck xs xs)
    (hnone : st.lastErr = none) : PhaseDone xs log := by
  refine { h.toPhaseLog with all := ?_ }
  intro id hid
  apply h.succeeded id (hid.completed hstuck)
  rw [h.clean hnone]
  simp

/-- **A phase**: its log is a `PhaseLog`, and a `PhaseDone` if it ends without an error,
    which it does in reliable surroundings. -/
theorem processArtifacts_triple (table : List String) (base : List Event) (host : Host)
    (xs : List Artifact) (waitForFiles : Bool) :
    Triple (Shows table base) (processArtifacts host xs waitForFiles)
      (fun r w => match r with
        | none => PhaseEnds table base (PhaseDone xs) w
        | some _ => ¬host.Reliable ∧ PhaseEnds table base (PhaseLog xs) w)
      (Blamed host (PhaseEnds table base (PhaseLog xs))) := by
  have hbase : ∀ w, Shows table base w → PhaseEnds table base (PhaseLog xs) w := by
    intro w hw
    exact ⟨[], PhaseLog.nil xs, by rwa [append_nil]⟩
  have hrun : Triple (fun w => PhaseEnds table base (SchedLog host xs {}) w)
      (runInOrder xs (processArtifact host waitForFiles))
      (fun err w => ∃ st : Sched Err, PhaseEnds table base (SchedLog host xs st) w ∧
        err = st.lastErr ∧ st.Within xs ∧ st.Stuck xs xs)
      (Blamed host (PhaseEnds table base (PhaseLog xs))) := by
    apply runInOrder_triple (fun st => PhaseEnds table base (SchedLog host xs st))
    · intro st a w _ hready hfailed hinv
      obtain ⟨log, hlog, hshows⟩ := hinv
      exact ⟨log, hlog.skip hready hfailed, hshows⟩
    · intro st a _ hready hfailed
      apply triple_exists
      intro log
      apply triple_of_prop
      intro hlog
      have hbegin := hlog.begin hready hfailed
      -- where the callback can stop, the log is one of this phase
      have hbegun : ∀ w, Begun table (base ++ log) a w →
          ∃ log', PhaseLog xs log' ∧ (∀ e ∈ log, e ∈ log') ∧
            (∀ id, .apply id ∈ log' → id = a.artifactID ∨ .apply id ∈ log) ∧
            Shows table (base ++ log') w := by
        intro w hw
        rcases hw with hw | hw
        · exact ⟨log, hlog.toPhaseLog, fun e he => he, fun id hid => .inr hid, hw⟩
        refine ⟨log ++ [.apply a.artifactID], hbegin, fun e he => ?_, fun id hid => ?_, ?_⟩
        · exact mem_append_left _ he
        · simpa [or_comm] using hid
        · rwa [← append_assoc]
      apply (processArtifact_triple host waitForFiles a).mono (fun _ h => h)
      · intro r w hr
        cases r with
        | none =>
          refine ⟨_, hlog.succeed hready hfailed, ?_⟩
          rwa [← append_assoc, ← append_assoc]
        | some e =>
          obtain ⟨hblame, hw⟩ := hr
          obtain ⟨log', hlog', hsub, hids, hshows⟩ := hbegun w hw
          exact ⟨log', hlog.fail hready hlog' hsub hids hblame e, hshows⟩
      · intro stop w hstop
        apply hstop.mono
        intro w hw
        obtain ⟨log', hlog', -, -, hshows⟩ := hbegun w hw
        exact ⟨log', hlog', hshows⟩
  apply Triple.bind (attempt_triple (call_keeps hbase))
  intro r
  cases r with
  | error e => exact triple_pure
  | ok _ =>
    apply hrun.mono
    · intro w hw
      exact ⟨[], SchedLog.nil host xs, by rwa [append_nil]⟩
    · rintro r w ⟨st, ⟨log, hlog, hshows⟩, rfl, -, hstuck⟩
      cases herr : st.lastErr with
      | none => exact ⟨log, hlog.done hstuck herr, hshows⟩
      | some e => exact ⟨hlog.blamed (by rw [herr]; simp), log, hlog.toPhaseLog, hshows⟩
    · exact fun _ _ h => h

end

/-! ## Unmounting and mounting -/

section

variable {host : Host} {K : List Event → Prop}

/-- What the log is like; the rest of the world may be anything. -/
def LogIn (K : List Event → Prop) (w : World) : Prop := K w.log

theorem joinErr_ne_none (e : Err) (e' : Option Err) : joinErr (some e) e' ≠ none := by
  cases e' <;> simp [joinErr]

theorem unmountEach_triple (host : Host) (rev kept : List String)
    (errs : Option Err) (herrs : errs ≠ none → ¬host.Reliable) :
    Triple (LogIn K) (unmountEach host rev kept errs)
      (fun r w => (r ≠ none → ¬host.Reliable) ∧ LogIn K w) (Blamed host (LogIn K)) := by
  induction rev generalizing kept errs with
  | nil =>
    rw [unmountEach]
    exact triple_pure fun w hw => ⟨herrs, hw⟩
  | cons t rev ih =>
    rw [unmountEach]
    refine Triple.bind
      (attempt_triple (call_keeps fun _ h => h)) ?_
    intro r
    cases r with
    | error e =>
      apply triple_of_prop
      intro hblame
      exact ih (t :: kept) _ fun _ => hblame
    | ok _ =>
      apply Triple.bind (Q := fun _ => LogIn K)
      · exact triple_modify fun w hw => hw
      · intro _
        exact ih kept errs herrs

theorem unmountAll_triple (host : Host) :
    Triple (LogIn K) (unmountAll host)
      (fun r w => (r ≠ none → ¬host.Reliable) ∧ LogIn K w) (Blamed host (LogIn K)) := by
  unfold unmountAll
  apply Triple.bind (Q := fun _ => LogIn K) (triple_get fun w hw => hw)
  intro w
  exact unmountEach_triple host _ _ none fun h => absurd rfl h

theorem failing_triple (host : Host) (e : Err) {Q : Unit → World → Prop}
    (hblame : ¬host.Reliable) :
    Triple (LogIn K) (do
      match joinErr (some e) (← unmountAll host) with
      | some e => throw (.err e)
      | none => return : Flow Unit) Q (Blamed host (LogIn K)) := by
  apply Triple.bind (unmountAll_triple host)
  intro r
  cases hjoin : joinErr (some e) r with
  | none => exact absurd hjoin (joinErr_ne_none e r)
  | some e' => exact triple_throw fun w hw => ⟨hblame, by simp, hw.2⟩

theorem rollingBack_triple {P : World → Prop} {Q : Unit → World → Prop} {m : Flow Unit}
    (h : Triple P m Q (Blamed host (LogIn K))) :
    Triple P (rollingBack host m) Q (Blamed host (LogIn K)) := by
  apply Triple.bind (attempt_triple h)
  intro r
  cases r with
  | ok a => exact triple_pure
  | error e =>
    apply triple_of_prop
    intro hblame
    exact failing_triple host e hblame

/-- The log of mounts that were all established. -/
def mountEvents (mounts : List Mount) : List Event :=
  mounts.flatMap fun m => [.apply m.id, .applied m.id]

/-- The log of establishing `mounts` up to some point: the mounts `done`, and perhaps the
    beginning of the next one. -/
def MountLog (mounts : List Mount) (log : List Event) : Prop :=
  ∃ done rest, mounts = done ++ rest ∧
    (log = mountEvents done ∨ ∃ m rest', rest = m :: rest' ∧ log = mountEvents done ++ [.apply m.id])

theorem mountEvents_snoc (mounts : List Mount) (m : Mount) :
    mountEvents (mounts ++ [m]) = mountEvents mounts ++ [.apply m.id] ++ [.applied m.id] := by
  simp [mountEvents]

theorem record_log {base : List Event} {E : Stop Err → World → Prop} (e : Event) :
    Triple (LogIn (· = base)) (record e) (fun _ => LogIn (· = base ++ [e])) E := by
  apply triple_modify
  intro w hw
  show w.log ++ [e] = base ++ [e]
  rw [show w.log = base from hw]

theorem establishMount_triple (host : Host) (base : List Event) (m : Mount) :
    Triple (LogIn (· = base)) (establishMount host m)
      (fun _ => LogIn (· = base ++ [.apply m.id] ++ [.applied m.id]))
      (Blamed host (LogIn (· = base ++ [.apply m.id]))) := by
  unfold establishMount
  apply Triple.bind (record_log _)
  intro _
  generalize base ++ [Event.apply m.id] = begun
  have hcall : ∀ {effect : World → World}, (∀ w, (effect w).log = w.log) →
      Triple (LogIn (· = begun)) (call host effect) (fun _ => LogIn (· = begun))
        (Blamed host (LogIn (· = begun))) := fun heffect =>
    call_keeps (fun _ h => h) fun w h => (heffect w).trans h
  apply Triple.bind (hcall fun _ => rfl)
  intro _
  apply Triple.bind (hcall fun _ => rfl)
  intro _
  apply Triple.bind (hcall fun _ => rfl)
  intro _
  apply Triple.bind (Q := fun _ => LogIn (· = begun))
  · exact triple_get fun w hw => hw
  intro w
  -- the mount itself and the runner's own list
  have hmount : Triple (LogIn (· = begun)) (do
      call host fun w => { w with mountTable := w.mountTable ++ [target m] }
      modify fun w => { w with mounted := w.mounted ++ [target m] }
      record (.applied m.id) : Flow Unit)
      (fun _ => LogIn (· = begun ++ [.applied m.id])) (Blamed host (LogIn (· = begun))) := by
    refine Triple.bind (hcall fun _ => rfl) ?_
    intro _
    apply Triple.bind (Q := fun _ => LogIn (· = begun))
    · exact triple_modify fun w hw => hw
    · intro _
      exact record_log _
  apply triple_ite
  · intro _
    apply Triple.bind (hcall fun _ => rfl)
    intro _
    exact hmount
  · intro _
    exact hmount

theorem establishMounts_triple (host : Host) (base : List Event) (mounts : List Mount) :
    Triple (LogIn (· = base)) (establishMounts host mounts)
      (fun _ => LogIn (· = base ++ mountEvents mounts))
      (Blamed host (LogIn fun log => ∃ own, MountLog mounts own ∧ log = base ++ own)) := by
  have hforM := triple_forM
    (E := Blamed host (LogIn fun log => ∃ own, MountLog mounts own ∧ log = base ++ own))
    (f := fun m => wrapping ("mount " ++ m.id) (establishMount host m))
    (fun done => LogIn (· = base ++ mountEvents done)) mounts ?_
  · apply hforM.pre
    intro w hw
    show w.log = base ++ []
    rw [append_nil]
    exact hw
  · intro done m rest hsplit
    apply wrapping_triple
    apply (establishMount_triple host (base ++ mountEvents done) m).mono (fun _ h => h)
    · intro _ w hw
      show w.log = base ++ mountEvents (done ++ [m])
      rw [mountEvents_snoc, ← append_assoc, ← append_assoc]
      exact hw
    · intro stop w hstop
      apply hstop.mono
      intro w hw
      refine ⟨mountEvents done ++ [.apply m.id], ⟨done, m :: rest, hsplit, .inr ⟨m, rest, rfl, rfl⟩⟩, ?_⟩
      rw [← append_assoc]
      exact hw

/-- The mounts are established in the order of the list. -/
theorem mount_triple (host : Host) (base : List Event) (mounts : List Mount) :
    Triple (LogIn (· = base)) (mount host mounts)
      (fun _ => LogIn (· = base ++ mountEvents mounts))
      (Blamed host (LogIn fun log => ∃ own, MountLog mounts own ∧ log = base ++ own)) := by
  unfold mount
  apply triple_ite
  · rintro rfl
    apply triple_pure
    intro w hw
    show w.log = base ++ []
    rw [append_nil]
    exact hw
  intro _
  have hnone : ∀ w, LogIn (· = base) w →
      LogIn (fun log => ∃ own, MountLog mounts own ∧ log = base ++ own) w := by
    intro w hw
    exact ⟨[], ⟨[], mounts, rfl, .inl rfl⟩, by rw [append_nil]; exact hw⟩
  apply Triple.bind (Q := fun _ => LogIn (· = base))
  · apply triple_forM (fun _ => LogIn (· = base))
    intro done m rest _
    apply triple_ite
    · intro _
      exact triple_pure
    · intro _
      apply rollingBack_triple
      apply wrapping_triple
      exact call_keeps hnone
  · intro _
    exact rollingBack_triple (establishMounts_triple host base mounts)

variable {table : List String} {base : List Event}

theorem activeMounts_triple (host : Host) (mounts : List Mount) :
    Triple (Shows table base) (activeMounts host mounts)
      (fun active w => active = (mounts.map target).filter (· ∈ table) ∧ Shows table base w)
      (Blamed host (Shows table base)) := by
  have hfold := triple_foldlM (E := Blamed host (Shows table base))
    (f := fun active m => do
      wrapping ("inspect mount " ++ m.id) (call host id)
      let w ← get
      return if target m ∈ w.mountTable then active ++ [target m] else active)
    (fun done active w => active = (done.map target).filter (· ∈ table) ∧ Shows table base w)
    mounts ?_ []
  · apply hfold.pre
    intro w hw
    exact ⟨rfl, hw⟩
  · intro done m rest active hsplit
    apply triple_of_prop
    intro hactive
    apply Triple.bind
      (wrapping_triple (call_keeps fun _ h => h))
    intro _
    apply Triple.bind (Q := fun w w' => w.mountTable = table ∧ Shows table base w')
      (triple_get fun w hw => ⟨hw.1, hw⟩)
    intro w
    apply triple_of_prop
    intro htable
    apply triple_pure
    intro w' hw'
    refine ⟨?_, hw'⟩
    rw [hactive, htable, map_append, filter_append]
    by_cases hmem : target m ∈ table <;> simp [hmem]

theorem Shows.logIn {w : World} (h : Shows table base w) : LogIn (· = base) w := h.2

/-- The mounts of an earlier run are adopted only when they are all there. -/
theorem adoptExistingMounts_triple (host : Host) (mounts : List Mount) :
    Triple (Shows table base) (adoptExistingMounts host mounts)
      (fun adopted w => (adopted = true → mounts ≠ [] ∧ ∀ m ∈ mounts, target m ∈ table) ∧
        LogIn (· = base) w)
      (Blamed host (LogIn (· = base))) := by
  unfold adoptExistingMounts
  apply Triple.bind ((activeMounts_triple host mounts).mono (fun _ h => h) (fun _ _ h => h)
    fun _ _ hstop => hstop.mono fun w hw => hw.logIn)
  intro active
  apply triple_of_prop
  intro hactive
  apply triple_ite
  · rintro ⟨hlen, hne⟩
    have hall : ∀ m ∈ mounts, target m ∈ table := by
      have hfull : (mounts.map target).filter (· ∈ table) = mounts.map target := by
        apply filter_sublist.eq_of_length
        rw [← hactive, hlen, length_map]
      intro m hm
      have hmem : target m ∈ (mounts.map target).filter (· ∈ table) := by
        rw [hfull]
        exact mem_map_of_mem hm
      simpa using (mem_filter.mp hmem).2
    apply Triple.bind (Q := fun _ => LogIn (· = base))
    · exact triple_modify fun w hw => hw.logIn
    · intro _
      exact triple_pure fun w hw => ⟨fun _ => ⟨hne, hall⟩, hw⟩
  · intro _
    apply Triple.bind (Q := fun _ => LogIn (· = base))
    · apply (triple_forM (fun _ => LogIn (· = base)) active.reverse ?_).pre
        (fun w hw => hw.logIn)
      intro done t rest _
      exact wrapping_triple (call_keeps fun _ h => h)
    · intro _
      exact triple_pure fun w hw => ⟨by simp, hw⟩

end

end Orchestrator.Sidecar

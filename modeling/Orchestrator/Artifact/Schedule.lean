/-
  Orchestrator.Artifact.Schedule

  What the two graph algorithms do with an artifact list, in terms of its dependency graph.

  `DependsWithin` is that graph: the links from an artifact to the one of the list it
  names.  `partition` sorts by reachability of an artifact that names a sentinel.  For
  `runInOrder` the callback is any function of the calls made so far (`answer`), and the
  state is the log of calls: the results say what the log holds when it returns.
-/

import Orchestrator.Artifact.Graph
import Orchestrator.Lib.Schedule

namespace Orchestrator.Artifact

open Lib Relation

/-- A depends link within the list. -/
def DependsWithin (artifacts : List Artifact) (a b : Artifact) : Prop :=
  b ∈ artifacts ∧ b.artifactID = a.dependsOn

section

variable {artifacts : List Artifact} {a b : Artifact}

theorem DependsWithin.mem (h : DependsWithin artifacts a b) : a.dependsOn ∈ ids artifacts :=
  mem_ids.mpr ⟨b, h.1, h.2⟩

theorem exists_dependsWithin (h : a.dependsOn ∈ ids artifacts) : ∃ b, DependsWithin artifacts a b := by
  obtain ⟨b, hb, hid⟩ := mem_ids.mp h
  exact ⟨b, hb, hid⟩

theorem mem_of_reach (ha : a ∈ artifacts) (h : ReflTransGen (DependsWithin artifacts) a b) :
    b ∈ artifacts := by
  rcases ReflTransGen.cases_tail h with rfl | ⟨c, -, hcb⟩
  · exact ha
  · exact hcb.1

/-! ## Partition -/

/-- Following the links from the artifact reaches one that depends on a sentinel. -/
def ReachesPost (artifacts : List Artifact) (a : Artifact) : Prop :=
  ∃ b, ReflTransGen (DependsWithin artifacts) a b ∧ PostPhase b.dependsOn

theorem ReachesPost.postId (ha : a ∈ artifacts) (h : ReachesPost artifacts a) :
    PostId artifacts a.artifactID := by
  obtain ⟨b, hreach, hpost⟩ := h
  induction hreach using ReflTransGen.head_induction_on with
  | refl => exact .direct ha hpost
  | head hlink _ ih =>
    apply PostId.step ha
    rw [← hlink.2]
    exact ih hlink.1

/-- The fixpoint of the marking loop is reachability, when an id stands for one artifact. -/
theorem PostId.reachesPost (hids : DistinctIds artifacts) {id : String} (h : PostId artifacts id)
    (ha : a ∈ artifacts) (hid : a.artifactID = id) : ReachesPost artifacts a := by
  induction h generalizing a with
  | direct hb hpost =>
    obtain rfl := hids.eq ha hb hid
    exact ⟨a, .refl, hpost⟩
  | step hb hdep ih =>
    obtain rfl := hids.eq ha hb hid
    obtain ⟨c, hlink⟩ := exists_dependsWithin hdep.mem
    obtain ⟨d, hreach, hpost⟩ := ih hlink.1 hlink.2
    exact ⟨d, .head hlink hreach, hpost⟩

/-- **Partition by reachability**: `partition` returns, the two lists interleave back to the
    input, and an artifact is in the second one exactly if its depends links lead to an
    artifact that depends on a sentinel. -/
theorem partition_by_reach (artifacts : List Artifact) (hids : DistinctIds artifacts) :
    ∃ preJob postJob, partition artifacts = .ok (preJob, postJob) ∧
      Interleaves preJob postJob artifacts ∧
      ∀ a ∈ artifacts, (a ∈ postJob ↔ ReachesPost artifacts a) ∧
        (a ∈ preJob ↔ ¬ReachesPost artifacts a) := by
  obtain ⟨marked, hmarked, hok⟩ := partition_spec artifacts
  refine ⟨_, _, hok, interleaves_filter (fun a => a.artifactID ∈ marked) artifacts, ?_⟩
  intro a ha
  have hreach : a.artifactID ∈ marked ↔ ReachesPost artifacts a := by
    rw [hmarked]
    exact ⟨fun h => h.reachesPost hids ha rfl, fun h => h.postId ha⟩
  constructor
  · simp [ha, hreach]
  · simp [ha, hreach]

/-- A list with an artifact of each kind: it uploads after the job, looks at what was
    uploaded, and writes a file before the job. -/
def outputs : List Artifact :=
  [.stat { id := "look", in_ := "out", depends := "up" },
    .upload { id := "up", in_ := "out", out := "https://host/out", depends := "job" },
    .write { id := "input", in_ := "text", out := "in" }]

theorem outputs_partitioned :
    DistinctIds outputs ∧ ∃ preJob postJob, partition outputs = .ok (preJob, postJob) ∧
      Interleaves preJob postJob outputs ∧
      ∀ a ∈ outputs, (a ∈ postJob ↔ ReachesPost outputs a) ∧
        (a ∈ preJob ↔ ¬ReachesPost outputs a) :=
  ⟨by decide, partition_by_reach outputs (by decide)⟩

/-! ## Chains that end -/

/-- Without two artifacts of one id, the grounded ids are those whose chain ends. -/
theorem grounded_iff_not_circles (hids : DistinctIds artifacts) (ha : a ∈ artifacts) :
    Grounded artifacts a.artifactID ↔ ¬Circles (DependsWithin artifacts) a := by
  constructor
  · intro h
    have hacc : ∀ {id}, Grounded artifacts id → ∀ {a}, a ∈ artifacts → a.artifactID = id →
        Acc (fun y x => DependsWithin artifacts x y) a := by
      intro id h
      induction h with
      | root hb hout =>
        intro a ha hid
        obtain rfl := hids.eq ha hb hid
        exact ⟨_, fun c hlink => absurd hlink.mem hout⟩
      | step hb _ ih =>
        intro a ha hid
        obtain rfl := hids.eq ha hb hid
        exact ⟨_, fun c hlink => ih hlink.1 hlink.2⟩
    exact not_circles_of_acc (hacc h ha rfl)
  · intro h
    have hfin : {x | ReflTransGen (DependsWithin artifacts) a x}.Finite :=
      (List.finite_toSet artifacts).subset fun x hx => mem_of_reach ha hx
    have hacc := (acc_or_circles hfin).resolve_right h
    clear h hfin
    induction hacc with
    | intro a _ ih =>
      by_cases hdep : a.dependsOn ∈ ids artifacts
      · obtain ⟨b, hlink⟩ := exists_dependsWithin hdep
        apply Grounded.step ha
        rw [← hlink.2]
        exact ih b hlink hlink.1
      · exact .root ha hdep

end

/-! ## RunInOrder -/

section

variable {ε ε' : Type}

/-- The calls of the callback, each with the error it returned. -/
abbrev Calls (ε : Type) := List (Artifact × Option ε)

/-- A callback whose answer may depend on all the calls before. -/
def answer (outcome : Calls ε → Artifact → Option ε) (a : Artifact) :
    Prog (Calls ε) ε' (Option ε) := do
  let log ← get
  modify fun log => log ++ [(a, outcome log a)]
  return outcome log a

def lastError (log : Calls ε) : Option ε := (log.filterMap Prod.snd).getLast?

/-- The artifact depends, at one or more links, on one whose call failed. -/
def BehindFailed (artifacts : List Artifact) (log : Calls ε) (a : Artifact) : Prop :=
  ∃ b err, TransGen (DependsWithin artifacts) a b ∧ (b, some err) ∈ log

/-- The dependency of a call within the list was called before and succeeded. -/
def AfterDependency (artifacts : List Artifact) (before : Calls ε) (call : Artifact × Option ε) : Prop :=
  ∀ b, DependsWithin artifacts call.1 b → (b, none) ∈ before

theorem lastError_concat (log : Calls ε) (a : Artifact) (err : Option ε) :
    lastError (log ++ [(a, err)]) = (err <|> lastError log) := by
  unfold lastError
  rw [List.filterMap_append]
  cases err with
  | none | some e => simp

theorem answer_triple {outcome : Calls ε → Artifact → Option ε} {a : Artifact} {log : Calls ε}
    {Q : Option ε → Calls ε → Prop} {E : ε' → Calls ε → Prop}
    (h : Q (outcome log a) (log ++ [(a, outcome log a)])) :
    Prog.Triple (fun s => s = log) (answer outcome a) Q E := by
  rintro s rfl
  exact h

structure Recorded (artifacts : List Artifact) (outcome : Calls ε → Artifact → Option ε)
    (st : Sched ε) (log : Calls ε) : Prop where
  mem : ∀ call ∈ log, call.1 ∈ artifacts ∧ call.1.artifactID ∈ st.completed
  once : (log.map Prod.fst).Nodup
  answered : History (fun before call => call.2 = outcome before call.1) log
  ordered : History (AfterDependency artifacts) log
  grounded : ∀ id ∈ st.completed, Grounded artifacts id
  succeeded : ∀ a ∈ artifacts, a.artifactID ∈ st.completed → a.artifactID ∉ st.failed → (a, none) ∈ log
  failed : ∀ a ∈ artifacts, a.artifactID ∈ st.failed →
    (∃ err, (a, some err) ∈ log) ∨ BehindFailed artifacts log a
  lastErr : st.lastErr = lastError log

section

variable {artifacts : List Artifact} {outcome : Calls ε → Artifact → Option ε} {st : Sched ε}
  {log : Calls ε} {a : Artifact}

theorem BehindFailed.mono {log' : Calls ε} (h : BehindFailed artifacts log a) (hsub : log ⊆ log') :
    BehindFailed artifacts log' a := by
  obtain ⟨b, err, hreach, hfail⟩ := h
  exact ⟨b, err, hreach, hsub hfail⟩

section

variable (h : Recorded artifacts outcome st log)
include h

/-- Behind an artifact that failed or is behind a failed one. -/
theorem Recorded.behind {b : Artifact} (hlink : DependsWithin artifacts a b)
    (hb : b.artifactID ∈ st.failed) :
    BehindFailed artifacts log a := by
  rcases h.failed b hlink.1 hb with ⟨err, hcall⟩ | ⟨c, err, hreach, hfail⟩
  · exact ⟨b, err, .single hlink, hcall⟩
  · exact ⟨c, err, .head hlink hreach, hfail⟩

theorem Recorded.skip (hids : DistinctIds artifacts) (hwithin : st.Within artifacts)
    (hready : st.Ready artifacts a) (hdep : a.dependsOn ∈ st.failed) :
    Recorded artifacts outcome (st.skip a) log := by
  have hscope : a.dependsOn ∈ ids artifacts := hwithin.completed (hwithin.failed hdep)
  constructor
  · intro call hcall
    exact ⟨(h.mem call hcall).1, Finset.mem_insert_of_mem (h.mem call hcall).2⟩
  · exact h.once
  · exact h.answered
  · exact h.ordered
  · exact hready.grounded_insert h.grounded
  · intro b hb hdone hfine
    obtain ⟨hne, hfine⟩ := not_or.mp (mt Finset.mem_insert.mpr hfine)
    exact h.succeeded b hb ((Finset.mem_insert.mp hdone).resolve_left hne) hfine
  · intro b hb hfail
    rcases Finset.mem_insert.mp hfail with hid | hfail
    · obtain rfl := hids.eq hb hready.mem hid
      obtain ⟨c, hlink⟩ := exists_dependsWithin hscope
      exact .inr (h.behind hlink (by rwa [hlink.2]))
    · exact h.failed b hb hfail
  · exact h.lastErr

theorem Recorded.call (hids : DistinctIds artifacts) (hready : st.Ready artifacts a)
    (hdep : a.dependsOn ∉ st.failed) :
    Recorded artifacts outcome (st.called a (outcome log a)) (log ++ [(a, outcome log a)]) := by
  have hsub : log ⊆ log ++ [(a, outcome log a)] := List.subset_append_left _ _
  have hlast : (a, outcome log a) ∈ log ++ [(a, outcome log a)] := by simp
  constructor
  · intro call hcall
    rw [Sched.completed_called]
    rcases List.mem_append.mp hcall with hcall | hcall
    · exact ⟨(h.mem call hcall).1, Finset.mem_insert_of_mem (h.mem call hcall).2⟩
    · obtain rfl := List.mem_singleton.mp hcall
      exact ⟨hready.mem, Finset.mem_insert_self _ _⟩
  -- a ready artifact is not completed, so it was not called before
  · rw [List.map_append, List.nodup_append]
    refine ⟨h.once, by simp, ?_⟩
    rintro b hb _ hc rfl
    obtain ⟨call, hcall, rfl⟩ := List.mem_map.mp hb
    have hid : call.1 = a := by simpa using hc
    exact hready.new (hid ▸ (h.mem call hcall).2)
  · exact h.answered.concat rfl
  · apply h.ordered.concat
    intro b hlink
    have hb := hlink.2 ▸ hready.dep hlink.mem
    exact h.succeeded b hlink.1 hb (by rwa [hlink.2])
  · rw [Sched.completed_called]
    exact hready.grounded_insert h.grounded
  · intro b hb hdone hfine
    rw [Sched.completed_called] at hdone
    -- ids tell artifacts apart, so the call is the one of this artifact or an earlier one
    by_cases hid : b.artifactID = a.artifactID
    · obtain rfl := hids.eq hb hready.mem hid
      cases hout : outcome log b with
      | none => exact hout ▸ hlast
      | some err =>
        rw [hout] at hfine
        exact absurd (Finset.mem_insert_self _ _) hfine
    · refine hsub (h.succeeded b hb ((Finset.mem_insert.mp hdone).resolve_left hid) fun hmem => ?_)
      apply hfine
      cases outcome log a with
      | none => exact hmem
      | some err => exact Finset.mem_insert_of_mem hmem
  · intro b hb hfail
    have hold : b.artifactID ∈ st.failed →
        (∃ err, (b, some err) ∈ log ++ [(a, outcome log a)]) ∨
          BehindFailed artifacts (log ++ [(a, outcome log a)]) b := by
      intro hmem
      rcases h.failed b hb hmem with ⟨err, hcall⟩ | hbehind
      · exact .inl ⟨err, hsub hcall⟩
      · exact .inr (hbehind.mono hsub)
    cases hout : outcome log a with
    | none =>
      rw [hout] at hfail hold
      exact hold hfail
    | some err =>
      rw [hout] at hfail hold hlast
      rcases Finset.mem_insert.mp hfail with hid | hmem
      · obtain rfl := hids.eq hb hready.mem hid
        exact .inl ⟨err, hlast⟩
      · exact hold hmem
  · rw [Sched.called_lastErr, lastError_concat, h.lastErr]

/-- Behind an artifact that was called, all calls succeeded. -/
theorem Recorded.succeeded_behind {o : Option ε} (hcall : (a, o) ∈ log) {b : Artifact}
    (hreach : TransGen (DependsWithin artifacts) a b) :
    (b, none) ∈ log := by
  induction hreach with
  | single hlink =>
    obtain ⟨before, hsub, hafter⟩ := h.ordered.of_mem hcall
    exact hsub (hafter _ hlink)
  | tail _ hlink ih =>
    obtain ⟨before, hsub, hafter⟩ := h.ordered.of_mem ih
    exact hsub (hafter _ hlink)

theorem Recorded.eq_of_mem {o o' : Option ε} (ho : (a, o) ∈ log) (ho' : (a, o') ∈ log) :
    o = o' := by
  have heq := List.inj_on_of_nodup_map h.once ho ho' rfl
  exact (Prod.mk.inj heq).2

/-- What is left out when nothing has its turn any more. -/
theorem Recorded.left_out (hids : DistinctIds artifacts) (hstuck : st.Stuck artifacts artifacts)
    (ha : a ∈ artifacts) :
    (∀ o, (a, o) ∉ log) ↔ BehindFailed artifacts log a ∨ Circles (DependsWithin artifacts) a := by
  constructor
  · intro hnot
    by_cases hdone : a.artifactID ∈ st.completed
    · by_cases hfail : a.artifactID ∈ st.failed
      · rcases h.failed a ha hfail with ⟨err, hcall⟩ | hbehind
        · exact absurd hcall (hnot _)
        · exact .inl hbehind
      · exact absurd (h.succeeded a ha hdone hfail) (hnot _)
    · right
      by_contra hcircle
      exact hdone (((grounded_iff_not_circles hids ha).mpr hcircle).completed hstuck)
  · intro hwhy o hcall
    rcases hwhy with ⟨b, err, hreach, hfail⟩ | hcircle
    · have heq := h.eq_of_mem (h.succeeded_behind hcall hreach) hfail
      simp at heq
    · have hground := h.grounded _ (h.mem _ hcall).2
      exact (grounded_iff_not_circles hids ha).mp hground hcircle

end

end

/-- **RunInOrder**: for every callback it returns; each artifact is called at most once,
    after the call of its dependency within the list succeeded; left out are exactly the
    artifacts behind a failed one and those whose chain of dependencies runs into a cycle;
    and the result is the error of the last call that failed. -/
theorem runInOrder_calls [OutOfFuel ε'] (artifacts : List Artifact) (hids : DistinctIds artifacts)
    (outcome : Calls ε → Artifact → Option ε) :
    ∃ log : Calls ε,
      Prog.exec (runInOrder artifacts (answer outcome) : Prog (Calls ε) ε' (Option ε)) [] =
        (.ok (lastError log), log) ∧
      (∀ call ∈ log, call.1 ∈ artifacts) ∧ (log.map Prod.fst).Nodup ∧
      History (fun before call => call.2 = outcome before call.1) log ∧
      History (AfterDependency artifacts) log ∧
      ∀ a ∈ artifacts, (∀ o, (a, o) ∉ log) ↔
        BehindFailed artifacts log a ∨ Circles (DependsWithin artifacts) a := by
  have hrun : Prog.Triple (Recorded artifacts outcome {})
      (runInOrder artifacts (answer outcome) : Prog (Calls ε) ε' (Option ε))
      (fun err log => ∃ st : Sched ε, Recorded artifacts outcome st log ∧ err = st.lastErr ∧
        st.Within artifacts ∧ st.Stuck artifacts artifacts) fun _ _ => False := by
    apply runInOrder_triple (Recorded artifacts outcome)
    · intro st a log hwithin hready hfailed hrec
      exact hrec.skip hids hwithin hready hfailed
    · intro st a _ hready hfailed
      apply Prog.triple_of_states
      intro log hrec
      exact answer_triple (hrec.call hids hready hfailed)
  have hinit : Recorded artifacts outcome {} [] :=
    ⟨by simp, by simp, history_nil, history_nil, by simp, by simp, by simp, rfl⟩
  obtain ⟨err, log, hexec, st, hrec, rfl, -, hstuck⟩ := hrun.exec_ok hinit
  refine ⟨log, ?_, fun call hcall => (hrec.mem call hcall).1, hrec.once, hrec.answered,
    hrec.ordered, fun a ha => hrec.left_out hids hstuck ha⟩
  rw [hexec, hrec.lastErr]

/-- A list whose first artifact fails: one depends on it, and two on each other. -/
def tangled : List Artifact :=
  [.stat { id := "first", in_ := "f" }, .stat { id := "second", in_ := "f", depends := "first" },
    .stat { id := "left", in_ := "f", depends := "right" },
    .stat { id := "right", in_ := "f", depends := "left" }]

/-- A callback that fails on the artifact `first`. -/
def failsFirst (_ : Calls Unit) (a : Artifact) : Option Unit :=
  if a.artifactID = "first" then some () else none

theorem tangled_run :
    DistinctIds tangled ∧ ∃ log : Calls Unit,
      Prog.exec (runInOrder tangled (answer failsFirst) : Prog (Calls Unit) (Stop Unit) (Option Unit))
        [] = (.ok (lastError log), log) ∧
      (∀ call ∈ log, call.1 ∈ tangled) ∧ (log.map Prod.fst).Nodup ∧
      History (fun before call => call.2 = failsFirst before call.1) log ∧
      History (AfterDependency tangled) log ∧
      ∀ a ∈ tangled, (∀ o, (a, o) ∉ log) ↔
        BehindFailed tangled log a ∨ Circles (DependsWithin tangled) a :=
  ⟨by decide, runInOrder_calls tangled (by decide) failsFirst⟩

end

end Orchestrator.Artifact

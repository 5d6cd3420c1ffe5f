/-
  Orchestrator.Sidecar.Order

  The order in which the sidecar applies artifacts.

  `ready_applied_once`: when the ready marker is written, the mounts and the pre-phase
  artifacts on no dependency cycle have been applied once, with success.

  `inOrder_iff_mountsFit`: an artifact is applied after the one it depends on, and after
  the worker exactly if its chain of dependencies says so, for the lists that satisfy
  `MountsFit` and for no others: the mounts are established between the two phases, in the
  order of the list, whatever the chains say.
-/

import Orchestrator.Sidecar.Trace

namespace Orchestrator.Sidecar

open Lib Lib.Prog Artifact List

/-! ## The three lists -/

variable {id : String}

section

variable {artifacts : List Artifact} {a b : Artifact} {m : Mount} {w : World}

theorem mem_nonMounts : a ∈ nonMounts artifacts ↔ a ∈ artifacts ∧ mount? a = none := by
  simp [nonMounts]

theorem mem_mounts : m ∈ artifacts.filterMap mount? ↔ .mount m ∈ artifacts := by
  constructor
  · intro h
    obtain ⟨a, ha, hm⟩ := mem_filterMap.mp h
    cases a <;> simp only [mount?, Option.some.injEq, reduceCtorEq] at hm
    exact hm ▸ ha
  · intro h
    exact mem_filterMap.mpr ⟨_, h, rfl⟩

theorem mount_or_nonMount (ha : a ∈ artifacts) :
    (∃ m ∈ artifacts.filterMap mount?, a = .mount m) ∨ a ∈ nonMounts artifacts := by
  cases hm : mount? a with
  | none => exact .inr (mem_nonMounts.mpr ⟨ha, hm⟩)
  | some m =>
    cases a <;> simp only [mount?, Option.some.injEq, reduceCtorEq] at hm
    subst hm
    exact .inl ⟨_, mem_mounts.mpr ha, rfl⟩

theorem mem_preJob : a ∈ (planOf artifacts w).preJob ↔
    a ∈ nonMounts artifacts ∧ ¬PostId (nonMounts artifacts) a.artifactID := by
  obtain ⟨marked, hmarked, hpart⟩ := partition_spec (nonMounts artifacts)
  rw [planOf, hpart]
  simp [Except.toOption, hmarked]

theorem mem_postJob : a ∈ (planOf artifacts w).postJob ↔
    a ∈ nonMounts artifacts ∧ PostId (nonMounts artifacts) a.artifactID := by
  obtain ⟨marked, hmarked, hpart⟩ := partition_spec (nonMounts artifacts)
  rw [planOf, hpart]
  simp [Except.toOption, hmarked]

section

variable (h : DistinctIds artifacts)
include h

theorem mount_ne (hm : m ∈ artifacts.filterMap mount?) (ha : a ∈ nonMounts artifacts) :
    m.id ≠ a.artifactID := by
  intro hid
  obtain ⟨ha, hnone⟩ := mem_nonMounts.mp ha
  have heq := h.eq (mem_mounts.mp hm) ha hid
  rw [← heq] at hnone
  cases hnone

theorem mount_eq {n : Mount} (hm : m ∈ artifacts.filterMap mount?)
    (hn : n ∈ artifacts.filterMap mount?) (hid : m.id = n.id) : m = n := by
  have heq := h.eq (mem_mounts.mp hm) (mem_mounts.mp hn) hid
  exact Artifact.mount.inj heq

theorem not_mem_preJob (hm : m ∈ artifacts.filterMap mount?) :
    m.id ∉ ids (planOf artifacts w).preJob := by
  intro hmem
  obtain ⟨a, ha, hid⟩ := mem_ids.mp hmem
  exact mount_ne h hm (mem_preJob.mp ha).1 hid.symm

theorem not_mem_postJob (hm : m ∈ artifacts.filterMap mount?) :
    m.id ∉ ids (planOf artifacts w).postJob := by
  intro hmem
  obtain ⟨a, ha, hid⟩ := mem_ids.mp hmem
  exact mount_ne h hm (mem_postJob.mp ha).1 hid.symm

end

theorem not_mem_pre_and_post (hpre : id ∈ ids (planOf artifacts w).preJob)
    (hpost : id ∈ ids (planOf artifacts w).postJob) : False := by
  obtain ⟨a, ha, rfl⟩ := mem_ids.mp hpre
  obtain ⟨b, hb, hid⟩ := mem_ids.mp hpost
  have hpostId := (mem_postJob.mp hb).2
  rw [hid] at hpostId
  exact (mem_preJob.mp ha).2 hpostId

end

/-! ## Logs of mounts -/

section

variable {mounts : List Mount} {id : String}

theorem apply_mem_mountEvents : .apply id ∈ mountEvents mounts ↔ ∃ m ∈ mounts, m.id = id := by
  simp [mountEvents, eq_comm]

theorem applied_mem_mountEvents : .applied id ∈ mountEvents mounts ↔ ∃ m ∈ mounts, m.id = id := by
  simp [mountEvents, eq_comm]

theorem count_mountEvents (hids : (mounts.map Mount.id).Nodup) {m : Mount} (hm : m ∈ mounts) :
    (mountEvents mounts).count (.apply m.id) = 1 := by
  have hcount : ∀ xs : List Mount,
      (mountEvents xs).count (.apply m.id) = (xs.map Mount.id).count m.id := by
    intro xs
    induction xs with
    | nil => rfl
    | cons n xs ih =>
      have hcons : mountEvents (n :: xs) = .apply n.id :: .applied n.id :: mountEvents xs := rfl
      rw [hcons, count_cons, count_cons, ih, map_cons, count_cons]
      simp
  rw [hcount]
  exact count_eq_one_of_mem hids (mem_map_of_mem hm)

end

/-! ## The ready marker -/

/-- The log a run leaves behind, from the workspace `w₀`. -/
def runLog (host : Host) (timeoutSeconds : Int) (artifacts : List Artifact) (w₀ : World) :
    List Event :=
  (exec (run host timeoutSeconds artifacts) w₀).2.log

theorem runLog_trace (host : Host) (timeoutSeconds : Int) (artifacts : List Artifact) {w₀ : World}
    (hlog : w₀.log = []) :
    Trace (planOf artifacts w₀) (runLog host timeoutSeconds artifacts w₀) ∧
      (host.Reliable →
        FullTrace (planOf artifacts w₀) (runLog host timeoutSeconds artifacts w₀)) := by
  have h := run_triple host timeoutSeconds artifacts hlog w₀ rfl
  unfold runLog
  cases hr : exec (run host timeoutSeconds artifacts) w₀ with
  | mk out w =>
    rw [hr] at h
    cases out with
    | ok _ => exact h
    | error stop => exact ⟨h.2.2, fun hreliable => absurd hreliable h.1⟩

section

variable {plan : Plan} {log : List Event} {xs : List Artifact}

/-- An event of no artifact. -/
def Event.Marker (e : Event) : Prop := ∀ id, e ≠ .apply id ∧ e ≠ .applied id

theorem marker_workerDone : Event.workerDone.Marker := by simp [Event.Marker]

theorem PhaseLog.not_mem (h : PhaseLog xs log) {e : Event} (he : e.Marker) : e ∉ log := by
  intro hmem
  obtain ⟨id, hid⟩ := h.only e hmem
  exact hid.elim (he id).1 (he id).2

theorem MountLog.not_mem {mounts : List Mount} (h : MountLog mounts log) {e : Event}
    (he : e.Marker) : e ∉ log := by
  have hevents : ∀ ms : List Mount, e ∉ mountEvents ms := by
    intro ms hmem
    obtain ⟨m, -, hm⟩ := mem_flatMap.mp hmem
    rcases mem_cons.mp hm with rfl | hm
    · exact (he m.id).1 rfl
    · exact (he m.id).2 (mem_singleton.mp hm)
  obtain ⟨done, rest, -, rfl | ⟨m, -, -, rfl⟩⟩ := h
  · exact hevents done
  intro hmem
  rcases mem_append.mp hmem with hmem | hmem
  · exact hevents done hmem
  · exact (he m.id).1 (mem_singleton.mp hmem)

/-- A run on a fresh workspace whose log has the ready marker: the pre phase is done, the
    mounts are established, and what follows is of the post phase. -/
theorem Trace.of_ready (h : Trace plan log) (hfresh : plan.complete = false)
    (htable : plan.table = []) (hready : .ready ∈ log) :
    ∃ pre tail, PhaseDone plan.preJob pre ∧ log = pre ++ mountEvents plan.mounts ++ tail ∧
      ∀ id, .apply id ∈ tail → id ∈ ids plan.postJob := by
  have hpre : ∀ pre, plan.PreDone pre → PhaseDone plan.preJob pre := by
    intro pre hpre
    rwa [Plan.PreDone, hfresh, if_neg (by simp)] at hpre
  have hmounts : ∀ mounts, plan.MountsDone mounts → mounts = mountEvents plan.mounts := by
    intro mounts hmounts
    rcases hmounts with hmounts | ⟨⟨hne, hall⟩, -⟩
    · exact hmounts
    · obtain ⟨m, hm⟩ := exists_mem_of_ne_nil _ hne
      rw [htable] at hall
      cases hall m hm
  have hmarker : Event.ready.Marker := by simp [Event.Marker]
  cases h with
  | pre hlog => exact absurd hready (hlog.not_mem hmarker)
  | mounting hdone hlog =>
    rcases mem_append.mp hready with hready | hready
    · exact absurd hready ((hpre _ hdone).not_mem hmarker)
    · exact absurd hready (hlog.not_mem hmarker)
  | @ready pre mounts hdone hlog =>
    obtain rfl := hmounts _ hlog
    exact ⟨pre, [.ready], hpre _ hdone, rfl, by simp⟩
  | @post pre mounts post hdone hlog hpost =>
    obtain rfl := hmounts _ hlog
    refine ⟨pre, [.ready] ++ [.workerDone] ++ post, hpre _ hdone, by simp, ?_⟩
    intro id hid
    have hid : Event.apply id ∈ post := by simpa using hid
    exact (hpost.grounded id hid).mem

/-- An artifact was applied exactly once, and with success. -/
def AppliedOnce (log : List Event) (id : String) : Prop :=
  log.count (.apply id) = 1 ∧ .applied id ∈ log

theorem PhaseDone.appliedOnce (h : PhaseDone xs log) (hid : Grounded xs id) :
    AppliedOnce log id := by
  have happlied := h.all id hid
  have hpos := count_pos_iff.mpr (h.applied id happlied)
  have hle := h.once id
  exact ⟨by omega, happlied⟩

end

/-- **The ready marker.**  In a run on a fresh workspace over a list with distinct ids, if
    the ready marker is written then every mount, and every pre-phase artifact that is on no
    dependency cycle and behind none, was applied once and with success; the artifacts on or
    behind a cycle were left out. -/
theorem ready_applied_once (host : Host) (timeoutSeconds : Int) {artifacts : List Artifact}
    (hids : DistinctIds artifacts) (hready : .ready ∈ runLog host timeoutSeconds artifacts {}) :
    (∀ m, .mount m ∈ artifacts → AppliedOnce (runLog host timeoutSeconds artifacts {}) m.id) ∧
      ∀ a ∈ (planOf artifacts {}).preJob,
        (Grounded (planOf artifacts {}).preJob a.artifactID →
          AppliedOnce (runLog host timeoutSeconds artifacts {}) a.artifactID) ∧
        (¬Grounded (planOf artifacts {}).preJob a.artifactID →
          .apply a.artifactID ∉ runLog host timeoutSeconds artifacts {}) := by
  obtain ⟨pre, tail, hpre, hlog, htail⟩ :=
    (runLog_trace host timeoutSeconds artifacts rfl).1.of_ready rfl rfl hready
  rw [hlog]
  -- each id belongs to one of the three parts only
  have hmount : ∀ a ∈ nonMounts artifacts,
      .apply a.artifactID ∉ mountEvents (planOf artifacts {}).mounts := by
    intro a ha hmem
    obtain ⟨m, hm, hid⟩ := apply_mem_mountEvents.mp hmem
    exact mount_ne hids hm ha hid
  have hpost : ∀ a ∈ (planOf artifacts {}).preJob, .apply a.artifactID ∉ tail := by
    intro a ha hmem
    exact not_mem_pre_and_post (mem_ids.mpr ⟨a, ha, rfl⟩) (htail _ hmem)
  constructor
  · intro m hm
    have hm := mem_mounts.mpr hm
    have hnodup : ((planOf artifacts {}).mounts.map Mount.id).Nodup := by
      apply List.Nodup.map_on
      · intro m hm n hn hid
        exact mount_eq hids hm hn hid
      · exact (List.Nodup.of_map _ hids).filterMap (by
          intro a b m ha hb
          cases a <;> cases b <;> simp_all [mount?])
    have hnone : .apply m.id ∉ pre := by
      intro hmem
      exact not_mem_preJob hids hm (hpre.grounded _ hmem).mem
    have hnone' : .apply m.id ∉ tail := by
      intro hmem
      exact not_mem_postJob hids hm (htail _ hmem)
    refine ⟨?_, ?_⟩
    · rw [count_append, count_append, count_eq_zero_of_not_mem hnone,
        count_eq_zero_of_not_mem hnone', count_mountEvents hnodup hm]
    · apply mem_append_left
      apply mem_append_right
      exact applied_mem_mountEvents.mpr ⟨m, hm, rfl⟩
  · intro a ha
    have hrest := (mem_preJob.mp ha).1
    refine ⟨fun hgrounded => ?_, fun hcycle hmem => ?_⟩
    · obtain ⟨hcount, happlied⟩ := hpre.appliedOnce hgrounded
      refine ⟨?_, by simp [happlied]⟩
      rw [count_append, count_append, hcount,
        count_eq_zero_of_not_mem (hmount a hrest), count_eq_zero_of_not_mem (hpost a ha)]
    · rcases mem_append.mp hmem with hmem | hmem
      · rcases mem_append.mp hmem with hmem | hmem
        · exact hcycle (hpre.grounded _ hmem)
        · exact hmount a hrest hmem
      · exact hpost a ha hmem

/-- Surroundings in which every call is answered and the worker finishes. -/
def calm : Host := ⟨fun _ => .ok, fun _ => false, .signal⟩

theorem calm_reliable : calm.Reliable := ⟨fun _ => rfl, rfl⟩

/-- A library that knows no URL. -/
def noURLs : Library := ⟨fun _ => none, fun s => s⟩

/-- An image and a file that are both there before the worker. -/
def imageAndFile : List Artifact :=
  [.write { id := "config", in_ := "debug", out := "config" },
   .mount { id := "data", in_ := "data.erofs", out := "data", depends := "config" }]

theorem ready_applied_once_imageAndFile :
    (DistinctIds imageAndFile ∧ .ready ∈ runLog calm 60 imageAndFile {}) ∧
      (∀ m, .mount m ∈ imageAndFile → AppliedOnce (runLog calm 60 imageAndFile {}) m.id) ∧
      ∀ a ∈ (planOf imageAndFile {}).preJob,
        (Grounded (planOf imageAndFile {}).preJob a.artifactID →
          AppliedOnce (runLog calm 60 imageAndFile {}) a.artifactID) ∧
        (¬Grounded (planOf imageAndFile {}).preJob a.artifactID →
          .apply a.artifactID ∉ runLog calm 60 imageAndFile {}) :=
  ⟨⟨by decide, by decide⟩, ready_applied_once calm 60 (by decide) (by decide)⟩

/-- Two files that wait for each other. -/
def waitingForEachOther : List Artifact :=
  [.write { id := "a", in_ := "x", out := "a", depends := "b" },
   .write { id := "b", in_ := "y", out := "b", depends := "a" }]

/-- The worker is let in although the two pre-phase artifacts of an accepted list were never
    applied. -/
theorem ready_without_artifacts :
    validateArtifacts noURLs waitingForEachOther = none ∧
      (planOf waitingForEachOther {}).preJob = waitingForEachOther ∧
      .ready ∈ runLog calm 60 waitingForEachOther {} ∧
      ∀ a ∈ waitingForEachOther, .apply a.artifactID ∉ runLog calm 60 waitingForEachOther {} := by
  decide

/-! ## Dependencies and phases -/

/-- The chain of dependencies from an artifact, through the artifacts of the list, comes to a
    sentinel. -/
inductive ReachesSentinel (artifacts : List Artifact) : Artifact → Prop where
  | direct {a : Artifact} (h : PostPhase a.dependsOn) : ReachesSentinel artifacts a
  | via {a d : Artifact} (hd : d ∈ artifacts) (hid : d.artifactID = a.dependsOn)
      (h : ReachesSentinel artifacts d) : ReachesSentinel artifacts a

/-- What `log` says about order, `before` being what earlier runs on the workspace have logged
    and `past` what this run has logged before: every artifact is applied after the one it
    depends on was, and it is applied after the worker exactly if its chain of dependencies
    comes to a sentinel. -/
structure InOrder (artifacts : List Artifact) (before past log : List Event) : Prop where
  ordered : ∀ pre id post, log = pre ++ .apply id :: post → ∀ a ∈ artifacts, a.artifactID = id →
    ∀ d ∈ artifacts, d.artifactID = a.dependsOn → .applied d.artifactID ∈ before ++ past ++ pre
  phased : ∀ pre id post, log = pre ++ .apply id :: post → ∀ a ∈ artifacts, a.artifactID = id →
    (.workerDone ∈ past ++ pre ↔ ReachesSentinel artifacts a)

/-- The markers and the mount table that a run starts from are true: a finished pre phase has
    applied its artifacts, and mounts that can be adopted were established. -/
structure Truthful (artifacts : List Artifact) (before : List Event) (w₀ : World) : Prop where
  log : w₀.log = []
  complete : w₀.markerArtifactsComplete → ∀ id,
    Grounded (planOf artifacts w₀).preJob id → .applied id ∈ before
  mounts : (planOf artifacts w₀).Adopts → ∀ m ∈ artifacts.filterMap mount?, .applied m.id ∈ before

theorem truthful_fresh (artifacts : List Artifact) : Truthful artifacts [] {} := by
  refine ⟨rfl, by simp, ?_⟩
  rintro ⟨hne, hall⟩ m hm
  cases hall m hm

/-- The lists whose dependencies agree with the place the mounts have in the flow. -/
structure MountsFit (artifacts : List Artifact) : Prop where
  /-- Nothing but a mount waits for a mount, unless the mount has the name of a sentinel. -/
  dependents : ∀ a ∈ nonMounts artifacts, ∀ m ∈ artifacts.filterMap mount?,
    a.dependsOn = m.id → PostPhase m.id
  /-- No mount waits for the worker. -/
  early : ∀ m ∈ artifacts.filterMap mount?, ¬PostPhase m.depends
  /-- A mount that waits for another stands behind it in the list. -/
  order : ∀ xs m ys, artifacts.filterMap mount? = xs ++ m :: ys →
    ∀ n ∈ artifacts.filterMap mount?, n.id = m.depends → n ∈ xs
  /-- What a mount waits for is of the pre phase and on no cycle. -/
  inputs : ∀ m ∈ artifacts.filterMap mount?, ∀ d ∈ nonMounts artifacts,
    d.artifactID = m.depends → Grounded (planOf artifacts {}).preJob d.artifactID
  /-- An artifact of the pre phase that has the name of a sentinel, and is waited for, is on
      no cycle. -/
  sentinels : ∀ a ∈ nonMounts artifacts, PostPhase a.dependsOn →
    ∀ d ∈ (planOf artifacts {}).preJob, d.artifactID = a.dependsOn →
      Grounded (planOf artifacts {}).preJob d.artifactID

section

variable {artifacts : List Artifact} {before past log log' : List Event}

theorem append_eq_split {xs ys pre post : List Event} {e : Event} (h : xs ++ ys = pre ++ e :: post) :
    (∃ post', xs = pre ++ e :: post') ∨ ∃ pre', ys = pre' ++ e :: post ∧ pre = xs ++ pre' := by
  rcases append_eq_append_iff.mp h with ⟨pre', hpre, hys⟩ | ⟨mid, hxs, hmid⟩
  · exact .inr ⟨pre', hys, hpre⟩
  cases mid with
  | nil => exact .inr ⟨[], by simpa using hmid.symm, by simpa using hxs.symm⟩
  | cons e' mid =>
    rw [cons_append] at hmid
    cases hmid
    exact .inl ⟨mid, hxs⟩

theorem InOrder.append (h : InOrder artifacts before past log)
    (h' : InOrder artifacts before (past ++ log) log') :
    InOrder artifacts before past (log ++ log') := by
  constructor
  · intro pre id post hsplit a ha hid d hd hdep
    rcases append_eq_split hsplit with ⟨post', hlog⟩ | ⟨pre', hlog', rfl⟩
    · exact h.ordered pre id post' hlog a ha hid d hd hdep
    · have hmem := h'.ordered pre' id post hlog' a ha hid d hd hdep
      simpa [append_assoc] using hmem
  · intro pre id post hsplit a ha hid
    rcases append_eq_split hsplit with ⟨post', hlog⟩ | ⟨pre', hlog', rfl⟩
    · exact h.phased pre id post' hlog a ha hid
    · have hiff := h'.phased pre' id post hlog' a ha hid
      rwa [append_assoc] at hiff

theorem InOrder.of_no_apply (h : ∀ id, .apply id ∉ log) : InOrder artifacts before past log := by
  constructor
  · intro pre id post hsplit
    exact absurd (by rw [hsplit]; simp) (h id)
  · intro pre id post hsplit
    exact absurd (by rw [hsplit]; simp) (h id)

/-- The log of a phase is in order if its artifacts find outside the phase what they wait for,
    and if the phase is the right one for them. -/
theorem PhaseLog.inOrder {xs : List Artifact} (h : PhaseLog xs log) (hids : DistinctIds artifacts)
    (hsub : ∀ a ∈ xs, a ∈ artifacts)
    (hdep : ∀ a ∈ xs, ∀ d ∈ artifacts, d.artifactID = a.dependsOn →
      a.dependsOn ∈ ids xs ∨ .applied d.artifactID ∈ before ++ past)
    (hphase : ∀ a ∈ xs, (.workerDone ∈ past ↔ ReachesSentinel artifacts a)) :
    InOrder artifacts before past log := by
  -- the artifact behind an event is the one of the list
  have howner : ∀ pre id post, log = pre ++ .apply id :: post → ∀ a ∈ artifacts,
      a.artifactID = id → a ∈ xs ∧ (a.dependsOn ∈ ids xs → .applied a.dependsOn ∈ pre) := by
    intro pre id post hsplit a ha hid
    obtain ⟨b, hb, hbid, hbdep⟩ := h.ordered pre id post hsplit
    obtain rfl : a = b := hids.eq ha (hsub b hb) (hid.trans hbid.symm)
    exact ⟨hb, hbdep⟩
  constructor
  · intro pre id post hsplit a ha hid d hd hdid
    obtain ⟨hxs, hscope⟩ := howner pre id post hsplit a ha hid
    rcases hdep a hxs d hd hdid with hmem | hmem
    · rw [hdid]
      exact mem_append_right _ (hscope hmem)
    · exact mem_append_left _ hmem
  · intro pre id post hsplit a ha hid
    obtain ⟨hxs, -⟩ := howner pre id post hsplit a ha hid
    have hnone : Event.workerDone ∉ pre := by
      intro hmem
      exact h.not_mem marker_workerDone (by rw [hsplit]; exact mem_append_left _ hmem)
    rw [← hphase a hxs, mem_append]
    exact or_iff_left hnone

/-- Where a mount is being established, the mounts before it have been. -/
theorem MountLog.split {mounts : List Mount} (h : MountLog mounts log) {pre post : List Event}
    (hsplit : log = pre ++ .apply id :: post) :
    ∃ done m rest, mounts = done ++ m :: rest ∧ m.id = id ∧ pre = mountEvents done := by
  -- every mount has two events, so an `apply` can only be at an even place
  have hevents : ∀ ms : List Mount, ∀ pre post, mountEvents ms = pre ++ .apply id :: post →
      ∃ done m rest, ms = done ++ m :: rest ∧ m.id = id ∧ pre = mountEvents done := by
    intro ms
    induction ms with
    | nil =>
      intro pre post hnil
      cases pre <;> cases hnil
    | cons n ms ih =>
      intro pre post hcons
      have hhead : mountEvents (n :: ms) = .apply n.id :: .applied n.id :: mountEvents ms := rfl
      rw [hhead] at hcons
      cases pre with
      | nil =>
        injection hcons with hfirst _
        exact ⟨[], n, ms, rfl, Event.apply.inj hfirst, rfl⟩
      | cons e pre =>
        rw [cons_append] at hcons
        injection hcons with hfirst hrest
        cases pre with
        | nil =>
          injection hrest with hsecond _
          cases hsecond
        | cons e' pre =>
          rw [cons_append] at hrest
          injection hrest with hsecond htail
          obtain ⟨done, m, rest, rfl, hid, rfl⟩ := ih pre post htail
          refine ⟨n :: done, m, rest, rfl, hid, ?_⟩
          rw [← hfirst, ← hsecond]
          rfl
  -- the log may end with the `apply` of the mount that failed
  obtain ⟨done, rest, rfl, rfl | ⟨m, rest, rfl, rfl⟩⟩ := h
  · obtain ⟨done', m, rest', rfl, hid, hpre⟩ := hevents done pre post hsplit
    exact ⟨done', m, rest' ++ rest, by simp, hid, hpre⟩
  rcases append_eq_split hsplit with ⟨post', hlog⟩ | ⟨pre', hlog, rfl⟩
  · obtain ⟨done', n, rest', rfl, hid, hpre⟩ := hevents done pre post' hlog
    exact ⟨done', n, rest' ++ m :: rest, by simp, hid, hpre⟩
  cases pre' with
  | nil =>
    injection hlog with hfirst _
    exact ⟨done, m, rest, rfl, Event.apply.inj hfirst, by simp⟩
  | cons e pre' =>
    rw [cons_append] at hlog
    injection hlog with _ htail
    cases pre' <;> cases htail

/-! ### Lists that fit are applied in order -/

theorem postId_of_reaches (hfit : MountsFit artifacts) {a : Artifact}
    (h : ReachesSentinel artifacts a) (ha : a ∈ nonMounts artifacts) :
    PostId (nonMounts artifacts) a.artifactID := by
  induction h with
  | direct hpost => exact .direct ha hpost
  | via hd hid _ ih =>
    rcases mount_or_nonMount hd with ⟨m, hm, rfl⟩ | hd
    · have hname : PostPhase m.id := hfit.dependents _ ha m hm hid.symm
      apply PostId.direct ha
      rw [← hid]
      exact hname
    · apply PostId.step ha
      rw [← hid]
      exact ih hd

theorem reaches_of_postId (hids : DistinctIds artifacts) (h : PostId (nonMounts artifacts) id)
    {a : Artifact} (ha : a ∈ artifacts) (hid : a.artifactID = id) : ReachesSentinel artifacts a := by
  induction h generalizing a with
  | direct hb hpost =>
    obtain rfl := hids.eq ha (mem_nonMounts.mp hb).1 hid
    exact .direct hpost
  | step hb hdep ih =>
    obtain rfl := hids.eq ha (mem_nonMounts.mp hb).1 hid
    obtain ⟨d, hd, hdid⟩ := mem_ids.mp hdep.mem
    have hd := (mem_nonMounts.mp hd).1
    exact .via hd hdid (ih hd hdid)

/-- No chain of a mount comes to a sentinel. -/
theorem not_reaches_mount (hfit : MountsFit artifacts) {a : Artifact}
    (h : ReachesSentinel artifacts a) {m : Mount} (hm : m ∈ artifacts.filterMap mount?)
    (ha : a = .mount m) : False := by
  induction h generalizing m with
  | direct hpost =>
    subst ha
    exact hfit.early m hm hpost
  | via hd hid hreach ih =>
    subst ha
    rcases mount_or_nonMount hd with ⟨n, hn, heq⟩ | hd
    · exact ih hn heq
    obtain ⟨d, hmem, hdid⟩ := mem_ids.mp (hfit.inputs m hm _ hd hid).mem
    have hpost := postId_of_reaches hfit hreach hd
    rw [← hdid] at hpost
    exact (mem_preJob.mp hmem).2 hpost

variable {w₀ : World} {pre mounts : List Event}

/-- What a run that got past the pre phase knows to be applied. -/
theorem Plan.PreDone.known (hpre : (planOf artifacts w₀).PreDone pre)
    (htrue : Truthful artifacts before w₀) (hid : Grounded (planOf artifacts w₀).preJob id) :
    .applied id ∈ before ++ pre := by
  unfold Plan.PreDone at hpre
  split at hpre
  · rename_i hcomplete
    exact mem_append_left _ (htrue.complete hcomplete id hid)
  · exact mem_append_right _ (hpre.all id hid)

theorem Plan.MountsDone.known (hmounts : (planOf artifacts w₀).MountsDone mounts)
    (htrue : Truthful artifacts before w₀) {m : Mount} (hm : m ∈ artifacts.filterMap mount?) :
    .applied m.id ∈ before ++ mounts := by
  rcases hmounts with rfl | ⟨hadopts, -⟩
  · exact mem_append_right _ (applied_mem_mountEvents.mpr ⟨m, hm, rfl⟩)
  · exact mem_append_left _ (htrue.mounts hadopts m hm)

theorem Plan.PreDone.phaseLog {plan : Plan} (hpre : plan.PreDone pre) :
    PhaseLog plan.preJob pre := by
  unfold Plan.PreDone at hpre
  split at hpre
  · rw [hpre]
    exact PhaseLog.nil _
  · exact hpre.toPhaseLog

section

variable (hids : DistinctIds artifacts) (hfit : MountsFit artifacts)
include hids hfit

theorem inOrder_pre (hpre : PhaseLog (planOf artifacts w₀).preJob pre) :
    InOrder artifacts before [] pre := by
  apply hpre.inOrder hids
  · intro a ha
    exact (mem_nonMounts.mp (mem_preJob.mp ha).1).1
  · intro a ha d hd hid
    obtain ⟨hrest, hnot⟩ := mem_preJob.mp ha
    left
    rcases mount_or_nonMount hd with ⟨m, hm, rfl⟩ | hd
    · have hname : PostPhase m.id := hfit.dependents a hrest m hm hid.symm
      exact absurd (.direct hrest (by rw [← hid]; exact hname)) hnot
    apply mem_ids.mpr ⟨d, mem_preJob.mpr ⟨hd, ?_⟩, hid⟩
    intro hpost
    rw [hid] at hpost
    exact hnot (.step hrest hpost)
  · intro a ha
    obtain ⟨hrest, hnot⟩ := mem_preJob.mp ha
    constructor
    · intro hmem
      cases hmem
    · intro hreach
      exact absurd (postId_of_reaches hfit hreach hrest) hnot

theorem inOrder_mounts (htrue : Truthful artifacts before w₀)
    (hpre : (planOf artifacts w₀).PreDone pre)
    (hmounts : MountLog (planOf artifacts w₀).mounts mounts) :
    InOrder artifacts before pre mounts := by
  -- the artifact behind an event is the mount
  have howner : ∀ p id q, mounts = p ++ .apply id :: q → ∀ a ∈ artifacts, a.artifactID = id →
      ∃ done m rest, artifacts.filterMap mount? = done ++ m :: rest ∧
        m ∈ artifacts.filterMap mount? ∧ a = .mount m ∧ p = mountEvents done := by
    intro p id q hsplit a ha hid
    obtain ⟨done, m, rest, hlist, hmid, hp⟩ := hmounts.split hsplit
    have hm : m ∈ artifacts.filterMap mount? := by
      rw [show artifacts.filterMap mount? = _ from hlist]
      simp
    exact ⟨done, m, rest, hlist, hm, hids.eq ha (mem_mounts.mp hm) (hid.trans hmid.symm), hp⟩
  constructor
  · intro p id q hsplit a ha hid d hd hdid
    obtain ⟨done, m, rest, hlist, hm, rfl, rfl⟩ := howner p id q hsplit a ha hid
    rcases mount_or_nonMount hd with ⟨n, hn, rfl⟩ | hd
    · have hmem : n ∈ done := hfit.order done m rest hlist n hn hdid
      exact mem_append_right _ (applied_mem_mountEvents.mpr ⟨n, hmem, rfl⟩)
    · exact mem_append_left _ (hpre.known htrue (hfit.inputs m hm d hd hdid))
  · intro p id q hsplit a ha hid
    obtain ⟨done, m, rest, hlist, hm, rfl, rfl⟩ := howner p id q hsplit a ha hid
    constructor
    · intro hmem
      rcases mem_append.mp hmem with hmem | hmem
      · exact absurd hmem (hpre.phaseLog.not_mem marker_workerDone)
      · exact absurd (by rw [hsplit]; exact mem_append_left _ hmem)
          (hmounts.not_mem marker_workerDone)
    · intro hreach
      exact (not_reaches_mount hfit hreach hm rfl).elim

theorem inOrder_post (htrue : Truthful artifacts before w₀)
    (hpre : (planOf artifacts w₀).PreDone pre) (hmounts : (planOf artifacts w₀).MountsDone mounts)
    {post : List Event} (hpost : PhaseLog (planOf artifacts w₀).postJob post) :
    InOrder artifacts before (pre ++ mounts ++ [.ready] ++ [.workerDone]) post := by
  apply hpost.inOrder hids
  · intro a ha
    exact (mem_nonMounts.mp (mem_postJob.mp ha).1).1
  · intro a ha d hd hid
    obtain ⟨hrest, hpostId⟩ := mem_postJob.mp ha
    rcases mount_or_nonMount hd with ⟨m, hm, rfl⟩ | hd
    · right
      have hmem := hmounts.known htrue hm
      rcases mem_append.mp hmem with hmem | hmem <;>
        simp only [mem_append] <;> tauto
    by_cases hdpost : PostId (nonMounts artifacts) d.artifactID
    · exact .inl (mem_ids.mpr ⟨d, mem_postJob.mpr ⟨hd, hdpost⟩, hid⟩)
    right
    have hname : PostPhase a.dependsOn := by
      cases hreach : reaches_of_postId hids hpostId (mem_nonMounts.mp hrest).1 rfl with
      | direct h => exact h
      | via hb hbid h =>
        have heq := hids.eq hb (mem_nonMounts.mp hd).1 (hbid.trans hid.symm)
        subst heq
        exact absurd (postId_of_reaches hfit h hd) hdpost
    have hmem := hpre.known htrue
      (hfit.sentinels a hrest hname d (mem_preJob.mpr ⟨hd, hdpost⟩) hid)
    rcases mem_append.mp hmem with hmem | hmem <;>
      simp only [mem_append] <;> tauto
  · intro a ha
    obtain ⟨hrest, hpostId⟩ := mem_postJob.mp ha
    have hreach := reaches_of_postId hids hpostId (mem_nonMounts.mp hrest).1 rfl
    simp [hreach]

theorem Trace.inOrder (htrue : Truthful artifacts before w₀) (h : Trace (planOf artifacts w₀) log) :
    InOrder artifacts before [] log := by
  have hmarker : ∀ past (e : Event), (∀ id, e ≠ .apply id) → InOrder artifacts before past [e] := by
    intro past e he
    apply InOrder.of_no_apply
    intro id hmem
    exact he id (mem_singleton.mp hmem).symm
  cases h with
  | pre hpre => exact inOrder_pre hids hfit hpre
  | mounting hpre hmounts =>
    exact (inOrder_pre hids hfit hpre.phaseLog).append
      (inOrder_mounts hids hfit htrue hpre hmounts)
  | ready hpre hmounts =>
    have hstart := (inOrder_pre hids hfit hpre.phaseLog).append
      (inOrder_mounts hids hfit htrue hpre hmounts.log)
    exact hstart.append (hmarker _ _ (by simp))
  | post hpre hmounts hpost =>
    have hstart := (inOrder_pre hids hfit hpre.phaseLog).append
      (inOrder_mounts hids hfit htrue hpre hmounts.log)
    have hready := hstart.append (hmarker _ .ready (by simp))
    have hdone := hready.append (hmarker _ .workerDone (by simp))
    exact hdone.append (inOrder_post hids hfit htrue hpre hmounts hpost)

end

/-! ### Lists that are applied in order fit -/

/-- The log of a calm run on a fresh workspace. -/
structure CalmLog (artifacts : List Artifact) (pre post : List Event) : Prop where
  log : runLog calm 0 artifacts {} =
    pre ++ mountEvents (artifacts.filterMap mount?) ++ ([.ready, .workerDone] ++ post)
  pre : PhaseDone (planOf artifacts {}).preJob pre
  post : PhaseDone (planOf artifacts {}).postJob post

theorem exists_calmLog (artifacts : List Artifact) : ∃ pre post, CalmLog artifacts pre post := by
  have hfull : FullTrace (planOf artifacts {}) (runLog calm 0 artifacts {}) :=
    (runLog_trace _ 0 artifacts rfl).2 calm_reliable
  obtain ⟨pre, mounts, post, hpre, hmounts, hpost, hlog⟩ := hfull
  refine ⟨pre, post, ?_, hpre, hpost⟩
  rcases hmounts with rfl | ⟨⟨hne, hall⟩, -⟩
  · rw [hlog]
    simp [planOf]
  · obtain ⟨m, hm⟩ := exists_mem_of_ne_nil _ hne
    cases hall m hm

namespace CalmLog

variable {post : List Event} (h : CalmLog artifacts pre post)
  (horder : InOrder artifacts [] [] (runLog calm 0 artifacts {}))

theorem nonMount_not_mem (hids : DistinctIds artifacts) {d : Artifact} (hd : d ∈ nonMounts artifacts)
    {xs : List Mount} (hxs : ∀ m ∈ xs, m ∈ artifacts.filterMap mount?) :
    .applied d.artifactID ∉ mountEvents xs := by
  intro hmem
  obtain ⟨m, hm, hid⟩ := applied_mem_mountEvents.mp hmem
  exact mount_ne hids (hxs m hm) hd hid

include h

theorem applied_pre {tail : List Event} (hmem : .applied id ∈ pre ++ tail)
    (htail : .applied id ∉ tail) : Grounded (planOf artifacts {}).preJob id := by
  rcases mem_append.mp hmem with hmem | hmem
  · exact h.pre.grounded id (h.pre.applied id hmem)
  · exact absurd hmem htail

include horder

/-- Where the pre phase begins an artifact, what it waits for is applied in the pre phase. -/
theorem dep_of_pre {a : Artifact} (ha : a ∈ nonMounts artifacts)
    (hgrounded : Grounded (planOf artifacts {}).preJob a.artifactID) {d : Artifact}
    (hd : d ∈ artifacts) (hid : d.artifactID = a.dependsOn) :
    Grounded (planOf artifacts {}).preJob d.artifactID := by
  have happly := h.pre.applied _ (h.pre.all _ hgrounded)
  obtain ⟨p, q, hsplit⟩ := append_of_mem happly
  have hmem := horder.ordered p a.artifactID
    (q ++ mountEvents (artifacts.filterMap mount?) ++ ([.ready, .workerDone] ++ post))
    (by rw [h.log, hsplit]; simp) a (mem_nonMounts.mp ha).1 rfl d hd hid
  apply h.pre.grounded
  apply h.pre.applied
  rw [hsplit]
  exact mem_append_left _ (by simpa using hmem)

/-- Where a mount begins, what it waits for is applied in the pre phase or is a mount before
    it; and the worker has not finished. -/
theorem at_mount {xs ys : List Mount} {m : Mount}
    (hlist : artifacts.filterMap mount? = xs ++ m :: ys) :
    (∀ d ∈ artifacts, d.artifactID = m.depends → .applied d.artifactID ∈ pre ++ mountEvents xs) ∧
      ¬ReachesSentinel artifacts (.mount m) := by
  have hm : m ∈ artifacts.filterMap mount? := by
    rw [hlist]
    simp
  have hsplit : runLog calm 0 artifacts {} = (pre ++ mountEvents xs) ++ .apply m.id ::
      (.applied m.id :: mountEvents ys ++ ([.ready, .workerDone] ++ post)) := by
    rw [h.log, hlist]
    simp [mountEvents]
  constructor
  · intro d hd hid
    have hmem := horder.ordered _ _ _ hsplit (.mount m) (mem_mounts.mp hm) rfl d hd hid
    simpa using hmem
  · intro hreach
    have hmem := (horder.phased _ _ _ hsplit (.mount m) (mem_mounts.mp hm) rfl).mpr hreach
    rcases mem_append.mp (mem_append.mp hmem |>.resolve_left (by simp)) with hmem | hmem
    · exact h.pre.not_mem marker_workerDone hmem
    · exact MountLog.not_mem ⟨xs, [], (append_nil xs).symm, .inl rfl⟩ marker_workerDone hmem

theorem mountsFit (hids : DistinctIds artifacts) : MountsFit artifacts := by
  have hrest : ∀ {a}, a ∈ nonMounts artifacts → a ∈ artifacts := fun ha => (mem_nonMounts.mp ha).1
  constructor
  case dependents =>
    intro a ha m hm hdep
    by_contra hname
    -- the artifact is of the pre phase and waits for nothing there
    have hnot : ¬PostId (nonMounts artifacts) a.artifactID := by
      intro hpost
      cases reaches_of_postId hids hpost (hrest ha) rfl with
      | direct hp =>
        rw [hdep] at hp
        exact hname hp
      | via hd hid hreach =>
        have heq := hids.eq hd (mem_mounts.mp hm) (hid.trans hdep)
        subst heq
        obtain ⟨xs, ys, hlist⟩ := append_of_mem hm
        exact (h.at_mount horder hlist).2 hreach
    have hgrounded : Grounded (planOf artifacts {}).preJob a.artifactID := by
      apply Grounded.root (mem_preJob.mpr ⟨ha, hnot⟩)
      rw [hdep]
      exact not_mem_preJob hids hm
    have hmount := h.dep_of_pre horder ha hgrounded (mem_mounts.mp hm) hdep.symm
    exact not_mem_preJob hids hm hmount.mem
  case early =>
    intro m hm hpost
    obtain ⟨xs, ys, hlist⟩ := append_of_mem hm
    exact (h.at_mount horder hlist).2 (.direct hpost)
  case order =>
    intro xs m ys hlist n hn hid
    have hmem := (h.at_mount horder hlist).1 (.mount n) (mem_mounts.mp hn) hid
    rcases mem_append.mp hmem with hmem | hmem
    · exact absurd (h.pre.grounded _ (h.pre.applied _ hmem)).mem (not_mem_preJob hids hn)
    obtain ⟨n', hn', hid'⟩ := applied_mem_mountEvents.mp hmem
    have hin : n' ∈ artifacts.filterMap mount? := by
      rw [hlist]
      exact mem_append_left _ hn'
    rw [← mount_eq hids hin hn hid']
    exact hn'
  case inputs =>
    intro m hm d hd hid
    obtain ⟨xs, ys, hlist⟩ := append_of_mem hm
    apply h.applied_pre ((h.at_mount horder hlist).1 d (hrest hd) hid)
    apply nonMount_not_mem hids hd
    intro n hn
    rw [hlist]
    exact mem_append_left _ hn
  case sentinels =>
    intro a ha hname d hd hid
    obtain ⟨hdrest, hdnot⟩ := mem_preJob.mp hd
    have hdpost : d.artifactID ∉ ids (planOf artifacts {}).postJob := fun hmem =>
      not_mem_pre_and_post (mem_ids.mpr ⟨d, hd, rfl⟩) hmem
    have hpostId : PostId (nonMounts artifacts) a.artifactID := .direct ha hname
    have hgrounded : Grounded (planOf artifacts {}).postJob a.artifactID := by
      apply Grounded.root (mem_postJob.mpr ⟨ha, hpostId⟩)
      rw [← hid]
      exact hdpost
    obtain ⟨p, q, hsplit⟩ := append_of_mem (h.post.applied _ (h.post.all _ hgrounded))
    have hmem := horder.ordered
      (pre ++ mountEvents (artifacts.filterMap mount?) ++ ([.ready, .workerDone] ++ p))
      a.artifactID q (by rw [h.log, hsplit]; simp) a (hrest ha) rfl d (hrest hdrest) hid
    have hnotp : .applied d.artifactID ∉ p := by
      intro hmem
      have hmem : .applied d.artifactID ∈ post := by
        rw [hsplit]
        exact mem_append_left _ hmem
      exact hdpost (h.post.grounded _ (h.post.applied _ hmem)).mem
    have hnotm := nonMount_not_mem hids hdrest (fun m (hm : m ∈ artifacts.filterMap mount?) => hm)
    rw [nil_append, nil_append, append_assoc] at hmem
    apply h.applied_pre hmem
    simp [hnotp, hnotm]

end CalmLog

end

/-- **Order of application.**  For a list with distinct ids, every run of the flow applies each
    artifact after the one it depends on, and after the worker exactly if its chain of
    dependencies comes to a sentinel, if and only if the list satisfies `MountsFit`. -/
theorem inOrder_iff_mountsFit {artifacts : List Artifact} (hids : DistinctIds artifacts) :
    (∀ host timeoutSeconds before w₀, Truthful artifacts before w₀ →
      InOrder artifacts before [] (runLog host timeoutSeconds artifacts w₀)) ↔
    MountsFit artifacts := by
  constructor
  · intro horder
    obtain ⟨pre, post, hlog⟩ := exists_calmLog artifacts
    exact hlog.mountsFit (horder calm 0 [] {} (truthful_fresh artifacts)) hids
  · intro hfit host timeoutSeconds before w₀ htrue
    exact (runLog_trace host timeoutSeconds artifacts htrue.log).1.inOrder hids hfit htrue

theorem inOrder_iff_mountsFit_imageAndFile :
    DistinctIds imageAndFile ∧
      ((∀ host timeoutSeconds before w₀, Truthful imageAndFile before w₀ →
        InOrder imageAndFile before [] (runLog host timeoutSeconds imageAndFile w₀)) ↔
      MountsFit imageAndFile) :=
  ⟨by decide, inOrder_iff_mountsFit (by decide)⟩

def reportFromImage : List Artifact :=
  [.mount { id := "data", in_ := "data.erofs", out := "data" },
   .read { id := "report", in_ := "data/report.txt", depends := "data" }]

/-- The report of an accepted list is read before its image is mounted. -/
theorem report_before_mount :
    validateArtifacts noURLs reportFromImage = none ∧ DistinctIds reportFromImage ∧
      Truthful reportFromImage [] {} ∧
      runLog calm 60 reportFromImage {} = [.apply "report", .applied "report", .apply "data",
        .applied "data", .ready, .workerDone] ∧
      ¬InOrder reportFromImage [] [] (runLog calm 60 reportFromImage {}) := by
  have hlog : runLog calm 60 reportFromImage {} = [.apply "report", .applied "report",
      .apply "data", .applied "data", .ready, .workerDone] := by decide
  refine ⟨by decide, by decide, truthful_fresh _, hlog, ?_⟩
  intro horder
  have hmem := horder.ordered [] "report" _ hlog _ (mem_cons_of_mem _ mem_cons_self) rfl
    _ mem_cons_self rfl
  cases hmem

end Orchestrator.Sidecar

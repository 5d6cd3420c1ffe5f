/-
  Orchestrator.Artifact.Graph

  The two graph algorithms on an artifact list (internal/artifact/graph.go).

  `partition` splits a list into the artifacts that run before the workload and those
  that run after it, by a fixpoint over the ids that depend on a sentinel; `PostId` is
  what the fixpoint stands for.  `runInOrder` calls a function on every artifact whose
  dependency within the list is done, pass after pass, until nothing is left or a pass
  gets no further; `Grounded` is what it gets to.

  Both loops carry fuel, and both results say that it is never used up.
-/

import Orchestrator.Artifact.Definitions
import Orchestrator.Lib.Prog
import Mathlib.Data.Finset.Card

namespace Orchestrator.Artifact

open Lib Lib.Prog List

def ids (artifacts : List Artifact) : Finset String := (artifacts.map artifactID).toFinset

variable {id : String}

theorem mem_ids {artifacts : List Artifact} :
    id ∈ ids artifacts ↔ ∃ a ∈ artifacts, a.artifactID = id := by
  simp [ids]

theorem card_ids_le (artifacts : List Artifact) : (ids artifacts).card ≤ artifacts.length := by
  have h := toFinset_card_le (artifacts.map artifactID)
  rwa [length_map] at h

/-! ## Partition -/

/-- The ids that depend on a sentinel directly. -/
def markDirect (artifacts : List Artifact) : Finset String :=
  artifacts.foldl (fun marked a => if PostPhase a.dependsOn then insert a.artifactID marked else marked) ∅

/-- An artifact whose dependency is marked is marked too, and the pass has changed
    something. -/
def markStep (st : Finset String × Bool) (a : Artifact) : Finset String × Bool :=
  if a.artifactID ∉ st.1 ∧ a.dependsOn ∈ st.1 then (insert a.artifactID st.1, true) else st

/-- The map `dependsOnJob` when no pass changes it any more. -/
def dependsOnJob (artifacts : List Artifact) : Exec (Finset String) :=
  loop (fun marked =>
      let st := artifacts.foldl markStep (marked, false)
      .ok (if st.2 then .next st.1 else .done st.1))
    (artifacts.length + 1) (markDirect artifacts)

/-- An artifact joins `postJob`, the second list, if it is marked and `preJob` if not. -/
def place (marked : Finset String) (lists : List Artifact × List Artifact) (a : Artifact) :
    List Artifact × List Artifact :=
  if a.artifactID ∈ marked then (lists.1, lists.2 ++ [a]) else (lists.1 ++ [a], lists.2)

/-- The artifacts before the workload and those after it, in the order of the list. -/
def partition (artifacts : List Artifact) : Exec (List Artifact × List Artifact) := do
  let marked ← dependsOnJob artifacts
  return artifacts.foldl (place marked) ([], [])

/-- The ids that depend on a sentinel, directly or through ids of the list. -/
inductive PostId (artifacts : List Artifact) : String → Prop where
  | direct {a : Artifact} (ha : a ∈ artifacts) (h : PostPhase a.dependsOn) :
      PostId artifacts a.artifactID
  | step {a : Artifact} (ha : a ∈ artifacts) (h : PostId artifacts a.dependsOn) :
      PostId artifacts a.artifactID

section

variable {artifacts : List Artifact}

theorem PostId.mem (h : PostId artifacts id) : id ∈ ids artifacts := by
  cases h with
  | direct ha _ | step ha _ => exact mem_ids.mpr ⟨_, ha, rfl⟩

theorem mem_markDirect :
    id ∈ markDirect artifacts ↔ ∃ a ∈ artifacts, PostPhase a.dependsOn ∧ a.artifactID = id := by
  have hfold : ∀ marked : Finset String, id ∈ artifacts.foldl (fun marked a =>
      if PostPhase a.dependsOn then insert a.artifactID marked else marked) marked ↔
      id ∈ marked ∨ ∃ a ∈ artifacts, PostPhase a.dependsOn ∧ a.artifactID = id := by
    induction artifacts with
    | nil => simp
    | cons a rest ih =>
      intro marked
      rw [foldl_cons, ih]
      by_cases hp : PostPhase a.dependsOn
      · simp only [hp, if_true, Finset.mem_insert, exists_mem_cons_iff, true_and]
        grind
      · simp only [hp, if_false, exists_mem_cons_iff, false_and, false_or]
  rw [markDirect, hfold]
  simp

/-- What one pass does: it only adds ids of the list whose dependency is marked, and when
    it reports no change there is none to add. -/
structure PassSpec (artifacts done : List Artifact) (marked : Finset String)
    (st : Finset String × Bool) : Prop where
  grows : marked ⊆ st.1
  sound : (∀ id ∈ marked, PostId artifacts id) → ∀ id ∈ st.1, PostId artifacts id
  changed : st.2 = true → marked.card < st.1.card
  closed : st.2 = false → st.1 = marked ∧ ∀ a ∈ done, a.dependsOn ∈ marked → a.artifactID ∈ marked

theorem markStep_spec {done : List Artifact} {marked : Finset String} {st : Finset String × Bool}
    (h : PassSpec artifacts done marked st) {a : Artifact} (ha : a ∈ artifacts) :
    PassSpec artifacts (done ++ [a]) marked (markStep st a) := by
  unfold markStep
  split
  · rename_i hadd
    obtain ⟨hnew, hdep⟩ := hadd
    have hcard : (insert a.artifactID st.1).card = st.1.card + 1 := Finset.card_insert_of_notMem hnew
    constructor
    · exact h.grows.trans (Finset.subset_insert _ _)
    · intro hmarked id hid
      rcases Finset.mem_insert.mp hid with rfl | hid
      · exact .step ha (h.sound hmarked _ hdep)
      · exact h.sound hmarked id hid
    · intro _
      have hle := Finset.card_le_card h.grows
      show marked.card < (insert a.artifactID st.1).card
      omega
    · intro hfalse
      cases hfalse
  · rename_i hkeep
    refine ⟨h.grows, h.sound, h.changed, fun hfalse => ?_⟩
    obtain ⟨hsame, hclosed⟩ := h.closed hfalse
    refine ⟨hsame, fun b hb hdep => ?_⟩
    rcases mem_append.mp hb with hb | hb
    · exact hclosed b hb hdep
    obtain rfl := mem_singleton.mp hb
    rw [hsame] at hkeep
    by_contra hmem
    exact hkeep ⟨hmem, hdep⟩

variable (artifacts : List Artifact)

theorem pass_spec (marked : Finset String) :
    PassSpec artifacts artifacts marked (artifacts.foldl markStep (marked, false)) := by
  have hall : ∀ post done st, artifacts = done ++ post → PassSpec artifacts done marked st →
      PassSpec artifacts artifacts marked (post.foldl markStep st) := by
    intro post
    induction post with
    | nil =>
      intro done st hsplit h
      rw [append_nil] at hsplit
      rw [hsplit]
      rw [hsplit] at h
      exact h
    | cons a post ih =>
      intro done st hsplit h
      rw [foldl_cons]
      have ha : a ∈ artifacts := by
        rw [hsplit]
        simp
      exact ih (done ++ [a]) _ (by rw [hsplit]; simp) (markStep_spec h ha)
  apply hall artifacts [] (marked, false) rfl
  exact ⟨subset_rfl, fun h => h, by simp, by simp⟩

/-- The fixpoint is reached, and it is `PostId`. -/
theorem dependsOnJob_sat :
    Exec.Sat (dependsOnJob artifacts) fun marked => ∀ id, id ∈ marked ↔ PostId artifacts id := by
  have hbound : ∀ marked : Finset String, (∀ id ∈ marked, PostId artifacts id) →
      marked.card ≤ (ids artifacts).card := by
    intro marked hsound
    exact Finset.card_le_card fun id hid => (hsound id hid).mem
  apply Exec.loop_sat
    (fun marked => markDirect artifacts ⊆ marked ∧ ∀ id ∈ marked, PostId artifacts id)
    (fun marked => (ids artifacts).card - marked.card)
  · rintro marked ⟨hdirect, hsound⟩
    have hpass := pass_spec artifacts marked
    have hsound' := hpass.sound hsound
    apply Exec.sat_ok
    cases hst : (artifacts.foldl markStep (marked, false)).2 with
    | true =>
      have hgrow := hpass.changed hst
      have hle := hbound _ hsound'
      exact ⟨⟨hdirect.trans hpass.grows, hsound'⟩, by omega⟩
    | false =>
      obtain ⟨hsame, hclosed⟩ := hpass.closed hst
      show ∀ id, id ∈ (artifacts.foldl markStep (marked, false)).1 ↔ PostId artifacts id
      rw [hsame]
      intro id
      constructor
      · exact hsound id
      -- a set that no pass changes is closed under the links
      · intro hpost
        induction hpost with
        | direct ha h => exact hdirect (mem_markDirect.mpr ⟨_, ha, h, rfl⟩)
        | step ha _ ih => exact hclosed _ ha ih
  · refine ⟨subset_rfl, fun id hid => ?_⟩
    obtain ⟨a, ha, hp, rfl⟩ := mem_markDirect.mp hid
    exact .direct ha hp
  · have hle := card_ids_le artifacts
    omega

/-- **Partition**: the two parts are the artifacts without and with a `PostId`, each in the
    order of the list. -/
theorem partition_spec :
    ∃ marked : Finset String, (∀ id, id ∈ marked ↔ PostId artifacts id) ∧
      partition artifacts = .ok (artifacts.filter fun a => a.artifactID ∉ marked,
        artifacts.filter fun a => a.artifactID ∈ marked) := by
  obtain ⟨marked, hok, hmarked⟩ := dependsOnJob_sat artifacts
  have hfold : ∀ (xs : List Artifact) lists, xs.foldl (place marked) lists =
      (lists.1 ++ xs.filter (fun a => a.artifactID ∉ marked),
        lists.2 ++ xs.filter fun a => a.artifactID ∈ marked) := by
    intro xs
    induction xs with
    | nil => simp
    | cons a xs ih =>
      intro lists
      rw [foldl_cons, ih]
      unfold place
      by_cases ha : a.artifactID ∈ marked <;> simp [ha]
  refine ⟨marked, hmarked, ?_⟩
  rw [partition, hok]
  show Except.ok (artifacts.foldl _ ([], [])) = _
  rw [hfold]
  rfl

end

/-! ## RunInOrder -/

/-- The bookkeeping of `runInOrder`, by artifact id. -/
structure Sched (ε : Type) where
  completed : Finset String := ∅
  failed : Finset String := ∅
  lastErr : Option ε := none

namespace Sched

variable {ε : Type}

/-- An artifact left out because its dependency failed. -/
def skip (st : Sched ε) (a : Artifact) : Sched ε :=
  { st with completed := insert a.artifactID st.completed, failed := insert a.artifactID st.failed }

/-- An artifact the function was called on, with the error it returned. -/
def called (st : Sched ε) (a : Artifact) : Option ε → Sched ε
  | none => { st with completed := insert a.artifactID st.completed }
  | some err =>
    { completed := insert a.artifactID st.completed
      failed := insert a.artifactID st.failed
      lastErr := some err }

end Sched

section

variable {σ ε ε' : Type}

/-- One artifact of a pass; the flag says that the pass got further. -/
def visit (fn : Artifact → Prog σ ε' (Option ε)) (inScope : Finset String)
    (st : Sched ε × Bool) (a : Artifact) : Prog σ ε' (Sched ε × Bool) :=
  if a.artifactID ∈ st.1.completed then return st
  else if a.dependsOn ∈ inScope ∧ a.dependsOn ∉ st.1.completed then return st
  else if a.dependsOn ∈ st.1.failed then return (st.1.skip a, true)
  else do
    let err ← fn a
    return (st.1.called a err, true)

/-- Pass after pass over the list, until every artifact is completed or a pass gets no
    further. -/
def runInOrder [OutOfFuel ε'] (artifacts : List Artifact)
    (fn : Artifact → Prog σ ε' (Option ε)) : Prog σ ε' (Option ε) :=
  Prog.loop (fun st =>
      if st.completed.card < artifacts.length then do
        let (st', progress) ← artifacts.foldlM (visit fn (ids artifacts)) (st, false)
        -- without progress, what is left is only logged
        return if progress then .next st' else .done st'.lastErr
      else return .done st.lastErr)
    (artifacts.length + 1) {}

variable {a : Artifact}

theorem visit_ready {fn : Artifact → Prog σ ε' (Option ε)} {inScope : Finset String}
    {st : Sched ε × Bool} (hnew : a.artifactID ∉ st.1.completed) (hscope : a.dependsOn ∉ inScope)
    (hfailed : a.dependsOn ∉ st.1.failed) :
    visit fn inScope st a = do
      let err ← fn a
      return (st.1.called a err, true) := by
  unfold visit
  rw [if_neg hnew, if_neg (fun h => hscope h.1), if_neg hfailed]

@[simp] theorem Sched.completed_called (st : Sched ε) (a : Artifact) (err : Option ε) :
    (st.called a err).completed = insert a.artifactID st.completed := by
  cases err <;> rfl

theorem Sched.called_failed_subset (st : Sched ε) (a : Artifact) (err : Option ε) :
    (st.called a err).failed ⊆ insert a.artifactID st.failed := by
  cases err with
  | none => exact Finset.subset_insert _ _
  | some e => exact Finset.Subset.refl _

theorem Sched.called_lastErr (st : Sched ε) (a : Artifact) (err : Option ε) :
    (st.called a err).lastErr = (err <|> st.lastErr) := by
  cases err <;> rfl

/-- Two artifacts that depend on nothing in the list: both are called, whatever the first
    one returns, and the last error counts. -/
theorem runInOrder_pair [OutOfFuel ε'] {x y : Artifact} (hne : y.artifactID ≠ x.artifactID)
    (hx : x.dependsOn ∉ ids [x, y]) (hy : y.dependsOn ∉ ids [x, y])
    (fn : Artifact → Prog σ ε' (Option ε)) :
    runInOrder [x, y] fn = do
      let err ← fn x
      let err' ← fn y
      return err' <|> err := by
  have hids : ids [x, y] = {x.artifactID, y.artifactID} := by
    unfold ids
    simp only [map_cons, map_nil, toFinset_cons, toFinset_nil,
      insert_empty_eq]
  have hfirst : visit fn (ids [x, y]) (({} : Sched ε), false) x = do
      let err ← fn x
      return (({} : Sched ε).called x err, true) :=
    visit_ready (Finset.notMem_empty _) hx (Finset.notMem_empty _)
  have hsecond : ∀ err b, visit fn (ids [x, y]) (({} : Sched ε).called x err, b) y = do
      let err' ← fn y
      return ((({} : Sched ε).called x err).called y err', true) := by
    intro err b
    apply visit_ready
    · rw [Sched.completed_called, Finset.mem_insert, not_or]
      exact ⟨hne, Finset.notMem_empty _⟩
    · exact hy
    · intro hmem
      have hin := Sched.called_failed_subset _ _ _ hmem
      apply hy
      rw [hids]
      rw [Finset.mem_insert] at hin ⊢
      exact .inl (hin.resolve_right (Finset.notMem_empty _))
  have hcard : ∀ err err', ((({} : Sched ε).called x err).called y err').completed.card = 2 := by
    intro err err'
    rw [Sched.completed_called, Sched.completed_called, Finset.card_insert_of_notMem]
    · rfl
    · rw [Finset.mem_insert, not_or]
      exact ⟨hne, Finset.notMem_empty _⟩
  unfold runInOrder
  -- one pass calls both, and then all are completed
  rw [Prog.loop]
  simp only [foldlM_cons, foldlM_nil, hfirst, bind_assoc, pure_bind, hsecond]
  rw [if_pos (by simp)]
  simp only [if_true, bind_assoc, pure_bind]
  apply bind_congr
  intro err
  apply bind_congr
  intro err'
  have hlast : ((({} : Sched ε).called x err).called y err').lastErr = (err' <|> err) := by
    rw [Sched.called_lastErr, Sched.called_lastErr]
    cases err <;> rfl
  rw [← hlast]
  apply loop_done
  rw [hcard]
  rfl

/-- What the bookkeeping keeps: it is about ids of the list, and what failed is done. -/
structure Sched.Within (artifacts : List Artifact) (st : Sched ε) : Prop where
  completed : st.completed ⊆ ids artifacts
  failed : st.failed ⊆ st.completed

/-- An artifact whose turn it is. -/
structure Sched.Ready (artifacts : List Artifact) (st : Sched ε) (a : Artifact) : Prop where
  mem : a ∈ artifacts
  new : a.artifactID ∉ st.completed
  dep : a.dependsOn ∈ ids artifacts → a.dependsOn ∈ st.completed

/-- No artifact of the list is left whose turn it is. -/
def Sched.Stuck (artifacts done : List Artifact) (st : Sched ε) : Prop :=
  ∀ a ∈ done, a.artifactID ∉ st.completed → a.dependsOn ∈ ids artifacts ∧ a.dependsOn ∉ st.completed

variable {artifacts : List Artifact} {fn : Artifact → Prog σ ε' (Option ε)}

theorem Sched.Within.done {st : Sched ε} (h : st.Within artifacts) (ha : a ∈ artifacts) :
    insert a.artifactID st.completed ⊆ ids artifacts := by
  intro id hid
  rcases Finset.mem_insert.mp hid with rfl | hid
  · exact mem_ids.mpr ⟨a, ha, rfl⟩
  · exact h.completed hid

theorem Sched.Within.skip {st : Sched ε} (h : st.Within artifacts) (ha : a ∈ artifacts) :
    (st.skip a).Within artifacts :=
  ⟨h.done ha, Finset.insert_subset_insert _ h.failed⟩

theorem Sched.Within.called {st : Sched ε} (h : st.Within artifacts) (ha : a ∈ artifacts)
    (err : Option ε) : (st.called a err).Within artifacts := by
  cases err with
  | none => exact ⟨h.done ha, h.failed.trans (Finset.subset_insert _ _)⟩
  | some err => exact ⟨h.done ha, Finset.insert_subset_insert _ h.failed⟩

/-- A pass, up to the artifacts `done`: it got further, or nothing has changed and none of
    them has its turn. -/
structure PassState (artifacts done : List Artifact) (st₀ : Sched ε) (st : Sched ε × Bool) :
    Prop where
  within : st.1.Within artifacts
  further : st.2 = true → st₀.completed.card < st.1.completed.card
  grows : st₀.completed.card ≤ st.1.completed.card
  same : st.2 = false → st.1 = st₀ ∧ st₀.Stuck artifacts done

variable {done : List Artifact} {st₀ : Sched ε}

theorem PassState.advance {st : Sched ε × Bool} (h : PassState artifacts done st₀ st)
    {st' : Sched ε} (hnew : a.artifactID ∉ st.1.completed) (hwithin : st'.Within artifacts)
    (hdone : st'.completed = insert a.artifactID st.1.completed) :
    PassState artifacts (done ++ [a]) st₀ (st', true) := by
  have hcard := Finset.card_insert_of_notMem hnew
  have hgrows := h.grows
  refine ⟨hwithin, fun _ => ?_, ?_, by simp⟩
  · show st₀.completed.card < st'.completed.card
    rw [hdone]
    omega
  · show st₀.completed.card ≤ st'.completed.card
    rw [hdone]
    omega

theorem PassState.pass {st : Sched ε × Bool} (h : PassState artifacts done st₀ st)
    (hpass : a.artifactID ∉ st.1.completed →
      a.dependsOn ∈ ids artifacts ∧ a.dependsOn ∉ st.1.completed) :
    PassState artifacts (done ++ [a]) st₀ st := by
  refine ⟨h.within, h.further, h.grows, fun hfalse => ?_⟩
  obtain ⟨hsame, hstuck⟩ := h.same hfalse
  refine ⟨hsame, fun b hb hnew => ?_⟩
  rcases mem_append.mp hb with hb | hb
  · exact hstuck b hb hnew
  · obtain rfl := mem_singleton.mp hb
    rw [hsame] at hpass
    exact hpass hnew

variable {Inv : Sched ε → σ → Prop} {E : ε' → σ → Prop}

theorem Sched.stuck_of_card {st : Sched ε} (hwithin : st.Within artifacts)
    (hcard : ¬st.completed.card < artifacts.length) : st.Stuck artifacts artifacts := by
  intro a ha hnew
  have hall : st.completed = ids artifacts := by
    apply Finset.eq_of_subset_of_card_le hwithin.completed
    have hle := card_ids_le artifacts
    omega
  rw [hall] at hnew
  exact absurd (mem_ids.mpr ⟨a, ha, rfl⟩) hnew

section

variable
    (hskip : ∀ st a s, st.Within artifacts → st.Ready artifacts a → a.dependsOn ∈ st.failed →
      Inv st s → Inv (st.skip a) s)
    (hcall : ∀ st a, st.Within artifacts → st.Ready artifacts a → a.dependsOn ∉ st.failed →
      Triple (Inv st) (fn a) (fun err => Inv (st.called a err)) E)
include hskip hcall

theorem visit_triple (st : Sched ε × Bool) (ha : a ∈ artifacts) :
    Triple (fun s => PassState artifacts done st₀ st ∧ Inv st.1 s)
      (visit fn (ids artifacts) st a)
      (fun st' s => PassState artifacts (done ++ [a]) st₀ st' ∧ Inv st'.1 s) E := by
  unfold visit
  apply triple_ite
  · intro hdone
    apply triple_pure
    intro s ⟨hpass, hinv⟩
    exact ⟨hpass.pass (fun hnew => absurd hdone hnew), hinv⟩
  intro hnew
  apply triple_ite
  · intro hblocked
    apply triple_pure
    intro s ⟨hpass, hinv⟩
    exact ⟨hpass.pass (fun _ => hblocked), hinv⟩
  intro hfree
  -- neither done nor waiting: it is its turn
  have hready : st.1.Ready artifacts a := by
    refine ⟨ha, hnew, fun hscope => ?_⟩
    by_contra hdep
    exact hfree ⟨hscope, hdep⟩
  apply triple_ite
  · intro hfailed
    apply triple_pure
    intro s ⟨hpass, hinv⟩
    have hwithin := hpass.within
    exact ⟨hpass.advance hnew (hwithin.skip ha) rfl, hskip _ _ s hwithin hready hfailed hinv⟩
  · intro hfailed
    apply triple_of_prop
    intro hpass
    apply Triple.bind (hcall st.1 a hpass.within hready hfailed)
    intro err
    apply triple_pure
    intro s hinv
    exact ⟨hpass.advance hnew (hpass.within.called ha err) (Sched.completed_called _ _ _), hinv⟩

variable (Inv) in
/-- **The rule for `runInOrder`**: what the calls of the function keep, one ready artifact
    at a time, holds when it returns; then no artifact is left whose turn it is.  It does
    not run out of fuel. -/
theorem runInOrder_triple [OutOfFuel ε'] :
    Triple (Inv {}) (runInOrder artifacts fn)
      (fun err s => ∃ st : Sched ε, Inv st s ∧ err = st.lastErr ∧ st.Within artifacts ∧
        st.Stuck artifacts artifacts) E := by
  apply Triple.pre (P := fun s => (Sched.Within artifacts ({} : Sched ε)) ∧ Inv {} s)
  -- the measure is the number of ids that are left
  · apply triple_loop (fun st s => st.Within artifacts ∧ Inv st s)
      (fun st => (ids artifacts).card - st.completed.card)
    · intro st
      apply triple_ite
      · intro _
        apply triple_of_prop
        intro hwithin
        have hvisit : ∀ done a post st', artifacts = done ++ a :: post →
            Triple (fun s => PassState artifacts done st st' ∧ Inv st'.1 s)
              (visit fn (ids artifacts) st' a)
              (fun st'' s => PassState artifacts (done ++ [a]) st st'' ∧ Inv st''.1 s) E := by
          intro done a post st' hsplit
          apply visit_triple hskip hcall st'
          rw [hsplit]
          simp
        have hfold := triple_foldlM
          (fun done st' s => PassState artifacts done st st' ∧ Inv st'.1 s) artifacts hvisit
          (st, false)
        apply Triple.bind (hfold.pre fun s hinv => ?_)
        · rintro ⟨st', progress⟩
          apply triple_pure
          rintro s ⟨hpass, hinv⟩
          -- a pass that gets no further has changed nothing, and nothing is ready
          cases progress with
          | true =>
            have hfurther := hpass.further rfl
            have hle := Finset.card_le_card hpass.within.completed
            exact ⟨⟨hpass.within, hinv⟩, by simp only at hfurther hle; omega⟩
          | false =>
            obtain ⟨hsame, hstuck⟩ := hpass.same rfl
            simp only at hsame
            exact ⟨st', hinv, rfl, hpass.within, hsame ▸ hstuck⟩
        · exact ⟨⟨hwithin, by simp, le_rfl, fun _ => ⟨rfl, by simp [Sched.Stuck]⟩⟩, hinv⟩
      · intro hcard
        apply triple_pure
        rintro s ⟨hwithin, hinv⟩
        exact ⟨st, hinv, rfl, hwithin, Sched.stuck_of_card hwithin hcard⟩
    · have hle := card_ids_le artifacts
      show (ids artifacts).card - (∅ : Finset String).card < _
      rw [Finset.card_empty]
      omega
  · intro s hinv
    exact ⟨⟨by simp, by simp⟩, hinv⟩

end

end

/-- The ids whose chain of dependencies within the list comes to an end: those on no
    dependency cycle and behind none. -/
inductive Grounded (artifacts : List Artifact) : String → Prop where
  | root {a : Artifact} (ha : a ∈ artifacts) (h : a.dependsOn ∉ ids artifacts) :
      Grounded artifacts a.artifactID
  | step {a : Artifact} (ha : a ∈ artifacts) (h : Grounded artifacts a.dependsOn) :
      Grounded artifacts a.artifactID

section

variable {artifacts : List Artifact} {ε : Type} {st : Sched ε}

theorem Grounded.mem (h : Grounded artifacts id) : id ∈ ids artifacts := by
  cases h with
  | root ha _ | step ha _ => exact mem_ids.mpr ⟨_, ha, rfl⟩

/-- When nothing has its turn any more, every grounded id is done. -/
theorem Grounded.completed (hstuck : st.Stuck artifacts artifacts) (h : Grounded artifacts id) :
    id ∈ st.completed := by
  induction h with
  | root ha hdep =>
    by_contra hnew
    exact hdep (hstuck _ ha hnew).1
  | step ha _ ih =>
    by_contra hnew
    exact (hstuck _ ha hnew).2 ih

/-- An artifact that has its turn is grounded if what is done is. -/
theorem Sched.Ready.grounded {a : Artifact} (h : st.Ready artifacts a)
    (hdone : ∀ id ∈ st.completed, Grounded artifacts id) : Grounded artifacts a.artifactID := by
  by_cases hscope : a.dependsOn ∈ ids artifacts
  · exact .step h.mem (hdone _ (h.dep hscope))
  · exact .root h.mem hscope

theorem Sched.Ready.grounded_insert {a : Artifact} (h : st.Ready artifacts a)
    (hdone : ∀ id ∈ st.completed, Grounded artifacts id) :
    ∀ id ∈ insert a.artifactID st.completed, Grounded artifacts id := by
  intro id hid
  rcases Finset.mem_insert.mp hid with rfl | hid
  · exact h.grounded hdone
  · exact hdone id hid

end

def DistinctIds (artifacts : List Artifact) : Prop := (artifacts.map artifactID).Nodup

instance (artifacts : List Artifact) : Decidable (DistinctIds artifacts) :=
  inferInstanceAs (Decidable (List.Nodup _))

theorem DistinctIds.eq {artifacts : List Artifact} {a b : Artifact} (h : DistinctIds artifacts)
    (ha : a ∈ artifacts) (hb : b ∈ artifacts) (hid : a.artifactID = b.artifactID) : a = b :=
  List.inj_on_of_nodup_map h ha hb hid

end Orchestrator.Artifact

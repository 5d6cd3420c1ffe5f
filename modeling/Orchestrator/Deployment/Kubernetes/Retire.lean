/-
  Orchestrator.Deployment.Kubernetes.Retire

  What `retire` deletes.  It protects the last-ready revision of the marker it was given and
  the weighted revisions of a table: the route's, or the one the marker implies when the
  route cannot be read.  So the weighted revisions of the live route and the last-ready
  one of the stored marker are safe, whatever calls fail, exactly when both tables protect
  those of them that are beyond the history limit.
-/

import Orchestrator.Deployment.Kubernetes.Apply

namespace Orchestrator.Deployment

open Lib Lib.Proc

def Cluster.revisionNames (s : Cluster) (id : String) : List String :=
  namesFrom (namesOf s.revisions fun r => r.deployment = id)
    (namesOf s.services fun label => label = id)

/-- The revision has weight in the live route, or is the last-ready one of the stored marker. -/
def Cluster.Shielded (s : Cluster) (id rev : String) : Prop :=
  (∃ t ∈ s.liveTargets id, 0 < t.percent ∧ t.revisionName = rev) ∨
    (rev ≠ "" ∧ ∃ v, s.markers.lookup id = some v ∧ v.value.lastReady = rev)

/-- The objects of the revision are as they were. -/
def Kept (rev : String) (s s' : Cluster) : Prop :=
  s'.revisions.lookup rev = s.revisions.lookup rev ∧
    s'.services.lookup rev = s.services.lookup rev

/-- Each table that `retire` may work with protects what is shielded beyond the history limit. -/
def Guarded (cfg : Config) (id : String) (m : Marker) (s : Cluster) : Prop :=
  ∀ rev ∈ (s.revisionNames id).drop cfg.revisionHistoryLimit, s.Shielded id rev →
    isProtected m (fallbackTargets m) rev = true ∧
      (cfg.gatewayEnabled = true → s.liveTargets id ≠ [] →
        isProtected m (s.liveTargets id) rev = true)

/-! ## What is guarded is kept -/

/-- Nobody else calls, and what is shielded at the start is kept. -/
def keeping (s₀ : Cluster) (id : String) : Terms where
  rely := Eq
  allowed _ _ _ _ := True
  guar s s' := ∀ rev, s₀.Shielded id rev → Kept rev s s'

theorem keeping_fair (s₀ : Cluster) (id : String) : Fair (keeping s₀ id) where
  refl _ := rfl
  trans _ _ _ := Eq.trans
  later s _ h := h ▸ Later.refl s
  still _ _ _ := ⟨rfl, rfl⟩

theorem keeping_stable {s₀ : Cluster} {id : String} (K : Cluster → Prop) :
    Stable (keeping s₀ id) K := fun _ _ h hk => h ▸ hk

section

variable {cfg : Config} {id : String} {m : Marker} {s : Cluster} {log : List Call}

/-- Deleting revisions that are not shielded. -/
theorem keeping_deleteAll {revs : List String} (hrevs : ∀ rev ∈ revs, ¬ s.Shielded id rev)
    {s' : Cluster} :
    Meets serve (keeping s id) (fun _ _ _ => True) (revs.forM deleteRevisionObjects) log s' := by
  refine meets_forM (fun _ _ _ => True) revs ?_ trivial
  intro pre rev post hsplit log' s₁ _
  have hrev : ¬ s.Shielded id rev := hrevs rev (by simp [hsplit])
  refine meets_deleteRevisionObjects (K := fun _ => True) (keeping_fair s id) (keeping_stable _)
    trivial ?_ ?_
  · intro s₂ log'' r _ _ _
    refine ⟨?_, trivial⟩
    intro rev' hshield
    have hne : rev' ≠ rev := fun heq => hrev (heq ▸ hshield)
    exact ⟨AList.lookup_erase_ne hne, rfl⟩
  · intro s₂ _
    refine ⟨?_, trivial⟩
    intro rev' hshield
    have hne : rev' ≠ rev := fun heq => hrev (heq ▸ hshield)
    exact ⟨rfl, AList.lookup_erase_ne hne⟩

theorem keeping_retire (h : Guarded cfg id m s) :
    Meets serve (keeping s id) (fun _ _ _ => True) (retire cfg id m) log s := by
  refine Meets.bind (meets_revisionNames (K := fun _ => True) (keeping_fair s id)
    (keeping_stable _) trivial) ?_
  rintro log₁ names s₁ ⟨-, s₂, rfl, rfl, rfl⟩
  refine Meets.bind (meets_currentTargets (K := fun _ => True) (keeping_fair _ id)
    (keeping_stable _) trivial) ?_
  rintro log₂ targets s₃ ⟨-, htargets⟩
  refine keeping_deleteAll ?_
  intro rev hrev hshield
  obtain ⟨hmem, hopen⟩ := List.mem_filter.mp hrev
  obtain ⟨hfallback, hlive⟩ := h rev hmem hshield
  rcases htargets with rfl | ⟨s₄, v, rfl, rfl, hgateway, hv, hsome, rfl⟩
  · simp [hfallback] at hopen
  · rw [Cluster.liveTargets, hv] at hlive
    simp [hlive hgateway hsome] at hopen

/-- What is guarded is kept, whatever calls fail. -/
theorem Guarded.kept (h : Guarded cfg id m s) (fates : Nat → Call → Fate) {rev : String}
    (hshield : s.Shielded id rev) : Kept rev s (exec serve (errorOf (retire cfg id m)) fates s).2 := by
  have hsafe : Safe serve (keeping s id) (fun _ _ _ => True) (errorOf (retire cfg id m)) [] s :=
    Safe.bind (keeping_retire h) (fun _ _ _ _ => trivial)
  have hstep : ∀ s₁ s₂, (keeping s id).guar s₁ s₂ → Kept rev s s₁ → Kept rev s s₂ := by
    intro s₁ s₂ hguar hkept
    obtain ⟨hrevs, hservices⟩ := hguar rev hshield
    exact ⟨hrevs.trans hkept.1, hservices.trans hkept.2⟩
  have hallowed : ∀ n log s' k, (keeping s id).allowed log s' k (fates n k) :=
    fun _ _ _ _ => trivial
  obtain ⟨-, -, hkept⟩ := (hsafe.keeps (Kept rev s) (keeping_stable _) hstep ⟨rfl, rfl⟩).exec
    (fun _ => rfl) hallowed
  exact hkept

end

/-! ## What is not guarded can be lost -/

def Gone (rev : String) (s : Cluster) : Prop :=
  s.revisions.lookup rev = none ∧ s.services.lookup rev = none

/-- Calls go through, but for the read of the route if that is said to fail. -/
def routeFails (fails : Bool) : Call → Fate
  | .getRoute _ => if fails then .refused else .through
  | _ => .through

theorem exec_deleteObject {k : Call} {op : String} {fails : Bool} {s : Cluster}
    (hfate : routeFails fails k = .through)
    (hreply : ∀ e, (s.handle k).1 = .error e → e = .notFound) :
    exec serve (deleteObject op k).run (fun _ => routeFails fails) s =
      (.ok (), (s.handle k).2) := by
  have hask : exec serve (request k).run (fun _ => routeFails fails) s =
      (.ok (s.handle k).1, (s.handle k).2) := by
    rw [exec_ask, hfate]
    rfl
  rw [deleteObject, exec_bind_ok hask]
  split
  · rfl
  · rfl
  · rename_i e hne heq
    exact absurd (hreply e heq) hne

theorem exec_deleteRevisionObjects (fails : Bool) (rev : String) (s : Cluster) :
    ∃ s', exec serve (deleteRevisionObjects rev).run (fun _ => routeFails fails) s = (.ok (), s') ∧
      Gone rev s' ∧ ∀ rev', Gone rev' s → Gone rev' s' := by
  have hdelete : ∀ {α : Type} (t : Objects α) e, (t.delete rev).1 = .error e → e = .notFound := by
    intro α t e he
    cases h : t.lookup rev with
    | some a =>
      rw [Objects.delete_of_some h] at he
      cases he
    | none =>
      rw [Objects.delete_of_none h] at he
      cases he
      rfl
  have hrevision : exec serve (deleteObject "kubernetes.deleteRevision" (.deleteRevision rev)).run
      (fun _ => routeFails fails) s = (.ok (), (s.handle (.deleteRevision rev)).2) :=
    exec_deleteObject rfl (hdelete s.revisions)
  have hservice : ∀ s₁ : Cluster, exec serve
      (deleteObject "kubernetes.deleteService" (.deleteService rev)).run
      (fun _ => routeFails fails) s₁ = (.ok (), (s₁.handle (.deleteService rev)).2) :=
    fun s₁ => exec_deleteObject rfl (hdelete s₁.services)
  refine ⟨((s.handle (.deleteRevision rev)).2.handle (.deleteService rev)).2, ?_, ?_, ?_⟩
  · -- pods and disruption budgets leave the cluster as it is
    exact (exec_bind_ok hrevision).trans (hservice _)
  · have hgone : ∀ {α : Type} (t : Objects α), (t.delete rev).2.lookup rev = none :=
      fun t => (t.lookup_delete rev rev).trans (if_pos rfl)
    exact ⟨hgone _, hgone _⟩
  · rintro rev' ⟨hrev, hservice⟩
    have hstay : ∀ {α : Type} (t : Objects α), t.lookup rev' = none →
        (t.delete rev).2.lookup rev' = none := by
      intro α t hnone
      rw [t.lookup_delete]
      split
      · rfl
      · exact hnone
    exact ⟨hstay _ hrev, hstay _ hservice⟩

theorem exec_deleteAll (fails : Bool) (revs : List String) (s : Cluster) :
    ∃ s', exec serve (revs.forM deleteRevisionObjects : Api PUnit).run
        (fun _ => routeFails fails) s = (.ok (), s') ∧
      (∀ rev ∈ revs, Gone rev s') ∧ ∀ rev, Gone rev s → Gone rev s' := by
  induction revs generalizing s with
  | nil =>
    refine ⟨s, rfl, ?_, fun _ h => h⟩
    intro rev hmem
    cases hmem
  | cons rev revs ih =>
    obtain ⟨s₁, hexec, hgone, hstay⟩ := exec_deleteRevisionObjects fails rev s
    obtain ⟨s₂, hexec', hgone', hstay'⟩ := ih s₁
    refine ⟨s₂, ?_, ?_, fun rev' h => hstay' rev' (hstay rev' h)⟩
    · exact (exec_bind_ok hexec).trans hexec'
    · intro rev' hmem
      rcases List.mem_cons.mp hmem with rfl | hmem'
      · exact hstay' rev' hgone
      · exact hgone' rev' hmem'

/-- The table `retire` works with when the read of the route fails, or does not. -/
def tableOf (cfg : Config) (id : String) (m : Marker) (s : Cluster) (fails : Bool) : List Target :=
  if cfg.gatewayEnabled = true ∧ fails = false ∧ s.liveTargets id ≠ [] then s.liveTargets id
  else fallbackTargets m

theorem exec_currentTargets (cfg : Config) (id : String) (m : Marker) (fails : Bool) (s : Cluster) :
    exec serve (currentTargets cfg id m).run (fun _ => routeFails fails) s =
      (.ok (tableOf cfg id m s fails), s) := by
  rw [currentTargets, tableOf]
  by_cases hgateway : cfg.gatewayEnabled = true
  · rw [if_pos hgateway, exec_bind_ok (exec_ask _ _ _)]
    cases fails with
    | true =>
      rw [if_neg (by simp)]
      rfl
    | false =>
      cases hv : s.routes.lookup id with
      | none =>
        have hread : serve s (.getRoute id) (routeFails false (.getRoute id)) =
            (.error .notFound, s) := Prod.ext (Objects.get_eq_notFound hv) rfl
        have hlive : s.liveTargets id = [] := by rw [Cluster.liveTargets, hv]
        rw [hread, hlive, if_neg (by simp)]
        rfl
      | some v =>
        have hread : serve s (.getRoute id) (routeFails false (.getRoute id)) = (.ok v, s) :=
          Prod.ext (Objects.get_eq_ok hv) rfl
        have hlive : s.liveTargets id = routeTargets v.value := by rw [Cluster.liveTargets, hv]
        rw [hread, hlive]
        simp only [hgateway, true_and]
        split <;> rfl
  · rw [if_neg hgateway, if_neg (by simp [hgateway])]
    rfl

/-- When nothing but perhaps the read of the route fails, all surplus revisions go. -/
theorem exec_retire (cfg : Config) (id : String) (m : Marker) (fails : Bool) (s : Cluster) :
    ∀ rev ∈ surplus cfg m (tableOf cfg id m s fails) (s.revisionNames id),
      Gone rev (exec serve (errorOf (retire cfg id m)) (fun _ => routeFails fails) s).2 := by
  have hnames : exec serve (revisionNames id).run (fun _ => routeFails fails) s =
      (.ok (s.revisionNames id), s) := rfl
  obtain ⟨s', hexec, hgone, -⟩ :=
    exec_deleteAll fails (surplus cfg m (tableOf cfg id m s fails) (s.revisionNames id)) s
  have hretire : exec serve (retire cfg id m).run (fun _ => routeFails fails) s = (.ok (), s') :=
    (exec_bind_ok hnames).trans ((exec_bind_ok (exec_currentTargets ..)).trans hexec)
  rw [errorOf, exec_bind, hretire]
  exact hgone

theorem lookup_of_mem_namesOf {α : Type} {t : Objects α} {p : α → Bool} {name : String}
    (h : name ∈ namesOf t p) : t.lookup name ≠ none := by
  obtain ⟨e, he, rfl⟩ := List.mem_map.mp h
  have hentry := AList.mem_lookup_iff.mpr (List.mem_filter.mp he).1
  rw [Option.mem_def] at hentry
  simp [hentry]

theorem mem_revisionNames {s : Cluster} {id rev : String} (h : rev ∈ s.revisionNames id) :
    ¬ Gone rev s := by
  rintro ⟨hrevision, hservice⟩
  rw [Cluster.revisionNames, namesFrom, newestFirst, List.mem_insertionSort, List.mem_append,
    newestFirst, List.mem_insertionSort, List.mem_filter] at h
  rcases h with h | ⟨h, -⟩
  · exact lookup_of_mem_namesOf h hrevision
  · exact lookup_of_mem_namesOf h hservice

/-- **`retire` never deletes what is shielded exactly when it is guarded**: whatever calls fail. -/
theorem retire_keeps_iff (cfg : Config) (id : String) (m : Marker) (s : Cluster) :
    (∀ fates rev, s.Shielded id rev →
      Kept rev s (exec serve (errorOf (retire cfg id m)) fates s).2) ↔ Guarded cfg id m s := by
  constructor
  · intro h rev hmem hshield
    -- a shielded revision that a table does not protect goes in the run that works with that table
    have hprotected : ∀ fails, isProtected m (tableOf cfg id m s fails) rev = true := by
      intro fails
      by_contra hopen
      have hgone := exec_retire cfg id m fails s rev
        (List.mem_filter.mpr ⟨hmem, by simpa using hopen⟩)
      obtain ⟨hrevs, hservices⟩ := h (fun _ => routeFails fails) rev hshield
      apply mem_revisionNames (List.mem_of_mem_drop hmem)
      exact ⟨hrevs ▸ hgone.1, hservices ▸ hgone.2⟩
    refine ⟨?_, ?_⟩
    · have hfails := hprotected true
      rwa [tableOf, if_neg (by simp)] at hfails
    · intro hgateway hlive
      have hreads := hprotected false
      rwa [tableOf, if_pos ⟨hgateway, rfl, hlive⟩] at hreads
  · intro h fates rev hshield
    exact h.kept fates hshield

/-- Four revisions of `web`, all traffic pinned to the first. -/
def pinnedMarker : Marker := ⟨["web.localhost"], "web-00004", "web-00004", .manual⟩

def pinnedCluster : Cluster :=
  let rev (n : Nat) : Revision := ⟨"web", webRequest (toString n), 1⟩
  { emptyCluster with
    markers := (∅ : Objects _).insert "web" ⟨0, pinnedMarker⟩
    revisions := ((((∅ : Objects _).insert "web-00001" (rev 1)).insert "web-00002" (rev 2)).insert
      "web-00003" (rev 3)).insert "web-00004" (rev 4)
    routes := (∅ : Objects _).insert "web"
      ⟨0, buildHTTPRoute gatewayConfig pinnedMarker [⟨"web-00001", 100⟩]⟩ }

/-- The route cannot be read: the revision that has all the traffic is deleted. -/
theorem retire_deletes_weighted :
    pinnedCluster.liveTargets "web" = [⟨"web-00001", 100⟩] ∧
      (pinnedCluster.revisions.lookup "web-00001").isSome = true ∧
      (exec serve (errorOf (retire gatewayConfig "web" pinnedMarker))
        (fun _ => routeFails true) pinnedCluster).2.revisions.lookup "web-00001" = none := by
  decide

end Orchestrator.Deployment

/-
  Orchestrator.Deployment.Kubernetes.Traffic

  A manual table against the rollout reconciler.  `SetTraffic` writes the mode before the
  route, and the reconciler moves traffic only of deployments in mode auto; but the mode
  it goes by is the one of its listing.  The pinned table stays exactly when, at the
  moment `SetTraffic` returns, the mode is the one it wrote, no other `SetTraffic` on the
  deployment is under way, and no sweep that listed the deployment in mode auto still runs.
-/

import Orchestrator.Deployment.Kubernetes.Race

namespace Orchestrator.Deployment

open Lib Lib.Proc Lib.Machine

/-- The stored mode of the deployment. -/
def Cluster.storedMode (s : Cluster) (id : String) : Option TrafficMode :=
  (s.markers.lookup id).map fun v => v.value.trafficMode

/-- The deployment is in mode manual, and its route has the table. -/
structure Cluster.Pinned (s : Cluster) (id : String) (targets : List Target) : Prop where
  mode : s.storedMode id = some .manual
  table : ∃ v, s.routes.lookup id = some v ∧ routeTargets v.value = targets

theorem Cluster.Pinned.live {s : Cluster} {id : String} {targets : List Target}
    (h : s.Pinned id targets) : s.liveTargets id = targets := by
  obtain ⟨v, hv, htable⟩ := h.table
  rw [Cluster.liveTargets, hv]
  exact htable

/-- A task that is a `SetTraffic` on the deployment. -/
def Task.pins (id : String) : Task → Bool
  | .setTraffic id' _ => id' = id
  | _ => false

section

variable {cfg : Config} {s : Cluster} {id id' : String} {targets : List Target}

theorem storedMode_putMarker_self {v : Versioned Marker} :
    (s.putMarker id v).storedMode id = some v.value.trafficMode := by
  rw [Cluster.storedMode, Cluster.putMarker, AList.lookup_insert]
  rfl

/-! Writes that leave a pinned table pinned. -/

theorem Cluster.Pinned.putMarker_ne {v : Versioned Marker} (h : s.Pinned id targets)
    (hne : id ≠ id') : (s.putMarker id' v).Pinned id targets := by
  refine ⟨?_, h.table⟩
  rw [Cluster.storedMode, Cluster.putMarker, AList.lookup_insert_ne hne]
  exact h.mode

theorem Cluster.Pinned.newMarker {v : Versioned Marker} (h : s.Pinned id targets)
    (hnone : s.markers.lookup id' = none) : (s.putMarker id' v).Pinned id targets := by
  apply h.putMarker_ne
  rintro rfl
  have hmode := h.mode
  rw [Cluster.storedMode, hnone] at hmode
  cases hmode

theorem Cluster.Pinned.sameMode {v w : Versioned Marker} (h : s.Pinned id targets)
    (hv : s.markers.lookup id' = some v) (hmode : w.value.trafficMode = v.value.trafficMode) :
    (s.putMarker id' w).Pinned id targets := by
  by_cases hid : id = id'
  · subst hid
    refine ⟨?_, h.table⟩
    have hstored := h.mode
    rw [Cluster.storedMode, hv] at hstored
    rw [storedMode_putMarker_self, hmode]
    exact hstored
  · exact h.putMarker_ne hid

theorem Cluster.Pinned.putRoute_ne {v : Versioned HTTPRoute} (h : s.Pinned id targets)
    (hne : id ≠ id') : (s.putRoute id' v).Pinned id targets := by
  obtain ⟨w, hw, htable⟩ := h.table
  exact ⟨h.mode, w, (AList.lookup_insert_ne hne).trans hw, htable⟩

theorem Cluster.Pinned.newRoute {v : Versioned HTTPRoute} (h : s.Pinned id targets)
    (hnone : s.routes.lookup id' = none) : (s.putRoute id' v).Pinned id targets := by
  apply h.putRoute_ne
  rintro rfl
  obtain ⟨w, hw, -⟩ := h.table
  rw [hnone] at hw
  cases hw

theorem Cluster.Pinned.hostnames {v : Versioned HTTPRoute} {version : Nat} {hosts : List String}
    (h : s.Pinned id targets) (hv : s.routes.lookup id' = some v) :
    (s.putRoute id' ⟨version, { v.value with hostnames := hosts }⟩).Pinned id targets := by
  by_cases hid : id = id'
  · subst hid
    obtain ⟨w, hw, htable⟩ := h.table
    rw [hv] at hw
    cases hw
    exact ⟨h.mode, _, AList.lookup_insert _, htable⟩
  · exact h.putRoute_ne hid

theorem routeTargets_rules (hosts : List String) :
    routeTargets ⟨hosts, buildRouteRules cfg targets⟩ = targets := by
  have hrule : (buildRouteRules cfg targets).find? (fun rule => !rule.prefer) =
      some ⟨false, targets.map fun t => backendRef (objectNameFor t.revisionName) t⟩ := rfl
  rw [routeTargets, hrule]
  simp [backendRef, Function.comp_def]

end

/-! ## SetTraffic -/

/-- The contract of a `SetTraffic` next to anybody. -/
def pinTerms : Terms where
  rely := Later
  allowed _ _ _ _ := True
  guar _ _ := True

theorem pinTerms_fair : Fair pinTerms where
  refl := Later.refl
  trans _ _ _ := Later.trans
  later _ _ h := h
  still _ := trivial

/-- The contract of a program that leaves a pinned table pinned, if it is let to call so. -/
def keepTerms (id : String) (allowed : List Call → Cluster → Call → Fate → Prop) : Terms where
  rely := Later
  allowed := allowed
  guar s s' := ∀ targets, s.Pinned id targets → s'.Pinned id targets

theorem keepTerms_fair (id : String) (allowed : List Call → Cluster → Call → Fate → Prop) :
    Fair (keepTerms id allowed) where
  refl := Later.refl
  trans _ _ _ := Later.trans
  later _ _ h := h
  still _ _ h := h

/-- What a program may call without putting a pinned table at risk: a `SetTraffic` on the
    deployment does not come to write the route, and a sweep, whose first call is the listing,
    does not list the deployment in mode auto. -/
def mayCall (id : String) (task : Task) (log : List Call) (s : Cluster) (k : Call) (f : Fate) : Prop :=
  match task with
  | .setTraffic id' _ => id' = id → (serve s k f).2.routes.lookup id = s.routes.lookup id
  | .rollouts => log = [] → s.storedMode id ≠ some .auto
  | .apply _ => True
  | .report _ _ => True

/-- The contract of a task once the table is pinned. -/
def stayTerms (id : String) (task : Task) : Terms := keepTerms id (mayCall id task)

section

variable {cfg : Config} {s : Cluster} {id : String} {targets : List Target} {log : List Call}

/-- After `SetTraffic` the table is pinned, if the mode is manual then. -/
theorem pin_setTraffic (hgateway : cfg.gatewayEnabled = true) :
    Meets serve pinTerms
      (fun _ _ s' => s'.storedMode id = some .manual → s'.Pinned id targets)
      (setTraffic cfg id targets) log s := by
  refine meets_setTraffic (K := fun _ => True) pinTerms_fair (fun _ _ _ h => h)
    (fun _ => True) (fun _ => True) (fun _ _ _ h => h) trivial ?_ ?_ ?_ ?_
  · exact fun _ _ _ _ => ⟨trivial, trivial⟩
  · intro m log' s' _
    refine meets_writeRouteTraffic (K := fun _ => True) pinTerms_fair (fun _ _ _ h => h)
      hgateway trivial ?_ ?_
    · intro s' log' _ _ _
      exact ⟨trivial, fun hmode => ⟨hmode, _, AList.lookup_insert _, routeTargets_rules _⟩⟩
    · intro s' v log' _ _ _
      exact ⟨trivial, fun hmode => ⟨hmode, _, AList.lookup_insert _, routeTargets_rules _⟩⟩
  · intro m table log' s' _
    refine meets_writeRouteTraffic (K := fun _ => True) pinTerms_fair (fun _ _ _ h => h)
      hgateway trivial ?_ ?_
    · exact fun _ _ _ _ _ => ⟨trivial, trivial⟩
    · exact fun _ _ _ _ _ _ => ⟨trivial, trivial⟩
  · -- a `SetTraffic` that releases the deployment leaves mode auto
    intro s' v _ _
    refine ⟨trivial, fun hmanual => ?_⟩
    rw [storedMode_putMarker_self] at hmanual
    cases hmanual

/-- A later `SetTraffic` on the deployment. -/
theorem stay_writeRouteTraffic (hgateway : cfg.gatewayEnabled = true) {m : Marker}
    {table : List Target} :
    Meets serve (stayTerms id (.setTraffic id targets)) (fun _ _ _ => False)
      (writeRouteTraffic cfg id m table) log s := by
  refine meets_writeRouteTraffic (K := fun _ => True) (keepTerms_fair id _) (fun _ _ _ h => h)
    hgateway trivial ?_ ?_
  · rintro s' log' - hnone ⟨f, hf, hsame⟩
    have hsame := hsame rfl
    rw [serve_effect hf, Cluster.handle, Objects.create_of_none hnone, hnone] at hsame
    cases (AList.lookup_insert _).symm.trans hsame
  · rintro s' v log' - hv ⟨f, hf, hsame⟩
    have hsame := hsame rfl
    rw [serve_effect hf, Cluster.handle, Objects.update_of_same hv, hv] at hsame
    have hput := Option.some.inj ((AList.lookup_insert _).symm.trans hsame)
    exact absurd (congrArg Versioned.version hput) (Nat.succ_ne_self _)

theorem stay_setTraffic (hgateway : cfg.gatewayEnabled = true) :
    Leaves (stayTerms id (.setTraffic id targets)) (fun _ => True) (setTraffic cfg id targets) log
      s := by
  refine meets_setTraffic (K := fun _ => True) (keepTerms_fair id _) (fun _ _ _ h => h)
    (fun _ => True) (fun _ => False) (fun _ _ _ h => h) trivial ?_ ?_
    (fun _ _ _ _ _ => stay_writeRouteTraffic hgateway) ?_
  · intro s' v _ _
    exact ⟨fun table hpinned => ⟨storedMode_putMarker_self, hpinned.table⟩, trivial⟩
  · intro m log' s' _
    exact (stay_writeRouteTraffic hgateway).mono fun _ _ _ h => h.elim
  · -- the mode is released after the route is written, which it is not
    exact fun _ _ hfalse => hfalse.elim

end

/-! ## The other programs -/

section

variable {cfg : Config} {s : Cluster} {id id' : String} {log : List Call} {m : Marker}
  {allowed : List Call → Cluster → Call → Fate → Prop} {req : Request} {rev : String}
  {targets : List Target}

/-- A program that leaves pinned tables pinned, whatever the others do. -/
abbrev KeepsPinned {α : Type} (id : String) (allowed : List Call → Cluster → Call → Fate → Prop)
    (prog : Api α) (log : List Call) (s : Cluster) : Prop :=
  Leaves (keepTerms id allowed) (fun _ => True) prog log s

theorem keep_stable : Stable (keepTerms id allowed) fun _ => True := fun _ _ _ h => h

theorem permits_aside {s' : Cluster} (hmarkers : s'.markers = s.markers)
    (hroutes : s'.routes = s.routes) : Permits (keepTerms id allowed) (fun _ => True) s s' := by
  refine ⟨fun table hpinned => ⟨?_, ?_⟩, trivial⟩
  · rw [Cluster.storedMode, hmarkers]
    exact hpinned.mode
  · rw [hroutes]
    exact hpinned.table

theorem keep_ensureRevisionObjects : KeepsPinned id allowed (ensureRevisionObjects req rev) log s :=
  meets_ensureRevisionObjects (keepTerms_fair id allowed) keep_stable keep_stable trivial
    (fun _ _ _ _ => permits_aside rfl rfl) (fun _ _ _ _ _ => trivial)
    (fun _ _ => permits_aside rfl rfl)

theorem keep_writeSpecJSON : KeepsPinned id allowed (writeSpecJSON id' req) log s :=
  meets_writeSpecJSON (keepTerms_fair id allowed) keep_stable trivial
    (fun _ _ _ _ _ _ _ => permits_aside rfl rfl)

theorem keep_ensureRoute : KeepsPinned id allowed (ensureRoute cfg id' m targets) log s :=
  meets_ensureRoute (keepTerms_fair id allowed) keep_stable trivial
    (fun _ _ _ hnone _ => ⟨fun _ hpinned => hpinned.newRoute hnone, trivial⟩)
    (fun _ _ _ hv => ⟨fun _ hpinned => hpinned.hostnames hv, trivial⟩)

theorem keep_createFirstRevision : KeepsPinned id allowed (createFirstRevision cfg req) log s := by
  refine Meets.bind (Q := fun _ _ _ => True) (meets_createMarker (keepTerms_fair id allowed) ?_) ?_
  · exact fun _ _ hnone _ => ⟨fun _ hpinned => hpinned.newMarker hnone, trivial⟩
  intro _ _ _ _
  refine Meets.bind keep_writeSpecJSON fun _ _ _ _ => ?_
  exact Meets.bind keep_ensureRevisionObjects fun _ _ _ _ => keep_ensureRoute

theorem keep_mintNextRevision : KeepsPinned id allowed (mintNextRevision cfg req m) log s := by
  rw [mintNextRevision]
  refine Meets.bind keep_ensureRevisionObjects fun _ _ _ _ => ?_
  refine Meets.bind keep_writeSpecJSON fun _ _ _ _ => ?_
  refine Meets.bind (Q := fun _ _ _ => True)
    (meets_updateMarker (keepTerms_fair id allowed) keep_stable trivial ?_) fun _ _ _ _ => keep_ensureRoute
  exact fun _ _ _ _ hv _ => ⟨fun _ hpinned => hpinned.sameMode hv rfl, trivial⟩

theorem keep_apply : KeepsPinned id allowed (apply cfg req) log s := by
  refine meets_apply (keepTerms_fair id allowed) keep_stable trivial ?_ ?_ ?_
  · exact fun _ _ _ _ => keep_createFirstRevision
  · exact fun _ _ _ _ _ _ _ _ => Meets.bind keep_ensureRevisionObjects fun _ _ _ _ => keep_ensureRoute
  · exact fun _ _ _ _ _ _ _ _ => keep_mintNextRevision

theorem keep_writeRouteTraffic (hgateway : cfg.gatewayEnabled = true) (hne : id ≠ id') :
    KeepsPinned id allowed (writeRouteTraffic cfg id' m targets) log s :=
  meets_writeRouteTraffic (keepTerms_fair id allowed) keep_stable hgateway trivial
    (fun _ _ _ _ _ => ⟨fun _ hpinned => hpinned.putRoute_ne hne, trivial⟩)
    (fun _ _ _ _ _ _ => ⟨fun _ hpinned => hpinned.putRoute_ne hne, trivial⟩)

theorem keep_setTraffic (hgateway : cfg.gatewayEnabled = true) (hne : id ≠ id') :
    KeepsPinned id allowed (setTraffic cfg id' targets) log s :=
  meets_setTraffic (keepTerms_fair id allowed) keep_stable (fun _ => True) (fun _ => True)
    keep_stable trivial (fun _ _ _ _ => ⟨fun _ hpinned => hpinned.putMarker_ne hne, trivial⟩)
    (fun _ _ _ _ => keep_writeRouteTraffic hgateway hne)
    (fun _ _ _ _ _ => keep_writeRouteTraffic hgateway hne)
    (fun _ _ _ _ => ⟨fun _ hpinned => hpinned.putMarker_ne hne, trivial⟩)

theorem keep_retire : KeepsPinned id allowed (retire cfg id' m) log s := by
  have hfair := keepTerms_fair id allowed
  refine Meets.bind (meets_revisionNames hfair keep_stable trivial) fun _ _ _ _ => ?_
  refine Meets.bind (meets_currentTargets hfair keep_stable trivial) fun _ _ _ _ => ?_
  refine meets_forM (fun _ _ _ => True) _ (fun _ rev _ _ _ _ _ => ?_) trivial
  exact meets_deleteRevisionObjects hfair keep_stable trivial
    (fun _ _ _ _ _ _ => permits_aside rfl rfl) (fun _ _ => permits_aside rfl rfl)

/-- The reconciler cuts a deployment over only if it was listed in mode auto. -/
theorem keep_reconcileRollout (hgateway : cfg.gatewayEnabled = true)
    (h : id = id' → m.trafficMode ≠ .auto) :
    KeepsPinned id allowed (reconcileRollout cfg id' m) log s := by
  have hfair := keepTerms_fair id allowed
  rw [reconcileRollout]
  split
  · exact meets_pure trivial
  split
  · exact keep_retire
  rename_i hcuts
  have hne : id ≠ id' := fun heq => hcuts (.inl (h heq))
  refine meets_read hfair (fun _ => rfl) ?_ fun _ _ => meets_throw
  intro s₁ _
  cases hr : s₁.revisions.lookup m.latestRevision with
  | none =>
    rw [Cluster.handle, Objects.get_eq_notFound hr]
    exact meets_pure trivial
  | some r =>
    rw [Cluster.handle, Objects.get_eq_ok hr]
    dsimp only
    split
    · exact meets_pure trivial
    refine Meets.bind (keep_writeRouteTraffic hgateway hne) fun _ _ _ _ => ?_
    refine Meets.bind (Q := fun _ _ _ => True)
      (meets_updateMarker hfair keep_stable trivial ?_) fun _ _ _ _ => keep_retire
    exact fun _ _ _ _ hv _ => ⟨fun _ hpinned => hpinned.sameMode hv rfl, trivial⟩

/-- **A sweep that does not list the deployment in mode auto leaves its pinned table alone**,
    whatever becomes of the mode afterwards. -/
theorem stay_reconcileRollouts (hgateway : cfg.gatewayEnabled = true) :
    Leaves (stayTerms id .rollouts) (fun _ => True) (reconcileRollouts cfg) [] s := by
  refine meets_request (keepTerms_fair id _) ?_ fun _ _ _ => meets_pure trivial
  rintro s₁ - ⟨f, -, hlisted⟩
  refine ⟨(keepTerms_fair id _).still s₁, ?_⟩
  refine meets_forM (fun _ _ _ => True) _ ?_ trivial
  intro pre e post hsplit log' s' _
  have hmem : e ∈ s₁.markers.entries.map fun x => (x.1, x.2.value) := by
    rw [hsplit]
    simp
  obtain ⟨x, hx, rfl⟩ := List.mem_map.mp hmem
  rw [reconcileListed]
  split
  · exact meets_pure trivial
  refine Meets.bind (meets_attempt (Safe.mono (keep_reconcileRollout hgateway ?_)
    fun _ _ _ _ => trivial)) fun _ _ _ _ => meets_pure trivial
  -- the listing holds one marker of the deployment, the one that was stored then
  rintro rfl hauto
  apply hlisted rfl
  rw [Cluster.storedMode, AList.mem_lookup_iff.mpr hx, Option.map_some, hauto]

/-- Every program keeps to the contract of its task. -/
theorem stay_program (hgateway : cfg.gatewayEnabled = true) (task : Task) (s : Cluster) :
    Safe serve (stayTerms id task) (fun _ _ _ => True) (program cfg task) [] s := by
  cases task with
  | apply req => exact (safe_errorOf keep_apply).mono fun _ _ _ _ => trivial
  | rollouts => exact (safe_errorOf (stay_reconcileRollouts hgateway)).mono fun _ _ _ _ => trivial
  | setTraffic id' targets =>
    by_cases hid : id = id'
    · subst hid
      exact (safe_errorOf (stay_setTraffic hgateway)).mono fun _ _ _ _ => trivial
    · exact (safe_errorOf (keep_setTraffic hgateway hid)).mono fun _ _ _ _ => trivial
  | report rev replicas =>
    intro s' _ f _
    refine ⟨?_, trivial⟩
    by_cases hf : f = .refused
    · subst hf
      exact (keepTerms_fair id _).still s'
    rw [serve_effect hf, Cluster.handle, Cluster.setReady]
    split <;> exact fun _ hpinned => ⟨hpinned.mode, hpinned.table⟩

end

/-! ## Runs -/

/-- What `SetTraffic` on the deployment returns in. -/
def pinPost (id : String) (task : Task) (r : Option AppError) (s : Cluster) : Prop :=
  ∀ targets, task = .setTraffic id targets → r = none → s.storedMode id = some .manual →
    s.Pinned id targets

/-- The program with a number runs a `SetTraffic` on the deployment. -/
def pinning (id : String) (w : DeploymentWorld) (j : Nat) : Bool :=
  (w.running j).any fun r => r.task.pins id

/-- The sweep that makes its first call, the listing, while the deployment is in mode auto. -/
def listsAuto (id : String) (w : DeploymentWorld) : Happens Task Fate → List Nat
  | .advance j _ =>
    match w.running j with
    | some ⟨.rollouts, [], _⟩ => if w.state.storedMode id = some .auto then [j] else []
    | _ => []
  | _ => []

/-- A step, with the sweep that lists the deployment in mode auto. -/
def watchedStep (cfg : Config) (id : String) (w : DeploymentWorld) (e : Happens Task Fate) :
    DeploymentWorld × List Nat :=
  ((World.step serve (program cfg) w e).1, listsAuto id w e)

/-- No `SetTraffic` writes the route of the deployment. -/
def quiet (id : String) (w : DeploymentWorld) : Happens Task Fate → Bool
  | .advance j f =>
    match w.running j with
    | some ⟨.setTraffic _ _, _, .call k _⟩ =>
      (serve w.state k f).2.routes.lookup id = w.state.routes.lookup id
    | _ => true
  | _ => true

section

variable {cfg : Config} {id : String} {w : DeploymentWorld} {e : Happens Task Fate} {listed : List Nat}

/-! ### Until the table is pinned -/

theorem safe_pinTerms {α : Type} (p : Proc Call Reply α) (log : List Call) (s : Cluster) :
    Safe serve pinTerms (fun _ _ _ => True) p log s := by
  induction p generalizing log s with
  | done a => exact trivial
  | call k next ih => exact fun _ _ _ _ => ⟨trivial, ih _ _ _⟩

theorem pins_eq_true {task : Task} (h : task.pins id = true) :
    ∃ targets, task = .setTraffic id targets := by
  cases task with
  | setTraffic id' targets =>
    rw [Task.pins, decide_eq_true_eq] at h
    exact ⟨targets, by rw [h]⟩
  | apply req | rollouts | report rev replicas => cases h

theorem pin_obeys (hgateway : cfg.gatewayEnabled = true) (w : DeploymentWorld)
    (e : Happens Task Fate) :
    w.Obeys serve (fun _ => pinTerms) (pinPost id) (program cfg) e := by
  cases e with
  | stop i => exact trivial
  | advance i f => exact fun _ _ _ _ _ => trivial
  | start task =>
    refine ⟨?_, fun _ _ _ => ⟨fun s k f _ => serve_later s k f, fun s k f _ => serve_later s k f⟩⟩
    by_cases htask : task.pins id = true
    · obtain ⟨targets, rfl⟩ := pins_eq_true htask
      refine (safe_errorOf (pin_setTraffic hgateway)).mono ?_
      intro log r s' hr targets' heq hnone hmode
      cases heq
      exact hr hnone hmode
    · refine (safe_pinTerms _ _ _).mono ?_
      rintro log r s' - targets rfl
      exact absurd (decide_eq_true rfl) htask

/-- The world until the table is pinned.  What runs beside a `SetTraffic` on the deployment leaves
    pinned tables alone, if it is not a sweep that listed the deployment in mode auto. -/
structure Watched (cfg : Config) (id : String) (w : DeploymentWorld) (listed : List Nat) :
    Prop where
  held : World.Held serve (fun _ => pinTerms) (pinPost id) w
  numbered : w.Numbered
  calm : ∀ j r, w.running j = some r → r.task.pins id = false → j ∉ listed →
    Safe serve (stayTerms id r.task) (fun _ _ _ => True) r.proc r.log w.state

theorem init_watched (s : Cluster) : Watched cfg id (World.init s) [] where
  held := World.init_held s
  numbered _ _ h := by cases h
  calm _ _ h := by cases h

/-- The call of a program that does not become a sweep which listed the deployment in mode auto. -/
theorem call_allowed {i : Nat} {task : Task} {log : List Call} {k : Call} {next : Reply k → _}
    {f : Fate} (hrun : w.running i = some ⟨task, log, .call k next⟩) (htask : task.pins id = false)
    (hlists : i ∉ listsAuto id w (.advance i f)) : (stayTerms id task).allowed log w.state k f := by
  cases task with
  | apply req | report rev replicas => exact trivial
  | setTraffic id' targets => exact fun hid => absurd hid (of_decide_eq_false htask)
  | rollouts =>
    rintro rfl hauto
    apply hlists
    rw [listsAuto, hrun]
    simp [hauto]

theorem Watched.calm_step (h : Watched cfg id w listed) (hgateway : cfg.gatewayEnabled = true)
    {j : Nat} {r : Running Task Call Reply (Option AppError)}
    (hrun : (World.step serve (program cfg) w e).1.running j = some r) (htask : r.task.pins id = false)
    (hlisted : j ∉ listed) (hlists : j ∉ listsAuto id w e) :
    Safe serve (stayTerms id r.task) (fun _ _ _ => True) r.proc r.log
      (World.step serve (program cfg) w e).1.state := by
  cases e with
  | start task =>
    rw [World.step, World.settle_state]
    rcases World.settle_running hrun with ⟨-, rfl, -⟩ | ⟨-, hold⟩
    · exact stay_program hgateway task _
    · exact h.calm j r hold htask hlisted
  | stop i => exact h.calm j r (of_update_none hrun).2 htask hlisted
  | advance i f =>
    rcases World.advance_cases serve (program cfg) w i f with ⟨task, log, k, next, hi⟩ | hidle
    · rw [World.step_advance hi] at hrun ⊢
      rw [World.settle_state]
      rcases World.settle_running hrun with ⟨rfl, rfl, -⟩ | ⟨-, hold⟩
      · have hsafe := h.calm j _ hi htask hlisted
        exact (hsafe w.state (Later.refl _) f (call_allowed hi htask hlists)).2
      · have hsafe := h.calm j r hold htask hlisted
        obtain ⟨k', next', hproc⟩ := h.held.waiting j r hold
        rw [hproc] at hsafe ⊢
        exact hsafe.of_rely (fun _ _ _ => Later.trans) (serve_later w.state k f)
    · rw [hidle] at hrun ⊢
      exact h.calm j r hrun htask hlisted

theorem Watched.step (h : Watched cfg id w listed) (hgateway : cfg.gatewayEnabled = true)
    (e : Happens Task Fate) :
    Watched cfg id (watchedStep cfg id w e).1 (listed ++ (watchedStep cfg id w e).2) where
  held := h.held.step (fun _ => pinTerms_fair.toLawful) (pin_obeys hgateway w e)
  numbered := h.numbered.step serve (program cfg) e
  calm j r hrun htask hj := by
    rw [List.mem_append, not_or] at hj
    exact h.calm_step hgateway hrun htask hj.1 hj.2

/-! ### After the table was pinned -/

structure Staying (id : String) (targets : List Target) (w : DeploymentWorld) : Prop where
  held : World.Held serve (stayTerms id) (fun _ _ _ => True) w
  pinned : w.state.Pinned id targets

theorem stayTerms_lawful (task : Task) : (stayTerms id task).Lawful := (keepTerms_fair id _).toLawful

theorem stayTerms_compatible (task task' : Task) : Compatible serve (stayTerms id) task task' :=
  fun s k f _ => serve_later s k f

/-- What runs when the table has been pinned can live with it, if it is neither a `SetTraffic` on
    the deployment nor a sweep that listed it in mode auto. -/
theorem Watched.later (h : Watched cfg id w listed) (hfree : ∀ j, pinning id w j = false)
    (hfresh : ∀ j ∈ listed, w.running j = none) :
    World.Held serve (stayTerms id) (fun _ _ _ => True) w := by
  refine ⟨?_, h.held.waiting, fun _ _ _ _ _ _ _ => stayTerms_compatible _ _⟩
  intro j r hrun
  refine h.calm j r hrun ?_ fun hj => ?_
  · have hj := hfree j
    rwa [pinning, hrun, Option.any_some] at hj
  · rw [hfresh j hj] at hrun
    cases hrun

variable {targets : List Target}

theorem Staying.obeys (h : Staying id targets w) (hgateway : cfg.gatewayEnabled = true)
    (hquiet : quiet id w e = true) :
    w.Obeys serve (stayTerms id) (fun _ _ _ => True) (program cfg) e := by
  cases e with
  | stop i => exact trivial
  | start task =>
    exact ⟨stay_program hgateway task _,
      fun i r _ => ⟨stayTerms_compatible _ _, stayTerms_compatible _ _⟩⟩
  | advance i f =>
    intro task log k next hrun
    cases task with
    | apply req | report rev replicas => exact trivial
    | setTraffic id' table =>
      rw [quiet, hrun, decide_eq_true_eq] at hquiet
      exact fun _ => hquiet
    | rollouts =>
      -- a sweep that lists now lists mode manual
      intro _ hauto
      rw [h.pinned.mode] at hauto
      cases hauto

theorem Staying.step (h : Staying id targets w) (hgateway : cfg.gatewayEnabled = true)
    (hquiet : quiet id w e = true) :
    Staying id targets (World.step serve (program cfg) w e).1 := by
  have hobeys := h.obeys hgateway hquiet
  refine ⟨h.held.step stayTerms_lawful hobeys, ?_⟩
  rcases World.step_state serve (program cfg) w e with
    ⟨i, f, task, log, k, next, rfl, hrun, hstate⟩ | hstate
  · rw [hstate]
    exact (h.held.call stayTerms_lawful hrun hobeys).1 targets h.pinned
  · rw [hstate]
    exact h.pinned

end

/-! ### Whole runs -/

def worldAfter (cfg : Config) (s : Cluster) (events : List (Happens Task Fate)) : DeploymentWorld :=
  (run (World.step serve (program cfg)) (World.init s) events).1

/-- The sweeps that listed the deployment in mode auto. -/
def listedAuto (cfg : Config) (s : Cluster) (id : String) (events : List (Happens Task Fate)) :
    List Nat :=
  (run (watchedStep cfg id) (World.init s) events).2

/-- What can be under way when a `SetTraffic` that pins a table returns. -/
inductive Interference where
  /-- Another `SetTraffic` has changed the mode since this one wrote it. -/
  | released
  /-- Another `SetTraffic` on the deployment still runs. -/
  | overlap
  /-- A sweep that listed the deployment in mode auto still runs. -/
  | staleSweep
deriving DecidableEq, Repr

def interferes (cfg : Config) (s : Cluster) (id : String) (events : List (Happens Task Fate)) :
    Interference → Bool
  | .released => (worldAfter cfg s events).state.storedMode id ≠ some .manual
  | .overlap =>
    (List.range (worldAfter cfg s events).next).any (pinning id (worldAfter cfg s events))
  | .staleSweep =>
    (listedAuto cfg s id events).any fun j => ((worldAfter cfg s events).running j).isSome

def Call.writesRoute : Call → Bool
  | .createRoute _ _ => true
  | .updateRoute _ _ _ => true
  | _ => false

/-- With this call a `SetTraffic` writes the table into the route and returns nil; one that
    releases the deployment writes the mode last. -/
def pins (cfg : Config) (id : String) (targets : List Target) (w : DeploymentWorld) (i : Nat)
    (f : Fate) : Bool :=
  decide (⟨.setTraffic id targets, none⟩ ∈ (World.step serve (program cfg) w (.advance i f)).2) &&
    match w.running i with
    | some ⟨_, _, .call k _⟩ => k.writesRoute
    | _ => false

/-- A pinned table stays until a later `SetTraffic` writes the route, in every interleaving with
    no interference but `A` at the moment when it was pinned. -/
def StaysPinned (A : Interference → Prop) : Prop :=
  ∀ (cfg : Config) (s : Cluster) (id : String) (targets : List Target)
    (before after : List (Happens Task Fate)) (i : Nat) (f : Fate),
    cfg.gatewayEnabled = true →
    pins cfg id targets (worldAfter cfg s before) i f = true →
    (∀ t, interferes cfg s id (before ++ [.advance i f]) t = true → A t) →
    Along (fun w e => quiet id w e = true) (World.step serve (program cfg))
      (worldAfter cfg s (before ++ [.advance i f])) after →
    (worldAfter cfg s (before ++ .advance i f :: after)).state.liveTargets id = targets

section

variable {cfg : Config} {s : Cluster} {id : String} {targets : List Target}
  {before after events : List (Happens Task Fate)} {i : Nat} {f : Fate}

theorem run_watchedStep (w : DeploymentWorld) :
    (run (watchedStep cfg id) w events).1 = (run (World.step serve (program cfg)) w events).1 := by
  induction events generalizing w with
  | nil => rfl
  | cons e events ih => exact ih _

theorem watched_worldAfter (hgateway : cfg.gatewayEnabled = true) :
    Watched cfg id (worldAfter cfg s events) (listedAuto cfg s id events) := by
  have hinit : Watched cfg id (World.init s) [] := init_watched s
  have h := run_preserves (Watched cfg id) (fun _ _ e h => h.step hgateway e) events hinit
  rwa [run_watchedStep, List.nil_append] at h

theorem worldAfter_append (xs ys : List (Happens Task Fate)) :
    worldAfter cfg s (xs ++ ys) =
      (run (World.step serve (program cfg)) (worldAfter cfg s xs) ys).1 := by
  rw [worldAfter, run_append]
  rfl

theorem free_of_not_overlap (hnumbered : (worldAfter cfg s events).Numbered)
    (h : interferes cfg s id events .overlap ≠ true) (j : Nat) :
    pinning id (worldAfter cfg s events) j = false := by
  rw [interferes, Ne, List.any_eq_true] at h
  by_contra hj
  have hpinning : pinning id (worldAfter cfg s events) j = true := by simpa using hj
  obtain ⟨r, hrun⟩ := Option.isSome_iff_exists.mp (Option.isSome_of_any hpinning)
  exact h ⟨j, List.mem_range.mpr (hnumbered j r hrun), hpinning⟩

theorem fresh_of_not_staleSweep (h : interferes cfg s id events .staleSweep ≠ true) :
    ∀ j ∈ listedAuto cfg s id events, (worldAfter cfg s events).running j = none := by
  intro j hj
  rw [interferes, Ne, List.any_eq_true] at h
  by_contra hrun
  exact h ⟨j, hj, Option.isSome_iff_ne_none.mpr hrun⟩

theorem staying_of_pins (hgateway : cfg.gatewayEnabled = true)
    (hpins : pins cfg id targets (worldAfter cfg s before) i f = true)
    (hnone : ∀ t, interferes cfg s id (before ++ [.advance i f]) t ≠ true) :
    Staying id targets (worldAfter cfg s (before ++ [.advance i f])) := by
  have hwatched : Watched cfg id (worldAfter cfg s (before ++ [.advance i f])) _ :=
    watched_worldAfter hgateway
  refine ⟨hwatched.later (free_of_not_overlap hwatched.numbered (hnone .overlap))
    (fresh_of_not_staleSweep (hnone .staleSweep)), ?_⟩
  have hmanual : (worldAfter cfg s (before ++ [.advance i f])).state.storedMode id = some .manual := by
    have hmode := hnone .released
    rw [interferes] at hmode
    simpa using hmode
  rw [worldAfter_append] at hmanual ⊢
  rw [pins, Bool.and_eq_true, decide_eq_true_eq] at hpins
  exact (watched_worldAfter hgateway).held.returned (fun _ => pinTerms_fair.toLawful)
    (pin_obeys hgateway _ _)
    hpins.1 targets rfl rfl hmanual

end

/-- The program with a number makes its next calls, and all go through. -/
def advances (i n : Nat) : List (Happens Task Fate) := List.replicate n (.advance i .through)

/-- `web` has a second revision, which is ready; all traffic is still on the first. -/
def rollingOut : List (Happens Task Fate) :=
  [.start (.apply (webRequest "a"))] ++ advances 0 7 ++ [.start (.apply (webRequest "b"))] ++
    advances 1 9 ++ [.start (.report "web-00002" 1)] ++ advances 2 1

def halves : List Target := [⟨"web-00001", 50⟩, ⟨"web-00002", 50⟩]

/-- A run up to the call with which a `SetTraffic` of halves pins its table. -/
def disturbed : Interference → List (Happens Task Fate)
  | .released =>
    -- the deployment is released between the two writes
    rollingOut ++ [.start (.setTraffic "web" halves)] ++ advances 3 5 ++
      [.start (.setTraffic "web" [])] ++ advances 4 6 ++ advances 3 1
  | .overlap =>
    -- a release has written its table, and not yet the mode
    rollingOut ++ [.start (.setTraffic "web" [])] ++ advances 3 4 ++
      [.start (.setTraffic "web" halves)] ++ advances 4 6
  | .staleSweep =>
    rollingOut ++ [.start .rollouts] ++ advances 3 1 ++ [.start (.setTraffic "web" halves)] ++
      advances 4 6

/-- The number of that `SetTraffic`. -/
def pinner : Interference → Nat
  | .released => 3
  | .overlap => 4
  | .staleSweep => 4

/-- What happens afterwards: no table is written but by a sweep. -/
def aftermath : Interference → List (Happens Task Fate)
  | .released => .start .rollouts :: advances 5 4
  | .overlap => advances 3 2 ++ .start .rollouts :: advances 5 4
  | .staleSweep => advances 3 3

theorem disturbed_overwritten (t : Interference) :
    pins gatewayConfig "web" halves (worldAfter gatewayConfig emptyCluster (disturbed t)) (pinner t)
        .through = true ∧
      (∀ t', interferes gatewayConfig emptyCluster "web"
        (disturbed t ++ [.advance (pinner t) .through]) t' = true → t' = t) ∧
      Along (fun w e => quiet "web" w e = true) (World.step serve (program gatewayConfig))
        (worldAfter gatewayConfig emptyCluster (disturbed t ++ [.advance (pinner t) .through]))
        (aftermath t) ∧
      (worldAfter gatewayConfig emptyCluster
        (disturbed t ++ .advance (pinner t) .through :: aftermath t)).state.liveTargets "web" =
          [⟨"web-00002", 100⟩] := by
  cases t with
  | released | overlap | staleSweep =>
    refine ⟨by decide, ?_, by decide, by decide⟩
    intro t'
    cases t' <;> decide

/-- **A pinned table stays until a later `SetTraffic` writes the route, exactly in the
    interleavings without interference**: when `SetTraffic` returns, the mode is the one it wrote,
    no other `SetTraffic` on the deployment is under way, and no sweep that listed the deployment
    in mode auto still runs.  Each kind of interference alone can lose the table. -/
theorem pinned_table_stays (A : Interference → Prop) : StaysPinned A ↔ ∀ t, ¬ A t := by
  constructor
  · intro h t hA
    obtain ⟨hpins, honly, hquiet, htable⟩ := disturbed_overwritten t
    have hstays := h gatewayConfig emptyCluster "web" halves (disturbed t) (aftermath t) (pinner t)
      .through rfl hpins (fun t' ht' => honly t' ht' ▸ hA) hquiet
    rw [htable] at hstays
    exact absurd hstays (by decide)
  · intro hA cfg s id targets before after i f hgateway hpins hinterferes hquiet
    have hstaying := staying_of_pins hgateway hpins fun t ht => hA t (hinterferes t ht)
    have hend := run_keeps (Staying id targets) (fun w e hok h => h.step hgateway hok) hquiet
      hstaying
    rw [List.append_cons, worldAfter_append]
    exact hend.pinned.live

/-- `SetTraffic` has returned nil and no other one runs, but the table is not the one it pinned: a
    sweep listed the markers before, and cuts over after it. -/
theorem pinned_table_overwritten :
    ⟨.setTraffic "web" halves, none⟩ ∈
        (run (World.step serve (program gatewayConfig)) (World.init emptyCluster)
          (disturbed .staleSweep ++ .advance 4 .through :: aftermath .staleSweep)).2 ∧
      (worldAfter gatewayConfig emptyCluster (disturbed .staleSweep ++
        .advance 4 .through :: aftermath .staleSweep)).state.storedMode "web" = some .manual ∧
      (worldAfter gatewayConfig emptyCluster (disturbed .staleSweep ++
        .advance 4 .through :: aftermath .staleSweep)).state.liveTargets "web" =
          [⟨"web-00002", 100⟩] := by
  decide

end Orchestrator.Deployment

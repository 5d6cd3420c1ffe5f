/-
  Orchestrator.Deployment.Kubernetes.Rules

  One rule for each helper of the Kubernetes backend: what it does to the cluster, whatever
  the other callers do between its API calls.

  A rule has a condition `K` that the others keep (`Stable`) and asks, for each write the
  helper may make, for the guarantee and for what holds after the write.  Writes of
  markers and routes go by version, so the object that is replaced is the one that was
  read: the obligations speak of the stored object.
-/

import Orchestrator.Deployment.Kubernetes.Backend

namespace Orchestrator.Deployment

open Lib Lib.Proc Objects Cluster

/-! ## Writes -/

def Cluster.putMarker (s : Cluster) (id : String) (v : Versioned Marker) : Cluster :=
  { s with markers := s.markers.insert id v }

def Cluster.putSecret (s : Cluster) (id : String) (spec : Request) : Cluster :=
  { s with secrets := s.secrets.insert id spec }

def Cluster.putRevision (s : Cluster) (rev : String) (r : Revision) : Cluster :=
  { s with revisions := s.revisions.insert rev r }

def Cluster.dropRevision (s : Cluster) (rev : String) : Cluster :=
  { s with revisions := s.revisions.erase rev }

def Cluster.putService (s : Cluster) (rev id : String) : Cluster :=
  { s with services := s.services.insert rev id }

def Cluster.dropService (s : Cluster) (rev : String) : Cluster :=
  { s with services := s.services.erase rev }

def Cluster.putRoute (s : Cluster) (id : String) (v : Versioned HTTPRoute) : Cluster :=
  { s with routes := s.routes.insert id v }

def Cluster.liveTargets (s : Cluster) (id : String) : List Target :=
  match s.routes.lookup id with
  | some v => routeTargets v.value
  | none => []

/-! ## What the other callers may do -/

/-- Markers and routes stay, and with their versions their contents. -/
structure Later (s s' : Cluster) : Prop where
  markers : Objects.Newer s.markers s'.markers
  routes : Objects.Newer s.routes s'.routes

theorem Later.refl (s : Cluster) : Later s s :=
  ⟨Objects.Newer.refl _, Objects.Newer.refl _⟩

theorem Later.trans {s s' s'' : Cluster} (h : Later s s') (h' : Later s' s'') : Later s s'' :=
  ⟨h.markers.trans h'.markers, h.routes.trans h'.routes⟩

theorem handle_later (s : Cluster) (k : Call) : Later s (s.handle k).2 := by
  cases k with
  | createMarker id m => exact ⟨newer_create _ _ _, Objects.Newer.refl _⟩
  | updateMarker id version m => exact ⟨newer_update _ _ _ _, Objects.Newer.refl _⟩
  | createRoute id route => exact ⟨Objects.Newer.refl _, newer_create _ _ _⟩
  | updateRoute id version route => exact ⟨Objects.Newer.refl _, newer_update _ _ _ _⟩
  | reportReady rev replicas =>
    rw [handle, setReady]
    split <;> exact ⟨Objects.Newer.refl _, Objects.Newer.refl _⟩
  | _ => exact ⟨Objects.Newer.refl _, Objects.Newer.refl _⟩

theorem serve_later (s : Cluster) (k : Call) (f : Fate) : Later s (serve s k f).2 := by
  cases f with
  | through | lost => exact handle_later s k
  | refused => exact Later.refl s

abbrev Terms := Contract Cluster Call Fate

/-- A program that leaves the cluster in `K` when it returns a value. -/
abbrev Leaves {α : Type} (C : Terms) (K : Cluster → Prop) (prog : Api α) (log : List Call)
    (s : Cluster) : Prop :=
  Meets serve C (fun _ _ s' => K s') prog log s

/-- The others write as the server lets them, and a call without effect is within the
    guarantee. -/
structure Fair (C : Terms) : Prop extends C.Lawful where
  later : ∀ s s', C.rely s s' → Later s s'
  still : ∀ s, C.guar s s

/-- The others keep a condition. -/
def Stable (C : Terms) (K : Cluster → Prop) : Prop := ∀ s s', C.rely s s' → K s → K s'

theorem Stable.and {C : Terms} {K K' : Cluster → Prop} (hK : Stable C K) (hK' : Stable C K') :
    Stable C fun s => K s ∧ K' s :=
  fun s s' h hs => ⟨hK s s' h hs.1, hK' s s' h hs.2⟩

/-- A write within the guarantee, and what holds after it. -/
structure Permits (C : Terms) (K : Cluster → Prop) (s s' : Cluster) : Prop where
  guar : C.guar s s'
  keeps : K s'

theorem Permits.pure {C : Terms} {K : Cluster → Prop} {s s' : Cluster} {log : List Call}
    (h : Permits C K s s') : C.guar s s' ∧ Leaves C K (Pure.pure ()) log s' :=
  ⟨h.guar, meets_pure h.keeps⟩

def Lets (C : Terms) (log : List Call) (s : Cluster) (k : Call) : Prop :=
  ∃ f, f ≠ .refused ∧ C.allowed log s k f

theorem serve_effect {f : Fate} (hf : f ≠ .refused) (s : Cluster) (k : Call) :
    (serve s k f).2 = (s.handle k).2 := by
  cases f with
  | through | lost => rfl
  | refused => exact absurd rfl hf

/-! ## Rules -/

/-- The names of one listing of Revisions and one of Services. -/
def namesFrom (revisions services : List String) : List String :=
  newestFirst (newestFirst revisions ++ services.filter fun rev => rev ≠ "" ∧ rev ∉ revisions)

section

variable {C : Terms} (hC : Fair C) {K K' : Cluster → Prop} (hK : Stable C K) {cfg : Config}
  {id rev : String} {m : Marker} {req : Request} {targets : List Target} {log : List Call}
  {s : Cluster}
include hC

theorem meets_request {α : Type} {k : Call} {g : Reply k → Api α}
    {Q : List Call → α → Cluster → Prop}
    (hgo : ∀ s', C.rely s s' → Lets C log s' k → C.guar s' (s'.handle k).2 ∧
      Meets serve C Q (g (s'.handle k).1) (log ++ [k]) (s'.handle k).2)
    (hfail : ∀ s' f, C.rely s s' →
      Meets serve C Q (g (.error .failed)) (log ++ [k]) (serve s' k f).2) :
    Meets serve C Q (request k >>= g) log s := by
  refine Meets.bind (meets_ask (Q := fun log' r s' =>
    log' = log ++ [k] ∧ Meets serve C Q (g r) log' s') ?_) ?_
  · intro s' hrely f hallowed
    by_cases hf : f = .refused
    · subst hf
      exact ⟨hC.still s', rfl, hfail s' .refused hrely⟩
    obtain ⟨hguar, hnext⟩ := hgo s' hrely ⟨f, hf, hallowed⟩
    rw [serve_effect hf]
    refine ⟨hguar, rfl, ?_⟩
    cases f with
    | through => exact hnext
    | refused => exact absurd rfl hf
    | lost => exact hfail s' .lost hrely
  · rintro log' r s' ⟨rfl, hr⟩
    exact hr

theorem meets_read {α : Type} {k : Call} {g : Reply k → Api α}
    {Q : List Call → α → Cluster → Prop} (hread : ∀ s : Cluster, (s.handle k).2 = s)
    (hgo : ∀ s', C.rely s s' → Meets serve C Q (g (s'.handle k).1) (log ++ [k]) s')
    (hfail : ∀ s', C.rely s s' → Meets serve C Q (g (.error .failed)) (log ++ [k]) s') :
    Meets serve C Q (request k >>= g) log s := by
  refine meets_request hC ?_ ?_
  · intro s' hrely _
    rw [hread]
    exact ⟨hC.still s', hgo s' hrely⟩
  · intro s' f hrely
    have hsame : (serve s' k f).2 = s' := by
      cases f with
      | through | lost => exact hread s'
      | refused => rfl
    rw [hsame]
    exact hfail s' hrely

/-! ### Markers and specs -/

theorem meets_getMarker {Q : List Call → Marker → Cluster → Prop}
    (h : ∀ s' v, C.rely s s' → s'.markers.lookup id = some v →
      Q (log ++ [.getMarker id]) v.value s') :
    Meets serve C Q (getMarker id) log s := by
  refine meets_read hC (fun _ => rfl) ?_ fun _ _ => meets_throw
  intro s' hrely
  cases hv : s'.markers.lookup id with
  | some v =>
    rw [handle, get_eq_ok hv]
    exact meets_pure (h s' v hrely hv)
  | none =>
    rw [handle, get_eq_notFound hv]
    exact meets_throw

/-- The marker as `Apply` reads it: a missing one is told from an error. -/
theorem meets_attempt_getMarker {Q : List Call → Except AppError Marker → Cluster → Prop}
    (hsome : ∀ s' v, C.rely s s' → s'.markers.lookup id = some v →
      Q (log ++ [.getMarker id]) (.ok v.value) s')
    (hnone : ∀ s', C.rely s s' → s'.markers.lookup id = none →
      Q (log ++ [.getMarker id]) (.error (.notFound "deployment" id)) s')
    (herr : ∀ s' e, C.rely s s' →
      Q (log ++ [.getMarker id]) (.error (.internal "kubernetes.getMarker" e)) s') :
    Meets serve C Q (attempt (getMarker id)) log s := by
  apply meets_attempt
  intro s' hrely f _
  cases f with
  | refused | lost => exact ⟨hC.still s', herr s' .failed hrely⟩
  | through =>
    refine ⟨hC.still s', ?_⟩
    cases hv : s'.markers.lookup id with
    | some v =>
      rw [serve, handle, get_eq_ok hv]
      exact hsome s' v hrely hv
    | none =>
      rw [serve, handle, get_eq_notFound hv]
      exact hnone s' hrely hv

theorem meets_createMarker {Q : List Call → Unit → Cluster → Prop}
    (h : ∀ s', C.rely s s' → s'.markers.lookup id = none →
      Lets C log s' (.createMarker id m) →
        Permits C (Q (log ++ [.createMarker id m]) ()) s' (s'.putMarker id ⟨0, m⟩)) :
    Meets serve C Q (createMarker id m) log s := by
  refine meets_request hC ?_ fun _ _ _ => meets_throw
  intro s' hrely hlets
  cases hv : s'.markers.lookup id with
  | none =>
    rw [handle, create_of_none hv]
    obtain ⟨hguar, hq⟩ := h s' hrely hv hlets
    exact ⟨hguar, meets_pure hq⟩
  | some v =>
    rw [handle, create_of_some hv]
    exact ⟨hC.still s', meets_throw⟩

theorem meets_getSpecJSON {Q : List Call → Option Request → Cluster → Prop}
    (h : ∀ s', C.rely s s' → Q (log ++ [.getSecret id]) (s'.secrets.lookup id) s') :
    Meets serve C Q (getSpecJSON id) log s := by
  refine meets_read hC (fun _ => rfl) ?_ fun _ _ => meets_throw
  intro s' hrely
  have hq := h s' hrely
  rw [handle]
  cases hv : s'.secrets.lookup id with
  | some spec =>
    rw [get_eq_ok hv]
    rw [hv] at hq
    exact meets_pure hq
  | none =>
    rw [get_eq_notFound hv]
    rw [hv] at hq
    exact meets_pure hq

include hK

/-- `updateMarker` replaces the stored marker by its own change of it. -/
theorem meets_updateMarker {mutate : Marker → Marker} (hs : K s)
    (h : ∀ s' v log', K s' → s'.markers.lookup id = some v →
      Lets C log' s' (.updateMarker id v.version (mutate v.value)) →
        Permits C K' s' (s'.putMarker id ⟨v.version + 1, mutate v.value⟩)) :
    Leaves C K' (updateMarker id mutate) log s := by
  refine meets_read hC (fun _ => rfl) ?_ fun _ _ => meets_throw
  intro s₁ hrely₁
  cases hv : s₁.markers.lookup id with
  | none =>
    rw [handle, get_eq_notFound hv]
    exact meets_throw
  | some v =>
    rw [handle, get_eq_ok hv]
    refine meets_request hC ?_ fun _ _ _ => meets_throw
    intro s₂ hrely₂ hlets
    have hk := hK s₁ s₂ hrely₂ (hK s s₁ hrely₁ hs)
    -- the version that was read tells whether the marker is still the one that was read
    rcases (hC.later s₁ s₂ hrely₂).markers.update_cases hv (mutate v.value) with
      ⟨hsame, hput⟩ | ⟨e, hput⟩
    · rw [handle, hput]
      exact (h s₂ v _ hk hsame hlets).pure
    · rw [handle, hput]
      exact ⟨hC.still s₂, meets_throw⟩

/-- `writeSpecJSON` leaves the spec in the Secret, whatever was there. -/
theorem meets_writeSpecJSON (hs : K s)
    (h : ∀ s' k log', log <+: log' → K s' →
      k = .createSecret id req ∨ k = .updateSecret id req → Lets C log' s' k →
        Permits C K' s' (s'.putSecret id req)) :
    Leaves C K' (writeSpecJSON id req) log s := by
  refine meets_request hC ?_ fun _ _ _ => meets_throw
  intro s₁ hrely₁ hlets
  have hk₁ := hK s s₁ hrely₁ hs
  cases hv : s₁.secrets.lookup id with
  | none =>
    rw [handle, create_of_none hv]
    exact (h s₁ _ log (List.prefix_refl log) hk₁ (.inl rfl) hlets).pure
  | some old =>
    rw [handle, create_of_some hv]
    refine ⟨hC.still s₁, ?_⟩
    refine meets_request hC ?_ fun _ _ _ => meets_throw
    intro s₂ hrely₂ hlets'
    cases hv' : s₂.secrets.lookup id with
    | none =>
      rw [handle, replace_of_none hv']
      exact ⟨hC.still s₂, meets_throw⟩
    | some old' =>
      rw [handle, replace_of_some hv']
      exact (h s₂ _ _ (List.prefix_append _ _) (hK s₁ s₂ hrely₂ hk₁) (.inr rfl) hlets').pure

/-! ### The objects of a revision -/

theorem meets_checkTarget {t : Target} (hs : K s) :
    Leaves C K (checkTarget t) log s := by
  refine meets_read hC (fun _ => rfl) ?_ fun _ _ => meets_throw
  intro s' hrely
  cases hv : s'.revisions.lookup t.revisionName with
  | some r =>
    rw [handle, get_eq_ok hv]
    exact meets_pure (hK s s' hrely hs)
  | none =>
    rw [handle, get_eq_notFound hv]
    exact meets_throw

theorem meets_ensurePDB (hs : K s) :
    Leaves C K (ensurePDB req rev) log s := by
  rw [ensurePDB]
  split
  · refine meets_read hC (fun _ => rfl) ?_ fun _ _ => meets_throw
    intro s' hrely
    exact meets_pure (hK s s' hrely hs)
  · exact meets_pure hs

theorem meets_ensureService (hs : K s)
    (hnew : ∀ s', K s' → Permits C K s' (s'.putService rev id)) :
    Leaves C K (ensureService id rev) log s := by
  refine meets_request hC ?_ fun _ _ _ => meets_throw
  intro s' hrely _
  have hk := hK s s' hrely hs
  cases hv : s'.services.lookup rev with
  | none =>
    rw [handle, create_of_none hv]
    exact (hnew s' hk).pure
  | some label =>
    rw [handle, create_of_some hv]
    exact ⟨hC.still s', meets_pure hk⟩

section

variable (hK' : Stable C K') (hs : K s)
  (hnew : ∀ s', K s' → s'.revisions.lookup rev = none →
    Lets C log s' (.createRevision rev req) →
      Permits C K' s' (s'.putRevision rev ⟨req.id, req, 0⟩))
  (hold : ∀ s' r, K s' → s'.revisions.lookup rev = some r →
    Lets C log s' (.createRevision rev req) → K' s')
include hK' hs hnew hold

/-- After `ensureRevision` there is a Revision, built from the request or there before. -/
theorem meets_ensureRevision :
    Leaves C K' (ensureRevision req rev) log s := by
  refine meets_request hC ?_ fun _ _ _ => meets_throw
  intro s₁ hrely₁ hlets
  have hk₁ := hK s s₁ hrely₁ hs
  cases hv : s₁.revisions.lookup rev with
  | none =>
    rw [handle, create_of_none hv]
    exact (hnew s₁ hk₁ hv hlets).pure
  | some r =>
    rw [handle, create_of_some hv]
    have hk' := hold s₁ r hk₁ hv hlets
    refine ⟨hC.still s₁, ?_⟩
    refine meets_read hC (fun _ => rfl) ?_ fun _ _ => meets_throw
    intro s₂ hrely₂
    cases hv' : s₂.revisions.lookup rev with
    | none =>
      rw [handle, get_eq_notFound hv']
      exact meets_throw
    | some r' =>
      rw [handle, get_eq_ok hv']
      exact meets_pure (hK' s₁ s₂ hrely₂ hk')

theorem meets_ensureRevisionObjects
    (hservice : ∀ s', K' s' → Permits C K' s' (s'.putService rev req.id)) :
    Leaves C K' (ensureRevisionObjects req rev) log s := by
  refine Meets.bind (meets_ensureRevision hC hK hK' hs hnew hold) ?_
  intro log' _ s' hs'
  refine Meets.bind (meets_ensurePDB hC hK' hs') ?_
  intro log' _ s' hs'
  exact meets_ensureService hC hK' hs' hservice

end

/-! ### Routes -/

/-- A route that has been read is replaced, unless another version is stored by then. -/
theorem meets_updateRoute {v : Versioned HTTPRoute} {route : HTTPRoute}
    {g : Reply (.updateRoute id v.version route) → Api Unit} (hok : g (.ok ()) = pure ())
    (herr : ∀ e, ∃ e', g (.error e) = throw e') (hs : K s) (hv : s.routes.lookup id = some v)
    (h : ∀ s', K s' → s'.routes.lookup id = some v →
      Lets C log s' (.updateRoute id v.version route) →
        Permits C K' s' (s'.putRoute id ⟨v.version + 1, route⟩)) :
    Leaves C K' (request (.updateRoute id v.version route) >>= g) log s := by
  have hthrow : ∀ e log s, Leaves C K' (g (.error e)) log s := by
    intro e log s
    obtain ⟨e', he'⟩ := herr e
    rw [he']
    exact meets_throw
  refine meets_request hC ?_ fun _ _ _ => hthrow _ _ _
  intro s' hrely hlets
  rcases (hC.later s s' hrely).routes.update_cases hv route with ⟨hsame, hput⟩ | ⟨e, hput⟩
  · rw [handle, hput, hok]
    exact (h s' (hK s s' hrely hs) hsame hlets).pure
  · rw [handle, hput]
    exact ⟨hC.still s', hthrow _ _ _⟩

/-- `ensureRoute` makes a missing route, and of one that exists it changes the hostnames. -/
theorem meets_ensureRoute (hs : K s)
    (hnew : ∀ s' log', K s' → s'.routes.lookup id = none →
      Lets C log' s' (.createRoute id (buildHTTPRoute cfg m targets)) →
        Permits C K s' (s'.putRoute id ⟨0, buildHTTPRoute cfg m targets⟩))
    (hhosts : ∀ s' v, K s' → s'.routes.lookup id = some v →
      Permits C K s' (s'.putRoute id ⟨v.version + 1, { v.value with hostnames := m.hosts }⟩)) :
    Leaves C K (ensureRoute cfg id m targets) log s := by
  rw [ensureRoute]
  split
  · refine meets_read hC (fun _ => rfl) ?_ fun _ _ => meets_throw
    intro s₁ hrely₁
    have hk₁ := hK s s₁ hrely₁ hs
    cases hv : s₁.routes.lookup id with
    | none =>
      rw [handle, get_eq_notFound hv]
      refine meets_request hC ?_ fun _ _ _ => meets_throw
      intro s₂ hrely₂ hlets
      have hk₂ := hK s₁ s₂ hrely₂ hk₁
      cases hv' : s₂.routes.lookup id with
      | none =>
        rw [handle, create_of_none hv']
        exact (hnew s₂ _ hk₂ hv' hlets).pure
      | some v =>
        rw [handle, create_of_some hv']
        exact ⟨hC.still s₂, meets_pure hk₂⟩
    | some v =>
      rw [handle, get_eq_ok hv]
      simp only
      split
      · exact meets_pure hk₁
      · exact meets_updateRoute hC hK rfl (fun _ => ⟨_, rfl⟩) hk₁ hv
          fun s₂ hk₂ hsame _ => hhosts s₂ v hk₂ hsame
  · exact meets_pure hs

/-- `writeRouteTraffic` makes a missing route, and of one that exists it replaces the rules. -/
theorem meets_writeRouteTraffic (hgateway : cfg.gatewayEnabled = true) (hs : K s)
    (hnew : ∀ s' log', K s' → s'.routes.lookup id = none →
      Lets C log' s' (.createRoute id (buildHTTPRoute cfg m targets)) →
        Permits C K' s' (s'.putRoute id ⟨0, buildHTTPRoute cfg m targets⟩))
    (hrules : ∀ s' v log', K s' → s'.routes.lookup id = some v →
      Lets C log' s' (.updateRoute id v.version
        { v.value with rules := buildRouteRules cfg targets }) →
        Permits C K' s' (s'.putRoute id ⟨v.version + 1,
          { v.value with rules := buildRouteRules cfg targets }⟩)) :
    Leaves C K' (writeRouteTraffic cfg id m targets) log s := by
  rw [writeRouteTraffic, if_pos hgateway]
  refine meets_read hC (fun _ => rfl) ?_ fun _ _ => meets_throw
  intro s₁ hrely₁
  have hk₁ := hK s s₁ hrely₁ hs
  cases hv : s₁.routes.lookup id with
  | none =>
    rw [handle, get_eq_notFound hv]
    refine meets_request hC ?_ fun _ _ _ => meets_throw
    intro s₂ hrely₂ hlets
    cases hv' : s₂.routes.lookup id with
    | none =>
      rw [handle, create_of_none hv']
      exact (hnew s₂ _ (hK s₁ s₂ hrely₂ hk₁) hv' hlets).pure
    | some v =>
      rw [handle, create_of_some hv']
      exact ⟨hC.still s₂, meets_throw⟩
  | some v =>
    rw [handle, get_eq_ok hv]
    exact meets_updateRoute hC hK rfl (fun _ => ⟨_, rfl⟩) hk₁ hv fun s₂ => hrules s₂ v _

omit hC hK in
/-- A table that stands for mode manual is the one that was given. -/
theorem given_of_manual
    (h : modeOf m (if targets = [] then [⟨m.latestRevision, 100⟩] else targets) = .manual) :
    (if targets = [] then [⟨m.latestRevision, 100⟩] else targets) = targets := by
  split at h
  · rw [modeOf, if_pos rfl] at h
    cases h
  · rename_i hne
    exact if_neg hne

/-- `SetTraffic` stores mode manual before the table, and mode auto after it. -/
theorem meets_setTraffic (K₁ K₂ : Cluster → Prop) (hK₂ : Stable C K₂) (hs : K s)
    (hmanual : ∀ s' v, K s' → s'.markers.lookup id = some v →
      Permits C K₁ s' (s'.putMarker id ⟨v.version + 1, { v.value with trafficMode := .manual }⟩))
    (htable : ∀ m log' s', K₁ s' → Leaves C K' (writeRouteTraffic cfg id m targets) log' s')
    (hfirst : ∀ m table log' s', K s' → Leaves C K₂ (writeRouteTraffic cfg id m table) log' s')
    (hauto : ∀ s' v, K₂ s' → s'.markers.lookup id = some v →
      Permits C K' s' (s'.putMarker id ⟨v.version + 1, { v.value with trafficMode := .auto }⟩)) :
    Leaves C K' (setTraffic cfg id targets) log s := by
  refine Meets.bind (Q := fun _ _ s' => K s') (meets_getMarker hC ?_) ?_
  · intro s' v hrely _
    exact hK s s' hrely hs
  intro log₁ m s₁ hs₁
  refine Meets.bind (meets_forM (fun _ _ s' => K s') _ ?_ hs₁) ?_
  · intro _ t _ _ log' s' hk
    exact meets_checkTarget hC hK hk
  intro log₂ _ s₂ hs₂
  split
  · rename_i hmode
    rw [given_of_manual hmode]
    refine Meets.bind (meets_updateMarker hC hK hs₂ fun s' v _ hk hv _ => hmanual s' v hk hv) ?_
    intro log₃ _ s₃ hs₃
    exact htable m log₃ s₃ hs₃
  · refine Meets.bind (hfirst m _ log₂ s₂ hs₂) ?_
    intro log₃ _ s₃ hs₃
    exact meets_updateMarker hC hK₂ hs₃ fun s' v _ hk hv _ => hauto s' v hk hv

/-! ### Apply -/

theorem meets_checkRuntimeClass {tier : String} (hs : K s) :
    Leaves C K (checkRuntimeClass cfg tier) log s := by
  rw [checkRuntimeClass]
  split
  · exact meets_pure hs
  refine meets_read hC (fun _ => rfl) ?_ fun _ _ => meets_throw
  intro s' hrely
  split
  · exact meets_pure (hK s s' hrely hs)
  · exact meets_throw
  · exact meets_throw

/-- `Apply` takes one of three ways, after what it read of the marker and the spec. -/
theorem meets_apply (hs : K s)
    (hfirst : ∀ log' s', K s' → s'.markers.lookup req.id = none →
      Leaves C K' (createFirstRevision cfg req) log' s')
    (hidentical : ∀ log' s₁ s₂ v, K s₁ → C.rely s₁ s₂ → s₁.markers.lookup req.id = some v →
      s₂.secrets.lookup req.id = some req →
        Leaves C K' (ensureHead cfg req v.value) log' s₂)
    (hmint : ∀ log' s₁ s₂ v, K s₁ → C.rely s₁ s₂ → s₁.markers.lookup req.id = some v →
      s₂.secrets.lookup req.id ≠ some req →
        Leaves C K' (mintNextRevision cfg req v.value) log' s₂) :
    Leaves C K' (apply cfg req) log s := by
  refine Meets.bind (meets_checkRuntimeClass hC hK hs) ?_
  intro log₁ _ s₁ hs₁
  refine Meets.bind (Q := fun _ r s' => K s' ∧
    ((∃ v, s'.markers.lookup req.id = some v ∧ r = .ok v.value) ∨
      (s'.markers.lookup req.id = none ∧ r = .error (.notFound "deployment" req.id)) ∨
        ∃ e, r = .error (.internal "kubernetes.getMarker" e)))
    (meets_attempt_getMarker hC ?_ ?_ ?_) ?_
  · intro s' v hrely hv
    exact ⟨hK s₁ s' hrely hs₁, .inl ⟨v, hv, rfl⟩⟩
  · intro s' hrely hv
    exact ⟨hK s₁ s' hrely hs₁, .inr (.inl ⟨hv, rfl⟩)⟩
  · intro s' e hrely
    exact ⟨hK s₁ s' hrely hs₁, .inr (.inr ⟨e, rfl⟩)⟩
  rintro log₂ r s₂ ⟨hs₂, ⟨v, hv, rfl⟩ | ⟨hv, rfl⟩ | ⟨e, rfl⟩⟩
  · refine Meets.bind (Q := fun _ _ s' => K' s') ?_ (fun _ _ _ hk' => meets_pure hk')
    refine Meets.bind (Q := fun _ stored s' => C.rely s₂ s' ∧ stored = s'.secrets.lookup req.id)
      (meets_getSpecJSON hC (fun s' hrely => ⟨hrely, rfl⟩)) ?_
    rintro log₃ stored s₃ ⟨hrely, rfl⟩
    split
    · rename_i hspec
      exact hidentical log₃ s₂ s₃ v hs₂ hrely hv hspec
    · rename_i hspec
      exact hmint log₃ s₂ s₃ v hs₂ hrely hv hspec
  · exact Meets.bind (hfirst log₂ s₂ hs₂ hv) (fun _ _ _ hk' => meets_pure hk')
  · exact meets_throw

/-! ### Garbage collection -/

/-- `currentTargets` gives the table of the route, or the one the marker implies. -/
theorem meets_currentTargets (hs : K s) :
    Meets serve C (fun _ targets s' => K s' ∧ (targets = fallbackTargets m ∨
        ∃ s₁ v, C.rely s s₁ ∧ C.rely s₁ s' ∧ cfg.gatewayEnabled = true ∧
          s₁.routes.lookup id = some v ∧ routeTargets v.value ≠ [] ∧
            targets = routeTargets v.value))
      (currentTargets cfg id m) log s := by
  rw [currentTargets]
  split
  · rename_i hgateway
    refine meets_read hC (fun _ => rfl) ?_ ?_
    · intro s₁ hrely₁
      have hk₁ := hK s s₁ hrely₁ hs
      cases hv : s₁.routes.lookup id with
      | none =>
        rw [handle, get_eq_notFound hv]
        exact meets_pure ⟨hk₁, .inl rfl⟩
      | some v =>
        rw [handle, get_eq_ok hv]
        simp only
        split
        · rename_i hsome
          exact meets_pure ⟨hk₁,
            .inr ⟨s₁, v, hrely₁, hC.refl s₁, hgateway, hv, hsome, rfl⟩⟩
        · exact meets_pure ⟨hk₁, .inl rfl⟩
    · intro s₁ hrely₁
      exact meets_pure ⟨hK s s₁ hrely₁ hs, .inl rfl⟩
  · exact meets_pure ⟨hs, .inl rfl⟩

theorem meets_revisionNames (hs : K s) :
    Meets serve C (fun _ names s' => K s' ∧ ∃ s₁, C.rely s s₁ ∧ C.rely s₁ s' ∧
        names = namesFrom (namesOf s₁.revisions fun r => r.deployment = id)
          (namesOf s'.services fun label => label = id))
      (revisionNames id) log s := by
  refine meets_read hC (fun _ => rfl) ?_ fun _ _ => meets_throw
  intro s₁ hrely₁
  refine meets_read hC (fun _ => rfl) ?_ fun _ _ => meets_throw
  intro s₂ hrely₂
  exact meets_pure ⟨hK s₁ s₂ hrely₂ (hK s s₁ hrely₁ hs), s₁, hrely₁, hrely₂, rfl⟩

theorem meets_deleteObject {k : Call} {op : String} (hs : K s)
    (h : ∀ s', K s' → Lets C log s' k → Permits C K s' (s'.handle k).2) :
    Leaves C K (deleteObject op k) log s := by
  refine meets_request hC ?_ fun _ _ _ => meets_throw
  intro s' hrely hlets
  obtain ⟨hguar, hk'⟩ := h s' (hK s s' hrely hs) hlets
  refine ⟨hguar, ?_⟩
  split
  · exact meets_pure hk'
  · exact meets_pure hk'
  · exact meets_throw

theorem meets_deleteRevisionPods (hs : K s) :
    Leaves C K (deleteRevisionPods rev) log s := by
  refine meets_read hC (fun _ => rfl) ?_ fun _ _ => meets_throw
  intro s' hrely
  exact meets_pure (hK s s' hrely hs)

theorem meets_deleteRevisionObjects (hs : K s)
    (hrev : ∀ s' log' r, K s' → s'.revisions.lookup rev = some r →
      Lets C log' s' (.deleteRevision rev) → Permits C K s' (s'.dropRevision rev))
    (hservice : ∀ s', K s' → Permits C K s' (s'.dropService rev)) :
    Leaves C K (deleteRevisionObjects rev) log s := by
  refine Meets.bind (meets_deleteObject hC hK hs ?_) ?_
  · intro s' hk hlets
    cases hv : s'.revisions.lookup rev with
    | some r =>
      rw [handle, delete_of_some hv]
      exact hrev s' log r hk hv hlets
    | none =>
      rw [handle, delete_of_none hv]
      exact ⟨hC.still s', hk⟩
  intro log' _ s' hs'
  refine Meets.bind (meets_deleteRevisionPods hC hK hs') ?_
  intro log' _ s' hs'
  refine Meets.bind (meets_deleteObject hC hK hs' ?_) ?_
  · intro s' hk _
    exact ⟨hC.still s', hk⟩
  intro log' _ s' hs'
  refine meets_deleteObject hC hK hs' ?_
  intro s' hk _
  cases hv : s'.services.lookup rev with
  | some label =>
    rw [handle, delete_of_some hv]
    exact hservice s' hk
  | none =>
    rw [handle, delete_of_none hv]
    exact ⟨hC.still s', hk⟩

end

/-! ## Programs that run -/

abbrev DeploymentWorld := World Cluster Task Call Reply (Option AppError)

/-- A program for its error alone returns no error when the program returns a value. -/
theorem safe_errorOf {α : Type} {C : Terms} {m : Api α} {K : Cluster → Prop} {log : List Call}
    {s : Cluster} (h : Leaves C K m log s) :
    Safe serve C (fun _ r s' => r = none → K s') (errorOf m) log s := by
  refine Safe.bind h ?_
  intro log' r s' hr hnone
  cases r with
  | ok a => exact hr a rfl
  | error e => cases hnone

end Orchestrator.Deployment

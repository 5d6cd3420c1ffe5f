/-
  Orchestrator.Deployment.Kubernetes.Apply

  `Apply` calls one after another, with any API call failing: when one returns nil, the head
  of the deployment is the request exactly when the Revision under the name it ensures was
  missing or built from the request.
-/

import Orchestrator.Deployment.Kubernetes.Rules

namespace Orchestrator.Deployment

open Lib Lib.Proc Lib.Machine

/-! ## One call alone -/

def alone : Terms where
  rely := Eq
  allowed _ _ _ _ := True
  guar _ _ := True

theorem alone_fair : Fair alone where
  refl _ := rfl
  trans _ _ _ := Eq.trans
  later s _ h := h ▸ Later.refl s
  still _ := trivial

theorem alone_stable (K : Cluster → Prop) : Stable alone K := fun _ _ h hk => h ▸ hk

def ensuredRevision (s : Cluster) (req : Request) : String :=
  match s.markers.lookup req.id with
  | none => revisionName req.id 1
  | some v =>
    if s.secrets.lookup req.id = some req then v.value.latestRevision
    else revisionName req.id (revisionNumber v.value.latestRevision + 1)

/-- The marker names the revision as the latest. -/
def Cluster.HasLatest (s : Cluster) (id rev : String) : Prop :=
  ∃ v, s.markers.lookup id = some v ∧ v.value.latestRevision = rev

/-- A Revision built from the request, or the one that was there before. -/
def Cluster.Ensured (s₀ : Cluster) (req : Request) (rev : String) (s : Cluster) : Prop :=
  s.revisions.lookup rev = some ((s₀.revisions.lookup rev).getD ⟨req.id, req, 0⟩)

structure Left (s₀ : Cluster) (req : Request) (s : Cluster) : Prop where
  latest : s.HasLatest req.id (ensuredRevision s₀ req)
  spec : s.secrets.lookup req.id = some req
  revision : s₀.Ensured req (ensuredRevision s₀ req) s

section

variable {cfg : Config} {req : Request} {m : Marker} {rev : String} {targets : List Target}
  {log : List Call} {s₀ s : Cluster}

theorem alone_ensureRoute {K : Cluster → Prop} (hK : ∀ s id v, K s → K (s.putRoute id v))
    (hs : K s) :
    Leaves alone K (ensureRoute cfg req.id m targets) log s :=
  meets_ensureRoute alone_fair (alone_stable K) hs
    (fun s' _ hk _ _ => ⟨trivial, hK s' _ _ hk⟩) (fun s' _ hk _ => ⟨trivial, hK s' _ _ hk⟩)

/-- The Revision is ensured on top of what does not depend on Revisions and Services. -/
theorem alone_ensureRevisionObjects {K : Cluster → Prop}
    (hrevisions : ∀ s r, K s → K (s.putRevision rev r))
    (hservices : ∀ s id, K s → K (s.putService rev id)) (hs : K s)
    (hsame : s.revisions = s₀.revisions) :
    Meets serve alone (fun _ _ s' => K s' ∧ s₀.Ensured req rev s')
      (ensureRevisionObjects req rev) log s := by
  refine meets_ensureRevisionObjects (K := fun s => K s ∧ s.revisions = s₀.revisions) alone_fair
    (alone_stable _) (alone_stable _) ⟨hs, hsame⟩ ?_ ?_ ?_
  · rintro s' ⟨hk, hrevs⟩ hnone _
    refine ⟨trivial, hrevisions s' _ hk, ?_⟩
    rw [Cluster.Ensured, ← hrevs, hnone]
    exact AList.lookup_insert _
  · rintro s' r ⟨hk, hrevs⟩ hsome _
    refine ⟨hk, ?_⟩
    rw [Cluster.Ensured, ← hrevs, hsome]
    rfl
  · rintro s' ⟨hk, hensured⟩
    exact ⟨trivial, hservices s' _ hk, hensured⟩

theorem alone_createFirstRevision (hmarker : s.markers.lookup req.id = none) :
    Leaves alone (Left s req) (createFirstRevision cfg req) log s := by
  have hname : ensuredRevision s req = revisionName req.id 1 := by
    rw [ensuredRevision, hmarker]
  refine Meets.bind (Q := fun _ _ s' => s'.HasLatest req.id (revisionName req.id 1) ∧
    s'.revisions = s.revisions) (meets_createMarker alone_fair ?_) ?_
  · rintro s' rfl _ _
    exact ⟨trivial, ⟨_, AList.lookup_insert _, rfl⟩, rfl⟩
  intro log' _ s₁ hs₁
  refine Meets.bind (Q := fun _ _ s' => (s'.HasLatest req.id (revisionName req.id 1) ∧
    s'.secrets.lookup req.id = some req) ∧ s'.revisions = s.revisions)
    (meets_writeSpecJSON (K := fun s' => s'.HasLatest req.id (revisionName req.id 1) ∧
      s'.revisions = s.revisions) alone_fair (alone_stable _) hs₁ ?_) ?_
  · rintro s' k log'' _ ⟨hl, hr⟩ _ _
    exact ⟨trivial, ⟨hl, AList.lookup_insert _⟩, hr⟩
  intro log' _ s₂ ⟨hk, hrevs⟩
  refine Meets.bind (alone_ensureRevisionObjects
    (K := fun s' => s'.HasLatest req.id (revisionName req.id 1) ∧
      s'.secrets.lookup req.id = some req) (fun _ _ h => h) (fun _ _ h => h) hk hrevs) ?_
  intro log' _ s₃ ⟨⟨hl, hspec⟩, hensured⟩
  refine alone_ensureRoute (K := Left s req) (fun _ _ _ h => ⟨h.latest, h.spec, h.revision⟩) ?_
  exact ⟨hname ▸ hl, hspec, hname ▸ hensured⟩

theorem alone_mintNextRevision {v : Versioned Marker}
    (hmarker : s.markers.lookup req.id = some v) (hspec : s.secrets.lookup req.id ≠ some req) :
    Leaves alone (Left s req) (mintNextRevision cfg req v.value) log s := by
  have hname : ensuredRevision s req =
      revisionName req.id (revisionNumber v.value.latestRevision + 1) := by
    rw [ensuredRevision, hmarker]
    exact if_neg hspec
  rw [mintNextRevision, ← hname]
  refine Meets.bind (alone_ensureRevisionObjects (K := fun s' => s'.markers = s.markers)
    (fun _ _ h => h) (fun _ _ h => h) rfl rfl) ?_
  intro log' _ s₁ hs₁
  refine Meets.bind (Q := fun _ _ s' => s'.secrets.lookup req.id = some req ∧
    s.Ensured req (ensuredRevision s req) s')
    (meets_writeSpecJSON (K := s.Ensured req (ensuredRevision s req)) alone_fair (alone_stable _) hs₁.2 ?_) ?_
  · rintro s' k log'' _ hensured _ _
    exact ⟨trivial, AList.lookup_insert _, hensured⟩
  intro log' _ s₂ hs₂
  refine Meets.bind (Q := fun _ _ s' => Left s req s')
    (meets_updateMarker (K := fun s' => s'.secrets.lookup req.id = some req ∧
      s.Ensured req (ensuredRevision s req) s') alone_fair (alone_stable _) hs₂ ?_) ?_
  · rintro s' w log'' ⟨hspec', hensured⟩ _ _
    exact ⟨trivial, ⟨_, AList.lookup_insert _, rfl⟩, hspec', hensured⟩
  intro log' _ s₃ hleft
  exact alone_ensureRoute (fun _ _ _ h => ⟨h.latest, h.spec, h.revision⟩) hleft

/-- The request is the stored spec: only its objects are ensured. -/
theorem alone_ensureHead {v : Versioned Marker} (hmarker : s.markers.lookup req.id = some v)
    (hspec : s.secrets.lookup req.id = some req) :
    Leaves alone (Left s req) (ensureHead cfg req v.value) log s := by
  have hname : ensuredRevision s req = v.value.latestRevision := by
    rw [ensuredRevision, hmarker]
    exact if_pos hspec
  refine Meets.bind (alone_ensureRevisionObjects
    (K := fun s' => s'.markers = s.markers ∧ s'.secrets = s.secrets)
    (fun _ _ h => h) (fun _ _ h => h) ⟨rfl, rfl⟩ rfl) ?_
  intro log' _ s₁ ⟨⟨hmarkers, hsecrets⟩, hensured⟩
  refine alone_ensureRoute (K := Left s req) (fun _ _ _ h => ⟨h.latest, h.spec, h.revision⟩) ?_
  refine ⟨⟨v, ?_, hname.symm⟩, ?_, hname ▸ hensured⟩
  · rw [hmarkers, hmarker]
  · rw [hsecrets, hspec]

/-- **What a successful `Apply` leaves**, whatever calls may fail. -/
theorem alone_apply : Leaves alone (Left s req) (apply cfg req) log s := by
  refine meets_apply (K := fun s' => s' = s) alone_fair (alone_stable _) rfl ?_ ?_ ?_
  · rintro log' s' rfl hmarker
    exact alone_createFirstRevision hmarker
  · rintro log' s₁ s₂ v rfl rfl hmarker hspec
    exact alone_ensureHead hmarker hspec
  · rintro log' s₁ s₂ v rfl rfl hmarker hspec
    exact alone_mintNextRevision hmarker hspec

end

/-! ## Histories -/

/-- The Revision under the name `Apply` ensures is missing, or built from the request. -/
def Fresh (s : Cluster) (req : Request) : Prop :=
  ∀ r, s.revisions.lookup (ensuredRevision s req) = some r → r.builtFrom = req

/-- The head of the deployment is the request: the latest revision exists and was built from it,
    and the Secret holds it. -/
def Applied (s : Cluster) (req : Request) : Prop :=
  (∃ v r, s.markers.lookup req.id = some v ∧
    s.revisions.lookup v.value.latestRevision = some r ∧ r.builtFrom = req) ∧
  s.secrets.lookup req.id = some req

theorem Left.applied_iff {s₀ s : Cluster} {req : Request} (h : Left s₀ req s) :
    Applied s req ↔ Fresh s₀ req := by
  obtain ⟨v, hv, hlatest⟩ := h.latest
  have hrev := h.revision
  rw [Cluster.Ensured] at hrev
  constructor
  · rintro ⟨⟨v', r', hv', hr', hbuilt⟩, -⟩ r hr
    rw [hv] at hv'
    cases hv'
    rw [hlatest, hrev, hr] at hr'
    cases hr'
    exact hbuilt
  · intro hfresh
    rw [← hlatest] at hrev
    refine ⟨⟨v, _, hv, hrev, ?_⟩, h.spec⟩
    rw [hlatest]
    cases hr : s₀.revisions.lookup (ensuredRevision s₀ req) with
    | none => rfl
    | some r => exact hfresh r hr

/-- One `Apply` of a history: the request, and the fate of each of its calls. -/
structure ApplyCall where
  req : Request
  fates : Nat → Call → Fate

/-- The call runs alone; its error is put out. -/
def applyStep (cfg : Config) (s : Cluster) (c : ApplyCall) : Cluster × List (Option AppError) :=
  let (r, s') := exec serve (program cfg (.apply c.req)) c.fates s
  (s', [r])

theorem applyStep_left (cfg : Config) (s : Cluster) (c : ApplyCall)
    (h : (applyStep cfg s c).2 = [none]) : Left s c.req (applyStep cfg s c).1 := by
  have hmeets : Leaves alone (Left s c.req) (apply cfg c.req) [] s :=
    alone_apply
  have hsafe : Safe serve alone (fun _ r s' => r = none → Left s c.req s')
      (program cfg (.apply c.req)) [] s := by
    refine Safe.bind hmeets ?_
    intro log r s' hr hnone
    cases r with
    | ok a => exact hr a rfl
    | error e => cases hnone
  have hallowed : ∀ n log s k, alone.allowed log s k (c.fates n k) := fun _ _ _ _ => trivial
  obtain ⟨log, hleft⟩ := hsafe.exec (fun _ => rfl) hallowed
  exact hleft (List.head_eq_of_cons_eq h)

/-- **An `Apply` that returns nil makes the request the head exactly when its revision was fresh**:
    over every history of `Apply` calls, from any cluster, with any API calls failing. -/
theorem applied_iff_fresh (cfg : Config) (s : Cluster) (calls : List ApplyCall) :
    Along (fun s c => (applyStep cfg s c).2 = [none] → Applied (applyStep cfg s c).1 c.req)
        (applyStep cfg) s calls ↔
      Along (fun s c => (applyStep cfg s c).2 = [none] → Fresh s c.req) (applyStep cfg) s calls := by
  refine along_iff_along (fun _ => True) (fun _ _ _ _ => trivial) ?_ trivial calls
  intro s c _
  constructor
  · intro h hnil
    exact (applyStep_left cfg s c hnil).applied_iff.mp (h hnil)
  · intro h hnil
    exact (applyStep_left cfg s c hnil).applied_iff.mpr (h hnil)

/-! ## A failed call before -/

def emptyCluster : Cluster := ⟨[], ∅, ∅, ∅, ∅, ∅⟩

def gatewayConfig : Config := ⟨true, "deployments-activator", 3, []⟩

/-- A deployment `web`, told apart by what the backend passes on. -/
def webRequest (rest : String) : Request := ⟨"web", ["web.localhost"], "", 1, none, rest⟩

def failingAt (n : Nat) : Nat → Call → Fate := fun i _ => if i = n then .refused else .through

/-- The second `Apply` creates its Revision and cannot write the spec; the third finds that
    Revision under the name it ensures. -/
def halfway : List ApplyCall :=
  [⟨webRequest "a", fun _ _ => .through⟩, ⟨webRequest "b", failingAt 4⟩,
    ⟨webRequest "c", fun _ _ => .through⟩]

theorem apply_keeps_failed_revision :
    let s := (run (applyStep gatewayConfig) emptyCluster halfway).1
    (run (applyStep gatewayConfig) emptyCluster halfway).2 =
        [none, some (.internal "kubernetes.writeSpecSecret" .failed), none] ∧
      (s.markers.lookup "web").map (·.value.latestRevision) = some "web-00002" ∧
      (s.revisions.lookup "web-00002").map Revision.builtFrom = some (webRequest "b") ∧
      s.secrets.lookup "web" = some (webRequest "c") := by
  decide

end Orchestrator.Deployment

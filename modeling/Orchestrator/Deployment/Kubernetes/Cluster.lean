/-
  Orchestrator.Deployment.Kubernetes.Cluster

  What the Kubernetes backend of deployments stores in the cluster, and the calls it makes
  to the API server.

  Markers, spec Secrets and HTTPRoutes are kept under the deployment's id, Revisions and
  Services under the revision's name; the `dep-` in front of an object's name is left out
  of the keys.  A marker's id is its key.  Nothing deletes markers or routes here, so a
  version for each object is enough of a resourceVersion.
-/

import Orchestrator.Lib.Objects
import Orchestrator.Lib.Proc

namespace Orchestrator.Deployment

open Lib

/-- `deployment.Request`: `rest` stands for what the backend only passes on.  A request is taken
    for its JSON. -/
structure Request where
  id : String
  hosts : List String
  runtimeClass : String
  replicas : Int
  /-- `autoscaling.minReplicas`, if there is an `autoscaling`. -/
  minReplicas : Option Int
  rest : String
deriving DecidableEq, Repr

structure Target where
  revisionName : String
  percent : Int
deriving DecidableEq, Repr

inductive TrafficMode where
  | auto
  | manual
deriving DecidableEq, Repr

/-- `marker`, without its id. -/
structure Marker where
  hosts : List String
  latestRevision : String
  lastReady : String
  trafficMode : TrafficMode
deriving DecidableEq, Repr

/-- A Revision: the deployment it is labelled with, the request it was built from, and its
    status. -/
structure Revision where
  deployment : String
  builtFrom : Request
  readyReplicas : Nat
deriving DecidableEq, Repr

/-- A weighted backendRef, with the revision of its `X-Revision` filter. -/
structure BackendRef where
  service : String
  weight : Option Int
  revision : String
deriving DecidableEq, Repr

/-- A rule of a route; the async rule matches the `Prefer` header. -/
structure RouteRule where
  prefer : Bool
  backendRefs : List BackendRef
deriving DecidableEq, Repr

structure HTTPRoute where
  hostnames : List String
  rules : List RouteRule
deriving DecidableEq, Repr

structure Cluster where
  runtimeClasses : List String
  markers : Objects (Versioned Marker)
  secrets : Objects Request
  revisions : Objects Revision
  /-- Services, with the deployment they are labelled with. -/
  services : Objects String
  routes : Objects (Versioned HTTPRoute)

inductive Call where
  | getRuntimeClass (name : String)
  | getMarker (id : String)
  | listMarkers
  | createMarker (id : String) (m : Marker)
  | updateMarker (id : String) (version : Nat) (m : Marker)
  | getSecret (id : String)
  | createSecret (id : String) (spec : Request)
  | updateSecret (id : String) (spec : Request)
  | getRevision (rev : String)
  | listRevisions (id : String)
  | createRevision (rev : String) (req : Request)
  | deleteRevision (rev : String)
  /-- The revision controller's status write. -/
  | reportReady (rev : String) (replicas : Nat)
  | deletePods (rev : String)
  | createPodDisruptionBudget (rev : String)
  | deletePodDisruptionBudget (rev : String)
  | listServices (id : String)
  | createService (id rev : String)
  | deleteService (rev : String)
  | getRoute (id : String)
  | createRoute (id : String) (route : HTTPRoute)
  | updateRoute (id : String) (version : Nat) (route : HTTPRoute)
deriving DecidableEq, Repr

abbrev Call.Res : Call → Type
  | .getMarker _ => Versioned Marker
  | .listMarkers => List (String × Marker)
  | .getSecret _ => Request
  | .getRevision _ => Revision
  | .listRevisions _ => List String
  | .listServices _ => List String
  | .getRoute _ => Versioned HTTPRoute
  | _ => Unit

abbrev Reply (k : Call) : Type := Except ApiError k.Res

/-- The names under which the objects that satisfy `p` are stored. -/
def namesOf {α : Type} (t : Objects α) (p : α → Bool) : List String :=
  (t.entries.filter fun e => p e.2).map Sigma.fst

/-- Put a report into a Revision's status. -/
def Cluster.setReady (s : Cluster) (rev : String) (replicas : Nat) :
    Reply (.reportReady rev replicas) × Cluster :=
  match s.revisions.lookup rev with
  | some r => (.ok (), { s with
      revisions := s.revisions.insert rev { r with readyReplicas := replicas } })
  | none => (.error .notFound, s)

/-- The API server.  Pods and disruption budgets are not kept: their calls only succeed or fail. -/
def Cluster.handle (s : Cluster) : (k : Call) → Reply k × Cluster
  | .getRuntimeClass name =>
    (if name ∈ s.runtimeClasses then .ok () else .error .notFound, s)
  | .getMarker id => (s.markers.get id, s)
  | .listMarkers => (.ok (s.markers.entries.map fun e => (e.1, e.2.value)), s)
  | .createMarker id m =>
    let (r, markers) := s.markers.create id ⟨0, m⟩
    (r, { s with markers })
  | .updateMarker id version m =>
    let (r, markers) := s.markers.update id version m
    (r, { s with markers })
  | .getSecret id => (s.secrets.get id, s)
  | .createSecret id spec =>
    let (r, secrets) := s.secrets.create id spec
    (r, { s with secrets })
  | .updateSecret id spec =>
    let (r, secrets) := s.secrets.replace id spec
    (r, { s with secrets })
  | .getRevision rev => (s.revisions.get rev, s)
  | .listRevisions id => (.ok (namesOf s.revisions fun r => r.deployment = id), s)
  | .createRevision rev req =>
    let (r, revisions) := s.revisions.create rev ⟨req.id, req, 0⟩
    (r, { s with revisions })
  | .deleteRevision rev =>
    let (r, revisions) := s.revisions.delete rev
    (r, { s with revisions })
  | .reportReady rev replicas => s.setReady rev replicas
  | .deletePods _ => (.ok (), s)
  | .createPodDisruptionBudget _ => (.ok (), s)
  | .deletePodDisruptionBudget _ => (.ok (), s)
  | .listServices id => (.ok (namesOf s.services fun label => label = id), s)
  | .createService id rev =>
    let (r, services) := s.services.create rev id
    (r, { s with services })
  | .deleteService rev =>
    let (r, services) := s.services.delete rev
    (r, { s with services })
  | .getRoute id => (s.routes.get id, s)
  | .createRoute id route =>
    let (r, routes) := s.routes.create id ⟨0, route⟩
    (r, { s with routes })
  | .updateRoute id version route =>
    let (r, routes) := s.routes.update id version route
    (r, { s with routes })

inductive Fate where
  | through
  | refused
  /-- It has its effect, and the answer is an error. -/
  | lost
deriving DecidableEq, Repr

def serve (s : Cluster) (k : Call) : Fate → Reply k × Cluster
  | .through => s.handle k
  | .refused => (.error .failed, s)
  | .lost => (.error .failed, (s.handle k).2)

end Orchestrator.Deployment

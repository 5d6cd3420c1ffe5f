/-
  Orchestrator.Deployment.Endpointflip

  The endpoint flip: the EndpointSlice of a revision's Service has the revision's ready
  pods while there are any, and the activator's otherwise.

  A pass reads the Service, the pods and the slice, and writes the slice only when its
  membership differs from the desired one.  Memberships are compared as sets of texts,
  made of the addresses and the readiness of an endpoint and of the parts of a port; the
  texts determine those parts, so a pass that writes nothing leaves the right slice.
-/

import Mathlib.Data.Finset.Basic
import Mathlib.Data.List.Sort
import Orchestrator.Deployment.Kubernetes.Cluster
import Orchestrator.Lib.Text

namespace Orchestrator.Deployment.Endpointflip

open Lib Lib.Proc List

/-! ## The cluster -/

def labelManagedBy : String := "managed-by"
def labelDeploymentID : String := "deployment.id"
def labelRevision : String := "deployment.revision"
def labelPoolClaim : String := "deployment.pool-claim"
def labelServing : String := "deployment.serving"
def managedByValue : String := "deployments-service"
def sliceSuffix : String := "-flip"
def portName : String := "http"

abbrev Labels := Objects String

/-- The value of a label, empty if there is none. -/
def Labels.value (labels : Labels) (key : String) : String := (AList.lookup key labels).getD ""

inductive ConditionStatus where
  | true
  | false
  | unknown
deriving DecidableEq, Repr

/-- A condition of a pod; only those of type `Ready` are told apart. -/
structure Condition where
  isReadyType : Bool
  status : ConditionStatus
deriving DecidableEq, Repr

structure Pod where
  inNamespace : String
  labels : Labels
  terminating : Bool
  podIP : String
  conditions : List Condition

structure Service where
  labels : Labels
  uid : String

structure Endpoint where
  addresses : List String
  ready : Option Bool
deriving DecidableEq, Repr

structure EndpointPort where
  name : Option String
  port : Option Int
  protocol : Option String
deriving DecidableEq, Repr

/-- An EndpointSlice; of its owner reference the name and the UID are kept. -/
structure EndpointSlice where
  labels : List (String × String)
  owner : String × String
  addressType : String
  endpoints : List Endpoint
  ports : List EndpointPort
deriving DecidableEq, Repr

structure Cluster where
  /-- The Services of the reconciler's namespace. -/
  services : Objects Service
  pods : List Pod
  slices : Objects (Versioned EndpointSlice)

abbrev Selector := Labels → Bool

inductive Call where
  | getService (name : String)
  | listPods (inNamespace : String) (selector : Selector)
  | getSlice (name : String)
  | createSlice (name : String) (slice : EndpointSlice)
  | updateSlice (name : String) (version : Nat) (slice : EndpointSlice)

abbrev Call.Res : Call → Type
  | .getService _ => Service
  | .listPods _ _ => List Pod
  | .getSlice _ => Versioned EndpointSlice
  | _ => Unit

abbrev Reply (k : Call) : Type := Except ApiError k.Res

/-- The pods of a namespace that a selector matches. -/
def Cluster.podsOf (s : Cluster) (inNamespace : String) (selector : Selector) : List Pod :=
  s.pods.filter fun pod => pod.inNamespace = inNamespace && selector pod.labels

def Cluster.handle (s : Cluster) : (k : Call) → Reply k × Cluster
  | .getService name => (s.services.get name, s)
  | .listPods inNamespace selector => (.ok (s.podsOf inNamespace selector), s)
  | .getSlice name => (s.slices.get name, s)
  | .createSlice name slice =>
    let (r, slices) := s.slices.create name ⟨0, slice⟩
    (r, { s with slices })
  | .updateSlice name version slice =>
    let (r, slices) := s.slices.update name version slice
    (r, { s with slices })

def serve (s : Cluster) (k : Call) : Fate → Reply k × Cluster
  | .through => s.handle k
  | .refused => (.error .failed, s)
  | .lost => (.error .failed, (s.handle k).2)

abbrev Api := Fallible Call Reply ApiError

abbrev request (k : Call) : Api (Reply k) := Proc.ask k

/-! ## A pass -/

structure Reconciler where
  inNamespace : String
  activatorNamespace : String
  /-- None when the configured selector is unusable. -/
  activatorSelector : Option Selector
  proxyPort : Int
  activatorPort : Int

/-- `isReady`: the first condition of type `Ready` counts. -/
def isReady (pod : Pod) : Bool :=
  if pod.terminating || pod.podIP = "" then false
  else if pod.labels.value labelPoolClaim ≠ "" ∧ pod.labels.value labelServing ≠ "true" then false
  else
    match pod.conditions.find? Condition.isReadyType with
    | some cond => cond.status = .true
    | none => false

/-- `slices.Compact`: of equal neighbours one is kept. -/
def compact : List String → List String
  | [] => []
  | [ip] => [ip]
  | ip :: ip' :: rest => if ip = ip' then compact (ip' :: rest) else ip :: compact (ip' :: rest)

def ipsOf (pods : List Pod) : List String :=
  compact (((pods.filter isReady).map Pod.podIP).insertionSort (· ≤ ·))

def readyPodIPs (inNamespace : String) (selector : Selector) : Api (List String) := do
  match ← request (.listPods inNamespace selector) with
  | .error e => throw e
  | .ok pods => return ipsOf pods

def ofRevision (revision : String) : Selector :=
  fun labels => AList.lookup labelRevision labels = some revision

/-- `desiredMembership`: the activator's pods back a revision without a ready pod. -/
def desiredMembership (r : Reconciler) (revision : String) : Api (List String × Int) := do
  let ips ← readyPodIPs r.inNamespace (ofRevision revision)
  if ips ≠ [] then return (ips, r.proxyPort)
  else
    match r.activatorSelector with
    | none => return ([], r.activatorPort)
    | some selector =>
      let ips ← readyPodIPs r.activatorNamespace selector
      return (ips, r.activatorPort)

def desiredSlice (name : String) (svc : Service) (ips : List String) (port : Int) :
    EndpointSlice where
  labels := [("kubernetes.io/service-name", name),
    ("endpointslice.kubernetes.io/managed-by", managedByValue), (labelManagedBy, managedByValue),
    (labelDeploymentID, svc.labels.value labelDeploymentID),
    (labelRevision, svc.labels.value labelRevision)]
  owner := (name, svc.uid)
  addressType := "IPv4"
  endpoints := ips.map fun ip => ⟨[ip], some true⟩
  ports := [⟨some portName, some port, some "TCP"⟩]

def endpointKey (ep : Endpoint) : String :=
  String.intercalate "," ep.addresses ++ "|" ++ (if ep.ready = some true then "true" else "false")

def endpointSet (slice : EndpointSlice) : Finset String :=
  (slice.endpoints.map endpointKey).toFinset

def portKey (p : EndpointPort) : String :=
  p.name.getD "" ++ "|" ++ (p.port.map toString).getD "" ++ "|" ++ p.protocol.getD ""

def portSet (slice : EndpointSlice) : Finset String := (slice.ports.map portKey).toFinset

def membershipEqual (a b : EndpointSlice) : Bool :=
  endpointSet a = endpointSet b && portSet a = portSet b

/-- `apply`: a slice with the desired membership is left as it is. -/
def apply (name : String) (desired : EndpointSlice) : Api Unit := do
  match ← request (.getSlice name) with
  | .error .notFound =>
    match ← request (.createSlice name desired) with
    | .error e => throw e
    | .ok _ => return ()
  | .error e => throw e
  | .ok current =>
    if membershipEqual current.value desired then return ()
    else
      match ← request (.updateSlice name current.version desired) with
      | .error e => throw e
      | .ok _ => return ()

def Service.managed (svc : Service) : Bool :=
  svc.labels.value labelManagedBy = managedByValue && svc.labels.value labelRevision ≠ ""

def reconcileService (r : Reconciler) (name : String) : Api Unit := do
  match ← request (.getService name) with
  | .error .notFound => return ()
  | .error e => throw e
  | .ok svc =>
    if svc.managed then
      let (ips, port) ← desiredMembership r (svc.labels.value labelRevision)
      apply (name ++ sliceSuffix) (desiredSlice name svc ips port)
    else return ()

def pass (r : Reconciler) (name : String) (s : Cluster) : Except ApiError Unit × Cluster :=
  exec serve (reconcileService r name).run (fun _ _ => .through) s

/-! ## What the slice should have -/

/-- A pod that is ready, not terminating and, if it was claimed from a pool, serving. -/
structure Pod.Serves (pod : Pod) : Prop where
  stays : pod.terminating = false
  address : pod.podIP ≠ ""
  claimed : pod.labels.value labelPoolClaim ≠ "" → pod.labels.value labelServing = "true"
  ready : (pod.conditions.find? Condition.isReadyType).map Condition.status = some .true

theorem isReady_iff (pod : Pod) : isReady pod = true ↔ pod.Serves := by
  rw [isReady]
  constructor
  · intro h
    split at h
    · cases h
    rename_i hstays
    split at h
    · cases h
    rename_i hclaimed
    split at h
    · rename_i cond hfind
      simp only [Bool.or_eq_true, decide_eq_true_eq, not_or] at hstays
      refine ⟨by simpa using hstays.1, hstays.2, ?_, ?_⟩
      · intro hclaim
        by_contra hserving
        exact hclaimed ⟨hclaim, hserving⟩
      · rw [hfind, Option.map_some, of_decide_eq_true h]
    · cases h
  · intro h
    rw [if_neg (by simp [h.stays, h.address]), if_neg (by
      rintro ⟨hclaim, hserving⟩
      exact hserving (h.claimed hclaim))]
    obtain ⟨cond, hfind, hstatus⟩ := Option.map_eq_some_iff.mp h.ready
    rw [hfind]
    exact decide_eq_true hstatus

def Cluster.Backed (s : Cluster) (inNamespace : String) (selector : Selector) (ip : String) : Prop :=
  ∃ pod ∈ s.podsOf inNamespace selector, pod.Serves ∧ pod.podIP = ip

/-- A pod of the revision serves. -/
def Warm (r : Reconciler) (revision : String) (s : Cluster) : Prop :=
  ∃ ip, s.Backed r.inNamespace (ofRevision revision) ip

/-- The addresses of the revision: its own pods', or the activator's. -/
def Expected (r : Reconciler) (revision : String) (s : Cluster) (ip : String) : Prop :=
  (Warm r revision s ∧ s.Backed r.inNamespace (ofRevision revision) ip) ∨
    (¬ Warm r revision s ∧ ∃ selector, r.activatorSelector = some selector ∧
      s.Backed r.activatorNamespace selector ip)

def ExpectedPort (r : Reconciler) (revision : String) (s : Cluster) (port : Int) : Prop :=
  (Warm r revision s ∧ port = r.proxyPort) ∨ (¬ Warm r revision s ∧ port = r.activatorPort)

theorem mem_compact {ips : List String} {ip : String} : ip ∈ compact ips ↔ ip ∈ ips := by
  fun_induction compact ips with
  | case1 => exact Iff.rfl
  | case2 => exact Iff.rfl
  | case3 a rest ih =>
    rw [ih]
    simp
  | case4 a b rest hne ih => rw [mem_cons, ih, ← mem_cons]

theorem mem_ipsOf {s : Cluster} {inNamespace ip : String} {selector : Selector} :
    ip ∈ ipsOf (s.podsOf inNamespace selector) ↔ s.Backed inNamespace selector ip := by
  rw [ipsOf, mem_compact, mem_insertionSort, mem_map]
  constructor
  · rintro ⟨pod, hpod, hip⟩
    obtain ⟨hmem, hready⟩ := mem_filter.mp hpod
    exact ⟨pod, hmem, (isReady_iff pod).mp hready, hip⟩
  · rintro ⟨pod, hmem, hserves, hip⟩
    exact ⟨pod, mem_filter.mpr ⟨hmem, (isReady_iff pod).mpr hserves⟩, hip⟩

/-- What `desiredMembership` computes from the pods. -/
def membershipOf (r : Reconciler) (revision : String) (s : Cluster) : List String × Int :=
  let ips := ipsOf (s.podsOf r.inNamespace (ofRevision revision))
  if ips ≠ [] then (ips, r.proxyPort)
  else
    match r.activatorSelector with
    | none => ([], r.activatorPort)
    | some selector => (ipsOf (s.podsOf r.activatorNamespace selector), r.activatorPort)

theorem warm_iff {r : Reconciler} {revision : String} {s : Cluster} :
    ipsOf (s.podsOf r.inNamespace (ofRevision revision)) ≠ [] ↔ Warm r revision s := by
  constructor
  · intro hne
    obtain ⟨ip, hip⟩ := exists_mem_of_ne_nil _ hne
    exact ⟨ip, mem_ipsOf.mp hip⟩
  · rintro ⟨ip, hip⟩
    exact ne_nil_of_mem (mem_ipsOf.mpr hip)

theorem membershipOf_expected (r : Reconciler) (revision : String) (s : Cluster) :
    (∀ ip, ip ∈ (membershipOf r revision s).1 ↔ Expected r revision s ip) ∧
      ExpectedPort r revision s (membershipOf r revision s).2 := by
  by_cases hwarm : Warm r revision s
  · have hips := warm_iff.mpr hwarm
    rw [membershipOf, if_pos hips]
    refine ⟨?_, .inl ⟨hwarm, rfl⟩⟩
    intro ip
    rw [mem_ipsOf, Expected]
    simp [hwarm]
  · have hips := fun h => hwarm (warm_iff.mp h)
    rw [membershipOf, if_neg hips]
    cases hselector : r.activatorSelector with
    | none => exact ⟨fun ip => by simp [Expected, hwarm, hselector], .inr ⟨hwarm, rfl⟩⟩
    | some selector =>
      refine ⟨?_, .inr ⟨hwarm, rfl⟩⟩
      intro ip
      rw [mem_ipsOf, Expected]
      simp [hwarm, hselector]

/-! ## The texts tell the membership -/

/-- The addresses of the endpoints that are ready. -/
def EndpointSlice.readyAddresses (slice : EndpointSlice) : List String :=
  (slice.endpoints.filter fun ep => ep.ready = some true).flatMap Endpoint.addresses

/-- The slice has these addresses, all of them ready, on this port and no other. -/
structure EndpointSlice.Has (slice : EndpointSlice) (ips : String → Prop) (port : Int) : Prop where
  ready : ∀ ep ∈ slice.endpoints, ep.ready = some true
  addresses : ∀ ip, ip ∈ slice.readyAddresses ↔ ips ip
  ports : slice.ports ≠ []
  port : ∀ p ∈ slice.ports, p = ⟨some portName, some port, some "TCP"⟩

/-- Only an endpoint with one address and ready has the text of one. -/
theorem endpointKey_eq {ep : Endpoint} {ip : String} (hempty : ip ≠ "") (hcomma : ',' ∉ ip.toList)
    (h : endpointKey ep = endpointKey ⟨[ip], some true⟩) : ep = ⟨[ip], some true⟩ := by
  obtain ⟨addresses, ready⟩ := ep
  have hlist := congrArg String.toList h
  simp only [endpointKey, String.toList_append, append_assoc, if_pos] at hlist
  have hbar : ∀ b : Prop, [Decidable b] → '|' ∉ (if b then "true" else "false").toList := by
    intro b _
    split <;> decide
  obtain ⟨hjoin, hready⟩ := Text.append_sep_right (hbar _) (by decide) hlist
  have hready' : ready = some true := by
    by_contra hne
    rw [if_neg hne] at hready
    exact absurd hready (by decide)
  rw [String.toList_intercalate, String.toList_intercalate] at hjoin
  cases addresses with
  | nil =>
    have hnil : ip.toList = "".toList := by simpa using hjoin.symm
    exact absurd (String.toList_inj.mp hnil) hempty
  | cons a rest =>
    cases rest with
    | nil =>
      have ha : a = ip := String.toList_inj.mp (by simpa using hjoin)
      rw [ha, hready']
    | cons b rest =>
      -- two addresses are put together with a comma
      have hmem : ',' ∈ ip.toList := by
        simp only [map_cons, map_nil, intercalate_singleton] at hjoin
        rw [← hjoin, intercalate_cons_cons]
        simp
      exact absurd hmem hcomma

theorem bar_not_mem_number (n : Int) : '|' ∉ (toString n).toList := by
  intro hmem
  rcases Text.mem_toString_int hmem with h | h
  · exact absurd h (by decide)
  · exact absurd h (by decide)

/-- Three parts put together with bars, where all three of one side have none. -/
theorem three_parts {xs ys zs xs' ys' zs' : List Char} (hxs : '|' ∉ xs') (hys : '|' ∉ ys')
    (hzs : '|' ∉ zs') (h : xs ++ '|' :: (ys ++ '|' :: zs) = xs' ++ '|' :: (ys' ++ '|' :: zs')) :
    xs = xs' ∧ ys = ys' ∧ zs = zs' := by
  have hcount := congrArg (count '|') h
  simp only [count_append, count_cons_self, count_eq_zero_of_not_mem hxs,
    count_eq_zero_of_not_mem hys, count_eq_zero_of_not_mem hzs] at hcount
  have hx : '|' ∉ xs := count_eq_zero.mp (by omega)
  have hy : '|' ∉ ys := count_eq_zero.mp (by omega)
  obtain ⟨hxs', htail⟩ := Text.append_sep_left hx hxs h
  obtain ⟨hys', hzs'⟩ := Text.append_sep_left hy hys htail
  exact ⟨hxs', hys', hzs'⟩

theorem portKey_eq {p : EndpointPort} {port : Int}
    (h : portKey p = portKey ⟨some portName, some port, some "TCP"⟩) :
    p = ⟨some portName, some port, some "TCP"⟩ := by
  obtain ⟨name, number, protocol⟩ := p
  have hlist := congrArg String.toList h
  simp only [portKey, String.toList_append, append_assoc, Option.getD_some,
    Option.map_some] at hlist
  obtain ⟨hname, hnumber, hprotocol⟩ : (name.getD "").toList = portName.toList ∧
      ((number.map toString).getD "").toList = (toString port).toList ∧
        (protocol.getD "").toList = "TCP".toList :=
    three_parts (by decide) (bar_not_mem_number port) (by decide) hlist
  rw [String.toList_inj] at hname hnumber hprotocol
  have hname' : name = some portName := by
    cases name with
    | none => exact absurd hname (by decide)
    | some n => exact congrArg some hname
  have hnumber' : number = some port := by
    cases number with
    | none =>
      exact absurd hnumber.symm (Text.toString_int_ne_empty port)
    | some n => exact congrArg some (Text.toString_int_inj hnumber)
  have hprotocol' : protocol = some "TCP" := by
    cases protocol with
    | none => exact absurd hprotocol (by decide)
    | some n => exact congrArg some hprotocol
  rw [hname', hnumber', hprotocol']

section

variable {current : EndpointSlice} {name : String} {svc : Service} {ips : List String} {port : Int}

theorem membershipEqual_refl (slice : EndpointSlice) : membershipEqual slice slice = true := by
  simp [membershipEqual]

/-- **A slice with an equal membership has the same addresses on the same port**, in whatever
    order and however often. -/
theorem has_of_membershipEqual (hempty : "" ∉ ips) (hcomma : ∀ ip ∈ ips, ',' ∉ ip.toList)
    (h : membershipEqual current (desiredSlice name svc ips port) = true) :
    current.Has (· ∈ ips) port := by
  rw [membershipEqual, Bool.and_eq_true, decide_eq_true_eq, decide_eq_true_eq] at h
  obtain ⟨hendpoints, hports⟩ := h
  -- the texts are compared as sets, and a text determines its endpoint
  have hep : ∀ ep ∈ current.endpoints, ∃ ip ∈ ips, ep = ⟨[ip], some true⟩ := by
    intro ep hep
    have hkey : endpointKey ep ∈ endpointSet (desiredSlice name svc ips port) := by
      rw [← hendpoints, endpointSet, mem_toFinset]
      exact mem_map_of_mem hep
    rw [endpointSet, mem_toFinset, desiredSlice, map_map, mem_map] at hkey
    obtain ⟨ip, hip, hkey⟩ := hkey
    have hne : ip ≠ "" := fun heq => hempty (heq ▸ hip)
    exact ⟨ip, hip, endpointKey_eq hne (hcomma ip hip) hkey.symm⟩
  have hip : ∀ ip ∈ ips, ⟨[ip], some true⟩ ∈ current.endpoints := by
    intro ip hip
    have hkey : endpointKey ⟨[ip], some true⟩ ∈ endpointSet current := by
      rw [hendpoints, endpointSet, mem_toFinset, desiredSlice, map_map]
      exact mem_map_of_mem hip
    rw [endpointSet, mem_toFinset, mem_map] at hkey
    obtain ⟨ep, hmem, hkey⟩ := hkey
    have hne : ip ≠ "" := fun heq => hempty (heq ▸ hip)
    rwa [endpointKey_eq hne (hcomma ip hip) hkey] at hmem
  have hport : ∀ p ∈ current.ports, p = ⟨some portName, some port, some "TCP"⟩ := by
    intro p hp
    have hkey : portKey p ∈ portSet (desiredSlice name svc ips port) := by
      rw [← hports, portSet, mem_toFinset]
      exact mem_map_of_mem hp
    rw [portSet, mem_toFinset, desiredSlice, map_singleton, mem_singleton] at hkey
    exact portKey_eq hkey
  refine ⟨?_, ?_, ?_, hport⟩
  · intro ep hmem
    obtain ⟨ip, -, rfl⟩ := hep ep hmem
    rfl
  · intro ip
    rw [EndpointSlice.readyAddresses, mem_flatMap]
    constructor
    · rintro ⟨ep, hmem, haddress⟩
      obtain ⟨ip', hip', rfl⟩ := hep ep (mem_filter.mp hmem).1
      rwa [mem_singleton.mp haddress]
    · intro hmem
      exact ⟨_, mem_filter.mpr ⟨hip ip hmem, by simp⟩, mem_singleton_self ip⟩
  · intro hnil
    have hnone : portSet current = ∅ := by rw [portSet, hnil]; rfl
    rw [hnone, portSet, desiredSlice] at hports
    simp at hports

end

/-! ## What a pass does -/

section

variable {r : Reconciler} {s : Cluster} {name : String} {svc : Service}

theorem exec_desiredMembership (revision : String) :
    exec serve (desiredMembership r revision).run (fun _ _ => .through) s =
      (.ok (membershipOf r revision s), s) := by
  have hips : ∀ inNamespace selector, exec serve (readyPodIPs inNamespace selector).run
      (fun _ _ => .through) s = (.ok (ipsOf (s.podsOf inNamespace selector)), s) := fun _ _ => rfl
  rw [desiredMembership, exec_bind_ok (hips _ _), membershipOf]
  split
  · rfl
  · cases r.activatorSelector with
    | none => rfl
    | some selector => exact exec_bind_ok (hips _ _)

def Cluster.applied (s : Cluster) (name : String) (desired : EndpointSlice) : Cluster :=
  match s.slices.lookup name with
  | none => { s with slices := s.slices.insert name ⟨0, desired⟩ }
  | some v =>
    if membershipEqual v.value desired then s
    else { s with slices := s.slices.insert name ⟨v.version + 1, desired⟩ }

theorem exec_apply (desired : EndpointSlice) :
    exec serve (apply name desired).run (fun _ _ => .through) s =
      (.ok (), s.applied name desired) := by
  rw [apply, exec_bind_ok (exec_ask _ _ _), Cluster.applied]
  cases hv : s.slices.lookup name with
  | none =>
    have hget : serve s (.getSlice name) .through = (.error .notFound, s) := by
      rw [serve, Cluster.handle, Objects.get_eq_notFound hv]
    rw [hget, exec_bind_ok (exec_ask _ _ _)]
    have hcreate : serve s (.createSlice name desired) .through =
        (.ok (), { s with slices := s.slices.insert name ⟨0, desired⟩ }) := by
      rw [serve, Cluster.handle, Objects.create_of_none hv]
    rw [hcreate]
    rfl
  | some v =>
    have hget : serve s (.getSlice name) .through = (.ok v, s) := by
      rw [serve, Cluster.handle, Objects.get_eq_ok hv]
    rw [hget]
    dsimp only
    split
    · rfl
    rw [exec_bind_ok (exec_ask _ _ _)]
    have hupdate : serve s (.updateSlice name v.version desired) .through =
        (.ok (), { s with slices := s.slices.insert name ⟨v.version + 1, desired⟩ }) := by
      rw [serve, Cluster.handle, Objects.update_of_same hv]
    rw [hupdate]
    rfl

def wanted (r : Reconciler) (name : String) (svc : Service) (s : Cluster) : EndpointSlice :=
  let m := membershipOf r (svc.labels.value labelRevision) s
  desiredSlice name svc m.1 m.2

theorem pass_managed (hsvc : s.services.lookup name = some svc) (hmanaged : svc.managed = true) :
    pass r name s = (.ok (), s.applied (name ++ sliceSuffix) (wanted r name svc s)) := by
  have hget : serve s (.getService name) .through = (.ok svc, s) := by
    rw [serve, Cluster.handle, Objects.get_eq_ok hsvc]
  rw [pass, reconcileService, exec_bind_ok (exec_ask _ _ _), hget]
  dsimp only
  rw [if_pos hmanaged, exec_bind_ok (exec_desiredMembership _)]
  exact exec_apply _

theorem applied_pods (s : Cluster) (name : String) (desired : EndpointSlice) :
    (s.applied name desired).pods = s.pods ∧
    (s.applied name desired).services = s.services := by
  rw [Cluster.applied]
  split
  · exact ⟨rfl, rfl⟩
  · split <;> exact ⟨rfl, rfl⟩

/-- What is stored after the slice was applied has the desired membership. -/
theorem applied_lookup (s : Cluster) (name : String) (desired : EndpointSlice) :
    ∃ v, (s.applied name desired).slices.lookup name = some v ∧
      membershipEqual v.value desired = true := by
  rw [Cluster.applied]
  cases hv : s.slices.lookup name with
  | none => exact ⟨_, AList.lookup_insert _, membershipEqual_refl desired⟩
  | some v =>
    dsimp only
    split
    · rename_i hequal
      exact ⟨v, hv, hequal⟩
    · exact ⟨_, AList.lookup_insert _, membershipEqual_refl desired⟩

theorem applied_applied (desired : EndpointSlice) :
    (s.applied name desired).applied name desired = s.applied name desired := by
  obtain ⟨v, hv, hequal⟩ := applied_lookup s name desired
  rw [Cluster.applied, hv]
  exact if_pos hequal

theorem wanted_congr {s' : Cluster} (h : s'.pods = s.pods) :
    wanted r name svc s' = wanted r name svc s := by
  have hpods : ∀ inNamespace selector,
      s'.podsOf inNamespace selector = s.podsOf inNamespace selector := by
    intro inNamespace selector
    rw [Cluster.podsOf, Cluster.podsOf, h]
  simp only [wanted, membershipOf, hpods]

end

/-- The addresses that a pass wants are those of serving pods. -/
theorem mem_membershipOf {r : Reconciler} {revision ip : String} {s : Cluster}
    (h : ip ∈ (membershipOf r revision s).1) : ∃ pod ∈ s.pods, pod.Serves ∧ pod.podIP = ip := by
  have hbacked : ∀ {inNamespace selector}, s.Backed inNamespace selector ip →
      ∃ pod ∈ s.pods, pod.Serves ∧ pod.podIP = ip := by
    rintro inNamespace selector ⟨pod, hpod, hserves⟩
    exact ⟨pod, (mem_filter.mp hpod).1, hserves⟩
  rcases ((membershipOf_expected r revision s).1 ip).mp h with ⟨-, hip⟩ | ⟨-, selector, -, hip⟩
  · exact hbacked hip
  · exact hbacked hip

/-- **A pass leaves the slice with exactly the addresses of the revision's serving pods on the
    proxy port, or with those of the activator's on the activator port, and a second pass writes
    nothing**: whatever the slice had before. -/
theorem pass_settles (r : Reconciler) (name : String) (svc : Service) (s : Cluster)
    (hsvc : s.services.lookup name = some svc) (hmanaged : svc.managed = true)
    (hcomma : ∀ pod ∈ s.pods, ',' ∉ pod.podIP.toList) :
    (pass r name s).1 = .ok () ∧
      (∃ v port, (pass r name s).2.slices.lookup (name ++ sliceSuffix) = some v ∧
        v.value.Has (Expected r (svc.labels.value labelRevision) s) port ∧
        ExpectedPort r (svc.labels.value labelRevision) s port) ∧
      pass r name (pass r name s).2 = (.ok (), (pass r name s).2) := by
  have hpass : pass r name s =
      (.ok (), s.applied (name ++ sliceSuffix) (wanted r name svc s)) := pass_managed hsvc hmanaged
  obtain ⟨hpods, hservices⟩ := applied_pods s (name ++ sliceSuffix) (wanted r name svc s)
  rw [hpass]
  refine ⟨rfl, ?_, ?_⟩
  · obtain ⟨hexpected, hport⟩ := membershipOf_expected r (svc.labels.value labelRevision) s
    obtain ⟨v, hv, hequal⟩ := applied_lookup s (name ++ sliceSuffix) (wanted r name svc s)
    have hhas : v.value.Has (· ∈ (membershipOf r (svc.labels.value labelRevision) s).1)
        (membershipOf r (svc.labels.value labelRevision) s).2 := by
      refine has_of_membershipEqual ?_ ?_ hequal
      · intro hmem
        obtain ⟨pod, -, hserves, hip⟩ := mem_membershipOf hmem
        exact hserves.address hip
      · intro ip hmem
        obtain ⟨pod, hpod, -, rfl⟩ := mem_membershipOf hmem
        exact hcomma pod hpod
    exact ⟨v, _, hv, { hhas with addresses := fun ip => (hhas.addresses ip).trans (hexpected ip) },
      hport⟩
  · have hsvc' := hservices ▸ hsvc
    rw [pass_managed hsvc' hmanaged, wanted_congr hpods, applied_applied]

def webService : Service :=
  ⟨((∅ : Labels).insert labelManagedBy managedByValue).insert labelRevision "web-00001", "uid"⟩

def webReconciler : Reconciler :=
  ⟨"workloads", "control", some fun labels => labels.value "component" = "activator", 8080, 9090⟩

def webPod (ip : String) : Pod :=
  ⟨"workloads", (∅ : Labels).insert labelRevision "web-00001", false, ip, [⟨true, .true⟩]⟩

/-- Two pods are ready; the slice has one of them twice, and another one that is not ready. -/
def webCluster : Cluster where
  services := (∅ : Objects _).insert "web" webService
  pods := [webPod "10.0.0.2", webPod "10.0.0.1", { webPod "10.0.0.3" with terminating := true }]
  slices := (∅ : Objects _).insert "web-flip" ⟨7, { desiredSlice "web" webService
    ["10.0.0.2", "10.0.0.2"] 8080 with
      endpoints := [⟨["10.0.0.2"], some true⟩, ⟨["10.0.0.2"], some true⟩, ⟨["10.0.0.1"], none⟩] }⟩

theorem pass_settles_web :
    (pass webReconciler "web" webCluster).1 = .ok () ∧
      (∃ v port, (pass webReconciler "web" webCluster).2.slices.lookup ("web" ++ sliceSuffix) =
          some v ∧
        v.value.Has (Expected webReconciler (webService.labels.value labelRevision) webCluster)
          port ∧
        ExpectedPort webReconciler (webService.labels.value labelRevision) webCluster port) ∧
      pass webReconciler "web" (pass webReconciler "web" webCluster).2 =
        (.ok (), (pass webReconciler "web" webCluster).2) :=
  pass_settles webReconciler "web" webService webCluster rfl rfl (by decide)

end Orchestrator.Deployment.Endpointflip

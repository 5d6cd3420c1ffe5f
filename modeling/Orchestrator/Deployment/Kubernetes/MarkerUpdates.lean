/-
  Orchestrator.Deployment.Kubernetes.MarkerUpdates

  `updateMarker` calls on the ConfigMap of one deployment, in any interleaving.

  A call reads the ConfigMap, changes the marker in it and writes it back under the version
  it has read.  What it has read is a copy that others may overtake: the invariant says that
  a copy of the stored version is the stored ConfigMap.
-/

import Orchestrator.Deployment.Kubernetes.Cluster

namespace Orchestrator.Deployment.MarkerUpdates

open Lib Lib.Machine List

/-- The annotation with the hosts, and the data. -/
structure ConfigMap where
  host : String
  latestRevision : String
  lastReady : String
  trafficMode : TrafficMode
deriving DecidableEq, Repr

def splitHosts (v : String) : List String :=
  if v = "" then [] else (v.toList.splitOn ',').map String.ofList

def markerFromConfigMap (cm : ConfigMap) : Marker :=
  ⟨splitHosts cm.host, cm.latestRevision, cm.lastReady, cm.trafficMode⟩

def configMap (m : Marker) : ConfigMap :=
  ⟨",".intercalate m.hosts, m.latestRevision, m.lastReady, m.trafficMode⟩

/-- What `Apply`, `SetTraffic` and the rollout reconciler change. -/
inductive Mutation where
  | minted (rev : String) (hosts : List String)
  | trafficMode (mode : TrafficMode)
  | lastReady (rev : String)

def Mutation.mutate : Mutation → Marker → Marker
  | .minted rev hosts, m => { m with latestRevision := rev, hosts := hosts }
  | .trafficMode mode, m => { m with trafficMode := mode }
  | .lastReady rev, m => { m with lastReady := rev }

structure Server where
  stored : Versioned ConfigMap
  read : Nat → Option (Versioned ConfigMap)

inductive Event where
  | get (caller : Nat)
  | update (caller : Nat) (f : Mutation) (fate : Fate)

/-- A step, and the calls that return: with nil if their fate is `through`. -/
def step (s : Server) : Event → Server × List (Mutation × Fate)
  | .get caller => ({ s with read := Function.update s.read caller (some s.stored) }, [])
  | .update caller f fate =>
    match s.read caller with
    | none => (s, [])
    | some cm =>
      let read := Function.update s.read caller none
      if fate = .refused ∨ cm.version ≠ s.stored.version then ({ s with read }, [(f, .refused)])
      else (⟨⟨cm.version + 1, configMap (f.mutate (markerFromConfigMap cm.value))⟩, read⟩, [(f, fate)])

def Server.init (m : Marker) : Server := ⟨⟨0, configMap m⟩, fun _ => none⟩

/-- Apply the mutations of the calls with such a fate. -/
def applied (p : Fate → Bool) (calls : List (Mutation × Fate)) (m : Marker) : Marker :=
  (calls.filter fun c => p c.2).foldl (fun m c => c.1.mutate m) m

/-- A list of hosts is read back, unless its only host is empty. -/
theorem splitHosts_intercalate {hosts : List String} (hcomma : ∀ h ∈ hosts, ',' ∉ h.toList)
    (hempty : hosts ≠ [""]) : splitHosts (",".intercalate hosts) = hosts := by
  have htext : (",".intercalate hosts).toList = [','].intercalate (hosts.map String.toList) :=
    String.toList_intercalate
  cases hosts with
  | nil => rfl
  | cons host rest =>
    have hne : ",".intercalate (host :: rest) ≠ "" := by
      intro hnone
      rw [hnone] at htext
      cases rest with
      | nil =>
        have hhost : "".toList = host.toList := by simpa using htext
        exact hempty (by rw [← String.toList_inj.mp hhost])
      | cons other rest => simp [intercalate_cons_cons] at htext
    rw [splitHosts, if_neg hne, htext, splitOn_intercalate _ (forall_mem_map.mpr hcomma) (by simp),
      map_map]
    simp

/-- What is read is written back, commas or not. -/
theorem intercalate_splitHosts (v : String) : ",".intercalate (splitHosts v) = v := by
  rw [splitHosts]
  split
  · rename_i hempty
    rw [hempty]
    rfl
  · apply String.toList_inj.mp
    rw [String.toList_intercalate, map_map]
    simp

variable {initial : Marker} {s : Server} {calls : List (Mutation × Fate)}

theorem configMap_mutate (f : Mutation) (m : Marker) :
    configMap (f.mutate (markerFromConfigMap (configMap m))) = configMap (f.mutate m) := by
  cases f <;> simp [Mutation.mutate, markerFromConfigMap, configMap, intercalate_splitHosts]

/-- `s` holds what the cluster stores of the marker. -/
def Server.Of (s : Server) (c : Cluster) (id : String) : Prop :=
  ∃ v, c.markers.lookup id = some v ∧ s.stored = ⟨v.version, configMap v.value⟩

/-- The write of `updateMarker` with a copy that it has read is an `update` here, and returns nil
    exactly when it does. -/
theorem Server.Of.update {c : Cluster} {id : String} (h : s.Of c id) {caller : Nat}
    {w : Versioned Marker} (hread : s.read caller = some ⟨w.version, configMap w.value⟩)
    (f : Mutation) (fate : Fate) :
    let r := serve c (.updateMarker id w.version (f.mutate w.value)) fate
    (step s (.update caller f fate)).1.Of r.2 id ∧
      (r.1 = .ok () ↔ (step s (.update caller f fate)).2 = [(f, .through)]) := by
  obtain ⟨v, hv, hstored⟩ := h
  have hsame : w.version ≠ v.version ↔ v.version ≠ w.version := ne_comm
  cases fate <;> by_cases hversion : v.version = w.version <;>
    simp [Server.Of, step, hread, serve, Cluster.handle, Objects.update, hv, hstored, hversion, hsame,
      configMap_mutate]

structure Inv (initial : Marker) (s : Server) (calls : List (Mutation × Fate)) : Prop where
  stored : s.stored.value = configMap (applied (· ≠ .refused) calls initial)
  read : ∀ i cm, s.read i = some cm →
    cm.version ≤ s.stored.version ∧ (cm.version = s.stored.version → cm = s.stored)

theorem Inv.step (h : Inv initial s calls) (e : Event) :
    Inv initial (step s e).1 (calls ++ (step s e).2) := by
  cases e with
  | get caller =>
    refine ⟨h.stored.trans (by simp [MarkerUpdates.step]), fun i cm hi => ?_⟩
    by_cases hcaller : i = caller
    · have hcm : s.stored = cm := by simpa [MarkerUpdates.step, hcaller] using hi
      exact hcm ▸ ⟨Nat.le_refl _, fun _ => rfl⟩
    · exact h.read i cm (by simpa [MarkerUpdates.step, hcaller] using hi)
  | update caller f fate =>
    rw [MarkerUpdates.step]
    cases hread : s.read caller with
    | none => simpa using h
    | some cm =>
      dsimp only
      split
      · refine ⟨h.stored.trans (by simp [applied]), fun i cm' hi => ?_⟩
        exact h.read i cm' (Proc.of_update_none hi).2
      rename_i hfresh
      obtain ⟨hsent, hversion⟩ := not_or.mp hfresh
      obtain rfl := (h.read caller cm hread).2 (not_not.mp hversion)
      refine ⟨?_, fun i cm' hi => ?_⟩
      · rw [h.stored, configMap_mutate]
        simp [applied, hsent]
      · have hle := (h.read i cm' (Proc.of_update_none hi).2).1
        exact ⟨Nat.le_succ_of_le hle, fun heq => absurd heq (by simp; omega)⟩

/-- **No update is lost.**  What is stored is the initial marker with the mutations of the
    accepted writes, in the order of the writes, and it reads back as that marker.  The
    accepted writes are the calls that returned nil, unless the answer to one was lost.  A
    rejected write changes nothing. -/
theorem stored_marker (initial : Marker) (events : List Event) :
    let r := run step (Server.init initial) events
    let m := applied (· ≠ .refused) r.2 initial
    r.1.stored.value = configMap m ∧
      ((∀ h ∈ m.hosts, ',' ∉ h.toList) → m.hosts ≠ [""] →
        markerFromConfigMap r.1.stored.value = m) ∧
      ((∀ c ∈ r.2, c.2 ≠ .lost) → m = applied (· = .through) r.2 initial) ∧
      ∀ e f, (f, .refused) ∈ (step r.1 e).2 → (step r.1 e).1.stored = r.1.stored := by
  intro r m
  have hinit : Inv initial (Server.init initial) [] := ⟨rfl, nofun⟩
  have hinv : Inv initial r.1 r.2 :=
    run_preserves (Inv initial) (fun s out e h => h.step e) events hinit
  refine ⟨hinv.stored, fun hcomma hempty => ?_, fun hlost => ?_, fun e f hf => ?_⟩
  · rw [hinv.stored, markerFromConfigMap, configMap]
    dsimp only
    rw [splitHosts_intercalate hcomma hempty]
  · show applied _ _ _ = applied _ _ _
    rw [applied, applied]
    congr 1
    refine filter_congr fun c hc => ?_
    have hkept := hlost c hc
    cases hfate : c.2 <;> simp_all
  · cases e with
    | get caller => rfl
    | update caller g fate =>
      revert hf
      rw [step]
      split
      · simp
      dsimp only
      split
      · exact fun _ => rfl
      · rename_i hfresh
        intro hf
        exact absurd (Prod.mk.inj (mem_singleton.mp hf)).2.symm (not_or.mp hfresh).1

/-- A write that lands and is answered with an error: the call fails, and the marker has changed. -/
theorem lost_answer_stored :
    let web : Marker := ⟨["web.localhost"], "web-00001", "", .auto⟩
    let r := run step (Server.init web) [.get 0, .update 0 (.lastReady "web-00001") .lost]
    r.2 = [(.lastReady "web-00001", .lost)] ∧ applied (· = .through) r.2 web = web ∧
      markerFromConfigMap r.1.stored.value = { web with lastReady := "web-00001" } := by
  refine ⟨rfl, rfl, ?_⟩
  decide

end Orchestrator.Deployment.MarkerUpdates

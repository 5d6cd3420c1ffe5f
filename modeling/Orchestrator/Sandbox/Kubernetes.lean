/-
  Orchestrator.Sandbox.Kubernetes

  Sandboxes on Kubernetes.  A sandbox is a claimed pod: its id is the claim id of the pod,
  and its token is one of the labels.  `Create` looks for pods of the id, then claims a
  warm pod or creates one and claims that; `Delete` deletes the pods of the id.

  The look and the reservation are two calls, and a claim that goes on to another pod
  may leave the one before as it is.  `troubles` are the four things that make two live
  pods of one id possible; a run without them has at most one.
-/

import Orchestrator.Warm.Reservation

namespace Orchestrator.Sandbox

open Lib Lib.Proc Lib.Machine Warm

/-! ## Creating and deleting sandboxes -/

/-- The `Orchestrator`: the configured pools, the claim token of a pod's name, and how long a
    sandbox is waited for. -/
structure Backend where
  pools : List Pool
  token : String → String
  serveWait : String

/-- `naming`. -/
def Backend.warm (o : Backend) : Manager :=
  ⟨"sandbox-service", "sandbox.pool", "sandbox.id", "sbx", o.token⟩

/-- What of a request `Create` reads; the service has given it an id. -/
structure Request where
  id : String
  pool : String
  token : String
  named : id ≠ ""

/-- `claimRequest`, with the labels of the binding. -/
def claimRequest (o : Backend) (req : Request) : Warm.Request o.warm where
  claimID := req.id
  labels := (∅ : Labels).insert "sandbox.token" req.token
  named := req.named
  apart := by
    change ((∅ : Labels).insert "sandbox.token" req.token).lookup "sandbox.id" = none
    rw [AList.lookup_insert_ne (by decide)]
    rfl

/-- How the wait for a sandbox to serve ends. -/
inductive Wait where
  | serving
  | late
  | broken
deriving DecidableEq, Repr

inductive State where
  | ready
  | failed
deriving DecidableEq, Repr

/-- `Status`; there is a URL only where there is a token. -/
structure Status where
  id : String
  poolID : String
  token : Option String
  state : State
  error : String
deriving DecidableEq, Repr

inductive Outcome where
  | status (st : Status)
  | conflict (message : String)
  | notFound (id : String)
  | failed (e : ClaimError)
  | cancelled
  | deleted
  | done
deriving DecidableEq, Repr

/-- `warm.Delete`: a pod that is gone already is no error. -/
def deletePod (name : String) : Prog (Except ClaimError Unit) := do
  match ← request (.deletePod name) with
  | .ok _ => return .ok ()
  | .error .notFound => return .ok ()
  | .error _ => return .error (.internal "kubernetes.deletePod")

def awaitServing (o : Backend) (req : Request) (poolID podName : String) : Wait → Prog Outcome
  | .serving => return .status ⟨req.id, poolID, some req.token, .ready, ""⟩
  | .late => do
    match ← deletePod podName with
    | .ok _ =>
      return .status ⟨req.id, poolID, none, .failed,
        "workload not serving within " ++ o.serveWait⟩
    | .error e =>
      let _ ← deletePod podName
      return .failed e
  | .broken => do
    let _ ← deletePod podName
    return .cancelled

/-- A pod for the sandbox: out of its pool, or one of its own. -/
def acquire (o : Backend) (pool : Option Pool) (rounds caller : Nat) (req : Request) :
    Prog (Except ClaimError (Option Pod)) := do
  match pool with
  | none => return (← createClaimed o.warm req.id rounds caller (claimRequest o req)).map some
  | some p =>
    match ← claimWarm o.warm p rounds caller (claimRequest o req) with
    | (byName, .ok unit) => return .ok (byName.lookup unit.id)
    -- an exhausted pool does not fail the request
    | (_, .error (.exhausted _)) =>
      return (← createClaimed o.warm req.id rounds caller (claimRequest o req)).map some
    | (_, .error e) => return .error e

def create (o : Backend) (rounds caller : Nat) (wait : Wait) (req : Request) : Prog Outcome := do
  let pool := o.pools.find? fun p => p.id = req.pool
  let poolID := (pool.map Pool.id).getD ""
  match ← claimedPods o.warm req.id with
  | .error e => return .failed e
  | .ok (_ :: _) => return .conflict ("sandbox " ++ req.id ++ " already exists")
  | .ok [] =>
    match ← acquire o pool rounds caller req with
    | .error (.poison _ message) => return .status ⟨req.id, poolID, none, .failed, message⟩
    | .error e => return .failed e
    | .ok pod => awaitServing o req poolID ((pod.map Pod.name).getD "") wait

/-- The loop of `Delete`. -/
def deletePods : List Pod → Prog Outcome
  | [] => return .deleted
  | pod :: rest => do
    match ← deletePod pod.name with
    | .ok _ => deletePods rest
    | .error e => return .failed e

def delete (o : Backend) (id : String) : Prog Outcome := do
  match ← claimedPods o.warm id with
  | .error e => return .failed e
  | .ok [] => return .notFound id
  | .ok (pod :: rest) => deletePods (pod :: rest)

inductive Job where
  | create (caller rounds : Nat) (wait : Wait) (req : Request)
  /-- By a client, or by the reaper of idle sandboxes. -/
  | delete (id : String)
  | replenish (poolID : String)
  | discard (name : String)
  | updateStatus (name podIP : String) (ready : Bool)
  | remove (name : String)

def Job.creates : Job → Option String
  | .create _ _ _ req => some req.id
  | _ => none

def program (o : Backend) : Job → Prog Outcome
  | .create caller rounds wait req => create o rounds caller wait req
  | .delete id => delete o id
  | .replenish poolID => do
    let _ ← createPod o.warm poolID
    return .done
  | .discard name => do
    let _ ← request (.deletePod name)
    return .done
  | .updateStatus name podIP ready => do
    let _ ← request (.updateStatus name podIP ready)
    return .done
  | .remove name => do
    let _ ← request (.removePod name)
    return .done

abbrev SandboxWorld := World Cluster Job Call Reply Outcome

def step (o : Backend) (w : SandboxWorld) (e : Happens Job Fate) :
    SandboxWorld × List (Returned Job Outcome) :=
  World.step serve (program o) w e

/-! ## One pod for an id -/

/-- The pod is claimed for the sandbox and is not being deleted. -/
structure Live (id : String) (pod : Pod) : Prop where
  managed : pod.labels.lookup "managed-by" = some "sandbox-service"
  claimed : pod.labels.lookup "sandbox.id" = some id
  stays : pod.deleting = false

def LiveAt (s : Cluster) (id name : String) : Prop :=
  ∃ pod, s.pods.lookup name = some pod ∧ Live id pod

/-- At most one live pod is claimed for the sandbox. -/
def Single (s : Cluster) (id : String) : Prop :=
  ∀ name name', LiveAt s id name → LiveAt s id name' → name = name'

def Named (s : Cluster) : Prop := ∀ name pod, s.pods.lookup name = some pod → pod.name = name

/-- What an id can get a second pod by. -/
inductive Trouble where
  /-- Two creations of the id are under way at once. -/
  | overlap
  /-- A reservation is made, and the answer is an error. -/
  | lostPatch
  /-- The sidecar of a reserved pod answers that it has taken another claim. -/
  | sidecarConflict
  | discardFails
deriving DecidableEq, Repr

/-- The trouble that the fate of a call is. -/
def callTroubles : Call → Fate → List Trouble
  | .patchPod _ _ _ _, .lost _ => [.lostPatch]
  | .post _ _ _ _ _, .answer (.error .conflict) => [.sidecarConflict]
  | .deletePod _, .refused _ => [.discardFails]
  | _, _ => []

def busy (w : SandboxWorld) (id : String) : Bool :=
  (List.range w.next).any fun i => (w.running i).bind (fun r => r.task.creates) = some id

def troubles (w : SandboxWorld) : Happens Job Fate → List Trouble
  | .start job =>
    match job.creates with
    | some id => if busy w id then [.overlap] else []
    | none => []
  | .advance i f =>
    match w.running i with
    | some ⟨task, _, .call k _⟩ => if task.creates.isSome then callTroubles k f else []
    | _ => []
  | .stop _ => []

/-- The event is in no trouble but those of `A`. -/
def Only (A : Trouble → Prop) (w : SandboxWorld) (e : Happens Job Fate) : Prop :=
  ∀ t ∈ troubles w e, A t

instance (A : Trouble → Prop) [DecidablePred A] (w : SandboxWorld) (e : Happens Job Fate) :
    Decidable (Only A w e) :=
  inferInstanceAs (Decidable (∀ t ∈ troubles w e, A t))

/-- Whatever the pools, the runs whose troubles are those of `A` keep one live pod for an id. -/
def KeepsSingle (A : Trouble → Prop) : Prop :=
  ∀ (o : Backend) (s : Cluster), Named s → (∀ id, Single s id) → ∀ events : List (Happens Job Fate),
    Along (Only A) (step o) (World.init s) events →
      ∀ id, Single (run (step o) (World.init s) events).1.state id

/-! ## What calls do to live pods -/

/-- No pod becomes live under the id. -/
def Fewer (s s' : Cluster) (id : String) : Prop := ∀ name, LiveAt s' id name → LiveAt s id name

theorem Single.fewer {s s' : Cluster} {id : String} (h : Single s id) (hless : Fewer s s' id) :
    Single s' id :=
  fun name name' hlive hlive' => h name name' (hless name hlive) (hless name' hlive')

/-- A pod that is stored is live where it was, or as it is now. -/
theorem live_put {s : Cluster} {pod : Pod} {nextUid : Nat} {notes : List Note} {id name : String}
    (h : LiveAt { s.put pod with nextUid, notes } id name) :
    (name = pod.name ∧ Live id pod) ∨ (name ≠ pod.name ∧ LiveAt s id name) := by
  obtain ⟨p, hp, hlive⟩ := h
  change (s.put pod).pods.lookup name = some p at hp
  rw [lookup_put] at hp
  split at hp
  · rename_i hname
    cases hp
    exact .inl ⟨hname, hlive.managed, hlive.claimed, hlive.stays⟩
  · rename_i hname
    exact .inr ⟨hname, p, hp, hlive⟩

theorem Named.put {s : Cluster} (h : Named s) (pod : Pod) (nextUid : Nat) (notes : List Note) :
    Named { s.put pod with nextUid, notes } := by
  intro name p hp
  change (s.put pod).pods.lookup name = some p at hp
  rw [lookup_put] at hp
  split at hp
  · rename_i hname
    cases hp
    exact hname.symm
  · exact h name p hp

/-- Calls that claim no pod. -/
def Calm : Call → Prop
  | .patchPod _ _ _ _ => False
  | .createPod _ labels => labels.lookup "sandbox.id" = none
  | _ => True

def Quiet (s s' : Cluster) : Prop := Named s → Named s' ∧ ∀ id, Fewer s s' id

theorem Quiet.refl (s : Cluster) : Quiet s s := fun h => ⟨h, fun _ _ hlive => hlive⟩

theorem quiet_change (s : Cluster) (name : String) {f : Pod → Pod}
    (hname : ∀ pod, (f pod).name = pod.name) (hlive : ∀ id pod, Live id (f pod) → Live id pod) :
    Quiet s (s.change name f).2 := by
  intro hs
  rw [Cluster.change]
  split
  · rename_i pod hpod
    refine ⟨hs.put _ _ _, ?_⟩
    intro id name' h
    rcases live_put h with ⟨rfl, hnew⟩ | ⟨-, hold⟩
    · refine ⟨pod, ?_, hlive id pod hnew⟩
      rw [hname, hs name pod hpod]
      exact hpod
    · exact hold
  · exact Quiet.refl s hs

theorem quiet_handle (s : Cluster) {k : Call} (hk : Calm k) : Quiet s (s.handle k).2 := by
  cases k with
  | patchPod caller name version labels => exact hk.elim
  | createPod name labels =>
    rw [Cluster.handle, Cluster.create]
    split
    · exact Quiet.refl s
    intro hs
    refine ⟨hs.put _ _ _, ?_⟩
    intro id name' h
    rcases live_put h with ⟨-, hnew⟩ | ⟨-, hold⟩
    · have hclaimed := hnew.claimed
      rw [hk] at hclaimed
      cases hclaimed
    · exact hold
  | deletePod name =>
    exact quiet_change s name (fun _ => rfl) fun id pod h => by cases h.stays
  | updateStatus name podIP ready =>
    exact quiet_change s name (fun _ => rfl) fun id pod h => ⟨h.managed, h.claimed, h.stays⟩
  | removePod name =>
    intro hs
    refine ⟨fun name' pod hpod => hs name' pod (lookup_removePod hpod), ?_⟩
    rintro id name' ⟨pod, hpod, hlive⟩
    exact ⟨pod, lookup_removePod hpod, hlive⟩
  | listPods selector | getPod name | randHex | post caller unit addr token claimID =>
    exact Quiet.refl s

theorem quiet_serve (s : Cluster) {k : Call} (hk : Calm k) (f : Fate) :
    Quiet s (serve s k f).2 := by
  cases k with
  | randHex => cases f <;> exact Quiet.refl s
  | post caller unit addr token claimID => exact Quiet.refl s
  | _ =>
    cases f with
    | refused e => exact Quiet.refl s
    | _ => exact quiet_handle s hk

/-! ## Programs -/

/-- The one who creates a sandbox relies on the others not to claim pods for it, and claims none
    for another one. -/
def terms (creates : Option String) : Contract Cluster Call Fate where
  rely s s' := Named s → Named s' ∧ ∀ id ∈ creates, Fewer s s' id
  allowed _ _ k f := creates.isSome → callTroubles k f = []
  guar s s' := Named s → Named s' ∧ (∀ id, id ∉ creates → Fewer s s' id) ∧
    ∀ id ∈ creates, Single s id → Single s' id

theorem terms_lawful (creates : Option String) : (terms creates).Lawful := by
  refine ⟨fun s hs => ⟨hs, fun _ _ _ hlive => hlive⟩, ?_⟩
  intro s s' s'' h h' hs
  obtain ⟨hs', hless⟩ := h hs
  obtain ⟨hs'', hless'⟩ := h' hs'
  exact ⟨hs'', fun id hid name hlive => hless id hid name (hless' id hid name hlive)⟩

theorem Quiet.guar {s s' : Cluster} (h : Quiet s s') (creates : Option String) :
    (terms creates).guar s s' := by
  intro hs
  obtain ⟨hs', hless⟩ := h hs
  exact ⟨hs', fun id _ => hless id, fun id _ hsingle => hsingle.fewer (hless id)⟩

/-- The program keeps to the terms, and returns in `Q`. -/
def Steady (creates : Option String) {α : Type} (Q : α → Cluster → Prop) (p : Prog α)
    (log : List Call) (s : Cluster) : Prop :=
  Safe serve (terms creates) (fun _ a s' => Q a s') p log s

section

variable {creates : Option String} {α β : Type} {Q : α → Cluster → Prop} {p : Prog α}
  {log : List Call} {s : Cluster}

theorem Steady.bind {g : α → Prog β} {R : β → Cluster → Prop} (h : Steady creates Q p log s)
    (hg : ∀ log a s, Q a s → Steady creates R (g a) log s) :
    Steady creates R (p >>= g) log s :=
  Safe.bind h hg

theorem steady_return {a : α} (h : Q a s) : Steady creates Q (pure a) log s := h

/-- What neither the others nor a calm call can spoil. -/
def Stable (creates : Option String) (I : Cluster → Prop) : Prop :=
  ∀ s s', (terms creates).rely s s' → I s → I s'

theorem Quiet.rely {s s' : Cluster} (h : Quiet s s') (creates : Option String) :
    (terms creates).rely s s' :=
  fun hs => ⟨(h hs).1, fun id _ => (h hs).2 id⟩

theorem steady_calm {I : Cluster → Prop} (hI : Stable creates I) (hs : I s) {k : Call}
    {g : Reply k → Prog α} (hk : Calm k) (hg : ∀ log r s, I s → Steady creates Q (g r) log s) :
    Steady creates Q (request k >>= g) log s := by
  intro s' hrely f _
  have hquiet := quiet_serve s' hk f
  exact ⟨hquiet.guar creates, hg _ _ _ (hI _ _ (hquiet.rely creates) (hI _ _ hrely hs))⟩

end

structure Clear (id : String) (s : Cluster) : Prop where
  named : Named s
  none : ∀ name, ¬ LiveAt s id name

/-- No pod but the one under the name is live under the id. -/
structure Sole (id name : String) (s : Cluster) : Prop where
  named : Named s
  only : ∀ name', LiveAt s id name' → name' = name

section

variable {id name : String} {s s' : Cluster}

theorem stable_clear (id : String) : Stable (some id) (Clear id) := by
  intro s s' hrely h
  obtain ⟨hs', hless⟩ := hrely h.named
  exact ⟨hs', fun name hlive => h.none name (hless id rfl name hlive)⟩

theorem stable_sole (id name : String) : Stable (some id) (Sole id name) := by
  intro s s' hrely h
  obtain ⟨hs', hless⟩ := hrely h.named
  exact ⟨hs', fun name' hlive => h.only name' (hless id rfl name' hlive)⟩

theorem stable_named (creates : Option String) : Stable creates Named :=
  fun _ _ hrely h => (hrely h).1

theorem Clear.sole (h : Clear id s) (name : String) : Sole id name s :=
  ⟨h.named, fun name' hlive => absurd hlive (h.none name')⟩

theorem Sole.single (h : Sole id name s) : Single s id :=
  fun name' name'' hlive hlive' => (h.only name' hlive).trans (h.only name'' hlive').symm

/-- A pod has been reserved under the name, or none is live. -/
def Taken (id name : String) {ε α : Type} : Except ε α → Cluster → Prop
  | .ok _, s => Sole id name s
  | .error _, s => Clear id s

theorem Taken.sole {ε α : Type} {r : Except ε α} (h : Taken id name r s) : Sole id name s := by
  cases r with
  | ok a => exact h
  | error e => exact Clear.sole h name

/-- A reservation: the pod under the name, and what is returned is that pod. -/
def Reserved (id name : String) {ε : Type} (r : Except ε Pod) (s : Cluster) : Prop :=
  Taken id name r s ∧ ∀ bound, r = .ok bound → bound.name = name

theorem reserved_error {ε : Type} {e : ε} (h : Clear id s) : Reserved id name (.error e) s :=
  ⟨h, nofun⟩

theorem patch_reserved (hs : Clear id s) (caller version : Nat) (name : String) {labels : Labels}
    (hlabels : labels.lookup "sandbox.id" = some id) :
    (∀ id', id' ≠ id → Fewer s (s.patch caller name version labels).2 id') ∧
      Reserved id name (s.patch caller name version labels).1
        (s.patch caller name version labels).2 := by
  have hmem : "sandbox.id" ∈ labels := AList.lookup_isSome.mp (by rw [hlabels]; rfl)
  rw [Cluster.patch]
  split
  · rename_i pod hpod
    split
    · have hname := hs.named name pod hpod
      refine ⟨?_, ⟨hs.named.put _ _ _, ?_⟩, ?_⟩
      · intro id' hne name' hlive
        rcases live_put hlive with ⟨-, hnew⟩ | ⟨-, hold⟩
        · have hclaimed := hnew.claimed
          change (labels ∪ pod.labels).lookup "sandbox.id" = some id' at hclaimed
          rw [AList.lookup_union_left hmem, hlabels] at hclaimed
          exact absurd (Option.some.inj hclaimed).symm hne
        · exact hold
      · intro name' hlive
        rcases live_put hlive with ⟨rfl, -⟩ | ⟨-, hold⟩
        · exact hname
        · exact absurd hold (hs.none name')
      · intro bound hbound
        cases hbound
        exact hname
    · exact ⟨fun _ _ _ hlive => hlive, reserved_error hs⟩
  · exact ⟨fun _ _ _ hlive => hlive, reserved_error hs⟩

/-- A reservation whose answer arrives. -/
theorem steady_patch (hs : Clear id s) {caller version : Nat} {labels : Labels}
    {log : List Call} (hlabels : labels.lookup "sandbox.id" = some id) :
    Steady (some id) (Reserved id name) (request (.patchPod caller name version labels)) log s := by
  intro s' hrely f hallowed
  have hs' := stable_clear id s s' hrely hs
  obtain ⟨hless, hres⟩ := patch_reserved hs' caller version name hlabels
  have hguar : (terms (some id)).guar s' (s'.patch caller name version labels).2 := by
    intro _
    refine ⟨hres.1.sole.named, ?_, ?_⟩
    · intro id' hid'
      exact hless id' fun heq => hid' (by rw [heq]; rfl)
    · intro id' hid' _
      cases hid'
      exact hres.1.sole.single
  cases f with
  | refused e => exact ⟨(Quiet.refl s').guar _, reserved_error hs'⟩
  | lost e => cases hallowed rfl
  | through | random text | answer r => exact ⟨hguar, hres⟩

theorem steady_discard (hs : Sole id name s) {log : List Call} :
    Steady (some id) (fun _ s => Clear id s) (request (.deletePod name)) log s := by
  intro s' hrely f hallowed
  have hs' := stable_sole id name s s' hrely hs
  have hquiet := quiet_serve s' (k := .deletePod name) trivial f
  have hgone : Clear id (s'.handle (.deletePod name)).2 := by
    obtain ⟨hnamed, hless⟩ := quiet_handle s' (k := .deletePod name) trivial hs'.named
    refine ⟨hnamed, ?_⟩
    intro name' hlive
    obtain rfl := hs'.only name' (hless id name' hlive)
    obtain ⟨pod, hpod, -⟩ := hless id name' hlive
    rw [Cluster.handle, Cluster.change, hpod] at hlive
    rcases live_put hlive with ⟨-, hnew⟩ | ⟨hne, -⟩
    · cases hnew.stays
    · exact hne (hs'.named name' pod hpod).symm
  refine ⟨hquiet.guar _, ?_⟩
  cases f with
  | refused e => cases hallowed rfl
  | lost e | through | random text | answer r => exact hgone

end

/-! ## Claims of a creation -/

section

variable {o : Backend} {id : String} {req : Warm.Request o.warm} {caller : Nat} {log : List Call}
  {s : Cluster}

theorem stamp_lookup (req : Warm.Request o.warm) :
    (stamp o.warm req).lookup "sandbox.id" = some req.claimID := by
  have hnot : "sandbox.id" ∉ req.labels := AList.lookup_eq_none.mp req.apart
  rw [stamp, AList.lookup_union_right hnot]
  exact AList.lookup_insert _

theorem steady_attempts (hreq : req.claimID = id) (hs : Clear id s) (name : String) (n : Nat)
    (candidate : Pod) :
    Steady (some id) (Reserved id name) (attempts o.warm caller req name n candidate) log s := by
  have hlabels : (stamp o.warm req).lookup "sandbox.id" = some id := by
    rw [stamp_lookup, hreq]
  induction n generalizing candidate log s with
  | zero => exact reserved_error hs
  | succ n ih =>
    refine (steady_patch hs hlabels).bind ?_
    rintro log r s ⟨htaken, hname⟩
    cases r with
    | ok bound => exact ⟨htaken, fun b hb => hname bound rfl ▸ by cases hb; rfl⟩
    | error e =>
      cases e with
      | conflict =>
        refine steady_calm (stable_clear id) htaken trivial ?_
        intro log r s hs
        cases r with
        | ok latest =>
          simp only
          split
          · exact ih hs latest
          · exact reserved_error hs
        | error e =>
          cases e with
          | conflict => exact ih hs candidate
          | _ => exact reserved_error hs
      | _ => exact reserved_error htaken

def Tabled (byName : ByName) : Prop := ∀ name pod, byName.lookup name = some pod → pod.name = name

theorem tabled_empty : Tabled ∅ := nofun

variable {byName : ByName}

theorem Tabled.insert (h : Tabled byName) {name : String} {pod : Pod} (hname : pod.name = name) :
    Tabled (byName.insert name pod) := by
  intro name' pod' hpod'
  rcases Objects.lookup_insert_cases hpod' with ⟨rfl, rfl⟩ | ⟨-, hold⟩
  · exact hname
  · exact h name' pod' hold

theorem Tabled.foldl (h : Tabled byName) (pods : List Pod) :
    Tabled (pods.foldl (fun t pod => t.insert pod.name pod) byName) := by
  induction pods generalizing byName with
  | nil => exact h
  | cons pod pods ih => exact ih (h.insert rfl)

section

variable (hreq : req.claimID = id) (hs : Clear id s) (hby : Tabled byName)
include hreq hs hby

theorem steady_reserveUnit (unit : WarmUnit) :
    Steady (some id) (fun r s => Tabled r.1 ∧ Taken id unit.id r.2 s)
      (reserveUnit o.warm caller req byName unit) log s := by
  rw [reserveUnit]
  cases hpod : byName.lookup unit.id with
  | none => exact ⟨hby, hs⟩
  | some pod =>
    have hname := hby unit.id pod hpod
    refine (steady_attempts hreq hs pod.name 5 pod).bind ?_
    rintro log r s ⟨htaken, hbound⟩
    rw [hname] at htaken hbound
    cases r with
    | error e => exact ⟨hby, htaken⟩
    | ok bound => exact ⟨hby.insert (hbound bound rfl), htaken⟩

theorem steady_claimUnit (unit : WarmUnit) :
    Steady (some id) (fun r s => Tabled r.1 ∧ Taken id unit.id r.2 s)
      (claimUnit o.warm caller req byName unit) log s := by
  refine (steady_reserveUnit hreq hs hby unit).bind ?_
  rintro log ⟨byName', r⟩ s ⟨hby', htaken⟩
  cases r with
  | error e => exact ⟨hby', htaken⟩
  | ok u =>
    -- no sidecar answers that it has taken another claim
    have hpost : Steady (some id) (fun r s => Sole id unit.id s ∧ r ≠ .error .conflict)
        (request (.post caller unit.id unit.addr unit.token req.claimID)) log s := by
      intro s' hrely f hallowed
      have hquiet := quiet_serve s'
        (k := .post caller unit.id unit.addr unit.token req.claimID) trivial f
      have hsole := stable_sole id unit.id s s' hrely htaken
      refine ⟨hquiet.guar _, stable_sole id unit.id _ _ (hquiet.rely _) hsole, ?_⟩
      intro hconflict
      change sidecarAnswer f = .error .conflict at hconflict
      cases f with
      | answer r =>
        change r = .error .conflict at hconflict
        subst hconflict
        cases hallowed rfl
      | _ => cases hconflict
    refine hpost.bind ?_
    rintro log r s ⟨hsole, hne⟩
    cases r with
    | ok u => exact ⟨hby', hsole⟩
    | error e =>
      cases e with
      | conflict => exact absurd rfl hne
      | _ =>
        have hdiscard : Steady (some id) (fun _ s => Clear id s) (discard unit) log s :=
          (steady_discard hsole).bind fun _ _ _ hclear => steady_return hclear
        exact hdiscard.bind fun _ _ _ hclear => steady_return ⟨hby', hclear⟩

def Passed (id : String) (r : ByName × Tried) (s : Cluster) : Prop :=
  Tabled r.1 ∧
    match r.2 with
    | .won unit => Sole id unit.id s
    | _ => Clear id s

theorem steady_tryUnits (units : List WarmUnit) :
    Steady (some id) (Passed id) (tryUnits o.warm caller req byName units) log s := by
  induction units generalizing byName log s with
  | nil => exact ⟨hby, hs⟩
  | cons unit rest ih =>
    refine (steady_claimUnit hreq hs hby unit).bind ?_
    rintro log ⟨byName', r⟩ s ⟨hby', htaken⟩
    cases r with
    | ok u => exact ⟨hby', htaken⟩
    | error e =>
      cases e with
      | poison _ message => exact ⟨hby', htaken⟩
      | _ => exact ih htaken hby'

theorem steady_tryWarm (pool : Pool) :
    Steady (some id) (Passed id) (tryWarm o.warm pool caller req byName) log s := by
  have hfree : Steady (some id) (fun r s => Tabled r.1 ∧ Clear id s) (free o.warm pool byName)
      log s := by
    refine steady_calm (stable_clear id) hs trivial ?_
    intro log r s hs
    cases r with
    | error e => exact ⟨hby, hs⟩
    | ok pods => exact ⟨hby.foldl _, hs⟩
  refine hfree.bind ?_
  rintro log ⟨byName', r⟩ s ⟨hby', hs⟩
  cases r with
  | error e => exact ⟨hby', hs⟩
  | ok units => exact steady_tryUnits hreq hs hby' units

end

theorem calm_createPod (name poolID : String) :
    Calm (.createPod name (poolLabels o.warm poolID)) := by
  change (poolLabels o.warm poolID).lookup "sandbox.id" = none
  rw [poolLabels]
  change ((_ : Labels).insert "sandbox.pool" poolID).lookup "sandbox.id" = none
  rw [AList.lookup_insert_ne (by decide), AList.lookup_insert_ne (by decide)]
  rfl

section

variable {creates : Option String} {I : Cluster → Prop} (hI : Stable creates I) (hs : I s)
include hI hs

theorem steady_createPod (poolID : String) :
    Steady creates (fun _ s => I s) (createPod o.warm poolID) log s := by
  refine steady_calm hI hs trivial ?_
  intro log r s hs
  cases r with
  | error e => exact hs
  | ok suffix =>
    refine steady_calm hI hs (calm_createPod _ poolID) ?_
    intro log r s hs
    cases r <;> exact hs

theorem steady_awaitClaimable (name : String) (rounds : Nat) :
    Steady creates (fun _ s => I s) (awaitClaimable o.warm name rounds) log s := by
  have hpoll : ∀ rest, (∀ log s, I s → Steady creates (fun _ s => I s) rest log s) →
      ∀ log s, I s → Steady creates (fun _ s => I s) (pollPod o.warm name rest) log s := by
    intro rest hrest log s hs
    refine steady_calm hI hs trivial ?_
    intro log r s hs
    cases r with
    | error e => exact hs
    | ok pod =>
      simp only
      split
      · exact hs
      · exact hrest log s hs
  induction rounds generalizing log s with
  | zero => exact hpoll (return _) (fun _ _ h => steady_return h) log s hs
  | succ n ih => exact hpoll _ (fun _ _ h => ih h) log s hs

theorem steady_createClaimable (poolID : String) (rounds : Nat) :
    Steady creates (fun _ s => I s) (createClaimable o.warm poolID rounds) log s := by
  refine (steady_createPod hI hs poolID).bind ?_
  intro log r s hs
  cases r with
  | error e => exact hs
  | ok created =>
    refine (steady_awaitClaimable hI hs created.name rounds).bind ?_
    intro log r s hs
    cases r with
    | ok pod => exact hs
    | error e => exact steady_calm hI hs trivial fun _ _ _ h => h

theorem steady_deletePod (name : String) :
    Steady creates (fun _ s => I s) (deletePod name) log s := by
  refine steady_calm hI hs trivial ?_
  intro log r s hs
  cases r with
  | ok u => exact hs
  | error e => cases e <;> exact hs

theorem steady_awaitServing (req : Request) (poolID podName : String) (wait : Wait) :
    Steady creates (fun _ s => I s) (awaitServing o req poolID podName wait) log s := by
  cases wait with
  | serving => exact hs
  | late =>
    refine (steady_deletePod hI hs podName).bind ?_
    intro log r s hs
    cases r with
    | ok u => exact hs
    | error e => exact (steady_deletePod hI hs podName).bind fun _ _ _ h => steady_return h
  | broken => exact (steady_deletePod hI hs podName).bind fun _ _ _ h => steady_return h

end

def Claimed (id : String) {α : Type} : Except ClaimError α → Cluster → Prop
  | .ok _, s => Named s
  | .error _, s => Clear id s

theorem steady_claimCold (hreq : req.claimID = id) (hs : Clear id s) (hby : Tabled byName)
    (pool : Pool) (rounds : Nat) :
    Steady (some id) (fun r s => Claimed id r.2 s)
      (claimCold o.warm pool rounds caller req byName) log s := by
  have hunit : Steady (some id) (fun r s => Tabled r.1 ∧ Clear id s)
      (createUnit o.warm pool rounds byName) log s := by
    refine (steady_createClaimable (stable_clear id) hs pool.id rounds).bind ?_
    intro log r s hs
    cases r with
    | error e => exact ⟨hby, hs⟩
    | ok pod => exact ⟨hby.insert rfl, hs⟩
  refine hunit.bind ?_
  rintro log ⟨byName', r⟩ s ⟨hby', hs⟩
  cases r with
  | error e => exact hs
  | ok created =>
    refine (steady_claimUnit hreq hs hby' created).bind ?_
    rintro log ⟨byName'', r⟩ s ⟨hby'', htaken⟩
    cases r with
    | ok u => exact htaken.named
    | error e =>
      cases e with
      | conflict =>
        refine (steady_tryWarm hreq htaken hby'' pool).bind ?_
        rintro log ⟨byName3, t⟩ s ⟨-, ht⟩
        cases t with
        | won unit => exact ht.named
        | failed e | noneFree => exact ht
      | _ => exact htaken

theorem steady_claimWarm (hreq : req.claimID = id) (hs : Clear id s) (pool : Pool)
    (rounds : Nat) :
    Steady (some id) (fun r s => Claimed id r.2 s)
      (claimWarm o.warm pool rounds caller req) log s := by
  refine (steady_tryWarm hreq hs tabled_empty pool).bind ?_
  rintro log ⟨byName, t⟩ s ⟨hby, ht⟩
  cases t with
  | won unit => exact ht.named
  | failed e => exact ht
  | noneFree =>
    simp only
    split
    · exact steady_claimCold hreq ht hby pool rounds
    · exact ht

theorem steady_createClaimed (hreq : req.claimID = id) (hs : Clear id s) (poolID : String)
    (rounds : Nat) :
    Steady (some id) (fun _ s => Named s) (createClaimed o.warm poolID rounds caller req) log s := by
  refine (steady_createClaimable (stable_clear id) hs poolID rounds).bind ?_
  intro log r s hs
  cases r with
  | error e => exact hs.named
  | ok pod =>
    refine (steady_attempts hreq hs pod.name 5 pod).bind ?_
    rintro log r s ⟨htaken, -⟩
    have hnamed := htaken.sole.named
    cases r with
    | error e => exact steady_calm (stable_named _) hnamed trivial fun _ _ _ h => h
    | ok bound =>
      refine steady_calm (stable_named _) hnamed trivial ?_
      intro log r s hnamed
      cases r with
      | ok u => exact hnamed
      | error e => exact steady_calm (stable_named _) hnamed trivial fun _ _ _ h => h

theorem steady_acquire (req : Request) (hs : Clear req.id s) (pool : Option Pool) (rounds : Nat) :
    Steady (some req.id) (fun _ s => Named s) (acquire o pool rounds caller req) log s := by
  have hid : (claimRequest o req).claimID = req.id := rfl
  have hown : ∀ log s, Clear req.id s → Steady (some req.id) (fun _ s => Named s)
      (do return (← createClaimed o.warm req.id rounds caller (claimRequest o req)).map some)
      log s := by
    intro log s hs
    refine (steady_createClaimed hid hs req.id rounds).bind ?_
    intro log r s hs
    exact steady_return hs
  cases pool with
  | none => exact hown log s hs
  | some p =>
    refine (steady_claimWarm hid hs p rounds).bind ?_
    rintro log ⟨byName, r⟩ s hr
    cases r with
    | ok unit => exact hr
    | error e =>
      cases e with
      | exhausted reason => exact hown log s hr
      | _ => exact hr.named

def podsOf (id : String) : List (String × String) :=
  [("managed-by", "sandbox-service"), ("sandbox.id", id)]

/-- Nothing is found where no pod is live. -/
theorem clear_of_matching (hs : Named s) (h : s.matching (podsOf id) = []) : Clear id s := by
  refine ⟨hs, ?_⟩
  rintro name ⟨pod, hpod, hlive⟩
  have hmem : pod ∈ s.matching (podsOf id) := by
    refine List.mem_filter.mpr ⟨List.mem_map.mpr ⟨⟨name, pod⟩, AList.mem_lookup_iff.mp hpod, rfl⟩, ?_⟩
    simp [podsOf, hlive.managed, hlive.claimed]
  rw [h] at hmem
  cases hmem

variable {creates : Option String}

theorem steady_claimedPods (hs : Named s) (id : String) :
    Steady creates (fun r s => Named s ∧ (r = .ok [] → Clear id s)) (claimedPods o.warm id) log s := by
  have hlist : Steady creates (fun r s => Named s ∧ (r = .ok [] → Clear id s))
      (request (.listPods (podsOf id))) log s := by
    intro s' hrely f _
    have hs' := (hrely hs).1
    have hquiet := quiet_serve s' (k := .listPods (podsOf id)) trivial f
    refine ⟨hquiet.guar creates, (hquiet hs').1, ?_⟩
    intro hempty
    have hclear : Except.ok (s'.matching (podsOf id)) =
        (.ok [] : Except ApiError (List Pod)) → Clear id s' :=
      fun h => clear_of_matching hs' (Except.ok.inj h)
    cases f with
    | refused e | lost e => cases hempty
    | through | random text | answer r => exact hclear hempty
  refine hlist.bind ?_
  rintro log r s ⟨hs, hclear⟩
  cases r with
  | error e => exact ⟨hs, nofun⟩
  | ok pods => exact ⟨hs, fun h => hclear (by cases h; rfl)⟩

theorem steady_create (hs : Named s) (rounds : Nat) (wait : Wait) (req : Request) :
    Steady (some req.id) (fun _ s => Named s) (create o rounds caller wait req) log s := by
  refine (steady_claimedPods hs req.id).bind ?_
  rintro log r s ⟨hs, hclear⟩
  cases r with
  | error e => exact hs
  | ok pods =>
    cases pods with
    | cons pod rest => exact hs
    | nil =>
      refine (steady_acquire req (hclear rfl) _ rounds).bind ?_
      intro log r s hs
      cases r with
      | ok pod => exact steady_awaitServing (stable_named _) hs req _ _ wait
      | error e => cases e <;> exact hs

theorem steady_delete (hs : Named s) (id : String) :
    Steady creates (fun _ s => Named s) (delete o id) log s := by
  have hall : ∀ pods log s, Named s → Steady creates (fun _ s => Named s) (deletePods pods) log s := by
    intro pods
    induction pods with
    | nil => exact fun _ _ hs => hs
    | cons pod rest ih =>
      intro log s hs
      refine (steady_deletePod (stable_named _) hs pod.name).bind ?_
      intro log r s hs
      cases r with
      | ok u => exact ih log s hs
      | error e => exact hs
  refine (steady_claimedPods hs id).bind ?_
  rintro log r s ⟨hs, -⟩
  cases r with
  | error e => exact hs
  | ok pods =>
    cases pods with
    | nil => exact hs
    | cons pod rest => exact hall (pod :: rest) log s hs

theorem steady_program (hs : Named s) (job : Job) :
    Steady job.creates (fun _ s => Named s) (program o job) log s := by
  cases job with
  | create caller rounds wait req => exact steady_create hs rounds wait req
  | delete id => exact steady_delete hs id
  | replenish poolID =>
    exact (steady_createPod (stable_named _) hs poolID).bind fun _ _ _ h => steady_return h
  | discard name | remove name | updateStatus name podIP ready =>
    exact steady_calm (stable_named _) hs trivial fun _ _ _ h => steady_return h

end

/-! ## Sandboxes side by side -/

section

variable {o : Backend} {w : SandboxWorld}

structure Inv (w : SandboxWorld) : Prop where
  held : World.Held serve (fun job : Job => terms job.creates) (fun _ _ s => Named s) w
  named : Named w.state
  single : ∀ id, Single w.state id
  numbered : w.Numbered

/-- Two jobs go together unless they create sandboxes under one id. -/
theorem compatible {job job' : Job} (h : ∀ id ∈ job'.creates, id ∉ job.creates) :
    Compatible serve (fun job : Job => terms job.creates) job job' := by
  intro s k f hguar hs
  obtain ⟨hs', hless, -⟩ := hguar hs
  exact ⟨hs', fun id hid => hless id (h id hid)⟩

theorem not_creates_of_not_busy (hw : w.Numbered) {id : String} (h : busy w id = false) {i : Nat}
    {r : Running Job Call Reply Outcome} (hrun : w.running i = some r) : id ∉ r.task.creates := by
  intro hid
  have hone := List.any_eq_false.mp h i (List.mem_range.mpr (hw i r hrun))
  rw [hrun] at hone
  exact hone (decide_eq_true hid)

theorem Inv.obeys (h : Inv w) {e : Happens Job Fate} (he : troubles w e = []) :
    w.Obeys serve (fun job : Job => terms job.creates) (fun _ _ s => Named s) (program o) e := by
  cases e with
  | stop i => trivial
  | advance i f =>
    intro task log k next hrun hcreates
    rw [troubles, hrun] at he
    simpa [hcreates] using he
  | start job =>
    refine ⟨steady_program h.named job, ?_⟩
    intro i r hrun
    have hapart : ∀ id ∈ job.creates, id ∉ r.task.creates := by
      intro id hid
      have hcreates : job.creates = some id := hid
      rw [troubles, hcreates] at he
      refine not_creates_of_not_busy h.numbered ?_ hrun
      cases hbusy : busy w id with
      | false => rfl
      | true =>
        simp only [hbusy, if_true] at he
        cases he
    exact ⟨compatible fun id hid hjob => hapart id hjob hid, compatible hapart⟩

theorem Inv.step (h : Inv w) {e : Happens Job Fate} (he : troubles w e = []) :
    Inv (step o w e).1 := by
  have hlaw : ∀ job : Job, (terms job.creates).Lawful := fun job => terms_lawful job.creates
  have hobeys := h.obeys (o := o) he
  have hstate : Named (Sandbox.step o w e).1.state ∧ ∀ id, Single (Sandbox.step o w e).1.state id := by
    rcases World.step_state serve (program o) w e with
      ⟨i, f, task, log, k, next, rfl, hrun, hstate⟩ | hsame
    · rw [Sandbox.step, hstate]
      obtain ⟨hnamed, hothers, hown⟩ := (h.held.call hlaw hrun hobeys).1 h.named
      refine ⟨hnamed, fun id => ?_⟩
      by_cases hid : id ∈ task.creates
      · exact hown id hid (h.single id)
      · exact (h.single id).fewer (hothers id hid)
    · rw [Sandbox.step, hsame]
      exact ⟨h.named, h.single⟩
  exact ⟨h.held.step hlaw hobeys, hstate.1, hstate.2, h.numbered.step serve (program o) e⟩

end

/-! ## Each trouble is enough -/

section

def poolBackend : Backend := ⟨[⟨"a", .reject⟩], fun name => name, "1m0s"⟩

def warmPod (name : String) (uid : Nat) : Pod :=
  ⟨name, uid, uid, poolLabels poolBackend.warm "a", false, "10.0.0.1", true⟩

def twoPods : Cluster :=
  ⟨((∅ : Objects Pod).insert "p" (warmPod "p" 0)).insert "q" (warmPod "q" 1), 2, 2, []⟩

theorem twoPods_lookup {name : String} {pod : Pod} (h : twoPods.pods.lookup name = some pod) :
    pod.name = name ∧ pod.labels.lookup "sandbox.id" = none := by
  rcases Objects.lookup_insert_cases h with ⟨rfl, rfl⟩ | ⟨-, hrest⟩
  · exact ⟨rfl, rfl⟩
  · rcases Objects.lookup_insert_cases hrest with ⟨rfl, rfl⟩ | ⟨-, hnone⟩
    · exact ⟨rfl, rfl⟩
    · cases hnone

theorem twoPods_single (id : String) : Single twoPods id := by
  rintro name name' ⟨pod, hpod, hlive⟩ -
  have hclaimed := hlive.claimed
  rw [(twoPods_lookup hpod).2] at hclaimed
  cases hclaimed

def createX (caller : Nat) (token : String) : Job :=
  .create caller 0 .serving ⟨"x", "a", token, by decide⟩

/-- A run of each trouble: two creations of one id that both look first, and one creation that
    goes on to the second pod and leaves the first one reserved. -/
def troubledRun : Trouble → List (Happens Job Fate)
  | .overlap =>
    [.start (createX 0 "s"), .start (createX 1 "t"), .advance 0 .through, .advance 1 .through,
      .advance 0 .through, .advance 0 .through, .advance 0 .through,
      .advance 1 .through, .advance 1 .through, .advance 1 .through]
  | .lostPatch =>
    [.start (createX 0 "s"), .advance 0 .through, .advance 0 .through, .advance 0 (.lost .failed),
      .advance 0 .through, .advance 0 .through]
  | .sidecarConflict =>
    [.start (createX 0 "s"), .advance 0 .through, .advance 0 .through, .advance 0 .through,
      .advance 0 (.answer (.error .conflict)), .advance 0 .through, .advance 0 .through]
  | .discardFails =>
    [.start (createX 0 "s"), .advance 0 .through, .advance 0 .through, .advance 0 .through,
      .advance 0 (.answer (.error (.other ""))), .advance 0 (.refused .failed),
      .advance 0 .through, .advance 0 .through]

theorem troubledRun_only (t : Trouble) :
    Along (Only (· = t)) (step poolBackend) (World.init twoPods) (troubledRun t) := by
  cases t <;> decide

theorem troubledRun_live (t : Trouble) :
    LiveAt (run (step poolBackend) (World.init twoPods) (troubledRun t)).1.state "x" "p" ∧
      LiveAt (run (step poolBackend) (World.init twoPods) (troubledRun t)).1.state "x" "q" := by
  cases t <;> exact ⟨⟨_, rfl, by decide, by decide, by decide⟩, ⟨_, rfl, by decide, by decide, by decide⟩⟩

end

/-- **An id keeps a single live pod in exactly the runs without trouble**: creations of one id do
    not overlap, no answer to a reservation is lost, no sidecar of a reserved pod refuses the
    claim, and no pod fails to be deleted.  Each of the four alone makes a second pod possible. -/
theorem keepsSingle_iff (A : Trouble → Prop) : KeepsSingle A ↔ ∀ t, ¬ A t := by
  constructor
  · intro h t ht
    have honly := (troubledRun_only t).mono fun _ _ hsame t' ht' => hsame t' ht' ▸ ht
    obtain ⟨hp, hq⟩ := troubledRun_live t
    have hsame := h poolBackend twoPods (fun _ _ hpod => (twoPods_lookup hpod).1)
      twoPods_single _ honly "x" "p" "q" hp hq
    exact absurd hsame (by decide)
  · intro hnone o s hs hsingle events honly id
    have hinit : Inv (World.init s) := ⟨World.init_held s, hs, hsingle, nofun⟩
    refine (run_keeps Inv ?_ honly hinit).single id
    intro w e he hinv
    exact hinv.step (List.eq_nil_iff_forall_not_mem.mpr fun t ht => hnone t (he t ht))

/-- Two clients create a sandbox under one id at once, and every call gets through: both get a
    ready sandbox, on two pods and with two tokens. -/
theorem overlapping_creates_share_id :
    (run (step poolBackend) (World.init twoPods) (troubledRun .overlap)).2.map Returned.result =
        [.status ⟨"x", "a", some "s", .ready, ""⟩, .status ⟨"x", "a", some "t", .ready, ""⟩] ∧
      LiveAt (run (step poolBackend) (World.init twoPods) (troubledRun .overlap)).1.state "x" "p" ∧
      LiveAt (run (step poolBackend) (World.init twoPods) (troubledRun .overlap)).1.state "x" "q" :=
  ⟨by decide, troubledRun_live .overlap⟩

end Orchestrator.Sandbox

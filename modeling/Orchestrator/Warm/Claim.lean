/-
  Orchestrator.Warm.Claim

  No warm pod is handed out twice, and every pod that is handed out was reserved by the
  caller that gets it, under its own claim id, before the claim was posted.

  A caller goes over different units, each at a version at which it was free, and returns
  a pod only after its own stamp; the stamps of the cluster are of different pods.
-/

import Mathlib.Data.List.Induction
import Orchestrator.Warm.Reservation

namespace Orchestrator.Warm

open Lib Lib.Proc Lib.Machine List

/-! ## The free pods of a pool -/

variable {s : Cluster}

theorem Sound.lookup_entry {m : Manager} (hs : Sound m s) {e : Sigma fun _ : String => Pod}
    (h : e ∈ s.pods.entries) : s.pods.lookup e.1 = some e.2 ∧ e.2.name = e.1 := by
  have hlookup : s.pods.lookup e.1 = some e.2 := AList.mem_lookup_iff.mpr h
  exact ⟨hlookup, (hs.bounded _ _ hlookup).1⟩

theorem Sound.matching_seen {m : Manager} (hs : Sound m s) {selector : List (String × String)}
    {pod : Pod} (h : pod ∈ s.matching selector) :
    Seen s pod.name pod := by
  obtain ⟨e, he, rfl⟩ := mem_map.mp (mem_filter.mp h).1
  obtain ⟨hlookup, hname⟩ := hs.lookup_entry he
  rw [hname]
  exact hs.seen hlookup

theorem Sound.matching_nodup {m : Manager} (hs : Sound m s) (selector : List (String × String)) :
    ((s.matching selector).map Pod.name).Nodup := by
  have hnames : (s.pods.entries.map Sigma.snd).map Pod.name = s.pods.entries.map Sigma.fst := by
    rw [map_map]
    exact map_congr_left fun e he => (hs.lookup_entry he).2
  have hall : ((s.pods.entries.map Sigma.snd).map Pod.name).Nodup := by
    rw [hnames]
    exact s.pods.keys_nodup
  exact hall.sublist (filter_sublist.map Pod.name)

theorem lookup_foldl_insert {pods : List Pod} {byName : ByName} {name : String} {pod : Pod}
    (h : (pods.foldl (fun t p => t.insert p.name p) byName).lookup name = some pod)
    (hname : name ∈ pods.map Pod.name) : pod ∈ pods ∧ pod.name = name := by
  induction pods using reverseRecOn with
  | nil => cases hname
  | append_singleton pods p ih =>
    rw [foldl_append] at h
    change AList.lookup name (AList.insert p.name p (_ : ByName)) = some pod at h
    rcases Objects.lookup_insert_cases h with ⟨hp, rfl⟩ | ⟨hp, hin⟩
    · exact ⟨mem_append_right _ (mem_singleton_self _), hp.symm⟩
    rw [map_append, mem_append] at hname
    rcases hname with hold | hnew
    · obtain ⟨hmem, heq⟩ := ih hin hold
      exact ⟨mem_append_left _ hmem, heq⟩
    · exact absurd (mem_singleton.mp hnew) hp

section

variable {m : Manager} {caller : Nat} {req : Request m} {log : List Call} {s : Cluster}

/-- The pods of a listing: seen, and of different names. -/
def Listed (s : Cluster) (pods : List Pod) : Prop :=
  (∀ pod ∈ pods, Seen s pod.name pod) ∧ (pods.map Pod.name).Nodup

theorem ensures_listPods (hs : Sound m s) (selector : List (String × String)) :
    Ensures m (fun r s' => ∀ pods, r = .ok pods → Listed s' pods)
      (request (.listPods selector)) log s := by
  refine ensures_plain hs rfl ?_
  intro s' f hs' _ pods hpods
  have hlisted : Listed s' (s'.matching selector) :=
    ⟨fun _ h => hs'.matching_seen h, hs'.matching_nodup selector⟩
  cases f with
  | refused e | lost e => cases hpods
  | through | random text | answer r =>
    cases hpods
    exact hlisted

/-- The units of a pass: the caller is ready for each, and they are different ones. -/
def Units (m : Manager) (byName : ByName) (s : Cluster) (units : List WarmUnit) : Prop :=
  (∀ unit ∈ units, Ready m byName s unit) ∧ (units.map WarmUnit.id).Nodup

theorem Listed.units {pods : List Pod} (h : Listed s pods) (byName : ByName) :
    Units m ((pods.filter (claimable m)).foldl (fun t pod => t.insert pod.name pod) byName) s
      ((pods.filter (claimable m)).map (unitFor m)) := by
  constructor
  · intro unit hunit pod hpod
    obtain ⟨listed, hlisted, rfl⟩ := mem_map.mp hunit
    obtain ⟨hmem, hname⟩ := lookup_foldl_insert hpod (mem_map_of_mem hlisted)
    obtain ⟨hpods, hfree⟩ := mem_filter.mp hmem
    have hseen := h.1 pod hpods
    rw [hname] at hseen
    exact ⟨hseen, claimID_of_claimable hfree⟩
  · rw [map_map]
    exact h.2.sublist (filter_sublist.map Pod.name)

section

variable (hs : Sound m s)
include hs

theorem ensures_free (pool : Pool) (byName : ByName) :
    Ensures m (fun r s' => ∀ units, r.2 = .ok units → Units m r.1 s' units)
      (free m pool byName) log s := by
  refine (ensures_listPods hs _).bind ?_
  intro log r s' hs' _ hr
  cases r with
  | error e => exact ensures_return hs' nofun
  | ok pods =>
    refine ensures_return hs' ?_
    intro units hunits
    cases hunits
    exact (hr pods rfl).units byName

/-- What a pass comes to: a unit that is won is the caller's. -/
def Passed (m : Manager) (caller : Nat) (req : Request m) (r : ByName × Tried) (s : Cluster) :
    Prop :=
  ∀ unit, r.2 = .won unit → ∃ pod, r.1.lookup unit.id = some pod ∧ Won m caller req s pod

theorem ensures_tryUnits {byName : ByName} {units : List WarmUnit} (h : Units m byName s units) :
    Ensures m (Passed m caller req) (tryUnits m caller req byName units) log s := by
  induction units generalizing byName log s with
  | nil => exact ensures_return hs nofun
  | cons unit rest ih =>
    obtain ⟨hready, hnodup⟩ := h
    rw [map_cons, nodup_cons] at hnodup
    refine (ensures_claimUnit hs (hready unit (mem_cons_self ..))).bind ?_
    rintro log ⟨byName', r⟩ s' hs' hlater ⟨hothers, hr⟩
    cases r with
    | ok u =>
      refine ensures_return hs' ?_
      intro unit' hunit'
      cases hunit'
      exact hr rfl
    | error e =>
      -- the units that are left are not the one that was tried
      have hrest : Units m byName' s' rest := by
        refine ⟨?_, hnodup.2⟩
        intro unit' hunit' pod hpod
        have hne : unit'.id ≠ unit.id :=
          fun heq => hnodup.1 (heq ▸ mem_map_of_mem hunit')
        rw [hothers unit'.id hne] at hpod
        exact (hready unit' (mem_cons_of_mem _ hunit') pod hpod).later hlater
      cases e with
      | poison _ message => exact ensures_return hs' nofun
      | _ => exact ih hs' hrest

theorem ensures_tryWarm (pool : Pool) (byName : ByName) :
    Ensures m (Passed m caller req) (tryWarm m pool caller req byName) log s := by
  refine (ensures_free hs pool byName).bind ?_
  rintro log ⟨byName', r⟩ s' hs' - hr
  cases r with
  | error e => exact ensures_return hs' nofun
  | ok units => exact ensures_tryUnits hs' (hr units rfl)

/-! ## Cold starts -/

theorem ensures_createPod (poolID : String) :
    Ensures m (fun _ _ => True) (createPod m poolID) log s := by
  refine (ensures_any hs rfl).bind ?_
  intro log r s' hs' _ _
  cases r with
  | error e => exact ensures_return hs' trivial
  | ok suffix =>
    refine (ensures_any hs' rfl).bind ?_
    intro log r s'' hs'' _ _
    cases r <;> exact ensures_return hs'' trivial

/-- The pod that was waited for is free. -/
def Warmed (m : Manager) (r : Except ClaimError Pod) (s : Cluster) : Prop :=
  ∀ pod, r = .ok pod → SeenFree m s pod.name pod

theorem ensures_pollPod (name : String) {rest : Prog (Except ClaimError Pod)}
    (hrest : ∀ log s, Sound m s → Ensures m (Warmed m) rest log s) :
    Ensures m (Warmed m) (pollPod m name rest) log s := by
  refine (ensures_getPod hs name).bind ?_
  intro log r s' hs' _ hr
  cases r with
  | error e => exact ensures_return hs' nofun
  | ok pod =>
    simp only
    split
    · rename_i hfree
      refine ensures_return hs' ?_
      intro _ hpod
      cases hpod
      have hseen := hr pod rfl
      rw [hseen.named]
      exact ⟨hseen, claimID_of_claimable hfree⟩
    · exact hrest log s' hs'

theorem ensures_awaitClaimable (name : String) (rounds : Nat) :
    Ensures m (Warmed m) (awaitClaimable m name rounds) log s := by
  induction rounds generalizing log s with
  | zero => exact ensures_pollPod hs name fun _ _ hs' => ensures_return hs' nofun
  | succ n ih => exact ensures_pollPod hs name fun _ _ hs' => ih hs'

theorem ensures_createClaimable (poolID : String) (rounds : Nat) :
    Ensures m (Warmed m) (createClaimable m poolID rounds) log s := by
  refine (ensures_createPod hs poolID).bind ?_
  intro log r s' hs' _ _
  cases r with
  | error e => exact ensures_return hs' nofun
  | ok created =>
    refine (ensures_awaitClaimable hs' created.name rounds).bind ?_
    intro log r s'' hs'' _ hr
    cases r with
    | ok pod => exact ensures_return hs'' hr
    | error e =>
      refine (ensures_any hs'' rfl).bind ?_
      intro log _ s3 hs3 _ _
      exact ensures_return hs3 nofun

theorem ensures_createUnit (pool : Pool) (rounds : Nat) (byName : ByName) :
    Ensures m (fun r s' => ∀ unit, r.2 = .ok unit → Ready m r.1 s' unit)
      (createUnit m pool rounds byName) log s := by
  refine (ensures_createClaimable hs pool.id rounds).bind ?_
  intro log r s' hs' _ hr
  cases r with
  | error e => exact ensures_return hs' nofun
  | ok pod =>
    refine ensures_return hs' ?_
    intro unit hunit p hp
    cases hunit
    change AList.lookup pod.name (AList.insert pod.name pod byName) = some p at hp
    rw [AList.lookup_insert] at hp
    cases hp
    exact hr pod rfl

end

/-! ## Claiming -/

/-- A claim that succeeds has won the pod of its unit. -/
def Succeeds (m : Manager) (caller : Nat) (req : Request m)
    (r : ByName × Except ClaimError WarmUnit) (s : Cluster) : Prop :=
  ∀ unit, r.2 = .ok unit → ∃ pod, r.1.lookup unit.id = some pod ∧ Won m caller req s pod

/-- A pass whose outcome is the claim's. -/
theorem Passed.succeeds {byName : ByName} {unit : WarmUnit}
    (h : Passed m caller req (byName, .won unit) s) :
    Succeeds m caller req (byName, .ok unit) s := by
  intro unit' hunit'
  cases hunit'
  exact h unit rfl

theorem ensures_claimCold (hs : Sound m s) (pool : Pool) (rounds : Nat) (byName : ByName) :
    Ensures m (Succeeds m caller req) (claimCold m pool rounds caller req byName) log s := by
  refine (ensures_createUnit hs pool rounds byName).bind ?_
  rintro log ⟨byName', r⟩ s' hs' - hr
  cases r with
  | error e => exact ensures_return hs' nofun
  | ok created =>
    refine (ensures_claimUnit hs' (hr created rfl)).bind ?_
    rintro log ⟨byName'', r⟩ s'' hs'' - ⟨-, hwon⟩
    cases r with
    | ok u =>
      refine ensures_return hs'' ?_
      intro unit hunit
      cases hunit
      exact hwon rfl
    | error e =>
      cases e with
      | conflict =>
        refine (ensures_tryWarm hs'' pool byName'').bind ?_
        rintro log ⟨byName3, t⟩ s3 hs3 - ht
        cases t with
        | won unit => exact ensures_return hs3 ht.succeeds
        | failed e | noneFree => exact ensures_return hs3 nofun
      | _ => exact ensures_return hs'' nofun

theorem ensures_claimWarm (hs : Sound m s) (pool : Pool) (rounds : Nat) :
    Ensures m (Succeeds m caller req) (claimWarm m pool rounds caller req) log s := by
  refine (ensures_tryWarm hs pool ∅).bind ?_
  rintro log ⟨byName, t⟩ s' hs' - ht
  cases t with
  | won unit => exact ensures_return hs' ht.succeeds
  | failed e => exact ensures_return hs' nofun
  | noneFree =>
    simp only
    split
    · exact ensures_claimCold hs' pool rounds byName
    · exact ensures_return hs' nofun

end

/-- What a program returns: a claim, the pod it has won. -/
def Returns (m : Manager) (task : Task m) (r : Result) (s : Cluster) : Prop :=
  ∀ p, r = .claimed p → ∃ pool rounds req pod, task.job = .claim pool rounds req ∧ p = some pod ∧
    Won m task.caller req s pod

theorem ensures_program {m : Manager} (hs : Sound m s) (task : Task m) :
    Ensures m (Returns m task) (program m task) [] s := by
  obtain ⟨caller, job⟩ := task
  cases job with
  | claim pool rounds req =>
    refine (ensures_claimWarm hs pool rounds).bind ?_
    rintro log ⟨byName, r⟩ s' hs' - hr
    cases r with
    | error e => exact ensures_return hs' nofun
    | ok unit =>
      refine ensures_return hs' ?_
      intro p hp
      cases hp
      obtain ⟨pod, hpod, hwon⟩ := hr unit rfl
      exact ⟨pool, rounds, req, pod, rfl, hpod, hwon⟩
  | replenish poolID =>
    exact (ensures_createPod hs poolID).bind fun _ _ _ hs' _ _ =>
      ensures_return hs' nofun
  | delete name | updateStatus name podIP ready | remove name =>
    exact (ensures_any hs rfl).bind fun _ _ _ hs' _ _ =>
      ensures_return hs' nofun

/-! ## Callers side by side -/

abbrev PoolWorld (m : Manager) := World Cluster (Task m) Call Reply Result

/-- A program gets its number when it is started. -/
def number {m : Manager} (w : PoolWorld m) : Happens (Job m) Fate → Happens (Task m) Fate
  | .start job => .start ⟨w.next, job⟩
  | .advance i f => .advance i f
  | .stop i => .stop i

def step (m : Manager) (w : PoolWorld m) (e : Happens (Job m) Fate) :
    PoolWorld m × List (Returned (Task m) Result) :=
  World.step serve (program m) w (number w e)

/-- The invariant of the runs, with all that was returned. -/
structure Inv (m : Manager) (w : PoolWorld m) (out : List (Returned (Task m) Result)) : Prop where
  held : World.Held serve (fun _ => terms m) (Returns m) w
  sound : Sound m w.state
  numbered : w.Numbered
  callers : ∀ j r, w.running j = some r → r.task.caller = j
  ended : ∀ x ∈ out, x.task.caller < w.next ∧ w.running x.task.caller = none
  once : (out.map fun x => x.task.caller).Nodup
  returns : ∀ x ∈ out, Returns m x.task x.result w.state

section

variable {m : Manager} {w : PoolWorld m} {out : List (Returned (Task m) Result)}

theorem obeys (hs : Sound m w.state) (e : Happens (Task m) Fate) :
    w.Obeys serve (fun _ => terms m) (Returns m) (program m) e := by
  cases e with
  | start task =>
    refine ⟨Safe.mono (ensures_program hs task) fun _ _ _ h => h.1, ?_⟩
    intro i r _
    exact ⟨fun _ _ _ h => h, fun _ _ _ h => h⟩
  | advance i f =>
    intro _ _ _ _ _
    trivial
  | stop i => trivial

theorem Inv.goes (h : Inv m w out) (e : Happens (Job m) Fate) :
    Goes m w.state (step m w e).1.state := by
  rcases World.step_state serve (program m) w (number w e) with
    ⟨i, f, task, log, k, next, he, hrun, hstate⟩ | hsame
  · rw [step, hstate]
    exact (h.held.call (fun _ => terms_lawful m) hrun (he ▸ obeys h.sound (number w e))).1
  · rw [step, hsame]
    exact (terms_lawful m).refl w.state

theorem Returns.later {task : Task m} {r : Result} {s' : Cluster} (h : Returns m task r s)
    (hlater : Later s s') : Returns m task r s' := by
  intro p hp
  obtain ⟨pool, rounds, req, pod, hjob, hpod, hwon⟩ := h p hp
  exact ⟨pool, rounds, req, pod, hjob, hpod, hwon.later hlater⟩

theorem number_start {e : Happens (Job m) Fate} {task : Task m} (h : number w e = .start task) :
    task.caller = w.next := by
  cases e with
  | start job =>
    cases h
    rfl
  | advance i f | stop i => cases h

section

variable (h : Inv m w out) (e : Happens (Job m) Fate)
include h e

theorem Inv.callers_step (j : Nat) (r : Running (Task m) Call Reply Result)
    (hj : (step m w e).1.running j = some r) :
    r.task.caller = j := by
  rcases World.step_running serve (program m) hj with ⟨task, he, rfl, rfl⟩ | ⟨r', hrun, htask⟩
  · exact number_start he
  · rw [← htask]
    exact h.callers j r' hrun

theorem Inv.ended_step (x : Returned (Task m) Result) (hx : x ∈ out) :
    x.task.caller < (step m w e).1.next ∧ (step m w e).1.running x.task.caller = none := by
  obtain ⟨hlt, hnone⟩ := h.ended x hx
  refine ⟨Nat.lt_of_lt_of_le hlt (World.step_next serve (program m) w (number w e)), ?_⟩
  cases hrun : (step m w e).1.running x.task.caller with
  | none => rfl
  | some r =>
    rcases World.step_running serve (program m) hrun with ⟨_, _, hnext, _⟩ | ⟨r', hrun', _⟩
    · exact absurd hlt (by rw [hnext]; exact Nat.lt_irrefl _)
    · rw [hnone] at hrun'
      cases hrun'

theorem Inv.out_step :
    (step m w e).2 = [] ∨ ∃ x, (step m w e).2 = [x] ∧ x.task.caller < (step m w e).1.next ∧
      (step m w e).1.running x.task.caller = none ∧ ∀ y ∈ out, y.task.caller ≠ x.task.caller := by
  rcases World.step_out serve (program m) w (number w e) with
    hnil | ⟨i, task, a, hout, hgone, hfrom⟩
  · exact .inl hnil
  refine .inr ⟨⟨task, a⟩, hout, ?_⟩
  rcases hfrom with ⟨rfl, he⟩ | ⟨r, hrun, rfl⟩
  · have hcaller := number_start he
    refine ⟨?_, ?_, ?_⟩
    · change task.caller < _
      rw [hcaller, step, he, World.step, World.settle_next]
      exact Nat.lt_succ_self _
    · change (step m w e).1.running task.caller = none
      rw [hcaller]
      exact hgone
    · intro y hy heq
      change y.task.caller = task.caller at heq
      exact absurd (h.ended y hy).1 (by rw [heq, hcaller]; exact Nat.lt_irrefl _)
  · have hcaller := h.callers i r hrun
    refine ⟨?_, ?_, ?_⟩
    · change r.task.caller < _
      rw [hcaller]
      exact Nat.lt_of_lt_of_le (h.numbered i r hrun) (World.step_next serve (program m) w _)
    · change (step m w e).1.running r.task.caller = none
      rw [hcaller]
      exact hgone
    · intro y hy heq
      have hnone := (h.ended y hy).2
      change y.task.caller = r.task.caller at heq
      rw [heq, hcaller, hrun] at hnone
      cases hnone

theorem Inv.step :
    Inv m (step m w e).1 (out ++ (step m w e).2) := by
  have hlaw : ∀ _ : Task m, (terms m).Lawful := fun _ => terms_lawful m
  have hobeys := obeys h.sound (number w e)
  obtain ⟨hlater, hsound⟩ := h.goes e
  have hreturns : ∀ x ∈ out ++ (Warm.step m w e).2,
      Returns m x.task x.result (Warm.step m w e).1.state := by
    refine forall_mem_append.mpr ⟨?_, fun x hx => h.held.returned hlaw hobeys hx⟩
    exact fun x hx => (h.returns x hx).later hlater
  refine ⟨h.held.step hlaw hobeys, hsound h.sound, h.numbered.step serve (program m) _,
    h.callers_step e, ?_, ?_, hreturns⟩
  · intro x hx
    rcases mem_append.mp hx with hold | hnew
    · exact h.ended_step e x hold
    rcases h.out_step e with hnil | ⟨y, hout, hlt, hnone, -⟩
    · rw [hnil] at hnew
      cases hnew
    · rw [hout, mem_singleton] at hnew
      subst hnew
      exact ⟨hlt, hnone⟩
  · rcases h.out_step e with hnil | ⟨y, hout, -, -, hfresh⟩
    · rw [hnil, append_nil]
      exact h.once
    rw [hout, map_append]
    refine nodup_append.mpr ⟨h.once, nodup_singleton _, ?_⟩
    intro a ha b hb
    obtain ⟨x, hx, rfl⟩ := mem_map.mp ha
    rw [mem_singleton.mp hb]
    exact hfresh x hx

end

theorem Sound.stamped_once (hs : Sound m s) {caller caller' uid : Nat} {labels labels' : Labels}
    (h : Note.stamped caller uid labels ∈ s.notes) (h' : Note.stamped caller' uid labels' ∈ s.notes) :
    caller = caller' := by
  by_contra hne
  have hapart := pairwise_filterMap.mp hs.once
  have hsymm : Std.Symm fun a b : Note =>
      ∀ u, a.uid = some u → ∀ u', b.uid = some u' → u ≠ u' :=
    ⟨fun _ _ hab u hu u' hu' heq => hab u' hu' u hu heq.symm⟩
  refine hapart.forall h h' ?_ uid rfl uid rfl rfl
  intro heq
  cases heq
  exact hne rfl

def claimedUid : Result → Option Nat
  | .claimed (some pod) => some pod.uid
  | _ => none

theorem Inv.stamped (h : Inv m w out) {x : Returned (Task m) Result} (hx : x ∈ out) {uid : Nat}
    (huid : claimedUid x.result = some uid) :
    ∃ labels, Note.stamped x.task.caller uid labels ∈ w.state.notes := by
  have hreturns := h.returns x hx
  rcases hresult : x.result with p | e | _ <;> rw [hresult] at huid hreturns
  · obtain ⟨pool, rounds, req, pod, -, rfl, hwon⟩ := hreturns p rfl
    cases huid
    obtain ⟨labels, -, hordered⟩ := hwon.ordered
    exact ⟨labels, hordered.subset (mem_cons_self ..)⟩
  · cases huid
  · cases huid

theorem Inv.uids_nodup (h : Inv m w out) : (out.filterMap fun x => claimedUid x.result).Nodup := by
  refine pairwise_filterMap.mpr ?_
  refine List.Pairwise.imp_of_mem ?_ (pairwise_map.mp h.once)
  rintro x y hx hy hne uid huid uid' huid' rfl
  obtain ⟨labels, hstamped⟩ := h.stamped hx huid
  obtain ⟨labels', hstamped'⟩ := h.stamped hy huid'
  exact hne (h.sound.stamped_once hstamped hstamped')

end

/-- A cluster before the first claim of the run: pods are told apart by uids, and uids and versions
    are still to be given. -/
structure Cluster.Fresh (s : Cluster) : Prop where
  bounded : ∀ name pod, s.pods.lookup name = some pod →
    pod.name = name ∧ pod.version < s.nextVersion ∧ pod.uid < s.nextUid
  distinct : ∀ name name' pod pod', s.pods.lookup name = some pod →
    s.pods.lookup name' = some pod' → pod.uid = pod'.uid → name = name'
  notes : s.notes = []

theorem Cluster.Fresh.sound (h : s.Fresh) (m : Manager) : Sound m s := by
  have hnone : s.stampedUids = [] := by rw [Cluster.stampedUids, h.notes]; rfl
  refine ⟨h.bounded, h.distinct, ?_, ?_⟩
  · intro uid huid
    rw [hnone] at huid
    cases huid
  · rw [hnone]
    exact nodup_nil

theorem Cluster.Fresh.inv (h : s.Fresh) (m : Manager) :
    Inv m (World.init s) [] := by
  refine ⟨World.init_held s, h.sound m, ?_, ?_, ?_, nodup_nil, ?_⟩
  · nofun
  · nofun
  · nofun
  · nofun

/-- Whatever the claims, the order of their steps and the fate of their calls: no pod is returned
    to two callers, and a caller that gets a pod has set its claim id on it before it posted. -/
theorem claimed_pods_apart (m : Manager) {s : Cluster} (hs : s.Fresh)
    (events : List (Happens (Job m) Fate)) :
    ((run (step m) (World.init s) events).2.filterMap fun x => claimedUid x.result).Nodup ∧
      ∀ x ∈ (run (step m) (World.init s) events).2,
        Returns m x.task x.result (run (step m) (World.init s) events).1.state := by
  have hinv := run_preserves (Inv m) (fun _ _ e h => h.step e) events (hs.inv m)
  rw [nil_append] at hinv
  exact ⟨hinv.uids_nodup, hinv.returns⟩

section

def raceManager : Manager := ⟨"orchestrator", "pool", "claim", "warm", fun name => name⟩

def raceCluster : Cluster :=
  ⟨(∅ : Objects Pod).insert "p" ⟨"p", 0, 0, poolLabels raceManager "a", false, "10.0.0.1", true⟩,
    1, 1, []⟩

def raceJob (id : String) (hid : id ≠ "") : Job raceManager :=
  .claim ⟨"a", .reject⟩ 0 ⟨id, ∅, hid, rfl⟩

theorem x_ne_empty : "x" ≠ "" := by decide

theorem y_ne_empty : "y" ≠ "" := by decide

def raceEvents : List (Happens (Job raceManager) Fate) :=
  [.start (raceJob "x" x_ne_empty), .start (raceJob "y" y_ne_empty), .advance 0 .through,
    .advance 1 .through, .advance 1 .through, .advance 0 .through, .advance 1 .through,
    .advance 0 .through]

theorem raceCluster_fresh : raceCluster.Fresh := by
  have hlookup : ∀ name pod, raceCluster.pods.lookup name = some pod → name = "p" ∧
      pod = ⟨"p", 0, 0, poolLabels raceManager "a", false, "10.0.0.1", true⟩ := by
    intro name pod hpod
    rcases Objects.lookup_insert_cases hpod with hp | ⟨-, hnone⟩
    · exact hp
    · cases hnone
  refine ⟨?_, ?_, rfl⟩
  · intro name pod hpod
    obtain ⟨rfl, rfl⟩ := hlookup name pod hpod
    exact ⟨rfl, by decide, by decide⟩
  · intro name name' pod pod' hpod hpod' _
    exact (hlookup name pod hpod).1.trans (hlookup name' pod' hpod').1.symm

/-- Two callers race for one pod: the second is first, and the other one finds none free. -/
theorem claimed_pods_apart_race :
    ((run (step raceManager) (World.init raceCluster) raceEvents).2.map fun x =>
        (x.task.caller, claimedUid x.result)) = [(1, some 0), (0, none)] ∧
      ((run (step raceManager) (World.init raceCluster) raceEvents).2.filterMap fun x =>
        claimedUid x.result).Nodup :=
  ⟨by decide, (claimed_pods_apart raceManager raceCluster_fresh raceEvents).1⟩

end

end Orchestrator.Warm

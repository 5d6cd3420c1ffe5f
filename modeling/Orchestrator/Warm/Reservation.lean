/-
  Orchestrator.Warm.Reservation

  A warm pod is reserved at most once.

  A patch is applied to the version it names only, and callers name versions at which they
  have seen the pod unclaimed.  So a pod is stamped at most once in its life (`Sound`),
  whichever answers are lost.  `Ensures` is the judgement of the programs: everyone keeps
  the cluster sound and relies on the others to do so.
-/

import Mathlib.Data.List.Nodup
import Orchestrator.Warm.Inventory

namespace Orchestrator.Warm

open Lib Lib.Proc List

/-! ## What a step can do to the cluster -/

/-- Notes stay, and a pod that is new in the cluster, or has changed, has a new version. -/
structure Later (s s' : Cluster) : Prop where
  notes : s.notes <+: s'.notes
  versions : s.nextVersion ≤ s'.nextVersion
  pods : ∀ name pod, s'.pods.lookup name = some pod →
    s.pods.lookup name = some pod ∨ s.nextVersion ≤ pod.version

theorem Later.refl (s : Cluster) : Later s s :=
  ⟨prefix_refl _, Nat.le_refl _, fun _ _ h => .inl h⟩

variable {s' : Cluster}

variable {s : Cluster}

theorem Later.trans {s'' : Cluster} (h : Later s s') (h' : Later s' s'') : Later s s'' := by
  refine ⟨h.notes.trans h'.notes, Nat.le_trans h.versions h'.versions, ?_⟩
  intro name pod hpod
  rcases h'.pods name pod hpod with hold | hnew
  · exact h.pods name pod hold
  · exact .inr (Nat.le_trans h.versions hnew)

theorem lookup_put (s : Cluster) (pod : Pod) (name : String) :
    (s.put pod).pods.lookup name =
      if name = pod.name then some { pod with version := s.nextVersion }
      else s.pods.lookup name := by
  rw [Cluster.put]
  split
  · rename_i hname
    rw [hname]
    exact AList.lookup_insert _
  · rename_i hname
    exact AList.lookup_insert_ne hname

theorem put_later (s : Cluster) (pod : Pod) : Later s (s.put pod) := by
  refine ⟨prefix_refl _, Nat.le_succ _, ?_⟩
  intro name p hp
  rw [lookup_put] at hp
  split at hp
  · cases hp
    exact .inr (Nat.le_refl _)
  · exact .inl hp

theorem change_later (s : Cluster) (name : String) (f : Pod → Pod) :
    Later s (s.change name f).2 := by
  rw [Cluster.change]
  split
  · exact put_later s _
  · exact Later.refl s

theorem lookup_removePod {name name' : String} {pod : Pod}
    (h : (s.handle (.removePod name)).2.pods.lookup name' = some pod) :
    s.pods.lookup name' = some pod := by
  change (s.pods.delete name).2.lookup name' = some pod at h
  rw [Objects.lookup_delete] at h
  split at h
  · cases h
  · exact h

theorem handle_later (s : Cluster) (k : Call) : Later s (s.handle k).2 := by
  cases k with
  | patchPod caller name version labels =>
    rw [Cluster.handle, Cluster.patch]
    split
    · split
      · have hput := put_later s { ‹Pod› with labels := labels ∪ (‹Pod› : Pod).labels }
        exact ⟨prefix_append _ _, hput.versions, hput.pods⟩
      · exact Later.refl s
    · exact Later.refl s
  | createPod name labels =>
    rw [Cluster.handle, Cluster.create]
    split
    · exact Later.refl s
    · have hput := put_later s ⟨name, s.nextUid, s.nextVersion, labels, false, "", false⟩
      exact ⟨hput.notes, hput.versions, hput.pods⟩
  | deletePod name | updateStatus name podIP ready => exact change_later s name _
  | removePod name =>
    exact ⟨prefix_refl _, Nat.le_refl _, fun _ _ hpod => .inl (lookup_removePod hpod)⟩
  | listPods selector | getPod name | randHex | post caller unit addr token claimID =>
    exact Later.refl s

theorem answer_later (s : Cluster) (k : Call) (f : Fate) : Later s (s.answer k f).2 := by
  cases f with
  | refused e => exact Later.refl s
  | lost e | through | random text | answer r => exact handle_later s k

theorem serve_later (s : Cluster) (k : Call) (f : Fate) : Later s (serve s k f).2 := by
  cases k with
  | randHex => cases f <;> exact Later.refl s
  | post caller unit addr token claimID =>
    exact ⟨prefix_append _ _, Nat.le_refl _, fun _ _ h => .inl h⟩
  | _ => exact answer_later s _ f

/-! ## What holds of the cluster -/

def Note.uid : Note → Option Nat
  | .stamped _ uid _ => some uid
  | .posted _ _ => none

def Cluster.stampedUids (s : Cluster) : List Nat := s.notes.filterMap Note.uid

/-- Pods are told apart by their uids, a stamped pod is claimed as long as it is there, and none is
    stamped twice. -/
structure Sound (m : Manager) (s : Cluster) : Prop where
  bounded : ∀ name pod, s.pods.lookup name = some pod →
    pod.name = name ∧ pod.version < s.nextVersion ∧ pod.uid < s.nextUid
  distinct : ∀ name name' pod pod', s.pods.lookup name = some pod →
    s.pods.lookup name' = some pod' → pod.uid = pod'.uid → name = name'
  claimed : ∀ uid ∈ s.stampedUids, uid < s.nextUid ∧
    ∀ name pod, s.pods.lookup name = some pod → pod.uid = uid → claimID m pod ≠ ""
  once : s.stampedUids.Nodup

section

variable {m : Manager} {s : Cluster}

section

variable (hs : Sound m s)
include hs

theorem Sound.store {pod : Pod} {nextUid : Nat} {notes : List Note} (huid : pod.uid < nextUid)
    (hnext : s.nextUid ≤ nextUid)
    (hdistinct : ∀ name pod', name ≠ pod.name → s.pods.lookup name = some pod' →
      pod'.uid ≠ pod.uid)
    (hstamps : ∀ uid ∈ notes.filterMap Note.uid, uid ∈ s.stampedUids ∨ uid = pod.uid)
    (hclaim : pod.uid ∈ notes.filterMap Note.uid → claimID m pod ≠ "")
    (honce : (notes.filterMap Note.uid).Nodup) :
    Sound m { s.put pod with nextUid, notes } := by
  -- a pod that is found afterwards is the stored one or an old one under another name
  have hlookup : ∀ name p, (s.put pod).pods.lookup name = some p →
      (name = pod.name ∧ p = { pod with version := s.nextVersion }) ∨
        (name ≠ pod.name ∧ s.pods.lookup name = some p) := by
    intro name p hp
    rw [lookup_put] at hp
    split at hp
    · rename_i hname
      cases hp
      exact .inl ⟨hname, rfl⟩
    · rename_i hname
      exact .inr ⟨hname, hp⟩
  refine ⟨?_, ?_, ?_, honce⟩
  · intro name p hp
    rcases hlookup name p hp with ⟨rfl, rfl⟩ | ⟨-, hold⟩
    · exact ⟨rfl, Nat.lt_succ_self _, huid⟩
    · obtain ⟨hname, hversion, huid'⟩ := hs.bounded name p hold
      exact ⟨hname, Nat.lt_succ_of_lt hversion, Nat.lt_of_lt_of_le huid' hnext⟩
  · intro name name' p p' hp hp' hsame
    rcases hlookup name p hp with ⟨rfl, rfl⟩ | ⟨hne, hold⟩ <;>
      rcases hlookup name' p' hp' with ⟨rfl, rfl⟩ | ⟨hne', hold'⟩
    · rfl
    · exact absurd hsame.symm (hdistinct name' p' hne' hold')
    · exact absurd hsame (hdistinct name p hne hold)
    · exact hs.distinct name name' p p' hold hold' hsame
  · intro uid huids
    refine ⟨?_, ?_⟩
    · rcases hstamps uid huids with hold | rfl
      · exact Nat.lt_of_lt_of_le (hs.claimed uid hold).1 hnext
      · exact huid
    · rintro name p hp rfl
      rcases hlookup name p hp with ⟨-, rfl⟩ | ⟨hne, hold⟩
      · exact hclaim huids
      · rcases hstamps _ huids with hstamped | hsame
        · exact (hs.claimed _ hstamped).2 name p hold rfl
        · exact absurd hsame (hdistinct name p hne hold)

theorem Sound.change {f : Pod → Pod}
    (hf : ∀ pod, (f pod).name = pod.name ∧ (f pod).uid = pod.uid ∧ (f pod).labels = pod.labels)
    (name : String) : Sound m (s.change name f).2 := by
  rw [Cluster.change]
  split
  · rename_i pod hpod
    obtain ⟨hname, huid, hlabels⟩ := hf pod
    obtain ⟨hpodname, -, hbound⟩ := hs.bounded name pod hpod
    refine hs.store (by rw [huid]; exact hbound) (Nat.le_refl _) ?_ (fun _ h => .inl h) ?_ hs.once
    · intro name' pod' hne hpod' hsame
      rw [hname, hpodname] at hne
      rw [huid] at hsame
      exact hne (hs.distinct name' name pod' pod hpod' hpod hsame)
    · intro hstamped
      rw [huid] at hstamped
      rw [claimID, hlabels]
      exact (hs.claimed _ hstamped).2 name pod hpod rfl
  · exact hs

/-- A patch that claims, at a version at which the pod is unclaimed. -/
theorem Sound.patch {caller version : Nat} {name id : String} {labels : Labels}
    (hlabels : labels.lookup m.claimKey = some id) (hid : id ≠ "")
    (hfree : ∀ pod, s.pods.lookup name = some pod → pod.version = version → claimID m pod = "") :
    Sound m (s.patch caller name version labels).2 := by
  rw [Cluster.patch]
  split
  · rename_i pod hpod
    split
    · rename_i hversion
      obtain ⟨hname, -, hbound⟩ := hs.bounded name pod hpod
      have hfresh : pod.uid ∉ s.stampedUids :=
        fun hstamped => (hs.claimed _ hstamped).2 name pod hpod rfl (hfree pod hpod hversion)
      have hstamps : (s.notes ++ [Note.stamped caller pod.uid labels]).filterMap Note.uid =
          s.stampedUids ++ [pod.uid] := filterMap_append ..
      refine hs.store hbound (Nat.le_refl _) ?_ ?_ ?_ ?_
      · intro name' pod' hne hpod' hsame
        exact hne ((hs.distinct name' name pod' pod hpod' hpod hsame).trans hname.symm)
      · intro uid huid
        rw [hstamps, mem_append, mem_singleton] at huid
        exact huid
      · intro _
        have hmem : m.claimKey ∈ labels := AList.lookup_isSome.mp (by rw [hlabels]; rfl)
        rw [claimID, AList.lookup_union_left hmem, hlabels]
        exact hid
      · rw [hstamps]
        exact nodup_append.mpr ⟨hs.once, nodup_singleton _, by
          intro a ha b hb
          rw [mem_singleton.mp hb]
          exact fun heq => hfresh (heq ▸ ha)⟩
    · exact hs
  · exact hs

theorem Sound.create (name : String) (labels : Labels) :
    Sound m (s.create name labels).2 := by
  rw [Cluster.create]
  split
  · exact hs
  refine hs.store (Nat.lt_succ_self _) (Nat.le_succ _) ?_ (fun _ h => .inl h) ?_ hs.once
  · intro name' pod' _ hpod' hsame
    exact absurd (hs.bounded name' pod' hpod').2.2 (by rw [hsame]; exact Nat.lt_irrefl _)
  · intro hstamped
    exact absurd (hs.claimed _ hstamped).1 (Nat.lt_irrefl _)

theorem Sound.remove (name : String) :
    Sound m (s.handle (.removePod name)).2 := by
  refine ⟨?_, ?_, ?_, hs.once⟩
  · intro name' pod hpod
    exact hs.bounded name' pod (lookup_removePod hpod)
  · intro name' name'' pod pod' hpod hpod'
    exact hs.distinct name' name'' pod pod' (lookup_removePod hpod) (lookup_removePod hpod')
  · intro uid huid
    exact ⟨(hs.claimed uid huid).1, fun name' pod hpod =>
      (hs.claimed uid huid).2 name' pod (lookup_removePod hpod)⟩

def Call.plain : Call → Bool
  | .patchPod _ _ _ _ => false
  | _ => true

variable {k : Call}

theorem Sound.handle (hk : k.plain = true) : Sound m (s.handle k).2 := by
  cases k with
  | patchPod caller name version labels => cases hk
  | createPod name labels => exact hs.create name labels
  | deletePod name | updateStatus name podIP ready =>
    exact Sound.change hs (by exact fun _ => ⟨rfl, rfl, rfl⟩) name
  | removePod name => exact hs.remove name
  | listPods selector | getPod name | randHex | post caller unit addr token claimID => exact hs

theorem Sound.answer (hk : Sound m (s.handle k).2) (f : Fate) :
    Sound m (s.answer k f).2 := by
  cases f with
  | refused e => exact hs
  | lost e | through | random text | answer r => exact hk

theorem Sound.serve (hk : k.plain = true) (f : Fate) :
    Sound m (serve s k f).2 := by
  cases k with
  | randHex => cases f <;> exact hs
  | post caller unit addr token claimID =>
    have hstamps : (s.notes ++ [Note.posted caller unit]).filterMap Note.uid = s.stampedUids := by
      rw [filterMap_append]
      exact append_nil _
    have honce : ((s.notes ++ [Note.posted caller unit]).filterMap Note.uid).Nodup := by
      rw [hstamps]
      exact hs.once
    refine ⟨hs.bounded, hs.distinct, ?_, honce⟩
    intro uid huid
    exact hs.claimed uid (hstamps ▸ huid)
  | _ => exact hs.answer (hs.handle hk) f

end

end

/-! ## Programs -/

/-- What anyone does to the cluster. -/
def Goes (m : Manager) (s s' : Cluster) : Prop := Later s s' ∧ (Sound m s → Sound m s')

/-- Everyone relies on what everyone does. -/
def terms (m : Manager) : Contract Cluster Call Fate where
  rely := Goes m
  allowed _ _ _ _ := True
  guar := Goes m

theorem terms_lawful (m : Manager) : (terms m).Lawful :=
  ⟨fun s => ⟨Later.refl s, id⟩, fun _ _ _ h h' => ⟨h.1.trans h'.1, h'.2 ∘ h.2⟩⟩

/-- The program keeps to the terms, and returns in `Q`. -/
def Ensures (m : Manager) {α : Type} (Q : α → Cluster → Prop) (p : Prog α) (log : List Call)
    (s : Cluster) : Prop :=
  Safe serve (terms m) (fun _ a s' => Q a s' ∧ Sound m s' ∧ Later s s') p log s

section

variable {m : Manager} {α β : Type} {Q : α → Cluster → Prop} {p : Prog α} {log : List Call}
  {s : Cluster}

theorem ensures_return {a : α} (hs : Sound m s) (h : Q a s) :
    Ensures m Q (return a : Prog α) log s :=
  ⟨h, hs, Later.refl s⟩

theorem Ensures.bind {R : β → Cluster → Prop} {g : α → Prog β} (h : Ensures m Q p log s)
    (hg : ∀ log a s', Sound m s' → Later s s' → Q a s' → Ensures m R (g a) log s') :
    Ensures m R (p >>= g) log s := by
  refine Safe.bind h ?_
  rintro log a s' ⟨ha, hs', hlater⟩
  refine Safe.mono (hg log a s' hs' hlater ha) ?_
  rintro log b s'' ⟨hb, hs'', hlater'⟩
  exact ⟨hb, hs'', hlater.trans hlater'⟩

variable {k : Call}

theorem ensures_request {Q : Reply k → Cluster → Prop} (hs : Sound m s)
    (hsound : ∀ s' f, Sound m s' → Later s s' → Sound m (serve s' k f).2)
    (h : ∀ s' f, Sound m s' → Later s s' → Q (serve s' k f).1 (serve s' k f).2) :
    Ensures m Q (request k) log s := by
  intro s' hrely f _
  have hs' := hrely.2 hs
  have hlater := serve_later s' k f
  exact ⟨⟨hlater, fun _ => hsound s' f hs' hrely.1⟩, h s' f hs' hrely.1, hsound s' f hs' hrely.1,
    hrely.1.trans hlater⟩

theorem ensures_plain {Q : Reply k → Cluster → Prop} (hs : Sound m s) (hk : k.plain = true)
    (h : ∀ s' f, Sound m s' → Later s s' → Q (serve s' k f).1 (serve s' k f).2) :
    Ensures m Q (request k) log s :=
  ensures_request hs (fun _ f hs' _ => hs'.serve hk f) h

theorem ensures_any (hs : Sound m s) (hk : k.plain = true) :
    Ensures m (fun _ _ => True) (request k) log s :=
  ensures_plain hs hk fun _ _ _ _ => trivial

end

/-! ## What a caller knows of a pod -/

/-- The caller has read the pod: as long as the version does not change the pod does not. -/
structure Seen (s : Cluster) (name : String) (pod : Pod) : Prop where
  named : pod.name = name
  version : pod.version < s.nextVersion
  same : ∀ p, s.pods.lookup name = some p → p.version = pod.version → p = pod

variable {name : String} {pod : Pod}

theorem Seen.later (h : Seen s name pod) (hlater : Later s s') :
    Seen s' name pod := by
  refine ⟨h.named, Nat.lt_of_lt_of_le h.version hlater.versions, ?_⟩
  intro p hp hversion
  rcases hlater.pods name p hp with hold | hnew
  · exact h.same p hold hversion
  · exact absurd (hversion ▸ h.version) (Nat.not_lt.mpr hnew)

theorem Sound.seen {m : Manager} (hs : Sound m s) (h : s.pods.lookup name = some pod) :
    Seen s name pod := by
  obtain ⟨hname, hversion, -⟩ := hs.bounded name pod h
  refine ⟨hname, hversion, ?_⟩
  intro p hp _
  rw [h] at hp
  cases hp
  rfl

/-- The caller has seen the pod unclaimed. -/
structure SeenFree (m : Manager) (s : Cluster) (name : String) (pod : Pod) : Prop where
  seen : Seen s name pod
  free : claimID m pod = ""

theorem SeenFree.later {m : Manager} (h : SeenFree m s name pod) (hlater : Later s s') :
    SeenFree m s' name pod :=
  ⟨h.seen.later hlater, h.free⟩

theorem claimID_of_claimable {m : Manager} (h : claimable m pod = true) :
    claimID m pod = "" := by
  rw [claimable] at h
  simp only [Bool.and_eq_true, decide_eq_true_eq] at h
  exact h.1.1.1

/-- The server has applied the caller's patch for this claim, and `pod` is its answer. -/
structure Reserved (m : Manager) (caller : Nat) (req : Request m) (s : Cluster) (name : String)
    (pod : Pod) : Prop where
  named : pod.name = name
  carries : claimID m pod = req.claimID
  stamped : Note.stamped caller pod.uid (stamp m req) ∈ s.notes

/-- The caller's patch set its claim id on the pod, and then the caller has posted. -/
structure Won (m : Manager) (caller : Nat) (req : Request m) (s : Cluster) (pod : Pod) : Prop where
  carries : claimID m pod = req.claimID
  ordered : ∃ labels : Labels, labels.lookup m.claimKey = some req.claimID ∧
    [Note.stamped caller pod.uid labels, Note.posted caller pod.name].Sublist s.notes

theorem Won.later {m : Manager} {caller : Nat} {req : Request m} (h : Won m caller req s pod)
    (hlater : Later s s') : Won m caller req s' pod := by
  obtain ⟨labels, hlabels, hordered⟩ := h.ordered
  exact ⟨h.carries, labels, hlabels, hordered.trans hlater.notes.sublist⟩

theorem lookup_stamp (m : Manager) (req : Request m) :
    (stamp m req).lookup m.claimKey = some req.claimID := by
  have hmem : m.claimKey ∉ req.labels := AList.lookup_eq_none.mp req.apart
  rw [stamp, AList.lookup_union_right hmem]
  exact AList.lookup_insert _

/-! ## Reserving -/

section

variable {m : Manager} {caller : Nat} {req : Request m} {log : List Call} {s : Cluster}

variable {name : String}

theorem patch_reserved (hs : Sound m s) {version : Nat} {bound : Pod}
    (h : (s.patch caller name version (stamp m req)).1 = .ok bound) :
    Reserved m caller req (s.patch caller name version (stamp m req)).2 name bound := by
  rw [Cluster.patch] at h ⊢
  cases hpod : s.pods.lookup name with
  | none =>
    rw [hpod] at h
    cases h
  | some pod =>
    rw [hpod] at h
    simp only at h ⊢
    split at h
    · rename_i hversion
      rw [if_pos hversion]
      cases h
      have hmem : m.claimKey ∈ stamp m req :=
        AList.lookup_isSome.mp (by rw [lookup_stamp]; rfl)
      refine ⟨(hs.bounded name pod hpod).1, ?_, ?_⟩
      · rw [claimID, AList.lookup_union_left hmem, lookup_stamp]
        rfl
      · exact mem_append_right _ (mem_singleton_self _)
    · cases h

/-- Whoever patches at a version at which it has seen the pod free. -/
theorem ensures_patch (hs : Sound m s) {candidate : Pod} (h : SeenFree m s name candidate) :
    Ensures m (fun r s' => ∀ bound, r = .ok bound → Reserved m caller req s' name bound)
      (request (.patchPod caller name candidate.version (stamp m req))) log s := by
  refine ensures_request hs ?_ ?_
  · intro s' f hs' hlater
    have hfree : ∀ pod, s'.pods.lookup name = some pod → pod.version = candidate.version →
        claimID m pod = "" := by
      intro pod hpod hversion
      rw [(h.later hlater).seen.same pod hpod hversion]
      exact h.free
    have hpatch :
        Sound m (s'.handle (.patchPod caller name candidate.version (stamp m req))).2 :=
      hs'.patch (lookup_stamp m req) req.named hfree
    exact hs'.answer hpatch f
  · intro s' f hs' _ bound hbound
    cases f with
    | refused e | lost e => cases hbound
    | through | random text | answer r => exact patch_reserved hs' hbound

theorem get_seen (hs : Sound m s) {pod : Pod} (h : s.pods.get name = .ok pod) :
    Seen s name pod := by
  cases hpod : s.pods.lookup name with
  | none =>
    rw [Objects.get_eq_notFound hpod] at h
    cases h
  | some p =>
    rw [Objects.get_eq_ok hpod] at h
    cases h
    exact hs.seen hpod

theorem ensures_getPod (hs : Sound m s) (name : String) :
    Ensures m (fun r s' => ∀ pod, r = .ok pod → Seen s' name pod) (request (.getPod name)) log s := by
  refine ensures_plain hs rfl ?_
  intro s' f hs' _ pod hpod
  cases f with
  | refused e | lost e => cases hpod
  | through | random text | answer r => exact get_seen hs' hpod

theorem ensures_attempts (name : String) (n : Nat) {candidate : Pod} (hs : Sound m s)
    (h : SeenFree m s name candidate) :
    Ensures m (fun r s' => ∀ bound, r = .ok bound → Reserved m caller req s' name bound)
      (attempts m caller req name n candidate) log s := by
  induction n generalizing candidate log s with
  | zero => exact ensures_return hs nofun
  | succ n ih =>
    refine (ensures_patch hs h).bind ?_
    intro log r s' hs' hlater hr
    cases r with
    | ok bound =>
      refine ensures_return hs' ?_
      intro _ hbound
      cases hbound
      exact hr bound rfl
    | error e =>
      cases e with
      | conflict =>
        refine (ensures_getPod hs' name).bind ?_
        intro log r s'' hs'' hlater' hr'
        cases r with
        | ok latest =>
          simp only
          split
          · rename_i hfree
            exact ih hs'' ⟨hr' latest rfl, claimID_of_claimable hfree⟩
          · exact ensures_return hs'' nofun
        | error e =>
          cases e with
          | conflict => exact ih hs'' (h.later (hlater.trans hlater'))
          | _ => exact ensures_return hs'' nofun
      | _ => exact ensures_return hs' nofun

/-- What is known of the units a caller may try. -/
def Ready (m : Manager) (byName : ByName) (s : Cluster) (unit : WarmUnit) : Prop :=
  ∀ pod, byName.lookup unit.id = some pod → SeenFree m s unit.id pod

theorem ensures_reserveUnit (hs : Sound m s) {byName : ByName} {unit : WarmUnit}
    (h : Ready m byName s unit) :
    Ensures m (fun r s' =>
        (∀ name, name ≠ unit.id → r.1.lookup name = byName.lookup name) ∧
          (r.2 = .ok () → ∃ pod, r.1.lookup unit.id = some pod ∧
            Reserved m caller req s' unit.id pod))
      (reserveUnit m caller req byName unit) log s := by
  rw [reserveUnit]
  split
  · exact ensures_return hs ⟨fun _ _ => rfl, nofun⟩
  rename_i pod hpod
  have hname : pod.name = unit.id := (h pod hpod).seen.named
  rw [reserve, hname]
  refine (ensures_attempts unit.id 5 hs (h pod hpod)).bind ?_
  intro log r s' hs' _ hr
  cases r with
  | error e => exact ensures_return hs' ⟨fun _ _ => rfl, nofun⟩
  | ok bound =>
    refine ensures_return hs' ⟨?_, ?_⟩
    · intro name hne
      exact AList.lookup_insert_ne hne
    · intro _
      exact ⟨bound, AList.lookup_insert _, hr bound rfl⟩

theorem Reserved.won {s' : Cluster} {pod : Pod} (h : Reserved m caller req s name pod)
    (hlater : Later s s') (addr token claimID : String) (f : Fate) :
    Won m caller req (serve s' (.post caller name addr token claimID) f).2 pod := by
  refine ⟨h.carries, stamp m req, lookup_stamp m req, ?_⟩
  have hmem := hlater.notes.subset h.stamped
  change List.Sublist _ (s'.notes ++ [Note.posted caller name])
  rw [h.named]
  exact List.Sublist.append (singleton_sublist.mpr hmem) (List.Sublist.refl _)

/-- What `claimUnit` comes to: no other unit is touched, and a unit that is won is the caller's. -/
def Claimed (m : Manager) (caller : Nat) (req : Request m) (byName : ByName) (unit : WarmUnit)
    (r : ByName × Except ClaimError Unit) (s : Cluster) : Prop :=
  (∀ name, name ≠ unit.id → r.1.lookup name = byName.lookup name) ∧
    (r.2 = .ok () → ∃ pod, r.1.lookup unit.id = some pod ∧ Won m caller req s pod)

theorem ensures_claimUnit (hs : Sound m s) {byName : ByName} {unit : WarmUnit}
    (h : Ready m byName s unit) :
    Ensures m (Claimed m caller req byName unit) (claimUnit m caller req byName unit) log s := by
  refine (ensures_reserveUnit hs h).bind ?_
  rintro log ⟨byName', r⟩ s' hs' - ⟨hothers, hr⟩
  cases r with
  | error e => exact ensures_return hs' ⟨hothers, nofun⟩
  | ok u =>
    obtain ⟨pod, hpod, hreserved⟩ := hr rfl
    have hpost : Ensures m (fun _ s'' => Won m caller req s'' pod)
        (request (.post caller unit.id unit.addr unit.token req.claimID)) log s' :=
      ensures_plain hs' rfl fun _ f _ hlater => hreserved.won hlater _ _ _ f
    refine hpost.bind ?_
    intro log r s'' hs'' _ hwon
    cases r with
    | ok _ => exact ensures_return hs'' ⟨hothers, fun _ => ⟨pod, hpod, hwon⟩⟩
    | error e =>
      cases e with
      | conflict => exact ensures_return hs'' ⟨hothers, nofun⟩
      | _ =>
        refine Ensures.bind (Q := fun _ _ => True) ?_ ?_
        · exact (ensures_any hs'' rfl).bind fun _ _ _ hs _ _ => ensures_return hs trivial
        · intro log _ s3 hs3 _ _
          exact ensures_return hs3 ⟨hothers, nofun⟩

end

end Orchestrator.Warm

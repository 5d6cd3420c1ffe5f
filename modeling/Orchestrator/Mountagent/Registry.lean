/-
  Orchestrator.Mountagent.Registry

  The registry of the node mount agent: published volumes by id, and by the token that
  selects them.

  A publish looks at the registry three times, each under the lock but not under one
  lock: the lookup of `NodePublishVolume`, the owner check of `put`, and its commit behind
  the durable record.  Other publishes and removals come in between.  A volume is a new
  object for every publish, so it carries the number of the call that made it; the record
  itself is not modelled, and tokens stand for their hashes.
-/

import Mathlib.Logic.Function.Basic
import Orchestrator.Lib.Machine

namespace Orchestrator.Mountagent

open Lib.Machine Function

/-- `Volume`, made by publish call `ref`. -/
structure Volume (Token : Type) where
  ref : Nat
  id : String
  token : Token
deriving DecidableEq, Repr

/-- How far a publish has come: the workspace is bound, the token has been checked, the record
    is on disk. -/
inductive Stage where
  | bound
  | checked
  | recorded
deriving DecidableEq, Repr

/-- `registry`, with the publishes that are running. -/
structure Registry (Token : Type) where
  byID : String → Option (Volume Token)
  byToken : Token → Option (Volume Token)
  calls : Nat → Option (Volume Token × Stage)
  next : Nat

inductive Event (Token : Type) where
  /-- A publish finds the target mounted or not. -/
  | publish (id : String) (token : Token) (mounted : Bool)
  | bindFails (ref : Nat)
  /-- The first part of `put`. -/
  | check (ref : Nat)
  | record (ref : Nat) (written : Bool)
  /-- The last part of `put`. -/
  | commit (ref : Nat)
  | remove (id : String)
deriving DecidableEq, Repr

inductive Reply where
  | published (id : String)
  | failed (id : String)
  | removed (id : String)
deriving DecidableEq, Repr

section

variable {Token : Type} [DecidableEq Token]

def newRegistry : Registry Token := ⟨fun _ => none, fun _ => none, fun _ => none, 0⟩

def Registry.leave (r : Registry Token) (ref : Nat) : Registry Token :=
  { r with calls := update r.calls ref none }

/-- `NodePublishVolume` up to the bind: a volume that is known and mounted is published
    already. -/
def Registry.publish (r : Registry Token) (id : String) (token : Token) (mounted : Bool) :
    Registry Token × List Reply :=
  if r.byID id ≠ none ∧ mounted = true then (r, [.published id])
  else
    ({ r with
       calls := update r.calls r.next (some (⟨r.next, id, token⟩, .bound))
       next := r.next + 1 }, [])

/-- The owner check of `put`. -/
def Registry.check (r : Registry Token) (ref : Nat) : Registry Token × List Reply :=
  match r.calls ref with
  | some (v, .bound) =>
    if (r.byToken v.token).any fun owner => owner.id ≠ v.id then (r.leave ref, [.failed v.id])
    else ({ r with calls := update r.calls ref (some (v, .checked)) }, [])
  | _ => (r, [])

def Registry.record (r : Registry Token) (ref : Nat) (written : Bool) :
    Registry Token × List Reply :=
  match r.calls ref with
  | some (v, .checked) =>
    if written then ({ r with calls := update r.calls ref (some (v, .recorded)) }, [])
    else (r.leave ref, [.failed v.id])
  | _ => (r, [])

def Registry.put (r : Registry Token) (v : Volume Token) : Registry Token :=
  { r with
    byID := update r.byID v.id (some v)
    byToken := update r.byToken v.token (some v) }

def Registry.commit (r : Registry Token) (ref : Nat) : Registry Token × List Reply :=
  match r.calls ref with
  | some (v, .recorded) => ((r.put v).leave ref, [.published v.id])
  | _ => (r, [])

/-- `remove`: only the token the volume has now is taken out, and only while it selects this
    very volume. -/
def Registry.remove (r : Registry Token) (id : String) : Registry Token :=
  { r with
    byID := update r.byID id none
    byToken := match r.byID id with
      | some v => if r.byToken v.token = some v then update r.byToken v.token none
          else r.byToken
      | none => r.byToken }

def step (r : Registry Token) : Event Token → Registry Token × List Reply
  | .publish id token mounted => r.publish id token mounted
  | .bindFails ref =>
    match r.calls ref with
    | some (v, .bound) => (r.leave ref, [.failed v.id])
    | _ => (r, [])
  | .check ref => r.check ref
  | .record ref written => r.record ref written
  | .commit ref => r.commit ref
  | .remove id => (r.remove id, [.removed id])

/-! ## What the claim on tokens is -/

/-- `forToken`: the id of the volume that a token selects. -/
def Registry.forToken (r : Registry Token) (token : Token) : Option String :=
  (r.byToken token).map Volume.id

def Registry.Live (r : Registry Token) (id : String) : Prop := r.byID id ≠ none

/-- A step keeps workspaces apart: a token of a live volume does not come to select another
    one, no two live volumes have one token, and what a token selects is live. -/
structure KeepsApart (r r' : Registry Token) : Prop where
  keeps : ∀ token i j, r.forToken token = some i → r.Live i → r'.forToken token = some j → j = i
  apart : ∀ i j v w, r'.byID i = some v → r'.byID j = some w → v.token = w.token → i = j
  live : ∀ token i, r'.forToken token = some i → r'.Live i

/-- A step is careful: the token of a commit is still free or the volume's own, and a volume is
    removed only when every token that selects it is the one it has now. -/
def Careful (r : Registry Token) : Event Token → Prop
  | .commit ref => ∀ v, r.calls ref = some (v, .recorded) →
      ∀ owner, r.byToken v.token = some owner → owner.id = v.id
  | .remove id => ∀ token owner, r.byToken token = some owner → owner.id = id →
      r.byID id = some owner
  | _ => True

/-- The two indexes fit: a live volume is selected by its token, and every token selects a live
    volume. -/
structure Registry.Sound (r : Registry Token) : Prop where
  indexed : ∀ i v, r.byID i = some v → v.id = i ∧ r.byToken v.token = some v
  selected : ∀ token v, r.byToken token = some v → v.token = token ∧ r.Live v.id

omit [DecidableEq Token] in
theorem newRegistry_sound : (newRegistry : Registry Token).Sound :=
  ⟨nofun, nofun⟩

omit [DecidableEq Token] in
theorem Registry.Sound.keepsApart {r r' : Registry Token} (h : r'.Sound)
    (hkeeps : ∀ token i j, r.forToken token = some i → r.Live i → r'.forToken token = some j →
      j = i) : KeepsApart r r' := by
  refine ⟨hkeeps, ?_, ?_⟩
  · intro i j v w hv hw heq
    obtain ⟨hi, hvt⟩ := h.indexed i v hv
    obtain ⟨hj, hwt⟩ := h.indexed j w hw
    rw [heq, hwt] at hvt
    cases hvt
    rw [← hi, hj]
  · intro token i hi
    rw [Registry.forToken, Option.map_eq_some_iff] at hi
    obtain ⟨v, hv, rfl⟩ := hi
    exact (h.selected token v hv).2

/-! ## Steps -/

/-- Only commits and removals change the indexes. -/
theorem step_indexes (r : Registry Token) (e : Event Token) :
    (∃ ref v, e = .commit ref ∧ r.calls ref = some (v, .recorded) ∧
        (step r e).1 = (r.put v).leave ref) ∨
      (∃ id, e = .remove id ∧ (step r e).1 = r.remove id) ∨
      ((step r e).1.byID = r.byID ∧ (step r e).1.byToken = r.byToken ∧ Careful r e) := by
  cases e with
  | publish id token mounted =>
    refine .inr (.inr ?_)
    rw [step, Registry.publish]
    split <;> exact ⟨rfl, rfl, trivial⟩
  | bindFails ref =>
    refine .inr (.inr ?_)
    rw [step]
    split <;> exact ⟨rfl, rfl, trivial⟩
  | check ref =>
    refine .inr (.inr ?_)
    rw [step, Registry.check]
    split
    · split <;> exact ⟨rfl, rfl, trivial⟩
    · exact ⟨rfl, rfl, trivial⟩
  | record ref written =>
    refine .inr (.inr ?_)
    rw [step, Registry.record]
    split
    · split <;> exact ⟨rfl, rfl, trivial⟩
    · exact ⟨rfl, rfl, trivial⟩
  | commit ref =>
    by_cases h : ∃ v, r.calls ref = some (v, .recorded)
    · obtain ⟨v, hv⟩ := h
      exact .inl ⟨ref, v, rfl, hv, by rw [step, Registry.commit, hv]⟩
    have hsame : (step r (.commit ref)).1 = r := by
      rw [step, Registry.commit]
      split
      · rename_i v hv
        exact absurd ⟨v, hv⟩ h
      · rfl
    refine .inr (.inr ⟨by rw [hsame], by rw [hsame], ?_⟩)
    intro v hv
    exact absurd ⟨v, hv⟩ h
  | remove id => exact .inr (.inl ⟨id, rfl, rfl⟩)

section

variable {r : Registry Token} {v : Volume Token} (h : r.Sound)
include h

/-- Putting a volume whose token is free or its own keeps the indexes fitting. -/
theorem Registry.Sound.put (hfree : ∀ owner, r.byToken v.token = some owner → owner.id = v.id)
    (ref : Nat) : ((r.put v).leave ref).Sound := by
  constructor
  · intro i w hw
    change update r.byID v.id (some v) i = some w at hw
    by_cases hi : i = v.id
    · subst hi
      rw [update_self] at hw
      cases hw
      exact ⟨rfl, update_self ..⟩
    · rw [update_of_ne hi] at hw
      obtain ⟨hid, hat⟩ := h.indexed i w hw
      refine ⟨hid, ?_⟩
      have hne : w.token ≠ v.token := by
        intro heq
        rw [heq] at hat
        exact hi (by rw [← hid, hfree w hat])
      show update r.byToken v.token (some v) w.token = some w
      rw [update_of_ne hne, hat]
  · intro token w hw
    change update r.byToken v.token (some v) token = some w at hw
    by_cases ht : token = v.token
    · subst ht
      rw [update_self] at hw
      cases hw
      refine ⟨rfl, ?_⟩
      show update r.byID v.id (some v) v.id ≠ none
      rw [update_self]
      simp
    · rw [update_of_ne ht] at hw
      obtain ⟨htoken, hlive⟩ := h.selected token w hw
      refine ⟨htoken, ?_⟩
      show update r.byID v.id (some v) w.id ≠ none
      by_cases hi : w.id = v.id
      · rw [hi, update_self]
        simp
      · rw [update_of_ne hi]
        exact hlive

/-- **A commit keeps workspaces apart exactly when the token is still free or its own.** -/
theorem keepsApart_put_iff (ref : Nat) :
    KeepsApart r ((r.put v).leave ref) ↔
      ∀ owner, r.byToken v.token = some owner → owner.id = v.id := by
  have hafter : ((r.put v).leave ref).forToken v.token = some v.id := by
    show (update r.byToken v.token (some v) v.token).map Volume.id = some v.id
    rw [update_self]
    rfl
  constructor
  · intro hkeeps owner howner
    have hbefore : r.forToken v.token = some owner.id := by
      rw [Registry.forToken, howner]
      rfl
    exact (hkeeps.keeps _ _ _ hbefore (h.selected _ _ howner).2 hafter).symm
  · intro hfree
    apply (h.put hfree ref).keepsApart
    intro token i j hi _ hj
    by_cases ht : token = v.token
    · subst ht
      rw [hafter] at hj
      cases hj
      rw [Registry.forToken, Option.map_eq_some_iff] at hi
      obtain ⟨owner, howner, rfl⟩ := hi
      exact (hfree owner howner).symm
    · have hsame : ((r.put v).leave ref).forToken token = r.forToken token := by
        show (update r.byToken v.token (some v) token).map Volume.id = _
        rw [update_of_ne ht]
        rfl
      rw [hsame, hi] at hj
      cases hj
      rfl

end

section

variable {r : Registry Token} {id : String} (h : r.Sound)
include h

theorem Registry.Sound.byToken_remove (token : Token) :
    (r.remove id).byToken token =
      if ∃ v, r.byID id = some v ∧ v.token = token then none else r.byToken token := by
  rw [Registry.remove]
  cases hid : r.byID id with
  | none => simp
  | some v =>
    have hat := (h.indexed id v hid).2
    simp only [hat, if_true, Option.some.injEq, exists_eq_left']
    by_cases ht : v.token = token
    · rw [if_pos ht, ht, update_self]
    · rw [if_neg ht, update_of_ne (Ne.symm ht)]

/-- Removing a volume that has no other token keeps the indexes fitting. -/
theorem Registry.Sound.remove (hcareful : Careful r (.remove id)) : (r.remove id).Sound := by
  constructor
  · intro i v hv
    change update r.byID id none i = some v at hv
    have hi : i ≠ id := by
      rintro rfl
      rw [update_self] at hv
      cases hv
    rw [update_of_ne hi] at hv
    obtain ⟨hid, hat⟩ := h.indexed i v hv
    refine ⟨hid, ?_⟩
    rw [h.byToken_remove, if_neg, hat]
    rintro ⟨w, hw, ht⟩
    obtain ⟨hwid, hwat⟩ := h.indexed id w hw
    rw [ht, hat] at hwat
    cases hwat
    exact hi (hid.symm.trans hwid)
  · intro token v hv
    rw [h.byToken_remove] at hv
    by_cases hgone : ∃ w, r.byID id = some w ∧ w.token = token
    · rw [if_pos hgone] at hv
      cases hv
    rw [if_neg hgone] at hv
    obtain ⟨htoken, hlive⟩ := h.selected token v hv
    have hne : v.id ≠ id := fun heq => hgone ⟨v, hcareful token v hv heq, htoken⟩
    refine ⟨htoken, ?_⟩
    show update r.byID id none v.id ≠ none
    rw [update_of_ne hne]
    exact hlive

/-- **A removal keeps workspaces apart exactly when the volume has no other token.** -/
theorem keepsApart_remove_iff :
    KeepsApart r (r.remove id) ↔ Careful r (.remove id) := by
  constructor
  · intro hkeeps token owner howner hid
    by_contra hother
    -- a token that selects the volume but is not its own is left behind
    have hleft : (r.remove id).byToken token = some owner := by
      rw [h.byToken_remove, if_neg, howner]
      rintro ⟨v, hv, ht⟩
      have hat := (h.indexed id v hv).2
      rw [ht, howner] at hat
      cases hat
      exact hother hv
    have hlive := hkeeps.live token owner.id (by rw [Registry.forToken, hleft]; rfl)
    rw [hid] at hlive
    exact hlive (update_self ..)
  · intro hcareful
    apply (h.remove hcareful).keepsApart
    intro token i j hi _ hj
    rw [Registry.forToken, h.byToken_remove] at hj
    by_cases hgone : ∃ w, r.byID id = some w ∧ w.token = token
    · rw [if_pos hgone] at hj
      cases hj
    rw [if_neg hgone] at hj
    change r.forToken token = some j at hj
    rw [hi] at hj
    cases hj
    rfl

end

omit [DecidableEq Token] in
theorem Registry.Sound.congr {r r' : Registry Token} (h : r.Sound) (hid : r'.byID = r.byID)
    (htoken : r'.byToken = r.byToken) : r'.Sound := by
  constructor
  · rw [hid, htoken]
    exact h.indexed
  · simp only [Registry.Live, hid, htoken]
    exact h.selected

/-- One step: exactly the careful ones keep workspaces apart. -/
theorem keepsApart_step_iff {r : Registry Token} (h : r.Sound) (e : Event Token) :
    KeepsApart r (step r e).1 ↔ Careful r e := by
  rcases step_indexes r e with ⟨ref, v, rfl, hcall, heq⟩ | ⟨id, rfl, heq⟩ | ⟨hid, htoken, hcareful⟩
  · rw [heq, keepsApart_put_iff h ref, Careful]
    constructor
    · intro hfree w hw
      rw [hcall] at hw
      cases hw
      exact hfree
    · intro hcareful
      exact hcareful v hcall
  · rw [heq]
    exact keepsApart_remove_iff h
  · refine iff_of_true ((h.congr hid htoken).keepsApart ?_) hcareful
    intro token i j hi _ hj
    rw [Registry.forToken, htoken] at hj
    change r.forToken token = some j at hj
    rw [hi] at hj
    cases hj
    rfl

theorem Registry.Sound.step {r : Registry Token} (h : r.Sound) {e : Event Token}
    (hcareful : Careful r e) : (step r e).1.Sound := by
  rcases step_indexes r e with ⟨ref, v, rfl, hcall, heq⟩ | ⟨id, rfl, heq⟩ | ⟨hid, htoken, -⟩
  · rw [heq]
    exact h.put (hcareful v hcall) ref
  · rw [heq]
    exact h.remove hcareful
  · exact h.congr hid htoken

/-- **Workspaces are kept apart by exactly the runs of careful steps**: over every interleaving
    of publishes, republishes and removals. -/
theorem keepsApart_iff_careful (events : List (Event Token)) :
    Along (fun r e => KeepsApart r (step r e).1) step newRegistry events ↔
      Along Careful step newRegistry events :=
  along_iff_along Registry.Sound (fun _ _ h hcareful => h.step hcareful)
    (fun _ e h => keepsApart_step_iff h e) newRegistry_sound events

end

def publishing (ref : Nat) (id : String) (token : Nat) : List (Event Nat) :=
  [.publish id token false, .check ref, .record ref true, .commit ref]

/-- A volume is republished with a new token and removed: the old token still selects it. -/
def republished : List (Event Nat) :=
  publishing 0 "a" 1 ++ publishing 1 "a" 2 ++ [.remove "a"]

def raced : List (Event Nat) :=
  [.publish "a" 1 false, .publish "b" 1 false, .check 0, .check 1, .record 0 true, .record 1 true,
    .commit 0, .commit 1]

/-- After the removal the old token resolves to the removed volume; in the race a token of a
    live volume comes to select another one. -/
theorem tokens_not_kept_apart :
    ((run step newRegistry republished).1.forToken 1 = some "a" ∧
        ¬ (run step newRegistry republished).1.Live "a") ∧
      ((run step newRegistry (raced.take 7)).1.forToken 1 = some "a" ∧
        (run step newRegistry (raced.take 7)).1.Live "a" ∧
        (run step newRegistry raced).1.forToken 1 = some "b" ∧
        (run step newRegistry raced).1.Live "a") := by
  refine ⟨⟨by decide, ?_⟩, by decide, ?_, by decide, ?_⟩
  · intro h
    exact h (by decide)
  · intro h
    exact absurd h (by decide)
  · intro h
    exact absurd h (by decide)

end Orchestrator.Mountagent

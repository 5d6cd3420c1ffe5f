/-
  Orchestrator.Sidecar.Baseline

  What a push that returns nil says about the object at the sync destination.

  A push is skipped when the summary of the upper layer is the baseline, so the object has
  to be the layer that the baseline is the summary of.  `Inv` is that, and `Trouble` lists
  what breaks it: a restore over a layer that is not empty, a restore that does not bring
  back what was packed, a write between the summary and the archive, an archive that is
  staged in the layer, one that is cut short without an error, an upload that replaces the
  object and fails, a push without a summary, and a push that does not see the directory.

  One more lets a push replace an object that was not read: a missing file of the host that
  a restore takes for a missing object.
-/

import Orchestrator.Sidecar.Sync

namespace Orchestrator.Sidecar.Sync

open Lib Lib.Machine

variable {F : Format}

/-! ## What the object holds -/

/-- What a push that returns nil promises: if the workload has not written since the
    summary, the object is the upper layer. -/
def Returned.Sound (r : Returned F) : Prop :=
  match r.upper with
  | none => True
  | some l => r.written = false → Holds r.object l

instance (r : Returned F) : Decidable r.Sound :=
  match h : r.upper with
  | none => .isTrue (by rw [Returned.Sound, h]; trivial)
  | some l => decidable_of_iff (r.written = false → Holds r.object l) (by rw [Returned.Sound, h])

/-- What parts the baseline from the object, or the object from what was read. -/
inductive Trouble where
  /-- A delta is restored over a layer that is not empty. -/
  | stale
  /-- A delta that is restored into an empty layer does not come back as it was. -/
  | lossy
  /-- The workload writes between the summary and the archive. -/
  | torn
  /-- The archive is staged in the mount itself. -/
  | inside
  /-- A call fails under the packing, which reports success for an archive of something else. -/
  | truncated
  /-- A push fails after it has replaced the object. -/
  | orphaned
  /-- The summary fails, and the push succeeds. -/
  | unprinted
  /-- The upper directory cannot be looked at. -/
  | unseen
  /-- A missing file of the host is taken for a missing object. -/
  | missed
deriving DecidableEq, Repr

def troubles (s : State F) : Event F → List Trouble
  | .restore .missing => if s.unread ∨ s.object.isSome then [.missed] else []
  | .restore (.ends _) =>
    let base := s.upper.getD F.empty
    match s.object with
    | none => []
    | some archive =>
      if F.fresh base = false then [.stale]
      else if Holds (some archive) (F.unpack archive base) then []
      else [.lossy]
  | .print .noStat => if s.upper.isSome then [.unseen] else []
  | .print .noPrint => if s.upper.isSome then [.unprinted] else []
  | .pack disturbed faulty =>
    match s.push, s.upper with
    | .printed _, some l =>
      if s.written then [.torn]
      else if F.staged.isSome then [.inside]
      else
        match faulty, disturbed with
        | true, (some archive, true) => if Holds (some archive) l then [] else [.truncated]
        | _, _ => []
    | _, _ => []
  | .upload answer =>
    match s.push, answer with
    | .packed _ (some _) false, .through => [.orphaned]
    | .packed _ (some _) _, .lost => [.orphaned]
    | _, _ => []
  | _ => []

/-- Nothing goes wrong in an event but what `A` allows. -/
def Only (A : Trouble → Prop) (s : State F) (e : Event F) : Prop := ∀ t ∈ troubles s e, A t

instance (A : Trouble → Prop) [DecidablePred A] (s : State F) (e : Event F) :
    Decidable (Only A s e) :=
  inferInstanceAs (Decidable (∀ t ∈ troubles s e, A t))

/-- A push is under way only while the mount is synced, and there is no overlay before it is
    mounted. -/
structure Guarded (s : State F) : Prop where
  quiet : s.phase.syncs = false → s.push = .idle
  bare : s.phase = .mounting ∨ s.phase = .restored → s.overlay = false

theorem guarded_init (object : Option F.Archive) : Guarded (State.init object) where
  quiet _ := rfl
  bare h := by rcases h with h | h <;> cases h

section

variable {s : State F}

theorem guarded_exit (s : State F) : Guarded s.exit where
  quiet _ := rfl
  bare hphase := by rcases hphase with hphase | hphase <;> cases hphase

theorem guarded_establish (s : State F) (e : Establish) : Guarded (s.establish e) := by
  cases e with
  | up => exact ⟨nofun, fun hphase => (by simp [State.establish] at hphase)⟩
  | down removed | rolledBack t => exact guarded_exit _

theorem Guarded.finish (h : Guarded s) : Guarded s.finish where
  quiet _ := rfl
  bare hphase := by
    apply h.bare
    by_cases hflush : s.phase = .flushing
    · simp [State.finish, hflush] at hphase
    · simpa [State.finish, hflush] using hphase

theorem Guarded.of_same {s' : State F} (h : Guarded s) (hphase : s'.phase = s.phase)
    (hoverlay : s'.overlay = s.overlay) (hpush : s.push = .idle → s'.push = .idle) :
    Guarded s' where
  quiet hsyncs := hpush (h.quiet (hphase ▸ hsyncs))
  bare := by
    rw [hphase, hoverlay]
    exact h.bare

section

variable (h : Guarded s)
include h

theorem Guarded.start (hdown : s.phase = .down) (others : Option Bool) (t : Teardown) :
    Guarded (s.start others t) := by
  have hidle : s.push = .idle := h.quiet (by rw [hdown]; rfl)
  cases others with
  | none => exact h
  | some others =>
    rw [State.start]
    by_cases hoverlay : s.overlay = false
    · rw [if_pos hoverlay]
      exact ⟨fun _ => hidle, fun _ => hoverlay⟩
    rw [if_neg hoverlay]
    cases others with
    | true => exact ⟨nofun, fun hphase => (by simp at hphase)⟩
    | false =>
      cases t with
      | whole | overlayOnly => exact ⟨fun _ => hidle, fun _ => rfl⟩
      | refused => exact h

theorem Guarded.restoreDelta (hmounting : s.phase = .mounting) (r : Restore F) :
    Guarded (s.restoreDelta r) := by
  have hidle : s.push = .idle := h.quiet (by rw [hmounting]; rfl)
  have hoverlay : s.overlay = false := h.bare (.inl hmounting)
  cases r with
  | fails left => exact guarded_exit _
  | missing => exact ⟨fun _ => hidle, fun _ => hoverlay⟩
  | ends printed =>
    rw [State.restoreDelta]
    cases s.object <;> exact ⟨fun _ => hidle, fun _ => hoverlay⟩

theorem Guarded.beginPush (hsyncs : s.phase.syncs = true) (look : Look) :
    Guarded (s.beginPush look).1 := by
  rcases beginPush_cases s look with ⟨heq, -⟩ | ⟨l, print, heq, -⟩
  · rw [heq]
    exact Guarded.finish (h.of_same rfl rfl fun hidle => hidle)
  · rw [heq]
    exact ⟨fun hnot => (by cases hsyncs.symm.trans hnot), h.bare⟩

theorem Guarded.upload (print : Option F.Print) (whole : Bool) (archive : Option F.Archive)
    (answer : StoreAnswer) : Guarded (s.upload print whole archive answer).1 := by
  have hobject : ∀ object pushed, Guarded { s with object := object, pushed := pushed }.finish :=
    fun object pushed => Guarded.finish (h.of_same rfl rfl fun hidle => hidle)
  cases archive with
  | none => exact h.finish
  | some archive =>
    cases answer with
    | through => cases whole <;> exact hobject _ _
    | refused => exact h.finish
    | lost => exact hobject _ _

/-- **A step** keeps a push to its mount. -/
theorem Guarded.step (e : Event F) : Guarded (step s e).1 := by
  -- an event that the state does not allow changes nothing: the last case of each split
  cases e with
  | write l =>
    rw [Sync.step]
    split
    · exact h.of_same rfl rfl fun hidle => hidle
    · exact h
  | crash overlayLost => exact guarded_exit _
  | start others t =>
    rw [Sync.step]
    split
    · rename_i hdown
      exact h.start hdown others t
    · exact h
  | restore r =>
    rw [Sync.step]
    split
    · rename_i hmounting
      exact h.restoreDelta hmounting r
    · exact h
  | establish e =>
    rw [Sync.step]
    split
    · exact guarded_establish s e
    · exact h
  | print look =>
    rw [Sync.step]
    split
    · split
      · rename_i hsyncs
        exact h.beginPush hsyncs look
      · exact h
    · exact h
  | pack disturbed faulty =>
    rw [Sync.step]
    split
    · rename_i print l hpush hupper
      refine h.of_same rfl rfl fun hidle => ?_
      rw [hidle] at hpush
      cases hpush
    · exact h
  | upload answer =>
    rw [Sync.step]
    split
    · exact h.upload _ _ _ answer
    · exact h
  | stopSync =>
    rw [Sync.step]
    split
    · split
      · rename_i hidle hsyncing
        exact ⟨fun _ => hidle, fun hphase => (by simp at hphase)⟩
      · exact h
    · exact h
  | release t =>
    rw [Sync.step]
    split
    · exact guarded_exit _
    · exact h

end

end

/-! ## No push without a restore -/

/-- A mount whose object was not read has no overlay and no push. -/
structure Withheld (s : State F) : Prop where
  overlay : s.overlay = false
  phase : s.phase = .down ∨ s.phase = .mounting

section

variable {s : State F}

theorem Withheld.exit (h : s.overlay = false) : Withheld s.exit := ⟨h, .inl rfl⟩

/-- **A step of a sidecar whose restore has not read the object** leaves the object, and the
    mount stays so until a restore reads it. -/
theorem Guarded.step_unread (h : Guarded s) (hwithheld : Withheld s) (hunread : s.unread = true)
    {e : Event F} (hread : ∀ printed, e ≠ .restore (.ends printed))
    (hmissed : .missed ∉ troubles s e) :
    (Sync.step s e).1.object = s.object ∧ (Sync.step s e).1.unread = true ∧
      Withheld (Sync.step s e).1 := by
  obtain ⟨hoverlay, hphase⟩ := id hwithheld
  have hne : s.phase.syncs = false ∧ s.phase ≠ .restored ∧ s.phase ≠ .syncing ∧
      s.phase ≠ .flushed := by
    rcases hphase with hphase | hphase <;> rw [hphase] <;> decide
  -- without an overlay and a push, what is left is to start again or to fail
  have hidle := h.quiet hne.1
  cases e with
  | write l =>
    rw [Sync.step, if_neg (by rw [hoverlay]; simp)]
    exact ⟨rfl, hunread, hwithheld⟩
  | crash overlayLost =>
    exact ⟨rfl, hunread, Withheld.exit (by simp [hoverlay])⟩
  | start others t =>
    rw [Sync.step]
    split
    · cases others with
      | none => exact ⟨rfl, hunread, hwithheld⟩
      | some others =>
        rw [State.start, if_pos hoverlay]
        exact ⟨rfl, hunread, hoverlay, .inr rfl⟩
    · exact ⟨rfl, hunread, hwithheld⟩
  | restore r =>
    rw [Sync.step]
    split
    · cases r with
      | fails left => exact ⟨rfl, rfl, Withheld.exit hoverlay⟩
      | missing => exact absurd (by simp [troubles, hunread]) hmissed
      | ends printed => exact absurd rfl (hread printed)
    · exact ⟨rfl, hunread, hwithheld⟩
  | establish e =>
    rw [Sync.step, if_neg hne.2.1]
    exact ⟨rfl, hunread, hwithheld⟩
  | print look =>
    rw [Sync.step, hidle]
    dsimp only
    rw [hne.1, if_neg Bool.false_ne_true]
    exact ⟨rfl, hunread, hwithheld⟩
  | pack disturbed faulty | upload answer =>
    rw [Sync.step, hidle]
    exact ⟨rfl, hunread, hwithheld⟩
  | stopSync =>
    rw [Sync.step, hidle]
    dsimp only
    rw [if_neg hne.2.2.1]
    exact ⟨rfl, hunread, hwithheld⟩
  | release t =>
    rw [Sync.step, if_neg hne.2.2.2]
    exact ⟨rfl, hunread, hwithheld⟩

@[simp] theorem unread_unmount (s : State F) (t : Teardown) : (s.unmount t).unread = s.unread := by
  cases t <;> rfl

theorem unread_beginPush (s : State F) (look : Look) : (s.beginPush look).1.unread = s.unread := by
  rcases beginPush_cases s look with ⟨heq, -⟩ | ⟨l, print, heq, -⟩ <;> rw [heq]
  rfl

theorem unread_upload (s : State F) (print : Option F.Print) (whole : Bool)
    (archive : Option F.Archive) (answer : StoreAnswer) :
    (s.upload print whole archive answer).1.unread = s.unread := by
  cases archive <;> cases answer <;> cases whole <;> rfl

/-- Only a restore can leave the object unread. -/
theorem Guarded.withheld_step (h : Guarded s) (hread : s.unread = false) {e : Event F}
    (hmissed : .missed ∉ troubles s e) (hunread : (Sync.step s e).1.unread = true) :
    Withheld (Sync.step s e).1 := by
  have hsame : ∀ {b : Bool}, b = s.unread → b = true → False := by
    rintro b rfl hb
    rw [hread] at hb
    cases hb
  -- only a restore sets the flag; every other event leaves it as it is
  cases e with
  | restore r =>
    rw [Sync.step] at hunread ⊢
    split at hunread
    · rename_i hmounting
      rw [if_pos hmounting]
      cases r with
      | fails left => exact Withheld.exit (h.bare (.inl hmounting))
      | missing =>
        simp only [State.restoreDelta, Bool.or_eq_true] at hunread
        exact absurd (by simp [troubles, hunread]) hmissed
      | ends printed =>
        rw [State.restoreDelta] at hunread
        split at hunread <;> cases hunread
    · exact (hsame rfl hunread).elim
  | write l | crash overlayLost | stopSync =>
    refine (hsame ?_ hunread).elim
    rw [Sync.step]
    repeat' split
    all_goals rfl
  | start others t =>
    refine (hsame ?_ hunread).elim
    rw [Sync.step]
    split
    · rw [State.start.eq_def]
      repeat' split
      all_goals first | rfl | exact unread_unmount s _
    · rfl
  | establish e =>
    refine (hsame ?_ hunread).elim
    rw [Sync.step]
    split
    · cases e with
      | up | down removed => rfl
      | rolledBack t => exact unread_unmount _ t
    · rfl
  | print look =>
    refine (hsame ?_ hunread).elim
    rw [Sync.step]
    repeat' split
    all_goals first | rfl | exact unread_beginPush s look
  | pack disturbed faulty =>
    refine (hsame ?_ hunread).elim
    rw [Sync.step]
    split <;> rfl
  | upload answer =>
    refine (hsame ?_ hunread).elim
    rw [Sync.step]
    split
    · exact unread_upload ..
    · rfl
  | release t =>
    refine (hsame ?_ hunread).elim
    rw [Sync.step]
    split
    · exact unread_unmount s t
    · rfl

end

/-- What holds of a sidecar for which no missing file was taken for a missing object. -/
def Reading (s : State F) : Prop := Guarded s ∧ (s.unread = true → Withheld s)

theorem Reading.step {s : State F} (h : Reading s) {e : Event F}
    (hmissed : .missed ∉ troubles s e) : Reading (step s e).1 := by
  refine ⟨h.1.step e, fun hunread => ?_⟩
  cases hs : s.unread with
  | false => exact h.1.withheld_step hs hmissed hunread
  | true =>
    by_cases hends : ∃ printed, e = .restore (.ends printed)
    · obtain ⟨printed, rfl⟩ := hends
      rw [Sync.step] at hunread ⊢
      split at hunread
      · rw [State.restoreDelta] at hunread
        split at hunread <;> cases hunread
      · rename_i hnot
        rw [if_neg hnot]
        exact h.2 hs
    · have hread : ∀ printed, e ≠ .restore (.ends printed) := fun printed heq => hends ⟨printed, heq⟩
      exact (h.1.step_unread (h.2 hs) hs hread hmissed).2.2

/-- No missing file is taken for a missing object. -/
def Found (s : State F) (e : Event F) : Prop := .missed ∉ troubles s e

/-- What a push under way has taken is the layer, unless the workload has written since. -/
def Push.Sound (upper : Option F.Layer) (written : Bool) : Push F → Prop
  | .idle => True
  | .printed print => ∃ l, print = some (F.print l) ∧ (written = false → upper = some l)
  | .packed print archive whole => ∃ l, print = some (F.print l) ∧
      (whole = true → ∀ a, archive = some a → Holds (some a) l) ∧ (written = false → upper = some l)

/-- The object is the layer of the baseline. -/
structure Inv (s : State F) : Prop where
  guarded : Guarded s
  baseline : ∀ print, s.pushed = some print → ∃ l, F.print l = print ∧ Holds s.object l
  push : s.push.Sound s.upper s.written

/-- An event without trouble for the baseline. -/
def Calm (s : State F) (e : Event F) : Prop := Only (· = .missed) s e

section

variable {s : State F}

theorem Push.Sound.write {upper : Option F.Layer} {written : Bool} {p : Push F}
    (h : p.Sound upper written) (l : F.Layer) : p.Sound (some l) true := by
  cases p with
  | idle => trivial
  | printed print =>
    obtain ⟨l', hprint, -⟩ := h
    exact ⟨l', hprint, nofun⟩
  | packed print archive whole =>
    obtain ⟨l', hprint, hpack, -⟩ := h
    exact ⟨l', hprint, hpack, nofun⟩

theorem inv_init (object : Option F.Archive) : Inv (State.init object) where
  guarded := guarded_init object
  baseline print h := by cases h
  push := trivial

theorem inv_exit (s : State F) : Inv s.exit where
  guarded := guarded_exit s
  baseline print hpushed := by cases hpushed
  push := trivial

theorem Inv.of_idle {s' : State F} (h : Inv s) (hguarded : Guarded s') (hidle : s'.push = .idle)
    (hpushed : s'.pushed = s.pushed) (hobject : s'.object = s.object) : Inv s' where
  guarded := hguarded
  baseline := by
    rw [hpushed, hobject]
    exact h.baseline
  push := by
    rw [hidle]
    trivial

theorem start_same (s : State F) (others : Option Bool) (t : Teardown) :
    (s.start others t).push = s.push ∧ (s.start others t).pushed = s.pushed ∧
      (s.start others t).object = s.object := by
  cases others with
  | none => exact ⟨rfl, rfl, rfl⟩
  | some others =>
    rw [State.start]
    split
    · exact ⟨rfl, rfl, rfl⟩
    · split
      · exact ⟨rfl, rfl, rfl⟩
      · split <;> cases t <;> exact ⟨rfl, rfl, rfl⟩

theorem Inv.restoreDelta (h : Inv s) (hmounting : s.phase = .mounting) {r : Restore F}
    (hcalm : Calm s (.restore r)) : Inv (s.restoreDelta r) := by
  have hguarded := h.guarded.restoreDelta hmounting r
  have hidle : s.push = .idle :=
    h.guarded.quiet (by rw [hmounting]; rfl)
  cases r with
  | fails left => exact inv_exit _
  | missing => exact h.of_idle hguarded hidle rfl rfl
  | ends printed =>
    cases hobject : s.object with
    | none =>
      have hsame : s.restoreDelta (.ends printed) =
          { s with upper := some (s.upper.getD F.empty), phase := .restored, unread := false } := by
        rw [State.restoreDelta, hobject]
      rw [hsame] at hguarded ⊢
      exact h.of_idle hguarded hidle rfl rfl
    | some archive =>
      -- anything else than the whole archive of the result is a trouble
      have hholds : Holds s.object (F.unpack archive (s.upper.getD F.empty)) := by
        rw [hobject]
        by_contra hlossy
        rw [Calm, Only, troubles, hobject] at hcalm
        dsimp only at hcalm
        rw [if_neg hlossy] at hcalm
        split at hcalm <;> cases hcalm _ (List.mem_singleton_self _)
      have hsame : s.restoreDelta (.ends printed) =
          { s with
            upper := some (F.unpack archive (s.upper.getD F.empty))
            pushed := if printed then some (F.print (F.unpack archive (s.upper.getD F.empty)))
              else s.pushed
            phase := .restored
            unread := false } := by
        rw [State.restoreDelta, hobject]
      rw [hsame] at hguarded ⊢
      refine ⟨hguarded, fun print hpushed => ?_, ?_⟩
      · cases printed with
        | true => exact ⟨_, Option.some.inj hpushed, hholds⟩
        | false => exact h.baseline print hpushed
      · show s.push.Sound _ _
        rw [hidle]
        trivial

theorem Calm.seen {look : Look} (h : Calm s (.print look)) {l : F.Layer}
    (hupper : s.upper = some l) : look = .seen := by
  cases look with
  | seen => rfl
  | noStat | noPrint =>
    rw [Calm, Only, troubles, hupper] at h
    cases h _ (List.mem_singleton_self _)

theorem Inv.beginPush (hinj : Function.Injective F.print) (h : Inv s)
    (hsyncs : s.phase.syncs = true) {look : Look} (hcalm : Calm s (.print look)) :
    Inv (s.beginPush look).1 ∧ ∀ r ∈ (s.beginPush look).2, r.Sound := by
  have hguarded := h.guarded.beginPush hsyncs look
  rcases beginPush_cases s look with ⟨heq, hskip⟩ | ⟨l, print, heq, hupper, hprint⟩
  · rw [heq] at hguarded ⊢
    refine ⟨h.of_idle hguarded rfl rfl rfl, fun r hr => ?_⟩
    rw [List.mem_singleton.mp hr, Returned.Sound]
    dsimp only
    split
    · trivial
    rename_i l hupper
    intro _
    -- the baseline is the summary of this layer, so it is this layer's
    have hsame : s.pushed = some (F.print l) := by
      rcases hskip l hupper with hlook | hsame
      · cases hlook.symm.trans (hcalm.seen hupper)
      · exact hsame
    obtain ⟨l', hprint, hholds⟩ := h.baseline _ hsame
    rw [hinj hprint] at hholds
    exact hholds
  · rw [heq] at hguarded ⊢
    have hprint' : print = some (F.print l) := by
      rcases hprint with hlook | hprint
      · cases hlook.symm.trans (hcalm.seen hupper)
      · exact hprint
    exact ⟨⟨hguarded, h.baseline, l, hprint', fun _ => hupper⟩, nofun⟩

/-- An archive that is reported as a success is the one of the layer. -/
theorem Calm.packed {disturbed : Option F.Archive × Bool} {faulty : Bool}
    (h : Calm s (.pack disturbed faulty)) {print : Option F.Print} {l : F.Layer}
    (hpush : s.push = .printed print) (hupper : s.upper = some l) :
    s.written = false ∧ F.staged = none ∧
      ((packed s.written l disturbed faulty).2 = true → ∀ a,
        (packed s.written l disturbed faulty).1 = some a → Holds (some a) l) := by
  rw [Calm, Only, troubles, hpush, hupper] at h
  dsimp only at h
  -- a write since the summary and an archive in the layer are troubles themselves
  cases hwritten : s.written with
  | true =>
    rw [hwritten] at h
    cases h _ (List.mem_singleton_self _)
  | false =>
    cases hstaged : F.staged with
    | some f =>
      rw [hwritten, hstaged] at h
      cases h _ (List.mem_singleton_self _)
    | none =>
      refine ⟨rfl, rfl, fun hwhole a ha => ?_⟩
      simp only [hwritten, hstaged, Option.isSome_none, Bool.false_eq_true, if_false] at h
      cases faulty with
      | false =>
        simp only [Sync.packed, hstaged, Option.isSome_none, Bool.false_eq_true, or_self, if_false]
          at hwhole ha
        exact ⟨ha.symm, hwhole⟩
      | true =>
        simp only [Sync.packed, hstaged, or_true, if_true] at hwhole ha
        obtain ⟨archive, whole⟩ := disturbed
        dsimp only at hwhole ha
        subst hwhole ha
        by_contra hnot
        simp only [if_neg hnot] at h
        cases h _ (List.mem_singleton_self _)

theorem Inv.upload (h : Inv s) {print : Option F.Print} {archive : Option F.Archive} {whole : Bool}
    (hpush : s.push = .packed print archive whole) {answer : StoreAnswer}
    (hcalm : Calm s (.upload answer)) :
    Inv (s.upload print whole archive answer).1 ∧
      ∀ r ∈ (s.upload print whole archive answer).2, r.Sound := by
  have hguarded := h.guarded.upload print whole archive answer
  have hsound := h.push
  rw [hpush] at hsound
  obtain ⟨l, hprint, hpack, hupper⟩ := hsound
  unfold Calm Only troubles at hcalm
  simp only [hpush] at hcalm
  cases archive with
  | none => exact ⟨h.of_idle hguarded rfl rfl rfl, nofun⟩
  | some archive =>
    cases answer with
    | refused => exact ⟨h.of_idle hguarded rfl rfl rfl, nofun⟩
    -- the object is replaced and the baseline is not
    | lost => cases hcalm _ (by cases whole <;> exact List.mem_singleton_self _)
    | through =>
      cases whole with
      | false => cases hcalm _ (List.mem_singleton_self _)
      | true =>
        have hholds : Holds (some archive) l := hpack rfl archive rfl
        subst hprint
        refine ⟨⟨hguarded, fun print hpushed => ⟨l, Option.some.inj hpushed, hholds⟩, trivial⟩, ?_⟩
        intro r hr
        rw [List.mem_singleton.mp hr, Returned.Sound]
        dsimp only
        split
        · trivial
        rename_i l' hl'
        intro hwritten
        rw [hupper hwritten] at hl'
        rw [← Option.some.inj hl']
        exact hholds

/-- **A step without trouble** keeps the baseline true, and a push that it ends is sound. -/
theorem Inv.step (hinj : Function.Injective F.print) (h : Inv s) {e : Event F} (hcalm : Calm s e) :
    Inv (step s e).1 ∧ ∀ r ∈ (step s e).2, r.Sound := by
  have hguarded := h.guarded.step e
  have hsilent : ∀ r ∈ ([] : List (Returned F)), r.Sound := nofun
  cases e with
  | write l =>
    rw [Sync.step] at hguarded ⊢
    split
    · rename_i hwrite
      rw [if_pos hwrite] at hguarded
      exact ⟨⟨hguarded, h.baseline, h.push.write l⟩, hsilent⟩
    · exact ⟨h, hsilent⟩
  | crash overlayLost => exact ⟨inv_exit _, hsilent⟩
  | start others t =>
    rw [Sync.step] at hguarded ⊢
    split
    · rename_i hdown
      rw [if_pos hdown] at hguarded
      -- a start touches neither the baseline nor the object
      obtain ⟨hpush, hpushed, hobject⟩ := start_same s others t
      have hidle : s.push = .idle :=
        h.guarded.quiet (by rw [hdown]; rfl)
      exact ⟨h.of_idle hguarded (hpush.trans hidle) hpushed hobject, hsilent⟩
    · exact ⟨h, hsilent⟩
  | restore r =>
    rw [Sync.step]
    split
    · rename_i hmounting
      exact ⟨h.restoreDelta hmounting hcalm, hsilent⟩
    · exact ⟨h, hsilent⟩
  | establish e =>
    rw [Sync.step] at hguarded ⊢
    split
    · rename_i hrestored
      rw [if_pos hrestored] at hguarded
      cases e with
      | up =>
        have hidle : s.push = .idle :=
          h.guarded.quiet (by rw [hrestored]; rfl)
        exact ⟨h.of_idle hguarded hidle rfl rfl, hsilent⟩
      | down removed | rolledBack t => exact ⟨inv_exit _, hsilent⟩
    · exact ⟨h, hsilent⟩
  | print look =>
    rw [Sync.step]
    split
    · split
      · rename_i hsyncs
        exact h.beginPush hinj hsyncs hcalm
      · exact ⟨h, hsilent⟩
    · exact ⟨h, hsilent⟩
  | pack disturbed faulty =>
    rw [Sync.step] at hguarded ⊢
    split
    · rename_i print l hpush hupper
      obtain ⟨hwritten, hstaged, hpack⟩ := hcalm.packed hpush hupper
      have hsound := h.push
      rw [hpush] at hsound
      -- nothing was written since the summary, so the layer packed is the one summarised
      obtain ⟨l', hprint, hsame⟩ := hsound
      obtain rfl := Option.some.inj (hupper.symm.trans (hsame hwritten))
      simp only [hpush, hupper] at hguarded
      refine ⟨⟨hguarded, h.baseline, l, hprint, hpack, fun _ => ?_⟩, hsilent⟩
      rw [State.pack, hstaged]
      rfl
    · exact ⟨h, hsilent⟩
  | upload answer =>
    rw [Sync.step]
    split
    · rename_i print archive whole hpush
      exact h.upload hpush hcalm
    · exact ⟨h, hsilent⟩
  | stopSync =>
    rw [Sync.step] at hguarded ⊢
    split
    · rename_i hidle
      split
      · rename_i hsyncing
        simp only [hidle, if_pos hsyncing] at hguarded
        exact ⟨h.of_idle (hidle ▸ hguarded) hidle rfl rfl, hsilent⟩
      · exact ⟨h, hsilent⟩
    · exact ⟨h, hsilent⟩
  | release t =>
    rw [Sync.step]
    split
    · exact ⟨inv_exit _, hsilent⟩
    · exact ⟨h, hsilent⟩

end

/-- Layers as lists of names, each its own summary and its own archive.  If not `whole`, an
    archive does not come back; if `inside`, it is staged in the layer. -/
abbrev listing (whole inside : Bool) : Format where
  Layer := List String
  Archive := List String
  Print := List String
  empty := []
  fresh l := l.isEmpty
  print l := l
  pack l := (l, true)
  staged := if inside then some id else none
  unpack archive base := (if whole then archive else []) ++ base.filter (· ∉ archive)

section

variable {whole inside : Bool}

/-- A sidecar starts, restores what there is, and mounts. -/
def session : List (Event (listing whole inside)) :=
  [.start (some true) .whole, .restore (.ends true), .establish .up]

def pushOnce : List (Event (listing whole inside)) :=
  [.print .seen, .pack (none, true) false, .upload .through]

end

/-- One run for each trouble, with nothing else in it. -/
def troubledRun : (t : Trouble) → List (Event (listing (t ≠ .lossy) (t = .inside)))
  | .stale =>
    session ++ [.write ["a"]] ++ pushOnce ++ [.write ["a", "b"], .crash true] ++ session
      ++ [.print .seen]
  | .lossy =>
    session ++ [.write ["a"], .stopSync] ++ pushOnce ++ [.release .whole] ++ session
      ++ [.print .seen]
  | .torn =>
    session ++ [.write ["a"], .print .seen, .write ["a", "b"],
      .pack (some ["a", "b"], true) false, .upload .through, .write ["a"], .print .seen]
  | .inside =>
    session ++ [.write ["a"], .print .seen, .pack (some [".delta.tgz", "a"], true) false,
      .upload .through]
  | .truncated =>
    session ++ [.write ["a"], .print .seen, .pack (some [], true) true, .upload .through]
  | .orphaned =>
    session ++ [.write ["a"]] ++ pushOnce ++ [.write ["b"], .print .seen, .pack (none, true) false,
      .upload .lost, .write ["a"], .print .seen]
  | .unprinted =>
    session ++ [.write ["a"]] ++ pushOnce ++ [.write ["b"], .print .noPrint,
      .pack (none, true) false, .upload .through, .write ["a"], .print .seen]
  | .unseen => session ++ [.write ["a"], .print .noStat]
  | .missed => session ++ [.crash true, .start (some true) .whole, .restore .missing]

theorem troubledRun_only (t : Trouble) :
    Along (Only (· = t)) step (State.init none) (troubledRun t) := by
  cases t <;> decide

theorem troubledRun_fails {t : Trouble} (ht : t ≠ .missed) :
    ∃ r ∈ (Machine.run step (State.init none) (troubledRun t)).2, ¬ r.Sound := by
  cases t with
  | missed => exact absurd rfl ht
  | _ => decide

end Orchestrator.Sidecar.Sync

/-
  Orchestrator.Proxy.Pool

  The claim of a pool-mode sidecar against its shutdown: `handleClaim` with `claim` and the
  runner's `Mount`, and `Run` with `drain` and `release`.

  Claim requests are goroutines, and so is the shutdown; a step is one operation on what
  they share: the claim gate, the flag `closing`, the pointer `mounts`, the runner's list
  of mounts, the mounts themselves and the shim's FIFO.  Requests before the gate are
  alike and are counted.  The sync loops of a runner change no mount and are left out.
-/

import Mathlib.Data.List.Induction
import Mathlib.Data.Multiset.AddSub
import Orchestrator.Lib.Machine

namespace Orchestrator.WorkloadSidecar.Pool

open Lib.Machine List

/-! ## Unmounting -/

/-- What becomes of a call. -/
inductive Answer where
  | through
  /-- It fails before it has any effect. -/
  | refused
  /-- It has its effect, and the answer is an error. -/
  | lost
deriving DecidableEq, Repr

/-- `slices.Backward`: the last entry first, with the indices. -/
def backward (mounted : List String) : List (Nat × String) :=
  (mounted.zipIdx.map fun e => (e.2, e.1)).reverse

/-- Where a `Release`, or an `unmountAll`, stands. -/
inductive Unmounting where
  /-- In `StopSync`. -/
  | stopping
  | unmounting (todo : List (Nat × String))
  /-- The target of an index is unmounted and is still in the list. -/
  | removing (index : Nat) (todo : List (Nat × String))
deriving DecidableEq, Repr

inductive Progress where
  | more (u : Unmounting)
  | done
  /-- The index is out of the list's range. -/
  | panicked
deriving DecidableEq, Repr

/-- The list of the runner, and the mounts that are there. -/
structure Mounts where
  mounted : List String
  table : List String
deriving DecidableEq, Repr

/-- The next step of a `Release`.  To unmount what is not mounted is no error. -/
def unmountStep (m : Mounts) : Unmounting → Answer → Mounts × Progress
  | .stopping, _ => (m, .more (.unmounting (backward m.mounted)))
  | .unmounting [], _ => (m, .done)
  | .unmounting (_ :: todo), .refused => (m, .more (.unmounting todo))
  | .unmounting ((_, t) :: todo), .lost => ({ m with table := m.table.erase t }, .more (.unmounting todo))
  | .unmounting ((i, t) :: todo), .through =>
    ({ m with table := m.table.erase t }, .more (.removing i todo))
  | .removing i todo, _ =>
    if i < m.mounted.length then
      ({ m with mounted := m.mounted.eraseIdx i }, .more (.unmounting todo))
    else (m, .panicked)

/-! ## The claim and the shutdown -/

/-- Where the request that has passed the gate stands. -/
inductive Point where
  | won (targets : List String)
  | decoded (targets : List String)
  | mounting (ahead : List String)
  | rollingBack (u : Unmounting)
  | mounted
  | stored
  | releasing (u : Unmounting)
  | signalling
  | finished
deriving DecidableEq, Repr

/-- Where `Run` stands after its context was cancelled. -/
inductive Stop where
  | serving
  | draining
  | releasing (u : Unmounting)
  | returned
  | crashed
deriving DecidableEq, Repr

/-- What the claim and the shutdown share. -/
structure Shared where
  published : Bool
  mounts : Mounts
  execLines : Nat
deriving DecidableEq, Repr

/-- The next step of the request that has passed the gate, and its response. -/
def advance (canMount closing : Bool) (sh : Shared) :
    Point → Answer → (Shared × Point) × Option Nat
  | .won targets, .through => ((sh, .decoded targets), none)
  | .won _, _ => ((sh, .finished), some 400)
  | .decoded targets, answer =>
    if (targets ≠ [] ∧ canMount = false) ∨ answer ≠ .through then ((sh, .finished), some 422)
    else ((sh, .mounting targets), none)
  | .mounting [], _ => ((sh, .mounted), none)
  | .mounting (t :: ahead), .through =>
    (({ sh with mounts := ⟨sh.mounts.mounted ++ [t], sh.mounts.table ++ [t]⟩ }, .mounting ahead),
      none)
  | .mounting (_ :: _), .refused =>
    ((sh, .rollingBack (.unmounting (backward sh.mounts.mounted))), none)
  | .mounting (t :: _), .lost =>
    (({ sh with mounts := ⟨sh.mounts.mounted, sh.mounts.table ++ [t]⟩ },
      .rollingBack (.unmounting (backward sh.mounts.mounted))), none)
  | .rollingBack u, answer =>
    match unmountStep sh.mounts u answer with
    | (mounts, .more u) => (({ sh with mounts }, .rollingBack u), none)
    | (mounts, .done) => (({ sh with mounts }, .finished), some 422)
    | (mounts, .panicked) => (({ sh with mounts }, .finished), some 500)
  | .mounted, _ => (({ sh with published := true }, .stored), none)
  | .stored, _ => ((sh, if closing then .releasing .stopping else .signalling), none)
  | .releasing u, answer =>
    match unmountStep sh.mounts u answer with
    | (mounts, .more u) => (({ sh with mounts }, .releasing u), none)
    | (mounts, .done) => (({ sh with mounts }, .finished), some 422)
    -- the server recovers the panic of a handler
    | (mounts, .panicked) => (({ sh with mounts }, .finished), some 500)
  | .signalling, .through => (({ sh with execLines := sh.execLines + 1 }, .finished), some 200)
  | .signalling, .refused => ((sh, .finished), some 422)
  | .signalling, .lost => (({ sh with execLines := sh.execLines + 1 }, .finished), some 422)
  | .finished, _ => ((sh, .finished), none)

/-- The next step of `awaitShutdown`. -/
def shutdown (sh : Shared) : Stop → Answer → Shared × Stop
  | .serving, _ => (sh, .draining)
  | .draining, _ => (sh, if sh.published then .releasing .stopping else .returned)
  | .releasing u, answer =>
    match unmountStep sh.mounts u answer with
    | (mounts, .more u) => ({ sh with mounts }, .releasing u)
    | (mounts, .done) => ({ sh with mounts }, .returned)
    | (mounts, .panicked) => ({ sh with mounts }, .crashed)
  | .returned, _ => (sh, .returned)
  | .crashed, _ => (sh, .crashed)

structure Sidecar where
  /-- `cfg.Mounts`. -/
  canMount : Bool
  claimed : Bool
  /-- Authorized requests before they look at `closing`. -/
  arrived : Nat
  /-- Requests that found `closing` unset, before the gate. -/
  opened : Nat
  claim : Option Point
  stop : Stop
  shared : Shared
  passes : Nat
deriving DecidableEq, Repr

/-- `closing` is the first thing that `drain` sets. -/
def Sidecar.closing (s : Sidecar) : Bool := s.stop ≠ .serving

def Sidecar.init (canMount : Bool) : Sidecar :=
  ⟨canMount, false, 0, 0, none, .serving, ⟨false, ⟨[], []⟩, 0⟩, 0⟩

inductive Event where
  | arrive
  | check
  /-- A request comes to the gate; the targets are those of its mounts. -/
  | gate (targets : List String)
  /-- The request that has passed the gate takes its next step. -/
  | advance (answer : Answer)
  | shutdown (answer : Answer)
deriving DecidableEq, Repr

def step (s : Sidecar) : Event → Sidecar × List Nat
  | .arrive => ({ s with arrived := s.arrived + 1 }, [])
  | .check =>
    if s.arrived = 0 then (s, [])
    else if s.closing then ({ s with arrived := s.arrived - 1 }, [409])
    else ({ s with arrived := s.arrived - 1, opened := s.opened + 1 }, [])
  | .gate targets =>
    if s.opened = 0 then (s, [])
    else if s.claimed then ({ s with opened := s.opened - 1 }, [409])
    else
      ({ s with
          opened := s.opened - 1
          claimed := true
          passes := s.passes + 1
          claim := some (.won targets) }, [])
  | .advance answer =>
    match s.claim with
    | none => (s, [])
    | some point =>
      let r := advance s.canMount s.closing s.shared point answer
      ({ s with shared := r.1.1, claim := some r.1.2 }, r.2.toList)
  | .shutdown answer =>
    let r := shutdown s.shared s.stop answer
    ({ s with shared := r.1, stop := r.2 }, [])

/-! ## One claim, one line -/

/-- The gate lets one request pass, and only that one signals the shim, once. -/
structure Once (s : Sidecar) : Prop where
  unclaimed : s.claimed = false → s.passes = 0 ∧ s.claim = none
  passes : s.passes ≤ 1
  unsignalled : s.claim ≠ some .finished → s.shared.execLines = 0
  lines : s.shared.execLines ≤ 1

/-- The exec line is written by a step that ends the claim. -/
theorem advance_lines (canMount closing : Bool) (sh : Shared) (point : Point) (answer : Answer) :
    (advance canMount closing sh point answer).1.1.execLines = sh.execLines ∨
      (point = .signalling ∧
        (advance canMount closing sh point answer).1.1.execLines = sh.execLines + 1 ∧
        (advance canMount closing sh point answer).1.2 = .finished) := by
  cases point with
  | won targets => cases answer <;> exact .inl rfl
  | decoded targets | rollingBack u | releasing u =>
    rw [advance]
    split <;> exact .inl rfl
  | mounting ahead =>
    cases ahead with
    | nil => exact .inl rfl
    | cons t ahead => cases answer <;> exact .inl rfl
  | signalling =>
    cases answer with
    | through | lost => exact .inr ⟨rfl, rfl, rfl⟩
    | refused => exact .inl rfl
  | mounted | stored | finished => exact .inl rfl

theorem shutdown_lines (sh : Shared) (stop : Stop) (answer : Answer) :
    (shutdown sh stop answer).1.execLines = sh.execLines := by
  cases stop with
  | releasing u =>
    rw [shutdown]
    split <;> rfl
  | _ => rfl

theorem once_init (canMount : Bool) : Once (Sidecar.init canMount) :=
  ⟨fun _ => ⟨rfl, rfl⟩, Nat.zero_le _, fun _ => rfl, Nat.zero_le _⟩

theorem Once.step {s : Sidecar} (h : Once s) (e : Event) : Once (step s e).1 := by
  cases e with
  | arrive => exact { h with }
  | check =>
    rw [Pool.step]
    split
    · exact h
    · split <;> exact { h with }
  | gate targets =>
    rw [Pool.step]
    split
    · exact h
    split
    · exact { h with }
    -- the gate opens once: no request has passed it and no line is written
    rename_i hclaimed
    obtain ⟨hnone, hclaim⟩ := h.unclaimed (Bool.eq_false_iff.mpr hclaimed)
    have hlines := h.unsignalled (by rw [hclaim]; simp)
    refine ⟨nofun, ?_, fun _ => hlines, h.lines⟩
    change s.passes + 1 ≤ 1
    rw [hnone]
  | advance answer =>
    rw [Pool.step]
    cases hclaim : s.claim with
    | none => exact h
    | some point =>
      have hclaimed : s.claimed ≠ false := by
        intro heq
        rw [(h.unclaimed heq).2] at hclaim
        cases hclaim
      -- a step writes no line, or it is the signalling one and the claim is finished
      rcases advance_lines s.canMount s.closing s.shared point answer with
        hsame | ⟨rfl, hnew, hend⟩
      · refine ⟨fun heq => absurd heq hclaimed, h.passes, fun hne => ?_, ?_⟩
        · refine hsame.trans (h.unsignalled fun heq => hne ?_)
          rw [hclaim] at heq
          cases heq
          rfl
        · exact Nat.le_trans (Nat.le_of_eq hsame) h.lines
      · have hlines := h.unsignalled (by rw [hclaim]; simp)
        refine ⟨fun heq => absurd heq hclaimed, h.passes, fun hne => ?_, ?_⟩
        · exact absurd (congrArg some hend) hne
        · change (advance _ _ _ _ _).1.1.execLines ≤ 1
          rw [hnew, hlines]
  | shutdown answer =>
    have hlines := shutdown_lines s.shared s.stop answer
    exact ⟨h.unclaimed, h.passes, fun hne => hlines.trans (h.unsignalled hne),
      Nat.le_trans (Nat.le_of_eq hlines) h.lines⟩

/-! ## What is still to be unmounted -/

theorem backward_append (l : List String) (t : String) :
    backward (l ++ [t]) = (l.length, t) :: backward l := by
  rw [backward, zipIdx_append, map_append, reverse_append]
  simp [backward]

theorem targets_backward (l : List String) :
    ((backward l).map Prod.snd : Multiset String) = (l : Multiset String) := by
  induction l using reverseRecOn with
  | nil => rfl
  | append_singleton l t ih =>
    rw [backward_append, map_cons, ← Multiset.cons_coe, ih, ← Multiset.coe_add,
      Multiset.coe_singleton, ← Multiset.singleton_add, Multiset.add_comm]

/-- Every mount that is there is in the runner's list. -/
def Mounts.Covered (m : Mounts) : Prop := (m.table : Multiset String) ≤ m.mounted

/-- Every mount that is there is still to be unmounted. -/
def Unmounting.Rest (m : Mounts) : Unmounting → Prop
  | .stopping => m.Covered
  | .unmounting todo => (m.table : Multiset String) ≤ (todo.map Prod.snd : List String)
  | .removing _ todo => (m.table : Multiset String) ≤ (todo.map Prod.snd : List String)

/-- The runner's list ends in the entries that are done and were kept. -/
def Unmounting.Aligned (m : Mounts) : Unmounting → Prop
  | .stopping => m.Covered
  | .unmounting todo => ∃ l kept, todo = backward l ∧ m.mounted = l ++ kept ∧ m.Covered
  | .removing i todo => ∃ l t kept, todo = backward l ∧ i = l.length ∧
      m.mounted = l ++ t :: kept ∧ (m.table : Multiset String) ≤ (l ++ kept : List String)

theorem erase_le_of_le_cons {t : String} {table rest : List String}
    (h : (table : Multiset String) ≤ (t :: rest : List String)) :
    (table.erase t : Multiset String) ≤ rest := by
  rw [← Multiset.coe_erase]
  exact Multiset.erase_le_iff_le_cons.mpr h

theorem unmountStep_table (m : Mounts) (u : Unmounting) (answer : Answer) :
    ((unmountStep m u answer).1.table : Multiset String) ≤ m.table := by
  have herase : ∀ t, (m.table.erase t : Multiset String) ≤ m.table := by
    intro t
    rw [← Multiset.coe_erase]
    exact Multiset.erase_le t _
  cases u with
  | stopping => exact le_refl _
  | unmounting todo =>
    cases todo with
    | nil => exact le_refl _
    | cons e todo =>
      cases answer with
      | refused => exact le_refl _
      | lost | through => exact herase e.2
  | removing i todo =>
    rw [unmountStep]
    split <;> exact le_refl _

variable {m : Mounts} {u : Unmounting}

/-- A `Release` that goes on is past `StopSync`. -/
theorem unmountStep_ne_stopping {m' : Mounts} {u' : Unmounting} {answer : Answer}
    (h : unmountStep m u answer = (m', .more u')) : u' ≠ .stopping := by
  rintro rfl
  cases u with
  | stopping => cases h
  | unmounting todo =>
    cases todo with
    | nil => cases h
    | cons e todo => cases answer <;> cases h
  | removing i todo =>
    rw [unmountStep] at h
    split at h <;> cases h

/-- The list to unmount is the whole list. -/
theorem rest_backward (h : m.Covered) :
    (Unmounting.unmounting (backward m.mounted)).Rest m := by
  change (m.table : Multiset String) ≤ ((backward m.mounted).map Prod.snd : List String)
  rw [targets_backward]
  exact h

/-- An `unmountAll` whose calls have their effect ends with no mount. -/
theorem Unmounting.Rest.step (h : u.Rest m) (answer : Answer)
    (hanswer : ∀ e todo, u = .unmounting (e :: todo) → answer ≠ .refused) :
    match unmountStep m u answer with
    | (m', .more u') => u'.Rest m'
    | (m', .done) => m'.table = []
    | (_, .panicked) => True := by
  cases u with
  | stopping => exact rest_backward h
  | unmounting todo =>
    cases todo with
    | nil => exact (Multiset.coe_eq_zero _).mp (Multiset.le_zero.mp h)
    | cons e todo =>
      cases answer with
      | refused => exact absurd rfl (hanswer e todo rfl)
      | lost | through => exact erase_le_of_le_cons h
  | removing i todo =>
    rw [unmountStep]
    by_cases hi : i < m.mounted.length
    · rw [if_pos hi]
      exact h
    · rw [if_neg hi]
      trivial

/-- An `unmountAll` alone keeps the list and the mounts together. -/
theorem Unmounting.Aligned.step (h : u.Aligned m) (answer : Answer) :
    match unmountStep m u answer with
    | (m', .more u') => u'.Aligned m'
    | (m', .done) => m'.Covered
    | (_, .panicked) => False := by
  cases u with
  | stopping => exact ⟨m.mounted, [], rfl, (append_nil _).symm, h⟩
  | unmounting todo =>
    obtain ⟨l, kept, rfl, hmounted, hcovered⟩ := h
    -- the loop runs backwards, so the next target is the last one of the list
    rcases eq_nil_or_concat l with rfl | ⟨l, t, rfl⟩
    · exact hcovered
    rw [concat_eq_append] at hmounted ⊢
    rw [backward_append]
    rw [append_assoc, singleton_append] at hmounted
    have hle : (m.table : Multiset String) ≤ (t :: (l ++ kept) : List String) := by
      refine le_of_le_of_eq hcovered ?_
      rw [hmounted]
      exact Multiset.coe_eq_coe.mpr perm_middle
    have herased := erase_le_of_le_cons hle
    cases answer with
    | refused => exact ⟨l, t :: kept, rfl, hmounted, hcovered⟩
    | through => exact ⟨l, t, kept, rfl, rfl, hmounted, herased⟩
    | lost =>
      refine ⟨l, t :: kept, rfl, hmounted, ?_⟩
      change (m.table.erase t : Multiset String) ≤ m.mounted
      rw [hmounted]
      refine le_trans herased (le_of_le_of_eq (Multiset.le_cons_self _ t) ?_)
      exact Multiset.coe_eq_coe.mpr perm_middle.symm
  | removing i todo =>
    obtain ⟨l, t, kept, rfl, rfl, hmounted, hcovered⟩ := h
    have hlt : l.length < m.mounted.length := by
      rw [hmounted, length_append, length_cons]
      omega
    -- the index is still that of the target: what was kept stands behind it
    have herase : m.mounted.eraseIdx l.length = l ++ kept := by
      rw [hmounted, eraseIdx_append_of_length_le (Nat.le_refl _), Nat.sub_self]
      rfl
    rw [unmountStep, if_pos hlt]
    refine ⟨l, kept, rfl, herase, ?_⟩
    change (m.table : Multiset String) ≤ m.mounted.eraseIdx l.length
    rw [herase]
    exact hcovered

/-! ## The shutdown without trouble -/

/-- What mounts can be left by. -/
inductive Trouble where
  /-- The shutdown looks for mounts while a claim is between the gate and its publication. -/
  | unjoined
  | unmountFails
  /-- A mount is made, and the answer is an error. -/
  | mountLost
deriving DecidableEq, Repr

def Point.settled : Point → Bool
  | .stored => true
  | .releasing _ => true
  | .signalling => true
  | .finished => true
  | _ => false

/-- No claim is under way between `closing` and `p.mounts`. -/
def Sidecar.settled (s : Sidecar) : Bool :=
  match s.claim with
  | none => s.opened = 0
  | some point => point.settled

/-- The troubles of an event. -/
def troubles (s : Sidecar) : Event → List Trouble
  | .advance answer =>
    match s.claim, answer with
    | some (.mounting (_ :: _)), .lost => [.mountLost]
    | some (.rollingBack (.unmounting (_ :: _))), .refused => [.unmountFails]
    | _, _ => []
  | .shutdown answer =>
    match s.stop, answer with
    | .draining, _ => if s.settled then [] else [.unjoined]
    | .releasing (.unmounting (_ :: _)), .refused => [.unmountFails]
    | _, _ => []
  | _ => []

/-- The event is in no trouble but those of `A`. -/
def Only (A : Trouble → Prop) (s : Sidecar) (e : Event) : Prop := ∀ t ∈ troubles s e, A t

instance (A : Trouble → Prop) [DecidablePred A] (s : Sidecar) (e : Event) :
    Decidable (Only A s e) :=
  inferInstanceAs (Decidable (∀ t ∈ troubles s e, A t))

/-- In the runs whose troubles are those of `A`, no mount of the claim is there from the time that
    `Run` returns. -/
def LeavesNoMount (A : Trouble → Prop) : Prop :=
  ∀ (canMount : Bool) (events : List Event),
    Along (Only A) step (Sidecar.init canMount) events →
      (run step (Sidecar.init canMount) events).1.stop = .returned →
        (run step (Sidecar.init canMount) events).1.shared.mounts.table = []

/-- The shutdown has read the runner's list, or will not. -/
def Stop.captured : Stop → Bool
  | .serving => false
  | .draining => false
  | .releasing .stopping => false
  | _ => true

/-- What holds where the claim stands; once the shutdown has the list, it is no longer the claim's
    to keep. -/
def Point.Sound (captured : Bool) (sh : Shared) : Point → Prop
  | .won _ => sh.published = false ∧ sh.mounts = ⟨[], []⟩
  | .decoded _ => sh.published = false ∧ sh.mounts = ⟨[], []⟩
  | .mounting _ => sh.published = false ∧ sh.mounts.Covered
  | .rollingBack u => sh.published = false ∧ u.Aligned sh.mounts ∧ u.Rest sh.mounts
  | .mounted => sh.published = false ∧ sh.mounts.Covered
  | .stored => sh.published = true ∧ (captured = false → sh.mounts.Covered)
  | .releasing u => sh.published = true ∧ (captured = false → u.Aligned sh.mounts)
  | .signalling => sh.published = true ∧ (captured = false → sh.mounts.Covered)
  | .finished =>
    (sh.published = false → sh.mounts.table = []) ∧ (captured = false → sh.mounts.Covered)

/-- What holds where the shutdown stands. -/
def Stop.Sound (s : Sidecar) : Stop → Prop
  | .serving => True
  | .draining => True
  | .releasing u =>
    s.settled = true ∧ s.shared.published = true ∧ (u ≠ .stopping → u.Rest s.shared.mounts)
  | .returned => s.settled = true ∧ s.shared.mounts.table = []
  | .crashed => s.settled = true ∧ s.shared.published = true

structure Inv (s : Sidecar) : Prop where
  unclaimed : s.claimed = false → s.claim = none
  idle : s.claim = none → s.shared.published = false ∧ s.shared.mounts = ⟨[], []⟩
  claim : ∀ point, s.claim = some point → point.Sound s.stop.captured s.shared
  stop : s.stop.Sound s

theorem covered_nil : Mounts.Covered ⟨[], []⟩ := le_refl _

theorem Unmounting.Aligned.covered (h : u.Aligned m) : m.Covered := by
  cases u with
  | stopping => exact h
  | unmounting todo =>
    obtain ⟨l, kept, -, -, hcovered⟩ := h
    exact hcovered
  | removing i todo =>
    obtain ⟨l, t, kept, -, -, hmounted, hle⟩ := h
    rw [Mounts.Covered, hmounted]
    exact le_trans hle (le_of_le_of_eq (Multiset.le_cons_self _ t)
      (Multiset.coe_eq_coe.mpr perm_middle.symm))

theorem aligned_backward (h : m.Covered) :
    (Unmounting.unmounting (backward m.mounted)).Aligned m :=
  ⟨m.mounted, [], rfl, (append_nil _).symm, h⟩

theorem Mounts.Covered.mount (h : m.Covered) (t : String) :
    Mounts.Covered ⟨m.mounted ++ [t], m.table ++ [t]⟩ := by
  change ((m.table ++ [t] : List String) : Multiset String) ≤ (m.mounted ++ [t] : List String)
  rw [← Multiset.coe_add, ← Multiset.coe_add]
  exact Multiset.add_le_add_right h

variable {point : Point}

theorem Point.Sound.covered {sh : Shared} (h : point.Sound false sh) :
    sh.mounts.Covered := by
  cases point with
  | won targets | decoded targets => exact h.2 ▸ covered_nil
  | mounting ahead | mounted => exact h.2
  | rollingBack u => exact h.2.1.covered
  | stored | signalling | finished => exact h.2 rfl
  | releasing u => exact (h.2 rfl).covered

theorem Point.Sound.advance {captured : Bool} {sh : Shared} (h : point.Sound captured sh)
    (hcaptured : captured = true → point.settled = true) (canMount closing : Bool) {answer : Answer}
    (hmount : ∀ t ahead, point = .mounting (t :: ahead) → answer ≠ .lost)
    (hunmount : ∀ e todo, point = .rollingBack (.unmounting (e :: todo)) → answer ≠ .refused) :
    (Pool.advance canMount closing sh point answer).1.2.Sound captured
      (Pool.advance canMount closing sh point answer).1.1 := by
  cases point with
  | won targets =>
    have hend : Point.finished.Sound captured sh :=
      ⟨fun _ => h.2 ▸ rfl, fun _ => h.2 ▸ covered_nil⟩
    cases answer with
    | through => exact h
    | refused | lost => exact hend
  | decoded targets =>
    rw [Pool.advance]
    split
    · exact ⟨fun _ => h.2 ▸ rfl, fun _ => h.2 ▸ covered_nil⟩
    · exact ⟨h.1, h.2 ▸ covered_nil⟩
  | mounting ahead =>
    cases ahead with
    | nil => exact h
    | cons t ahead =>
      cases answer with
      | through => exact ⟨h.1, h.2.mount t⟩
      -- what is mounted by now is rolled back from the end of the list
      | refused => exact ⟨h.1, aligned_backward h.2, rest_backward h.2⟩
      | lost => exact absurd rfl (hmount t ahead rfl)
  | rollingBack u =>
    obtain ⟨hpublished, haligned, hrest⟩ := h
    have haligned' := haligned.step answer
    have hrest' := hrest.step answer
      (fun e todo heq => hunmount e todo (congrArg Point.rollingBack heq))
    rw [Pool.advance]
    rcases hstep : unmountStep sh.mounts u answer with ⟨m, u' | _ | _⟩ <;>
      rw [hstep] at haligned' hrest'
    · exact ⟨hpublished, haligned', hrest'⟩
    · exact ⟨fun _ => hrest', fun _ => haligned'⟩
    · exact haligned'.elim
  | mounted => exact ⟨rfl, fun _ => h.2⟩
  | stored =>
    cases closing with
    | false | true => exact h
  -- the runner is published by now, so the shutdown may unmount beside this
  | releasing u =>
    obtain ⟨hpublished, haligned⟩ := h
    have haligned' := fun hc => (haligned hc).step answer
    rw [Pool.advance]
    rcases hstep : unmountStep sh.mounts u answer with ⟨m, u' | _ | _⟩ <;>
      simp only [hstep] at haligned'
    · exact ⟨hpublished, haligned'⟩
    · exact ⟨fun hun => absurd (hpublished.symm.trans hun) (by decide), haligned'⟩
    · refine ⟨fun hun => absurd (hpublished.symm.trans hun) (by decide), ?_⟩
      exact fun hc => (haligned' hc).elim
  | signalling =>
    have hun : sh.published = false → sh.mounts.table = [] :=
      fun hun => absurd (h.1.symm.trans hun) (by decide)
    cases answer <;> exact ⟨hun, h.2⟩
  | finished => exact h

theorem Point.settled_advance (h : point.settled = true) (canMount closing : Bool) (sh : Shared)
    (answer : Answer) :
    (Pool.advance canMount closing sh point answer).1.2.settled = true ∧
      (Pool.advance canMount closing sh point answer).1.1.published = sh.published ∧
      ((Pool.advance canMount closing sh point answer).1.1.mounts.table : Multiset String) ≤
        sh.mounts.table := by
  cases point with
  | won targets | decoded targets | mounting ahead | rollingBack u | mounted => cases h
  | stored => cases closing <;> exact ⟨rfl, rfl, le_refl _⟩
  | releasing u =>
    have htable := unmountStep_table sh.mounts u answer
    rw [Pool.advance]
    rcases hstep : unmountStep sh.mounts u answer with ⟨m, u' | _ | _⟩ <;>
      rw [hstep] at htable <;> exact ⟨rfl, rfl, htable⟩
  | signalling => cases answer <;> exact ⟨rfl, rfl, le_refl _⟩
  | finished => exact ⟨rfl, rfl, le_refl _⟩

theorem inv_init (canMount : Bool) : Inv (Sidecar.init canMount) :=
  ⟨fun _ => rfl, fun _ => ⟨rfl, rfl⟩, nofun, trivial⟩

section

variable {s : Sidecar}

/-- From the time that the shutdown looks for mounts, no claim is under way. -/
theorem Inv.settled_of_captured (h : Inv s) (hcaptured : s.stop.captured = true) :
    s.settled = true := by
  have hstop := h.stop
  cases hs : s.stop with
  | serving | draining =>
    rw [hs] at hcaptured
    cases hcaptured
  | releasing u | returned | crashed =>
    rw [hs] at hstop
    exact hstop.1

/-- The shutdown's part outlasts what a settled claim does. -/
theorem Stop.Sound.keep {s s' : Sidecar} {stop : Stop} (h : stop.Sound s)
    (hkeep : s.settled = true → s'.settled = true ∧
      s'.shared.published = s.shared.published ∧
      (s'.shared.mounts.table : Multiset String) ≤ s.shared.mounts.table) : stop.Sound s' := by
  cases stop with
  | serving | draining => trivial
  | releasing u =>
    obtain ⟨hsettled, hpublished, hrest⟩ := h
    obtain ⟨hsettled', hpublished', htable⟩ := hkeep hsettled
    refine ⟨hsettled', hpublished'.trans hpublished, fun hu => ?_⟩
    cases u with
    | stopping => exact absurd rfl hu
    | unmounting todo | removing i todo => exact le_trans htable (hrest hu)
  | returned =>
    obtain ⟨hsettled, hnone⟩ := h
    obtain ⟨hsettled', -, htable⟩ := hkeep hsettled
    rw [hnone] at htable
    exact ⟨hsettled', (Multiset.coe_eq_zero _).mp (Multiset.le_zero.mp htable)⟩
  | crashed =>
    obtain ⟨hsettled, hpublished⟩ := h
    obtain ⟨hsettled', hpublished', -⟩ := hkeep hsettled
    exact ⟨hsettled', hpublished'.trans hpublished⟩

theorem Inv.check (h : Inv s) : Inv (step s .check).1 := by
  rw [step]
  split
  · exact h
  by_cases hclosing : s.closing = true
  · rw [if_pos hclosing]
    refine ⟨h.unclaimed, h.idle, h.claim, h.stop.keep fun hsettled => ⟨hsettled, rfl, le_refl _⟩⟩
  rw [if_neg hclosing]
  have hserving : s.stop = .serving := by
    by_contra hne
    exact hclosing (decide_eq_true hne)
  refine ⟨h.unclaimed, h.idle, h.claim, ?_⟩
  change s.stop.Sound _
  rw [hserving]
  trivial

theorem Inv.gate (h : Inv s) (targets : List String) : Inv (step s (.gate targets)).1 := by
  rw [step]
  split
  · exact h
  rename_i hopened
  by_cases hclaimed : s.claimed = true
  · rw [if_pos hclaimed]
    refine ⟨h.unclaimed, h.idle, h.claim, h.stop.keep fun hsettled => ⟨?_, rfl, le_refl _⟩⟩
    rw [Sidecar.settled] at hsettled ⊢
    cases hclaim : s.claim with
    | some point =>
      rw [hclaim] at hsettled
      exact hsettled
    | none =>
      rw [hclaim] at hsettled
      exact absurd (of_decide_eq_true hsettled) hopened
  · rw [if_neg hclaimed]
    have hclaim := h.unclaimed (Bool.eq_false_iff.mpr hclaimed)
    obtain ⟨hpublished, hmounts⟩ := h.idle hclaim
    -- a request that is still before the gate keeps the shutdown from going on
    have hunsettled : s.settled = false := by
      rw [Sidecar.settled, hclaim]
      exact decide_eq_false hopened
    refine ⟨nofun, nofun, ?_, ?_⟩
    · intro point hpoint
      cases hpoint
      exact ⟨hpublished, hmounts⟩
    · refine h.stop.keep fun hsettled => ?_
      rw [hunsettled] at hsettled
      cases hsettled

variable {answer : Answer}

theorem Inv.advance (h : Inv s) (he : troubles s (.advance answer) = []) :
    Inv (step s (.advance answer)).1 := by
  rw [step]
  cases hclaim : s.claim with
  | none => exact h
  | some point =>
    have hsettled : s.settled = point.settled := by
      rw [Sidecar.settled, hclaim]
    have hmount : ∀ t ahead, point = .mounting (t :: ahead) → answer ≠ .lost := by
      rintro t ahead rfl rfl
      simp [troubles, hclaim] at he
    have hunmount : ∀ e todo, point = .rollingBack (.unmounting (e :: todo)) →
        answer ≠ .refused := by
      rintro e todo rfl rfl
      simp [troubles, hclaim] at he
    have hsound := (h.claim point hclaim).advance
      (fun hcaptured => hsettled ▸ h.settled_of_captured hcaptured) s.canMount s.closing hmount
      hunmount
    refine ⟨fun heq => ?_, nofun, ?_, ?_⟩
    · have hnone := h.unclaimed heq
      rw [hclaim] at hnone
      cases hnone
    · intro point' hpoint'
      cases hpoint'
      exact hsound
    · refine h.stop.keep fun hset => ?_
      exact Point.settled_advance (hsettled ▸ hset) s.canMount s.closing s.shared answer

theorem Point.Sound.captured {sh : Shared} {point : Point} {captured : Bool}
    (h : point.Sound captured sh) : point.Sound true sh := by
  cases point with
  | won targets | decoded targets | mounting ahead | rollingBack u | mounted => exact h
  | stored | releasing u | signalling | finished => exact ⟨h.1, nofun⟩

/-- The shutdown unmounts; a settled claim does not depend on it. -/
theorem Point.Sound.mounts {sh : Shared} {point : Point} (h : point.Sound true sh)
    (hsettled : point.settled = true) (hpublished : sh.published = true) (mounts : Mounts) :
    point.Sound true { sh with mounts } := by
  cases point with
  | won targets | decoded targets | mounting ahead | rollingBack u | mounted => cases hsettled
  | stored | releasing u | signalling => exact ⟨h.1, nofun⟩
  | finished => exact ⟨fun hun => absurd (hpublished.symm.trans hun) (by decide), nofun⟩

/-- A claim that is settled and has not published its runner has left no mount. -/
theorem Inv.table_of_unpublished (h : Inv s) (hsettled : s.settled = true)
    (hpublished : s.shared.published = false) : s.shared.mounts.table = [] := by
  cases hclaim : s.claim with
  | none => rw [(h.idle hclaim).2]
  | some point =>
    have hsound := h.claim point hclaim
    rw [Sidecar.settled, hclaim] at hsettled
    cases point with
    | won targets | decoded targets | mounting ahead | rollingBack u | mounted => cases hsettled
    | stored | releasing u | signalling => exact absurd (hsound.1.symm.trans hpublished) (by decide)
    | finished => exact hsound.1 hpublished

/-- A step of the shutdown that unmounts. -/
theorem Inv.unmounting (h : Inv s) {u : Unmounting} (hstop : s.stop = .releasing u)
    (hanswer : ∀ e todo, u = .unmounting (e :: todo) → answer ≠ .refused) :
    Inv (step s (.shutdown answer)).1 := by
  have hs := h.stop
  rw [hstop] at hs
  obtain ⟨hsettled, hpublished, hrest⟩ := hs
  have hclaim : ∀ m point, s.claim = some point → point.Sound true { s.shared with mounts := m } := by
    intro m point hpoint
    rw [Sidecar.settled, hpoint] at hsettled
    exact (h.claim point hpoint).captured.mounts hsettled hpublished m
  have hnot : s.claim ≠ none := by
    intro hnone
    exact absurd (hpublished.symm.trans (h.idle hnone).1) (by decide)
  -- the list is read when `StopSync` is over; before that, all mounts are in it
  have hu : u.Rest s.shared.mounts := by
    cases u with
    | stopping =>
      cases hpoint : s.claim with
      | none => exact absurd hpoint hnot
      | some point =>
        have hsound := h.claim point hpoint
        rw [hstop] at hsound
        exact hsound.covered
    | unmounting todo | removing i todo => exact hrest nofun
  have hnext := hu.step answer hanswer
  rw [step, hstop, shutdown]
  rcases hstep : unmountStep s.shared.mounts u answer with ⟨m, u' | _ | _⟩ <;>
    rw [hstep] at hnext
  · have hcaptured : (Stop.releasing u').captured = true := by
      cases u' with
      | stopping => exact absurd rfl (unmountStep_ne_stopping hstep)
      | unmounting todo | removing i todo => rfl
    refine ⟨h.unclaimed, fun hnone => absurd hnone hnot, ?_, hsettled, hpublished, fun _ => hnext⟩
    exact hcaptured ▸ hclaim m
  · exact ⟨h.unclaimed, fun hnone => absurd hnone hnot, hclaim m, hsettled, hnext⟩
  · exact ⟨h.unclaimed, fun hnone => absurd hnone hnot, hclaim m, hsettled, hpublished⟩

theorem Inv.shutdown (h : Inv s) (he : troubles s (.shutdown answer) = []) :
    Inv (step s (.shutdown answer)).1 := by
  cases hstop : s.stop with
  | serving =>
    rw [step, hstop]
    refine ⟨h.unclaimed, h.idle, fun point hpoint => ?_, trivial⟩
    have hsound := h.claim point hpoint
    rw [hstop] at hsound
    exact hsound
  | draining =>
    -- a claim between `closing` and `p.mounts` would be a trouble here
    have hsettled : s.settled = true := by
      by_contra hne
      simp [troubles, hstop, hne] at he
    rw [step, hstop, Pool.shutdown]
    cases hpublished : s.shared.published with
    | true =>
      refine ⟨h.unclaimed, h.idle, fun point hpoint => ?_, hsettled, hpublished, ?_⟩
      · have hsound := h.claim point hpoint
        rw [hstop] at hsound
        exact hsound
      · exact fun hne => absurd rfl hne
    | false =>
      refine ⟨h.unclaimed, h.idle, fun point hpoint => ?_, hsettled, ?_⟩
      · exact (h.claim point hpoint).captured
      · exact h.table_of_unpublished hsettled hpublished
  | releasing u =>
    refine h.unmounting hstop ?_
    rintro e todo rfl rfl
    simp [troubles, hstop] at he
  | returned | crashed =>
    rw [step, hstop, Pool.shutdown]
    simp only [← hstop]
    exact h

theorem Inv.step (h : Inv s) {e : Event} (he : troubles s e = []) : Inv (step s e).1 := by
  cases e with
  | arrive => exact ⟨h.unclaimed, h.idle, h.claim, h.stop.keep fun hset => ⟨hset, rfl, le_refl _⟩⟩
  | check => exact h.check
  | gate targets => exact h.gate targets
  | advance answer => exact h.advance he
  | shutdown answer => exact h.shutdown he

end

/-! ## Each trouble is enough -/

def claimRun (targets : List String) : List Event :=
  [.arrive, .check, .gate targets, .advance .through, .advance .through]

def troubledRun : Trouble → List Event
  | .unjoined => claimRun ["m"] ++ [.shutdown .through, .shutdown .through, .advance .through]
  | .unmountFails =>
    claimRun ["m"] ++
      [.advance .through, .advance .through, .advance .through, .advance .through,
        .shutdown .through, .shutdown .through, .shutdown .through, .shutdown .refused,
        .shutdown .through]
  | .mountLost =>
    claimRun ["m"] ++
      [.advance .lost, .advance .through, .shutdown .through, .shutdown .through]

theorem troubledRun_only (t : Trouble) :
    Along (Only (· = t)) step (Sidecar.init true) (troubledRun t) := by
  cases t <;> decide

theorem troubledRun_fails (t : Trouble) :
    (run step (Sidecar.init true) (troubledRun t)).1.stop = .returned ∧
      (run step (Sidecar.init true) (troubledRun t)).1.shared.mounts.table = ["m"] := by
  cases t <;> decide

/-- **One claim passes the gate and one exec line is written, in every run; no mount is left when
    `Run` returns, or made later, in exactly the runs without trouble**: the shutdown looks for
    mounts while no claim is between the gate and its publication, every target is unmounted, and
    no mount is made that its caller is told has failed. -/
theorem claim_against_shutdown (A : Trouble → Prop) :
    (∀ (canMount : Bool) (events : List Event),
      (run step (Sidecar.init canMount) events).1.passes ≤ 1 ∧
        (run step (Sidecar.init canMount) events).1.shared.execLines ≤ 1) ∧
      (LeavesNoMount A ↔ ∀ t, ¬ A t) := by
  constructor
  · intro canMount events
    have hall : Along (fun _ _ => True) step (Sidecar.init canMount) events :=
      along_of_forall (fun _ _ => trivial) _ _
    have honce := run_keeps Once (fun s e _ h => h.step e) hall (once_init canMount)
    exact ⟨honce.passes, honce.lines⟩
  · constructor
    · intro h t ht
      have honly := (troubledRun_only t).mono fun _ _ hsame t' ht' => hsame t' ht' ▸ ht
      obtain ⟨hreturned, hleft⟩ := troubledRun_fails t
      have hnone := h true (troubledRun t) honly hreturned
      rw [hleft] at hnone
      cases hnone
    · intro hnone canMount events honly hreturned
      have hinv : Inv (run step (Sidecar.init canMount) events).1 := by
        refine run_keeps Inv ?_ honly (inv_init canMount)
        intro s e he hs
        exact hs.step (eq_nil_iff_forall_not_mem.mpr fun t ht => hnone t (he t ht))
      have hstop := hinv.stop
      rw [hreturned] at hstop
      exact hstop.2

/-- A claim has passed the gate and is about to mount when the shutdown looks for mounts and finds
    none; `Run` returns, and the claim mounts. -/
theorem mount_after_return :
    (run step (Sidecar.init true)
        [.arrive, .check, .gate ["m"], .advance .through, .advance .through, .shutdown .through,
          .shutdown .through]).1.stop = .returned ∧
      (run step (Sidecar.init true)
        [.arrive, .check, .gate ["m"], .advance .through, .advance .through, .shutdown .through,
          .shutdown .through, .advance .through]).1.shared.mounts.table = ["m"] := by
  decide

end Orchestrator.WorkloadSidecar.Pool

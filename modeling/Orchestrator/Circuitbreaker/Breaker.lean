/-
  Orchestrator.Circuitbreaker.Breaker

  The circuit breaker of one host (`internal/circuitbreaker`) under many callers.

  Each method holds the breaker's lock, so a run is a sequence of calls.  A request is known
  by a number: `allow` may admit it, and later its outcome is recorded.  The trial is the
  request that took the breaker from open to half-open, until its own outcome is recorded;
  which outcomes come in between, of requests admitted earlier, is up to the run.

  What the calls alone say about the breaker (`Standing`) is proved equal to its state, so
  that the condition for a single trial is one on the calls.
-/

import Mathlib.Data.List.Induction

namespace Orchestrator.Circuitbreaker

open List

inductive State where
  | closed
  | opened
  | halfOpen
  deriving DecidableEq, Repr

/-- Times and durations are in nanoseconds. -/
structure Breaker where
  state : State := .closed
  /-- Consecutive failures. -/
  failures : Int := 0
  threshold : Int
  lastFailure : Int := 0
  cooldown : Int
  deriving DecidableEq, Repr

structure Config where
  threshold : Int
  cooldown : Int

def new (cfg : Config) : Breaker where
  threshold := if cfg.threshold ≤ 0 then 5 else cfg.threshold
  cooldown := if cfg.cooldown ≤ 0 then 30000000000 else cfg.cooldown

namespace Breaker

def allow (b : Breaker) (now : Int) : Bool × Breaker :=
  match b.state with
  | .opened =>
    if now - b.lastFailure > b.cooldown then (true, { b with state := .halfOpen })
    else (false, b)
  | _ => (true, b)

def recordSuccess (b : Breaker) : Breaker := { b with failures := 0, state := .closed }

def recordFailure (b : Breaker) (now : Int) : Breaker :=
  let b' := { b with failures := b.failures + 1, lastFailure := now }
  if b.state = .halfOpen then { b' with state := .opened }
  else if b'.failures ≥ b'.threshold then { b' with state := .opened }
  else b'

end Breaker

/-! ## Runs -/

inductive Call where
  | allow (request : Nat) (now : Int)
  | recordSuccess (request : Nat)
  | recordFailure (request : Nat) (now : Int)
  deriving DecidableEq, Repr

namespace Call

def isSuccess : Call → Bool
  | .recordSuccess _ => true
  | _ => false

/-- The call records the outcome of a request. -/
def Settles (request : Nat) : Call → Prop
  | .allow _ _ => False
  | .recordSuccess r => r = request
  | .recordFailure r _ => r = request

/-- The call asks within the cooldown of a failure. -/
def AsksWithin (cooldown failure : Int) : Call → Prop
  | .allow _ now => now - failure ≤ cooldown
  | _ => False

end Call

def Breaker.step (b : Breaker) : Call → Breaker
  | .allow _ now => (b.allow now).2
  | .recordSuccess _ => b.recordSuccess
  | .recordFailure _ now => b.recordFailure now

def run (cfg : Config) (calls : List Call) : Breaker := calls.foldl Breaker.step (new cfg)

/-- From the call that takes the breaker from open to half-open until the outcome of its request
    is recorded, no other request is admitted. -/
def SingleTrial (cfg : Config) (calls : List Call) : Prop :=
  ∀ before trial start between request now after,
    calls = before ++ .allow trial start :: between ++ .allow request now :: after →
    (run cfg before).state = .opened → ((run cfg before).allow start).1 = true →
    (∀ c ∈ between, ¬ c.Settles trial) →
    ((run cfg (before ++ .allow trial start :: between)).allow now).1 = false

/-! ## What the calls say -/

/-- The failures since the last success. -/
def streak (calls : List Call) : Nat :=
  calls.foldl (fun n call =>
    match call with
    | .allow _ _ => n
    | .recordSuccess _ => 0
    | .recordFailure _ _ => n + 1) 0

/-- The last outcome is a failure at `t`, `P` holds of the calls up to it, and behind it there are
    only requests within the cooldown. -/
def FailedAt (P : List Call → Prop) (cooldown : Int) (calls : List Call) (t : Int) : Prop :=
  ∃ pre request post, calls = pre ++ .recordFailure request t :: post ∧
    P (pre ++ [.recordFailure request t]) ∧ ∀ c ∈ post, c.AsksWithin cooldown t

/-- The calls leave the breaker open since a failure at `t`: with it, the failures since the last
    success have reached the threshold. -/
def Standing (cfg : Config) : List Call → Int → Prop :=
  FailedAt (fun calls => (new cfg).threshold ≤ streak calls) (new cfg).cooldown

/-- A late failure keeps the others out at `now`: one recorded after the trial began, and not
    after a success unless the threshold was reached again. -/
def LateFailure (cfg : Config) (between : List Call) (now : Int) : Prop :=
  ∃ t, now - t ≤ (new cfg).cooldown ∧
    FailedAt (fun calls => (∀ c ∈ calls, c.isSuccess = false) ∨ (new cfg).threshold ≤ streak calls)
      (new cfg).cooldown between t

theorem failedAt_concat {P : List Call → Prop} {cooldown t : Int} {calls : List Call} {c : Call} :
    FailedAt P cooldown (calls ++ [c]) t ↔
      (∃ request, c = .recordFailure request t ∧ P (calls ++ [c])) ∨
        FailedAt P cooldown calls t ∧ c.AsksWithin cooldown t := by
  constructor
  · rintro ⟨pre, request, post, heq, hP, hpost⟩
    rcases eq_nil_or_concat post with rfl | ⟨post, d, rfl⟩
    · obtain ⟨rfl, hc⟩ := append_inj' heq rfl
      obtain rfl := singleton_inj.mp hc
      exact .inl ⟨request, rfl, hP⟩
    · rw [concat_eq_append, ← cons_append, ← append_assoc] at heq
      obtain ⟨rfl, hc⟩ := append_inj' heq rfl
      obtain rfl := singleton_inj.mp hc
      rw [concat_eq_append, forall_mem_append, forall_mem_singleton] at hpost
      exact .inr ⟨⟨pre, request, post, rfl, hP, hpost.1⟩, hpost.2⟩
  · rintro (⟨request, rfl, hP⟩ | ⟨⟨pre, request, post, rfl, hP, hpost⟩, hc⟩)
    · exact ⟨calls, request, [], rfl, hP, nofun⟩
    · refine ⟨pre, request, post ++ [c], by simp, hP, ?_⟩
      exact forall_mem_append.mpr ⟨hpost, forall_mem_singleton.mpr hc⟩

theorem not_failedAt_nil {P : List Call → Prop} {cooldown t : Int} : ¬ FailedAt P cooldown [] t := by
  rintro ⟨pre, request, post, heq, -⟩
  exact absurd heq.symm (by simp)

@[simp] theorem streak_concat_allow (calls : List Call) (request : Nat) (now : Int) :
    streak (calls ++ [.allow request now]) = streak calls := by
  rw [streak, foldl_append]
  rfl

@[simp] theorem streak_concat_success (calls : List Call) (request : Nat) :
    streak (calls ++ [.recordSuccess request]) = 0 := by
  rw [streak, foldl_append]
  rfl

@[simp] theorem streak_concat_failure (calls : List Call) (request : Nat) (now : Int) :
    streak (calls ++ [.recordFailure request now]) = streak calls + 1 := by
  rw [streak, foldl_append]
  rfl

/-- What the calls say is what the breaker has. -/
structure Reads (cfg : Config) (calls : List Call) (b : Breaker) : Prop where
  threshold : b.threshold = (new cfg).threshold
  cooldown : b.cooldown = (new cfg).cooldown
  failures : b.failures = streak calls
  closed : b.state = .closed ↔ (streak calls : Int) < (new cfg).threshold
  opened : ∀ t, b.state = .opened ∧ b.lastFailure = t ↔ Standing cfg calls t

theorem threshold_pos (cfg : Config) : 0 < (new cfg).threshold := by
  rw [new]
  dsimp only
  split <;> omega

section

variable {cfg : Config} {calls : List Call} {b : Breaker}

theorem Reads.allow (h : Reads cfg calls b) (request : Nat) (now : Int) :
    Reads cfg (calls ++ [.allow request now]) (b.allow now).2 := by
  have hstanding : ∀ t, Standing cfg (calls ++ [.allow request now]) t ↔
      (b.state = .opened ∧ b.lastFailure = t) ∧ now - t ≤ (new cfg).cooldown := by
    intro t
    rw [h.opened, Standing, failedAt_concat]
    simp [Call.AsksWithin]
  have hclosed := h.closed
  unfold Breaker.allow
  split
  · rename_i hopened
    split
    · rename_i hlate
      rw [hopened] at hclosed
      refine ⟨h.threshold, h.cooldown, by simpa using h.failures, by simpa using hclosed, ?_⟩
      intro t
      rw [hstanding]
      refine iff_of_false (by simp) ?_
      rintro ⟨⟨-, rfl⟩, hle⟩
      rw [h.cooldown] at hlate
      omega
    · rename_i hlate
      refine ⟨h.threshold, h.cooldown, by simpa using h.failures, by simpa using hclosed, ?_⟩
      intro t
      rw [hstanding]
      refine (and_iff_left_of_imp fun ht => ?_).symm
      obtain rfl : b.lastFailure = t := ht.2
      rw [h.cooldown] at hlate
      omega
  · rename_i hopened
    refine ⟨h.threshold, h.cooldown, by simpa using h.failures, by simpa using hclosed, ?_⟩
    intro t
    rw [hstanding]
    exact iff_of_false (fun ht => hopened ht.1) fun ht => hopened ht.1.1

theorem Reads.recordSuccess (h : Reads cfg calls b) (request : Nat) :
    Reads cfg (calls ++ [.recordSuccess request]) b.recordSuccess := by
  refine ⟨h.threshold, h.cooldown, by simp [Breaker.recordSuccess], ?_, fun t => ?_⟩
  · simpa [Breaker.recordSuccess] using threshold_pos cfg
  · rw [Standing, failedAt_concat]
    simp [Breaker.recordSuccess, Call.AsksWithin]

theorem Reads.recordFailure (h : Reads cfg calls b) (request : Nat) (now : Int) :
    Reads cfg (calls ++ [.recordFailure request now]) (b.recordFailure now) := by
  have hreached : (new cfg).threshold ≤ streak calls ↔ b.state ≠ .closed := by
    rw [ne_eq, h.closed, Int.not_lt]
  have hstate : (b.recordFailure now).state =
      if (new cfg).threshold ≤ streak calls + 1 then .opened else .closed := by
    unfold Breaker.recordFailure
    dsimp only
    rw [h.failures, h.threshold]
    cases hb : b.state with
    | closed =>
      rw [if_neg nofun]
      split <;> rfl
    | opened =>
      have hle := hreached.mpr (by rw [hb]; nofun)
      rw [if_neg nofun, if_pos (show _ ≤ _ by omega), if_pos (by omega)]
    | halfOpen =>
      have hle := hreached.mpr (by rw [hb]; nofun)
      rw [if_pos rfl, if_pos (by omega)]
  have hfields : (b.recordFailure now).threshold = b.threshold ∧
      (b.recordFailure now).cooldown = b.cooldown ∧
      (b.recordFailure now).failures = b.failures + 1 ∧
      (b.recordFailure now).lastFailure = now := by
    unfold Breaker.recordFailure
    dsimp only
    split
    · exact ⟨rfl, rfl, rfl, rfl⟩
    · split <;> exact ⟨rfl, rfl, rfl, rfl⟩
  obtain ⟨hthreshold, hcooldown, hfailures, hlast⟩ := hfields
  refine ⟨hthreshold.trans h.threshold, hcooldown.trans h.cooldown, ?_, ?_, fun t => ?_⟩
  · rw [hfailures, h.failures, streak_concat_failure, Int.natCast_succ]
  · rw [hstate, streak_concat_failure]
    split
    · exact iff_of_false nofun (by omega)
    · exact iff_of_true rfl (by omega)
  · rw [Standing, failedAt_concat, hstate, hlast, streak_concat_failure]
    simp only [Call.AsksWithin, Call.recordFailure.injEq, and_false, or_false, Int.natCast_succ,
      exists_and_right]
    split <;> simp_all

theorem reads_run (cfg : Config) (calls : List Call) : Reads cfg calls (run cfg calls) := by
  induction calls using reverseRecOn with
  | nil =>
    refine ⟨rfl, rfl, rfl, iff_of_true rfl (threshold_pos cfg), fun t => ?_⟩
    exact iff_of_false (fun ht => nomatch ht.1) not_failedAt_nil
  | append_singleton calls c ih =>
    rw [run, foldl_append]
    cases c with
    | allow request now => exact ih.allow request now
    | recordSuccess request => exact ih.recordSuccess request
    | recordFailure request now => exact ih.recordFailure request now

theorem allow_eq_false_iff (h : Reads cfg calls b) (now : Int) :
    (b.allow now).1 = false ↔ ∃ t, now - t ≤ (new cfg).cooldown ∧ Standing cfg calls t := by
  simp only [← h.opened]
  unfold Breaker.allow
  split
  · rename_i hopened
    rw [← h.cooldown]
    split <;> simp [hopened] <;> omega
  · rename_i hopened
    refine iff_of_false (by simp) ?_
    rintro ⟨t, -, hstate, -⟩
    exact hopened hstate

end

/-- A success makes what was before it forgotten. -/
theorem streak_append (before calls : List Call) :
    streak (before ++ calls) =
      streak calls + if ∀ c ∈ calls, c.isSuccess = false then streak before else 0 := by
  induction calls using reverseRecOn with
  | nil => simp [streak]
  | append_singleton calls c ih =>
    simp only [← append_assoc, forall_mem_append, forall_mem_singleton]
    cases c with
    | allow request now =>
      have hallow : (Call.allow request now).isSuccess = false := rfl
      simp only [streak_concat_allow, ih, hallow, and_true]
    | recordSuccess request =>
      rw [streak_concat_success, streak_concat_success, if_neg fun h => nomatch h.2]
    | recordFailure request now =>
      have hfailure : (Call.recordFailure request now).isSuccess = false := rfl
      simp only [streak_concat_failure, ih, hfailure, and_true]
      omega

/-- Once a trial has begun, only a late failure leaves the breaker open. -/
theorem standing_append_iff {cfg : Config} {before : List Call} {t₀ start : Int} {trial : Nat}
    (h : Standing cfg before t₀) (hstart : (new cfg).cooldown < start - t₀) (between : List Call)
    (t : Int) :
    Standing cfg (before ++ .allow trial start :: between) t ↔
      FailedAt (fun calls => (∀ c ∈ calls, c.isSuccess = false) ∨ (new cfg).threshold ≤ streak calls)
        (new cfg).cooldown between t := by
  have hreads := reads_run cfg before
  have hopened := (hreads.opened t₀).mpr h
  have hreached : (new cfg).threshold ≤ streak before := by
    rw [← Int.not_lt, ← hreads.closed, hopened.1]
    nofun
  induction between using reverseRecOn with
  | nil =>
    refine iff_of_false (fun hstanding => ?_) not_failedAt_nil
    rcases failedAt_concat.mp hstanding with ⟨request, heq, -⟩ | ⟨hbefore, hwithin⟩
    · cases heq
    · have hsame := ((hreads.opened t).mpr hbefore).2
      rw [hopened.2] at hsame
      subst hsame
      exact absurd hstart (Int.not_lt.mpr hwithin)
  | append_singleton between c ih =>
    have hstreak : (new cfg).threshold ≤ streak (before ++ .allow trial start :: (between ++ [c])) ↔
        (∀ d ∈ between ++ [c], d.isSuccess = false) ∨
          (new cfg).threshold ≤ streak (between ++ [c]) := by
      rw [append_cons, streak_append, streak_concat_allow]
      split
      · rename_i hnone
        exact iff_of_true (by omega) (.inl hnone)
      · rename_i hsome
        rw [Nat.add_zero, or_iff_right hsome]
    rw [failedAt_concat, ← hstreak, ← cons_append, ← append_assoc, Standing,
      failedAt_concat]
    exact or_congr_right (and_congr_left' ih)

/-- **One trial at a time, exactly when a late failure holds off every request that comes while
    the trial is out**: the failure of another request, recorded after the trial began, within
    the cooldown. -/
theorem singleTrial_iff (cfg : Config) (calls : List Call) :
    SingleTrial cfg calls ↔
      ∀ before trial start between request now after,
        calls = before ++ .allow trial start :: between ++ .allow request now :: after →
        (∃ t, Standing cfg before t ∧ (new cfg).cooldown < start - t) →
        (∀ c ∈ between, ¬ c.Settles trial) → LateFailure cfg between now := by
  have hbegins : ∀ before start, (run cfg before).state = .opened ∧
      ((run cfg before).allow start).1 = true ↔
      ∃ t, Standing cfg before t ∧ (new cfg).cooldown < start - t := by
    intro before start
    have hreads := reads_run cfg before
    rw [← Bool.not_eq_false, allow_eq_false_iff hreads]
    constructor
    · rintro ⟨hopened, hrefused⟩
      have hstanding := (hreads.opened _).mp ⟨hopened, rfl⟩
      refine ⟨_, hstanding, ?_⟩
      exact Int.not_le.mp fun hle => hrefused ⟨_, hle, hstanding⟩
    · rintro ⟨t, hstanding, hlate⟩
      obtain ⟨hopened, rfl⟩ := (hreads.opened t).mpr hstanding
      refine ⟨hopened, ?_⟩
      rintro ⟨t', hle, hstanding'⟩
      obtain ⟨-, rfl⟩ := (hreads.opened t').mpr hstanding'
      omega
  have hlate : ∀ before trial start between now,
      (∃ t, Standing cfg before t ∧ (new cfg).cooldown < start - t) →
      (((run cfg (before ++ .allow trial start :: between)).allow now).1 = false ↔
        LateFailure cfg between now) := by
    rintro before trial start between now ⟨t₀, hstanding, hstart⟩
    rw [allow_eq_false_iff (reads_run cfg _)]
    simp only [standing_append_iff hstanding hstart]
    rfl
  constructor
  · intro h before trial start between request now after hcalls htrial hout
    obtain ⟨hopened, hadmitted⟩ := (hbegins before start).mpr htrial
    exact (hlate _ _ _ _ _ htrial).mp
      (h before trial start between request now after hcalls hopened hadmitted hout)
  · intro h before trial start between request now after hcalls hopened hadmitted hout
    have htrial := (hbegins before start).mp ⟨hopened, hadmitted⟩
    exact (hlate _ _ _ _ _ htrial).mpr
      (h before trial start between request now after hcalls htrial hout)

/-- A second request is admitted while the first one after the cooldown is still out. -/
theorem second_trial_admitted :
    ¬ SingleTrial ⟨1, 10⟩ [.allow 0 0, .recordFailure 0 5, .allow 1 20, .allow 2 21] := by
  intro h
  have hrefused := h [.allow 0 0, .recordFailure 0 5] 1 20 [] 2 21 [] rfl (by decide) (by decide)
    nofun
  exact absurd hrefused (by decide)

end Orchestrator.Circuitbreaker

/-
  Orchestrator.Proxy.Slots

  The concurrency slots of the workload sidecar: `handleData` with `acquire`, and the two
  ways the data plane is bound, `New` and `arm`.

  Every request is a goroutine.  Requests are alike, so they are counted by the point they
  have reached; a step moves one request over one operation on the semaphore, the waiter
  counter or its context.  Timeouts, probing and the ports of a claim are left out: what
  the prober answers is an input.
-/

import Orchestrator.Lib.Machine

namespace Orchestrator.WorkloadSidecar

open Lib.Machine

/-- `Config`, as far as slots and the binding go. -/
structure Config where
  target : String
  targetHost : String
  /-- Not empty in pool mode. -/
  claimToken : String
  /-- Hard cap of requests in flight; not positive for none. -/
  concurrency : Int
  queueSize : Int
deriving DecidableEq, Repr

/-- `ClaimRequest`: it has no queue size. -/
structure ClaimRequest where
  port : Int
  concurrency : Int
deriving DecidableEq, Repr

/-- The armed data plane. -/
structure Binding where
  target : String
deriving DecidableEq, Repr

def newBinding (cfg : Config) : Binding := ⟨cfg.target⟩

def joinHostPort (host : String) (port : Int) : String :=
  if host.contains ':' then "[" ++ host ++ "]:" ++ toString port
  else host ++ ":" ++ toString port

/-- `Proxy`, and how many requests stand where. -/
structure Proxy where
  cfg : Config
  /-- Capacity of the semaphore channel; `none` for the nil channel. -/
  sem : Option Nat
  held : Nat
  waiters : Int
  bind : Option Binding
  draining : Bool
  /-- In `acquire`, before the first attempt. -/
  entering : Nat
  /-- The first attempt found no slot. -/
  full : Nat
  /-- Counted as a waiter beyond the queue. -/
  beyond : Nat
  /-- Waiting for a slot or for the client to give up. -/
  waiting : Nat
  /-- Has got a slot and is still counted as a waiter. -/
  granted : Nat
  /-- Has given up and is still counted as a waiter. -/
  cancelled : Nat
  /-- Between `acquire` and the release of the slot. -/
  proxying : Nat
deriving DecidableEq, Repr

inductive Event where
  | arrive (ready : Bool)
  | attempt
  /-- `waiters.Add(1)`. -/
  | queue
  /-- `waiters.Add(-1)` of a request beyond the queue. -/
  | shed
  | grant
  | cancel
  /-- The deferred `waiters.Add(-1)` of a request with a slot. -/
  | enter
  /-- The deferred `waiters.Add(-1)` of a request without one. -/
  | giveUp
  | complete
  | arm
  | drain
deriving DecidableEq, Repr

/-- The answers of `handleData` that are the proxy's own. -/
inductive Reply where
  | serviceUnavailable
  | concurrencyLimitExceeded
deriving DecidableEq, Repr

/-- `New`: the semaphore is made from the start-up configuration. -/
def new (cfg : Config) : Proxy where
  cfg := cfg
  sem := if cfg.concurrency > 0 then some cfg.concurrency.toNat else none
  held := 0
  waiters := 0
  bind := if cfg.claimToken ≠ "" then none else some (newBinding cfg)
  draining := false
  entering := 0
  full := 0
  beyond := 0
  waiting := 0
  granted := 0
  cancelled := 0
  proxying := 0

/-- A slot is free; sending on the nil channel never goes through. -/
def Proxy.free (p : Proxy) : Bool := p.sem.any fun cap => decide (p.held < cap)

/-- `arm`: the binding is made from a copy of the configuration. -/
def Proxy.arm (p : Proxy) (req : ClaimRequest) : Proxy :=
  let cfg := { p.cfg with
    target := joinHostPort p.cfg.targetHost req.port
    concurrency := req.concurrency }
  { p with bind := some (newBinding cfg) }

/-- The first attempt at a slot; without a semaphore there is nothing to wait for. -/
def Proxy.attempt (p : Proxy) : Proxy :=
  if p.sem = none then { p with entering := p.entering - 1, proxying := p.proxying + 1 }
  else if p.free then
    { p with entering := p.entering - 1, held := p.held + 1, proxying := p.proxying + 1 }
  else { p with entering := p.entering - 1, full := p.full + 1 }

/-- A request counts itself as a waiter and compares. -/
def Proxy.queue (p : Proxy) : Proxy :=
  if p.waiters + 1 > p.cfg.queueSize then
    { p with full := p.full - 1, waiters := p.waiters + 1, beyond := p.beyond + 1 }
  else { p with full := p.full - 1, waiters := p.waiters + 1, waiting := p.waiting + 1 }

/-- `releaseSlot`, or nothing without a semaphore. -/
def Proxy.release (p : Proxy) : Proxy :=
  if p.sem = none then { p with proxying := p.proxying - 1 }
  else { p with proxying := p.proxying - 1, held := p.held - 1 }

/-- One step.  An event of a request needs a request that has come that far; `req` is the claim
    that gets through to `arm`. -/
def step (req : ClaimRequest) (p : Proxy) : Event → Proxy × List Reply
  | .arrive ready =>
    if p.bind = none ∨ p.draining = true ∨ ready = false then (p, [.serviceUnavailable])
    else ({ p with entering := p.entering + 1 }, [])
  | .attempt => if 0 < p.entering then (p.attempt, []) else (p, [])
  | .queue => if 0 < p.full then (p.queue, []) else (p, [])
  | .shed =>
    if 0 < p.beyond then
      ({ p with beyond := p.beyond - 1, waiters := p.waiters - 1 }, [.concurrencyLimitExceeded])
    else (p, [])
  | .grant =>
    if 0 < p.waiting ∧ p.free = true then
      ({ p with waiting := p.waiting - 1, held := p.held + 1, granted := p.granted + 1 }, [])
    else (p, [])
  | .cancel =>
    if 0 < p.waiting then
      ({ p with waiting := p.waiting - 1, cancelled := p.cancelled + 1 }, [])
    else (p, [])
  | .enter =>
    if 0 < p.granted then
      ({ p with granted := p.granted - 1, waiters := p.waiters - 1,
                proxying := p.proxying + 1 }, [])
    else (p, [])
  | .giveUp =>
    if 0 < p.cancelled then
      ({ p with cancelled := p.cancelled - 1, waiters := p.waiters - 1 },
        [.concurrencyLimitExceeded])
    else (p, [])
  | .complete => if 0 < p.proxying then (p.release, []) else (p, [])
  -- a pod is armed once, and only in pool mode
  | .arm => if p.cfg.claimToken ≠ "" ∧ p.bind = none then (p.arm req, []) else (p, [])
  | .drain => ({ p with draining := true }, [])

/-! ## The bounds -/

/-- The concurrency that was declared for the workload: with the claim in pool mode, at start-up
    otherwise. -/
def declared (cfg : Config) (req : ClaimRequest) : Int :=
  if cfg.claimToken ≠ "" then req.concurrency else cfg.concurrency

/-- The declared limits hold. -/
structure Proxy.Bounded (c q : Nat) (p : Proxy) : Prop where
  proxying : p.proxying ≤ c
  waiting : p.waiting ≤ q

/-- A claimed pod was started with a cap, and one the claim allows. -/
def Enforced (cfg : Config) (req : ClaimRequest) : Prop :=
  cfg.claimToken ≠ "" → 0 < cfg.concurrency ∧ cfg.concurrency ≤ req.concurrency

/-- What every step keeps: the waiter counter counts those who are between the two counter
    operations, those within the queue never exceed it, and slots are held by the requests that
    got one. -/
structure Proxy.Sound (cfg : Config) (q : Nat) (p : Proxy) : Prop where
  cfg_eq : p.cfg = cfg
  sem_eq : p.sem = (new cfg).sem
  counted : p.waiters = p.beyond + p.waiting + p.granted + p.cancelled
  queued : p.waiting + p.granted + p.cancelled ≤ q
  holding : ∀ cap, p.sem = some cap → p.held = p.granted + p.proxying ∧ p.held ≤ cap

theorem new_sound (cfg : Config) (q : Nat) : (new cfg).Sound cfg q where
  cfg_eq := rfl
  sem_eq := rfl
  counted := rfl
  queued := Nat.zero_le q
  holding := fun _ _ => ⟨rfl, Nat.zero_le _⟩

theorem Proxy.free_iff (p : Proxy) {cap : Nat} (h : p.sem = some cap) :
    p.free = true ↔ p.held < cap := by
  rw [Proxy.free, h]
  simp

section

variable {cfg : Config} {req : ClaimRequest} {q : Nat} {p : Proxy}

theorem Proxy.Sound.attempt (h : p.Sound cfg q) : p.attempt.Sound cfg q := by
  obtain ⟨hcfg, hsem, hcounted, hqueued, hholding⟩ := h
  cases hs : p.sem with
  | none =>
    rw [Proxy.attempt, if_pos hs]
    exact ⟨hcfg, hsem, hcounted, hqueued, fun cap hcap => by simp [hs] at hcap⟩
  | some cap =>
    obtain ⟨hheld, hle⟩ := hholding cap hs
    rw [Proxy.attempt, if_neg (by simp [hs])]
    split
    · rename_i hfree
      have hlt := (p.free_iff hs).mp hfree
      refine ⟨hcfg, hsem, hcounted, hqueued, ?_⟩
      intro cap' hcap'
      obtain rfl : cap = cap' := Option.some.inj (hs.symm.trans hcap')
      exact ⟨by simp only; omega, hlt⟩
    · exact ⟨hcfg, hsem, hcounted, hqueued, hholding⟩

theorem Proxy.Sound.queue (h : p.Sound cfg q) (hq : cfg.queueSize = q) :
    p.queue.Sound cfg q := by
  obtain ⟨hcfg, hsem, hcounted, hqueued, hholding⟩ := h
  rw [Proxy.queue]
  split
  · exact ⟨hcfg, hsem, by simp only; omega, hqueued, hholding⟩
  · rename_i hroom
    rw [hcfg, hq] at hroom
    exact ⟨hcfg, hsem, by simp only; omega, by simp only; omega, hholding⟩

theorem Proxy.Sound.release (h : p.Sound cfg q) (hp : 0 < p.proxying) :
    p.release.Sound cfg q := by
  obtain ⟨hcfg, hsem, hcounted, hqueued, hholding⟩ := h
  rw [Proxy.release]
  split
  · rename_i hnone
    exact ⟨hcfg, hsem, hcounted, hqueued, fun cap hcap => by simp [hnone] at hcap⟩
  refine ⟨hcfg, hsem, hcounted, hqueued, ?_⟩
  intro cap hcap
  obtain ⟨hheld, hle⟩ := hholding cap hcap
  exact ⟨by simp only; omega, by simp only; omega⟩

theorem Proxy.Sound.step (h : p.Sound cfg q) (hq : cfg.queueSize = q) (e : Event) :
    (step req p e).1.Sound cfg q := by
  have ⟨hcfg, hsem, hcounted, hqueued, hholding⟩ := h
  -- an event that cannot happen now changes nothing
  have hidle : ∀ {c : Prop} [Decidable c] {a : Proxy × List Reply}, (c → a.1.Sound cfg q) →
      (if c then a else (p, [])).1.Sound cfg q := by
    intro c _ a ha
    split
    · exact ha ‹_›
    · exact h
  cases e with
  | arrive ready =>
    rw [WorkloadSidecar.step]
    split
    · exact h
    · exact { h with }
  | attempt => exact hidle fun _ => h.attempt
  | queue => exact hidle fun _ => h.queue hq
  | shed => exact hidle fun _ => ⟨hcfg, hsem, by simp only; omega, hqueued, hholding⟩
  | grant =>
    refine hidle fun hgrant => ⟨hcfg, hsem, by simp only; omega, by simp only; omega, ?_⟩
    intro cap hcap
    obtain ⟨hheld, hle⟩ := hholding cap hcap
    have hlt := (p.free_iff hcap).mp hgrant.2
    exact ⟨by simp only; omega, hlt⟩
  | cancel | giveUp =>
    exact hidle fun _ => ⟨hcfg, hsem, by simp only; omega, by simp only; omega, hholding⟩
  | enter =>
    refine hidle fun _ => ⟨hcfg, hsem, by simp only; omega, by simp only; omega, ?_⟩
    intro cap hcap
    obtain ⟨hheld, hle⟩ := hholding cap hcap
    exact ⟨by simp only; omega, hle⟩
  | complete => exact hidle h.release
  | arm => exact hidle fun _ => { h with }
  | drain => exact { h with }

theorem run_sound (hq : cfg.queueSize = q) (events : List Event) :
    (run (step req) (new cfg) events).1.Sound cfg q :=
  @run_preserves Proxy Event Reply (step req) (fun p _ => p.Sound cfg q)
    (fun _ _ e h => h.step hq e) (new cfg) [] events (new_sound cfg q)

end

/-! ## A claim's cap is not enforced -/

/-- `n` requests arrive and take their first attempt. -/
def burst (n : Nat) : List Event := (List.replicate n [.arrive true, .attempt]).flatten

/-- While a slot is free, or without a semaphore, the first attempt succeeds. -/
theorem Proxy.attempt_proxying {p : Proxy} (hroom : ∀ cap, p.sem = some cap → p.held < cap) :
    p.attempt.bind = p.bind ∧ p.attempt.draining = p.draining ∧ p.attempt.sem = p.sem ∧
      p.attempt.held ≤ p.held + 1 ∧ p.attempt.proxying = p.proxying + 1 := by
  rw [Proxy.attempt]
  by_cases hs : p.sem = none
  · rw [if_pos hs]
    exact ⟨rfl, rfl, rfl, Nat.le_succ _, rfl⟩
  obtain ⟨cap, hcap⟩ := Option.ne_none_iff_exists'.mp hs
  have hfree : p.free = true := (p.free_iff hcap).mpr (hroom cap hcap)
  rw [if_neg hs, if_pos hfree]
  exact ⟨rfl, rfl, rfl, Nat.le_refl _, rfl⟩

theorem run_arrive_attempt {req : ClaimRequest} {p : Proxy} (hbind : p.bind ≠ none)
    (hdrain : p.draining = false) :
    (run (step req) p [.arrive true, .attempt]).1 =
      { p with entering := p.entering + 1 }.attempt := by
  have harrive : step req p (.arrive true) = ({ p with entering := p.entering + 1 }, []) := by
    rw [step, if_neg (by simp [hbind, hdrain])]
  rw [run, run, run, harrive, step, if_pos (Nat.succ_pos _)]

/-- While slots last, or without a semaphore, all of a burst is proxied. -/
theorem run_burst {req : ClaimRequest} {p : Proxy} (hbind : p.bind ≠ none)
    (hdrain : p.draining = false) {n : Nat} (hroom : ∀ cap, p.sem = some cap → p.held + n ≤ cap) :
    (run (step req) p (burst n)).1.proxying = p.proxying + n := by
  induction n generalizing p with
  | zero => rfl
  | succ n ih =>
    have hslot : ∀ cap, p.sem = some cap → p.held < cap := by
      intro cap hcap
      have := hroom cap hcap
      omega
    obtain ⟨hbind', hdrain', hsem', hheld', hproxying'⟩ :=
      @Proxy.attempt_proxying { p with entering := p.entering + 1 } hslot
    rw [burst, List.replicate_succ, List.flatten_cons, run_append, ← burst,
      run_arrive_attempt hbind hdrain, ih (by rw [hbind']; exact hbind)
      (by rw [hdrain']; exact hdrain), hproxying']
    · simp only
      omega
    · intro cap hcap
      rw [hsem'] at hcap
      have := hroom cap hcap
      simp only at hheld'
      omega

/-- A claimed pod without a cap of its own that the claim allows proxies one request more than
    the claim declares. -/
theorem run_arm_burst {cfg : Config} {req : ClaimRequest} {c : Nat} (htoken : cfg.claimToken ≠ "")
    (hcap : ¬ (0 < cfg.concurrency ∧ cfg.concurrency ≤ c)) :
    (run (step req) (new cfg) (.arm :: burst (c + 1))).1.proxying = c + 1 := by
  have harm : step req (new cfg) .arm = ((new cfg).arm req, []) := by
    rw [step, if_pos ⟨htoken, by simp [new, htoken]⟩]
  rw [run, harm, run_burst]
  · simp [Proxy.arm, new]
  · simp [Proxy.arm]
  · rfl
  · intro cap hsem
    have hnew : (new cfg).sem = some cap := hsem
    show 0 + (c + 1) ≤ cap
    rw [new] at hnew
    by_cases hpos : cfg.concurrency > 0
    · simp only [if_pos hpos, Option.some.injEq] at hnew
      omega
    · simp [if_neg hpos] at hnew

/-- **The declared limits hold in every run exactly when the start-up configuration enforces
    them**: always for limits declared at start-up, and for a claim only when the pod was started
    with a cap within the claim's. -/
theorem declared_limits_hold_iff (cfg : Config) (req : ClaimRequest) (c q : Nat) (hc : 0 < c)
    (hdeclared : declared cfg req = c) (hq : cfg.queueSize = q) :
    (∀ events, (run (step req) (new cfg) events).1.Bounded c q) ↔ Enforced cfg req := by
  constructor
  · intro h htoken
    have hreq : req.concurrency = c := by rw [← hdeclared, declared, if_pos htoken]
    rw [hreq]
    by_contra hcap
    have hmore := (h (.arm :: burst (c + 1))).proxying
    rw [run_arm_burst htoken hcap] at hmore
    omega
  · intro henforced events
    have hsound : (run (step req) (new cfg) events).1.Sound cfg q := run_sound hq events
    -- in both modes the semaphore has a capacity within what was declared
    obtain ⟨hpos, hle⟩ : 0 < cfg.concurrency ∧ cfg.concurrency ≤ c := by
      by_cases htoken : cfg.claimToken ≠ ""
      · rw [declared, if_pos htoken] at hdeclared
        rw [← hdeclared]
        exact henforced htoken
      · rw [declared, if_neg htoken] at hdeclared
        omega
    have hsem : (new cfg).sem = some cfg.concurrency.toNat := if_pos hpos
    obtain ⟨hheld, hcap⟩ := hsound.holding _ (hsound.sem_eq.trans hsem)
    have hqueued := hsound.queued
    exact ⟨by omega, by omega⟩

def directConfig : Config := ⟨"127.0.0.1:3000", "127.0.0.1", "", 2, 1⟩

/-- Of four requests two get a slot, one waits and one is beyond the queue. -/
def queuedBurst : List Event := burst 4 ++ [.queue, .queue, .shed]

theorem declared_limits_hold_queued :
    let (p, replies) := run (step ⟨3000, 0⟩) (new directConfig) queuedBurst
    p.Bounded 2 1 ∧ p.proxying = 2 ∧ p.waiting = 1 ∧ replies = [.concurrencyLimitExceeded] :=
  ⟨(declared_limits_hold_iff directConfig ⟨3000, 0⟩ 2 1 (by decide) rfl rfl).mpr
    (fun h => absurd rfl h) queuedBurst, by decide, by decide, by decide⟩

/-- A warm pod, as the pools start it. -/
def warmConfig : Config := ⟨"", "127.0.0.1", "token", 0, 100⟩

/-- A claim that declares one request at a time gets two. -/
theorem claimed_cap_exceeded :
    declared warmConfig ⟨3000, 1⟩ = 1 ∧
      (run (step ⟨3000, 1⟩) (new warmConfig)
        [.arm, .arrive true, .attempt, .arrive true, .attempt]).1.proxying = 2 := by
  decide

end Orchestrator.WorkloadSidecar

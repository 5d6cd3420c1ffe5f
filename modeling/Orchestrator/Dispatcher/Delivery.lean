/-
  Orchestrator.Dispatcher.Delivery

  One event on its way through the delivery chain (delivery.go: the circuit breaker, around
  the retries, around the HTTP send) and back into the queue (`deliver` and `requeue` of
  memory.go).  What the breaker answers, how each send ends and what becomes of a copy on its
  timer is given; `follow` is the event's whole life.
-/

import Orchestrator.Dispatcher.Memory

namespace Orchestrator.Dispatcher

/-- How one send ends; a client error is a 4xx answer. -/
inductive Sent where
  | ok
  | clientError
  | transient
  deriving DecidableEq, Repr

/-- What one pass through the chain meets: the answer of the breaker, and by attempt the end
    of the send and whether the context ends in the backoff before it. -/
structure Pass where
  allowed : Bool
  send : Nat → Sent
  expires : Nat → Bool

/-- The loop of `WithRetry` from `attempt` on, with the sends that it makes. -/
def withRetry (p : Pass) : (left attempt : Nat) → Delivery × List Sent
  | 0, _ => (.failed, [])
  | left + 1, attempt =>
    if 0 < attempt ∧ p.expires attempt then (.failed, [])
    else
      match p.send attempt with
      | .ok => (.delivered, [.ok])
      | .clientError => (.failed, [.clientError])
      | .transient =>
        let (result, sends) := withRetry p left (attempt + 1)
        (result, .transient :: sends)

def chain (maxRetries : Nat) (p : Pass) : Delivery × List Sent :=
  if p.allowed then withRetry p (maxRetries + 1) 0 else (.circuitOpen, [])

/-- What becomes of a copy that waits to go back into the queue. -/
inductive Wait where
  | queued
  | bufferFull
  | shutdown

structure Life where
  sends : List Sent
  passes : Nat
  /-- The counter it ends in; none for a copy that the shutdown has met. -/
  outcome : Option Outcome

/-- An event from the queue; its passes and waits are numbered by its requeues. -/
def follow (maxRetries : Nat) (pass : Nat → Pass) (wait : Nat → Wait) (e : Event) : Life :=
  let (result, sends) := chain maxRetries (pass e.requeues)
  match result with
  | .delivered => ⟨sends, 1, some .delivered⟩
  | .failed => ⟨sends, 1, some .failed⟩
  | .circuitOpen =>
    if defaultMaxRequeues ≤ e.requeues then ⟨sends, 1, some .dropped⟩
    else
      match wait e.requeues with
      | .shutdown => ⟨sends, 1, none⟩
      | .bufferFull => ⟨sends, 1, some .dropped⟩
      | .queued =>
        let rest := follow maxRetries pass wait ⟨e.id, e.requeues + 1⟩
        ⟨sends ++ rest.sends, rest.passes + 1, rest.outcome⟩
termination_by defaultMaxRequeues - e.requeues

/-- The goroutine of `requeue` is done with an event that waited. -/
def Memory.settle (d : Memory) (e : Event) : Wait → Memory
  | .queued => d.push e
  | .bufferFull => d.count e .dropped
  | .shutdown => d.lose e

/-- A timer ends in one of the ways that `follow` is given. -/
theorem timerSend_settles {d : Memory} {t : Timer} (ht : t ∈ d.timers) (he : t.elapsed = true)
    (toQueue : Bool) : ∃ w, d.timerSend t toQueue = (d.dropTimer t).settle t.event w := by
  rw [Memory.timerSend, if_pos ⟨ht, he⟩]
  dsimp only
  split
  · exact ⟨.queued, rfl⟩
  · split
    · exact ⟨.queued, rfl⟩
    · exact ⟨.shutdown, rfl⟩
  · exact ⟨.shutdown, rfl⟩
  · exact ⟨.bufferFull, rfl⟩

/-- `follow` goes by what the dispatcher does with an event a worker delivers: it is counted,
    and that is its end, or its copy goes on a timer, and the end is that of its wait. -/
theorem follow_deliver {d : Memory} {h : Hand} (hh : h ∈ d.hands) {maxRetries : Nat}
    {pass : Nat → Pass} {result : Delivery} {sends : List Sent}
    (hchain : chain maxRetries (pass h.event.requeues) = (result, sends)) (wait : Nat → Wait) :
    let outcome (e : Event) := (follow maxRetries pass wait e).outcome
    (∃ o, d.deliver h result = (d.putDown h).count h.event o ∧ outcome h.event = some o) ∨
    ∃ next, d.deliver h result = (d.putDown h).addTimer ⟨next, false⟩ ∧
      outcome h.event = match wait h.event.requeues with
        | .queued => outcome next
        | .bufferFull => some .dropped
        | .shutdown => none := by
  intro outcome
  simp only [outcome, Memory.deliver, if_pos hh]
  rw [follow, hchain]
  cases result with
  | delivered => exact .inl ⟨.delivered, rfl, rfl⟩
  | failed => exact .inl ⟨.failed, rfl, rfl⟩
  | circuitOpen =>
    simp only [Memory.requeue]
    split
    · exact .inl ⟨.dropped, rfl, rfl⟩
    · refine .inr ⟨_, rfl, ?_⟩
      cases wait h.event.requeues <;> rfl

/-- The sends of a pass: all but the last one failed and may be tried again, and the pass
    delivers exactly when one succeeded. -/
structure Tried (limit : Nat) (delivered : Prop) (sends : List Sent) : Prop where
  bounded : sends.length ≤ limit
  retried : ∀ s ∈ sends.dropLast, s = .transient
  delivered_iff : delivered ↔ .ok ∈ sends

theorem withRetry_tried (p : Pass) (left attempt : Nat) :
    (withRetry p left attempt).1 ≠ .circuitOpen ∧
      Tried left ((withRetry p left attempt).1 = .delivered) (withRetry p left attempt).2 := by
  induction left generalizing attempt with
  | zero => exact ⟨nofun, ⟨Nat.le_refl 0, nofun, by simp [withRetry]⟩⟩
  | succ left ih =>
    obtain ⟨hresult, hlen, hlast, hok⟩ := ih (attempt + 1)
    unfold withRetry
    split
    · exact ⟨nofun, ⟨Nat.zero_le _, nofun, by simp⟩⟩
    split
    · exact ⟨nofun, ⟨by simp, by simp, by simp⟩⟩
    · exact ⟨nofun, ⟨by simp, by simp, by simp⟩⟩
    refine ⟨hresult, ⟨Nat.succ_le_succ hlen, ?_, by simpa using hok⟩⟩
    intro s hs
    cases hsends : (withRetry p left (attempt + 1)).2 with
    | nil => simp [hsends] at hs
    | cons t rest =>
      simp only [hsends, List.dropLast_cons_cons, List.mem_cons] at hs hlast
      exact hs.elim id (hlast s)

/-- The breaker lets a pass through to the sends, or nothing is sent. -/
theorem chain_tried {maxRetries : Nat} {p : Pass} {result : Delivery} {sends : List Sent}
    (h : chain maxRetries p = (result, sends)) :
    (result = .circuitOpen → sends = []) ∧
      (result ≠ .circuitOpen → Tried (maxRetries + 1) (result = .delivered) sends) := by
  unfold chain at h
  split at h
  · have htried := withRetry_tried p (maxRetries + 1) 0
    rw [h] at htried
    exact ⟨fun hopen => absurd hopen htried.1, fun _ => htried.2⟩
  · cases h
    exact ⟨fun _ => rfl, fun hne => absurd rfl hne⟩

/-- What holds of an event from the queue on. -/
theorem follow_tried (maxRetries : Nat) (pass : Nat → Pass) (wait : Nat → Wait) (e : Event) :
    Tried (maxRetries + 1) ((follow maxRetries pass wait e).outcome = some .delivered)
        (follow maxRetries pass wait e).sends ∧
      (follow maxRetries pass wait e).passes ≤ defaultMaxRequeues - e.requeues + 1 := by
  have hnone : ∀ o, o ≠ some Outcome.delivered →
      Tried (maxRetries + 1) (o = some .delivered) [] :=
    fun o ho => ⟨Nat.zero_le _, nofun, by simp [ho]⟩
  fun_induction follow maxRetries pass wait e with
  | case1 e sends h | case2 e sends h =>
    obtain ⟨hlen, hlast, hok⟩ := (chain_tried h).2 nofun
    exact ⟨⟨hlen, hlast, by simpa using hok⟩, Nat.succ_le_succ (Nat.zero_le _)⟩
  | case3 e sends _ h | case4 e sends _ _ h | case5 e sends _ _ h =>
    rw [(chain_tried h).1 rfl]
    exact ⟨hnone _ nofun, Nat.succ_le_succ (Nat.zero_le _)⟩
  | case6 e sends hleft _ rest h ih =>
    rw [(chain_tried h).1 rfl]
    have hpasses : rest.passes ≤ defaultMaxRequeues - (e.requeues + 1) + 1 := ih.2
    exact ⟨ih.1, show rest.passes + 1 ≤ _ by omega⟩

/-- **One event is sent at most once more than it may be retried**, whatever the breaker answers
    and however often it goes back into the queue; only a failure that may be tried again is
    followed by another send; it is taken from the queue at most once more than it may be requeued;
    and it is counted as delivered exactly when a send succeeded. -/
theorem event_delivered_once (maxRetries : Nat) (pass : Nat → Pass) (wait : Nat → Wait) (id : Nat) :
    let life := follow maxRetries pass wait ⟨id, 0⟩
    life.sends.length ≤ maxRetries + 1 ∧ (∀ s ∈ life.sends.dropLast, s = .transient) ∧
      life.passes ≤ defaultMaxRequeues + 1 ∧
      (life.outcome = some .delivered ↔ .ok ∈ life.sends) := by
  obtain ⟨⟨hlen, hlast, hok⟩, hpasses⟩ := follow_tried maxRetries pass wait ⟨id, 0⟩
  exact ⟨hlen, hlast, hpasses, hok⟩

end Orchestrator.Dispatcher

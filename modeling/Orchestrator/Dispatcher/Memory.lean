/-
  Orchestrator.Dispatcher.Memory

  The in-memory event dispatcher (`internal/dispatcher/memory.go`) as a system of
  goroutines: callers of `Dispatch`, the worker pool, the requeue timers and one `Close`.

  Every channel operation and every access to the closed flag is a step of its own, so a
  list of inputs is an interleaving.  An event is named by the number of the `Dispatch`
  call that brought it.  Workers are interchangeable: those that wait for an event are
  counted, those that deliver are listed.  What the delivery chain returns is an input.
-/

import Orchestrator.Lib.Machine

namespace Orchestrator.Dispatcher

def defaultMaxRequeues : Nat := 10

structure Event where
  id : Nat
  requeues : Nat
  deriving DecidableEq, Repr

/-- How one pass through the delivery chain ends. -/
inductive Delivery where
  | delivered
  | circuitOpen
  | failed
  deriving DecidableEq, Repr

inductive Outcome where
  | delivered
  | failed
  | dropped
  deriving DecidableEq, Repr

/-- A worker with an event in its hands; `draining` after it has seen the shutdown. -/
structure Hand where
  event : Event
  draining : Bool
  deriving DecidableEq, Repr

/-- A requeue goroutine, before and after its cooldown. -/
structure Timer where
  event : Event
  elapsed : Bool
  deriving DecidableEq, Repr

inductive CloseCall where
  | notCalled
  | swapped
  | waiting
  | returned
  | timedOut
  deriving DecidableEq, Repr

structure Memory where
  bufferSize : Nat
  queue : List Event
  polling : Nat
  draining : Nat
  hands : List Hand
  timers : List Timer
  isClosed : Bool
  shutdown : Bool
  closeCall : CloseCall
  -- `Dispatch` calls so far, and those between the closed check and the send
  calls : Nat
  entering : List Nat
  -- which events the counters have counted, and which events nobody holds any more
  counted : List (Nat × Outcome)
  lost : List Nat
  deriving DecidableEq, Repr

/-- What the callers of `Dispatch` and `Close` get back. -/
inductive Reply where
  | dispatched (id : Nat)
  | dispatcherClosed (id : Nat)
  | bufferFull (id : Nat)
  | closed
  | closeTimedOut
  deriving DecidableEq, Repr

def newMemory (bufferSize workers : Nat) : Memory where
  bufferSize := bufferSize
  queue := []
  polling := workers
  draining := 0
  hands := []
  timers := []
  isClosed := false
  shutdown := false
  closeCall := .notCalled
  calls := 0
  entering := []
  counted := []
  lost := []

namespace Memory

variable (d : Memory)

/-- A send goes through: there is room in the buffer or, in an unbuffered queue, a worker
    waits that has not been told to stop. -/
def hasRoom : Bool :=
  d.queue.length < d.bufferSize ∨ d.bufferSize = 0 ∧ 0 < d.polling ∧ d.shutdown = false

/-- The send: an unbuffered queue hands over to a waiting worker. -/
def push (e : Event) : Memory :=
  { d with
    queue := if d.bufferSize = 0 then d.queue else d.queue ++ [e]
    polling := if d.bufferSize = 0 then d.polling - 1 else d.polling
    hands := if d.bufferSize = 0 then d.hands ++ [⟨e, false⟩] else d.hands }

def count (e : Event) (o : Outcome) : Memory := { d with counted := d.counted ++ [(e.id, o)] }

def lose (e : Event) : Memory := { d with lost := d.lost ++ [e.id] }

def addTimer (t : Timer) : Memory := { d with timers := d.timers ++ [t] }

/-! ## Dispatch -/

/-- `Dispatch` reads the closed flag. -/
def dispatchCheck : Memory × List Reply :=
  if d.isClosed then ({ d with calls := d.calls + 1 }, [.dispatcherClosed d.calls])
  else ({ d with calls := d.calls + 1, entering := d.entering ++ [d.calls] }, [])

/-- `Dispatch` sends without blocking. -/
def dispatchSend (id : Nat) : Memory × List Reply :=
  if id ∈ d.entering then
    let d := { d with entering := d.entering.erase id }
    if d.hasRoom then (d.push ⟨id, 0⟩, [.dispatched id])
    else (d.count ⟨id, 0⟩ .dropped, [.bufferFull id])
  else (d, [])

/-! ## Workers and requeue timers -/

/-- A polling worker receives; the select may do so after the shutdown as well. -/
def workerReceive : Memory :=
  match d.queue, d.polling with
  | e :: rest, n + 1 => { d with queue := rest, polling := n, hands := d.hands ++ [⟨e, false⟩] }
  | _, _ => d

/-- A polling worker sees the shutdown and goes over to draining. -/
def workerShutdown : Memory :=
  match d.shutdown, d.polling with
  | true, n + 1 => { d with polling := n, draining := d.draining + 1 }
  | _, _ => d

/-- `drainQueue` receives, or finds the queue empty and the worker exits. -/
def drainQueue : Memory :=
  match d.queue, d.draining with
  | e :: rest, n + 1 => { d with queue := rest, draining := n, hands := d.hands ++ [⟨e, true⟩] }
  | [], n + 1 => { d with draining := n }
  | _, 0 => d

/-- Put an event on a timer, unless it has been requeued too often. -/
def requeue (e : Event) : Memory :=
  if defaultMaxRequeues ≤ e.requeues then d.count e .dropped
  else d.addTimer ⟨⟨e.id, e.requeues + 1⟩, false⟩

/-- The worker goes back to the loop it received in. -/
def putDown (h : Hand) : Memory :=
  if h.draining then { d with hands := d.hands.erase h, draining := d.draining + 1 }
  else { d with hands := d.hands.erase h, polling := d.polling + 1 }

/-- The delivery chain has returned, and `deliver` handles the outcome. -/
def deliver (h : Hand) (result : Delivery) : Memory :=
  if h ∈ d.hands then
    let d := d.putDown h
    match result with
    | .delivered => d.count h.event .delivered
    | .circuitOpen => d.requeue h.event
    | .failed => d.count h.event .failed
  else d

def dropTimer (t : Timer) : Memory := { d with timers := d.timers.erase t }

/-- The cooldown of a timer is over. -/
def timerElapse (t : Timer) : Memory :=
  if t ∈ d.timers ∧ t.elapsed = false then (d.dropTimer t).addTimer ⟨t.event, true⟩ else d

/-- A timer sees the shutdown during its cooldown, and returns. -/
def timerShutdown (t : Timer) : Memory :=
  if t ∈ d.timers ∧ t.elapsed = false ∧ d.shutdown then
    (d.dropTimer t).lose t.event
  else d

/-- After the cooldown: send, return on the shutdown, or drop when neither is possible.
Where both are possible the select chooses, here by `toQueue`. -/
def timerSend (t : Timer) (toQueue : Bool) : Memory :=
  if t ∈ d.timers ∧ t.elapsed then
    let d := d.dropTimer t
    match d.hasRoom, d.shutdown with
    | true, false => d.push t.event
    | true, true => if toQueue then d.push t.event else d.lose t.event
    | false, true => d.lose t.event
    | false, false => d.count t.event .dropped
  else d

/-! ## Close -/

def close : Memory :=
  if d.isClosed then d else { d with isClosed := true, closeCall := .swapped }

def closeSignal : Memory :=
  if d.closeCall = .swapped then { d with shutdown := true, closeCall := .waiting } else d

/-- All workers have returned (`wg.Wait`). -/
def stopped : Prop := d.polling = 0 ∧ d.draining = 0 ∧ d.hands = []

instance : Decidable d.stopped := inferInstanceAs (Decidable (_ ∧ _ ∧ _))

def closeDone : Memory × List Reply :=
  if d.closeCall = .waiting ∧ d.stopped then ({ d with closeCall := .returned }, [.closed])
  else (d, [])

def closeTimeout : Memory × List Reply :=
  if d.closeCall = .waiting then ({ d with closeCall := .timedOut }, [.closeTimedOut])
  else (d, [])

end Memory

inductive Input where
  | dispatchCheck
  | dispatchSend (id : Nat)
  | workerReceive
  | workerShutdown
  | drainQueue
  | deliver (h : Hand) (result : Delivery)
  | timerElapse (t : Timer)
  | timerShutdown (t : Timer)
  | timerSend (t : Timer) (toQueue : Bool)
  | close
  | closeSignal
  | closeDone
  | closeTimeout
  deriving DecidableEq, Repr

/-- One step of one goroutine. A step that is not possible changes nothing. -/
def Memory.step (d : Memory) : Input → Memory × List Reply
  | .dispatchCheck => d.dispatchCheck
  | .dispatchSend id => d.dispatchSend id
  | .workerReceive => (d.workerReceive, [])
  | .workerShutdown => (d.workerShutdown, [])
  | .drainQueue => (d.drainQueue, [])
  | .deliver h result => (d.deliver h result, [])
  | .timerElapse t => (d.timerElapse t, [])
  | .timerShutdown t => (d.timerShutdown t, [])
  | .timerSend t toQueue => (d.timerSend t toQueue, [])
  | .close => (d.close, [])
  | .closeSignal => (d.closeSignal, [])
  | .closeDone => d.closeDone
  | .closeTimeout => d.closeTimeout

inductive Step (d : Memory) : Input → Memory → List Reply → Prop where
  | idle (i : Input) : Step d i d []
  | refused (h : d.isClosed = true) :
      Step d .dispatchCheck { d with calls := d.calls + 1 } [.dispatcherClosed d.calls]
  | entered (h : d.isClosed = false) :
      Step d .dispatchCheck
        { d with calls := d.calls + 1, entering := d.entering ++ [d.calls] } []
  | accepted (id : Nat) (h : id ∈ d.entering) (hroom : d.hasRoom = true) :
      Step d (.dispatchSend id)
        ({ d with entering := d.entering.erase id }.push ⟨id, 0⟩) [.dispatched id]
  | overflowed (id : Nat) (h : id ∈ d.entering) (hroom : d.hasRoom = false) :
      Step d (.dispatchSend id)
        ({ d with entering := d.entering.erase id }.count ⟨id, 0⟩ .dropped) [.bufferFull id]
  | received (e : Event) (rest : List Event) (n : Nat) (hq : d.queue = e :: rest)
      (hn : d.polling = n + 1) :
      Step d .workerReceive
        { d with queue := rest, polling := n, hands := d.hands ++ [⟨e, false⟩] } []
  | draining (n : Nat) (h : d.shutdown = true) (hn : d.polling = n + 1) :
      Step d .workerShutdown { d with polling := n, draining := d.draining + 1 } []
  | drained (e : Event) (rest : List Event) (n : Nat) (hq : d.queue = e :: rest)
      (hn : d.draining = n + 1) :
      Step d .drainQueue
        { d with queue := rest, draining := n, hands := d.hands ++ [⟨e, true⟩] } []
  | exited (n : Nat) (hq : d.queue = []) (hn : d.draining = n + 1) :
      Step d .drainQueue { d with draining := n } []
  | counted (h : Hand) (result : Delivery) (o : Outcome) (hh : h ∈ d.hands) :
      Step d (.deliver h result) ((d.putDown h).count h.event o) []
  | requeued (h : Hand) (result : Delivery) (n : Nat) (hh : h ∈ d.hands) :
      Step d (.deliver h result)
        ((d.putDown h).addTimer ⟨⟨h.event.id, n⟩, false⟩) []
  | elapsed (t : Timer) (ht : t ∈ d.timers) :
      Step d (.timerElapse t) ((d.dropTimer t).addTimer ⟨t.event, true⟩) []
  | stopped (t : Timer) (ht : t ∈ d.timers) (he : t.elapsed = false) (h : d.shutdown = true) :
      Step d (.timerShutdown t) ((d.dropTimer t).lose t.event) []
  | gaveUp (t : Timer) (toQueue : Bool) (ht : t ∈ d.timers) (he : t.elapsed = true)
      (h : d.shutdown = true) (hroom : d.hasRoom = true → toQueue = false) :
      Step d (.timerSend t toQueue) ((d.dropTimer t).lose t.event) []
  | resent (t : Timer) (toQueue : Bool) (ht : t ∈ d.timers) (he : t.elapsed = true)
      (hroom : d.hasRoom = true) (h : d.shutdown = true → toQueue = true) :
      Step d (.timerSend t toQueue) ((d.dropTimer t).push t.event) []
  | dropped (t : Timer) (toQueue : Bool) (ht : t ∈ d.timers) (he : t.elapsed = true)
      (hroom : d.hasRoom = false) (h : d.shutdown = false) :
      Step d (.timerSend t toQueue) ((d.dropTimer t).count t.event .dropped) []
  | closing (h : d.isClosed = false) :
      Step d .close { d with isClosed := true, closeCall := .swapped } []
  | signalled (h : d.closeCall = .swapped) :
      Step d .closeSignal { d with shutdown := true, closeCall := .waiting } []
  | returned (h : d.closeCall = .waiting) (hs : d.stopped) :
      Step d .closeDone { d with closeCall := .returned } [.closed]
  | timedOut (h : d.closeCall = .waiting) :
      Step d .closeTimeout { d with closeCall := .timedOut } [.closeTimedOut]

namespace Memory

theorem requeue_cases (d : Memory) (e : Event) :
    d.requeue e = d.count e .dropped ∨
      ∃ n, d.requeue e = d.addTimer ⟨⟨e.id, n⟩, false⟩ := by
  unfold requeue
  split
  · exact .inl rfl
  · exact .inr ⟨_, rfl⟩

theorem deliver_step (d : Memory) (h : Hand) (result : Delivery) :
    Step d (.deliver h result) (d.deliver h result) [] := by
  unfold deliver
  split
  · rename_i hh
    cases result with
    | delivered => exact .counted h _ .delivered hh
    | failed => exact .counted h _ .failed hh
    | circuitOpen =>
      obtain heq | ⟨n, heq⟩ := requeue_cases (d.putDown h) h.event
      · simp only [heq]
        exact .counted h _ .dropped hh
      · simp only [heq]
        exact .requeued h _ n hh
  · exact .idle _

theorem timerSend_step (d : Memory) (t : Timer) (toQueue : Bool) :
    Step d (.timerSend t toQueue) (d.timerSend t toQueue) [] := by
  unfold timerSend
  split
  · rename_i ht
    obtain ⟨ht, he⟩ := ht
    have hroom : (d.dropTimer t).hasRoom = d.hasRoom := rfl
    have hdown : (d.dropTimer t).shutdown = d.shutdown := rfl
    simp only [hroom, hdown]
    split
    · rename_i hr hd
      exact .resent t toQueue ht he hr (by simp [hd])
    · rename_i hr hd
      -- both branches of the select are open
      cases toQueue with
      | true => exact .resent t true ht he hr (fun _ => rfl)
      | false => exact .gaveUp t false ht he hd (fun _ => rfl)
    · rename_i hr hd
      exact .gaveUp t toQueue ht he hd (by simp [hr])
    · rename_i hr hd
      exact .dropped t toQueue ht he hr hd
  · exact .idle _

theorem dispatchSend_step (d : Memory) (id : Nat) :
    Step d (.dispatchSend id) (d.dispatchSend id).1 (d.dispatchSend id).2 := by
  unfold dispatchSend
  split
  · rename_i hid
    cases hroom : d.hasRoom with
    | true =>
      have hroom' : ({ d with entering := d.entering.erase id } : Memory).hasRoom = true := hroom
      simp only [hroom', if_true]
      exact .accepted id hid hroom
    | false =>
      have hroom' : ({ d with entering := d.entering.erase id } : Memory).hasRoom = false := hroom
      simp only [hroom', Bool.false_eq_true, if_false]
      exact .overflowed id hid hroom
  · exact .idle _

theorem step_spec (d : Memory) (i : Input) : Step d i (d.step i).1 (d.step i).2 := by
  -- an input whose guard does not hold is idle
  cases i with
  | deliver h result => exact d.deliver_step h result
  | timerSend t toQueue => exact d.timerSend_step t toQueue
  | dispatchSend id => exact d.dispatchSend_step id
  | dispatchCheck =>
    simp only [step, dispatchCheck]
    split
    · exact .refused (by assumption)
    · rename_i h
      exact .entered (by simpa using h)
  | workerReceive =>
    simp only [step, workerReceive]
    split
    · exact .received _ _ _ (by assumption) (by assumption)
    · exact .idle _
  | workerShutdown =>
    simp only [step, workerShutdown]
    split
    · exact .draining _ (by assumption) (by assumption)
    · exact .idle _
  | drainQueue =>
    simp only [step, drainQueue]
    split
    · exact .drained _ _ _ (by assumption) (by assumption)
    · exact .exited _ (by assumption) (by assumption)
    · exact .idle _
  | timerElapse t =>
    simp only [step, timerElapse]
    split
    · rename_i ht
      exact .elapsed t ht.1
    · exact .idle _
  | timerShutdown t =>
    simp only [step, timerShutdown]
    split
    · rename_i ht
      exact .stopped t ht.1 ht.2.1 ht.2.2
    · exact .idle _
  | close =>
    simp only [step, close]
    split
    · exact .idle _
    · rename_i h
      exact .closing (by simpa using h)
  | closeSignal =>
    simp only [step, closeSignal]
    split
    · exact .signalled (by assumption)
    · exact .idle _
  | closeDone =>
    simp only [step, closeDone]
    split
    · rename_i h
      exact .returned h.1 h.2
    · exact .idle _
  | closeTimeout =>
    simp only [step, closeTimeout]
    split
    · exact .timedOut (by assumption)
    · exact .idle _

end Memory

end Orchestrator.Dispatcher

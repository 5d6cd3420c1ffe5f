/-
  Orchestrator.Dispatcher.Close

  What becomes of the events a dispatcher has accepted once its `Close` has returned.

  Every event is in one place at a time (`Conserved`), so after the workers have gone an
  accepted event has been counted unless it is still queued, on a timer, or lost to a
  timer that saw the shutdown.  `Kept` says step by step when none of the three happens.
-/

import Mathlib.Data.List.Nodup
import Orchestrator.Dispatcher.Memory

namespace Orchestrator.Dispatcher

open Lib.Machine Memory List

/-! ## Conservation -/

def Memory.places (d : Memory) (id : Nat) : Nat :=
  d.queue.countP (fun e => e.id = id) + d.hands.countP (fun h => h.event.id = id) +
    d.timers.countP (fun t => t.event.id = id) + d.lost.count id +
    d.counted.countP (fun c => c.1 = id)

/-- The events whose `Dispatch` got as far as the send. -/
def sent : List Reply → List Nat :=
  filterMap fun
    | .dispatched id | .bufferFull id => some id
    | _ => none

/-- The events for which `Dispatch` returned nil. -/
def accepted : List Reply → List Nat :=
  filterMap fun
    | .dispatched id => some id
    | _ => none

@[simp] theorem sent_append (a b : List Reply) : sent (a ++ b) = sent a ++ sent b :=
  filterMap_append

/-- Every event that was sent is in exactly one place. -/
structure Conserved (d : Memory) (out : List Reply) : Prop where
  once : ∀ id, d.places id = (sent out).count id
  distinct : (d.entering ++ sent out).Nodup
  known : ∀ id ∈ d.entering ++ sent out, id < d.calls
  overflow : ∀ id, .bufferFull id ∈ out → ∃ o, (id, o) ∈ d.counted

section

variable (d : Memory) (id : Nat)

theorem countP_of_mem {α : Type} [DecidableEq α] {l : List α} {a : α} (h : a ∈ l)
    (p : α → Bool) : l.countP p = (if p a then 1 else 0) + (l.erase a).countP p := by
  rw [(perm_cons_erase h).countP_eq p, countP_cons, Nat.add_comm]

@[simp] theorem places_push (e : Event) :
    (d.push e).places id = d.places id + (if e.id = id then 1 else 0) := by
  unfold push places
  split <;>
    simp only [countP_append, countP_singleton, decide_eq_true_eq] <;> omega

@[simp] theorem places_count (e : Event) (o : Outcome) :
    (d.count e o).places id = d.places id + (if e.id = id then 1 else 0) := by
  simp only [Memory.count, places, countP_append, countP_singleton,
    decide_eq_true_eq]
  omega

@[simp] theorem places_lose (e : Event) :
    (d.lose e).places id = d.places id + (if e.id = id then 1 else 0) := by
  simp only [lose, places, count_append, count_singleton, beq_iff_eq]
  omega

@[simp] theorem places_addTimer (t : Timer) :
    (d.addTimer t).places id = d.places id + (if t.event.id = id then 1 else 0) := by
  simp only [addTimer, places, countP_append, countP_singleton,
    decide_eq_true_eq]
  omega

theorem places_putDown {h : Hand} (hh : h ∈ d.hands) :
    d.places id = (d.putDown h).places id + (if h.event.id = id then 1 else 0) := by
  have hcount := countP_of_mem hh (fun h => h.event.id = id)
  simp only [decide_eq_true_eq] at hcount
  unfold putDown
  split <;> simp only [places] <;> omega

theorem places_dropTimer {t : Timer} (ht : t ∈ d.timers) :
    d.places id = (d.dropTimer t).places id + (if t.event.id = id then 1 else 0) := by
  have hcount := countP_of_mem ht (fun t => t.event.id = id)
  simp only [decide_eq_true_eq] at hcount
  simp only [dropTimer, places]
  omega

/-- An event taken from the queue is in a worker's hands. -/
theorem places_receive {e : Event} {rest : List Event} (hq : d.queue = e :: rest) (b : Bool)
    (n m : Nat) :
    ({ d with queue := rest, polling := n, draining := m,
              hands := d.hands ++ [⟨e, b⟩] } : Memory).places id = d.places id := by
  simp only [places, hq, countP_cons, countP_append, countP_nil]
  omega

end

variable {d' : Memory} {i : Input} {out : List Reply}

variable {d : Memory}

/-- A step moves an event from one place to another, or brings in the one it sends. -/
theorem Step.places (h : Step d i d' out) (id : Nat) :
    d'.places id = d.places id + (sent out).count id := by
  cases h with
  | idle | refused | entered | draining | exited | closing | signalled | returned | timedOut =>
    rfl
  | accepted k hk hroom =>
    simp only [places_push, sent, filterMap_cons, filterMap_nil, count_singleton,
      beq_iff_eq]
    rfl
  | overflowed k hk hroom =>
    simp only [places_count, sent, filterMap_cons, filterMap_nil, count_singleton,
      beq_iff_eq]
    rfl
  | received e rest n hq hn => exact places_receive d id hq false n d.draining
  | drained e rest n hq hn => exact places_receive d id hq true d.polling n
  | counted h result o hh =>
    rw [places_count, places_putDown d id hh]
    rfl
  | requeued h result n hh => rw [places_addTimer, places_putDown d id hh]; rfl
  | elapsed t ht => rw [places_addTimer, places_dropTimer d id ht]; rfl
  | stopped t ht he hdown | gaveUp t toQueue ht he hdown hroom =>
    rw [places_lose, places_dropTimer d id ht]; rfl
  | resent t toQueue ht he hroom hdown => rw [places_push, places_dropTimer d id ht]; rfl
  | dropped t toQueue ht he hroom hdown => rw [places_count, places_dropTimer d id ht]; rfl

/-- A worker that is done with an event changes nothing but the workers. -/
@[simp] theorem putDown_frame (d : Memory) (h : Hand) :
    (d.putDown h).counted = d.counted ∧ (d.putDown h).lost = d.lost ∧
      ((d.putDown h).entering = d.entering ∧ (d.putDown h).calls = d.calls) ∧
      (d.putDown h).closeCall = d.closeCall ∧ (d.putDown h).shutdown = d.shutdown ∧
      (d.putDown h).isClosed = d.isClosed := by
  unfold putDown
  split <;> exact ⟨rfl, rfl, ⟨rfl, rfl⟩, rfl, rfl, rfl⟩

theorem Step.counted_subset (h : Step d i d' out) :
    d.counted ⊆ d'.counted := by
  cases h <;>
    simp [push, Memory.count, lose, addTimer, dropTimer]

/-- A `Dispatch` call enters with a fresh number, leaves with its event sent, or neither. -/
theorem Step.admission (h : Step d i d' out) :
    (d'.entering = d.entering ∧ sent out = [] ∧ d.calls ≤ d'.calls) ∨
    (d'.entering = d.entering ++ [d.calls] ∧ sent out = [] ∧ d'.calls = d.calls + 1) ∨
    (∃ id ∈ d.entering, d'.entering = d.entering.erase id ∧ sent out = [id] ∧
      d'.calls = d.calls) := by
  cases h with
  | refused => exact .inl ⟨rfl, rfl, Nat.le_succ _⟩
  | entered => exact .inr (.inl ⟨rfl, rfl, rfl⟩)
  | accepted id hid | overflowed id hid => exact .inr (.inr ⟨id, hid, rfl, rfl, rfl⟩)
  | counted h | requeued h =>
    obtain ⟨-, -, ⟨hentering, hcalls⟩, -⟩ := putDown_frame d h
    exact .inl ⟨hentering, rfl, Nat.le_of_eq hcalls.symm⟩
  | _ => exact .inl ⟨rfl, rfl, Nat.le_refl _⟩

theorem Step.overflow (h : Step d i d' out) {id : Nat} (hid : .bufferFull id ∈ out) :
    (id, Outcome.dropped) ∈ d'.counted := by
  cases h <;> simp at hid
  simp [hid, Memory.count]

theorem Conserved.step (h : Conserved d out) (i : Input) :
    Conserved (d.step i).1 (out ++ (d.step i).2) := by
  have hstep := d.step_spec i
  generalize (d.step i).1 = d' at hstep ⊢
  generalize (d.step i).2 = new at hstep ⊢
  have honce : ∀ id, d'.places id = (sent (out ++ new)).count id := by
    intro id
    rw [hstep.places id, h.once id, sent_append, count_append]
  have hover : ∀ id, .bufferFull id ∈ out ++ new → ∃ o, (id, o) ∈ d'.counted := by
    intro id hid
    obtain hold | hnew := mem_append.mp hid
    · obtain ⟨o, ho⟩ := h.overflow id hold
      exact ⟨o, hstep.counted_subset ho⟩
    · exact ⟨.dropped, hstep.overflow hnew⟩
  obtain ⟨hin, hsent, hcalls⟩ | ⟨hin, hsent, hcalls⟩ | ⟨id, hid, hin, hsent, hcalls⟩ :=
    hstep.admission
  · refine ⟨honce, ?_, ?_, hover⟩
    · rw [hin, sent_append, hsent, append_nil]
      exact h.distinct
    · rw [hin, sent_append, hsent, append_nil]
      exact fun id hid => Nat.lt_of_lt_of_le (h.known id hid) hcalls
  · -- the number of a new call is larger than all before
    have hfresh : d.calls ∉ d.entering ++ sent out := fun hc => Nat.lt_irrefl _ (h.known _ hc)
    have hperm : (d'.entering ++ sent (out ++ new)).Perm (d.calls :: (d.entering ++ sent out)) := by
      rw [hin, sent_append, hsent, append_nil, append_assoc]
      exact perm_middle
    refine ⟨honce, ?_, ?_, hover⟩
    · exact hperm.nodup_iff.mpr (nodup_cons.mpr ⟨hfresh, h.distinct⟩)
    · intro id hid
      rw [hperm.mem_iff, mem_cons] at hid
      rw [hcalls]
      obtain rfl | hold := hid
      · exact Nat.lt_succ_self _
      · exact Nat.lt_succ_of_lt (h.known id hold)
  · have hperm : (d'.entering ++ sent (out ++ new)).Perm (d.entering ++ sent out) := by
      rw [hin, sent_append, hsent]
      have hlast := (perm_append_singleton id (sent out)).append_left (d.entering.erase id)
      have hfirst := (perm_cons_erase hid).append_right (sent out)
      exact hlast.trans (perm_middle.trans hfirst.symm)
    refine ⟨honce, hperm.nodup_iff.mpr h.distinct, ?_, hover⟩
    intro k hk
    rw [hcalls]
    exact h.known k (hperm.mem_iff.mp hk)

/-! ## What is left behind -/

/-- `Close` returns only after the shutdown, when all workers have returned. -/
structure Memory.Wf (d : Memory) : Prop where
  called : d.isClosed = false → d.closeCall = .notCalled
  signalled : d.closeCall = .waiting ∨ d.closeCall = .returned → d.shutdown = true
  stopped : d.closeCall = .returned → d.stopped

/-- An event nobody will count: one that is lost, one in a queue without workers, or one
on a timer after `Close` has returned. -/
def Memory.Leaves (d : Memory) : Prop :=
  d.lost ≠ [] ∨ (d.stopped ∧ d.queue ≠ []) ∨ (d.closeCall = .returned ∧ d.timers ≠ [])

/-- A step that leaves no event behind: an event is queued only while a worker is there to
take it, no timer gives its event up, and `Close` returns only when no timer is left. -/
def Kept (d : Memory) : Input → Prop
  | .dispatchSend id => id ∈ d.entering ∧ d.hasRoom → ¬ d.stopped
  | .timerShutdown t => ¬ (t ∈ d.timers ∧ t.elapsed = false ∧ d.shutdown)
  | .timerSend t toQueue =>
    t ∈ d.timers ∧ t.elapsed →
      if d.hasRoom then ¬ d.stopped ∧ (d.shutdown → toQueue) else d.shutdown = false
  | .closeDone => d.closeCall = .waiting ∧ d.stopped → d.timers = []
  | _ => True

instance (d : Memory) : (i : Input) → Decidable (Kept d i)
  | .dispatchSend _ | .timerSend _ _ | .closeDone => inferInstanceAs (Decidable (_ → _))
  | .timerShutdown _ => inferInstanceAs (Decidable (¬ _))
  | .dispatchCheck | .workerReceive | .workerShutdown | .drainQueue | .deliver _ _
  | .timerElapse _ | .close | .closeSignal | .closeTimeout => .isTrue trivial

theorem putDown_not_stopped (d : Memory) (h : Hand) : ¬ (d.putDown h).stopped := by
  unfold putDown stopped
  split <;> simp

/-- No worker returns by a send. -/
theorem stopped_of_push {e : Event} (h : (d.push e).stopped) : d.stopped := by
  obtain ⟨hpolling, hdraining, hhands⟩ := h
  simp only [push] at hpolling hhands
  split at hhands
  · simp at hhands
  · rw [if_neg ‹_›] at hpolling
    exact ⟨hpolling, hdraining, hhands⟩

/-- Without workers a send can only go to the buffer. -/
theorem push_of_stopped (hroom : d.hasRoom = true) (h : d.stopped) (e : Event) :
    (d.push e).stopped ∧ (d.push e).queue ≠ [] := by
  have hbuffer : d.bufferSize ≠ 0 := by
    intro h0
    simp [hasRoom, h0, h.1] at hroom
  simp only [push, if_neg hbuffer]
  exact ⟨h, append_ne_nil_of_right_ne_nil _ (by simp)⟩

/-- Once all workers have returned, none comes back and nothing leaves the queue. -/
theorem Step.of_stopped (hstep : Step d i d' out) (h : d.stopped) :
    d'.stopped ∧ (d.queue ≠ [] → d'.queue ≠ []) := by
  obtain ⟨hpolling, hdraining, hhands⟩ := h
  have hall : d.stopped := ⟨hpolling, hdraining, hhands⟩
  cases hstep with
  | received e rest n hq hn | draining n hdown hn => rw [hpolling] at hn; cases hn
  | drained e rest n hq hn | exited n hq hn => rw [hdraining] at hn; cases hn
  | counted h result o hh | requeued h result n hh => rw [hhands] at hh; cases hh
  | accepted id hid hroom | resent t toQueue ht he hroom =>
    obtain ⟨hs, hqueue⟩ := push_of_stopped hroom hall _
    exact ⟨hs, fun _ => hqueue⟩
  | _ => exact ⟨hall, id⟩

theorem Memory.Wf.step (h : d.Wf) (hstep : Step d i d' out) : d'.Wf := by
  have hstopped : d.closeCall = .returned → d'.stopped :=
    fun hr => (hstep.of_stopped (h.stopped hr)).1
  cases hstep with
  | counted hand | requeued hand =>
    obtain ⟨-, -, -, hcall, hdown, hclosed⟩ := putDown_frame d hand
    refine ⟨fun hopen => ?_, fun hc => ?_, fun hc => hstopped (hcall.symm.trans hc)⟩
    · exact hcall.trans (h.called (hclosed.symm.trans hopen))
    · exact hdown.trans (h.signalled (hc.imp hcall.symm.trans hcall.symm.trans))
  | closing => exact ⟨nofun, nofun, nofun⟩
  | signalled hc =>
    refine ⟨fun hopen => ?_, fun _ => rfl, nofun⟩
    rw [h.called hopen] at hc
    cases hc
  | returned hc hs =>
    refine ⟨fun hopen => ?_, fun _ => h.signalled (.inl hc), fun _ => hs⟩
    rw [h.called hopen] at hc
    cases hc
  | timedOut hc =>
    refine ⟨fun hopen => ?_, nofun, nofun⟩
    rw [h.called hopen] at hc
    cases hc
  | _ => exact ⟨h.called, h.signalled, hstopped⟩

theorem Step.lost (hstep : Step d i d' out) (h : d.lost ≠ []) : d'.lost ≠ [] := by
  cases hstep with
  | counted hand | requeued hand => exact (putDown_frame d hand).2.1.symm ▸ h
  | stopped | gaveUp => exact append_ne_nil_of_left_ne_nil h _
  | _ => exact h

/-- What is left behind stays behind: a timer that still runs after `Close` has returned
can only lose its event or queue it where no worker takes it. -/
theorem Memory.Leaves.step (hwf : d.Wf) (hstep : Step d i d' out) (h : d.Leaves) :
    d'.Leaves := by
  obtain hlost | ⟨hs, hq⟩ | ⟨hret, ht⟩ := h
  · exact .inl (hstep.lost hlost)
  · have hafter := hstep.of_stopped hs
    exact .inr (.inl ⟨hafter.1, hafter.2 hq⟩)
  have hdown := hwf.signalled (.inr hret)
  have hs := hwf.stopped hret
  have hafter := (hstep.of_stopped hs).1
  cases hstep with
  | counted h result o hh | requeued h result n hh => rw [hs.2.2] at hh; cases hh
  | elapsed t => exact .inr (.inr ⟨hret, by simp [addTimer]⟩)
  | stopped t | gaveUp t => exact .inl (by simp [lose])
  | resent t toQueue ht' he hroom =>
    exact .inr (.inl ⟨hafter, (push_of_stopped hroom hs _).2⟩)
  | dropped t toQueue ht' he hroom hno => rw [hdown] at hno; cases hno
  | closing hopen => rw [hwf.called hopen] at hret; cases hret
  | signalled hc | returned hc | timedOut hc => rw [hret] at hc; cases hc
  | _ => exact .inr (.inr ⟨hret, ht⟩)

structure Memory.Clean (d : Memory) : Prop where
  lost : d.lost = []
  queue : d.stopped → d.queue = []
  timers : d.closeCall = .returned → d.timers = []

theorem Memory.clean_iff (d : Memory) : d.Clean ↔ ¬ d.Leaves := by
  unfold Memory.Leaves
  constructor
  · rintro ⟨hlost, hqueue, htimers⟩ (hl | ⟨hs, hq⟩ | ⟨hr, ht⟩)
    · exact hl hlost
    · exact hq (hqueue hs)
    · exact ht (htimers hr)
  · intro h
    refine ⟨?_, ?_, ?_⟩
    · exact not_not.mp fun hl => h (.inl hl)
    · exact fun hs => not_not.mp fun hq => h (.inr (.inl ⟨hs, hq⟩))
    · exact fun hr => not_not.mp fun ht => h (.inr (.inr ⟨hr, ht⟩))

theorem Memory.Clean.not_returned (h : d.Clean) {t : Timer} (ht : t ∈ d.timers) :
    d.closeCall ≠ .returned := by
  intro hr
  rw [h.timers hr] at ht
  cases ht

theorem Memory.Wf.not_returned (h : d.Wf) {hand : Hand} (hh : hand ∈ d.hands) :
    (d.putDown hand).closeCall ≠ .returned := by
  intro hr
  rw [(putDown_frame d hand).2.2.2.1] at hr
  rw [(h.stopped hr).2.2] at hh
  cases hh

/-- A kept step leaves nothing behind. -/
theorem Kept.step (hkept : Kept d i) (hwf : d.Wf) (hstep : Step d i d' out) (h : d.Clean) :
    d'.Clean := by
  cases hstep with
  | accepted id hid hroom =>
    exact ⟨h.lost, fun hs => absurd (stopped_of_push hs) (hkept ⟨hid, hroom⟩), h.timers⟩
  | received e rest n hq hn | drained e rest n hq hn | draining n hdown hn =>
    exact ⟨h.lost, fun hs => by simp [stopped] at hs, h.timers⟩
  | exited n hq hn => exact ⟨h.lost, fun _ => hq, h.timers⟩
  | counted hand result o hh | requeued hand result n hh =>
    -- the worker that delivered is back in its loop
    exact ⟨(putDown_frame d hand).2.1.trans h.lost,
      fun hs => absurd hs (putDown_not_stopped d hand),
      fun hr => absurd hr (hwf.not_returned hh)⟩
  | elapsed t ht | dropped t toQueue ht he hroom hdown =>
    exact ⟨h.lost, h.queue, fun hr => absurd hr (h.not_returned ht)⟩
  | stopped t ht he hdown => exact absurd ⟨ht, he, hdown⟩ hkept
  | gaveUp t toQueue ht he hdown hroom =>
    -- the select may choose the queue, and must if there is no room for a choice
    have hchoice := hkept ⟨ht, he⟩
    split at hchoice
    · rename_i hr
      rw [hroom hr] at hchoice
      exact absurd (hchoice.2 hdown) Bool.false_ne_true
    · rw [hdown] at hchoice
      cases hchoice
  | resent t toQueue ht he hroom hdown =>
    have hworker := hkept ⟨ht, he⟩
    rw [if_pos hroom] at hworker
    exact ⟨h.lost, fun hs => absurd (stopped_of_push hs) hworker.1,
      fun hr => absurd hr (h.not_returned ht)⟩
  | closing | signalled | timedOut => exact ⟨h.lost, h.queue, nofun⟩
  | returned hc hs => exact ⟨h.lost, h.queue, fun _ => hkept ⟨hc, hs⟩⟩
  | _ => exact ⟨h.lost, h.queue, h.timers⟩

/-- A step that is not kept leaves an event behind. -/
theorem leaves_of_not_kept (h : ¬ Kept d i) : (d.step i).1.Leaves := by
  cases i with
  | dispatchSend id =>
    obtain ⟨⟨hid, hroom⟩, hs⟩ := Classical.not_imp.mp h
    have hroom' : ({ d with entering := d.entering.erase id } : Memory).hasRoom = true := hroom
    simp only [step, dispatchSend, if_pos hid, hroom', if_true]
    exact .inr (.inl (push_of_stopped hroom (not_not.mp hs) _))
  | timerShutdown t =>
    simp only [step, timerShutdown, if_pos (not_not.mp h)]
    exact .inl (by simp [lose])
  | timerSend t toQueue =>
    obtain ⟨ht, hbad⟩ := Classical.not_imp.mp h
    have hroom : (d.dropTimer t).hasRoom = d.hasRoom := rfl
    have hdown : (d.dropTimer t).shutdown = d.shutdown := rfl
    have hlose : ((d.dropTimer t).lose t.event).Leaves := .inl (by simp [lose])
    have hpush : d.hasRoom = true → d.stopped → ((d.dropTimer t).push t.event).Leaves :=
      fun hroom hs => .inr (.inl (push_of_stopped hroom hs _))
    simp only [step, timerSend, if_pos ht, hroom, hdown]
    cases hr : d.hasRoom <;> cases hd : d.shutdown <;> simp only [hr, hd] at hbad ⊢
    · exact absurd (by simp) hbad
    · exact hlose
    · exact hpush hr (by simpa using hbad)
    · cases toQueue with
      | true => exact hpush hr (by simpa using hbad)
      | false => exact hlose
  | closeDone =>
    obtain ⟨hc, ht⟩ := Classical.not_imp.mp h
    simp only [step, closeDone, if_pos hc]
    exact .inr (.inr ⟨rfl, ht⟩)
  | _ => exact absurd trivial h

/-! ## After Close -/

variable (bufferSize workers : Nat)

theorem newMemory_wf : (newMemory bufferSize workers).Wf :=
  ⟨fun _ => rfl, by simp [newMemory], by simp [newMemory]⟩

theorem newMemory_clean : (newMemory bufferSize workers).Clean :=
  ⟨rfl, fun _ => rfl, fun _ => rfl⟩

theorem newMemory_conserved :
    Conserved (newMemory bufferSize workers) [] :=
  ⟨fun _ => rfl, .nil, nofun, nofun⟩

theorem run_conserved (inputs : List Input) :
    Conserved (run step (newMemory bufferSize workers) inputs).1
      (run step (newMemory bufferSize workers) inputs).2 := by
  have h : Conserved (run step (newMemory bufferSize workers) inputs).1
      ([] ++ (run step (newMemory bufferSize workers) inputs).2) :=
    run_preserves Conserved (fun _ _ i h => h.step i) inputs
      (newMemory_conserved bufferSize workers)
  exact h

theorem run_wf (inputs : List Input) :
    (run step (newMemory bufferSize workers) inputs).1.Wf :=
  @run_preserves _ _ _ step (fun d _ => d.Wf) (fun d _ i h => h.step (d.step_spec i))
    (newMemory bufferSize workers) [] inputs (newMemory_wf bufferSize workers)

/-- A run ends clean just when each of its steps is kept. -/
theorem run_clean_iff (inputs : List Input) :
    (run step (newMemory bufferSize workers) inputs).1.Clean ↔
      Along Kept step (newMemory bufferSize workers) inputs := by
  have hstart : (newMemory bufferSize workers).Wf ∧ (newMemory bufferSize workers).Clean :=
    ⟨newMemory_wf bufferSize workers, newMemory_clean bufferSize workers⟩
  have hkeep : ∀ (d : Memory) (_ : List Reply) i, Kept d i → d.Wf ∧ d.Clean →
      (d.step i).1.Wf ∧ (d.step i).1.Clean := by
    intro d _ i hkept ⟨hwf, hclean⟩
    exact ⟨hwf.step (d.step_spec i), hkept.step hwf (d.step_spec i) hclean⟩
  have hstay : ∀ (d : Memory) (_ : List Reply) i, ¬ ¬ (d.Wf ∧ d.Leaves) →
      ¬ ¬ ((d.step i).1.Wf ∧ (d.step i).1.Leaves) := by
    intro d _ i hbad
    obtain ⟨hwf, hleaves⟩ := not_not.mp hbad
    exact not_not.mpr ⟨hwf.step (d.step_spec i), hleaves.step hwf (d.step_spec i)⟩
  have hiff := @run_iff_along _ _ _ step Kept (fun d _ => d.Wf ∧ d.Clean)
    (fun d _ => ¬ (d.Wf ∧ d.Leaves)) (fun d _ h hbad => d.clean_iff.mp h.2 hbad.2) hkeep
    (fun d _ i hk h => not_not.mpr ⟨h.1.step (d.step_spec i), leaves_of_not_kept hk⟩) hstay
    (newMemory bufferSize workers) [] inputs hstart
  rw [← hiff, clean_iff, not_and]
  exact ⟨fun h _ => h, fun h => h (run_wf bufferSize workers inputs)⟩

/-- Every accepted event has been counted exactly once, and none is still queued or on a
timer. -/
structure Settled (d : Memory) (out : List Reply) : Prop where
  counted : ∀ id ∈ accepted out, d.counted.countP (fun c => c.1 = id) = 1
  queue : d.queue = []
  timers : d.timers = []

theorem mem_sent_cases {id : Nat} (h : id ∈ sent out) :
    id ∈ accepted out ∨ .bufferFull id ∈ out := by
  obtain ⟨reply, hmem, hreply⟩ := mem_filterMap.mp h
  cases reply with
  | dispatched k =>
    obtain rfl : k = id := Option.some.inj hreply
    exact .inl (mem_filterMap.mpr ⟨_, hmem, rfl⟩)
  | bufferFull k =>
    obtain rfl : k = id := Option.some.inj hreply
    exact .inr hmem
  | dispatcherClosed | closed | closeTimedOut => cases hreply

theorem sent_of_accepted {id : Nat} (h : id ∈ accepted out) : id ∈ sent out := by
  obtain ⟨reply, hmem, hreply⟩ := mem_filterMap.mp h
  cases reply with
  | dispatched k => exact mem_filterMap.mpr ⟨_, hmem, hreply⟩
  | bufferFull | dispatcherClosed | closed | closeTimedOut => cases hreply

/-- A sent event is in one place, and no other event is anywhere. -/
theorem Conserved.places_sent (h : Conserved d out) (id : Nat) :
    d.places id ≤ 1 ∧ (id ∈ sent out → d.places id = 1) := by
  have hnodup : (sent out).Nodup := (nodup_append.mp h.distinct).2.1
  rw [h.once id]
  exact ⟨nodup_iff_count_le_one.mp hnodup id, count_eq_one_of_mem hnodup⟩

/-- Once `Close` has returned, the accepted events are settled just when nothing is left
behind. -/
theorem Conserved.settled_iff (h : Conserved d out) (hwf : d.Wf) (hret : d.closeCall = .returned) :
    Settled d out ↔ d.Clean := by
  have hs := hwf.stopped hret
  constructor
  · intro hsettled
    refine ⟨?_, fun _ => hsettled.queue, fun _ => hsettled.timers⟩
    -- a lost event was sent, so it has been counted as well: two places
    apply eq_nil_iff_forall_not_mem.mpr
    intro id hlost
    have hpos : 0 < d.lost.count id := count_pos_iff.mpr hlost
    have hplaces := h.places_sent id
    have hsent : id ∈ sent out := by
      rw [← count_pos_iff, ← h.once id, places]
      omega
    have hcounted : 0 < d.counted.countP (fun c => c.1 = id) := by
      obtain hacc | hfull := mem_sent_cases hsent
      · rw [hsettled.counted id hacc]
        exact Nat.one_pos
      · obtain ⟨o, ho⟩ := h.overflow id hfull
        exact countP_pos_iff.mpr ⟨_, ho, by simp⟩
    have hone := hplaces.1
    rw [places] at hone
    omega
  · intro hclean
    refine ⟨?_, hclean.queue hs, hclean.timers hret⟩
    intro id hid
    have hone := (h.places_sent id).2 (sent_of_accepted hid)
    simpa [places, hclean.queue hs, hclean.timers hret, hclean.lost, hs.2.2] using hone

/-- Once `Close` has returned nil, the accepted events are settled just when every step of
the run was kept. -/
theorem settled_iff_kept (inputs : List Input)
    (hret : (run step (newMemory bufferSize workers) inputs).1.closeCall = .returned) :
    Settled (run step (newMemory bufferSize workers) inputs).1
        (run step (newMemory bufferSize workers) inputs).2 ↔
      Along Kept step (newMemory bufferSize workers) inputs := by
  rw [← run_clean_iff]
  exact (run_conserved bufferSize workers inputs).settled_iff
    (run_wf bufferSize workers inputs) hret

/-- Two events are dispatched, one while `Close` waits for the worker that delivers the
other; the first is delivered and the second fails. -/
def drainedRun : List Input :=
  [.dispatchCheck, .dispatchCheck, .dispatchSend 0, .workerReceive, .close, .closeSignal,
    .dispatchSend 1, .deliver ⟨⟨0, 0⟩, false⟩ .delivered, .workerShutdown, .drainQueue,
    .deliver ⟨⟨1, 0⟩, true⟩ .failed, .drainQueue, .closeDone]

theorem settled_drainedRun :
    Settled (run step (newMemory 4 1) drainedRun).1
      (run step (newMemory 4 1) drainedRun).2 :=
  (settled_iff_kept 4 1 drainedRun (by decide)).mpr (by decide)

/-- An event waits on its requeue timer when `Close` is called. -/
def timerAtClose : List Input :=
  [.dispatchCheck, .dispatchSend 0, .workerReceive, .deliver ⟨⟨0, 0⟩, false⟩ .circuitOpen,
    .close, .closeSignal, .timerShutdown ⟨⟨0, 1⟩, false⟩, .workerShutdown, .drainQueue, .closeDone]

/-- A `Dispatch` that has read the closed flag sends after the last worker has returned. -/
def lateSend : List Input :=
  [.dispatchCheck, .close, .closeSignal, .workerShutdown, .drainQueue, .closeDone,
    .dispatchSend 0]

/-- `Close` returns nil in both runs and `Dispatch` has returned nil for event 0, yet the
event is counted nowhere: a timer has dropped it without a count, or it is still queued. -/
theorem close_leaves_events :
    ((run step (newMemory 4 1) timerAtClose).2 = [.dispatched 0, .closed] ∧
      (run step (newMemory 4 1) timerAtClose).1.counted = []) ∧
    ((run step (newMemory 4 1) lateSend).2 = [.closed, .dispatched 0] ∧
      (run step (newMemory 4 1) lateSend).1.queue = [⟨0, 0⟩]) ∧
    ¬ Settled (run step (newMemory 4 1) timerAtClose).1
      (run step (newMemory 4 1) timerAtClose).2 ∧
    ¬ Settled (run step (newMemory 4 1) lateSend).1
      (run step (newMemory 4 1) lateSend).2 := by
  refine ⟨by decide, by decide, fun h => ?_, fun h => ?_⟩
  · exact absurd (h.counted 0 (by decide)) (by decide)
  · exact absurd h.queue (by decide)

end Orchestrator.Dispatcher

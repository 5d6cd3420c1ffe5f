/-
  Orchestrator.Job.Docker.WatchOrder

  The order of the lifecycle signals of one watch.

  A watch is meant to say: possibly `started`, then either `failed`, or `exited` and
  `completed`; and to return on its own only with that word complete.  `Turn` lists once
  what a single input can do to a watch; from it, `ordered_iff_informed` says which runs
  keep the order: exactly those in which no input is acted on blindly.
-/

import Orchestrator.Job.Docker.Watcher

namespace Orchestrator.Job.Docker

open Lifecycle Lib.Machine

/-! ## Words of signals -/

/-- The lifecycle signal an action emits, if any; log lines are not lifecycle signals. -/
def Action.lifecycle? : Action → Option Signal
  | .emit (.logLine _ _) => none
  | .emit s => some s
  | _ => none

def lifecycle (acts : List Action) : List Signal := acts.filterMap Action.lifecycle?

theorem lifecycle_append (xs ys : List Action) :
    lifecycle (xs ++ ys) = lifecycle xs ++ lifecycle ys :=
  List.filterMap_append

def Opened (word : List Signal) : Prop := word = [] ∨ word = [.started]

/-- A complete word: at most one `started`, then `failed`, or `exited` and `completed`. -/
def Complete (word : List Signal) : Prop :=
  ∃ opening, Opened opening ∧
    ((∃ reason, word = opening ++ [.failed reason]) ∨
      ∃ code reason, word = opening ++ [.exited code reason, .completed])

/-- A beginning of a complete word. -/
def InOrder (word : List Signal) : Prop := ∃ rest, Complete (word ++ rest)

variable {word : List Signal}

theorem Complete.inOrder (h : Complete word) : InOrder word :=
  ⟨[], by rwa [List.append_nil]⟩

theorem InOrder.of_append {more : List Signal} (h : InOrder (word ++ more)) :
    InOrder word := by
  obtain ⟨rest, hrest⟩ := h
  exact ⟨more ++ rest, by rwa [← List.append_assoc]⟩

variable {opening : List Signal}

theorem Opened.inOrder (h : Opened opening) : InOrder opening :=
  ⟨[.failed ""], opening, h, .inl ⟨"", rfl⟩⟩

theorem Opened.inOrder_exited (h : Opened opening) (code : Int) (reason : ExitReason) :
    InOrder (opening ++ [.exited code reason]) :=
  ⟨[.completed], opening, h, .inr ⟨code, reason, by simp⟩⟩

theorem not_complete_exited (h : Opened opening) (code : Int) (reason : ExitReason) :
    ¬ Complete (opening ++ [.exited code reason]) := by
  rintro ⟨opening', h', ⟨reason', heq⟩ | ⟨code', reason', heq⟩⟩ <;>
    rcases h with rfl | rfl <;> rcases h' with rfl | rfl <;> simp at heq

theorem not_complete_opened (h : Opened opening) : ¬ Complete opening := by
  rintro ⟨opening', h', ⟨reason', heq⟩ | ⟨code', reason', heq⟩⟩ <;>
    rcases h with rfl | rfl <;> rcases h' with rfl | rfl <;> simp at heq

theorem not_inOrder_exited (h : Opened opening) (code : Int) (reason : ExitReason) {s : Signal}
    (hs : s ≠ .completed) :
    ¬ InOrder (opening ++ [.exited code reason] ++ [s]) := by
  rintro ⟨rest, opening', h', ⟨reason', heq⟩ | ⟨code', reason', heq⟩⟩ <;>
    rcases h with rfl | rfl <;> rcases h' with rfl | rfl <;> simp_all

/-! ## What one input can do -/

/-- The worker's exit has been reported although its start is not known. -/
def WatcherState.unseen (st : WatcherState) : Prop :=
  st.isWorkerExited = true ∧ st.isWorkerStarted = false

/-- What one `reconcile` pass is told suffices: the sidecar could be inspected, and an exit
whose start is unknown meets neither a dead sidecar nor a start of the worker. -/
def Look.Informs (seen : Look) (st : WatcherState) : Prop :=
  match seen.sidecar with
  | none => False
  | some sidecar =>
    st.unseen → sidecar.running = true ∧
      ((detectResume st seen.worker).isWorkerStarted = true ∨ sidecar.healthy = false)

/-- The event can be acted on: an exit whose start is unknown is not followed by a health
report, nor by the death of the sidecar. -/
def DockerEvent.Informs : DockerEvent → WatcherState → Prop
  | .sidecarHealthy _, st => ¬ st.unseen
  | .sidecarDie _, st => ¬ st.unseen
  | _, _ => True

/-- No input is acted on blindly. -/
def Informed (w : Watch) : Input → Prop
  | .reconcile seen => w.phase = .top → w.cancelled = false → seen.Informs w.st
  | .event e => w.phase = .stream → e.Informs w.st
  | _ => True

/-- What a part of the watch (`reconcile`, `process`) can do: its new state, what it
emits, whether it ends the watch; `good` is whether it was informed. -/
inductive Turn (st : WatcherState) (good : Prop) : WatcherState → List Signal → Bool → Prop where
  | quiet {st' : WatcherState} : good → st'.isWorkerExited = st.isWorkerExited →
      (st.isWorkerStarted = true → st'.isWorkerStarted = true) → Turn st good st' [] false
  | lost {st' : WatcherState} : ¬ good → Turn st good st' [] true
  | started {st' : WatcherState} : st.isWorkerStarted = false →
      (good ↔ st.isWorkerExited = false) → st'.isWorkerStarted = true →
      st'.isWorkerExited = st.isWorkerExited → Turn st good st' [.started] false
  | exited {st' : WatcherState} (code : Int) (reason : ExitReason) : good →
      st.isWorkerExited = false → st'.isWorkerExited = true →
      (st.isWorkerStarted = true → st'.isWorkerStarted = true) →
      Turn st good st' [.exited code reason] false
  | failed {st' : WatcherState} (reason : String) : (good ↔ st.isWorkerExited = false) →
      Turn st good st' [.failed reason] true
  | completed {st' : WatcherState} : good → st.isWorkerExited = true →
      Turn st good st' [.completed] true

variable {st : WatcherState}

theorem WatcherState.unseen_iff (h : st.isWorkerStarted = false) :
    ¬ st.unseen ↔ st.isWorkerExited = false := by
  simp [WatcherState.unseen, h]

theorem WatcherState.not_unseen (h : st.isWorkerStarted = true) :
    ¬ st.unseen := by
  simp [WatcherState.unseen, h]

variable {good : Prop}

/-- A dead sidecar; `good` must say that the start is not unseen. -/
theorem sidecarGone_turn (hgood : good ↔ ¬ st.unseen) (detail : String) :
    Turn st good (sidecarGone st detail).1 (lifecycle (sidecarGone st detail).2.1)
      (sidecarGone st detail).2.2 := by
  cases hs : st.isWorkerStarted with
  | false =>
    simp only [sidecarGone, hs, if_true]
    exact .failed _ (hgood.trans (st.unseen_iff hs))
  | true =>
    have hseen : good := hgood.mpr (st.not_unseen hs)
    cases he : st.isWorkerExited with
    | true =>
      simp only [sidecarGone, hs, he, Bool.true_eq_false, if_false, if_true]
      exact .completed hseen he
    | false =>
      simp only [sidecarGone, hs, he, Bool.true_eq_false, Bool.false_eq_true, if_false]
      exact .failed _ ⟨fun _ => he, fun _ => hseen⟩

theorem reconcile_turn (st : WatcherState) (seen : Look) :
    Turn st (seen.Informs st) (reconcile st seen).1 (lifecycle (reconcile st seen).2.1)
      (reconcile st seen).2.2 := by
  rcases reconcile_cases st seen with ⟨hnone, hq⟩ | ⟨sidecar, hsome, h⟩
  · rw [hq]
    exact .lost (by simp [Look.Informs, hnone])
  have hgood : seen.Informs st ↔ (st.unseen → sidecar.running = true ∧
      ((detectResume st seen.worker).isWorkerStarted = true ∨ sidecar.healthy = false)) := by
    simp [Look.Informs, hsome]
  rcases h with ⟨hrun, hq⟩ | ⟨hrun, hh, hs', h⟩ | ⟨hrun, hnostart, st', he, hs, hq⟩
  · rw [hq]
    exact sidecarGone_turn (hgood.trans (by simp [hrun])) seen.detail
  · -- a start is attempted, so the worker's start was not known before either
    have hnot : st.isWorkerStarted = false := by
      cases h' : st.isWorkerStarted with
      | false => rfl
      | true => exact absurd (detectResume_isWorkerStarted h' seen.worker) (by simp [hs'])
    have hgood' : seen.Informs st ↔ st.isWorkerExited = false :=
      hgood.trans ((by simp [hs', hh]) : _ ↔ ¬ st.unseen) |>.trans (st.unseen_iff hnot)
    rcases h with ⟨-, st', hq⟩ | ⟨-, st', hs, he, hq⟩
    · rw [hq]
      exact .failed _ hgood'
    · rw [hq]
      exact .started hnot hgood' hs he
  · have hinf : seen.Informs st := hgood.mpr fun _ => ⟨hrun, hnostart⟩
    rcases reconcileExit_cases st' seen.worker with hx | ⟨snap, reason, -, -, -, hexit, hx⟩
    · rw [hq, hx]
      exact .quiet hinf he hs
    · rw [hq, hx]
      exact .exited _ _ hinf (he ▸ hexit) rfl hs

theorem process_turn (st : WatcherState) (e : DockerEvent) :
    Turn st (e.Informs st) (process st e).1 (lifecycle (process st e).2.1) (process st e).2.2 := by
  rcases process_cases st e with ⟨startFails, rfl, hnot, h⟩ | ⟨detail, rfl, hq⟩ |
    ⟨code, oomKilled, reason, rfl, he, hq⟩ | ⟨hdie, hhealthy, st', he, hs, hq⟩
  · have hgood : (DockerEvent.sidecarHealthy startFails).Informs st ↔
        st.isWorkerExited = false := st.unseen_iff hnot
    rcases h with ⟨-, hq⟩ | ⟨-, st', hs, he, hq⟩
    · rw [hq]
      exact .failed _ hgood
    · rw [hq]
      exact .started hnot hgood hs he
  · rw [hq]
    exact sidecarGone_turn Iff.rfl detail
  · rw [hq]
    exact .exited _ _ trivial he rfl id
  · rw [hq]
    refine .quiet ?_ he (fun h => hs.trans h)
    cases e with
    | sidecarHealthy startFails => exact st.not_unseen (hhealthy ⟨startFails, rfl⟩)
    | sidecarDie detail => exact absurd rfl (hdie detail)
    | workerOOM | workerDie code oomKilled | other => trivial

theorem process_ends (st : WatcherState) (e : DockerEvent) (hend : (process st e).2.2 = true) :
    lifecycle (process st e).2.1 ≠ [] := by
  revert hend
  cases e <;> simp only [process] <;> repeat' split
  all_goals simp [stopOrphanedWorker, lifecycle, Action.lifecycle?]

variable {w : Watch}

/-- What an input can do to the order of a watch that has not returned. -/
theorem Watch.step_turn (hlive : w.phase ≠ .returned) (i : Input) :
    (Informed w i ∧
      ((w.cancelled = true ∧ w.step i = (w.stop, [])) ∨
        ((w.step i).1.phase ≠ .returned ∧
          (w.step i).1.st.isWorkerStarted = w.st.isWorkerStarted ∧
          (w.step i).1.st.isWorkerExited = w.st.isWorkerExited ∧ lifecycle (w.step i).2 = []))) ∨
    ∃ r, Turn w.st (Informed w i) r.1 (lifecycle r.2.1) r.2.2 ∧ w.step i = w.resume r ∧
      (lifecycle r.2.1 = [] → r.2.2 = true → w.cancelled = false) := by
  rcases Watch.step_cases hlive i with ⟨seen, rfl, htop, hc, hstep⟩ | ⟨e, rfl, hstream, hstep⟩ |
    ⟨hseen, hevent, hidle⟩
  · right
    have hgood : Informed w (.reconcile seen) ↔ seen.Informs w.st := by
      simp [Informed, htop, hc]
    refine ⟨reconcile w.st seen, ?_, hstep, fun _ _ => hc⟩
    rw [hgood]
    exact reconcile_turn w.st seen
  · right
    have hgood : Informed w (.event e) ↔ e.Informs w.st := by simp [Informed, hstream]
    refine ⟨process w.st e, ?_, hstep, ?_⟩
    · rw [hgood]
      exact process_turn w.st e
    · intro hnil hend
      exact absurd hnil (process_ends w.st e hend)
  · left
    constructor
    · cases i with
      | reconcile seen =>
        intro htop hc
        exact absurd (hseen seen rfl htop) (by simp [hc])
      | event e => exact fun hstream => absurd hstream (hevent e rfl)
      | _ => trivial
    · rcases hidle with h | ⟨hphase, hs, he, hacts⟩
      · exact .inl h
      · right
        refine ⟨hphase, hs, he, ?_⟩
        rcases hacts with h | h | ⟨stream, lines, h⟩ <;> rw [h] <;> rfl

/-! ## The order along a run -/

/-- What a live watch has said so far, by its two flags. -/
def Told (st : WatcherState) (word : List Signal) : Prop :=
  ∃ opening, Opened opening ∧ (st.isWorkerStarted = false → opening = []) ∧
    (st.isWorkerExited = false ∧ word = opening ∨
      st.isWorkerExited = true ∧ ∃ code reason, word = opening ++ [.exited code reason])

theorem Told.inOrder (h : Told st word) :
    InOrder word := by
  obtain ⟨opening, hop, -, ⟨-, rfl⟩ | ⟨-, code, reason, rfl⟩⟩ := h
  · exact hop.inOrder
  · exact hop.inOrder_exited code reason

theorem Told.not_complete (h : Told st word) :
    ¬ Complete word := by
  obtain ⟨opening, hop, -, ⟨-, rfl⟩ | ⟨-, code, reason, rfl⟩⟩ := h
  · exact not_complete_opened hop
  · exact not_complete_exited hop code reason

/-- An informed turn goes on with the word, or completes it. -/
theorem Told.turn {st' : WatcherState} {out : List Signal} {done : Bool} (h : Told st word)
    (hgood : good) (hturn : Turn st good st' out done) :
    if done then Complete (word ++ out) else Told st' (word ++ out) := by
  obtain ⟨opening, hop, hnil, hword⟩ := h
  cases hturn with
  | quiet _ he hs =>
    refine ⟨opening, hop, fun h' => hnil ?_, by rwa [he, List.append_nil]⟩
    cases hst : st.isWorkerStarted with
    | false => rfl
    | true => exact absurd (hs hst) (by simp [h'])
  | lost hbad => exact absurd hgood hbad
  | started hs hiff hs' he =>
    have hexit := hiff.mp hgood
    obtain ⟨-, rfl⟩ | ⟨h', -⟩ := hword
    · -- before its start the watch has said nothing
      rw [hnil hs]
      exact ⟨[.started], .inr rfl, fun h' => absurd hs' (by simp [h']), .inl ⟨he ▸ hexit, rfl⟩⟩
    · exact absurd h' (by simp [hexit])
  | exited code reason _ he he' hs =>
    obtain ⟨-, rfl⟩ | ⟨h', -⟩ := hword
    · refine ⟨word, hop, fun h' => hnil ?_, .inr ⟨he', code, reason, rfl⟩⟩
      cases hst : st.isWorkerStarted with
      | false => rfl
      | true => exact absurd (hs hst) (by simp [h'])
    · exact absurd h' (by simp [he])
  | failed reason hiff =>
    have hexit := hiff.mp hgood
    obtain ⟨-, rfl⟩ | ⟨h', -⟩ := hword
    · exact ⟨word, hop, .inl ⟨reason, rfl⟩⟩
    · exact absurd h' (by simp [hexit])
  | completed _ he =>
    obtain ⟨h', -⟩ | ⟨-, code, reason, rfl⟩ := hword
    · exact absurd h' (by simp [he])
    · exact ⟨opening, hop, .inr ⟨code, reason, by simp⟩⟩

/-- A blind turn ends the watch without a last word, or breaks the order. -/
theorem Told.blind_turn {st' : WatcherState} {out : List Signal} {done : Bool} (h : Told st word)
    (hbad : ¬ good) (hturn : Turn st good st' out done) :
    (out = [] ∧ done = true) ∨ ¬ InOrder (word ++ out) := by
  obtain ⟨opening, hop, -, hword⟩ := h
  have hexited : (good ↔ st.isWorkerExited = false) →
      ∃ code reason, word = opening ++ [.exited code reason] := by
    intro hiff
    obtain ⟨h', -⟩ | ⟨-, h'⟩ := hword
    · exact absurd (hiff.mpr h') hbad
    · exact h'
  cases hturn with
  | lost _ => exact .inl ⟨rfl, rfl⟩
  | started _ hiff _ _ | failed _ hiff =>
    obtain ⟨code, reason, rfl⟩ := hexited hiff
    exact .inr (not_inOrder_exited hop code reason (by simp))
  | quiet hgood _ _ | exited _ _ hgood _ _ _ | completed hgood _ => exact absurd hgood hbad

def Speaks (w : Watch) (acts : List Action) : Prop :=
  if w.phase = .returned then
    w.cancelled = true ∧ InOrder (lifecycle acts) ∨ Complete (lifecycle acts)
  else Told w.st (lifecycle acts)

/-- The lifecycle signals are in order, and a watch whose context was not cancelled returns
only with its word complete. -/
def Ordered (w : Watch) (acts : List Action) : Prop :=
  InOrder (lifecycle acts) ∧
    (w.phase = .returned → w.cancelled = false → Complete (lifecycle acts))

variable {acts : List Action}

theorem Speaks.ordered (h : Speaks w acts) : Ordered w acts := by
  unfold Speaks at h
  split at h
  · obtain ⟨hc, hin⟩ | hcomplete := h
    · exact ⟨hin, fun _ hnot => absurd hc (by simp [hnot])⟩
    · exact ⟨hcomplete.inOrder, fun _ _ => hcomplete⟩
  next hlive => exact ⟨h.inOrder, fun hret => absurd hret hlive⟩

theorem Speaks.step {i : Input} (hi : Informed w i) (h : Speaks w acts) :
    Speaks (w.step i).1 (acts ++ (w.step i).2) := by
  by_cases hret : w.phase = .returned
  · rw [Watch.step_returned hret, List.append_nil]
    exact h
  rw [Speaks, if_neg hret] at h
  rcases Watch.step_turn hret i with ⟨-, ⟨hc, hstep⟩ | ⟨hlive, hs, he, hout⟩⟩ |
    ⟨r, hturn, hstep, -⟩
  · have hphase : (w.step i).1.phase = .returned := by rw [hstep]; rfl
    rw [Speaks, if_pos hphase, hstep, List.append_nil]
    exact .inl ⟨hc, h.inOrder⟩
  · rw [Speaks, if_neg hlive, lifecycle_append, hout, List.append_nil, Told, hs, he]
    exact h
  · have hnext := h.turn hi hturn
    rw [hstep, Speaks, lifecycle_append, Watch.resume_snd]
    cases hdone : r.2.2 with
    | true =>
      rw [if_pos ((w.resume_phase_returned r).mpr hdone)]
      exact .inr (by simpa [hdone] using hnext)
    | false =>
      have hst : (w.resume r).1.st = r.1 := by simp [Watch.resume, hdone]
      rw [if_neg (by simp [Watch.resume_phase_returned, hdone]), hst]
      simpa [hdone] using hnext

/-- An input acted on blindly spoils the run. -/
theorem Speaks.blind_step {i : Input} (hi : ¬ Informed w i) (h : Speaks w acts) :
    ¬ Ordered (w.step i).1 (acts ++ (w.step i).2) := by
  have hret : w.phase ≠ .returned := by
    intro hret
    cases i <;> first | exact hi trivial | exact hi (fun h' => absurd hret (by simp [h']))
  rw [Speaks, if_neg hret] at h
  rcases Watch.step_turn hret i with ⟨hgood, -⟩ | ⟨r, hturn, hstep, hlost⟩
  · exact absurd hgood hi
  rw [hstep, Ordered, lifecycle_append, Watch.resume_snd]
  rintro ⟨hin, hcomplete⟩
  rcases h.blind_turn hi hturn with ⟨hnil, hdone⟩ | hnot
  · -- the watch returns without having completed its word
    have hword := hcomplete ((w.resume_phase_returned r).mpr hdone)
      (by rw [Watch.resume_cancelled, hlost hnil hdone])
    rw [hnil, List.append_nil] at hword
    exact h.not_complete hword
  · exact hnot hin

theorem not_ordered_step (i : Input) (h : ¬ Ordered w acts) :
    ¬ Ordered (w.step i).1 (acts ++ (w.step i).2) := by
  intro hord
  by_cases hret : w.phase = .returned
  · rw [Watch.step_returned hret, List.append_nil] at hord
    exact h hord
  · rw [Ordered, lifecycle_append] at hord
    exact h ⟨hord.1.of_append, fun hret' => absurd hret' hret⟩

/-- A run of the watcher keeps the order of its lifecycle signals, and returns on its own
only after the last of them, exactly if it never acts blindly. -/
theorem ordered_iff_informed (timeout : Int) (inputs : List Input) :
    Ordered (watch timeout inputs).1 (watch timeout inputs).2 ↔
      Along Informed Watch.step (newWatch timeout) inputs := by
  have hstart : Speaks (newWatch timeout) [] := ⟨[], .inl rfl, fun _ => rfl, .inl ⟨rfl, rfl⟩⟩
  exact run_iff_along Speaks Ordered (fun _ _ => Speaks.ordered) (fun _ _ _ => Speaks.step)
    (fun _ _ _ => Speaks.blind_step) (fun _ _ => not_ordered_step) inputs hstart

/-- The worker is started, the stream breaks, and the next inspection of the sidecar fails. -/
def inspectFails : List Input :=
  [.reconcile ⟨some ⟨true, true⟩, "", some ⟨.created, false, 0, false⟩, false⟩, .disconnect,
    .retry, .reconcile ⟨none, "", none, false⟩]

/-- A resumed watch cannot inspect the worker, which then exits before its sidecar. -/
def startUnseen : List Input :=
  [.reconcile ⟨some ⟨true, false⟩, "", none, false⟩, .event (.workerDie (some 0) false),
    .event (.sidecarDie "")]

/-- A failed inspection of the sidecar ends the watch of a running job in silence; and a
worker whose start was not seen is reported as exited and then as failed. -/
theorem watch_out_of_order :
    ¬ Ordered (watch 0 inspectFails).1 (watch 0 inspectFails).2 ∧
      ¬ Ordered (watch 0 startUnseen).1 (watch 0 startUnseen).2 := by
  constructor
  · rintro ⟨-, hcomplete⟩
    have hword : lifecycle (watch 0 inspectFails).2 = [.started] := by decide
    rw [hword] at hcomplete
    exact not_complete_opened (.inr rfl) (hcomplete (by decide) (by decide))
  · rintro ⟨hin, -⟩
    have hword : lifecycle (watch 0 startUnseen).2 = [] ++ [.exited 0 .none] ++
        [.failed "sidecar exited before inputs completed"] := by decide
    rw [hword] at hin
    exact not_inOrder_exited (.inl rfl) 0 .none (by simp) hin

end Orchestrator.Job.Docker

/-
  Orchestrator.Job.Docker.Restart

  A Docker job across a restart of the jobs service.

  A restarted service makes of the containers it finds the fate `resumedFate`; it stores
  what an uninterrupted service stores exactly if the containers are `Recoverable` at the
  restart.
-/

import Orchestrator.Job.Docker.Service

namespace Orchestrator.Job.Docker

open Lifecycle World

variable {startFails : Option Nat} {p : Pair}

/-! ## Starting to watch -/

section

variable {w : World}

theorem startWatch_react {st' : WatcherState} {acts : List Action} {done : Bool}
    (hr : reconcile (newWatcherState w.timeout) w.look = (st', acts, done)) :
    ∃ watch, w.startWatch = acts.foldl World.act { w with watch := watch } ∧
      if done then Ended watch else Follows watch st'.isWorkerStarted st'.isWorkerExited := by
  have hstep : (newWatch w.timeout).step (.reconcile w.look) =
      (newWatch w.timeout).resume (st', acts, done) := by
    simp [Watch.step, newWatch, hr]
  refine ⟨some ((newWatch w.timeout).resume (st', acts, done)).1, ?_, ?_⟩
  · simp only [World.startWatch, World.feed, hstep, Watch.resume_snd]
  · cases done with
    | true =>
      intro wt hwt
      cases hwt
      rfl
    | false => exact ⟨_, rfl, rfl, rfl, rfl⟩

theorem startWatch_waiting {code : Nat} (hs : w.pair.sidecar = .starting)
    (hw : w.pair.worker = .created code) (hstore : Holds w.store w.id .accepted none) :
    Matches w.startWatch .waiting ∧ w.startWatch.pair = w.pair := by
  have hr : reconcile (newWatcherState w.timeout) w.look =
      (newWatcherState w.timeout, [], false) := by
    simp [reconcile, look, Pair.sidecarSnap, Pair.workerSnap, hs, hw, detectResume,
      resumeLogStreaming, reconcileExit, newWatcherState]
  obtain ⟨watch, heq, hfollow⟩ := startWatch_react hr
  rw [heq]
  exact ⟨⟨hstore, hfollow, hs, by simp [hw]⟩, rfl⟩

theorem startWatch_healthy {code : Nat} (hs : w.pair.sidecar = .healthy)
    (hw : w.pair.worker = .created code) (hstore : Holds w.store w.id .accepted none) :
    Matches w.startWatch
      (if w.startFails.isSome then .closed .failed (-1) else .running) := by
  cases hf : w.startFails with
  | none =>
    have hr : reconcile (newWatcherState w.timeout) w.look =
        (resumeLogStreaming (armDeadline
          { newWatcherState w.timeout with isWorkerStarted := true }),
          [.startWorker true, .emit .started], false) := by
      simp [reconcile, look, Pair.sidecarSnap, Pair.workerSnap, hs, hw, hf, detectResume,
        reconcileExit, newWatcherState]
    obtain ⟨watch, heq, hfollow⟩ := startWatch_react hr
    rw [heq]
    refine ⟨hstore.started, ?_, hs, rfl⟩
    simpa [World.act, newWatcherState] using hfollow
  | some n =>
    have hr : reconcile (newWatcherState w.timeout) w.look =
        (newWatcherState w.timeout,
          [.startWorker false, .emit (.failed "failed to start worker")], true) := by
      simp [reconcile, look, Pair.sidecarSnap, Pair.workerSnap, hs, hw, hf, detectResume,
        newWatcherState]
    obtain ⟨watch, heq, hend⟩ := startWatch_react hr
    rw [heq]
    exact ⟨hstore.failed _ (.inl rfl), hend⟩

theorem startWatch_running (hs : w.pair.sidecar = .healthy) (hw : w.pair.worker = .running)
    (hstore : Holds w.store w.id .running none) : Matches w.startWatch .running := by
  have hr : reconcile (newWatcherState w.timeout) w.look =
      (resumeLogStreaming (armDeadline
        { newWatcherState w.timeout with isWorkerStarted := true }), [], false) := by
    simp [reconcile, look, Pair.sidecarSnap, Pair.workerSnap, hs, hw, detectResume,
      reconcileExit, newWatcherState]
  obtain ⟨watch, heq, hfollow⟩ := startWatch_react hr
  rw [heq]
  refine ⟨hstore, ?_, hs, hw⟩
  simpa [newWatcherState] using hfollow

/-- A worker that has ended next to a healthy sidecar: success is refused by the store. -/
theorem startWatch_exited {code : Nat} (hs : w.pair.sidecar = .healthy)
    (hw : w.pair.worker = .exited code) (hstore : Holds w.store w.id .accepted none) :
    Matches w.startWatch (if code = 0 then .lost else .exited code) := by
  have hr : reconcile (newWatcherState w.timeout) w.look =
      (stopLogStreaming { resumeLogStreaming
        { newWatcherState w.timeout with isWorkerStarted := true } with isWorkerExited := true },
        [.signalSidecar, .emit (.exited code .none)], false) := by
    simp [reconcile, look, Pair.sidecarSnap, Pair.workerSnap, hs, hw, detectResume,
      reconcileExit, resumeLogStreaming, newWatcherState, workerExitReason, exitReason]
  obtain ⟨watch, heq, hfollow⟩ := startWatch_react hr
  have hfollow' : Follows watch true true := by
    simpa [stopLogStreaming, newWatcherState] using hfollow
  rw [heq]
  by_cases hc : code = 0
  · subst hc
    have hrefused : applied w.store w.id (.exited ((0 : Nat) : Int) .none) = w.store :=
      hstore.success_refused .none
    refine ⟨?_, .inr ⟨hfollow', hs, hw⟩⟩
    simp only [List.foldl, World.act, hrefused]
    exact hstore
  · rw [if_neg hc]
    refine ⟨hstore.exited _ _ (.inr ⟨rfl, by exact_mod_cast hc⟩), hfollow', hs, hw⟩

/-- A running worker whose sidecar is gone: the watch fails the job. -/
theorem startWatch_orphan (hs : w.pair.sidecar = .exited)
    (hstore : Holds w.store w.id .running none) :
    Matches w.startWatch (.closed .failed (-1)) := by
  have hr : reconcile (newWatcherState w.timeout) w.look =
      (newWatcherState w.timeout, [.emit (.failed (sidecarFailureReason ""))], true) := by
    simp [reconcile, look, Pair.sidecarSnap, hs, newWatcherState]
  obtain ⟨watch, heq, hend⟩ := startWatch_react hr
  rw [heq]
  exact ⟨hstore.failed _ (.inr rfl), hend⟩

theorem register_fresh (h : w.store = newMemoryStore "job") (cancelWatch : Option Nat) :
    ∃ store, w.register cancelWatch = { w with store := store } ∧
      Holds store w.id .accepted none := by
  have hres : w.store.entries w.id = none := by rw [h]; rfl
  simp only [World.register, MemoryStore.reserve, hres, MemoryStore.commit,
    MemoryStore.entries_set_self]
  exact ⟨_, rfl, ⟨_, MemoryStore.entries_set_self _ _ _, rfl, rfl, rfl⟩⟩

theorem startWatch_frame (w : World) :
    w.startWatch.startFails = w.startFails ∧ w.startWatch.id = w.id :=
  feed_frame _ _

theorem register_startFails (w : World) (cancelWatch : Option Nat) :
    (w.register cancelWatch).startFails = w.startFails := by
  unfold World.register
  split <;> rfl

theorem up_startFails (w : World) : w.up.startFails = w.startFails := by
  unfold up
  dsimp only
  split
  · exact register_startFails w none
  · rw [(startWatch_frame _).1]
    split <;> exact register_startFails w (some 0)

theorem fits_start (id : String) (startFails : Option Nat) (timeout : Int) :
    Fits (World.start id startFails timeout) ∧
      (World.start id startFails timeout).startFails = startFails := by
  generalize hu : World.unknown id startFails timeout = u
  have hstore : u.store = newMemoryStore "job" := by rw [← hu]; rfl
  have hpair : u.pair = newPair := by rw [← hu]; rfl
  have hsf : u.startFails = startFails := by rw [← hu]; rfl
  obtain ⟨store, hreg, hholds⟩ := register_fresh hstore (some 0)
  have hside : u.pair.sidecar = .starting := by rw [hpair]; rfl
  have hwork : u.pair.worker = .created 0 := by rw [hpair]; rfl
  obtain ⟨hm, hp⟩ := startWatch_waiting (w := { u with store := store }) hside hwork hholds
  have hfate : ∀ sf, fateOf sf u.pair = .waiting := by
    intro sf
    rw [hpair]
    rfl
  rw [World.start, hu, hreg]
  refine ⟨⟨?_, ?_⟩, (startWatch_frame _).1.trans hsf⟩
  · rw [hp, hfate]
    exact hm
  · rw [hp]
    exact ⟨fun _ => ⟨0, hwork⟩, fun _ => ⟨0, hwork⟩, fun h => absurd (hside.symm.trans h) (by simp)⟩

theorem matches_replay {store : MemoryStore DockerHandle Nat} {code : Nat}
    (hstore : Holds store w.id .accepted none) (hwatch : w.watch = none) (reason : ExitReason) :
    Matches { w with store := applied (applied store w.id .started) w.id (.exited code reason) }
      (.closed (stateForExit code) code) := by
  refine ⟨hstore.started.exited _ _ (.inl rfl), ?_⟩
  intro wt hwt
  simp [hwatch] at hwt

/-- A restarted service makes of the containers what `resumedFate` says. -/
theorem matches_up (hstore : w.store = newMemoryStore "job") (hwatch : w.watch = none)
    (hv : Valid w.startFails w.pair) : Matches w.up (resumedFate w.startFails w.pair) := by
  obtain ⟨store, hreg, hholds⟩ := register_fresh hstore (some 0)
  obtain ⟨store', hreg', hholds'⟩ := register_fresh hstore none
  -- the watch is started again, next to a worker that runs or does not
  have hrunning : w.pair.worker = .running → w.up =
      ({ w with store := applied store w.id .started } : World).startWatch := by
    intro hw
    simp [up, hw, hreg]
  have hidle : w.pair.sidecar ≠ .exited → w.pair.worker ≠ .running →
      w.up = ({ w with store := store } : World).startWatch := by
    intro hs hw
    simp [up, hs, hw, hreg]
  cases hs : w.pair.sidecar with
  | starting =>
    obtain ⟨code, hw⟩ := hv.starting hs
    rw [hidle (by simp [hs]) (by simp [hw]), resumedFate, hs]
    exact (startWatch_waiting (w := { w with store := store }) hs hw hholds).1
  | healthy =>
    cases hw : w.pair.worker with
    | created code =>
      rw [hidle (by simp [hs]) (by simp [hw]), resumedFate, hs, hw]
      exact startWatch_healthy hs hw hholds
    | running =>
      rw [hrunning hw, resumedFate, hs, hw]
      exact startWatch_running hs hw hholds.started
    | exited code =>
      rw [hidle (by simp [hs]) (by simp [hw]), resumedFate, hs, hw]
      exact startWatch_exited hs hw hholds
  | exited =>
    cases hw : w.pair.worker with
    | created code | exited code =>
      rw [resumedFate, hs, hw]
      simp only [up, hs, hw, hreg', Pair.workerSnap]
      exact matches_replay hholds' hwatch _
    | running =>
      rw [hrunning hw, resumedFate, hs, hw]
      exact startWatch_orphan hs hholds.started

end

/-! ## Whole histories -/

variable (history : List ContainerEvent)

theorem events_frame (w : World) :
    (history.foldl World.event w).startFails = w.startFails ∧
      (history.foldl World.event w).id = w.id := by
  induction history generalizing w with
  | nil => exact ⟨rfl, rfl⟩
  | cons e rest ih =>
    obtain ⟨hs, hid⟩ := ih (w.event e)
    obtain ⟨hs', hid'⟩ := event_frame w e
    exact ⟨hs.trans hs', hid.trans hid'⟩

theorem Matches.events {w : World} {f : Fate} (h : Matches w f) :
    Matches (history.foldl World.event w) (history.foldl (Fate.step w.startFails) f) := by
  induction history generalizing w f with
  | nil => exact h
  | cons e rest ih =>
    have hnext := ih (h.event e).1
    rw [(event_frame w e).1] at hnext
    exact hnext

theorem Fits.events {w : World} (h : Fits w) :
    Fits (history.foldl World.event w) := by
  induction history generalizing w with
  | nil => exact h
  | cons e rest ih => exact ih (h.event e)

theorem down_events (w : World) :
    history.foldl World.event w.down = { w.down with pair := history.foldl Pair.next w.pair } := by
  suffices h : ∀ p, history.foldl World.event { w.down with pair := p } =
      { w.down with pair := history.foldl Pair.next p } from h w.pair
  induction history with
  | nil => exact fun p => rfl
  | cons e rest ih =>
    intro p
    have hended : Ended ({ w.down with pair := p } : World).watch := nofun
    rw [List.foldl_cons, event_ended hended, List.foldl_cons]
    exact ih (p.next e)

/-- The containers keep calling for the fate an uninterrupted service would have. -/
theorem fateOf_events (hv : Valid startFails p) {history : List ContainerEvent}
    (hlives : Lives p history) :
    fateOf startFails (history.foldl Pair.next p) =
        history.foldl (Fate.step startFails) (fateOf startFails p) ∧
      Valid startFails (history.foldl Pair.next p) := by
  induction history generalizing p with
  | nil => exact ⟨rfl, hv⟩
  | cons e rest ih =>
    obtain ⟨he, hrest⟩ := hlives
    obtain ⟨hfate, hv'⟩ := fateOf_next hv (e := e)
      (fun code c hc hw => absurd hw (he code hc c))
    have hnext := ih hv' hrest
    rw [hfate] at hnext
    exact hnext

theorem stored_of_matches {w : World} {f : Fate} (h : Matches w f) : w.stored = some f.stored := by
  obtain ⟨⟨e, he, -, hs, hc⟩, -⟩ := h
  simp [World.stored, MemoryStore.get, he, hs, hc]

-- Fates that no event changes any more, as far as the store is concerned.

theorem closed_events (state : State) (code : Int) :
    history.foldl (Fate.step startFails) (.closed state code) = .closed state code :=
  List.foldl_fixed' (fun e => by cases e <;> rfl) history

theorem lost_events :
    history.foldl (Fate.step startFails) .lost = .lost :=
  List.foldl_fixed' (fun e => by cases e <;> rfl) history

theorem exited_events (code : Nat) :
    (history.foldl (Fate.step startFails) (.exited code)).stored =
      (stateForExit code, some (code : Int)) := by
  induction history with
  | nil => rfl
  | cons e rest ih =>
    cases e with
    | sidecarExit =>
      rw [List.foldl_cons]
      show (rest.foldl (Fate.step startFails) (.closed (stateForExit code) code)).stored = _
      rw [closed_events]
      rfl
    | _ => exact ih

/-- A restart leads to the same stored result exactly if it finds recoverable containers. -/
theorem resumed_stored_iff (hv : Valid startFails p) :
    (history.foldl (Fate.step startFails) (resumedFate startFails p)).stored =
        (history.foldl (Fate.step startFails) (fateOf startFails p)).stored ↔ Recoverable p := by
  obtain ⟨sidecar, worker, orphaned⟩ := p
  cases sidecar with
  | starting =>
    obtain ⟨code, rfl⟩ := hv.starting rfl
    simp [resumedFate, fateOf, Recoverable]
  | healthy =>
    cases worker with
    | created code | running => simp [resumedFate, fateOf, Recoverable]
    | exited code =>
      simp only [resumedFate, fateOf, Recoverable]
      by_cases hc : code = 0
      · subst hc
        rw [if_pos rfl, lost_events, exited_events]
        simp [Fate.stored]
      · simp [hc]
  | exited =>
    cases worker with
    | created code =>
      simp only [resumedFate, fateOf, Recoverable, closed_events, Fate.stored]
      simp only [Prod.mk.injEq, Option.some.injEq, iff_false, not_and]
      intro _ hcode
      omega
    | running =>
      simp [resumedFate, fateOf, Recoverable]
    | exited code =>
      cases orphaned with
      | false => simp [resumedFate, fateOf, Recoverable]
      | true =>
        simp only [resumedFate, fateOf, Recoverable, if_true, closed_events, Fate.stored]
        simp only [Prod.mk.injEq, Option.some.injEq, Bool.true_eq_false, iff_false, not_and]
        intro _ hcode
        omega

def found (id : String) (startFails : Option Nat) (timeout : Int)
    (before during : List ContainerEvent) : Pair :=
  during.foldl Pair.next (uninterrupted id startFails timeout before).pair

/-- After every history and every restart, the state and the exit code stored for the job
are those of the same history without a restart exactly if the restart finds recoverable
containers. -/
theorem restarted_stored_iff (id : String) (startFails : Option Nat) (timeout : Int)
    (before during after : List ContainerEvent)
    (hlives : Lives (uninterrupted id startFails timeout before).pair during) :
    (restarted id startFails timeout before during after).stored =
        (uninterrupted id startFails timeout (before ++ during ++ after)).stored ↔
      Recoverable (found id startFails timeout before during) := by
  obtain ⟨hstart, hsf⟩ := fits_start id startFails timeout
  generalize hw : uninterrupted id startFails timeout before = w at hlives
  have hfits : Fits w := by
    rw [← hw]
    exact hstart.events before
  have hsfw : w.startFails = startFails := by
    rw [← hw]
    exact (events_frame before _).1.trans hsf
  obtain ⟨hm, hv⟩ := hfits
  rw [hsfw] at hm hv
  obtain ⟨hfate, hv'⟩ := fateOf_events hv hlives
  -- the uninterrupted service
  have hplain : (uninterrupted id startFails timeout (before ++ during ++ after)).stored =
      some (after.foldl (Fate.step startFails)
        (fateOf startFails (during.foldl Pair.next w.pair))).stored := by
    have hend := (hm.events during).events after
    rw [(events_frame during w).1, hsfw, ← hfate] at hend
    rw [uninterrupted, List.foldl_append, List.foldl_append]
    rw [uninterrupted] at hw
    rw [hw]
    exact stored_of_matches hend
  -- the restarted one
  have hrestart : (restarted id startFails timeout before during after).stored =
      some (after.foldl (Fate.step startFails)
        (resumedFate startFails (during.foldl Pair.next w.pair))).stored := by
    have hup : Matches ({ w.down with pair := during.foldl Pair.next w.pair } : World).up
        (resumedFate startFails (during.foldl Pair.next w.pair)) := by
      have hsf' : w.down.startFails = startFails := hsfw
      rw [← hsf']
      exact matches_up rfl rfl (hsf' ▸ hv')
    have hend := hup.events after
    rw [up_startFails] at hend
    have hsf' : ({ w.down with pair := during.foldl Pair.next w.pair } : World).startFails =
        startFails := hsfw
    rw [hsf'] at hend
    rw [uninterrupted] at hw
    rw [restarted, hw, down_events]
    exact stored_of_matches hend
  rw [hplain, hrestart, found, hw, Option.some.injEq]
  exact resumed_stored_iff after hv'

/-- The worker fails while the service is down. -/
theorem restarted_stored_failure :
    (restarted "a" none 0 [.healthy] [.workerExit 3] [.sidecarExit]).stored =
      (uninterrupted "a" none 0 ([.healthy] ++ [.workerExit 3] ++ [.sidecarExit])).stored := by
  have hrunning : (uninterrupted "a" none 0 [.healthy]).pair.worker = .running := by decide
  have hlives : Lives (uninterrupted "a" none 0 [.healthy]).pair [.workerExit 3] :=
    ⟨fun _ _ c => by simp [hrunning], trivial⟩
  exact (restarted_stored_iff "a" none 0 [.healthy] [.workerExit 3] [.sidecarExit] hlives).mpr
    (by decide)

/-- The sidecar fails before the worker has started: without a restart the job has failed,
after a restart it counts as completed. -/
theorem restarted_stored_differs :
    (restarted "a" none 0 [] [.sidecarExit] []).stored = some (.completed, some 0) ∧
      (uninterrupted "a" none 0 ([] ++ [.sidecarExit] ++ [])).stored =
        some (.failed, some (-1)) := by
  decide

end Orchestrator.Job.Docker

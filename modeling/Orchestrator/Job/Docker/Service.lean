/-
  Orchestrator.Job.Docker.Service

  A Docker job's containers and the jobs service next to them.

  The containers go on without the service: `Pair` is their state and `ContainerEvent`
  what happens to them.  While the service is up, its watch reacts to each event at once
  and its signals go to the store; a restart loses the store and rebuilds it from the
  containers (`Orchestrator.reconcile`).

  The abstract layer is `Fate`: what the service knows of a job.  `fateOf` is the fate the
  containers call for; an uninterrupted service always has it (`Fits`).

  Inspections are taken to succeed and the event stream not to break; an expired deadline
  appears in a history as the exit of the worker it causes.
-/

import Orchestrator.Job.Docker.Watcher
import Orchestrator.Job.Docker.Calls

namespace Orchestrator.Job.Docker

open Lifecycle MemoryStore

/-! ## The containers -/

inductive SidecarState where
  | starting
  | healthy
  | exited
  deriving DecidableEq, Repr

inductive WorkerState where
  /-- Not running yet; a failed start leaves an exit code. -/
  | created (exitCode : Nat)
  | running
  | exited (exitCode : Nat)
  deriving DecidableEq, Repr

structure Pair where
  sidecar : SidecarState
  worker : WorkerState
  /-- The sidecar ended while the worker was running. -/
  orphaned : Bool
  deriving DecidableEq, Repr

inductive ContainerEvent where
  | healthy
  | workerExit (code : Nat)
  | sidecarExit
  deriving DecidableEq, Repr

/-- An event of the containers; `none` if it cannot happen to them now. -/
def Pair.step (p : Pair) : ContainerEvent → Option Pair
  | .healthy => if p.sidecar = .starting then some { p with sidecar := .healthy } else none
  | .workerExit code =>
    if p.worker = .running then some { p with worker := .exited code } else none
  | .sidecarExit =>
    if p.sidecar ≠ .exited then
      some { p with sidecar := .exited, orphaned := p.worker = .running }
    else none

def newPair : Pair := ⟨.starting, .created 0, false⟩

def Pair.sidecarSnap (p : Pair) : SidecarSnap :=
  ⟨p.sidecar ≠ .exited, p.sidecar = .healthy⟩

def Pair.workerSnap (p : Pair) : WorkerSnap :=
  match p.worker with
  | .created code => ⟨.created, false, code, false⟩
  | .running => ⟨.running, true, 0, false⟩
  | .exited code => ⟨.exited, false, code, false⟩

/-! ## The service -/

structure World where
  id : String
  /-- The exit code a failing start of the worker leaves; `none` if the worker starts. -/
  startFails : Option Nat
  timeout : Int
  pair : Pair
  store : MemoryStore DockerHandle Nat
  /-- The job's watch, if the service is up and has one. -/
  watch : Option Watch

/-- `_ = ctrl.Apply(..)`. -/
def applied (store : MemoryStore DockerHandle Nat) (id : String) (s : Signal) :
    MemoryStore DockerHandle Nat :=
  (store.apply 0 id s).1

namespace World

/-- What an action of the watch does to the containers and the store. -/
def act (w : World) : Action → World
  | .emit s => { w with store := applied w.store w.id s }
  | .startWorker true => { w with pair := { w.pair with worker := .running } }
  | .startWorker false =>
    { w with pair := { w.pair with worker := .created (w.startFails.getD 0) } }
  | .killWorker =>
    if w.pair.worker = .running then { w with pair := { w.pair with worker := .exited 137 } }
    else w
  | .signalSidecar => w

def feed (w : World) (i : Input) : World :=
  match w.watch with
  | none => w
  | some wt =>
    let (wt, acts) := wt.step i
    acts.foldl act { w with watch := some wt }

/-- What the watch sees of an event. -/
def dockerEvent (w : World) : ContainerEvent → DockerEvent
  | .healthy => .sidecarHealthy w.startFails.isSome
  | .workerExit code => .workerDie (some code) false
  | .sidecarExit => .sidecarDie ""

/-- An event of the containers, and the reaction of the service. -/
def event (w : World) (e : ContainerEvent) : World :=
  match w.pair.step e with
  | none => w
  | some pair => ({ w with pair := pair } : World).feed (.event (w.dockerEvent e))

/-- What a pass of `reconcile` sees. -/
def look (w : World) : Look :=
  ⟨some w.pair.sidecarSnap, "", some w.pair.workerSnap, w.startFails.isSome⟩

/-- The service starts to watch: the first pass of `Watch`. -/
def startWatch (w : World) : World :=
  ({ w with watch := some (newWatch w.timeout) } : World).feed (.reconcile w.look)

/-- The handle of the job's two containers and its volume. -/
def handle (w : World) : DockerHandle := ⟨some 0, some 0, "job-" ++ w.id ++ "-workspace", ""⟩

/-- `Reserve` (its error ignored) and `Commit` on the store. -/
def register (w : World) (cancelWatch : Option Nat) : World :=
  match w.store.reserve 0 w.id with
  | .ok store => { w with store := store.commit w.id w.handle cancelWatch }
  | .error _ => { w with store := w.store.commit w.id w.handle cancelWatch }

/-- The job's containers, and a service that does not know it. -/
def unknown (id : String) (startFails : Option Nat) (timeout : Int) : World :=
  ⟨id, startFails, timeout, newPair, newMemoryStore "job", none⟩

/-- `Run` has started the sidecar. -/
def start (id : String) (startFails : Option Nat) (timeout : Int) : World :=
  ((unknown id startFails timeout).register (some 0)).startWatch

def down (w : World) : World := { w with store := newMemoryStore "job", watch := none }

/-- `Orchestrator.reconcile` for the job's containers. -/
def up (w : World) : World :=
  let sidecarRunning := w.pair.sidecar ≠ .exited
  let workerRunning := w.pair.worker = .running
  let snap := w.pair.workerSnap
  if ¬ sidecarRunning ∧ ¬ workerRunning then
    -- both exited: replay the terminal state, no watch
    let w := w.register none
    let store := applied w.store w.id .started
    let reason := exitReason snap.exitCode snap.oomKilled
    { w with store := applied store w.id (.exited snap.exitCode reason) }
  else
    let w := w.register (some 0)
    let w := if workerRunning then { w with store := applied w.store w.id .started } else w
    w.startWatch

def uninterrupted (id : String) (startFails : Option Nat) (timeout : Int)
    (history : List ContainerEvent) : World :=
  history.foldl event (start id startFails timeout)

/-- The service ends after `before` and is up again after `during`. -/
def restarted (id : String) (startFails : Option Nat) (timeout : Int)
    (before during after : List ContainerEvent) : World :=
  after.foldl event
    (during.foldl event ((before.foldl event (start id startFails timeout)).down)).up

/-- The state and the exit code stored for the job. -/
def stored (w : World) : Option (State × Option Int) :=
  (w.store.get w.id).map fun e => (e.state, e.exitCode)

end World

-- A restart after the worker has failed and before its sidecar is done.
example :
    (World.restarted "a" none 0 [.healthy] [.workerExit 3] [.sidecarExit]).stored =
      some (.failed, some 3) := by decide

/-! ## Fates -/

/-- What the service knows of a job. -/
inductive Fate where
  | waiting
  | running
  | exited (code : Nat)
  | closed (state : State) (code : Int)
  /-- The worker's exit was refused by the store: the job stays accepted for ever. -/
  | lost
  deriving DecidableEq, Repr

def Fate.step (startFails : Option Nat) : Fate → ContainerEvent → Fate
  | .waiting, .healthy => if startFails.isSome then .closed .failed (-1) else .running
  | .waiting, .sidecarExit => .closed .failed (-1)
  | .running, .workerExit code => .exited code
  | .running, .sidecarExit => .closed .failed (-1)
  | .exited code, .sidecarExit => .closed (stateForExit code) code
  | f, _ => f

def Fate.stored : Fate → State × Option Int
  | .waiting => (.accepted, none)
  | .running => (.running, none)
  | .exited code => (stateForExit code, some code)
  | .closed state code => (state, some code)
  | .lost => (.accepted, none)

/-- The fate the containers call for. -/
def fateOf (startFails : Option Nat) (p : Pair) : Fate :=
  match p.sidecar, p.worker with
  | .starting, _ => .waiting
  | .healthy, .created _ => if startFails.isSome then .closed .failed (-1) else .running
  | .healthy, .running => .running
  | .healthy, .exited code => .exited code
  | .exited, .exited code =>
    if p.orphaned then .closed .failed (-1) else .closed (stateForExit code) code
  | .exited, _ => .closed .failed (-1)

/-- The fate a restarted service makes of the containers it finds. -/
def resumedFate (startFails : Option Nat) (p : Pair) : Fate :=
  match p.sidecar, p.worker with
  | .starting, _ => .waiting
  | .healthy, .created _ => if startFails.isSome then .closed .failed (-1) else .running
  | .healthy, .running => .running
  | .healthy, .exited code => if code = 0 then .lost else .exited code
  | .exited, .running => .closed .failed (-1)
  | .exited, .created code => .closed (stateForExit code) code
  | .exited, .exited code => .closed (stateForExit code) code

/-- What a restart needs to find: a sidecar that runs, next to a worker that has not
ended with success, or a sidecar that is done, next to a worker that was started and is
still running or ended before it. -/
def Recoverable (p : Pair) : Prop :=
  match p.sidecar, p.worker with
  | .exited, .created _ => False
  | .exited, .exited _ => p.orphaned = false
  | .exited, .running => True
  | _, .exited code => code ≠ 0
  | _, _ => True

instance : (p : Pair) → Decidable (Recoverable p)
  | ⟨.exited, .created _, _⟩ => inferInstanceAs (Decidable False)
  | ⟨.exited, .exited _, orphaned⟩ => inferInstanceAs (Decidable (orphaned = false))
  | ⟨.starting, .exited code, _⟩ | ⟨.healthy, .exited code, _⟩ =>
    inferInstanceAs (Decidable (code ≠ 0))
  | ⟨.exited, .running, _⟩ | ⟨.starting, .created _, _⟩ | ⟨.starting, .running, _⟩
  | ⟨.healthy, .created _, _⟩ | ⟨.healthy, .running, _⟩ => .isTrue trivial

/-- The worker is started by the service only: it waits until the sidecar is healthy, and
it never runs if it cannot be started.  A worker that runs without its sidecar is an
orphan. -/
structure Valid (startFails : Option Nat) (p : Pair) : Prop where
  starting : p.sidecar = .starting → ∃ code, p.worker = .created code
  fails : startFails.isSome → ∃ code, p.worker = .created code
  orphan : p.sidecar = .exited → p.worker = .running → p.orphaned = true

/-! ## The containers by themselves -/

/-- The containers after an event, if it can happen. -/
def Pair.next (p : Pair) (e : ContainerEvent) : Pair := (p.step e).getD p

/-- A worker that has not been started does not exit. -/
def Lives : Pair → List ContainerEvent → Prop
  | _, [] => True
  | p, e :: rest =>
    (∀ code, e = .workerExit code → ∀ c, p.worker ≠ .created c) ∧ Lives (p.next e) rest

variable {startFails : Option Nat} {p : Pair}

/-- Without a service the containers call for the fate the service would have given them,
unless a worker exits that the service would have started. -/
theorem fateOf_next (hv : Valid startFails p) {e : ContainerEvent}
    (hlives : ∀ code c, e = .workerExit code → p.worker = .created c →
      fateOf startFails p ≠ .running) :
    fateOf startFails (p.next e) = (fateOf startFails p).step startFails e ∧
      Valid startFails (p.next e) := by
  obtain ⟨sidecar, worker, orphaned⟩ := p
  cases e with
  | healthy =>
    cases sidecar with
    | starting =>
      obtain ⟨code, rfl⟩ := hv.starting rfl
      exact ⟨rfl, ⟨fun _ => ⟨code, rfl⟩, fun _ => ⟨code, rfl⟩, nofun⟩⟩
    | healthy =>
      refine ⟨?_, hv⟩
      cases worker with
      | created code => cases startFails <;> rfl
      | _ => rfl
    | exited =>
      refine ⟨?_, hv⟩
      cases worker with
      | exited code => cases orphaned <;> rfl
      | _ => rfl
  | workerExit code =>
    cases worker with
    | created c =>
      have hnot := hlives code c rfl rfl
      refine ⟨?_, hv⟩
      cases sidecar with
      | healthy =>
        cases startFails with
        | none => exact absurd rfl hnot
        | some n => rfl
      | _ => rfl
    | running =>
      have hnf : startFails = none := by
        cases hs : startFails with
        | none => rfl
        | some n =>
          obtain ⟨c, hc⟩ := hv.fails (by simp [hs])
          cases hc
      subst hnf
      cases sidecar with
      | starting =>
        obtain ⟨c, hc⟩ := hv.starting rfl
        cases hc
      | healthy => exact ⟨rfl, ⟨nofun, nofun, nofun⟩⟩
      | exited =>
        -- the exit of an orphan changes nothing any more
        obtain rfl : orphaned = true := hv.orphan rfl rfl
        exact ⟨rfl, ⟨nofun, nofun, nofun⟩⟩
    | exited c =>
      refine ⟨?_, hv⟩
      cases sidecar with
      | starting =>
        obtain ⟨c, hc⟩ := hv.starting rfl
        cases hc
      | healthy => rfl
      | exited => cases orphaned <;> rfl
  | sidecarExit =>
    cases sidecar with
    | starting =>
      obtain ⟨code, rfl⟩ := hv.starting rfl
      exact ⟨rfl, ⟨nofun, fun _ => ⟨code, rfl⟩, nofun⟩⟩
    | healthy =>
      cases worker with
      | created code =>
        refine ⟨by cases startFails <;> rfl, ⟨fun h => ?_, fun _ => ⟨code, rfl⟩, fun _ h => ?_⟩⟩
        · cases h
        · cases h
      | running => exact ⟨rfl, ⟨nofun, hv.fails, fun _ _ => rfl⟩⟩
      | exited code => exact ⟨rfl, ⟨nofun, hv.fails, nofun⟩⟩
    | exited =>
      refine ⟨?_, hv⟩
      cases worker with
      | exited code => cases orphaned <;> rfl
      | _ => rfl

/-! ## The store -/

/-- The store has an entry for the id in this state, with this exit code. -/
def Holds (store : MemoryStore DockerHandle Nat) (id : String) (state : State)
    (code : Option Int) : Prop :=
  ∃ e, store.entries id = some e ∧ e.released = false ∧ e.entry.state = state ∧
    e.entry.exitCode = code

section

variable {store : MemoryStore DockerHandle Nat} {id : String} {state : State}
  {code : Option Int}

theorem Holds.taken {s : Signal} {state' : State} {code' : Option Int} {msg : String}
    (h : Holds store id state code) (ht : target s = some (state', code', msg))
    (hok : state' ∈ validTransitions state) :
    Holds (applied store id s) id state' (if code'.isSome then code' else code) := by
  obtain ⟨e, he, hr, rfl, rfl⟩ := h
  have happly : store.apply 0 id s =
      (store.set id (some { e with entry := moved e.entry 0 state' code' msg }), .ok ()) := by
    simp [apply, ht, he, hr, validateTransition, hok]
  rw [applied, happly]
  exact ⟨_, entries_set_self _ _ _, hr, rfl, rfl⟩

theorem Holds.refused {s : Signal} (h : Holds store id state code)
    (hno : ∀ state' code' msg, target s = some (state', code', msg) →
      state' ∉ validTransitions state) :
    applied store id s = store := by
  obtain ⟨e, he, hr, rfl, rfl⟩ := h
  cases ht : target s with
  | none => simp [applied, apply, ht]
  | some t =>
    obtain ⟨state', code', msg⟩ := t
    have hnot := hno state' code' msg ht
    simp [applied, apply, ht, he, hr, validateTransition, hnot]

theorem Holds.started (h : Holds store id .accepted code) :
    Holds (applied store id .started) id .running code := by
  have ht : target .started = some (.running, none, "") := rfl
  exact h.taken ht (by decide)

theorem Holds.failed (reason : String) (h : Holds store id state code)
    (hlive : state = .accepted ∨ state = .running) :
    Holds (applied store id (.failed reason)) id .failed (some (-1)) := by
  have ht : target (.failed reason) = some (.failed, some (-1), reason) := rfl
  refine h.taken ht ?_
  rcases hlive with rfl | rfl <;> decide

/-- From `accepted` only a failure is taken. -/
theorem Holds.exited (c : Int) (reason : ExitReason) (h : Holds store id state code)
    (hlive : state = .running ∨ state = .accepted ∧ c ≠ 0) :
    Holds (applied store id (.exited c reason)) id (stateForExit c) (some c) := by
  have ht : target (.exited c reason) = some (stateForExit c, some c, "") := rfl
  refine h.taken ht ?_
  rcases hlive with rfl | ⟨rfl, hc⟩
  · unfold stateForExit
    split <;> decide
  · rw [stateForExit, if_neg hc]
    decide

theorem Holds.success_refused (reason : ExitReason) (h : Holds store id .accepted code) :
    applied store id (.exited 0 reason) = store := by
  apply h.refused
  rintro state' code' msg hx
  cases hx
  decide

end

/-! ## The service has the fate its containers call for -/

/-- A watch that follows the events, with these two flags. -/
def Follows (watch : Option Watch) (started exited : Bool) : Prop :=
  ∃ wt, watch = some wt ∧ wt.phase = .stream ∧ wt.st.isWorkerStarted = started ∧
    wt.st.isWorkerExited = exited

/-- No watch, or one that has returned. -/
def Ended (watch : Option Watch) : Prop := ∀ wt, watch = some wt → wt.phase = .returned

/-- The service knows this fate, and its containers are in the state that goes with it. -/
def Matches (w : World) (f : Fate) : Prop :=
  Holds w.store w.id f.stored.1 f.stored.2 ∧
    match f with
    | .waiting =>
      Follows w.watch false false ∧ w.pair.sidecar = .starting ∧ w.pair.worker ≠ .running
    | .running =>
      Follows w.watch true false ∧ w.pair.sidecar = .healthy ∧ w.pair.worker = .running
    | .exited code =>
      Follows w.watch true true ∧ w.pair.sidecar = .healthy ∧ w.pair.worker = .exited code
    | .closed _ _ => Ended w.watch
    | .lost =>
      Ended w.watch ∨
        Follows w.watch true true ∧ w.pair.sidecar = .healthy ∧ w.pair.worker = .exited 0

/-- A watch that follows the events reacts to one, and goes on or returns. -/
theorem event_react {w : World} {p' : Pair} {e : ContainerEvent} {started exited : Bool}
    (hs : w.pair.step e = some p') (hw : Follows w.watch started exited) :
    ∃ st : WatcherState, st.isWorkerStarted = started ∧ st.isWorkerExited = exited ∧
      ∀ st' acts done, process st (w.dockerEvent e) = (st', acts, done) →
        ∃ watch, w.event e = acts.foldl World.act { w with pair := p', watch := watch } ∧
          if done then Ended watch else Follows watch st'.isWorkerStarted st'.isWorkerExited := by
  obtain ⟨wt, hw, hp, hst, he⟩ := hw
  refine ⟨wt.st, hst, he, fun st' acts done hr => ?_⟩
  have hstep : wt.step (.event (w.dockerEvent e)) = wt.resume (st', acts, done) := by
    simp [Watch.step, hp, hr]
  refine ⟨some (wt.resume (st', acts, done)).1, ?_, ?_⟩
  · simp only [World.event, hs, World.feed, hw, hstep, Watch.resume_snd]
  · cases done with
    | true =>
      intro wt' hwt
      cases hwt
      rfl
    | false => exact ⟨_, rfl, rfl, rfl, rfl⟩

theorem event_ended {w : World} (h : Ended w.watch) (e : ContainerEvent) :
    w.event e = { w with pair := w.pair.next e } := by
  unfold World.event Pair.next
  cases hs : w.pair.step e with
  | none => rfl
  | some p' =>
    simp only [World.feed, Option.getD_some]
    cases hw : w.watch with
    | none => rfl
    | some wt => simp [Watch.step_returned (h wt hw)]

theorem event_impossible {w : World} {e : ContainerEvent} (h : w.pair.step e = none) :
    w.event e = w := by
  simp [World.event, h]

section

variable {w : World}

theorem matches_healthy (h : Matches w .waiting) (hs : w.startFails = none) :
    Matches (w.event .healthy) .running ∧
      (w.event .healthy).pair = { w.pair with sidecar := .healthy, worker := .running } := by
  obtain ⟨hstore, hw, hside, -⟩ := h
  have hstep : w.pair.step .healthy = some { w.pair with sidecar := .healthy } := by
    simp [Pair.step, hside]
  obtain ⟨st, hst, he, hreact⟩ := event_react hstep hw
  obtain ⟨watch, hevent, hfollow⟩ := hreact
    { armDeadline { st with isWorkerStarted := true } with streaming := true }
    [.startWorker true, .emit .started] false (by simp [process, World.dockerEvent, hs, hst])
  rw [hevent]
  refine ⟨⟨hstore.started, ?_, rfl, rfl⟩, rfl⟩
  simpa [he, World.act] using hfollow

theorem matches_healthy_fails (h : Matches w .waiting) {n : Nat} (hs : w.startFails = some n) :
    Matches (w.event .healthy) (.closed .failed (-1)) ∧
      (w.event .healthy).pair = { w.pair with sidecar := .healthy, worker := .created n } := by
  obtain ⟨hstore, hw, hside, -⟩ := h
  have hstep : w.pair.step .healthy = some { w.pair with sidecar := .healthy } := by
    simp [Pair.step, hside]
  obtain ⟨st, hst, he, hreact⟩ := event_react hstep hw
  obtain ⟨watch, hevent, hend⟩ := hreact st
    [.startWorker false, .emit (.failed "failed to start worker")] true
    (by simp [process, World.dockerEvent, hs, hst])
  rw [hevent]
  refine ⟨⟨hstore.failed _ (.inl rfl), hend⟩, ?_⟩
  simp [World.act, hs]

theorem matches_workerExit (h : Matches w .running) (code : Nat) :
    Matches (w.event (.workerExit code)) (.exited code) ∧
      (w.event (.workerExit code)).pair = { w.pair with worker := .exited code } := by
  obtain ⟨hstore, hw, hside, hwork⟩ := h
  have hstep : w.pair.step (.workerExit code) = some { w.pair with worker := .exited code } := by
    simp [Pair.step, hwork]
  obtain ⟨st, hst, he, hreact⟩ := event_react hstep hw
  obtain ⟨watch, hevent, hfollow⟩ := hreact (stopLogStreaming { st with isWorkerExited := true })
    [.signalSidecar, .emit (.exited code (workerExitReason code (st.isWorkerOOM || false) st))]
    false (by simp [process, World.dockerEvent, he, parseExitCode])
  rw [hevent]
  refine ⟨⟨hstore.exited _ _ (.inl rfl), ?_, hside, rfl⟩, rfl⟩
  simpa [stopLogStreaming, hst, World.act] using hfollow

theorem matches_sidecarExit_waiting (h : Matches w .waiting) :
    Matches (w.event .sidecarExit) (.closed .failed (-1)) ∧
      (w.event .sidecarExit).pair = { w.pair with sidecar := .exited, orphaned := false } := by
  obtain ⟨hstore, hw, hside, hwork⟩ := h
  have hstep : w.pair.step .sidecarExit = some { w.pair with sidecar := .exited, orphaned := false } := by
    simp [Pair.step, hside, hwork]
  obtain ⟨st, hst, he, hreact⟩ := event_react hstep hw
  obtain ⟨watch, hevent, hend⟩ := hreact st [.emit (.failed (sidecarFailureReason ""))] true
    (by simp [process, World.dockerEvent, hst])
  rw [hevent]
  exact ⟨⟨hstore.failed _ (.inl rfl), hend⟩, rfl⟩

/-- The sidecar ends while the worker runs: the worker is killed. -/
theorem matches_sidecarExit_running (h : Matches w .running) :
    Matches (w.event .sidecarExit) (.closed .failed (-1)) ∧
      (w.event .sidecarExit).pair = ⟨.exited, .exited 137, true⟩ := by
  obtain ⟨hstore, hw, hside, hwork⟩ := h
  have hstep : w.pair.step .sidecarExit = some { w.pair with sidecar := .exited, orphaned := true } := by
    simp [Pair.step, hside, hwork]
  obtain ⟨st, hst, he, hreact⟩ := event_react hstep hw
  obtain ⟨watch, hevent, hend⟩ := hreact (stopOrphanedWorker st).1 (stopOrphanedWorker st).2 true
    (by simp [process, World.dockerEvent, hst, he])
  rw [hevent]
  simp only [stopOrphanedWorker, List.foldl, World.act, hwork, if_true]
  exact ⟨⟨hstore.failed _ (.inr rfl), hend⟩, trivial⟩

/-- The worker has ended: the watch only waits for the sidecar, and nothing more is stored. -/
theorem event_exited {code : Nat} (hw : Follows w.watch true true)
    (hside : w.pair.sidecar = .healthy) (hwork : w.pair.worker = .exited code) (e : ContainerEvent) :
    (w.event e).store = w.store ∧ (w.event e).pair = w.pair.next e ∧
      if e = .sidecarExit then Ended (w.event e).watch else w.event e = w := by
  cases e with
  | sidecarExit =>
    have hstep : w.pair.step .sidecarExit =
        some { w.pair with sidecar := .exited, orphaned := false } := by
      simp [Pair.step, hside, hwork]
    obtain ⟨st, hst, he, hreact⟩ := event_react hstep hw
    obtain ⟨watch, hevent, hend⟩ := hreact st [.emit .completed] true
      (by simp [process, World.dockerEvent, hst, he])
    rw [hevent, Pair.next, hstep]
    exact ⟨rfl, rfl, hend⟩
  | _ =>
    rw [event_impossible (by simp [Pair.step, hside, hwork])]
    exact ⟨rfl, by simp [Pair.next, Pair.step, hside, hwork], rfl⟩

theorem act_frame (w : World) (a : Action) :
    (w.act a).startFails = w.startFails ∧ (w.act a).id = w.id := by
  unfold World.act
  repeat' split
  all_goals exact ⟨rfl, rfl⟩

theorem acts_frame (acts : List Action) (w : World) :
    (acts.foldl World.act w).startFails = w.startFails ∧ (acts.foldl World.act w).id = w.id := by
  induction acts generalizing w with
  | nil => exact ⟨rfl, rfl⟩
  | cons a acts ih =>
    obtain ⟨hs, hid⟩ := ih (w.act a)
    obtain ⟨hs', hid'⟩ := act_frame w a
    exact ⟨hs.trans hs', hid.trans hid'⟩

theorem feed_frame (w : World) (i : Input) :
    (w.feed i).startFails = w.startFails ∧ (w.feed i).id = w.id := by
  unfold World.feed
  split
  · exact ⟨rfl, rfl⟩
  · exact acts_frame _ _

theorem event_frame (w : World) (e : ContainerEvent) :
    (w.event e).startFails = w.startFails ∧ (w.event e).id = w.id := by
  unfold World.event
  split
  · exact ⟨rfl, rfl⟩
  · exact feed_frame _ _

/-- The containers after an event that the service reacts to: it starts the worker, and kills
one that is orphaned. -/
def Fate.next (startFails : Option Nat) (f : Fate) (p : Pair) (e : ContainerEvent) : Pair :=
  match f, e with
  | .waiting, .healthy => { p with sidecar := .healthy, worker := startFails.elim .running .created }
  | .running, .sidecarExit => ⟨.exited, .exited 137, true⟩
  | _, _ => p.next e

/-- The service follows the fate of its job, event by event. -/
theorem Matches.event {f : Fate} (h : Matches w f) (e : ContainerEvent) :
    Matches (w.event e) (f.step w.startFails e) ∧
      (w.event e).pair = f.next w.startFails w.pair e := by
  have himpossible : w.pair.step e = none → w.event e = w ∧ w.pair.next e = w.pair := by
    intro hs
    exact ⟨event_impossible hs, by rw [Pair.next, hs]; rfl⟩
  -- the watch reacts by what it knows, so the cases are those of the fate
  cases f with
  | waiting =>
    obtain ⟨-, -, hside, hwork⟩ := id h
    cases e with
    | healthy =>
      cases hs : w.startFails with
      | none => exact matches_healthy h hs
      | some n => exact matches_healthy_fails h hs
    | workerExit code =>
      obtain ⟨hsame, hnext⟩ := himpossible (by simp [Pair.step, hwork])
      rw [hsame]
      exact ⟨h, hnext.symm⟩
    | sidecarExit =>
      refine ⟨(matches_sidecarExit_waiting h).1, (matches_sidecarExit_waiting h).2.trans ?_⟩
      simp [Fate.next, Pair.next, Pair.step, hside, hwork]
  | running =>
    obtain ⟨-, -, hside, hwork⟩ := id h
    cases e with
    | healthy =>
      obtain ⟨hsame, hnext⟩ := himpossible (by simp [Pair.step, hside])
      rw [hsame]
      exact ⟨h, hnext.symm⟩
    | workerExit code =>
      refine ⟨(matches_workerExit h code).1, (matches_workerExit h code).2.trans ?_⟩
      simp [Fate.next, Pair.next, Pair.step, hwork]
    | sidecarExit => exact matches_sidecarExit_running h
  | exited code =>
    obtain ⟨hstore, hw, hside, hwork⟩ := id h
    obtain ⟨hst, hpair, hwatch⟩ := event_exited hw hside hwork e
    refine ⟨?_, hpair⟩
    cases e with
    | sidecarExit =>
      refine ⟨?_, hwatch⟩
      rw [hst, (event_frame w _).2]
      exact hstore
    | _ =>
      rw [show w.event _ = w from hwatch]
      exact h
  | closed state code =>
    rw [event_ended h.2 e]
    cases e <;> exact ⟨h, rfl⟩
  | lost =>
    -- a lost job has no watch any more, or one that has seen its worker exit
    obtain ⟨hstore, hend | ⟨hw, hside, hwork⟩⟩ := id h
    · rw [event_ended hend e]
      cases e <;> exact ⟨⟨hstore, .inl hend⟩, rfl⟩
    obtain ⟨hst, hpair, hwatch⟩ := event_exited hw hside hwork e
    refine ⟨?_, hpair⟩
    cases e with
    | sidecarExit =>
      refine ⟨?_, .inl hwatch⟩
      rw [hst, (event_frame w _).2]
      exact hstore
    | _ =>
      rw [show w.event _ = w from hwatch]
      exact h

/-- The service has the fate its containers call for. -/
def Fits (w : World) : Prop :=
  Matches w (fateOf w.startFails w.pair) ∧ Valid w.startFails w.pair

theorem Fits.event (h : Fits w) (e : ContainerEvent) : Fits (w.event e) := by
  obtain ⟨hm, hv⟩ := h
  obtain ⟨hnext, hpair⟩ := hm.event e
  suffices hfate : fateOf w.startFails (w.event e).pair =
      (fateOf w.startFails w.pair).step w.startFails e ∧ Valid w.startFails (w.event e).pair by
    rw [Fits, (event_frame w e).1, hfate.1]
    exact ⟨hnext, hfate.2⟩
  -- most events change the containers as if nobody watched
  have hpassive := fateOf_next hv (e := e) (by
    intro code c _ hc hf
    rw [hf] at hm
    exact absurd (hm.2.2.2.symm.trans hc) (by simp))
  rw [hpair]
  generalize fateOf w.startFails w.pair = f at hm hpassive ⊢
  cases f with
  | waiting =>
    cases e with
    | healthy =>
      cases w.startFails with
      | none => exact ⟨rfl, ⟨nofun, nofun, nofun⟩⟩
      | some n => exact ⟨rfl, ⟨nofun, fun _ => ⟨n, rfl⟩, nofun⟩⟩
    | _ => exact hpassive
  | running =>
    cases e with
    | sidecarExit =>
      refine ⟨rfl, ⟨nofun, fun hs => ?_, nofun⟩⟩
      obtain ⟨c, hc⟩ := hv.fails hs
      exact absurd (hm.2.2.2.symm.trans hc) (by simp)
    | _ => exact hpassive
  | _ => exact hpassive

end

end Orchestrator.Job.Docker

/-
  Orchestrator.Lifecycle.Store

  The state machine of a run-to-completion workload (`internal/lifecycle`): the signals a
  watcher emits, the entry they move, and the store that keeps the entries.  `store_runs`
  is what holds over every sequence of calls.

  Durations are left out of `Signal.exited`: nothing of the store reads them.
-/

import Mathlib.Logic.Function.Basic

namespace Orchestrator.Lifecycle

/-! ## Signals -/

inductive Stream where
  | stdout
  | stderr
  deriving DecidableEq, Repr

/-- Why a worker ended, as far as the backend can attest (`ExitReasonOOM`, ..). -/
inductive ExitReason where
  | none
  | oom
  | timeout
  deriving DecidableEq, Repr

/-- The sealed set of signals a lifecycle watcher emits. -/
inductive Signal where
  | started
  | exited (exitCode : Int) (reason : ExitReason)
  | failed (reason : String)
  | completed
  | logLine (stream : Stream) (lines : List String)
  deriving DecidableEq, Repr

/-! ## Entries and their transitions -/

inductive State where
  | accepted
  | running
  | completed
  | failed
  | cancelled
  deriving DecidableEq, Repr

def State.text : State → String
  | .accepted => "accepted"
  | .running => "running"
  | .completed => "completed"
  | .failed => "failed"
  | .cancelled => "cancelled"

/-- The state of a workload whose worker has exited: the exit code is the whole rule. -/
def stateForExit (code : Int) : State :=
  if code = 0 then .completed else .failed

/-- The edges of the state machine. -/
def validTransitions : State → List State
  | .accepted => [.running, .failed, .cancelled]
  | .running => [.completed, .failed, .cancelled]
  | _ => []

def validateTransition (source target : State) : Except String Unit :=
  if target ∈ validTransitions source then .ok ()
  else .error ("invalid state transition: " ++ source.text ++ " -> " ++ target.text)

structure Entry where
  id : String
  state : State
  exitCode : Option Int
  error : String
  createdAt : Nat
  updatedAt : Nat
  deriving DecidableEq, Repr

/-- The states the machine never leaves. -/
def State.terminal (s : State) : Bool :=
  s = .completed || s = .failed || s = .cancelled

/-! ## The store -/

/-- The record of one id; `W` stands for the function that cancels its watch. -/
structure StoreEntry (T W : Type) where
  entry : Entry
  handle : T
  cancelWatch : Option W
  released : Bool

structure Handle (T W : Type) where
  cancelWatch : Option W
  runtime : T

structure MemoryStore (T W : Type) where
  kind : String
  entries : String → Option (StoreEntry T W)

variable {T W : Type}

def newMemoryStore (kind : String) : MemoryStore T W := ⟨kind, fun _ => none⟩

namespace MemoryStore

def set (c : MemoryStore T W) (id : String) (e : Option (StoreEntry T W)) : MemoryStore T W :=
  { c with entries := fun i => if i = id then e else c.entries i }

/-- Claim an id and seed it at `accepted`; the handle is the zero value until `commit`. -/
def reserve [Inhabited T] (c : MemoryStore T W) (now : Nat) (id : String) :
    Except String (MemoryStore T W) :=
  match c.entries id with
  | some _ => .error (c.kind ++ " already exists")
  | none =>
    .ok (c.set id (some
      { entry :=
          { id := id, state := .accepted, exitCode := none, error := "",
            createdAt := now, updatedAt := now }
        handle := default
        cancelWatch := none
        released := false }))

/-- Store the runtime handle of a reserved id; without an entry nothing happens. -/
def commit (c : MemoryStore T W) (id : String) (runtime : T) (cancelWatch : Option W) :
    MemoryStore T W :=
  match c.entries id with
  | none => c
  | some e => c.set id (some { e with handle := runtime, cancelWatch := cancelWatch })

/-- What a signal asks for: the target state, the exit code and the error text. -/
def target : Signal → Option (State × Option Int × String)
  | .started => some (.running, none, "")
  | .exited code _ => some (stateForExit code, some code, "")
  | .failed reason => some (.failed, some (-1), reason)
  | .completed => none
  | .logLine _ _ => none

/-- The entry in its next state. -/
def moved (e : Entry) (now : Nat) (state : State) (exitCode : Option Int) (errMsg : String) :
    Entry :=
  { e with
    state := state
    updatedAt := now
    -- a nil exit code and an empty text leave the old values in place
    exitCode := if exitCode.isSome then exitCode else e.exitCode
    error := if errMsg ≠ "" then errMsg else e.error }

/-- The store after a signal, and the error of a signal that is refused. -/
def apply (c : MemoryStore T W) (now : Nat) (id : String) (s : Signal) :
    MemoryStore T W × Except String Unit :=
  match target s with
  | none => (c, .ok ())
  | some (state, exitCode, errMsg) =>
    match c.entries id with
    | none => (c, .error (c.kind ++ " " ++ id ++ ": not found or released"))
    | some e =>
      if e.released then (c, .error (c.kind ++ " " ++ id ++ ": not found or released"))
      else
        match validateTransition e.entry.state state with
        | .error err => (c, .error (c.kind ++ " " ++ id ++ ": " ++ err))
        | .ok () =>
          (c.set id (some { e with entry := moved e.entry now state exitCode errMsg }), .ok ())

def release (c : MemoryStore T W) (id : String) :
    MemoryStore T W × Option (Handle T W) :=
  match c.entries id with
  | none => (c, none)
  | some e => (c.set id none, some ⟨e.cancelWatch, e.handle⟩)

def get (c : MemoryStore T W) (id : String) : Option Entry :=
  (c.entries id).map (·.entry)

@[simp] theorem entries_set_self (c : MemoryStore T W) (id : String)
    (e : Option (StoreEntry T W)) : (c.set id e).entries id = e := by
  simp [set]

/-! ## Runs -/

inductive Op (T W : Type) where
  | reserve (now : Nat) (id : String)
  | commit (id : String) (runtime : T) (cancelWatch : Option W)
  | apply (now : Nat) (id : String) (s : Signal)
  | release (id : String)

/-- The exit code of an entry goes with its state. -/
def CodeFits (e : Entry) : Prop :=
  (e.state = .completed → e.exitCode = some 0) ∧
    (e.state = .failed → ∃ code, e.exitCode = some code ∧ code ≠ 0)

/-- What a signal that is taken does to an entry. -/
def Moves (e e' : Entry) : Prop :=
  ∃ now s state exitCode errMsg, target s = some (state, exitCode, errMsg) ∧
    state ∈ validTransitions e.state ∧ e' = moved e now state exitCode errMsg

theorem Moves.codeFits {e e' : Entry} (h : Moves e e') : CodeFits e' := by
  obtain ⟨now, s, state, exitCode, errMsg, ht, -, rfl⟩ := h
  cases s with
  | started =>
    cases ht
    exact ⟨nofun, nofun⟩
  | exited code reason =>
    cases ht
    by_cases hcode : code = 0 <;> simp [CodeFits, moved, stateForExit, hcode]
  | failed reason =>
    cases ht
    exact ⟨nofun, fun _ => ⟨-1, rfl, by decide⟩⟩
  | completed | logLine stream lines => cases ht

theorem Moves.not_terminal {e e' : Entry} (h : Moves e e') : e.state.terminal = false := by
  obtain ⟨_, _, state, _, _, _, hstate, _⟩ := h
  cases hs : e.state with
  | accepted | running => rfl
  | completed | failed | cancelled =>
    rw [hs] at hstate
    cases hstate

/-- A signal is refused and changes nothing, is ignored, or moves the entry of its id. -/
theorem apply_cases (c : MemoryStore T W) (now : Nat) (id : String) (s : Signal) :
    (c.apply now id s).1 = c ∨ ((c.apply now id s).2 = .ok () ∧ ∃ e entry, c.entries id = some e ∧
      Moves e.entry entry ∧ (c.apply now id s).1 = c.set id (some { e with entry := entry })) := by
  unfold apply
  cases ht : target s with
  | none => exact .inl rfl
  | some t =>
    obtain ⟨state, exitCode, errMsg⟩ := t
    cases he : c.entries id with
    | none => exact .inl rfl
    | some e =>
      dsimp only
      split
      · exact .inl rfl
      rw [validateTransition]
      by_cases hstate : state ∈ validTransitions e.entry.state
      · rw [if_pos hstate]
        exact .inr ⟨rfl, e, _, rfl, ⟨now, s, state, exitCode, errMsg, ht, hstate, rfl⟩, rfl⟩
      · rw [if_neg hstate]
        exact .inl rfl

section

variable [Inhabited T] {c : MemoryStore T W} {op : Op T W} {id : String} {e : StoreEntry T W}
  {more : List (Op T W)}

def step (c : MemoryStore T W) : Op T W → MemoryStore T W
  | .reserve now id =>
    match c.reserve now id with
    | .ok c' => c'
    | .error _ => c
  | .commit id runtime cancelWatch => c.commit id runtime cancelWatch
  | .apply now id s => (c.apply now id s).1
  | .release id => (c.release id).1

def run (c : MemoryStore T W) (ops : List (Op T W)) : MemoryStore T W := ops.foldl step c

theorem step_cases (c : MemoryStore T W) (op : Op T W) (id : String) :
    (c.step op).entries id = c.entries id ∨
    ((∃ now, op = .reserve now id) ∧ c.entries id = none ∧
      ∃ e, (c.step op).entries id = some e ∧ e.entry.state = .accepted) ∨
    (op = .release id ∧ (c.step op).entries id = none) ∨
    ∃ e e', c.entries id = some e ∧ (c.step op).entries id = some e' ∧
      (e'.entry = e.entry ∨ Moves e.entry e'.entry) := by
  cases op with
  | reserve now i => grind [step, reserve, set]
  | commit i runtime cancelWatch => grind [step, commit, set]
  | apply now i s =>
    rcases apply_cases c now i s with hsame | ⟨-, e, entry, he, hmoves, hset⟩
    · exact .inl (by rw [step, hsame])
    · rw [step, hset]
      by_cases hi : id = i
      · subst hi
        exact .inr (.inr (.inr ⟨e, _, he, entries_set_self _ _ _, .inr hmoves⟩))
      · exact .inl (if_neg hi)
  | release i => grind [step, release, set]

theorem run_codeFits (h : ∀ id e, c.entries id = some e → CodeFits e.entry) (ops : List (Op T W)) :
    ∀ id e, (c.run ops).entries id = some e → CodeFits e.entry := by
  induction ops generalizing c with
  | nil => exact h
  | cons op ops ih =>
    refine ih fun id e he => ?_
    obtain hsame | ⟨-, -, e', he', hstate⟩ | ⟨-, hnone⟩ | ⟨e₀, e', hold, hnew, hentry⟩ :=
      step_cases c op id
    · exact h id e (hsame.symm.trans he)
    · cases he'.symm.trans he
      simp [CodeFits, hstate]
    · cases hnone.symm.trans he
    cases hnew.symm.trans he
    obtain hkept | hmoves := hentry
    · rw [hkept]
      exact h id e₀ hold
    · exact hmoves.codeFits

/-- A terminal entry stays as it is until it is released. -/
theorem run_terminal (h : c.entries id = some e) (ht : e.entry.state.terminal = true)
    (hmore : .release id ∉ more) : ∃ e', (c.run more).entries id = some e' ∧ e'.entry = e.entry := by
  induction more generalizing c e with
  | nil => exact ⟨e, h, rfl⟩
  | cons op more ih =>
    simp only [List.mem_cons, not_or] at hmore
    have hstep : ∃ e', (c.step op).entries id = some e' ∧ e'.entry = e.entry := by
      obtain hsame | ⟨-, hnone, -⟩ | ⟨rfl, -⟩ | ⟨e₀, e', hold, hnew, hentry⟩ := step_cases c op id
      · exact ⟨e, hsame.trans h, rfl⟩
      · cases h.symm.trans hnone
      · exact absurd rfl hmore.1
      cases h.symm.trans hold
      refine ⟨e', hnew, ?_⟩
      obtain hkept | hmoves := hentry
      · exact hkept
      · rw [hmoves.not_terminal] at ht
        cases ht
    obtain ⟨e', he', heq⟩ := hstep
    rw [← heq] at ht ⊢
    exact ih he' ht hmore.2

/-- A released id has no entry until it is reserved again. -/
theorem run_released (h : c.entries id = none) (hmore : ∀ now, .reserve now id ∉ more) :
    (c.run more).entries id = none := by
  induction more generalizing c with
  | nil => exact h
  | cons op more ih =>
    simp only [List.mem_cons, not_or] at hmore
    refine ih ?_ fun now => (hmore now).2
    obtain hsame | ⟨⟨now, rfl⟩, -⟩ | ⟨-, hnone⟩ | ⟨e₀, -, hsome, -⟩ := step_cases c op id
    · exact hsame.trans h
    · exact absurd rfl (hmore now).1
    · exact hnone
    · cases h.symm.trans hsome

/-- **What holds over every run of the store.**  A terminal entry stays as it is until it is
    released, the exit code goes with the state, a signal that is refused leaves the store as it
    was, and for a released id every signal that would change an entry is refused until the next
    reserve; the other signals are always taken, and change nothing. -/
theorem store_runs (kind : String) (ops more : List (Op T W)) (id : String) :
    let c := (newMemoryStore kind).run ops
    (∀ e, c.entries id = some e → e.entry.state.terminal = true → .release id ∉ more →
      ∃ e', (c.run more).entries id = some e' ∧ e'.entry = e.entry) ∧
    (∀ e, c.entries id = some e → CodeFits e.entry) ∧
    (∀ now s err, (c.apply now id s).2 = .error err → (c.apply now id s).1 = c) ∧
    (∀ now s, target s = none → c.apply now id s = (c, .ok ())) ∧
    ((∀ now, .reserve now id ∉ more) → ∀ now s, target s ≠ none →
      ∃ err, (((c.step (.release id)).run more).apply now id s).2 = .error err) := by
  refine ⟨fun e => run_terminal, run_codeFits (fun _ _ h => by cases h) ops id, ?_, ?_, ?_⟩
  · intro now s err herr
    rcases apply_cases ((newMemoryStore kind).run ops) now id s with hsame | ⟨hok, -⟩
    · exact hsame
    · cases hok.symm.trans herr
  · intro now s ht
    rw [apply, ht]
  · intro hmore now s ht
    have hnone := run_released (c := ((newMemoryStore kind).run ops).step (.release id))
      (by grind [step, release, set]) hmore
    obtain ⟨t, ht⟩ := Option.ne_none_iff_exists'.mp ht
    simp only [apply, ht, hnone]
    exact ⟨_, rfl⟩

/-- A signal that the store ignores is taken for a released id. -/
theorem released_takes_completed :
    let c : MemoryStore Unit Unit :=
      (newMemoryStore "job").run [.reserve 0 "a", .apply 1 "a" .started, .release "a"]
    c.apply 2 "a" .completed = (c, .ok ()) := rfl

end
end MemoryStore
end Orchestrator.Lifecycle

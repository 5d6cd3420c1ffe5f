/-
  Orchestrator.Lib.Proc

  Programs that call a shared server, and the rules of what they rely on and guarantee.

  A `Proc` is a tree of calls: a program is done, or it makes a call and goes on with the
  answer.  The server is a function `serve` of its state, a call and the fate of the call
  (whether it gets through).  Several programs run in a `World`; an event starts one, lets
  one make its next call, or ends one where it stands.

  `Safe C Q p log s` is the judgement of the specifications: whatever the others do within
  `C.rely` before each call of `p`, if the schedule lets `p` call only as `C.allowed` says,
  then every call of `p` changes the server's state within `C.guar`, and `p` returns in
  `Q`.  `log` is the list of the calls `p` has made so far.
-/

import Mathlib.Logic.Function.Basic
import Orchestrator.Lib.Machine

namespace Orchestrator.Lib

open Function

/-- Programs that make calls `κ`, answered in `ρ`, and return an `α`. -/
inductive Proc (κ : Type) (ρ : κ → Type) (α : Type) : Type where
  | done (a : α)
  | call (k : κ) (next : ρ k → Proc κ ρ α)

namespace Proc

variable {κ σ φ α β ε : Type} {ρ : κ → Type}

/-- Go on with what a program returned. -/
def bind : Proc κ ρ α → (α → Proc κ ρ β) → Proc κ ρ β
  | done a, f => f a
  | call k next, f => call k fun r => bind (next r) f

instance : Monad (Proc κ ρ) where
  pure := done
  bind := bind

def perform (k : κ) : Proc κ ρ (ρ k) := call k done

/-- What a program relies on, when it is let to call, and what it guarantees. -/
structure Contract (σ κ φ : Type) where
  rely : σ → σ → Prop
  allowed : List κ → σ → κ → φ → Prop
  guar : σ → σ → Prop

/-- The others may do nothing, and one thing after another. -/
structure Contract.Lawful (C : Contract σ κ φ) : Prop where
  refl : ∀ s, C.rely s s
  trans : ∀ s s' s'', C.rely s s' → C.rely s' s'' → C.rely s s''

variable (serve : σ → (k : κ) → φ → ρ k × σ)

/-- Every call is within the guarantee, and the program returns in `Q`. -/
def Safe (C : Contract σ κ φ) (Q : List κ → α → σ → Prop) : Proc κ ρ α → List κ → σ → Prop
  | done a, log, s => Q log a s
  | call k next, log, s => ∀ s', C.rely s s' → ∀ f, C.allowed log s' k f →
      C.guar s' (serve s' k f).2 ∧
        Safe C Q (next (serve s' k f).1) (log ++ [k]) (serve s' k f).2

variable {serve} {C : Contract σ κ φ} {Q Q' : List κ → α → σ → Prop}

theorem Safe.mono {p : Proc κ ρ α} {log : List κ} {s : σ} (h : Safe serve C Q p log s)
    (hq : ∀ log a s, Q log a s → Q' log a s) : Safe serve C Q' p log s := by
  induction p generalizing log s with
  | done a => exact hq log a s h
  | call k next ih =>
    intro s' hrely f hallowed
    obtain ⟨hguar, hnext⟩ := h s' hrely f hallowed
    exact ⟨hguar, ih _ hnext⟩

/-- Sequencing: the second program starts where the first one returned. -/
theorem Safe.bind {p : Proc κ ρ α} {g : α → Proc κ ρ β} {R : List κ → β → σ → Prop}
    {log : List κ} {s : σ} (h : Safe serve C Q p log s)
    (hg : ∀ log a s, Q log a s → Safe serve C R (g a) log s) :
    Safe serve C R (p.bind g) log s := by
  induction p generalizing log s with
  | done a => exact hg log a s h
  | call k next ih =>
    intro s' hrely f hallowed
    obtain ⟨hguar, hnext⟩ := h s' hrely f hallowed
    exact ⟨hguar, ih _ hnext⟩

/-- What the others and the program itself keep holds when the program returns. -/
theorem Safe.keeps (I : σ → Prop) (hrely : ∀ s s', C.rely s s' → I s → I s')
    (hguar : ∀ s s', C.guar s s' → I s → I s') {p : Proc κ ρ α} {log : List κ} {s : σ}
    (h : Safe serve C Q p log s) (hs : I s) :
    Safe serve C (fun log a s => Q log a s ∧ I s) p log s := by
  induction p generalizing log s with
  | done a => exact ⟨h, hs⟩
  | call k next ih =>
    intro s' hinter f hallowed
    obtain ⟨hstep, hnext⟩ := h s' hinter f hallowed
    exact ⟨hstep, ih _ hnext (hguar _ _ hstep (hrely s s' hinter hs))⟩

/-- A program that is about to call is not disturbed by the others. -/
theorem Safe.of_rely (htrans : ∀ s s' s'', C.rely s s' → C.rely s' s'' → C.rely s s'') {k : κ}
    {next : ρ k → Proc κ ρ α} {log : List κ} {s s' : σ} (h : Safe serve C Q (.call k next) log s)
    (hrely : C.rely s s') : Safe serve C Q (.call k next) log s' := by
  intro s'' hrely' f hallowed
  exact h s'' (htrans s s' s'' hrely hrely') f hallowed

/-! ## A program alone -/

variable (serve) in
/-- Run a program alone; its `n`-th call meets the fate `fates n` gives it. -/
def exec : Proc κ ρ α → (Nat → κ → φ) → σ → α × σ
  | done a, _, s => (a, s)
  | call k next, fates, s =>
    exec (next (serve s k (fates 0 k)).1) (fun n => fates (n + 1)) (serve s k (fates 0 k)).2

/-- A safe program keeps its word when it runs alone. -/
theorem Safe.exec (hrefl : ∀ s, C.rely s s) {fates : Nat → κ → φ}
    (hallowed : ∀ n log s k, C.allowed log s k (fates n k)) {p : Proc κ ρ α} {log : List κ} {s : σ}
    (h : Safe serve C Q p log s) :
    ∃ log', Q log' (exec serve p fates s).1 (exec serve p fates s).2 := by
  induction p generalizing log s fates with
  | done a => exact ⟨log, h⟩
  | call k next ih =>
    obtain ⟨-, hnext⟩ := h s (hrefl s) (fates 0 k) (hallowed 0 log s k)
    exact ih _ (fun n => hallowed (n + 1)) hnext

/-- Sequencing, where the fate of a call does not depend on its number. -/
theorem exec_bind (fate : κ → φ) (p : Proc κ ρ α) (g : α → Proc κ ρ β) (s : σ) :
    exec serve (p.bind g) (fun _ => fate) s =
      exec serve (g (exec serve p (fun _ => fate) s).1) (fun _ => fate)
        (exec serve p (fun _ => fate) s).2 := by
  induction p generalizing s with
  | done a => rfl
  | call k next ih => exact ih _ _

/-! ## Programs that may fail -/

/-- Programs that return an error or a value. -/
abbrev Fallible (κ : Type) (ρ : κ → Type) (ε : Type) := ExceptT ε (Proc κ ρ)

def ask (k : κ) : Fallible κ ρ ε (ρ k) := ExceptT.mk (.call k fun r => .done (.ok r))

/-- The error a program returned, as a value. -/
def attempt (m : Fallible κ ρ ε α) : Fallible κ ρ ε (Except ε α) :=
  ExceptT.mk (m.run.bind fun r => .done (.ok r))

variable (serve) in
/-- Safe, and in `Q` whenever it returns a value. -/
def Meets (C : Contract σ κ φ) (Q : List κ → α → σ → Prop) (m : Fallible κ ρ ε α)
    (log : List κ) (s : σ) : Prop :=
  Safe serve C (fun log r s => ∀ a, r = .ok a → Q log a s) m.run log s

section

variable {m : Fallible κ ρ ε α} {log : List κ} {s : σ}

theorem meets_pure {a : α} (h : Q log a s) :
    Meets serve C Q (pure a : Fallible κ ρ ε α) log s := by
  intro b hb
  cases hb
  exact h

theorem meets_throw {e : ε} : Meets serve C Q (throw e : Fallible κ ρ ε α) log s := by
  intro b hb
  cases hb

theorem Meets.mono (h : Meets serve C Q m log s) (hq : ∀ log a s, Q log a s → Q' log a s) :
    Meets serve C Q' m log s :=
  Safe.mono h fun log _ s hr a ha => hq log a s (hr a ha)

theorem Meets.bind {g : α → Fallible κ ρ ε β} {R : List κ → β → σ → Prop}
    (h : Meets serve C Q m log s) (hg : ∀ log a s, Q log a s → Meets serve C R (g a) log s) :
    Meets serve C R (m >>= g) log s := by
  refine Safe.bind h ?_
  intro log r s hr
  cases r with
  | ok a => exact hg log a s (hr a rfl)
  | error e =>
    intro b hb
    cases hb

/-- One call: the guarantee, and what follows from the answer. -/
theorem meets_ask {k : κ} {Q : List κ → ρ k → σ → Prop}
    (h : ∀ s', C.rely s s' → ∀ f, C.allowed log s' k f →
      C.guar s' (serve s' k f).2 ∧ Q (log ++ [k]) (serve s' k f).1 (serve s' k f).2) :
    Meets serve C Q (ask k : Fallible κ ρ ε (ρ k)) log s := by
  intro s' hrely f hallowed
  obtain ⟨hguar, hq⟩ := h s' hrely f hallowed
  refine ⟨hguar, ?_⟩
  intro a ha
  cases ha
  exact hq

/-- An error becomes a value. -/
theorem meets_attempt {Q : List κ → Except ε α → σ → Prop}
    (h : Safe serve C Q m.run log s) : Meets serve C Q (attempt m) log s := by
  refine Safe.bind h ?_
  intro log r s hr a ha
  cases ha
  exact hr

/-- A pass over a list; the invariant is about the part of the list that is done. -/
theorem meets_forM {f : β → Fallible κ ρ ε PUnit} (Inv : List β → List κ → σ → Prop)
    (xs : List β)
    (hstep : ∀ pre x post, xs = pre ++ x :: post → ∀ log s, Inv pre log s →
      Meets serve C (fun log _ s => Inv (pre ++ [x]) log s) (f x) log s) (h : Inv [] log s) :
    Meets serve C (fun log _ s => Inv xs log s) (xs.forM f) log s := by
  have hall : ∀ post pre, xs = pre ++ post → ∀ log s, Inv pre log s →
      Meets serve C (fun log _ s => Inv xs log s) (post.forM f) log s := by
    intro post
    induction post with
    | nil =>
      intro pre hxs log s hinv
      rw [List.append_nil] at hxs
      subst hxs
      exact meets_pure hinv
    | cons x post ih =>
      intro pre hxs log s hinv
      apply Meets.bind (hstep pre x post hxs log s hinv)
      intro log _ s hinv'
      exact ih (pre ++ [x]) (by rw [hxs]; simp) log s hinv'
  exact hall xs [] rfl log s h

end

theorem exec_bind_ok {fate : κ → φ} {m : Fallible κ ρ ε α} {g : α → Fallible κ ρ ε β} {s s' : σ}
    {a : α} (h : exec serve m.run (fun _ => fate) s = (.ok a, s')) :
    exec serve (m >>= g).run (fun _ => fate) s = exec serve (g a).run (fun _ => fate) s' := by
  refine (exec_bind fate m.run _ s).trans ?_
  rw [h]
  rfl

theorem exec_ask (fate : κ → φ) (k : κ) (s : σ) :
    exec serve (ask k : Fallible κ ρ ε (ρ k)).run (fun _ => fate) s =
      (.ok (serve s k (fate k)).1, (serve s k (fate k)).2) := rfl

/-! ## Several programs -/

/-- A program that runs: what it was started for, and what it has called. -/
structure Running (τ κ : Type) (ρ : κ → Type) (α : Type) where
  task : τ
  log : List κ
  proc : Proc κ ρ α

/-- The server and the programs that run. -/
structure World (σ τ κ : Type) (ρ : κ → Type) (α : Type) where
  state : σ
  running : Nat → Option (Running τ κ ρ α)
  next : Nat

inductive Happens (τ φ : Type) where
  | start (task : τ)
  | advance (i : Nat) (f : φ)
  | stop (i : Nat)
deriving DecidableEq, Repr

structure Returned (τ α : Type) where
  task : τ
  result : α
deriving DecidableEq, Repr

variable {τ : Type}

/-- Put a program back: it waits for its next call, or it has returned. -/
def World.settle (w : World σ τ κ ρ α) (i : Nat) (r : Running τ κ ρ α) :
    World σ τ κ ρ α × List (Returned τ α) :=
  match r.proc with
  | .done a => ({ w with running := update w.running i none }, [⟨r.task, a⟩])
  | .call _ _ => ({ w with running := update w.running i (some r) }, [])

variable (serve) in
def World.step (prog : τ → Proc κ ρ α) (w : World σ τ κ ρ α) :
    Happens τ φ → World σ τ κ ρ α × List (Returned τ α)
  | .start task => World.settle { w with next := w.next + 1 } w.next ⟨task, [], prog task⟩
  | .advance i f =>
    match w.running i with
    | some ⟨task, log, .call k next⟩ =>
      World.settle { w with state := (serve w.state k f).2 } i
        ⟨task, log ++ [k], next (serve w.state k f).1⟩
    | _ => (w, [])
  | .stop i => ({ w with running := update w.running i none }, [])

def World.init (s : σ) : World σ τ κ ρ α := ⟨s, fun _ => none, 0⟩

/-- What the one guarantees, the other may rely on. -/
def Compatible (serve : σ → (k : κ) → φ → ρ k × σ) (contract : τ → Contract σ κ φ) (t t' : τ) :
    Prop :=
  ∀ s k f, (contract t).guar s (serve s k f).2 → (contract t').rely s (serve s k f).2

/-- Every program that runs is safe, and any two go together. -/
structure World.Held (serve : σ → (k : κ) → φ → ρ k × σ) (contract : τ → Contract σ κ φ)
    (post : τ → α → σ → Prop) (w : World σ τ κ ρ α) : Prop where
  safe : ∀ i r, w.running i = some r →
    Safe serve (contract r.task) (fun _ a s => post r.task a s) r.proc r.log w.state
  waiting : ∀ i r, w.running i = some r → ∃ k next, r.proc = .call k next
  apart : ∀ i j r r', i ≠ j → w.running i = some r → w.running j = some r' →
    Compatible serve contract r.task r'.task

/-- An event keeps to the contracts: a program is started where it is safe and next to programs
    it goes together with, and is let to call as its contract says. -/
def World.Obeys (serve : σ → (k : κ) → φ → ρ k × σ) (contract : τ → Contract σ κ φ)
    (post : τ → α → σ → Prop) (prog : τ → Proc κ ρ α) (w : World σ τ κ ρ α) :
    Happens τ φ → Prop
  | .start task =>
    Safe serve (contract task) (fun _ a s => post task a s) (prog task) [] w.state ∧
      ∀ i r, w.running i = some r →
        Compatible serve contract task r.task ∧ Compatible serve contract r.task task
  | .advance i f => ∀ task log k next, w.running i = some ⟨task, log, .call k next⟩ →
      (contract task).allowed log w.state k f
  | .stop _ => True

section

variable {contract : τ → Contract σ κ φ} {post : τ → α → σ → Prop} {prog : τ → Proc κ ρ α}
  {w : World σ τ κ ρ α}

theorem World.init_held (s : σ) :
    World.Held serve contract post (World.init s : World σ τ κ ρ α) :=
  ⟨nofun, nofun, nofun⟩

theorem World.settle_state (i : Nat) (r : Running τ κ ρ α) :
    (w.settle i r).1.state = w.state := by
  rw [World.settle]
  split <;> rfl

theorem World.settle_next (i : Nat) (r : Running τ κ ρ α) :
    (w.settle i r).1.next = w.next := by
  rw [World.settle]
  split <;> rfl

theorem of_update_none {γ : Type} {f : Nat → Option γ} {i j : Nat} {c : γ}
    (h : update f i none j = some c) : j ≠ i ∧ f j = some c := by
  by_cases hj : j = i
  · rw [hj, update_self] at h
    cases h
  · rw [update_of_ne hj] at h
    exact ⟨hj, h⟩

theorem World.settle_running {i j : Nat} {r r' : Running τ κ ρ α}
    (h : (w.settle i r).1.running j = some r') :
    (j = i ∧ r' = r ∧ ∃ k next, r.proc = .call k next) ∨ (j ≠ i ∧ w.running j = some r') := by
  rw [World.settle] at h
  split at h
  · exact .inr (of_update_none h)
  rename_i k next hproc
  change update w.running i (some r) j = some r' at h
  by_cases hj : j = i
  · rw [hj, update_self] at h
    cases h
    exact .inl ⟨hj, rfl, k, next, hproc⟩
  · rw [update_of_ne hj] at h
    exact .inr ⟨hj, h⟩

theorem World.settle_returned {i : Nat} {r : Running τ κ ρ α} {x : Returned τ α}
    (h : x ∈ (w.settle i r).2) :
    r.proc = .done x.result ∧ x.task = r.task ∧ (w.settle i r).1.running i = none := by
  rw [World.settle] at h ⊢
  split at h
  · rename_i a hproc
    rw [List.mem_singleton] at h
    subst h
    exact ⟨hproc, rfl, update_self ..⟩
  · cases h

/-- Putting a safe program back keeps the others safe, if they are so in the new state. -/
theorem World.Held.settle {i : Nat} {r : Running τ κ ρ α} (hw : ∀ j r', j ≠ i →
      w.running j = some r' →
        Safe serve (contract r'.task) (fun _ a s => post r'.task a s) r'.proc r'.log w.state ∧
          (∃ k next, r'.proc = .call k next) ∧ Compatible serve contract r.task r'.task ∧
            Compatible serve contract r'.task r.task)
    (hothers : ∀ j j' r' r'', j ≠ i → j' ≠ i → j ≠ j' → w.running j = some r' →
      w.running j' = some r'' → Compatible serve contract r'.task r''.task)
    (hr : Safe serve (contract r.task) (fun _ a s => post r.task a s) r.proc r.log w.state) :
    World.Held serve contract post (w.settle i r).1 := by
  refine ⟨?_, ?_, ?_⟩
  · intro j r' hj
    rw [World.settle_state]
    rcases World.settle_running hj with ⟨-, rfl, -⟩ | ⟨hne, hrun⟩
    · exact hr
    · exact (hw j r' hne hrun).1
  · intro j r' hj
    rcases World.settle_running hj with ⟨-, rfl, hcall⟩ | ⟨hne, hrun⟩
    · exact hcall
    · exact (hw j r' hne hrun).2.1
  · intro j j' r' r'' hne hj hj'
    rcases World.settle_running hj with ⟨rfl, rfl, -⟩ | ⟨hji, hrun⟩ <;>
      rcases World.settle_running hj' with ⟨rfl, rfl, -⟩ | ⟨hji', hrun'⟩
    · exact absurd rfl hne
    · exact (hw j' r'' hji' hrun').2.2.1
    · exact (hw j r' hji hrun).2.2.2
    · exact hothers j j' r' r'' hji hji' hne hrun hrun'

theorem World.step_advance {i : Nat} {task : τ} {log : List κ} {k : κ}
    {next : ρ k → Proc κ ρ α} (hrun : w.running i = some ⟨task, log, .call k next⟩) (f : φ) :
    w.step serve prog (.advance i f) =
      World.settle { w with state := (serve w.state k f).2 } i
        ⟨task, log ++ [k], next (serve w.state k f).1⟩ := by
  rw [World.step, hrun]

variable (serve prog) in
/-- A program makes its next call, or there is none to make. -/
theorem World.advance_cases (w : World σ τ κ ρ α) (i : Nat) (f : φ) :
    (∃ task log k next, w.running i = some ⟨task, log, .call k next⟩) ∨
      w.step serve prog (.advance i f) = (w, []) := by
  cases hrun : w.running i with
  | none => exact .inr (by rw [World.step, hrun])
  | some r =>
    obtain ⟨task, log, proc⟩ := r
    cases proc with
    | done a => exact .inr (by rw [World.step, hrun])
    | call k next => exact .inl ⟨task, log, k, next, rfl⟩

variable (serve prog) in
theorem World.step_state (w : World σ τ κ ρ α) (e : Happens τ φ) :
    (∃ i f task log k next, e = .advance i f ∧ w.running i = some ⟨task, log, .call k next⟩ ∧
        (w.step serve prog e).1.state = (serve w.state k f).2) ∨
      (w.step serve prog e).1.state = w.state := by
  cases e with
  | start task => exact .inr (World.settle_state ..)
  | stop i => exact .inr rfl
  | advance i f =>
    rcases World.advance_cases serve prog w i f with ⟨task, log, k, next, hrun⟩ | hidle
    · refine .inl ⟨i, f, task, log, k, next, rfl, hrun, ?_⟩
      rw [World.step_advance hrun, World.settle_state]
    · exact .inr (by rw [hidle])

variable (serve prog) in
/-- Who runs after an event: the program that was started or has called, or one from before. -/
theorem World.step_running {e : Happens τ φ} {j : Nat} {r : Running τ κ ρ α}
    (h : (w.step serve prog e).1.running j = some r) :
    (∃ task, e = .start task ∧ j = w.next ∧ r.task = task) ∨
      ∃ r', w.running j = some r' ∧ r'.task = r.task := by
  cases e with
  | start task =>
    rcases World.settle_running h with ⟨rfl, rfl, -⟩ | ⟨-, hrun⟩
    · exact .inl ⟨task, rfl, rfl, rfl⟩
    · exact .inr ⟨r, hrun, rfl⟩
  | stop i => exact .inr ⟨r, (of_update_none h).2, rfl⟩
  | advance i f =>
    rcases World.advance_cases serve prog w i f with ⟨task, log, k, next, hrun⟩ | hidle
    · rw [World.step_advance hrun] at h
      rcases World.settle_running h with ⟨rfl, rfl, -⟩ | ⟨-, hrun'⟩
      · exact .inr ⟨_, hrun, rfl⟩
      · exact .inr ⟨r, hrun', rfl⟩
    · rw [hidle] at h
      exact .inr ⟨r, h, rfl⟩

theorem World.settle_out (i : Nat) (r : Running τ κ ρ α) :
    (w.settle i r).2 = [] ∨
      ∃ a, (w.settle i r).2 = [⟨r.task, a⟩] ∧ (w.settle i r).1.running i = none := by
  rw [World.settle]
  split
  · exact .inr ⟨_, rfl, update_self ..⟩
  · exact .inl rfl

variable (serve prog) in
/-- Who returns: the program that was started, or one that was running. -/
theorem World.step_out (w : World σ τ κ ρ α) (e : Happens τ φ) :
    (w.step serve prog e).2 = [] ∨ ∃ i task a, (w.step serve prog e).2 = [⟨task, a⟩] ∧
      (w.step serve prog e).1.running i = none ∧
        ((i = w.next ∧ e = .start task) ∨ ∃ r, w.running i = some r ∧ r.task = task) := by
  cases e with
  | start task =>
    rw [World.step]
    rcases World.settle_out w.next _ with hnil | ⟨a, hout, hgone⟩
    · exact .inl hnil
    · exact .inr ⟨w.next, task, a, hout, hgone, .inl ⟨rfl, rfl⟩⟩
  | stop i => exact .inl rfl
  | advance i f =>
    rcases World.advance_cases serve prog w i f with ⟨task, log, k, next, hrun⟩ | hidle
    · rw [World.step_advance hrun]
      rcases World.settle_out i _ with hnil | ⟨a, hout, hgone⟩
      · exact .inl hnil
      · exact .inr ⟨i, task, a, hout, hgone, .inr ⟨_, hrun, rfl⟩⟩
    · exact .inl (by rw [hidle])

variable (serve prog) in
theorem World.step_next (w : World σ τ κ ρ α) (e : Happens τ φ) :
    w.next ≤ (w.step serve prog e).1.next := by
  cases e with
  | start task =>
    rw [World.step, World.settle_next]
    exact Nat.le_succ _
  | stop i => exact Nat.le_refl _
  | advance i f =>
    rcases World.advance_cases serve prog w i f with ⟨task, log, k, next, hrun⟩ | hidle
    · exact Nat.le_of_eq (by rw [World.step_advance hrun, World.settle_next])
    · exact Nat.le_of_eq (by rw [hidle])

/-- Numbers are given out in order. -/
def World.Numbered (w : World σ τ κ ρ α) : Prop := ∀ j r, w.running j = some r → j < w.next

variable (serve prog) in
theorem World.Numbered.step (h : w.Numbered) (e : Happens τ φ) :
    (w.step serve prog e).1.Numbered := by
  intro j r hj
  rcases World.step_running serve prog hj with ⟨task, rfl, rfl, -⟩ | ⟨r', hrun, -⟩
  · rw [World.step, World.settle_next]
    exact Nat.lt_succ_self _
  · exact Nat.lt_of_lt_of_le (h j r' hrun) (World.step_next serve prog w e)

section

variable (h : World.Held serve contract post w) (hlaw : ∀ t, (contract t).Lawful)
include h hlaw

/-- The call of a program that runs is within its guarantee, and what is left of the program is
    safe. -/
theorem World.Held.call {i : Nat} {task : τ} {log : List κ} {k : κ} {next : ρ k → Proc κ ρ α}
    (hrun : w.running i = some ⟨task, log, .call k next⟩) {f : φ}
    (hobeys : w.Obeys serve contract post prog (.advance i f)) :
    (contract task).guar w.state (serve w.state k f).2 ∧
      Safe serve (contract task) (fun _ a s => post task a s) (next (serve w.state k f).1)
        (log ++ [k]) (serve w.state k f).2 :=
  h.safe i _ hrun w.state ((hlaw task).refl _) f (hobeys task log k next hrun)

/-- A program that waits for its call stays safe under the call of another one. -/
theorem World.Held.others {i j : Nat} {task : τ} {log : List κ} {k : κ} {next : ρ k → Proc κ ρ α}
    (hrun : w.running i = some ⟨task, log, .call k next⟩) {f : φ}
    (hguar : (contract task).guar w.state (serve w.state k f).2) {r : Running τ κ ρ α} (hne : j ≠ i)
    (hj : w.running j = some r) :
    Safe serve (contract r.task) (fun _ a s => post r.task a s) r.proc r.log
      (serve w.state k f).2 := by
  have hsafe := h.safe j r hj
  have hrely := h.apart i j _ r hne.symm hrun hj w.state k f hguar
  obtain ⟨k', next', hproc⟩ := h.waiting j r hj
  rw [hproc] at hsafe ⊢
  exact hsafe.of_rely (hlaw r.task).trans hrely

theorem World.Held.step {e : Happens τ φ} (hobeys : w.Obeys serve contract post prog e) :
    World.Held serve contract post (w.step serve prog e).1 := by
  cases e with
  | start task =>
    obtain ⟨hsafe, hcompat⟩ := hobeys
    refine World.Held.settle ?_ ?_ hsafe
    · intro j r _ hj
      exact ⟨h.safe j r hj, h.waiting j r hj, hcompat j r hj⟩
    · intro j j' r r' _ _ hne hj hj'
      exact h.apart j j' r r' hne hj hj'
  | stop i =>
    have hrun : ∀ j r, update w.running i none j = some r → w.running j = some r :=
      fun _ _ hj => (of_update_none hj).2
    exact ⟨fun j r hj => h.safe j r (hrun j r hj), fun j r hj => h.waiting j r (hrun j r hj),
      fun j j' r r' hne hj hj' => h.apart j j' r r' hne (hrun j r hj) (hrun j' r' hj')⟩
  | advance i f =>
    rcases World.advance_cases serve prog w i f with ⟨task, log, k, next, hrun⟩ | hidle
    · obtain ⟨hguar, hsafe⟩ := h.call hlaw hrun hobeys
      rw [World.step_advance hrun]
      refine World.Held.settle ?_ ?_ hsafe
      · intro j r hne hj
        have hto := h.apart i j _ r hne.symm hrun hj
        have hfrom := h.apart j i r _ hne hj hrun
        exact ⟨h.others hlaw hrun hguar hne hj, h.waiting j r hj, hto, hfrom⟩
      · intro j j' r r' _ _ hne hj hj'
        exact h.apart j j' r r' hne hj hj'
    · rw [hidle]
      exact h

/-- A program returns as its specification says. -/
theorem World.Held.returned {e : Happens τ φ} (hobeys : w.Obeys serve contract post prog e)
    {x : Returned τ α} (hx : x ∈ (w.step serve prog e).2) :
    post x.task x.result (w.step serve prog e).1.state := by
  cases e with
  | start task =>
    obtain ⟨hproc, htask, -⟩ := World.settle_returned hx
    have hsafe := hobeys.1
    change prog task = .done x.result at hproc
    rw [hproc] at hsafe
    rw [World.step, World.settle_state, htask]
    exact hsafe
  | stop i => cases hx
  | advance i f =>
    rcases World.advance_cases serve prog w i f with ⟨task, log, k, next, hrun⟩ | hidle
    · obtain ⟨-, hsafe⟩ := h.call hlaw hrun hobeys
      rw [World.step_advance hrun] at hx ⊢
      obtain ⟨hproc, htask, -⟩ := World.settle_returned hx
      simp only at hproc htask
      rw [hproc] at hsafe
      rw [World.settle_state, htask]
      exact hsafe
    · rw [hidle] at hx
      cases hx

end

end

end Proc
end Orchestrator.Lib

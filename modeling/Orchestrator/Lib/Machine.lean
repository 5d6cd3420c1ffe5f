/-
  Orchestrator.Lib.Machine

  Machines that react to inputs: a step takes a state and an input to a new state and a
  list of outputs.

  `run` feeds a list of inputs; `Along ok` says that every input satisfies `ok` in the
  state it meets.  `run_invariant` is the one induction: what a step keeps, about the
  state and everything put out so far, holds after every run.
-/

import Mathlib.Data.List.Basic

namespace Orchestrator.Lib.Machine

variable {σ ι ω : Type}

/-- Feed a list of inputs: the last state, and all outputs. -/
def run (step : σ → ι → σ × List ω) : σ → List ι → σ × List ω
  | s, [] => (s, [])
  | s, i :: rest =>
    ((run step (step s i).1 rest).1, (step s i).2 ++ (run step (step s i).1 rest).2)

/-- Every input satisfies `ok` in the state it meets. -/
def Along (ok : σ → ι → Prop) (step : σ → ι → σ × List ω) : σ → List ι → Prop
  | _, [] => True
  | s, i :: rest => ok s i ∧ Along ok step (step s i).1 rest

variable {step : σ → ι → σ × List ω} {ok : σ → ι → Prop}

instance decidableAlong [∀ s i, Decidable (ok s i)] (s : σ) :
    (inputs : List ι) → Decidable (Along ok step s inputs)
  | [] => .isTrue trivial
  | i :: rest =>
    have := decidableAlong (step s i).1 rest
    inferInstanceAs (Decidable (ok s i ∧ Along ok step (step s i).1 rest))

theorem run_append (s : σ) (xs ys : List ι) :
    run step s (xs ++ ys) =
      ((run step (run step s xs).1 ys).1,
        (run step s xs).2 ++ (run step (run step s xs).1 ys).2) := by
  induction xs generalizing s with
  | nil => rfl
  | cons i xs ih =>
    rw [List.cons_append, run, ih]
    simp [run]

variable {inputs : List ι}

/-- What a step keeps, about the state and everything put out so far, holds after a run. -/
theorem run_invariant (Inv : σ → List ω → Prop)
    (hstep : ∀ s out i, ok s i → Inv s out → Inv (step s i).1 (out ++ (step s i).2)) {s : σ}
    {out : List ω} (hok : Along ok step s inputs) (h : Inv s out) :
    Inv (run step s inputs).1 (out ++ (run step s inputs).2) := by
  induction inputs generalizing s out with
  | nil =>
    rw [run, List.append_nil]
    exact h
  | cons i rest ih =>
    obtain ⟨hi, hrest⟩ := hok
    rw [run, ← List.append_assoc]
    exact ih hrest (hstep s out i hi h)

/-- What a step keeps of the state holds after a run. -/
theorem run_keeps (Inv : σ → Prop) (hstep : ∀ s i, ok s i → Inv s → Inv (step s i).1) {s : σ}
    (hok : Along ok step s inputs) (h : Inv s) : Inv (run step s inputs).1 := by
  induction inputs generalizing s with
  | nil => exact h
  | cons i rest ih => exact ih hok.2 (hstep s i hok.1 h)

theorem Along.mono {ok' : σ → ι → Prop} {s : σ} (h : Along ok step s inputs)
    (himp : ∀ s i, ok s i → ok' s i) : Along ok' step s inputs := by
  induction inputs generalizing s with
  | nil => exact trivial
  | cons i rest ih => exact ⟨himp s i h.1, ih h.2⟩

theorem along_of_forall (h : ∀ s i, ok s i) (s : σ) (inputs : List ι) :
    Along ok step s inputs := by
  induction inputs generalizing s with
  | nil => exact trivial
  | cons i rest ih => exact ⟨h s i, ih (step s i).1⟩

/-- What every step keeps holds after every run. -/
theorem run_preserves (Inv : σ → List ω → Prop)
    (hstep : ∀ s out i, Inv s out → Inv (step s i).1 (out ++ (step s i).2))
    {s : σ} {out : List ω} (inputs : List ι) (h : Inv s out) :
    Inv (run step s inputs).1 (out ++ (run step s inputs).2) := by
  have hall : Along (fun _ _ => True) step s inputs := along_of_forall (fun _ _ => trivial) s inputs
  exact run_invariant Inv (fun s out i _ => hstep s out i) hall h

/-- Two conditions on inputs that agree wherever the invariant holds, along a run that keeps
it. -/
theorem along_iff_along {P : σ → ι → Prop} (Inv : σ → Prop)
    (hkeep : ∀ s i, Inv s → ok s i → Inv (step s i).1) (hiff : ∀ s i, Inv s → (P s i ↔ ok s i))
    {s : σ} (h : Inv s) (inputs : List ι) : Along P step s inputs ↔ Along ok step s inputs := by
  induction inputs generalizing s with
  | nil => exact Iff.rfl
  | cons i rest ih =>
    constructor
    · rintro ⟨hi, hrest⟩
      have hok := (hiff s i h).mp hi
      exact ⟨hok, (ih (hkeep s i h hok)).mp hrest⟩
    · rintro ⟨hi, hrest⟩
      exact ⟨(hiff s i h).mpr hi, (ih (hkeep s i h hi)).mpr hrest⟩

/-- Exactly the runs all of whose inputs are `ok` end well: an `ok` input keeps the
invariant, any other one spoils the run, and what is spoilt stays so. -/
theorem run_iff_along (Inv Good : σ → List ω → Prop)
    (hgood : ∀ s out, Inv s out → Good s out)
    (hkeep : ∀ s out i, ok s i → Inv s out → Inv (step s i).1 (out ++ (step s i).2))
    (hspoil : ∀ s out i, ¬ ok s i → Inv s out → ¬ Good (step s i).1 (out ++ (step s i).2))
    (hstay : ∀ s out i, ¬ Good s out → ¬ Good (step s i).1 (out ++ (step s i).2))
    {s : σ} {out : List ω} (inputs : List ι) (h : Inv s out) :
    Good (run step s inputs).1 (out ++ (run step s inputs).2) ↔ Along ok step s inputs := by
  constructor
  · intro hend
    induction inputs generalizing s out with
    | nil => exact trivial
    | cons i rest ih =>
      rw [run, ← List.append_assoc] at hend
      by_cases hi : ok s i
      · exact ⟨hi, ih (hkeep s out i hi h) hend⟩
      · -- the first input that is not `ok` has already spoilt the rest
        have hbad := hspoil s out i hi h
        exact absurd hend (run_preserves (fun s out => ¬ Good s out) hstay rest hbad)
  · intro hok
    exact hgood _ _ (run_invariant Inv hkeep hok h)

end Orchestrator.Lib.Machine

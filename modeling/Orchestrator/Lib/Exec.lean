/-
  Orchestrator.Lib.Exec

  A fault monad for imperative code and its total-correctness rules.

  `Exec α` returns a value or faults: `bounds` is an index or slice outside its buffer
  (a panic in the modelled language), `fuel` a loop that did not finish within the
  iterations its definition allows.  `Exec.Sat m Q` says that `m` returns, without
  either fault, a value satisfying `Q`.  Code with errors of its own has another error
  type in the place of `Fault`, and `Exec.Runs` for its judgement: it returns a value
  satisfying `Q`, or fails with an error satisfying `E`.

  `loop` is the one loop combinator.  Its rule `loop_sat` takes an invariant
  and a measure: the fuel only has to exceed the measure of the first state.

  `Exec.Both R m m'` relates two runs.  `loop_sooner` is its rule for two loops of which
  the second may stop where the first goes on.
-/

import Mathlib.Order.Basic

namespace Orchestrator.Lib

inductive Fault where
  | bounds
  | fuel
deriving DecidableEq, Repr

abbrev Exec := Except Fault

/-- Kinds of errors that can say that a loop ran out of fuel. -/
class OutOfFuel (ε : Type) where
  fuel : ε

instance : OutOfFuel Fault := ⟨.fuel⟩

/-- What a loop body asks for: another iteration, or an exit with a result. -/
inductive Step (σ ρ : Type) where
  | next (s : σ)
  | done (r : ρ)
deriving DecidableEq, Repr

/-- Run `body` from `s` until it exits, for at most `fuel` iterations. -/
def loop {ε σ ρ : Type} [OutOfFuel ε] (body : σ → Except ε (Step σ ρ)) : Nat → σ → Except ε ρ
  | 0, _ => .error OutOfFuel.fuel
  | fuel + 1, s => do
    match ← body s with
    | .next s' => loop body fuel s'
    | .done r => return r

/-- `for j := lo; j < hi; j++ { body }`. -/
def forRange {ε σ : Type} [OutOfFuel ε] (body : Int → σ → Except ε σ) (lo hi : Int) (s : σ) :
    Except ε σ :=
  loop (fun (st : σ × Int) =>
      if st.2 < hi then do return .next (← body st.2 st.1, st.2 + 1) else .ok (.done st.1))
    ((hi - lo).toNat + 1) (s, lo)

/-- The states a loop passes through. -/
inductive Reach {ε σ ρ : Type} (body : σ → Except ε (Step σ ρ)) : σ → σ → Prop where
  | refl (s : σ) : Reach body s s
  | step {s t u : σ} (h : Reach body s t) (ht : body t = .ok (.next u)) : Reach body s u

/-- `m` returns a value satisfying `Q`. -/
def Exec.Sat {ε α : Type} (m : Except ε α) (Q : α → Prop) : Prop := ∃ a, m = .ok a ∧ Q a

namespace Exec

variable {ε α β σ ρ : Type} {m : Except ε α} {Q : α → Prop}

variable {a : α}

theorem sat_ok (h : Q a) : Sat (.ok a : Except ε α) Q := ⟨a, rfl, h⟩

theorem sat_pure (h : Q a) : Sat (pure a : Except ε α) Q := ⟨a, rfl, h⟩

variable {Q' : α → Prop}

theorem Sat.mono (h : Sat m Q) (hq : ∀ a, Q a → Q' a) : Sat m Q' := by
  obtain ⟨a, ha, hQ⟩ := h
  exact ⟨a, ha, hq a hQ⟩

/-- Sequencing: the postcondition of the first part is the precondition of the
    second. -/
theorem Sat.bind {f : α → Except ε β} {R : β → Prop} (h : Sat m Q)
    (hf : ∀ a, Q a → Sat (f a) R) : Sat (m >>= f) R := by
  obtain ⟨a, rfl, hQ⟩ := h
  exact hf a hQ

theorem Sat.and (h : Sat m Q) (h' : Sat m Q') : Sat m fun a => Q a ∧ Q' a := by
  obtain ⟨a, rfl, hQ⟩ := h
  obtain ⟨b, hb, hQ'⟩ := h'
  cases hb
  exact ⟨a, rfl, hQ, hQ'⟩

theorem Sat.of_eq_ok (h : Sat m Q) (ha : m = .ok a) : Q a := by
  obtain ⟨b, hb, hQ⟩ := h
  rw [ha] at hb
  cases hb
  exact hQ

/-- What comes to a value has come to one in its first part. -/
theorem bind_eq_ok {f : α → Except ε β} {b : β} (h : m >>= f = .ok b) :
    ∃ a, m = .ok a ∧ f a = .ok b := by
  cases m with
  | error e => cases h
  | ok a => exact ⟨a, rfl, h⟩

variable {body : σ → Except ε (Step σ ρ)} {s : σ} {fuel : Nat}

/-! ## Computations that may fail -/

/-- `m` returns a value satisfying `Q`, or fails with an error satisfying `E`. -/
def Runs (E : ε → Prop) (m : Except ε α) (Q : α → Prop) : Prop :=
  (∃ a, m = .ok a ∧ Q a) ∨ ∃ e, m = .error e ∧ E e

variable {E : ε → Prop}

theorem runs_ok (h : Q a) : Runs E (.ok a) Q := .inl ⟨a, rfl, h⟩

theorem runs_pure (h : Q a) : Runs E (pure a) Q := .inl ⟨a, rfl, h⟩

theorem runs_error {e : ε} (h : E e) : Runs E (.error e) Q := .inr ⟨e, rfl, h⟩

theorem runs_self (m : Except ε α) : Runs (fun _ => True) m fun a => m = .ok a := by
  cases m with
  | ok a => exact runs_ok rfl
  | error e => exact runs_error trivial

theorem Runs.mono (h : Runs E m Q) (hq : ∀ a, Q a → Q' a) : Runs E m Q' := by
  rcases h with ⟨a, ha, hQ⟩ | herr
  · exact .inl ⟨a, ha, hq a hQ⟩
  · exact .inr herr

theorem Runs.mono_error {E' : ε → Prop} (h : Runs E m Q) (he : ∀ e, E e → E' e) : Runs E' m Q := by
  rcases h with hok | ⟨e, heq, hE⟩
  · exact .inl hok
  · exact .inr ⟨e, heq, he e hE⟩

theorem Runs.eq_ok (h : Runs E m Q) : Runs E m fun a => m = .ok a ∧ Q a := by
  rcases h with ⟨a, ha, hQ⟩ | herr
  · exact .inl ⟨a, ha, ha, hQ⟩
  · exact .inr herr

theorem Runs.bind {f : α → Except ε β} {R : β → Prop} (h : Runs E m Q)
    (hf : ∀ a, Q a → Runs E (f a) R) : Runs E (m >>= f) R := by
  rcases h with ⟨a, rfl, hQ⟩ | ⟨e, rfl, he⟩
  · exact hf a hQ
  · exact .inr ⟨e, rfl, he⟩

theorem Runs.of_eq_ok (h : Runs E m Q) (ha : m = .ok a) : Q a := by
  rcases h with ⟨b, hb, hQ⟩ | ⟨e, he, -⟩
  · rw [ha] at hb
    cases hb
    exact hQ
  · rw [ha] at he
    cases he

/-- The rule for a loop whose body may fail: an invariant that every iteration keeps while
    it lowers the measure, or leaves with the postcondition.  The loop does not run out of
    fuel. -/
theorem loop_runs [OutOfFuel ε] (Inv : σ → Prop) (μ : σ → Nat) {R : ρ → Prop}
    (hstep : ∀ s, Inv s → Runs E (body s) fun r =>
      match r with
      | .next s' => Inv s' ∧ μ s' < μ s
      | .done v => R v) (hs : Inv s) (hfuel : μ s < fuel) :
    Runs E (loop body fuel s) R := by
  induction fuel generalizing s with
  | zero => exact absurd hfuel (Nat.not_lt_zero _)
  | succ fuel ih =>
    rcases hstep s hs with ⟨r, hr, hpost⟩ | ⟨e, he, hE⟩
    · rw [loop, hr]
      cases r with
      | done v => exact runs_ok hpost
      | next s' =>
        obtain ⟨hinv, hlt⟩ := hpost
        exact ih hinv (by omega)
    · rw [loop, he]
      exact runs_error hE

/-- Total correctness of `loop`: the rule for a body that does not fail. -/
theorem loop_sat [OutOfFuel ε] (Inv : σ → Prop) (μ : σ → Nat) {R : ρ → Prop}
    (hstep : ∀ s, Inv s → Sat (body s) fun r =>
      match r with
      | .next s' => Inv s' ∧ μ s' < μ s
      | .done v => R v) (hs : Inv s) (hfuel : μ s < fuel) :
    Sat (loop body fuel s) R := by
  have hrun := loop_runs (E := fun _ => False) Inv μ (fun s hs => .inl (hstep s hs)) hs hfuel
  exact hrun.resolve_right fun ⟨_, _, hfalse⟩ => hfalse

/-- The rule for counting loops.  The invariant is indexed by the counter; a range
    that is empty leaves the state as it is. -/
theorem forRange_sat [OutOfFuel ε] {body : Int → σ → Except ε σ} (Inv : Int → σ → Prop)
    {lo hi : Int} (hstep : ∀ j s, lo ≤ j → j < hi → Inv j s → Sat (body j s) (Inv (j + 1)))
    (hs : Inv lo s) : Sat (forRange body lo hi s) (Inv (max lo hi)) := by
  refine loop_sat (fun st => Inv st.2 st.1 ∧ lo ≤ st.2 ∧ st.2 ≤ max lo hi)
    (fun st => (hi - st.2).toNat) ?_ ⟨hs, by simp only; omega, by simp only; omega⟩
    (Nat.lt_succ_self _)
  rintro ⟨s, j⟩ ⟨hinv, hlo, hmax⟩
  simp only at hinv hlo hmax ⊢
  by_cases hj : j < hi
  · rw [if_pos hj]
    refine Sat.bind (hstep j s hlo hj hinv) ?_
    intro s' hs'
    refine sat_pure ⟨⟨hs', ?_, ?_⟩, ?_⟩ <;> simp only <;> omega
  · rw [if_neg hj]
    have hend : j = max lo hi := by omega
    rw [← hend]
    exact sat_ok hinv

/-- The rule for a fold over `0, 1, .., n - 1`; the invariant is indexed by the number of
    elements done. -/
theorem foldlM_range_runs {f : σ → Nat → Except ε σ} (Inv : Nat → σ → Prop) (n : Nat)
    (hstep : ∀ i s, i < n → Inv i s → Runs E (f s i) (Inv (i + 1))) (hs : Inv 0 s) :
    Runs E ((List.range n).foldlM f s) (Inv n) := by
  induction n with
  | zero => exact runs_ok hs
  | succ n ih =>
    have hfirst := ih fun i s hi => hstep i s (by omega)
    rw [List.range_succ, List.foldlM_append]
    apply Runs.bind hfirst
    intro s' hs'
    rw [List.foldlM_cons]
    apply Runs.bind (hstep n s' (by omega) hs')
    intro s'' hs''
    exact runs_pure hs''

variable {t : σ}

/-- What every iteration keeps holds at every state the loop passes through. -/
theorem reach_invariant (Inv : σ → Prop) (hstep : ∀ s s', Inv s → body s = .ok (.next s') → Inv s')
    (h : Reach body s t) (hs : Inv s) : Inv t := by
  induction h with
  | refl => exact hs
  | step _ ht ih => exact hstep _ _ ih ht

variable {u : σ}

theorem reach_head (hs : body s = .ok (.next t)) (h : Reach body t u) : Reach body s u := by
  induction h with
  | refl => exact .step (.refl s) hs
  | step _ ht ih => exact .step ih ht

theorem loop_reach [OutOfFuel ε] {r : ρ} (h : loop body fuel s = .ok r) :
    ∃ t, Reach body s t ∧ body t = .ok (.done r) := by
  induction fuel generalizing s with
  | zero => cases h
  | succ fuel ih =>
    obtain ⟨step, hbody, h⟩ := bind_eq_ok h
    cases step with
    | done v =>
      cases h
      exact ⟨s, .refl s, hbody⟩
    | next t =>
      obtain ⟨u, hu, hdone⟩ := ih h
      exact ⟨u, reach_head hbody hu, hdone⟩

theorem reach_cases_head (h : Reach body s u) :
    s = u ∨ ∃ t, body s = .ok (.next t) ∧ Reach body t u := by
  induction h with
  | refl => exact .inl rfl
  | step _ ht ih =>
    rcases ih with rfl | ⟨t, hs, hreach⟩
    · exact .inr ⟨_, ht, .refl _⟩
    · exact .inr ⟨t, hs, .step hreach ht⟩

/-- A loop whose body always asks for another iteration never ends, whatever the fuel. -/
theorem loop_endless [OutOfFuel ε] (Inv : σ → Prop)
    (hstep : ∀ s, Inv s → ∃ s', body s = .ok (.next s') ∧ Inv s') (fuel : Nat) (hs : Inv s) :
    loop body fuel s = .error OutOfFuel.fuel := by
  induction fuel generalizing s with
  | zero => rfl
  | succ fuel ih =>
    obtain ⟨s', hbody, hs'⟩ := hstep s hs
    rw [loop, hbody]
    exact ih hs'

/-- A loop that comes to a state it stays in never ends. -/
theorem loop_endless_of_reach [OutOfFuel ε] (h : Reach body s t) (ht : body t = .ok (.next t))
    (fuel : Nat) :
    loop body fuel s = .error OutOfFuel.fuel := by
  apply loop_endless (fun s => Reach body s t) ?_ fuel h
  intro s hs
  rcases reach_cases_head hs with rfl | ⟨s', hnext, hreach⟩
  · exact ⟨s, ht, .refl s⟩
  · exact ⟨s', hnext, hreach⟩

/-- A loop has one run: every state it passes through is on the way to the one it
    leaves from. -/
theorem reach_of_done {r : ρ} (ht : Reach body s t) (hu : Reach body s u)
    (hdone : body u = .ok (.done r)) :
    Reach body t u := by
  induction ht with
  | refl => exact hu
  | step _ hnext ih =>
    rcases reach_cases_head ih with rfl | ⟨v, hv, hreach⟩
    · rw [hdone] at hnext
      cases hnext
    · rw [hnext] at hv
      cases hv
      exact hreach

/-! ## Two runs -/

/-- Both computations return, and the values are related. -/
def Both (R : α → β → Prop) (m : Except ε α) (m' : Except ε β) : Prop :=
  ∃ a b, m = .ok a ∧ m' = .ok b ∧ R a b

section

variable {m' : Except ε α} {R : α → α → Prop}

theorem both_pure {a a' : α} (h : R a a') :
    Both R (pure a : Except ε α) (pure a' : Except ε α) := ⟨a, a', rfl, rfl, h⟩

theorem Both.mono {R' : α → α → Prop} (h : Both R m m') (hr : ∀ a a', R a a' → R' a a') :
    Both R' m m' := by
  obtain ⟨a, a', ha, ha', hR⟩ := h
  exact ⟨a, a', ha, ha', hr a a' hR⟩

theorem Both.and_sat (h : Both R m m') (hs : Sat m Q) : Both (fun a a' => R a a' ∧ Q a) m m' := by
  obtain ⟨a, a', ha, ha', hR⟩ := h
  exact ⟨a, a', ha, ha', hR, hs.of_eq_ok ha⟩

theorem Both.bind {S : β → β → Prop} {f f' : α → Except ε β} (h : Both R m m')
    (hf : ∀ a a', R a a' → Both S (f a) (f' a')) : Both S (m >>= f) (m' >>= f') := by
  obtain ⟨a, a', rfl, rfl, hR⟩ := h
  exact hf a a' hR

theorem both_same {S : β → β → Prop} {f f' : α → Except ε β} (h : Sat m Q)
    (hf : ∀ a, Q a → Both S (f a) (f' a)) : Both S (m >>= f) (m >>= f') := by
  obtain ⟨a, rfl, hQ⟩ := h
  exact hf a hQ

/-- The state a body goes on with is past a mark, or its result is. -/
def StepPast (Over : σ → Prop) (Late : ρ → Prop) : Step σ ρ → Prop
  | .next s => Over s
  | .done r => Late r

/-- A loop next to one that gives up once the state is past a mark that it does not come back
    from: the results are the same, or the second one gave up and the result of the first one is
    past the mark. -/
theorem loop_sooner [OutOfFuel ε] {body body' : σ → Except ε (Step σ ρ)} (Inv Over : σ → Prop)
    (Gave Late : ρ → Prop) (μ : σ → Nat) {R : ρ → Prop}
    (hinv : ∀ s, Inv s → Sat (body s) fun r =>
      match r with
      | .next s' => Inv s' ∧ μ s' < μ s
      | .done v => R v)
    (hlate : ∀ s, Inv s → Over s → Sat (body s) (StepPast Over Late))
    (hstep : ∀ s, Inv s → Both (fun r r' => r' = r ∨
      (∃ g, r' = .done g ∧ Gave g) ∧ StepPast Over Late r) (body s) (body' s))
    {fuel : Nat} {s : σ} (hs : Inv s) (hfuel : μ s < fuel) :
    Both (fun v v' => (v' = v ∨ Gave v' ∧ Late v) ∧ R v) (loop body fuel s)
      (loop body' fuel s) := by
  refine Both.and_sat ?_ (loop_sat Inv μ hinv hs hfuel)
  -- what is past the mark stays there
  have hpast : ∀ fuel s, Inv s → Over s → μ s < fuel → Sat (loop body fuel s) Late := by
    intro fuel s hs hover hfuel
    refine loop_sat (fun s => Inv s ∧ Over s) μ ?_ ⟨hs, hover⟩ hfuel
    rintro s ⟨hs, hover⟩
    refine ((hinv s hs).and (hlate s hs hover)).mono ?_
    rintro r ⟨hkeep, hafter⟩
    cases r with
    | done v => exact hafter
    | next s' => exact ⟨⟨hkeep.1, hafter⟩, hkeep.2⟩
  induction fuel generalizing s with
  | zero => exact absurd hfuel (Nat.not_lt_zero _)
  | succ fuel ih =>
    obtain ⟨r, r', hr, hr', hrel⟩ := hstep s hs
    have hkeep := (hinv s hs).of_eq_ok hr
    rw [loop, loop, hr, hr']
    rcases hrel with rfl | ⟨⟨g, rfl, hgave⟩, hafter⟩
    · cases r' with
      | done v => exact both_pure (.inl rfl)
      | next s' => exact ih hkeep.1 (by omega)
    cases r with
    | done v => exact ⟨v, g, rfl, rfl, .inr ⟨hgave, hafter⟩⟩
    | next s' =>
      obtain ⟨v, hv, hlate'⟩ := hpast fuel s' hkeep.1 hafter (by omega)
      exact ⟨v, g, hv, rfl, .inr ⟨hgave, hlate'⟩⟩

end

end Exec
end Orchestrator.Lib

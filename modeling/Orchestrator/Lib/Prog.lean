/-
  Orchestrator.Lib.Prog

  Programs over a state that may stop short, and the rules of their pre- and
  postconditions.

  `Prog σ ε α` reads and writes a state `σ` and returns a value or stops with a reason `ε`;
  the state it leaves behind is known in both cases.
  `Stop` is the reason for code with error values whose process may also end at any of
  its calls: such an end is not an error the code could handle, so `attempt`, which turns
  an error into a value, lets it pass.

  `Triple P m Q E` is the judgement of the specifications: from a state in `P`, the
  program `m` returns a value and a state in `Q`, or stops with a reason and a state in
  `E`.  Every construct has one rule.
-/

import Orchestrator.Lib.Exec

namespace Orchestrator.Lib

/-- Programs over the state `σ` that may stop with an `ε`. -/
abbrev Prog (σ ε : Type) := ExceptT ε (StateM σ)

/-- Why a program stopped short. -/
inductive Stop (ε : Type) where
  | crash
  /-- A loop did not finish within the iterations its definition allows. -/
  | fuel
  | err (e : ε)
deriving DecidableEq, Repr

instance {ε : Type} : OutOfFuel (Stop ε) := ⟨.fuel⟩

def Stop.map {ε ε' : Type} (f : ε → ε') : Stop ε → Stop ε'
  | crash => .crash
  | fuel => .fuel
  | err e => .err (f e)

namespace Prog

variable {σ ε α β ρ : Type}

/-- Run a program: its outcome and the state it leaves behind. -/
def exec (m : Prog σ ε α) (s : σ) : Except ε α × σ := StateT.run (ExceptT.run m) s

def attempt {ε : Type} (m : Prog σ (Stop ε) α) : Prog σ (Stop ε) (Except ε α) :=
  fun s =>
    match exec m s with
    | (.ok a, s') => (.ok (.ok a), s')
    | (.error (.err e), s') => (.ok (.error e), s')
    | (.error stop, s') => (.error stop, s')

def mapErr {ε ε' : Type} (f : ε → ε') (m : Prog σ (Stop ε) α) : Prog σ (Stop ε') α :=
  fun s =>
    match exec m s with
    | (.ok a, s') => (.ok a, s')
    | (.error stop, s') => (.error (stop.map f), s')

/-- Run `body` from `b` until it exits, for at most `fuel` iterations. -/
def loop [OutOfFuel ε] (body : β → Prog σ ε (Step β ρ)) : Nat → β → Prog σ ε ρ
  | 0, _ => throw OutOfFuel.fuel
  | fuel + 1, b => do
    match ← body b with
    | .next b' => loop body fuel b'
    | .done r => return r

/-- An outcome and the state that goes with it: a value in `Q` or a reason in `E`. -/
def Ends (Q : α → σ → Prop) (E : ε → σ → Prop) : Except ε α × σ → Prop
  | (.ok a, s) => Q a s
  | (.error e, s) => E e s

/-- From a state in `P`, the program returns in `Q` or stops in `E`. -/
def Triple (P : σ → Prop) (m : Prog σ ε α) (Q : α → σ → Prop) (E : ε → σ → Prop) : Prop :=
  ∀ s, P s → Ends Q E (exec m s)

theorem exec_bind (m : Prog σ ε α) (f : α → Prog σ ε β) (s : σ) :
    exec (m >>= f) s =
      match exec m s with
      | (.ok a, s') => exec (f a) s'
      | (.error e, s') => (.error e, s') := by
  unfold exec
  rw [ExceptT.run_bind, StateT.run_bind]
  show (match (StateT.run (ExceptT.run m) s) with | (out, s') => _) = _
  obtain ⟨out, s'⟩ := StateT.run (ExceptT.run m) s
  cases out with
  | ok a | error e => rfl

theorem loop_done [OutOfFuel ε] {body : β → Prog σ ε (Step β ρ)} {b : β} {r : ρ}
    (h : body b = pure (.done r)) (n : Nat) : loop body (n + 1) b = pure r := by
  rw [loop, h, pure_bind]

section

variable {P P' : σ → Prop} {m : Prog σ ε α} {Q Q' : α → σ → Prop} {E E' : ε → σ → Prop}

theorem Ends.mono {r : Except ε α × σ} (h : Ends Q E r) (hq : ∀ a s, Q a s → Q' a s)
    (he : ∀ e s, E e s → E' e s) : Ends Q' E' r := by
  obtain ⟨out, s⟩ := r
  cases out with
  | ok a => exact hq a s h
  | error e => exact he e s h

theorem triple_pure {a : α} (h : ∀ s, P s → Q a s := by exact fun _ hs => hs) :
    Triple P (pure a : Prog σ ε α) Q E := h

theorem triple_throw {e : ε} (h : ∀ s, P s → E e s) :
    Triple P (throw e : Prog σ ε α) Q E := h

theorem triple_get {Q : σ → σ → Prop} (h : ∀ s, P s → Q s s) :
    Triple P (get : Prog σ ε σ) Q E := h

theorem triple_modify {f : σ → σ} {Q : Unit → σ → Prop} (h : ∀ s, P s → Q () (f s)) :
    Triple P (modify f : Prog σ ε Unit) Q E := h

variable {R : β → σ → Prop}

/-- Sequencing: what the first part guarantees is what the second may assume. -/
theorem Triple.bind {f : α → Prog σ ε β} (h : Triple P m Q E) (hf : ∀ a, Triple (Q a) (f a) R E) :
    Triple P (m >>= f) R E := by
  intro s hs
  have hm := h s hs
  rw [exec_bind]
  cases hr : exec m s with
  | mk out s' =>
    rw [hr] at hm
    cases out with
    | ok a => exact hf a s' hm
    | error e => exact hm

theorem get_bind {k : σ → Prog σ ε β} (h : ∀ s, P s → Triple (fun s' => s' = s) (k s) R E) :
    Triple P (get >>= k) R E := by
  intro s hs
  rw [exec_bind]
  exact h s hs s rfl

theorem Triple.mono (h : Triple P m Q E) (hp : ∀ s, P' s → P s)
    (hq : ∀ a s, Q a s → Q' a s) (he : ∀ e s, E e s → E' e s) : Triple P' m Q' E' := by
  intro s hs
  exact (h s (hp s hs)).mono hq he

theorem Triple.pre (h : Triple P m Q E) (hp : ∀ s, P' s → P s) : Triple P' m Q E :=
  h.mono hp (fun _ _ h => h) (fun _ _ h => h)

theorem Triple.post (h : Triple P m Q E) (hq : ∀ a s, Q a s → Q' a s) : Triple P m Q' E :=
  h.mono (fun _ h => h) hq (fun _ _ h => h)

theorem Triple.exec_ok (h : Triple P m Q fun _ _ => False) {s : σ} (hs : P s) :
    ∃ a s', exec m s = (.ok a, s') ∧ Q a s' := by
  have hends := h s hs
  cases hr : exec m s with
  | mk out s' =>
    rw [hr] at hends
    cases out with
    | ok a => exact ⟨a, s', rfl, hends⟩
    | error e => exact hends.elim

/-- A program that returned, did so as its triple says. -/
theorem Triple.of_exec (h : Triple P m Q E) {s s' : σ} {a : α} (hs : P s)
    (hr : exec m s = (.ok a, s')) : Q a s' := by
  have hends := h s hs
  rw [hr] at hends
  exact hends

theorem triple_of_forall (hq : ∀ a s, Q a s) (he : ∀ e s, E e s) : Triple P m Q E := by
  intro s _
  cases hr : exec m s with
  | mk out s' =>
    cases out with
    | ok a => exact hq a s'
    | error e => exact he e s'

theorem triple_of_states (h : ∀ s, P s → Triple (fun s' => s' = s) m Q E) : Triple P m Q E := by
  intro s hs
  exact h s hs s rfl

/-- What does not depend on the state may be assumed. -/
theorem triple_of_prop {p : Prop} (h : p → Triple P m Q E) :
    Triple (fun s => p ∧ P s) m Q E := by
  intro s hs
  exact h hs.1 s hs.2

theorem triple_exists {ι : Type} {P : ι → σ → Prop} (h : ∀ i, Triple (P i) m Q E) :
    Triple (fun s => ∃ i, P i s) m Q E := by
  intro s ⟨i, hs⟩
  exact h i s hs

/-- Go on from a program whose value is known. -/
theorem Triple.bind_eq {a : α} {f : α → Prog σ ε β} (h : Triple P m (fun r s => r = a ∧ P' s) E)
    (hf : Triple P' (f a) R E) :
    Triple P (m >>= f) R E := by
  apply Triple.bind h
  intro r
  apply triple_of_prop
  rintro rfl
  exact hf

theorem Triple.bind_ok {ε' : Type} {m : Prog σ ε (Except ε' α)} {f : Except ε' α → Prog σ ε β}
    (h : Triple P m (fun r s => ∃ a, r = .ok a ∧ Q a s) E) (hf : ∀ a, Triple (Q a) (f (.ok a)) R E) :
    Triple P (m >>= f) R E := by
  apply Triple.bind h
  intro r
  apply triple_exists
  intro a
  apply triple_of_prop
  rintro rfl
  exact hf a

theorem triple_ite {c : Prop} [Decidable c] {m' : Prog σ ε α}
    (ht : c → Triple P m Q E) (hf : ¬c → Triple P m' Q E) :
    Triple P (if c then m else m') Q E := by
  by_cases hc : c
  · rw [if_pos hc]
    exact ht hc
  · rw [if_neg hc]
    exact hf hc

/-- An error becomes a value; the end of the process passes. -/
theorem triple_attempt {ε : Type} {m : Prog σ (Stop ε) α} {Q : Except ε α → σ → Prop}
    {E : Stop ε → σ → Prop}
    (h : Triple P m (fun a => Q (.ok a)) fun stop s =>
      match stop with
      | .err e => Q (.error e) s
      | stop => E stop s) :
    Triple P (attempt m) Q E := by
  intro s hs
  have hm := h s hs
  show Ends Q E (match exec m s with
    | (.ok a, s') => _
    | (.error (.err e), s') => _
    | (.error stop, s') => _)
  cases hr : exec m s with
  | mk out s' =>
    rw [hr] at hm
    cases out with
    | ok a => exact hm
    | error stop => cases stop <;> exact hm

/-- A program that cannot stop returns its value. -/
theorem triple_attempt_ok {ε : Type} {m : Prog σ (Stop ε) α} {E : Stop ε → σ → Prop}
    (h : Triple P m Q fun _ _ => False) :
    Triple P (attempt m) (fun r s => ∃ a, r = .ok a ∧ Q a s) E := by
  apply triple_attempt
  apply h.mono (fun _ hs => hs)
  · intro a s hq
    exact ⟨a, rfl, hq⟩
  · intro e s hfalse
    exact hfalse.elim

theorem triple_mapErr {ε ε' : Type} {f : ε → ε'} {m : Prog σ (Stop ε) α} {E : Stop ε' → σ → Prop}
    (h : Triple P m Q fun stop => E (stop.map f)) : Triple P (mapErr f m) Q E := by
  intro s hs
  have hm := h s hs
  show Ends Q E (match exec m s with
    | (.ok a, s') => _
    | (.error stop, s') => _)
  cases hr : exec m s with
  | mk out s' =>
    rw [hr] at hm
    cases out with
    | ok a | error stop => exact hm

/-- A fold; the invariant is about the part of the list that is done. -/
theorem triple_foldlM {f : β → α → Prog σ ε β} (Inv : List α → β → σ → Prop) (xs : List α)
    (hstep : ∀ pre x post b, xs = pre ++ x :: post →
      Triple (Inv pre b) (f b x) (fun b' => Inv (pre ++ [x]) b') E) (b : β) :
    Triple (Inv [] b) (xs.foldlM f b) (fun b' => Inv xs b') E := by
  have hall : ∀ post pre, xs = pre ++ post → ∀ b,
      Triple (Inv pre b) (post.foldlM f b) (fun b' => Inv xs b') E := by
    intro post
    induction post with
    | nil =>
      intro pre hxs b
      rw [List.append_nil] at hxs
      subst hxs
      exact triple_pure
    | cons x post ih =>
      intro pre hxs b
      rw [List.foldlM_cons]
      apply Triple.bind (hstep pre x post b hxs)
      intro b'
      exact ih (pre ++ [x]) (by rw [hxs]; simp) b'
  exact hall xs [] rfl b

/-- A pass over a list; the invariant is about the part of the list that is done. -/
theorem triple_forM {f : α → Prog σ ε PUnit} (Inv : List α → σ → Prop) (xs : List α)
    (hstep : ∀ pre x post, xs = pre ++ x :: post →
      Triple (Inv pre) (f x) (fun _ => Inv (pre ++ [x])) E) :
    Triple (Inv []) (xs.forM f) (fun _ => Inv xs) E := by
  have hfold : xs.forM f = xs.foldlM (fun _ x => f x) PUnit.unit := by
    clear hstep
    induction xs with
    | nil => rfl
    | cons x xs ih => exact congrArg (f x >>= ·) (funext fun _ => ih)
  rw [hfold]
  exact triple_foldlM (fun done _ => Inv done) xs (fun pre x post _ => hstep pre x post) _

/-- A loop: every iteration keeps the invariant and lowers the measure, or leaves with
    the postcondition. -/
theorem triple_loop [OutOfFuel ε] {body : β → Prog σ ε (Step β ρ)} (Inv : β → σ → Prop)
    (μ : β → Nat) {R : ρ → σ → Prop}
    (hstep : ∀ b, Triple (Inv b) (body b) (fun r s =>
      match r with
      | .next b' => Inv b' s ∧ μ b' < μ b
      | .done v => R v s) E)
    {fuel : Nat} {b : β} (hfuel : μ b < fuel) :
    Triple (Inv b) (loop body fuel b) R E := by
  induction fuel generalizing b with
  | zero => exact absurd hfuel (Nat.not_lt_zero _)
  | succ fuel ih =>
    show Triple (Inv b) (body b >>= _) R E
    apply Triple.bind (hstep b)
    intro r
    cases r with
    | done v => exact triple_pure
    | next b' =>
      intro s hs
      obtain ⟨hinv, hlt⟩ := hs
      exact ih (Nat.lt_of_lt_of_le hlt (Nat.le_of_lt_succ hfuel)) s hinv

end
end Prog
end Orchestrator.Lib

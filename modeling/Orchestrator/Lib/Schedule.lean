/-
  Orchestrator.Lib.Schedule

  What is needed to say what a scheduler did with a list of tasks.

  `Interleaves xs ys zs`: two lists that a third one was taken apart into, both still in
  its order.  `History P log`: every entry of a log was written when `P` held of the
  entries before it.  `Circles R a`: from `a` a chain of `R` leads into a cycle; over
  finitely many elements these are the only chains that do not end.
-/

import Mathlib.Data.Set.Finite.Basic
import Mathlib.Data.Fintype.Card
import Mathlib.Logic.Relation
import Mathlib.Order.WellFounded

namespace Orchestrator.Lib

open Relation

variable {α : Type}

/-! ## A list taken apart -/

/-- The third list is the first two, merged with each of them in its order. -/
inductive Interleaves : List α → List α → List α → Prop where
  | nil : Interleaves [] [] []
  | left {x : α} {xs ys zs : List α} (h : Interleaves xs ys zs) : Interleaves (x :: xs) ys (x :: zs)
  | right {y : α} {xs ys zs : List α} (h : Interleaves xs ys zs) : Interleaves xs (y :: ys) (y :: zs)

/-- The members without and with a property interleave back to the list. -/
theorem interleaves_filter (p : α → Prop) [DecidablePred p] (xs : List α) :
    Interleaves (xs.filter fun x => ¬p x) (xs.filter fun x => p x) xs := by
  induction xs with
  | nil => exact .nil
  | cons x xs ih =>
    by_cases hx : p x
    · rw [List.filter_cons_of_neg (by simpa using hx), List.filter_cons_of_pos (by simpa using hx)]
      exact .right ih
    · rw [List.filter_cons_of_pos (by simpa using hx), List.filter_cons_of_neg (by simpa using hx)]
      exact .left ih

/-! ## Logs -/

/-- Every entry was written when `P` held of the entries before it. -/
def History (P : List α → α → Prop) (log : List α) : Prop :=
  ∀ before x after, log = before ++ x :: after → P before x

theorem history_nil {P : List α → α → Prop} : History P [] := by
  intro before x after h
  simp at h

theorem History.concat {P : List α → α → Prop} {log : List α} (h : History P log) {x : α}
    (hx : P log x) : History P (log ++ [x]) := by
  intro before y after hsplit
  rcases List.eq_nil_or_concat' after with rfl | ⟨after, z, rfl⟩
  · obtain ⟨rfl, hxy⟩ := List.append_inj' hsplit rfl
    obtain rfl : x = y := by simpa using hxy
    exact hx
  · rw [← List.cons_append, ← List.append_assoc] at hsplit
    obtain ⟨hlog, -⟩ := List.append_inj' hsplit rfl
    exact h before y after hlog

theorem History.of_mem {P : List α → α → Prop} {log : List α} (h : History P log) {x : α}
    (hx : x ∈ log) : ∃ before, before ⊆ log ∧ P before x := by
  obtain ⟨before, after, hlog⟩ := List.append_of_mem hx
  refine ⟨before, ?_, h before x after hlog⟩
  rw [hlog]
  exact List.subset_append_left _ _

/-! ## Chains that do not end -/

variable {R : α → α → Prop} {a : α}

/-- A chain of `R` from `a` leads to an element that it comes back to. -/
def Circles (R : α → α → Prop) (a : α) : Prop := ∃ c, ReflTransGen R a c ∧ TransGen R c c

/-- No chain from `a` goes on for ever, or one of them circles. -/
theorem acc_or_circles (hfin : {x | ReflTransGen R a x}.Finite) :
    Acc (fun y x => R x y) a ∨ Circles R a := by
  by_cases hc : Circles R a
  · exact .inr hc
  left
  -- on what can be reached from `a`, `R` is a finite relation without cycles
  let S := {x // ReflTransGen R a x}
  have : Finite S := hfin
  let T : S → S → Prop := fun y x => TransGen R x.1 y.1
  have htrans : IsTrans S T := ⟨fun _ _ _ hab hbc => hbc.trans hab⟩
  have hirrefl : Std.Irrefl T := ⟨fun x hx => hc ⟨x.1, x.2, hx⟩⟩
  have hwf : WellFounded T := Finite.wellFounded_of_trans_of_irrefl T
  have hacc : ∀ x : S, Acc (fun y x => R x y) x.1 := by
    intro x
    induction hwf.apply x with
    | intro x _ ih =>
      constructor
      intro y hy
      exact ih ⟨y, x.2.tail hy⟩ (TransGen.single hy)
  exact hacc ⟨a, .refl⟩

theorem not_circles_of_acc (h : Acc (fun y x => R x y) a) : ¬Circles R a := by
  induction h with
  | intro a _ ih =>
    rintro ⟨c, hac, hcc⟩
    -- the chain into the cycle goes on, so its second element circles too
    obtain ⟨b, hab, hbc⟩ : ∃ b, R a b ∧ ReflTransGen R b c := by
      rcases ReflTransGen.cases_head hac with rfl | hhead
      · obtain ⟨b, hab, hbc⟩ := TransGen.head'_iff.mp hcc
        exact ⟨b, hab, hbc⟩
      · exact hhead
    exact ih b hab ⟨c, hbc, hcc⟩

end Orchestrator.Lib

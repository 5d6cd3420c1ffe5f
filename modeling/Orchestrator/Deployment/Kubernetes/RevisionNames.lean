/-
  Orchestrator.Deployment.Kubernetes.RevisionNames

  The names of revisions.  The backend, the activator and the autoscaler each take such a
  name apart with code of their own: at its last hyphen, or at a suffix of digits.  A
  number has no hyphen and at least five digits, so all of them cut where `revisionName`
  joined, whatever hyphens and digits the id has.
-/

import Orchestrator.Deployment.Kubernetes.Backend
import Orchestrator.Lib.Text

namespace Orchestrator.Deployment

open Lib List

/-- `deploymentIDOf` of the activator: what is before the last hyphen, unless that is nothing. -/
def deploymentIDOf (rev : String) : String :=
  match rev.toList.reverse.dropWhile (· ≠ '-') with
  | [] => rev
  | _ :: stem => if stem = [] then rev else String.ofList stem.reverse

/-- `revisionSuffix.ReplaceAllString(rev, "")`: the leftmost `-\d{5,}` that ends the text is
    cut off. -/
def cutRevisionSuffix : List Char → List Char
  | [] => []
  | c :: rest =>
    if c = '-' ∧ 5 ≤ rest.length ∧ rest.all Char.isDigit = true then []
    else c :: cutRevisionSuffix rest

/-- The number of a revision as its name has it. -/
def numberText (n : Nat) : List Char := leftpad 5 '0' (Nat.toDigits 10 n)

theorem toList_revisionName (id : String) (n : Nat) :
    (revisionName id n).toList = id.toList ++ '-' :: numberText n := by
  simp [revisionName, numberText]

theorem isDigit_of_mem_numberText {n : Nat} {c : Char} (h : c ∈ numberText n) :
    c.isDigit = true := by
  rw [numberText, leftpad, mem_append] at h
  rcases h with hpad | hdigit
  · rw [eq_of_mem_replicate hpad]
    rfl
  · exact Text.mem_toDigits hdigit

theorem all_isDigit_numberText (n : Nat) : (numberText n).all Char.isDigit = true :=
  all_eq_true.mpr fun _ => isDigit_of_mem_numberText

theorem five_le_length_numberText (n : Nat) : 5 ≤ (numberText n).length := by
  rw [numberText, length_leftpad]
  exact le_max_left _ _

theorem ofDigitChars_numberText (n : Nat) : Nat.ofDigitChars 10 (numberText n) 0 = n := by
  rw [numberText, leftpad, Nat.ofDigitChars_append, Nat.ofDigitChars_replicate_zero, Nat.mul_zero,
    Nat.ofDigitChars_ten_toDigits]

/-- Read from the right, a number goes up to the hyphen. -/
theorem ne_hyphen_of_mem_number {n : Nat} : ∀ c ∈ (numberText n).reverse, decide (c ≠ '-') = true := by
  intro c hmem
  refine decide_eq_true ?_
  rintro rfl
  exact absurd (isDigit_of_mem_numberText (mem_reverse.mp hmem)) (by decide)

theorem atoi_numberText {n : Nat} (hn : n < 2 ^ 63) : atoi (numberText n) = some n := by
  have hne : numberText n ≠ [] := by
    intro hnil
    have hlen := five_le_length_numberText n
    rw [hnil] at hlen
    exact absurd hlen (by decide)
  have hsign : ∀ rest, numberText n = '+' :: rest → False := by
    intro rest heq
    exact absurd (isDigit_of_mem_numberText (n := n) (heq ▸ mem_cons_self)) (by decide)
  rw [atoi, if_pos ⟨hne, all_isDigit_numberText n, by rwa [ofDigitChars_numberText]⟩,
    ofDigitChars_numberText]
  exact hsign

theorem revisionNumber_revisionName (id : String) {n : Nat} (hn : n < 2 ^ 63) :
    revisionNumber (revisionName id n) = n := by
  rw [revisionNumber, toList_revisionName, if_pos (by simp), reverse_append, reverse_cons,
    append_assoc, takeWhile_append_of_pos ne_hyphen_of_mem_number, singleton_append,
    takeWhile_cons_of_neg (by simp), append_nil, reverse_reverse, atoi_numberText hn, Option.getD_some]

theorem deploymentIDOf_revisionName {id : String} (hid : id ≠ "") (n : Nat) :
    deploymentIDOf (revisionName id n) = id := by
  have hstem : id.toList.reverse ≠ [] := by simpa using hid
  rw [deploymentIDOf, toList_revisionName, reverse_append, reverse_cons, append_assoc,
    dropWhile_append_of_pos ne_hyphen_of_mem_number, singleton_append, dropWhile_cons_of_neg (by simp)]
  simp only
  rw [if_neg hstem, reverse_reverse, String.ofList_toList]

/-- Only the last hyphen is followed by nothing but digits. -/
theorem cutRevisionSuffix_number (stem : List Char) (n : Nat) :
    cutRevisionSuffix (stem ++ '-' :: numberText n) = stem := by
  induction stem with
  | nil => exact if_pos ⟨rfl, five_le_length_numberText n, all_isDigit_numberText n⟩
  | cons c stem ih =>
    rw [cons_append, cutRevisionSuffix, if_neg, ih]
    rintro ⟨-, -, hdigits⟩
    exact absurd (all_eq_true.mp hdigits '-' (by simp)) (by decide)

/-- A revision's name gives its number to the backend and its deployment to the activator and
    the autoscaler, and revisions are listed by falling numbers.  The service accepts no empty id,
    and numbers are of type `int`. -/
theorem revisionName_roundTrip {id : String} (hid : id ≠ "") :
    (∀ n < 2 ^ 63, revisionNumber (revisionName id n) = n ∧
      deploymentIDOf (revisionName id n) = id ∧
      cutRevisionSuffix (revisionName id n).toList = id.toList) ∧
    (∀ names, (newestFirst names).Perm names ∧
      (newestFirst names).Pairwise fun a b => revisionNumber b ≤ revisionNumber a) ∧
    ∀ numbers : List Nat, (∀ n ∈ numbers, n < 2 ^ 63) →
      newestFirst (numbers.map (revisionName id)) =
        (numbers.insertionSort (· ≥ ·)).map (revisionName id) := by
  refine ⟨fun n hn => ⟨revisionNumber_revisionName id hn, deploymentIDOf_revisionName hid n, ?_⟩,
    fun names => ⟨perm_insertionSort _ names, ?_⟩, fun numbers hnumbers => ?_⟩
  · rw [toList_revisionName, cutRevisionSuffix_number]
  · have : IsTrans String fun a b => revisionNumber b ≤ revisionNumber a :=
      ⟨fun _ _ _ hab hbc => Nat.le_trans hbc hab⟩
    have : Std.Total fun a b => revisionNumber b ≤ revisionNumber a :=
      ⟨fun a b => Nat.le_total (revisionNumber b) (revisionNumber a)⟩
    exact pairwise_insertionSort _ names
  · refine (map_insertionSort _ _ _ _ ?_).symm
    intro m hm n hn
    rw [revisionNumber_revisionName id (hnumbers m hm), revisionNumber_revisionName id (hnumbers n hn)]

theorem revisionName_roundTrip_web :
    deploymentIDOf (revisionName "web-12345" 123456) = "web-12345" :=
  ((revisionName_roundTrip (show "web-12345" ≠ "" by decide)).1 123456 (by decide)).2.1

end Orchestrator.Deployment

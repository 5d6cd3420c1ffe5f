/-
  Orchestrator.Claim.Flow

  The claim flow over any inventory (`internal/claim`): a warm pass, a unit created on
  demand, and a second warm pass.

  A unit is visited by one `claimUnit`, so the outcomes of a call are given with the units:
  what `Reserve`, `Post` and `Discard` answer on that visit.  The log of a call is its visits,
  with the calls that were made.  Errors are trees, and the flow tells them apart by what
  they wrap.
-/

import Mathlib.Data.List.Basic

namespace Orchestrator.Claim

open List

/-- Errors, as far as `errors.Is` and `errors.AsType` look into them. -/
inductive Err where
  | conflict
  | poison (unit msg : String)
  | plain (msg : String)
  /-- `fmt.Errorf` with one `%w`, or an application error with its cause. -/
  | wrap (msg : String) (cause : Err)
  | join (first second : Err)
  deriving DecidableEq, Repr

/-- `errors.Is(err, ErrConflict)`. -/
def Err.isConflict : Err → Bool
  | .conflict => true
  | .wrap _ e => e.isConflict
  | .join a b => a.isConflict || b.isConflict
  | _ => false

/-- `errors.AsType[*Poison](err)`: the message of the first one. -/
def Err.asPoison : Err → Option String
  | .poison _ msg => some msg
  | .wrap _ e => e.asPoison
  | .join a b => a.asPoison <|> b.asPoison
  | _ => none

structure WarmUnit where
  id : String
  addr : String
  token : String
  deriving DecidableEq, Repr

/-- What the three calls on a unit answer, if they are made. -/
structure Outcomes where
  reserve : Option Err
  post : Option Err
  discard : Option Err

/-- One `claimUnit`: the answers of the calls it made, and what it returned. -/
structure Visit where
  unit : WarmUnit
  reserved : Option Err
  posted : Option (Option Err) := none
  discarded : Option (Option Err) := none
  result : Option Err
  deriving DecidableEq, Repr

def claimUnit (unit : WarmUnit) (o : Outcomes) : Visit :=
  match o.reserve with
  | some err => ⟨unit, some err, none, none, some (.wrap ("reserve unit " ++ unit.id) err)⟩
  | none =>
    match o.post with
    | none => ⟨unit, none, some none, none, none⟩
    | some err =>
      if err.isConflict then ⟨unit, none, some (some err), none, some err⟩
      else
        match o.discard with
        | some discardErr =>
          ⟨unit, none, some (some err), some (some discardErr),
            some (.join (.wrap "claim failed" err)
              (.wrap ("discard reserved unit " ++ unit.id) discardErr))⟩
        | none => ⟨unit, none, some (some err), some none, some err⟩

/-- What a pass or a call returns; `ok` is only read of a pass. -/
structure Result where
  unit : Option WarmUnit := none
  ok : Bool := false
  err : Option Err := none
  log : List Visit := []
  deriving DecidableEq, Repr

/-- The units an inventory gives, each with the outcomes of a visit. -/
abbrev Units := List (WarmUnit × Outcomes)

def tryUnits : Units → Result
  | [] => {}
  | (u, o) :: rest =>
    let v := claimUnit u o
    let next := { tryUnits rest with log := v :: (tryUnits rest).log }
    match v.result with
    | none => { unit := some u, ok := true, log := [v] }
    | some err =>
      if err.isConflict then next
      else
        match err.asPoison with
        | some msg => { ok := true, err := some (.poison u.id msg), log := [v] }
        | none => next

def tryWarm : Except Err Units → Result
  | .error err => { err := some err }
  | .ok units => tryUnits units

def exhausted (poolID : String) : Err := .plain ("pool " ++ poolID ++ " has no free warm capacity")

def outcome (err : Err) (unitID : String) : Err :=
  match err.asPoison with
  | some msg => .poison unitID msg
  | none => .wrap "pool.claim" err

structure Inventory where
  free : Except Err Units
  create : Except Err (WarmUnit × Outcomes)
  freeAgain : Except Err Units

/-- `Claim`; `cold` is the burst policy.  Metrics are left out. -/
def claim (inv : Inventory) (poolID : String) (cold : Bool) : Result :=
  let first := tryWarm inv.free
  if first.err.isSome || first.ok then first
  else if !cold then { err := some (exhausted poolID), log := first.log }
  else
    match inv.create with
    | .error err => { err := some err, log := first.log }
    | .ok (created, o) =>
      let v := claimUnit created o
      match v.result with
      | none => { unit := some created, log := first.log ++ [v] }
      | some err =>
        if err.isConflict then
          let second := tryWarm inv.freeAgain
          if second.err.isSome || second.ok then
            { second with log := first.log ++ v :: second.log }
          else { err := some (exhausted poolID), log := first.log ++ v :: second.log }
        else { err := some (outcome err created.id), log := first.log ++ [v] }

/-! ## The visits of a call -/

namespace Visit

/-- `Discard` was called on the unit, or its `Post` reported a conflict. -/
def Settled (v : Visit) : Prop :=
  v.discarded.isSome ∨ ∃ err, v.posted = some (some err) ∧ err.isConflict = true

end Visit

section

variable {u : WarmUnit} {o : Outcomes} {err : Err}

end

structure Result.Sound (r : Result) : Prop where
  accounted : ∀ v ∈ r.log, v.reserved = none → r.unit = some v.unit ∨ v.Settled
  passed : ¬ (r.err.isSome || r.ok) = true → ∀ v ∈ r.log, v.reserved = none → v.Settled
  no_unit : r.err.isSome → r.unit = none

namespace Outcomes

/-- One of the answers that the flow reads wraps `ErrConflict`. -/
def Conflicts (o : Outcomes) : Prop :=
  (∃ err, o.reserve = some err ∧ err.isConflict = true) ∨
    o.reserve = none ∧ ∃ err, o.post = some err ∧
      (err.isConflict = true ∨ ∃ err, o.discard = some err ∧ err.isConflict = true)

/-- The unit cannot be claimed, and none of the answers that the flow reads wraps a poison. -/
def Fails (o : Outcomes) : Prop :=
  (∃ err, o.reserve = some err ∧ err.asPoison = none) ∨
    o.reserve = none ∧ ∃ err, o.post = some err ∧ err.asPoison = none ∧
      ∀ err, o.discard = some err → err.asPoison = none

end Outcomes

/-- A unit in the order of a call; whether it is the one created on demand. -/
structure Slot where
  created : Bool
  unit : WarmUnit
  outcomes : Outcomes

def Slot.visit (s : Slot) : Visit := claimUnit s.unit s.outcomes

/-- The call goes on behind the unit: a conflict is passed over, and in a warm pass any failure
    but a poison. -/
def Slot.Passed (s : Slot) : Prop :=
  s.outcomes.Conflicts ∨ s.created = false ∧ s.outcomes.Fails

def warm (units : Units) : List Slot := units.map fun (u, o) => ⟨false, u, o⟩

section

variable {u : WarmUnit} {o : Outcomes} {err : Err}

end

section

variable {rest : List Slot} {log : List Visit}

end

end Orchestrator.Claim

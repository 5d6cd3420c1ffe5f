/-
  Orchestrator.Lib.Objects

  The objects of one kind that an API server stores under their names.

  An object with a version can be replaced by a writer that knows its version; every
  such write raises it.  `Newer` is what other writers may do to versioned objects: an
  object stays, and as long as its version does its content does.
-/

import Mathlib.Data.List.AList

namespace Orchestrator.Lib

/-- Why a call to the API server fails. -/
inductive ApiError where
  | notFound
  | alreadyExists
  | conflict
  /-- Any other error, of the server or on the way. -/
  | failed
deriving DecidableEq, Repr

abbrev Objects (α : Type) := AList fun _ : String => α

/-- An object with its version. -/
structure Versioned (α : Type) where
  version : Nat
  value : α
deriving DecidableEq, Repr

namespace Objects

variable {α : Type}

def get (t : Objects α) (name : String) : Except ApiError α :=
  match t.lookup name with
  | some a => .ok a
  | none => .error .notFound

def create (t : Objects α) (name : String) (a : α) : Except ApiError Unit × Objects α :=
  match t.lookup name with
  | some _ => (.error .alreadyExists, t)
  | none => (.ok (), t.insert name a)

/-- Replace an object, whatever its version. -/
def replace (t : Objects α) (name : String) (a : α) : Except ApiError Unit × Objects α :=
  match t.lookup name with
  | some _ => (.ok (), t.insert name a)
  | none => (.error .notFound, t)

/-- Replace an object that still has the version it was read with. -/
def update (t : Objects (Versioned α)) (name : String) (version : Nat) (a : α) :
    Except ApiError Unit × Objects (Versioned α) :=
  match t.lookup name with
  | some v =>
    if v.version = version then (.ok (), t.insert name ⟨version + 1, a⟩)
    else (.error .conflict, t)
  | none => (.error .notFound, t)

def delete (t : Objects α) (name : String) : Except ApiError Unit × Objects α :=
  match t.lookup name with
  | some _ => (.ok (), t.erase name)
  | none => (.error .notFound, t)

variable {t : Objects α} {name : String}

theorem get_eq_ok {a : α} (h : t.lookup name = some a) :
    get t name = .ok a := by
  rw [get, h]

theorem get_eq_notFound (h : t.lookup name = none) :
    get t name = .error .notFound := by
  rw [get, h]

theorem create_of_none (h : t.lookup name = none) (a : α) :
    create t name a = (.ok (), t.insert name a) := by
  rw [create, h]

variable {b : α}

theorem create_of_some (h : t.lookup name = some b) (a : α) :
    create t name a = (.error .alreadyExists, t) := by
  rw [create, h]

theorem replace_of_some (h : t.lookup name = some b) (a : α) :
    replace t name a = (.ok (), t.insert name a) := by
  rw [replace, h]

theorem replace_of_none (h : t.lookup name = none) (a : α) :
    replace t name a = (.error .notFound, t) := by
  rw [replace, h]

theorem update_of_same {t : Objects (Versioned α)} {v : Versioned α} (h : t.lookup name = some v)
    (a : α) :
    update t name v.version a = (.ok (), t.insert name ⟨v.version + 1, a⟩) := by
  rw [update, h]
  simp

theorem delete_of_some (h : t.lookup name = some b) :
    delete t name = (.ok (), t.erase name) := by
  rw [delete, h]

theorem delete_of_none (h : t.lookup name = none) :
    delete t name = (.error .notFound, t) := by
  rw [delete, h]

theorem lookup_insert_cases {name' : String} {a : α} (h : (t.insert name a).lookup name' = some b) :
    (name' = name ∧ b = a) ∨ (name' ≠ name ∧ t.lookup name' = some b) := by
  by_cases hname : name' = name
  · rw [hname, AList.lookup_insert] at h
    exact .inl ⟨hname, (Option.some.inj h).symm⟩
  · rw [AList.lookup_insert_ne hname] at h
    exact .inr ⟨hname, h⟩

theorem lookup_of_erase {name' : String} (h : (t.erase name).lookup name' = some b) :
    name' ≠ name ∧ t.lookup name' = some b := by
  have hname : name' ≠ name := by
    rintro rfl
    rw [AList.lookup_erase] at h
    cases h
  rw [AList.lookup_erase_ne hname] at h
  exact ⟨hname, h⟩

theorem lookup_delete (t : Objects α) (name name' : String) :
    (t.delete name).2.lookup name' = if name' = name then none else t.lookup name' := by
  cases h : t.lookup name with
  | some a =>
    rw [delete_of_some h]
    split
    · rename_i hname
      rw [hname]
      exact AList.lookup_erase name t
    · rename_i hname
      exact AList.lookup_erase_ne hname
  | none =>
    rw [delete_of_none h]
    split
    · rename_i hname
      rw [hname]
      exact h
    · rfl

/-! ## What other writers do to versioned objects -/

/-- Every object stays, and with its version its content. -/
def Newer (t t' : Objects (Versioned α)) : Prop :=
  ∀ name v, t.lookup name = some v →
    ∃ v', t'.lookup name = some v' ∧ v.version ≤ v'.version ∧ (v'.version = v.version → v' = v)

theorem Newer.refl (t : Objects (Versioned α)) : Newer t t :=
  fun _ v h => ⟨v, h, Nat.le_refl _, fun _ => rfl⟩

theorem Newer.trans {t t' t'' : Objects (Versioned α)} (h : Newer t t') (h' : Newer t' t'') :
    Newer t t'' := by
  intro name v hv
  obtain ⟨v', hv', hle, hsame⟩ := h name v hv
  obtain ⟨v'', hv'', hle', hsame'⟩ := h' name v' hv'
  refine ⟨v'', hv'', Nat.le_trans hle hle', ?_⟩
  intro heq
  have hmid : v'.version = v.version := Nat.le_antisymm (heq ▸ hle') hle
  rw [hsame' (heq.trans hmid.symm), hsame hmid]

theorem Newer.insert {t : Objects (Versioned α)} {w : Versioned α}
    (h : ∀ v, t.lookup name = some v → v.version < w.version) : Newer t (t.insert name w) := by
  intro name' v hv
  by_cases hname : name' = name
  · subst hname
    have hlt := h v hv
    exact ⟨w, AList.lookup_insert t, Nat.le_of_lt hlt, fun heq => absurd heq (by omega)⟩
  · exact ⟨v, by rw [AList.lookup_insert_ne hname, hv], Nat.le_refl _, fun _ => rfl⟩

theorem newer_create (t : Objects (Versioned α)) (name : String) (w : Versioned α) :
    Newer t (create t name w).2 := by
  cases h : t.lookup name with
  | some v =>
    rw [create_of_some h]
    exact Newer.refl t
  | none =>
    rw [create_of_none h]
    exact Newer.insert fun v hv => by rw [h] at hv; cases hv

theorem newer_update (t : Objects (Versioned α)) (name : String) (version : Nat) (a : α) :
    Newer t (update t name version a).2 := by
  rw [update]
  split
  · rename_i v hv
    split
    · rename_i hversion
      refine Newer.insert ?_
      intro v' hv'
      rw [hv] at hv'
      cases hv'
      exact hversion ▸ Nat.lt_succ_self _
    · exact Newer.refl t
  · exact Newer.refl t

/-- A writer that knows the version of a stored object knows its content. -/
theorem Newer.update_cases {t t' : Objects (Versioned α)} (h : Newer t t') {v : Versioned α}
    (hv : t.lookup name = some v) (a : α) :
    (t'.lookup name = some v ∧
        update t' name v.version a = (.ok (), t'.insert name ⟨v.version + 1, a⟩)) ∨
      ∃ e, update t' name v.version a = (.error e, t') := by
  obtain ⟨v', hv', -, hsame⟩ := h name v hv
  by_cases heq : v'.version = v.version
  · rw [hsame heq] at hv'
    exact .inl ⟨hv', update_of_same hv' a⟩
  · refine .inr ⟨.conflict, ?_⟩
    rw [update, hv']
    simp [heq]

end Objects
end Orchestrator.Lib

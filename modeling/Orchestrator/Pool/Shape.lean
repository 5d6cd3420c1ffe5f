/-
  Orchestrator.Pool.Shape

  Which pool serves a workload (internal/pool/types.go): the one whose pods have exactly
  the shape of the request.  Shapes are compared by `ShapeKey`, a hash of a canonical form
  with defaults filled in and volumes sorted.  CPU is an exact number, and `key`, the hash
  of the JSON of a canonical form, is assumed to be injective.
-/

import Mathlib.Algebra.Order.Ring.Unbundled.Rat
import Mathlib.Data.List.Nodup

namespace Orchestrator.Pools

open Std List

structure Volume where
  source : String
  path : String
  subPath : String
  readOnly : Bool
deriving DecidableEq

structure Spec where
  image : String
  command : String := ""
  runtimeClass : String := ""
  cpu : ℚ
  memory : Int
  port : Int
  environment : List (String × String) := []
  volumes : List Volume := []
  mounts : Bool := false
  terminationGracePeriodSeconds : Int := 0
deriving DecidableEq

structure Pool extends Spec where
  id : String
  maxIdleSeconds : Int := 0
deriving DecidableEq

/-- The comparison that the volumes are sorted by. -/
def compareVolume (a b : Volume) : Ordering :=
  (compare a.source b.source).then <| (compare a.path b.path).then <|
    (compare a.subPath b.subPath).then <|
      if a.readOnly = b.readOnly then .eq else if a.readOnly = false then .lt else .gt

def sortVolumes (volumes : List Volume) : List Volume :=
  volumes.mergeSort fun a b => (compareVolume a b).isLE

/-- The record that `ShapeKey` encodes. -/
structure Canonical where
  image : String
  port : Int
  cpu : ℚ
  memory : Int
  runtimeClass : String
  volumes : List Volume
  mounts : Bool
  grace : Int
deriving DecidableEq

/-- The isolation tier; none means `runc`. -/
def Spec.tier (shape : Spec) : String :=
  if shape.runtimeClass = "" then "runc" else shape.runtimeClass

/-- The grace period; none means thirty seconds. -/
def Spec.grace (shape : Spec) : Int :=
  if shape.terminationGracePeriodSeconds = 0 then 30 else shape.terminationGracePeriodSeconds

def Spec.canonical (shape : Spec) : Canonical :=
  ⟨shape.image, shape.port, shape.cpu, shape.memory, shape.tier, sortVolumes shape.volumes,
    shape.mounts, shape.grace⟩

section

variable {κ : Type} [DecidableEq κ] (key : Canonical → κ)

def shapeKey (shape : Spec) : κ := key shape.canonical

/-- `Match`. -/
def matchPool (pools : List Pool) (shape : Spec) : Option Pool :=
  pools.find? fun p => shapeKey key p.toSpec = shapeKey key shape

/-- The loop of `ValidateTransparent` after the pools `before`; `quote` is the verb `%q`. -/
def validateAfter (quote : String → String) (kind : String) (before : List Pool) :
    List Pool → Except String Unit
  | [] => .ok ()
  | p :: rest =>
    let name := kind ++ " pool " ++ quote p.id ++ ": "
    if p.cpu ≤ 0 ∨ p.memory ≤ 0 then
      .error (name ++ "cpu and memory are required for exact shape matching")
    else if p.command ≠ "" ∨ p.environment ≠ [] then
      .error (name ++
        "command and environment are request-time fields and must not be configured on the pool")
    else if p.maxIdleSeconds ≠ 0 then
      .error (name ++
        "maxIdleSeconds is a request-time policy and must not be configured on the pool")
    else
      match before.find? fun q => shapeKey key q.toSpec = shapeKey key p.toSpec with
      | some q =>
        .error (kind ++ " pools " ++ quote q.id ++ " and " ++ quote p.id ++
          " declare the same fixed shape")
      | none => validateAfter quote kind (before ++ [p]) rest

def validateTransparent (quote : String → String) (pools : List Pool) (kind : String) :
    Except String Unit :=
  validateAfter key quote kind [] pools

end

def SameShape (a b : Spec) : Prop :=
  a.image = b.image ∧ a.port = b.port ∧ a.cpu = b.cpu ∧ a.memory = b.memory ∧ a.tier = b.tier ∧
    a.volumes.Perm b.volumes ∧ a.mounts = b.mounts ∧ a.grace = b.grace

/-! ## Sorted volumes -/

theorem compareVolume_eq_lex : compareVolume =
    compareLex (compareOn Volume.source) (compareLex (compareOn Volume.path)
      (compareLex (compareOn Volume.subPath) (compareOn Volume.readOnly))) := by
  funext ⟨_, _, _, r⟩ ⟨_, _, _, r'⟩
  cases r <;> cases r' <;> rfl

instance : TransCmp compareVolume := by
  rw [compareVolume_eq_lex]
  infer_instance

theorem eq_of_compareVolume {a b : Volume} (h : compareVolume a b = .eq) : a = b := by
  obtain ⟨source, path, subPath, r⟩ := a
  obtain ⟨source', path', subPath', r'⟩ := b
  rw [compareVolume_eq_lex] at h
  simpa [compareLex, compareOn, Ordering.then_eq_eq] using h

theorem pairwise_sortVolumes (vs : List Volume) :
    (sortVolumes vs).Pairwise fun a b => (compareVolume a b).isLE := by
  refine pairwise_mergeSort (fun _ _ _ => TransCmp.isLE_trans) ?_ vs
  intro a b
  have hswap : compareVolume a b = (compareVolume b a).swap := OrientedCmp.eq_swap
  rw [hswap]
  cases compareVolume b a <;> rfl

/-- Sorting forgets the order of a list, and nothing else. -/
theorem sortVolumes_eq_iff {vs ws : List Volume} :
    sortVolumes vs = sortVolumes ws ↔ vs.Perm ws := by
  constructor
  · intro h
    have hws : (sortVolumes ws).Perm ws := mergeSort_perm ..
    rw [← h] at hws
    exact (mergeSort_perm ..).symm.trans hws
  · intro h
    refine Perm.eq_of_pairwise ?_ (pairwise_sortVolumes vs) (pairwise_sortVolumes ws) ?_
    · exact fun a b _ _ hab hba => eq_of_compareVolume (OrientedCmp.isLE_antisymm hab hba)
    · exact (mergeSort_perm ..).trans (h.trans (mergeSort_perm ..).symm)

/-! ## Keys -/

section

variable {κ : Type} {key : Canonical → κ}

/-- Two shapes have one key if and only if the same pods serve them. -/
theorem shapeKey_eq_iff (hkey : Function.Injective key) {a b : Spec} :
    shapeKey key a = shapeKey key b ↔ SameShape a b := by
  rw [shapeKey, shapeKey, hkey.eq_iff]
  simp only [Spec.canonical, Canonical.mk.injEq, sortVolumes_eq_iff, SameShape]

variable [DecidableEq κ] {quote : String → String} {kind : String}

/-- Accepted pools have different keys. -/
theorem nodup_of_validateAfter {before pools : List Pool}
    (h : validateAfter key quote kind before pools = .ok ())
    (hbefore : (before.map (shapeKey key ∘ Pool.toSpec)).Nodup) :
    ((before ++ pools).map (shapeKey key ∘ Pool.toSpec)).Nodup := by
  induction pools generalizing before with
  | nil => rwa [append_nil]
  | cons p rest ih =>
    simp only [validateAfter] at h
    repeat' split at h
    all_goals try cases h
    rename_i hfind
    have hp : ∀ q ∈ before, ¬ shapeKey key q.toSpec = shapeKey key p.toSpec := by
      simpa using find?_eq_none.mp hfind
    rw [append_cons]
    refine ih h ?_
    rw [map_append, nodup_append]
    refine ⟨hbefore, nodup_singleton _, ?_⟩
    simpa using hp

/-- What is found is a pool of the requested shape, and every such pool is found. -/
theorem matchPool_of_accepted (hkey : Function.Injective key) {pools listed : List Pool}
    (h : validateTransparent key quote pools kind = .ok ()) (hlisted : listed.Perm pools)
    (shape : Spec) (p : Pool) :
    matchPool key listed shape = some p ↔ p ∈ pools ∧ SameShape p.toSpec shape := by
  rw [← shapeKey_eq_iff hkey, ← hlisted.mem_iff, matchPool]
  constructor
  · intro hfind
    exact ⟨mem_of_find?_eq_some hfind, by simpa using find?_some hfind⟩
  rintro ⟨hp, hkeys⟩
  cases hfind : listed.find? fun q => shapeKey key q.toSpec = shapeKey key shape with
  | none => exact absurd hkeys (by simpa using find?_eq_none.mp hfind p hp)
  | some q =>
    have hq : shapeKey key q.toSpec = shapeKey key shape := by simpa using find?_some hfind
    have hmem := hlisted.mem_iff.mp (mem_of_find?_eq_some hfind)
    have hnodup := nodup_of_validateAfter h nodup_nil
    rw [inj_on_of_nodup_map hnodup hmem (hlisted.mem_iff.mp hp) (hq.trans hkeys.symm)]

/-- **Keys and pools.**  Two shapes have one key exactly if the same pods serve them; so among
    accepted pools, in every order, `Match` returns the one pool of a shape, or nothing if
    there is none. -/
theorem shapes_matched (hkey : Function.Injective key) :
    (∀ a b : Spec, shapeKey key a = shapeKey key b ↔ SameShape a b) ∧
      ∀ quote kind pools, validateTransparent key quote pools kind = .ok () →
        ∀ shape, (∀ p ∈ pools, SameShape p.toSpec shape →
            ∀ listed : List Pool, listed.Perm pools → matchPool key listed shape = some p) ∧
          ((∀ p ∈ pools, ¬ SameShape p.toSpec shape) →
            ∀ listed : List Pool, listed.Perm pools → matchPool key listed shape = none) := by
  refine ⟨fun a b => shapeKey_eq_iff hkey, fun quote kind pools h shape => ⟨?_, ?_⟩⟩
  · intro p hp hsame listed hlisted
    exact (matchPool_of_accepted hkey h hlisted shape p).mpr ⟨hp, hsame⟩
  · intro hnone listed hlisted
    refine Option.eq_none_iff_forall_ne_some.mpr fun p hp => ?_
    obtain ⟨hmem, hsame⟩ := (matchPool_of_accepted hkey h hlisted shape p).mp hp
    exact hnone p hmem hsame

theorem shapes_matched_either_order :
    let small : Pool := { id := "s", image := "i", cpu := 1, memory := 64, port := 80 }
    let large : Pool := { id := "l", image := "i", cpu := 2, memory := 64, port := 80 }
    validateTransparent id id [small, large] "sandbox" = .ok () ∧
      matchPool id [large, small] { small.toSpec with terminationGracePeriodSeconds := 30 } =
        some small := by
  intro small large
  have h : validateTransparent id id [small, large] "sandbox" = .ok () := by decide
  refine ⟨h, ((shapes_matched Function.injective_id).2 id "sandbox" _ h _).1 small mem_cons_self
    ?_ _ (.swap ..)⟩
  exact ⟨rfl, rfl, rfl, rfl, rfl, .refl _, rfl, rfl⟩

end

end Orchestrator.Pools

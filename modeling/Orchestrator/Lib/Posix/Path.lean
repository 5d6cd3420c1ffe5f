/-
  Orchestrator.Lib.Posix.Path

  Lexical paths: what can be said about a path text without looking at a file system.

  A text is cut at its slashes into components (`parts`); `cleanComps` drops the empty
  ones and the dots and lets every dot-dot take the component before it away, and `clean`
  writes the result as a text again.
-/

import Orchestrator.Lib.Posix.Tree

namespace Orchestrator.Lib.Posix

open List

/-- One component of a path that is being cleaned, `out` being what is kept so far. -/
def cleanStep (rooted : Bool) (out : List Name) (c : Name) : List Name :=
  if c = [] ∨ c = dot then out
  else if c = dotdot then
    match out.getLast? with
    -- a dot-dot above the first component stays in a relative path only
    | none => if rooted then [] else [dotdot]
    | some last => if last = dotdot then out ++ [dotdot] else out.dropLast
  else out ++ [c]

/-- The components of the shortest path that is lexically the same. -/
def cleanComps (rooted : Bool) (comps : List Name) : List Name :=
  comps.foldl (cleanStep rooted) []

/-- The components with slashes between them. -/
def joinSlash (comps : List Name) : List Char := ['/'].intercalate comps

/-- The shortest path text that is lexically the same; the empty one is the dot. -/
def clean (path : List Char) : List Char :=
  let comps := cleanComps (isAbs path) (parts path)
  if isAbs path then '/' :: joinSlash comps
  else if comps = [] then dot
  else joinSlash comps

example : clean "a//b/./../c".toList = "a/c".toList := by decide
example : clean "/../a/..".toList = "/".toList := by decide
example : clean "a/../../b".toList = "../b".toList := by decide

variable {comps : List Name}

theorem foldl_cleanStep_proper {rooted : Bool} {out : List Name} (h : ∀ c ∈ comps, Proper c) :
    comps.foldl (cleanStep rooted) out = out ++ comps := by
  induction comps generalizing out with
  | nil => rw [foldl_nil, append_nil]
  | cons c comps ih =>
    have hc := h c mem_cons_self
    have hstep : cleanStep rooted out c = out ++ [c] := by
      unfold cleanStep
      rw [if_neg (not_or.mpr ⟨hc.1, hc.2.1⟩), if_neg hc.2.2]
    rw [foldl_cons, hstep, ih (fun b hb => h b (mem_cons_of_mem c hb)),
      append_assoc, singleton_append]

theorem cleanComps_proper {rooted : Bool} (h : ∀ c ∈ comps, Proper c) :
    cleanComps rooted comps = comps := by
  rw [cleanComps, foldl_cleanStep_proper h, nil_append]

theorem parts_joinSlash (h : ∀ c ∈ comps, '/' ∉ c) (hne : comps ≠ []) :
    parts (joinSlash comps) = comps :=
  splitOn_intercalate '/' h hne

theorem not_isAbs_joinSlash {c : Name} (hc : Proper c) (hs : '/' ∉ c) :
    isAbs (joinSlash (c :: comps)) = false := by
  obtain ⟨x, xs, rfl⟩ : ∃ x xs, c = x :: xs := exists_cons_of_ne_nil hc.1
  have hx : x ≠ '/' := fun heq => hs (heq ▸ mem_cons_self)
  have hhead : (joinSlash ((x :: xs) :: comps)).head? = some x := by
    cases comps with
    | nil | cons d comps => rfl
  unfold isAbs
  rw [hhead]
  exact decide_eq_false (fun heq => hx (Option.some.inj heq))

theorem slash_not_mem_parts {path : List Char} : ∀ c ∈ parts path, '/' ∉ c := by
  induction path with
  | nil => decide
  | cons x path ih =>
    intro c hc
    rw [parts, splitOn_cons_eq_if_modifyHead] at hc
    by_cases hx : (x == '/') = true
    · rw [if_pos hx, mem_cons] at hc
      rcases hc with rfl | hc
      · exact not_mem_nil
      · exact ih c hc
    · rw [if_neg hx] at hc
      obtain ⟨first, more, hsplit⟩ := exists_cons_of_ne_nil (splitOn_ne_nil '/' path)
      rw [hsplit, modifyHead_cons, mem_cons] at hc
      rcases hc with rfl | hc
      · rw [mem_cons, not_or]
        refine ⟨fun heq => hx (by rw [← heq]; rfl), ih first ?_⟩
        rw [parts, hsplit]
        exact mem_cons_self
      · exact ih c (by rw [parts, hsplit]; exact mem_cons_of_mem first hc)

theorem cleanComps_rooted_proper (h : ∀ c ∈ comps, '/' ∉ c) :
    ∀ c ∈ cleanComps true comps, Proper c ∧ '/' ∉ c := by
  have hfold : ∀ out : List Name, (∀ c ∈ out, Proper c ∧ '/' ∉ c) →
      ∀ c ∈ comps.foldl (cleanStep true) out, Proper c ∧ '/' ∉ c := by
    induction comps with
    | nil => exact fun out hout => hout
    | cons d comps ih =>
      intro out hout
      rw [foldl_cons]
      apply ih (fun c hc => h c (mem_cons_of_mem d hc))
      intro c hc
      unfold cleanStep at hc
      by_cases hdrop : d = [] ∨ d = dot
      · rw [if_pos hdrop] at hc
        exact hout c hc
      rw [if_neg hdrop] at hc
      by_cases hup : d = dotdot
      · rw [if_pos hup] at hc
        cases hlast : out.getLast? with
        | none =>
          rw [hlast] at hc
          simp at hc
        | some last =>
          rw [hlast] at hc
          have hmem : last ∈ out := mem_of_getLast? hlast
          simp only [if_neg (hout last hmem).1.2.2] at hc
          exact hout c (dropLast_subset out hc)
      · rw [if_neg hup, mem_append, mem_singleton] at hc
        rcases hc with hc | rfl
        · exact hout c hc
        · exact ⟨⟨fun hnil => hdrop (.inl hnil), fun hdot => hdrop (.inr hdot), hup⟩,
            h c mem_cons_self⟩
  exact hfold [] (by simp)

theorem joinSlash_inj {a b : List Name} (ha : ∀ c ∈ a, Proper c ∧ '/' ∉ c)
    (hb : ∀ c ∈ b, Proper c ∧ '/' ∉ c) : joinSlash a = joinSlash b ↔ a = b := by
  constructor
  · intro h
    have hnil : ∀ x : List Name, (∀ c ∈ x, Proper c ∧ '/' ∉ c) → joinSlash x = [] → x = [] := by
      intro x hx hjoin
      by_contra hne
      have hparts := parts_joinSlash (fun c hc => (hx c hc).2) hne
      rw [hjoin] at hparts
      have hmem : [] ∈ x := by rw [← hparts]; decide
      exact (hx [] hmem).1.1 rfl
    by_cases hane : a = []
    · subst hane
      exact (hnil b hb h.symm).symm
    by_cases hbne : b = []
    · subst hbne
      exact hnil a ha h
    · rw [← parts_joinSlash (fun c hc => (ha c hc).2) hane, h,
        parts_joinSlash (fun c hc => (hb c hc).2) hbne]
  · rintro rfl
    rfl

/-- **A text goes on below another exactly when the names do.** -/
theorem joinSlash_below {a b : List Name} (ha : ∀ c ∈ a, Proper c ∧ '/' ∉ c)
    (hb : ∀ c ∈ b, Proper c ∧ '/' ∉ c) (hne : a ≠ []) :
    joinSlash a ++ ['/'] <+: joinSlash b ↔ a <+: b ∧ a ≠ b := by
  have happend : ∀ x y : List Name, x ≠ [] → y ≠ [] →
      joinSlash (x ++ y) = joinSlash x ++ '/' :: joinSlash y := by
    intro x
    induction x with
    | nil => intro y hx; exact absurd rfl hx
    | cons c x ih =>
      intro y _ hy
      obtain ⟨d, y, rfl⟩ := exists_cons_of_ne_nil hy
      cases x with
      | nil => simp [joinSlash, intercalate]
      | cons e x =>
        have hrest := ih (d :: y) (by simp) (by simp)
        simp only [joinSlash, cons_append, intercalate_cons_cons] at hrest ⊢
        rw [hrest]
        simp
  constructor
  · rintro ⟨rest, hrest⟩
    have hbne : b ≠ [] := by
      rintro rfl
      simp [joinSlash] at hrest
    have heq : b = a ++ parts rest := by
      rw [append_assoc, singleton_append] at hrest
      rw [← parts_joinSlash (fun c hc => (hb c hc).2) hbne, ← hrest, parts,
        splitOn_append_cons_self]
      exact congrArg (· ++ parts rest) (parts_joinSlash (fun c hc => (ha c hc).2) hne)
    refine ⟨⟨parts rest, heq.symm⟩, ?_⟩
    rintro rfl
    have hlen := congrArg length heq
    have hpos : parts rest ≠ [] := by simp [parts]
    rw [length_append] at hlen
    have := length_pos_iff.mpr hpos
    omega
  · rintro ⟨⟨rest, rfl⟩, hne'⟩
    have hrest : rest ≠ [] := by
      rintro rfl
      simp at hne'
    rw [happend a rest hne hrest]
    exact ⟨joinSlash rest, by simp⟩

/-- A relative path of names is clean. -/
theorem clean_joinSlash (h : ∀ c ∈ comps, Proper c ∧ '/' ∉ c) (hne : comps ≠ []) :
    clean (joinSlash comps) = joinSlash comps := by
  have hcomps : cleanComps false (parts (joinSlash comps)) = comps := by
    rw [parts_joinSlash (fun c hc => (h c hc).2) hne, cleanComps_proper (fun c hc => (h c hc).1)]
  obtain ⟨c, rest, rfl⟩ := exists_cons_of_ne_nil hne
  have habs : isAbs (joinSlash (c :: rest)) = false :=
    not_isAbs_joinSlash (h c mem_cons_self).1 (h c mem_cons_self).2
  unfold clean
  rw [habs, hcomps]
  simp

end Orchestrator.Lib.Posix

/-
  Orchestrator.Lib.Posix.Grow

  Trees that have all entries of another.

  What a path leads to in a tree, it leads to in every tree that has the same entries and
  more: `resolve_mono`, `parent_mono` and `lstat_mono`.  `Grown` is the relation for a
  process that only adds entries.  On the way to what is there everything is there
  (`lstat_front`), and a tree never gives the error of a failing device (`link_ne_io`).
-/

import Orchestrator.Lib.Posix.Host

namespace Orchestrator.Lib.Posix.Tree

variable {t t' : Tree} {cs p d x : Path} {c : Name}

/-- Every entry of the first tree is in the second. -/
def Sub (t t' : Tree) : Prop := ∀ q node, t.get q = some node → t'.get q = some node

theorem Cut.sub (h : Cut t t' x) : Sub t' t := by
  intro q node hq
  rw [h.get] at hq
  split at hq
  · cases hq
  · exact hq

theorem Put.sub {n : Node} (h : Put t t' x n) (hnew : t.get x = none) : Sub t t' := by
  intro q node hq
  rw [h.get, if_neg (fun heq => ?_)]
  · exact hq
  · rw [heq, hnew] at hq
    cases hq

/-! ## Resolution -/

theorem resolve_ok : t.resolve cs = .ok p ↔ ∃ m, t.walk maxLinks [] cs = .ok (m, p) := by
  unfold resolve
  cases hwalk : t.walk maxLinks [] cs with
  | error e => simp [Except.map]
  | ok r =>
    obtain ⟨m, q⟩ := r
    simp [Except.map]

theorem resolve_mono (hsub : Sub t t') (h : t.resolve cs = .ok p) : t'.resolve cs = .ok p := by
  obtain ⟨m, hwalk⟩ := resolve_ok.mp h
  exact resolve_ok.mpr ⟨m, walk_mono hsub hwalk⟩

theorem parent_mono (hsub : Sub t t') (h : t.parent cs = .ok (d, c)) : t'.parent cs = .ok (d, c) := by
  obtain ⟨hlast, hres, hdir⟩ := parent_ok h
  unfold parent
  rw [resolve_mono hsub hres, show cs.getLast? = some c by rw [hlast, List.getLast?_concat]]
  exact if_pos (hsub _ _ hdir)

theorem lstat_ok {node : Node} (hne : cs ≠ []) :
    t.lstat cs = .ok node ↔ ∃ d c, t.parent cs = .ok (d, c) ∧ t.get (d ++ [c]) = some node := by
  unfold lstat
  rw [if_neg hne]
  cases t.parent cs with
  | error e => simp
  | ok dc =>
    obtain ⟨d, c⟩ := dc
    cases hget : t.get (d ++ [c]) with
    | none | some n => simp [hget]

theorem lstat_mono (hsub : Sub t t') {node : Node} (h : t.lstat cs = .ok node) :
    t'.lstat cs = .ok node := by
  by_cases hne : cs = []
  · subst hne
    exact h
  · obtain ⟨d, c, hparent, hget⟩ := (lstat_ok hne).mp h
    exact (lstat_ok hne).mpr ⟨d, c, parent_mono hsub hparent, hsub _ _ hget⟩

theorem walk_of_parent {n : Node} (hparent : t.parent cs = .ok (d, c))
    (hget : t.get (d ++ [c]) = some n) (hn : ∀ target, n ≠ .link target) :
    ∃ m, t.walk maxLinks [] cs = .ok (m, d ++ [c]) := by
  obtain ⟨hlast, hres, hdir⟩ := parent_ok hparent
  obtain ⟨m, hwalk⟩ := resolve_ok.mp hres
  have hsome : t.get (d ++ [c]) ≠ none := by
    rw [hget]
    exact Option.some_ne_none n
  have hc : Proper c := t.proper (d ++ [c]) c hsome (by simp)
  refine ⟨m, ?_⟩
  rw [hlast, walk_append, hwalk]
  show t.walk m d [c] = _
  rw [walk_node hdir (by rw [hget]; simpa using hn) hsome hc, walk_nil]

/-- The standard library follows at least as many links as the kernel. -/
theorem evalSymlinks_of_walk {m : Nat} (h : t.walk maxLinks [] cs = .ok (m, p)) :
    t.evalSymlinks cs = .ok p := by
  have hmore := walk_budget (maxLinksWalked - maxLinks) h
  unfold evalSymlinks
  rw [show maxLinksWalked = maxLinks + (maxLinksWalked - maxLinks) from rfl, hmore]
  rfl

/-! ## The way to what is there -/

theorem walk_front {rest : Path} {node : Node} (h : t.lstat (cs ++ rest) = .ok node)
    (hne : rest ≠ []) :
    ∃ m p, t.walk maxLinks [] cs = .ok (m, p) ∧ t.get p = some .dir ∧
      ∃ r, t.walk m p rest.dropLast = .ok r := by
  obtain ⟨d, c, hparent, -⟩ := (lstat_ok (by simp [hne])).mp h
  obtain ⟨-, hres, hdir⟩ := parent_ok hparent
  obtain ⟨m', hwalk⟩ := resolve_ok.mp hres
  rw [List.dropLast_append_of_ne_nil hne, walk_append] at hwalk
  cases hfront : t.walk maxLinks [] cs with
  | error e =>
    rw [hfront] at hwalk
    cases hwalk
  | ok r =>
    obtain ⟨m, p⟩ := r
    rw [hfront] at hwalk
    change t.walk m p rest.dropLast = .ok (m', d) at hwalk
    refine ⟨m, p, rfl, ?_, _, hwalk⟩
    cases hrest : rest.dropLast with
    | nil =>
      rw [hrest, walk_nil] at hwalk
      cases hwalk
      exact hdir
    | cons c' rest' =>
      by_contra hnot
      rw [hrest] at hwalk
      have hfail : t.walk m p (c' :: rest') = .error .notdir ∨
          t.walk m p (c' :: rest') = .error .noent := walk_notdir hnot
      rcases hfail with herr | herr <;>
      · rw [herr] at hwalk
        cases hwalk

theorem stat_front {rest : Path} {node : Node} (h : t.lstat (cs ++ rest) = .ok node)
    (hne : rest ≠ []) : t.stat cs = .ok .dir := by
  obtain ⟨m, p, hwalk, hdir, -⟩ := walk_front h hne
  rw [stat, resolve_ok.mpr ⟨m, hwalk⟩]
  simp only [hdir]

theorem lstat_front {rest : Path} {node : Node} (h : t.lstat (cs ++ c :: rest) = .ok node)
    (hc : Proper c) : ∃ node', t.lstat (cs ++ [c]) = .ok node' := by
  cases rest with
  | nil => exact ⟨node, h⟩
  | cons c' rest =>
    obtain ⟨m, p, hwalk, hdir, r, hrest⟩ := walk_front h (List.cons_ne_nil c _)
    have hparent : t.parent (cs ++ [c]) = .ok (p, c) := by
      rw [parent, List.getLast?_concat, List.dropLast_concat, resolve_ok.mpr ⟨m, hwalk⟩]
      exact if_pos hdir
    cases hget : t.get (p ++ [c]) with
    | none =>
      rw [List.dropLast_cons_cons, walk_missing hdir hget hc] at hrest
      cases hrest
    | some node' => exact ⟨node', (lstat_ok (by simp)).mpr ⟨p, c, hparent, hget⟩⟩

theorem lstat_removed {node : Node} (h : t.remove cs = .ok t') : t'.lstat cs ≠ .ok node := by
  intro hlstat
  obtain ⟨d, c, hparent, -, hcut⟩ := remove_ok h
  have hne : cs ≠ [] := by
    rintro rfl
    cases hparent
  obtain ⟨d', c', hparent', hget⟩ := (lstat_ok hne).mp hlstat
  rw [parent_mono hcut.sub hparent'] at hparent
  cases hparent
  rw [hcut.get, if_pos rfl] at hget
  cases hget

/-! ## Errors of the tree -/

theorem walk_ne_io (t : Tree) (n : Nat) (cur : Path) (comps : List Name) :
    t.walk n cur comps ≠ .error .io := by
  apply walk_induction (P := fun n cur comps => t.walk n cur comps ≠ .error .io)
  · intro n cur
    rw [walk_nil]
    nofun
  · intro n cur c rest ihrest ihlink
    rw [walk_cons]
    split
    · split
      · exact ihrest _
      split
      · exact ihrest _
      split
      · nofun
      · cases n with
        | zero => nofun
        | succ k => exact ihlink k rfl _ _
      · exact ihrest _
    · nofun
    · nofun

theorem parent_ne_io (t : Tree) (cs : Path) : t.parent cs ≠ .error .io := by
  unfold parent
  split
  · nofun
  split
  · rename_i e hres
    rintro ⟨⟩
    unfold resolve at hres
    cases hwalk : t.walk maxLinks [] cs.dropLast with
    | ok r =>
      rw [hwalk] at hres
      cases hres
    | error e =>
      rw [hwalk] at hres
      cases hres
      exact walk_ne_io t _ _ _ hwalk
  · split <;> nofun

theorem place_ne_io {n : Node} {hino : ∀ i, n = .file i → i < t.nextIno} :
    t.place cs n hino ≠ .error .io := by
  unfold place
  split
  · rename_i e hparent
    rintro ⟨⟩
    exact parent_ne_io t cs hparent
  · repeat' split
    all_goals
      intro h
      cases h

theorem link_ne_io (t : Tree) (old new : Path) : t.link old new ≠ .error .io := by
  unfold link
  split
  · rename_i e hparent
    rintro ⟨⟩
    exact parent_ne_io t old hparent
  · split
    · nofun
    · nofun
    · exact place_ne_io
    · exact place_ne_io

/-- A link needs a way to its source and to its place. -/
theorem parents_of_link {old new : Path} (h : t.link old new = .ok t') :
    (t.parent old).isOk = true ∧ (t.parent new).isOk = true := by
  unfold link at h
  cases hold : t.parent old with
  | error e =>
    rw [hold] at h
    cases h
  | ok dc =>
    refine ⟨rfl, ?_⟩
    rw [hold] at h
    have hplaced : ∃ n hino, t.place new n hino = .ok t' := by
      simp only at h
      split at h
      · cases h
      · cases h
      · exact ⟨_, _, h⟩
      · exact ⟨_, _, h⟩
    obtain ⟨n, hino, hplace⟩ := hplaced
    obtain ⟨d, c, hparent, -⟩ := place_ok hplace
    rw [hparent]
    rfl

/-! ## Growth -/

/-- All that was there is there, with its content. -/
structure Grown (t t' : Tree) : Prop where
  sub : Sub t t'
  data : ∀ i < t.nextIno, t'.data i = t.data i
  nextIno : t.nextIno ≤ t'.nextIno

theorem Grown.refl (t : Tree) : Grown t t := ⟨fun _ _ h => h, fun _ _ => rfl, Nat.le_refl _⟩

theorem Grown.put {t₀ : Tree} {n : Node} (h : Grown t₀ t) (hput : Put t t' x n)
    (hnew : t.get x = none) : Grown t₀ t' where
  sub q node hq := hput.sub hnew q node (h.sub q node hq)
  data i hi := (hput.data i (Nat.lt_of_lt_of_le hi h.nextIno)).trans (h.data i hi)
  nextIno := h.nextIno.trans hput.nextIno

theorem Grown.mkdir {t₀ : Tree} (h : Grown t₀ t) (hmk : t.mkdir cs = .ok t') : Grown t₀ t' := by
  obtain ⟨d, c, -, hnew, hput⟩ := place_ok hmk
  exact h.put hput hnew

end Orchestrator.Lib.Posix.Tree

/-
  Orchestrator.Artifact.HardLink

  What a hard link entry that fails leaves behind (internal/artifact/unarchive.go,
  `extractLink`).

  The entry is judged, missing directories are made, what is at the target is removed, and
  the link is made last.  Up to the removal entries are only added.  After it the link call
  fails if the way to its source led through what was removed: a link to a directory, or a
  directory that some other link's target passes and leaves again.
-/

import Orchestrator.Artifact.Unarchive
import Orchestrator.Lib.Posix.Grow

namespace Orchestrator.Artifact

open Lib Lib.Posix Lib.Prog Lib.Posix.Tree

variable {host : Host} {t₀ : Tree} {targetPath destDir src : Path}

/-! ## Before the removal -/

theorem ensureDir_grown {cs : Path} {above : Extract (Except Errno Unit)}
    (habove : Triple (On (Grown t₀)) above (fun _ => On (Grown t₀)) fun _ => On (Grown t₀)) :
    Triple (On (Grown t₀)) (ensureDir host cs above) (fun _ => On (Grown t₀))
      fun _ => On (Grown t₀) := by
  apply look_bind (fun _ ht => ht)
  · intro n
    cases n <;> exact triple_pure fun _ hs => hs.1
  intro _
  apply Triple.bind (habove.pre fun _ hs => hs.1)
  intro r
  cases r with
  | error e => exact triple_pure
  | ok u =>
    apply edit_bind (fun _ ht => ht) (fun t t' ht hmk => ht.mkdir hmk)
    · exact triple_pure
    intro e
    apply look_bind (fun _ ht => ht.1)
    · intro n
      cases n <;> exact triple_pure fun _ hs => hs.1.1
    · intro _
      exact triple_pure fun _ hs => hs.1.1

theorem mkdirAll_grown (cs : Path) :
    Triple (On (Grown t₀)) (mkdirAll host cs : Extract _) (fun _ => On (Grown t₀))
      fun _ => On (Grown t₀) := by
  have hprefix : ∀ n, Triple (On (Grown t₀)) (mkdirPrefix host cs n : Extract _)
      (fun _ => On (Grown t₀)) fun _ => On (Grown t₀) := by
    intro n
    induction n with
    | zero => exact ensureDir_grown (triple_pure fun _ hs => hs)
    | succ n ih => exact ensureDir_grown ih
  exact hprefix cs.length

/-- The names of `parts` lead from `current` through directories. -/
def Straight (t : Tree) : Path → List Name → Prop
  | _, [] => True
  | current, part :: rest =>
    t.lstat (current ++ [part]) = .ok .dir ∧ Straight t (current ++ [part]) rest

/-- The names of `parts` are all there. -/
def Present (t : Tree) : Path → List Name → Prop
  | _, [] => True
  | current, part :: rest =>
    (∃ n, t.lstat (current ++ [part]) = .ok n) ∧ Present t (current ++ [part]) rest

theorem present_of_lstat {cs current : Path} {parts : List Name} {c : Name} {n : Node}
    (h : t₀.lstat cs = .ok n) (hproper : ∀ c ∈ cs, Proper c) (hcs : cs = current ++ parts ++ [c]) :
    Present t₀ current parts := by
  induction parts generalizing current with
  | nil => trivial
  | cons part rest ih =>
    have hsplit : cs = current ++ part :: (rest ++ [c]) := by rw [hcs]; simp
    refine ⟨lstat_front (hsplit ▸ h) (hproper part (by rw [hsplit]; simp)), ?_⟩
    exact ih (by rw [hcs]; simp)

/-- Where everything is there, only directories are passed. -/
theorem descend_straight {parts : List Name} {current : Path} (h : Present t₀ current parts) :
    Triple (On (Grown t₀)) (descend host current parts)
      (fun _ s => Straight t₀ current parts ∧ Grown t₀ s.tree) fun _ => On (Grown t₀) := by
  induction parts generalizing current with
  | nil => exact triple_pure fun s hs => ⟨trivial, hs⟩
  | cons part rest ih =>
    obtain ⟨⟨n₀, hn₀⟩, hrest⟩ := h
    rw [descend]
    apply look_bind (fun _ ht => ht)
    · intro n
      cases n with
      | dir =>
        apply triple_of_states
        rintro s ⟨hgrown, hlstat⟩
        rw [lstat_mono hgrown.sub hn₀] at hlstat
        cases hlstat
        refine (ih hrest).mono ?_ (fun _ s' hs' => ⟨⟨hn₀, hs'.1⟩, hs'.2⟩) fun _ _ hs' => hs'
        rintro s' rfl
        exact hgrown
      | file i | link target => exact triple_throw fun _ hs => hs.1
    · intro e
      cases e with
      | noent =>
        apply triple_of_states
        rintro s ⟨hgrown, hio | hnone⟩
        · cases hio
        · rw [lstat_mono hgrown.sub hn₀] at hnone
          cases hnone
      | _ => exact triple_throw fun _ hs => hs.1

theorem mkdirAllInRoot_straight {root dir : Path}
    (h : underRoot dir root = true → Present t₀ root (dir.drop root.length)) :
    Triple (On (Grown t₀)) (mkdirAllInRoot host root dir)
      (fun _ s => (underRoot dir root = true ∧ Straight t₀ root (dir.drop root.length)) ∧
        Grown t₀ s.tree) fun _ => On (Grown t₀) := by
  unfold mkdirAllInRoot
  apply triple_ite
  · intro hunder
    apply Triple.bind (mkdirAll_grown root)
    intro r
    cases r with
    | error e => exact triple_throw fun _ hs => hs
    | ok u => exact (descend_straight (h hunder)).post fun _ s hs => ⟨⟨hunder, hs.1⟩, hs.2⟩
  · intro _
    exact triple_throw fun _ hs => hs

/-- A directory that is reached through directories needs no making. -/
theorem mkdirAllInRoot_calm {root dir : Path} {E : Stop UnarchiveError → Fs → Prop}
    (hcalm : host.Calm) (hunder : underRoot dir root = true) (hroot : t₀.stat root = .ok .dir)
    (h : Straight t₀ root (dir.drop root.length)) :
    Triple (On (· = t₀)) (mkdirAllInRoot host root dir) (fun _ => On (· = t₀)) E := by
  have hdescend : ∀ parts current, Straight t₀ current parts →
      Triple (On (· = t₀)) (descend host current parts) (fun _ => On (· = t₀)) E := by
    intro parts
    induction parts with
    | nil => exact fun _ _ => triple_pure
    | cons part rest ih =>
      rintro current ⟨hpart, hrest⟩
      rw [descend]
      apply (triple_look_calm hcalm fun t ht => by rw [ht, hpart]).bind_eq
      exact ih _ hrest
  unfold mkdirAllInRoot
  rw [if_pos hunder]
  apply (triple_mkdirAll_calm hcalm fun t ht => by rw [ht, hroot]).bind_eq
  exact hdescend _ _ h

/-! ## The source -/

/-- The source is a file, and not what the target is. -/
structure LinkSource (t : Tree) (src targetPath : Path) : Prop where
  file : ∃ d c i, t.parent src = .ok (d, c) ∧ t.get (d ++ [c]) = some (.file i)
  apart : resolveIfPossible t src ≠ resolveIfPossible t targetPath

/-- The source lies in the destination. -/
def Contained (t : Tree) (src destDir : Path) : Prop :=
  underRoot (resolveWalking t destDir (relativeTo destDir src)) (resolveIfPossible t destDir) = true

/-- A judged hard link has a source; nothing has changed. -/
theorem validateHardLinkSource_source (h : Header) :
    Triple (On (· = t₀))
      (validateHardLinkSource host h targetPath destDir src (resolveIfPossible t₀ destDir))
      (fun _ s => (Contained t₀ src destDir ∧ LinkSource t₀ src targetPath) ∧ s.tree = t₀)
      fun _ => On (· = t₀) := by
  unfold validateHardLinkSource
  apply get_bind
  rintro s rfl
  apply Triple.pre (P := On (· = s.tree)) _ fun _ hs => congrArg Fs.tree hs
  apply triple_ite
  · intro _
    exact triple_throw fun _ hs => hs
  intro hcontained
  apply triple_ite
  · intro _
    exact triple_throw fun _ hs => hs
  intro hapart
  apply look_bind fun _ hs => hs
  · intro n
    cases n with
    | dir | link target => exact triple_throw fun _ hs => hs.1
    | file i =>
      apply triple_pure
      rintro s' ⟨hs, hlstat⟩
      have hsame : s'.tree = s.tree := hs
      rw [hsame] at hlstat
      have hne : src ≠ [] := by
        rintro rfl
        cases hlstat
      obtain ⟨d, c, hparent, hget⟩ := (lstat_ok hne).mp hlstat
      exact ⟨⟨not_not.mp hcontained, ⟨d, c, i, hparent, hget⟩, hapart⟩, hs⟩
  · intro e
    exact triple_throw fun _ hs => hs.1

theorem validateHardLinkSource_calm {E : Stop UnarchiveError → Fs → Prop} (hcalm : host.Calm)
    (h : Header) (hcontained : Contained t₀ src destDir) (hsource : LinkSource t₀ src targetPath) :
    Triple (On (· = t₀))
      (validateHardLinkSource host h targetPath destDir src (resolveIfPossible t₀ destDir))
      (fun _ => On (· = t₀)) E := by
  obtain ⟨d, c, i, hparent, hget⟩ := hsource.file
  have hlstat : t₀.lstat src = .ok (.file i) := by
    refine (lstat_ok ?_).mpr ⟨d, c, hparent, hget⟩
    rintro rfl
    cases hparent
  unfold validateHardLinkSource
  apply get_bind
  rintro s rfl
  apply Triple.pre (P := On (· = s.tree)) _ fun _ hs => congrArg Fs.tree hs
  apply triple_ite
  · exact fun hnot => absurd hcontained hnot
  intro _
  apply triple_ite
  · exact fun hsame => absurd hsame hsource.apart
  intro _
  apply (triple_look_calm hcalm fun t ht => by rw [ht, hlstat]).bind_eq
  exact triple_pure

theorem resolveIfPossible_of_parent {t : Tree} {cs d : Path} {c : Name} {i : Nat}
    (hparent : t.parent cs = .ok (d, c)) (hget : t.get (d ++ [c]) = some (.file i)) :
    resolveIfPossible t cs = d ++ [c] := by
  obtain ⟨m, hwalk⟩ := walk_of_parent hparent hget (by simp)
  unfold resolveIfPossible
  rw [evalSymlinks_of_walk hwalk]

/-- What the source is does not go with the target. -/
theorem LinkSource.ne {d d' : Path} {c c' : Name} {i : Nat} (h : LinkSource t₀ src targetPath)
    (hsrc : t₀.parent src = .ok (d, c)) (hfile : t₀.get (d ++ [c]) = some (.file i))
    (htarget : t₀.parent targetPath = .ok (d', c')) : d ++ [c] ≠ d' ++ [c'] := by
  intro heq
  apply h.apart
  rw [resolveIfPossible_of_parent hsrc hfile, heq]
  rw [heq] at hfile
  exact (resolveIfPossible_of_parent htarget hfile).symm

/-! ## The removal and the link -/

/-- The checks before the removal accept the entry: its source lies in the destination, is a file
    and not what the target is, and from the destination only directories lead to the target. -/
structure Accepted (t : Tree) (src targetPath destDir : Path) : Prop where
  contained : Contained t src destDir
  source : LinkSource t src targetPath
  under : underRoot targetPath.dropLast destDir = true
  straight : Straight t destDir (targetPath.dropLast.drop destDir.length)

/-- When the target alone is removed, its directory and the source can still be looked up. -/
def clear (t : Tree) (src targetPath : Path) : Bool :=
  match t.remove targetPath with
  | .ok t' => (t'.parent src).isOk && (t'.parent targetPath).isOk
  | .error _ => true

theorem ok_of_isOk {α : Type} {r : Except Errno α} (h : r.isOk) : ∃ a, r = .ok a := by
  cases r with
  | error e => cases h
  | ok a => exact ⟨a, rfl⟩

/-- What could be removed from a larger tree can be removed. -/
theorem remove_of_sub {t t' : Tree} {d : Path} {c : Name} (hsub : Sub t₀ t)
    (hcut : Cut t t' (d ++ [c])) (hparent : t₀.parent targetPath = .ok (d, c))
    (hget : t₀.get (d ++ [c]) ≠ none) :
    ∃ t₁, t₀.remove targetPath = .ok t₁ ∧ Cut t₀ t₁ (d ++ [c]) := by
  have hleaf : t₀.children (d ++ [c]) = [] := by
    rw [List.eq_nil_iff_forall_not_mem]
    intro b hb
    obtain ⟨n, hn⟩ := Option.ne_none_iff_exists'.mp (mem_children.mp hb)
    have hstays : t'.get (d ++ [c] ++ [b]) = some n := by
      rw [hcut.get, if_neg (by simp)]
      exact hsub _ _ hn
    have hdir := get_prefix (by rw [hstays]; exact Option.some_ne_none n) (List.cons_ne_nil b [])
    rw [hcut.get, if_pos rfl] at hdir
    cases hdir
  obtain ⟨t₁, hrem⟩ : ∃ t₁, t₀.remove targetPath = .ok t₁ := by
    unfold Tree.remove
    rw [hparent]
    simp only [if_neg hget, dif_pos hleaf]
    exact ⟨_, rfl⟩
  obtain ⟨d', c', hparent', -, hcut'⟩ := remove_ok hrem
  rw [hparent] at hparent'
  cases hparent'
  exact ⟨t₁, hrem, hcut'⟩

/-- The link can be made when what was at the target is gone. -/
theorem link_of_clear {t t₂ : Tree} {d : Path} {c : Name} (hclear : clear t₀ src targetPath)
    (hsource : LinkSource t₀ src targetPath) (hsub : Sub t₀ t) (hcut : Cut t t₂ (d ++ [c]))
    (hparent : t₀.parent targetPath = .ok (d, c)) (hget : t₀.get (d ++ [c]) ≠ none) :
    ∃ t₃, t₂.link src targetPath = .ok t₃ := by
  obtain ⟨t₁, hrem, hcut₁⟩ := remove_of_sub hsub hcut hparent hget
  have hsub₁ : Sub t₁ t₂ := by
    intro q node hq
    rw [hcut.get]
    rw [hcut₁.get] at hq
    split at hq
    · cases hq
    · rename_i hne
      rw [if_neg hne]
      exact hsub q node hq
  -- what can be looked up without the target, can be looked up now
  unfold clear at hclear
  rw [hrem, Bool.and_eq_true] at hclear
  obtain ⟨⟨ds, cs⟩, hsrc₁⟩ := ok_of_isOk hclear.1
  obtain ⟨⟨dt, ct⟩, htarget₁⟩ := ok_of_isOk hclear.2
  have hsrc := parent_mono hsub₁ hsrc₁
  have htarget := parent_mono hsub₁ htarget₁
  rw [parent_mono hcut₁.sub htarget₁] at hparent
  cases hparent
  obtain ⟨ds', cs', i, hsrc₀, hfile⟩ := hsource.file
  rw [parent_mono hcut₁.sub hsrc₁] at hsrc₀
  cases hsrc₀
  have hne := hsource.ne (parent_mono hcut₁.sub hsrc₁) hfile (parent_mono hcut₁.sub htarget₁)
  have hfile₂ : t₂.get (ds ++ [cs]) = some (.file i) := by
    rw [hcut.get, if_neg hne]
    exact hsub _ _ hfile
  have hproper : Proper c := t₀.proper _ c hget (by simp)
  have hnone : t₂.get (d ++ [c]) = none := by
    rw [hcut.get, if_pos rfl]
  unfold Tree.link
  rw [hsrc]
  simp only
  split
  · rename_i heq
    rw [hfile₂] at heq
    cases heq
  · rename_i heq
    rw [hfile₂] at heq
    cases heq
  · exact place_of_new htarget hproper hnone
  · exact place_of_new htarget hproper hnone

theorem remove_ne_noent {t : Tree} {cs : Path} {n : Node} (h : t.lstat cs = .ok n) :
    t.remove cs ≠ .error .noent := by
  by_cases hne : cs = []
  · subst hne
    simp [Tree.remove, Tree.parent]
  obtain ⟨d, c, hparent, hget⟩ := (lstat_ok hne).mp h
  unfold Tree.remove
  rw [hparent]
  simp only [hget, if_neg (Option.some_ne_none n)]
  split <;> simp

/-- The end of an entry whose source is judged: it stops where all is still there, or the
    link call fails by itself. -/
theorem replaceBy_keeps {n : Node} (hproper : ∀ c ∈ targetPath, Proper c)
    (hclear : underRoot targetPath.dropLast destDir = true →
      Straight t₀ destDir (targetPath.dropLast.drop destDir.length) → clear t₀ src targetPath)
    (hsource : LinkSource t₀ src targetPath) (hthere : t₀.lstat targetPath = .ok n) :
    Triple (On (Grown t₀))
      (replaceBy host targetPath destDir .createHardLink (·.link src targetPath)) (fun _ _ => True)
      fun stop s => stop = .crash ∨ stop = .err (.call .createHardLink .io) ∨ Grown t₀ s.tree := by
  have hpresent : underRoot targetPath.dropLast destDir = true →
      Present t₀ destDir (targetPath.dropLast.drop destDir.length) := by
    intro hunder
    obtain ⟨parts, hparts⟩ := List.isPrefixOf_iff_prefix.mp hunder
    rw [← hparts, List.drop_left]
    by_cases hne : targetPath = []
    · rw [hne] at hparts
      obtain ⟨-, rfl⟩ := List.append_eq_nil_iff.mp hparts
      trivial
    · refine present_of_lstat hthere hproper (c := targetPath.getLast hne) ?_
      rw [hparts, List.dropLast_append_getLast]
  unfold replaceBy
  apply Triple.bind ((mkdirAllInRoot_straight hpresent).mono
    (fun _ hs => hs) (fun _ _ hs => hs) fun _ _ hs => .inr (.inr hs))
  intro _
  apply triple_of_prop
  rintro ⟨hunder, hstraight⟩
  -- after the removal the link can still be made
  apply edit_bind (fun _ _ => .inl rfl) (Q := fun t₂ => ∃ t₃, t₂.link src targetPath = .ok t₃)
  · intro t t₂ ht hrem
    obtain ⟨d, c, hparent, -, hcut⟩ := remove_ok hrem
    have hne : targetPath ≠ [] := by
      rintro rfl
      cases hparent
    obtain ⟨d₀, c₀, hparent₀, hget₀⟩ := (lstat_ok hne).mp hthere
    rw [parent_mono ht.sub hparent₀] at hparent
    cases hparent
    exact link_of_clear (hclear hunder hstraight) hsource ht.sub hcut hparent₀
      (by rw [hget₀]; exact Option.some_ne_none n)
  · apply edit_bind (fun _ _ => .inl rfl) (Q := fun _ => True) (fun _ _ _ _ => trivial)
    · exact triple_pure fun _ _ => trivial
    intro e
    apply triple_throw
    rintro s ⟨⟨t₃, hok⟩, hio | herr⟩
    · exact .inr (.inl (by rw [hio]))
    · rw [hok] at herr
      cases herr
  · intro e
    apply triple_ite
    · rintro rfl s ⟨hs, hio | herr⟩
      · cases hio
      · exact absurd herr (remove_ne_noent (lstat_mono hs.sub hthere))
    · intro _
      exact triple_throw fun _ hs => .inr (.inr hs.1)

/-- An accepted entry whose source is reached through its target loses the target. -/
theorem replaceBy_loses (hcalm : host.Calm) {n : Node} (hthere : t₀.lstat targetPath = .ok n)
    (haccepted : Accepted t₀ src targetPath destDir) (hclear : clear t₀ src targetPath = false) :
    Triple (On (· = t₀))
      (replaceBy host targetPath destDir .createHardLink (·.link src targetPath)) (fun _ _ => False)
      fun stop s => (∃ e, e ≠ .io ∧ stop = .err (.call .createHardLink e)) ∧
        s.tree.lstat targetPath ≠ .ok n := by
  obtain ⟨t', hrem⟩ : ∃ t', t₀.remove targetPath = .ok t' := by
    unfold clear at hclear
    cases hrem : t₀.remove targetPath with
    | error e =>
      rw [hrem] at hclear
      cases hclear
    | ok t' => exact ⟨t', rfl⟩
  -- the source or the directory of the target went with it
  obtain ⟨e, herr⟩ : ∃ e, t'.link src targetPath = .error e := by
    cases hlink : t'.link src targetPath with
    | error e => exact ⟨e, rfl⟩
    | ok t₂ =>
      obtain ⟨hsrc, htarget⟩ := parents_of_link hlink
      rw [clear, hrem] at hclear
      simp only [hsrc, htarget] at hclear
      cases hclear
  have hne : targetPath ≠ [] := by
    rintro rfl
    cases hrem
  have hroot : t₀.stat destDir = .ok .dir := by
    obtain ⟨parts, hparts⟩ := List.isPrefixOf_iff_prefix.mp haccepted.under
    have hpath : targetPath = destDir ++ (parts ++ [targetPath.getLast hne]) := by
      rw [← List.append_assoc, hparts, List.dropLast_append_getLast]
    rw [hpath] at hthere
    exact stat_front hthere (by simp)
  unfold replaceBy
  apply Triple.bind (mkdirAllInRoot_calm hcalm haccepted.under hroot haccepted.straight)
  intro _
  apply (triple_edit_calm hcalm (Q := (· = t')) fun t ht => ⟨t', by rw [ht, hrem], rfl⟩).bind_eq
  change Triple (On (· = t')) (edit host (·.link src targetPath) >>= _) _ _
  apply (triple_edit_error hcalm fun t ht => by rw [ht, herr]).bind_eq
  refine triple_throw fun s hs => ⟨⟨e, ?_, rfl⟩, ?_⟩
  · rintro rfl
    exact link_ne_io t' src targetPath herr
  · rw [hs]
    exact lstat_removed hrem

/-- What a hard link entry that fails must keep: the node at the target, and everything else that
    was there.  That the link call fails for no reason of its own is assumed. -/
def KeepsOnFailure (h : Header) (t : Tree) (targetPath destDir src : Path) (n : Node) : Prop :=
  ∀ host calls e,
    (exec (extractHardLink host h targetPath destDir src) ⟨t, calls⟩).1 = .error (.err e) →
    e ≠ .call .createHardLink .io →
    (exec (extractHardLink host h targetPath destDir src) ⟨t, calls⟩).2.tree.lstat targetPath =
        .ok n ∧
      Grown t (exec (extractHardLink host h targetPath destDir src) ⟨t, calls⟩).2.tree

/-- **A hard link that fails keeps what was there**, exactly if, when the checks accept the entry,
    neither its source nor the directory of its target is reached through the target. -/
theorem hardLink_failure_keeps_iff (h : Header) (t : Tree) (targetPath destDir src : Path) (n : Node)
    (hproper : ∀ c ∈ targetPath, Proper c) (hthere : t.lstat targetPath = .ok n) :
    KeepsOnFailure h t targetPath destDir src n ↔
      (Accepted t src targetPath destDir → clear t src targetPath = true) := by
  constructor
  · intro hkeeps haccepted
    by_contra hclear
    -- on a calm host: the target is removed, and the link then fails
    have hloses : Triple (fun s => s = ⟨t, 0⟩) (extractHardLink Host.calm h targetPath destDir src)
        (fun _ _ => False) fun stop s =>
          (∃ e, e ≠ .io ∧ stop = .err (.call .createHardLink e)) ∧ s.tree.lstat targetPath ≠ .ok n := by
      apply get_bind
      rintro s rfl
      apply Triple.bind ((validateHardLinkSource_calm Host.calm_calm h haccepted.contained
        haccepted.source).pre fun s hs => congrArg Fs.tree hs)
      intro _
      exact replaceBy_loses Host.calm_calm hthere haccepted (Bool.not_eq_true _ ▸ hclear)
    have hends := hloses ⟨t, 0⟩ rfl
    have hkept := hkeeps Host.calm 0
    cases hrun : exec (extractHardLink Host.calm h targetPath destDir src) ⟨t, 0⟩ with
    | mk out s =>
      rw [hrun] at hends hkept
      cases out with
      | ok u => exact hends
      | error stop =>
        obtain ⟨⟨e, hio, rfl⟩, hlost⟩ := hends
        exact hlost (hkept _ rfl fun heq => hio (by cases heq; rfl)).1
  · intro hclear host calls e hfail hsound
    -- on any host: up to the removal the tree only grows, and the link then succeeds
    have hkeeps : Triple (fun s' => s' = ⟨t, calls⟩) (extractHardLink host h targetPath destDir src)
        (fun _ _ => True) fun stop s' =>
          stop = .crash ∨ stop = .err (.call .createHardLink .io) ∨ Grown t s'.tree := by
      apply get_bind
      rintro s₁ rfl
      have hsame : ∀ s' : Fs, s'.tree = t → Grown t s'.tree := by
        intro s' hs'
        rw [hs']
        exact Grown.refl _
      apply Triple.bind ((validateHardLinkSource_source h).mono
        (fun s' hs' => congrArg Fs.tree hs') (fun _ _ hs' => hs')
        fun _ s' hs' => .inr (.inr (hsame s' hs')))
      intro _
      apply triple_of_prop
      rintro ⟨hcontained, hsource⟩
      exact (replaceBy_keeps hproper (fun hunder hstraight =>
        hclear ⟨hcontained, hsource, hunder, hstraight⟩) hsource hthere).pre hsame
    have hends := hkeeps ⟨t, calls⟩ rfl
    cases hrun : exec (extractHardLink host h targetPath destDir src) ⟨t, calls⟩ with
    | mk out s' =>
      rw [hrun] at hends hfail
      cases hfail
      rcases hends with hcrash | hio | hgrown
      · cases hcrash
      · cases hio
        exact absurd rfl hsound
      · exact ⟨lstat_mono hgrown.sub hthere, hgrown⟩

/-! ## Runs -/

/-- The directory `d` with the file `d/e/f`, and the link `d/l` to `e`. -/
def linkedDir : Tree :=
  (((Tree.empty.after (·.mkdir ["d".toList])).after (·.mkdir ["d".toList, "e".toList])).after
    (·.touch ["d".toList, "e".toList, "f".toList])).after
      (·.symlink "e".toList ["d".toList, "l".toList])

def linkEntry (source : List Char) : Header :=
  { name := "l".toList, linkname := source, typeflag := .link }

/-- The link that leads to the source is removed before the source is linked. -/
theorem removed_link_lost :
    linkedDir.lstat ["d".toList, "l".toList] = .ok (.link "e".toList) ∧
      (exec (extractHardLink Host.calm (linkEntry "l/f".toList) ["d".toList, "l".toList] ["d".toList]
        ["d".toList, "l".toList, "f".toList]) ⟨linkedDir, 0⟩).1 =
          .error (.err (.call .createHardLink .noent)) ∧
      (exec (extractHardLink Host.calm (linkEntry "l/f".toList) ["d".toList, "l".toList] ["d".toList]
        ["d".toList, "l".toList, "f".toList]) ⟨linkedDir, 0⟩).2.tree.lstat ["d".toList, "l".toList] =
          .error .noent := by
  decide +kernel

/-- A host on which the third call fails for a reason of its own. -/
def thirdFails : Host := { Host.calm with fate := fun n => if n = 2 then .fault else .fine }

/-- A source that is not behind the target, on any host; on this one the removal fails. -/
theorem hardLink_failure_keeps_behind :
    KeepsOnFailure (linkEntry "e/f".toList) linkedDir ["d".toList, "l".toList] ["d".toList]
        ["d".toList, "e".toList, "f".toList] (.link "e".toList) ∧
      (exec (extractHardLink thirdFails (linkEntry "e/f".toList) ["d".toList, "l".toList] ["d".toList]
        ["d".toList, "e".toList, "f".toList]) ⟨linkedDir, 0⟩).1 =
          .error (.err (.call .replaceEntry .io)) :=
  ⟨(hardLink_failure_keeps_iff _ linkedDir _ _ _ _ (by decide) (by decide +kernel)).mpr
    fun _ => by decide +kernel, by decide +kernel⟩

end Orchestrator.Artifact

/-
  Orchestrator.Lib.Posix.Syscall

  The file system calls of a process that is alone on its tree.

  Paths are given from the root directory as lists of names.  Every call resolves the
  directory part of its path and then acts on the last name without following it; `stat`
  and `readDir` resolve the whole path.  A call that fails leaves the tree as it was.

  What a successful edit did is one of three things: `Put` says that one leaf was added,
  `Cut` that one entry is gone, and `Move` that a file took the place of a leaf.
-/

import Mathlib.Data.Char
import Mathlib.Data.List.Lex
import Orchestrator.Lib.Posix.Tree

namespace Orchestrator.Lib.Posix

/-- The links the kernel follows in one resolution. -/
def maxLinks : Nat := 40

namespace Tree

/-! ## Looking -/

/-- Where a path leads. -/
def resolve (t : Tree) (cs : Path) : Except Errno Path := (t.walk maxLinks [] cs).map (·.2)

/-- The directory that the last name of a path is looked up in, and that name. -/
def parent (t : Tree) (cs : Path) : Except Errno (Path × Name) :=
  match cs.getLast? with
  | none => .error .inval
  | some c =>
    match t.resolve cs.dropLast with
    | .error e => .error e
    | .ok d => if t.get d = some .dir then .ok (d, c) else .error .notdir

def lstat (t : Tree) (cs : Path) : Except Errno Node :=
  if cs = [] then .ok .dir
  else
    match t.parent cs with
    | .error e => .error e
    | .ok (d, c) =>
      match t.get (d ++ [c]) with
      | none => .error .noent
      | some n => .ok n

def stat (t : Tree) (cs : Path) : Except Errno Node :=
  match t.resolve cs with
  | .error e => .error e
  | .ok p =>
    match t.get p with
    | none => .error .noent
    | some n => .ok n

def readlink (t : Tree) (cs : Path) : Except Errno (List Char) :=
  match t.lstat cs with
  | .error e => .error e
  | .ok (.link target) => .ok target
  | .ok _ => .error .inval

def children (t : Tree) (p : Path) : List Name :=
  t.nodes.keys.filterMap fun q => if q.dropLast = p then q.getLast? else none

variable {d : Path} {c : Name}

theorem mem_children {t : Tree} {p : Path} :
    c ∈ t.children p ↔ t.get (p ++ [c]) ≠ none := by
  have hget : t.get (p ++ [c]) = t.nodes.lookup (p ++ [c]) := if_neg (by simp)
  rw [hget, ← Option.isSome_iff_ne_none, AList.lookup_isSome, AList.mem_keys, children,
    List.mem_filterMap]
  constructor
  · rintro ⟨q, hq, hc⟩
    split at hc
    · rename_i hp
      obtain ⟨init, rfl⟩ : ∃ init, q = init ++ [c] := List.getLast?_eq_some_iff.mp hc
      rw [List.dropLast_concat] at hp
      rwa [← hp]
    · cases hc
  · intro hmem
    exact ⟨p ++ [c], hmem, by simp⟩

theorem get_of_mem_keys {t : Tree} {p : Path} (h : p ∈ t.nodes.keys) : t.get p ≠ none := by
  unfold get Nodes.get
  split
  · exact nofun
  · rw [← Option.isSome_iff_ne_none, AList.lookup_isSome, AList.mem_keys]
    exact h

/-- The entries of a directory, in the order of their names. -/
def readDir (t : Tree) (cs : Path) : Except Errno (List (Name × Node)) :=
  match t.resolve cs with
  | .error e => .error e
  | .ok p =>
    if t.get p = some .dir then
      .ok (((t.children p).mergeSort fun a b => decide (a ≤ b)).filterMap fun c =>
        (t.get (p ++ [c])).map fun n => (c, n))
    else .error .notdir

/-- The links that the resolution of the standard library follows. -/
def maxLinksWalked : Nat := 255

/-- Where a path leads, worked out from `lstat` and `readlink` component by component. -/
def evalSymlinks (t : Tree) (cs : Path) : Except Errno Path :=
  (t.walk maxLinksWalked [] cs).map (·.2)

/-! ## Edits -/

/-- Add a node where nothing is. -/
def place (t : Tree) (cs : Path) (n : Node) (hino : ∀ i, n = .file i → i < t.nextIno) :
    Except Errno Tree :=
  match t.parent cs with
  | .error e => .error e
  | .ok (d, c) =>
    if hdir : t.get d = some .dir then
      if hname : Proper c then
        if hnew : t.get (d ++ [c]) = none then
          .ok (t.insert d c n hdir hname (by rw [hnew]; exact nofun) hino)
        else .error .exist
      else .error .inval
    else .error .notdir

def mkdir (t : Tree) (cs : Path) : Except Errno Tree := t.place cs .dir nofun

def symlink (t : Tree) (target : List Char) (cs : Path) : Except Errno Tree :=
  if target = [] then .error .noent else t.place cs (.link target) nofun

/-- A second name for a file; a link is named again itself, not what it leads to. -/
def link (t : Tree) (old new : Path) : Except Errno Tree :=
  match t.parent old with
  | .error e => .error e
  | .ok (d, c) =>
    match hget : t.get (d ++ [c]) with
    | none => .error .noent
    | some .dir => .error .perm
    | some (.link target) => t.place new (.link target) nofun
    | some (.file i) =>
      t.place new (.file i) (fun _ hj => Node.file.inj hj ▸ t.ino_lt (d ++ [c]) i hget)

/-- An empty new file, and its inode. -/
def create (t : Tree) (cs : Path) (mode : Nat) : Except Errno (Nat × Tree) :=
  ((t.alloc ⟨mode, []⟩).place cs (.file t.nextIno)
    (fun _ hj => Node.file.inj hj ▸ Nat.lt_succ_self t.nextIno)).map fun t' => (t.nextIno, t')

/-- Unlink a leaf, or remove an empty directory. -/
def remove (t : Tree) (cs : Path) : Except Errno Tree :=
  match t.parent cs with
  | .error e => .error e
  | .ok (d, c) =>
    if t.get (d ++ [c]) = none then .error .noent
    else if hleaf : t.children (d ++ [c]) = [] then
      .ok (t.erase d c (fun b => not_not.mp fun hb => by
        have hmem := mem_children.mpr hb
        rw [hleaf] at hmem
        cases hmem))
    else .error .notempty

theorem get_insert_leaf {t : Tree} {dir q : Path} {name : Name} {i : Nat}
    {hdir : t.get dir = some .dir} {hname : Proper name}
    {hold : t.get (dir ++ [name]) ≠ some .dir} {hino : ∀ j, Node.file i = .file j → j < t.nextIno}
    (hq : t.get q = some (.file i)) :
    (t.insert dir name (.file i) hdir hname hold hino).get q ≠ some .dir := by
  rw [get_insert]
  split
  · exact nofun
  · rw [hq]
    exact nofun

/-- Give a file another name, in place of a leaf that may be there. -/
def rename (t : Tree) (old new : Path) : Except Errno Tree :=
  match t.parent old, t.parent new with
  | .error e, _ => .error e
  | _, .error e => .error e
  | .ok (d, c), .ok (d', c') =>
    match hget : t.get (d ++ [c]) with
    | some (.file i) =>
      -- two names of one file: nothing happens
      if t.get (d' ++ [c']) = some (.file i) then .ok t
      else if hdir : t.get d' = some .dir then
        if hname : Proper c' then
          if hold : t.get (d' ++ [c']) = some .dir then .error .isdir
          else
            let t' := t.insert d' c' (.file i) hdir hname hold
              (fun _ hj => Node.file.inj hj ▸ t.ino_lt (d ++ [c]) i hget)
            .ok (t'.erase d c (get_below (get_insert_leaf hget)))
        else .error .inval
      else .error .notdir
    | some _ => .error .inval
    | none => .error .noent

/-- The tree after an edit, which is the old one if the edit failed. -/
def after (t : Tree) (f : Tree → Except Errno Tree) : Tree :=
  match f t with
  | .ok t' => t'
  | .error _ => t

def touch (t : Tree) (cs : Path) : Except Errno Tree := (t.create cs 0o644).map (·.2)

/-! ## What an edit did -/

/-- One leaf was added. -/
structure Put (t t' : Tree) (x : Path) (n : Node) : Prop where
  get : ∀ q, t'.get q = if q = x then some n else t.get q
  data : ∀ i < t.nextIno, t'.data i = t.data i
  nextIno : t.nextIno ≤ t'.nextIno

/-- One entry is gone. -/
structure Cut (t t' : Tree) (x : Path) : Prop where
  get : ∀ q, t'.get q = if q = x then none else t.get q
  data : t'.data = t.data
  nextIno : t'.nextIno = t.nextIno

/-- A file went from `x` to `y`, in place of what was there. -/
structure Move (t t' : Tree) (x y : Path) (n : Node) : Prop where
  get : ∀ q, t'.get q = if q = x then none else if q = y then some n else t.get q
  data : t'.data = t.data
  nextIno : t'.nextIno = t.nextIno

/-- `tmp` is a new file with an inode of its own; all else is as in `t₀`. -/
structure Holding (t₀ t : Tree) (tmp : Path) (ino : Nat) : Prop where
  new : t₀.get tmp = none
  fresh : t₀.nextIno ≤ ino
  put : Put t₀ t tmp (.file ino)

theorem Holding.setData {t₀ t : Tree} {tmp : Path} {ino : Nat} (h : Holding t₀ t tmp ino)
    (d : FileData) : Holding t₀ (t.setData ino d) tmp ino := by
  refine ⟨h.new, h.fresh, h.put.get, ?_, h.put.nextIno⟩
  intro i hi
  rw [← h.put.data i hi]
  exact Function.update_of_ne (Nat.ne_of_lt (Nat.lt_of_lt_of_le hi h.fresh)) _ _

section

variable {t t' : Tree} {cs : Path}

theorem parent_ok (h : t.parent cs = .ok (d, c)) :
    cs = cs.dropLast ++ [c] ∧ t.resolve cs.dropLast = .ok d ∧ t.get d = some .dir := by
  unfold parent at h
  cases hlast : cs.getLast? with
  | none => simp [hlast] at h
  | some c' =>
    simp only [hlast] at h
    cases hres : t.resolve cs.dropLast with
    | error e => simp [hres] at h
    | ok d' =>
      simp only [hres] at h
      split at h
      · rename_i hdir
        cases h
        obtain ⟨init, hinit⟩ := List.getLast?_eq_some_iff.mp hlast
        refine ⟨?_, rfl, hdir⟩
        rw [hinit, List.dropLast_concat]
      · cases h

theorem place_ok {n : Node} {hino : ∀ i, n = .file i → i < t.nextIno}
    (h : t.place cs n hino = .ok t') :
    ∃ d c, t.parent cs = .ok (d, c) ∧ t.get (d ++ [c]) = none ∧ Put t t' (d ++ [c]) n := by
  unfold place at h
  cases hparent : t.parent cs with
  | error e => simp [hparent] at h
  | ok dc =>
    obtain ⟨d, c⟩ := dc
    simp only [hparent, dif_pos (parent_ok hparent).2.2] at h
    by_cases hname : Proper c
    · rw [dif_pos hname] at h
      by_cases hnew : t.get (d ++ [c]) = none
      · rw [dif_pos hnew] at h
        cases h
        have hput : Put t _ (d ++ [c]) n :=
          ⟨get_insert (parent_ok hparent).2.2 hname (by rw [hnew]; exact nofun) hino,
            fun _ _ => rfl, Nat.le_refl _⟩
        exact ⟨d, c, rfl, hnew, hput⟩
      · rw [dif_neg hnew] at h
        cases h
    · rw [dif_neg hname] at h
      cases h

theorem place_of_new {n : Node} {hino : ∀ i, n = .file i → i < t.nextIno} {d : Path} {c : Name}
    (hparent : t.parent cs = .ok (d, c)) (hname : Proper c) (hnew : t.get (d ++ [c]) = none) :
    ∃ t', t.place cs n hino = .ok t' := by
  unfold place
  simp only [hparent, dif_pos (parent_ok hparent).2.2, dif_pos hname, dif_pos hnew]
  exact ⟨_, rfl⟩

theorem mkdir_of_new (hparent : t.parent cs = .ok (d, c)) (hname : Proper c)
    (hnew : t.get (d ++ [c]) = none) : ∃ t', t.mkdir cs = .ok t' :=
  place_of_new hparent hname hnew

theorem symlink_of_new {target : List Char} (htarget : target ≠ []) (hparent : t.parent cs = .ok (d, c))
    (hname : Proper c) (hnew : t.get (d ++ [c]) = none) :
    ∃ t', t.symlink target cs = .ok t' := by
  unfold symlink
  rw [if_neg htarget]
  exact place_of_new hparent hname hnew

theorem remove_ok (h : t.remove cs = .ok t') :
    ∃ d c, t.parent cs = .ok (d, c) ∧ t.get (d ++ [c]) ≠ none ∧ Cut t t' (d ++ [c]) := by
  unfold remove at h
  cases hparent : t.parent cs with
  | error e => simp [hparent] at h
  | ok dc =>
    obtain ⟨d, c⟩ := dc
    simp only [hparent] at h
    by_cases hnone : t.get (d ++ [c]) = none
    · rw [if_pos hnone] at h
      cases h
    rw [if_neg hnone] at h
    by_cases hleaf : t.children (d ++ [c]) = []
    · rw [dif_pos hleaf] at h
      cases h
      exact ⟨d, c, rfl, hnone, ⟨get_erase _, rfl, rfl⟩⟩
    · rw [dif_neg hleaf] at h
      cases h

theorem parent_congr (hsame : ∀ p, t'.get p = t.get p) (cs : Path) :
    t'.parent cs = t.parent cs := by
  unfold parent resolve
  simp only [walk_congr hsame, hsame]

theorem resolve_physical (h : t.get d = some .dir) : t.resolve d = .ok d := by
  have hwalk : t.walk maxLinks [] d = .ok (maxLinks, d) :=
    walk_physical (by rw [List.nil_append, h]; exact nofun)
      (by rw [List.nil_append, h]; exact nofun) maxLinks
  unfold resolve
  rw [hwalk]
  rfl

theorem parent_physical (h : t.get d = some .dir) (c : Name) :
    t.parent (d ++ [c]) = .ok (d, c) := by
  unfold parent
  rw [List.getLast?_concat, List.dropLast_concat, resolve_physical h]
  exact if_pos h

theorem stat_physical (h : t.get d = some .dir) : t.stat d = .ok .dir := by
  unfold stat
  rw [resolve_physical h]
  simp only [h]

theorem lstat_physical (h : t.get d = some .dir) (c : Name) :
    t.lstat (d ++ [c]) =
      match t.get (d ++ [c]) with
      | none => .error .noent
      | some n => .ok n := by
  unfold lstat
  rw [if_neg (by simp), parent_physical h]

theorem remove_of_none (h : t.get d = some .dir) (hnone : t.get (d ++ [c]) = none) :
    t.remove (d ++ [c]) = .error .noent := by
  unfold remove
  rw [parent_physical h]
  exact if_pos hnone

theorem create_ok {mode ino : Nat} (h : t.create cs mode = .ok (ino, t')) :
    ∃ d c, t.parent cs = .ok (d, c) ∧ t.get (d ++ [c]) = none ∧ ino = t.nextIno ∧
      ino < t'.nextIno ∧ Put t t' (d ++ [c]) (.file ino) := by
  unfold create at h
  cases hplace : (t.alloc ⟨mode, []⟩).place cs (.file t.nextIno)
      (fun _ hj => Node.file.inj hj ▸ Nat.lt_succ_self t.nextIno) with
  | error e => simp [hplace, Except.map] at h
  | ok t₁ =>
    simp only [hplace, Except.map, Except.ok.injEq, Prod.mk.injEq] at h
    obtain ⟨rfl, rfl⟩ := h
    obtain ⟨d, c, hparent, hnew, hput⟩ := place_ok hplace
    rw [parent_congr (get_alloc t ⟨mode, []⟩)] at hparent
    refine ⟨d, c, hparent, hnew, rfl, ?_, hput.get, ?_, ?_⟩
    · exact hput.nextIno
    · intro i hi
      rw [hput.data i (Nat.lt_succ_of_lt hi)]
      exact Function.update_of_ne (Nat.ne_of_lt hi) _ _
    · exact Nat.le_of_succ_le hput.nextIno

theorem create_of_new {mode : Nat} (hparent : t.parent cs = .ok (d, c)) (hname : Proper c)
    (hnew : t.get (d ++ [c]) = none) :
    ∃ ino t', t.create cs mode = .ok (ino, t') := by
  rw [← parent_congr (get_alloc t ⟨mode, []⟩)] at hparent
  obtain ⟨t', ht'⟩ := @place_of_new (t.alloc ⟨mode, []⟩) cs (.file t.nextIno)
    (fun _ hj => Node.file.inj hj ▸ Nat.lt_succ_self t.nextIno) d c hparent hname hnew
  unfold create
  rw [ht']
  exact ⟨_, _, rfl⟩

theorem rename_ok {old : Path} (h : t.rename old cs = .ok t') :
    ∃ d c d' c' i, t.parent old = .ok (d, c) ∧ t.get (d ++ [c]) = some (.file i) ∧
      t.parent cs = .ok (d', c') ∧ t.get (d' ++ [c']) ≠ some .dir ∧
      (t.get (d' ++ [c']) = some (.file i) ∧ t' = t ∨
        Move t t' (d ++ [c]) (d' ++ [c']) (.file i)) := by
  unfold rename at h
  cases hold : t.parent old with
  | error e => simp [hold] at h
  | ok dc =>
    cases hnew : t.parent cs with
    | error e => simp [hold, hnew] at h
    | ok dc' =>
      obtain ⟨d, c⟩ := dc
      obtain ⟨d', c'⟩ := dc'
      simp only [hold, hnew, dif_pos (parent_ok hnew).2.2] at h
      split at h
      · rename_i i hget
        refine ⟨d, c, d', c', i, rfl, hget, rfl, ?_⟩
        by_cases hsame : t.get (d' ++ [c']) = some (.file i)
        · rw [if_pos hsame] at h
          cases h
          exact ⟨by rw [hsame]; exact nofun, .inl ⟨hsame, rfl⟩⟩
        rw [if_neg hsame] at h
        by_cases hname : Proper c'
        · rw [dif_pos hname] at h
          by_cases hdir : t.get (d' ++ [c']) = some .dir
          · rw [dif_pos hdir] at h
            cases h
          rw [dif_neg hdir] at h
          cases h
          refine ⟨hdir, .inr ⟨?_, rfl, rfl⟩⟩
          intro q
          rw [get_erase, get_insert]
        · rw [dif_neg hname] at h
          cases h
      · cases h
      · cases h

theorem rename_of_new {d' : Path} {c' : Name} {old : Path} {i : Nat} (hold : t.parent old = .ok (d, c))
    (hfile : t.get (d ++ [c]) = some (.file i)) (hnew : t.parent cs = .ok (d', c'))
    (hfree : t.get (d' ++ [c']) = none) (hname : Proper c') :
    ∃ t', t.rename old cs = .ok t' ∧ Move t t' (d ++ [c]) (d' ++ [c']) (.file i) := by
  have hren : ∃ t', t.rename old cs = .ok t' := by
    unfold rename
    simp only [hold, hnew, dif_pos (parent_ok hnew).2.2]
    split
    · rename_i j hget
      rw [if_neg (by rw [hfree]; exact nofun), dif_pos hname,
        dif_neg (by rw [hfree]; exact nofun)]
      exact ⟨_, rfl⟩
    · rename_i n hn hget
      rw [hfile] at hget
      cases hget
      exact absurd rfl (hn i)
    · rename_i hget
      rw [hfile] at hget
      cases hget
  obtain ⟨t', ht'⟩ := hren
  obtain ⟨e, b, e', b', j, hold', hget', hnew', -, hmove⟩ := rename_ok ht'
  rw [hold] at hold'
  rw [hnew] at hnew'
  cases hold'
  cases hnew'
  rw [hfile] at hget'
  cases hget'
  rcases hmove with ⟨hsame, -⟩ | hmove
  · rw [hfree] at hsame
    cases hsame
  · exact ⟨t', ht', hmove⟩

end

end Tree

end Orchestrator.Lib.Posix

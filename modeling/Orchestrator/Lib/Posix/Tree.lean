/-
  Orchestrator.Lib.Posix.Tree

  A file tree with symbolic links, and path resolution in it.

  A tree maps physical paths (lists of names, from the root directory) to nodes.
  Its fields carry what every tree satisfies: an entry lies in a directory, names
  are proper, and inode numbers are allocated.  The only edits are adding or
  replacing a leaf and erasing one, and both keep this.

  `walk` is the resolution of the kernel: component by component, following links
  with a budget, relative ones from the directory they are in.
-/

import Mathlib.Data.List.AList
import Mathlib.Data.List.Induction

namespace Orchestrator.Lib.Posix

open List

/-! ## Nodes and trees -/

abbrev Name := List Char

/-- A physical path: names from the root directory. -/
abbrev Path := List Name

def dot : Name := ['.']
def dotdot : Name := ['.', '.']

/-- A name that an entry can have. -/
def Proper (c : Name) : Prop := c ≠ [] ∧ c ≠ dot ∧ c ≠ dotdot

instance (c : Name) : Decidable (Proper c) :=
  inferInstanceAs (Decidable (c ≠ [] ∧ c ≠ dot ∧ c ≠ dotdot))

/-- A path text that starts at the root. -/
def isAbs (target : List Char) : Bool := target.head? = some '/'

/-- The components of a path text. -/
def parts (target : List Char) : List Name := target.splitOn '/'

/-- What is at a path.  A file stands for every node that is neither a directory nor a
    link. -/
inductive Node where
  | dir
  | file (ino : Nat)
  | link (target : List Char)
deriving DecidableEq, Repr

/-- Why a system call fails; `io` is any reason that is not in the tree. -/
inductive Errno where
  | noent
  | exist
  | notdir
  | isdir
  | notempty
  | loop
  | perm
  | inval
  | io
deriving DecidableEq, Repr

/-- What is in an inode. -/
structure FileData where
  mode : Nat
  bytes : List UInt8
deriving DecidableEq, Repr

abbrev Nodes := AList (fun _ : Path => Node)

/-- The root is a directory in any case. -/
def Nodes.get (nodes : Nodes) (p : Path) : Option Node :=
  if p = [] then some .dir else nodes.lookup p

structure Tree where
  nodes : Nodes
  data : Nat → FileData
  nextIno : Nat
  in_dir : ∀ p, nodes.get p ≠ none → nodes.get p.dropLast = some .dir
  proper : ∀ p c, nodes.get p ≠ none → c ∈ p → Proper c
  ino_lt : ∀ p i, nodes.get p = some (.file i) → i < nextIno

namespace Tree

def empty : Tree where
  nodes := ∅
  data := fun _ => ⟨0, []⟩
  nextIno := 0
  in_dir := by
    intro p hp
    unfold Nodes.get at hp ⊢
    split at hp
    · rename_i hnil
      rw [hnil]
      rfl
    · rw [AList.lookup_empty] at hp
      exact absurd rfl hp
  proper := by
    intro p c hp hc
    unfold Nodes.get at hp
    split at hp
    · rename_i hnil
      rw [hnil] at hc
      exact absurd hc not_mem_nil
    · rw [AList.lookup_empty] at hp
      exact absurd rfl hp
  ino_lt := by
    intro p i hp
    unfold Nodes.get at hp
    split at hp
    · cases hp
    · rw [AList.lookup_empty] at hp
      cases hp

def get (t : Tree) (p : Path) : Option Node := t.nodes.get p

@[simp] theorem get_nil (t : Tree) : t.get [] = some .dir := rfl

theorem get_empty {p : Path} (h : p ≠ []) : empty.get p = none := by
  unfold get Nodes.get
  rw [if_neg h]
  exact AList.lookup_empty p

/-- Nothing is below a leaf. -/
theorem get_below {t : Tree} {p : Path} (h : t.get p ≠ some .dir) (c : Name) :
    t.get (p ++ [c]) = none := by
  by_contra hne
  have hdir := t.in_dir (p ++ [c]) hne
  rw [dropLast_concat] at hdir
  exact h hdir

theorem get_prefix {t : Tree} {p q : Path} (h : t.get (p ++ q) ≠ none) (hq : q ≠ []) :
    t.get p = some .dir := by
  induction q using reverseRecOn with
  | nil => exact absurd rfl hq
  | append_singleton q c ih =>
    have hdir := t.in_dir _ h
    rw [← append_assoc, dropLast_concat] at hdir
    by_cases hnil : q = []
    · rw [hnil, append_nil] at hdir
      exact hdir
    · have hsome : t.get (p ++ q) = some .dir := hdir
      exact ih (by rw [hsome]; simp) hnil

/-! ## Edits -/

theorem nodes_get_insert (nodes : Nodes) {p : Path} (hp : p ≠ []) (n : Node) (q : Path) :
    Nodes.get (nodes.insert p n) q = if q = p then some n else nodes.get q := by
  by_cases hq : q = p
  · rw [if_pos hq, hq, Nodes.get, if_neg hp, AList.lookup_insert]
  · rw [if_neg hq, Nodes.get, Nodes.get, AList.lookup_insert_ne hq]

theorem nodes_get_erase (nodes : Nodes) {p : Path} (hp : p ≠ []) (q : Path) :
    Nodes.get (nodes.erase p) q = if q = p then none else nodes.get q := by
  by_cases hq : q = p
  · rw [if_pos hq, hq, Nodes.get, if_neg hp, AList.lookup_erase]
  · rw [if_neg hq, Nodes.get, Nodes.get, AList.lookup_erase_ne hq]

/-- Put a node that is not replacing a directory into a directory. -/
def insert (t : Tree) (dir : Path) (name : Name) (n : Node) (hdir : t.get dir = some .dir)
    (hname : Proper name) (hold : t.get (dir ++ [name]) ≠ some .dir)
    (hino : ∀ i, n = .file i → i < t.nextIno) : Tree where
  nodes := t.nodes.insert (dir ++ [name]) n
  data := t.data
  nextIno := t.nextIno
  in_dir := by
    intro p hp
    rw [nodes_get_insert _ (by simp)] at hp ⊢
    by_cases hpe : p = dir ++ [name]
    · have hne : p.dropLast ≠ dir ++ [name] := by
        rw [hpe, dropLast_concat]
        simp
      rw [if_neg hne, hpe, dropLast_concat]
      exact hdir
    · rw [if_neg hpe] at hp
      have hparent := t.in_dir p hp
      have hne : p.dropLast ≠ dir ++ [name] := by
        intro heq
        rw [heq] at hparent
        exact hold hparent
      rw [if_neg hne]
      exact hparent
  proper := by
    intro p c hp hc
    rw [nodes_get_insert _ (by simp)] at hp
    by_cases hpe : p = dir ++ [name]
    · rw [hpe] at hc
      rcases mem_append.mp hc with hin | hin
      · exact t.proper dir c (by rw [show t.nodes.get dir = some .dir from hdir]; simp) hin
      · rw [mem_singleton.mp hin]
        exact hname
    · rw [if_neg hpe] at hp
      exact t.proper p c hp hc
  ino_lt := by
    intro p i hp
    rw [nodes_get_insert _ (by simp)] at hp
    by_cases hpe : p = dir ++ [name]
    · rw [if_pos hpe] at hp
      exact hino i (Option.some.inj hp)
    · rw [if_neg hpe] at hp
      exact t.ino_lt p i hp

/-- Take an entry without children away. -/
def erase (t : Tree) (dir : Path) (name : Name)
    (hleaf : ∀ c, t.get (dir ++ [name] ++ [c]) = none) : Tree where
  nodes := t.nodes.erase (dir ++ [name])
  data := t.data
  nextIno := t.nextIno
  in_dir := by
    intro p hp
    rw [nodes_get_erase _ (by simp)] at hp ⊢
    by_cases hpe : p = dir ++ [name]
    · rw [if_pos hpe] at hp
      exact absurd rfl hp
    rw [if_neg hpe] at hp
    have hne : p.dropLast ≠ dir ++ [name] := by
      intro heq
      have hnil : p ≠ [] := by
        intro hnil
        rw [hnil] at heq
        simp at heq
      have hlast := hleaf (p.getLast hnil)
      rw [← heq, dropLast_concat_getLast hnil] at hlast
      exact hp hlast
    rw [if_neg hne]
    exact t.in_dir p hp
  proper := by
    intro p c hp hc
    rw [nodes_get_erase _ (by simp)] at hp
    by_cases hpe : p = dir ++ [name]
    · rw [if_pos hpe] at hp
      exact absurd rfl hp
    · rw [if_neg hpe] at hp
      exact t.proper p c hp hc
  ino_lt := by
    intro p i hp
    rw [nodes_get_erase _ (by simp)] at hp
    by_cases hpe : p = dir ++ [name]
    · rw [if_pos hpe] at hp
      cases hp
    · rw [if_neg hpe] at hp
      exact t.ino_lt p i hp

def alloc (t : Tree) (d : FileData) : Tree where
  nodes := t.nodes
  data := Function.update t.data t.nextIno d
  nextIno := t.nextIno + 1
  in_dir := t.in_dir
  proper := t.proper
  ino_lt := fun p i hp => Nat.lt_succ_of_lt (t.ino_lt p i hp)

def setData (t : Tree) (ino : Nat) (d : FileData) : Tree :=
  { t with data := Function.update t.data ino d }

section

variable {t : Tree} {dir : Path} {name : Name}

@[simp] theorem get_insert {n : Node} (hdir : t.get dir = some .dir) (hname : Proper name)
    (hold : t.get (dir ++ [name]) ≠ some .dir) (hino : ∀ i, n = .file i → i < t.nextIno) (q : Path) :
    (t.insert dir name n hdir hname hold hino).get q =
      if q = dir ++ [name] then some n else t.get q :=
  nodes_get_insert t.nodes (by simp) n q

@[simp] theorem get_erase (hleaf : ∀ c, t.get (dir ++ [name] ++ [c]) = none) (q : Path) :
    (t.erase dir name hleaf).get q = if q = dir ++ [name] then none else t.get q :=
  nodes_get_erase t.nodes (by simp) q

@[simp] theorem get_alloc (t : Tree) (d : FileData) (q : Path) : (t.alloc d).get q = t.get q := rfl

@[simp] theorem get_setData (t : Tree) (ino : Nat) (d : FileData) (q : Path) :
    (t.setData ino d).get q = t.get q := rfl

end

/-! ## Path resolution -/

/-- Walk `comps` from directory `cur` with a budget of `n` links; `follow` goes on
    behind a link, and has one less. -/
def walkWith (t : Tree) (follow : Path → List Name → Except Errno (Nat × Path)) (n : Nat) :
    Path → List Name → Except Errno (Nat × Path)
  | cur, [] => .ok (n, cur)
  | cur, c :: rest =>
    match t.get cur with
    | some .dir =>
      if c = [] ∨ c = dot then t.walkWith follow n cur rest
      else if c = dotdot then t.walkWith follow n cur.dropLast rest
      else
        match t.get (cur ++ [c]) with
        | none => .error .noent
        | some (.link target) =>
          follow (if isAbs target then [] else cur) (parts target ++ rest)
        | some _ => t.walkWith follow n (cur ++ [c]) rest
    | some _ => .error .notdir
    | none => .error .noent

/-- Resolve `comps` from `cur`, following at most `n` links: where it ends, and the links
    that are left. -/
def walk (t : Tree) : Nat → Path → List Name → Except Errno (Nat × Path)
  | 0 => t.walkWith (fun _ _ => .error .loop) 0
  | n + 1 => t.walkWith (t.walk n) (n + 1)

/-- Where a walk goes on behind a link. -/
def follow (t : Tree) : Nat → Path → List Name → Except Errno (Nat × Path)
  | 0, _, _ => .error .loop
  | n + 1, start, comps => t.walk n start comps

section

variable {t t' : Tree} {n m : Nat} {cur p : Path} {c : Name} {comps rest : List Name}

theorem walk_nil (t : Tree) (n : Nat) (cur : Path) : t.walk n cur [] = .ok (n, cur) := by
  cases n <;> rfl

theorem walk_cons (t : Tree) (n : Nat) (cur : Path) (c : Name) (rest : List Name) :
    t.walk n cur (c :: rest) =
      match t.get cur with
      | some .dir =>
        if c = [] ∨ c = dot then t.walk n cur rest
        else if c = dotdot then t.walk n cur.dropLast rest
        else
          match t.get (cur ++ [c]) with
          | none => .error .noent
          | some (.link target) =>
            t.follow n (if isAbs target then [] else cur) (parts target ++ rest)
          | some _ => t.walk n (cur ++ [c]) rest
      | some _ => .error .notdir
      | none => .error .noent := by
  cases n <;> rfl

/-- The step of a walk, for a component that is looked up. -/
inductive Step (t : Tree) (cur : Path) (c : Name) : Prop where
  | stay (h : c = [] ∨ c = dot)
  | up (h : c = dotdot) (hne : ¬ (c = [] ∨ c = dot))
  | missing (h : t.get (cur ++ [c]) = none) (hc : Proper c)
  | link (target : List Char) (h : t.get (cur ++ [c]) = some (.link target)) (hc : Proper c)
  | node (hl : ∀ target, t.get (cur ++ [c]) ≠ some (.link target))
      (h : t.get (cur ++ [c]) ≠ none) (hc : Proper c)

theorem step_cases (t : Tree) (cur : Path) (c : Name) : Step t cur c := by
  by_cases hstay : c = [] ∨ c = dot
  · exact .stay hstay
  by_cases hup : c = dotdot
  · exact .up hup hstay
  have hc : Proper c := ⟨fun h => hstay (.inl h), fun h => hstay (.inr h), hup⟩
  cases hget : t.get (cur ++ [c]) with
  | none => exact .missing hget hc
  | some node =>
    cases node with
    | link target => exact .link target hget hc
    | dir | file i => exact .node (by simp [hget]) (by simp [hget]) hc

section

variable (hdir : t.get cur = some .dir)
include hdir

theorem walk_stay (h : c = [] ∨ c = dot) :
    t.walk n cur (c :: rest) = t.walk n cur rest := by
  rw [walk_cons, hdir]
  exact if_pos h

theorem walk_up (h : c = dotdot) :
    t.walk n cur (c :: rest) = t.walk n cur.dropLast rest := by
  rw [walk_cons, hdir]
  subst h
  rfl

theorem walk_missing (h : t.get (cur ++ [c]) = none) (hc : Proper c) :
    t.walk n cur (c :: rest) = .error .noent := by
  rw [walk_cons, hdir, h]
  simp only
  rw [if_neg (not_or.mpr ⟨hc.1, hc.2.1⟩), if_neg hc.2.2]

theorem walk_link {target : List Char} (h : t.get (cur ++ [c]) = some (.link target))
    (hc : Proper c) :
    t.walk n cur (c :: rest) =
      t.follow n (if isAbs target then [] else cur) (parts target ++ rest) := by
  rw [walk_cons, hdir, h]
  simp only
  rw [if_neg (not_or.mpr ⟨hc.1, hc.2.1⟩), if_neg hc.2.2]

theorem walk_node (hl : ∀ target, t.get (cur ++ [c]) ≠ some (.link target))
    (h : t.get (cur ++ [c]) ≠ none) (hc : Proper c) :
    t.walk n cur (c :: rest) = t.walk n (cur ++ [c]) rest := by
  rw [walk_cons, hdir]
  simp only
  rw [if_neg (not_or.mpr ⟨hc.1, hc.2.1⟩), if_neg hc.2.2]
  cases hget : t.get (cur ++ [c]) with
  | none => exact absurd hget h
  | some node =>
    cases node with
    | link target => exact absurd hget (hl target)
    | dir | file i => rfl

end

/-- A walk with components to go fails at once outside of a directory. -/
theorem walk_notdir (h : t.get cur ≠ some .dir) :
    t.walk n cur (c :: rest) = .error .notdir ∨ t.walk n cur (c :: rest) = .error .noent := by
  rw [walk_cons]
  cases hget : t.get cur with
  | none => exact .inr rfl
  | some node =>
    cases node with
    | dir => exact absurd hget h
    | file i | link target => exact .inl rfl

theorem dir_of_walk {r : Nat × Path} (h : t.walk n cur (c :: rest) = .ok r) :
    t.get cur = some .dir := by
  by_contra hne
  have hfail : t.walk n cur (c :: rest) = .error .notdir ∨ t.walk n cur (c :: rest) = .error .noent :=
    walk_notdir hne
  rcases hfail with herr | herr
  · rw [herr] at h
    cases h
  · rw [herr] at h
    cases h

/-- Induction over a walk: on the links that are left, then on the components. -/
theorem walk_induction {P : Nat → Path → List Name → Prop} (hnil : ∀ n cur, P n cur [])
    (hcons : ∀ n cur c rest, (∀ cur', P n cur' rest) →
      (∀ k, n = k + 1 → ∀ cur' comps, P k cur' comps) → P n cur (c :: rest)) :
    ∀ n cur comps, P n cur comps := by
  intro n
  induction n with
  | zero =>
    intro cur comps
    induction comps generalizing cur with
    | nil => exact hnil 0 cur
    | cons c rest ih => exact hcons 0 cur c rest ih (fun k hk => by omega)
  | succ n ihn =>
    intro cur comps
    induction comps generalizing cur with
    | nil => exact hnil (n + 1) cur
    | cons c rest ih =>
      apply hcons (n + 1) cur c rest ih
      intro k hk
      obtain rfl : n = k := by omega
      exact ihn

/-- **A walk along a concatenation** is one walk after the other. -/
theorem walk_append (t : Tree) (n : Nat) (cur : Path) (xs ys : List Name) :
    t.walk n cur (xs ++ ys) = (t.walk n cur xs).bind fun r => t.walk r.1 r.2 ys := by
  revert ys
  apply walk_induction (P := fun n cur xs => ∀ ys, t.walk n cur (xs ++ ys) =
    (t.walk n cur xs).bind fun r => t.walk r.1 r.2 ys)
  · intro n cur ys
    rw [walk_nil]
    rfl
  · intro n cur c rest ihrest ihlink ys
    rw [cons_append]
    by_cases hdir : t.get cur = some .dir
    · cases step_cases t cur c with
      | stay h => rw [walk_stay hdir h, walk_stay hdir h, ihrest]
      | up h _ => rw [walk_up hdir h, walk_up hdir h, ihrest]
      | missing h hc =>
        rw [walk_missing hdir h hc, walk_missing hdir h hc]
        rfl
      | link target h hc =>
        rw [walk_link hdir h hc, walk_link hdir h hc, ← append_assoc]
        cases n with
        | zero => rfl
        | succ k => exact ihlink k rfl _ _ ys
      | node hl h hc => rw [walk_node hdir hl h hc, walk_node hdir hl h hc, ihrest]
    · rw [walk_cons, walk_cons]
      cases hget : t.get cur with
      | none => rfl
      | some node =>
        cases node with
        | dir => exact absurd hget hdir
        | file i | link target => rfl

/-- **What a walk found stays found** in a tree that has all entries of the first. -/
theorem walk_mono (hsub : ∀ p node, t.get p = some node → t'.get p = some node)
    {r : Nat × Path} (h : t.walk n cur comps = .ok r) : t'.walk n cur comps = .ok r := by
  revert r
  apply walk_induction (P := fun n cur comps => ∀ r, t.walk n cur comps = .ok r →
    t'.walk n cur comps = .ok r)
  · intro n cur r h
    rw [walk_nil] at h ⊢
    exact h
  · intro n cur c rest ihrest ihlink r h
    have hdir := dir_of_walk h
    have hdir' := hsub _ _ hdir
    cases step_cases t cur c with
    | stay hs =>
      rw [walk_stay hdir hs] at h
      rw [walk_stay hdir' hs]
      exact ihrest _ _ h
    | up hs _ =>
      rw [walk_up hdir hs] at h
      rw [walk_up hdir' hs]
      exact ihrest _ _ h
    | missing hm hc =>
      rw [walk_missing hdir hm hc] at h
      cases h
    | link target hl hc =>
      rw [walk_link hdir hl hc] at h
      rw [walk_link hdir' (hsub _ _ hl) hc]
      cases n with
      | zero => cases h
      | succ k => exact ihlink k rfl _ _ _ h
    | node hl hn hc =>
      obtain ⟨node, hnode⟩ := Option.ne_none_iff_exists'.mp hn
      have hnode' := hsub _ _ hnode
      rw [walk_node hdir hl hn hc] at h
      rw [walk_node hdir' _ (by rw [hnode']; simp) hc]
      · exact ihrest _ _ h
      · intro target heq
        rw [hnode'] at heq
        exact hl target (hnode.trans heq)

theorem walk_congr (hsame : ∀ p, t'.get p = t.get p) (n : Nat) (cur : Path) (comps : List Name) :
    t'.walk n cur comps = t.walk n cur comps := by
  apply walk_induction (P := fun n cur comps => t'.walk n cur comps = t.walk n cur comps)
  · intro n cur
    rw [walk_nil, walk_nil]
  · intro n cur c rest ihrest ihlink
    rw [walk_cons, walk_cons, hsame, hsame, ihrest, ihrest, ihrest]
    cases n with
    | zero => rfl
    | succ k => simp only [follow, ihlink k rfl]

/-- A physical path that is no link resolves to itself. -/
theorem walk_physical {q : Path} (h : t.get (cur ++ q) ≠ none)
    (hl : ∀ target, t.get (cur ++ q) ≠ some (.link target)) (n : Nat) :
    t.walk n cur q = .ok (n, cur ++ q) := by
  induction q generalizing cur with
  | nil => rw [walk_nil, append_nil]
  | cons c q ih =>
    have hsplit : cur ++ c :: q = cur ++ [c] ++ q := by simp
    have hdir : t.get cur = some .dir := get_prefix h (by simp)
    have hc : Proper c := t.proper _ c h (by simp)
    rw [hsplit] at h hl ⊢
    have hnode : (∀ target, t.get (cur ++ [c]) ≠ some (.link target)) ∧
        t.get (cur ++ [c]) ≠ none := by
      cases q with
      | nil =>
        rw [append_nil] at h hl
        exact ⟨hl, h⟩
      | cons d q =>
        have hmid := get_prefix h (by simp)
        rw [hmid]
        simp
    rw [walk_node hdir hnode.1 hnode.2 hc]
    exact ih h hl

/-- More links to follow change nothing for a walk that came to its end. -/
theorem walk_budget (k : Nat) (h : t.walk n cur comps = .ok (m, p)) :
    t.walk (n + k) cur comps = .ok (m + k, p) := by
  revert m p
  apply walk_induction (P := fun n cur comps => ∀ {m p}, t.walk n cur comps = .ok (m, p) →
    t.walk (n + k) cur comps = .ok (m + k, p))
  · intro n cur m p h
    rw [walk_nil] at h ⊢
    cases h
    rfl
  · intro n cur c rest ihrest ihlink m p h
    have hdir := dir_of_walk h
    cases step_cases t cur c with
    | stay hs =>
      rw [walk_stay hdir hs] at h ⊢
      exact ihrest _ h
    | up hs _ =>
      rw [walk_up hdir hs] at h ⊢
      exact ihrest _ h
    | missing hm hc =>
      rw [walk_missing hdir hm hc] at h
      cases h
    | link target hl hc =>
      rw [walk_link hdir hl hc] at h ⊢
      cases n with
      | zero => cases h
      | succ j =>
        have hshift : j + 1 + k = (j + k) + 1 := by omega
        rw [hshift]
        exact ihlink j rfl _ _ h
    | node hl hn hc =>
      rw [walk_node hdir hl hn hc] at h ⊢
      exact ihrest _ h

end

end Tree

end Orchestrator.Lib.Posix

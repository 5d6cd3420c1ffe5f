/-
  Orchestrator.Lib.Overlay

  The union of a read-only base tree and an upper layer.

  A layer records what was changed over the base: new or changed files, links, directories
  and special files as they are, a deletion as a whiteout, and a directory that replaces one
  of the base with an opaque mark.  `merged` is what a process sees at a path.

  `merged_bare_iff` says what is lost when the marks are: a layer without whiteouts shows
  the same tree without its opaque marks exactly if no marked directory hides something.
-/

import Orchestrator.Lib.Posix.Syscall

namespace Orchestrator.Lib.Overlay

open Posix List

/-! ## Items -/

/-- Files without content of their own. -/
inductive Special where
  | fifo
  | socket
  | device
deriving DecidableEq, Repr

/-- What a process sees at a path, up to permissions. -/
inductive Item where
  | dir
  | file (bytes : List UInt8)
  | link (target : List Char)
  | special (kind : Special)
deriving DecidableEq, Repr

/-- The entry of a tree at a path. -/
def itemAt (t : Tree) (p : Path) : Option Item :=
  match t.get p with
  | none => none
  | some .dir => some .dir
  | some (.file i) => some (.file (t.data i).bytes)
  | some (.link target) => some (.link target)

theorem itemAt_eq_none {t : Tree} {p : Path} : itemAt t p = none ↔ t.get p = none := by
  unfold itemAt
  split <;> simp_all

/-! ## Layers -/

/-- An entry of an upper layer. -/
inductive LayerNode where
  | file (bytes : List UInt8)
  | link (target : List Char)
  | dir (isOpaque : Bool)
  | whiteout
  | special (kind : Special)
deriving DecidableEq, Repr

def LayerNode.item : LayerNode → Option Item
  | file bytes => some (.file bytes)
  | link target => some (.link target)
  | dir _ => some .dir
  | whiteout => none
  | special kind => some (.special kind)

/-- Neither a file, nor a link, nor a directory; a whiteout is a character device. -/
def LayerNode.isSpecial : LayerNode → Bool
  | whiteout | special _ => true
  | _ => false

structure Record where
  path : Path
  node : LayerNode
  mode : Nat := 0o644
  mtime : Int := 0
deriving DecidableEq, Repr

def nodeAt (records : List Record) (q : Path) : Option LayerNode :=
  (records.find? (·.path = q)).map (·.node)

/-- A name of an entry, as it stands in a path text. -/
def Plain (c : Name) : Prop := Proper c ∧ '/' ∉ c

instance (c : Name) : Decidable (Plain c) := inferInstanceAs (Decidable (_ ∧ _))

/-- An upper layer, listed so that every entry comes after the directory it is in. -/
structure Layer where
  records : List Record
  mtime : Int := 0
  nodup : (records.map (·.path)).Nodup
  placed : ∀ pre r post, records = pre ++ r :: post →
    ∃ d c, r.path = d ++ [c] ∧ Plain c ∧
      (d = [] ∨ ∃ isOpaque, nodeAt pre d = some (.dir isOpaque))
  target_ne : ∀ r ∈ records, r.node ≠ .link []

def Layer.get (l : Layer) (q : Path) : Option LayerNode := nodeAt l.records q

theorem nodeAt_append_of_new {pre : List Record} {r : Record} (hnew : nodeAt pre r.path = none)
    (q : Path) :
    nodeAt (pre ++ [r]) q = if q = r.path then some r.node else nodeAt pre q := by
  unfold nodeAt at hnew ⊢
  rw [find?_append]
  by_cases hq : q = r.path
  · subst hq
    rw [Option.map_eq_none_iff] at hnew
    rw [hnew, if_pos rfl, find?_singleton, if_pos (by simp)]
    rfl
  · rw [if_neg hq, find?_singleton, if_neg (by simpa using fun h => hq h.symm),
      Option.or_none]

theorem nodeAt_eq_none {records : List Record} {q : Path} :
    nodeAt records q = none ↔ ∀ r ∈ records, r.path ≠ q := by
  simp [nodeAt]

theorem mem_of_nodeAt {records : List Record} {q : Path} {n : LayerNode}
    (h : nodeAt records q = some n) : ∃ r ∈ records, r.path = q ∧ r.node = n := by
  obtain ⟨r, hr, hn⟩ := Option.map_eq_some_iff.mp h
  exact ⟨r, mem_of_find?_eq_some hr, by simpa using find?_some hr, hn⟩

theorem Layer.nodeAt_before {l : Layer} {pre post : List Record} {r : Record}
    (h : l.records = pre ++ r :: post) : nodeAt pre r.path = none := by
  rw [nodeAt_eq_none]
  intro r' hr' heq
  have hnodup := l.nodup
  rw [h, map_append, map_cons] at hnodup
  have hdisj := disjoint_of_nodup_append hnodup
  exact hdisj (mem_map_of_mem hr') (by rw [heq]; exact mem_cons_self)

theorem Layer.plain {l : Layer} {r : Record} (h : r ∈ l.records) : ∀ b ∈ r.path, Plain b := by
  -- by induction on the length: the directory of an entry is listed before it
  have hall : ∀ n, ∀ r ∈ l.records, r.path.length = n → ∀ b ∈ r.path, Plain b := by
    intro n
    induction n with
    | zero =>
      intro r _ hlen b hb
      rw [length_eq_zero_iff.mp hlen] at hb
      exact absurd hb not_mem_nil
    | succ n ih =>
      intro r hr hlen b hb
      obtain ⟨pre, post, hsplit⟩ := append_of_mem hr
      obtain ⟨d, c, hpath, hc, habove⟩ := l.placed pre r post hsplit
      rw [hpath, length_append, length_singleton, Nat.add_right_cancel_iff] at hlen
      rw [hpath, mem_append, mem_singleton] at hb
      rcases hb with hd | rfl
      · rcases habove with rfl | ⟨isOpaque, hnode⟩
        · exact absurd hd not_mem_nil
        obtain ⟨r', hr', rfl, -⟩ := mem_of_nodeAt hnode
        apply ih r' _ hlen b hd
        rw [hsplit]
        exact mem_append_left _ hr'
      · exact hc
  exact hall r.path.length r h rfl

/-! ## The merged tree -/

section

variable {base : Path → Option Item} {up : Path → Option LayerNode} {q : Path}

/-- On the way to `q` the layer has plain directories at most. -/
def Passes (up : Path → Option LayerNode) (q : Path) : Prop :=
  ∀ k < q.length, 0 < k → up (q.take k) = none ∨ up (q.take k) = some (.dir false)

instance (up : Path → Option LayerNode) (q : Path) : Decidable (Passes up q) :=
  inferInstanceAs (Decidable (∀ k < q.length, 0 < k → _))

/-- What is seen at a path. -/
def merged (base : Path → Option Item) (up : Path → Option LayerNode) (q : Path) : Option Item :=
  if q = [] then some .dir
  else
    match up q with
    | some n => n.item
    | none => if Passes up q then base q else none

/-- A layer node without its mark. -/
def LayerNode.bare : LayerNode → LayerNode
  | dir _ => .dir false
  | n => n

theorem LayerNode.item_bare (n : LayerNode) : n.bare.item = n.item := by
  cases n <;> rfl

/-- A layer without its marks. -/
def unmarked (up : Path → Option LayerNode) (p : Path) : Option LayerNode :=
  (up p).map LayerNode.bare

/-- The layer hides nothing of the base behind an opaque mark: what it would show without
    its marks, it shows. -/
def HidesNothing (base : Path → Option Item) (up : Path → Option LayerNode) : Prop :=
  ∀ q, q ≠ [] → base q ≠ none → up q = none →
    Passes (unmarked up) q → Passes up q

theorem passes_bare (h : Passes up q) : Passes (unmarked up) q := by
  intro k hk hpos
  rcases h k hk hpos with hnone | hdir
  · exact .inl (by rw [unmarked, hnone]; rfl)
  · exact .inr (by rw [unmarked, hdir]; rfl)

/-- **Without its marks** a layer shows the same tree exactly if no mark hides something. -/
theorem merged_bare_iff :
    (∀ q, merged base (unmarked up) q = merged base up q) ↔
      HidesNothing base up := by
  constructor
  · intro hsame q hq hbase hup hpass
    by_contra hblock
    have hq' := hsame q
    unfold merged at hq'
    rw [if_neg hq, if_neg hq, unmarked, hup] at hq'
    simp only [Option.map_none] at hq'
    rw [if_pos hpass, if_neg hblock] at hq'
    exact hbase hq'
  · intro hhides q
    unfold merged
    by_cases hq : q = []
    · rw [if_pos hq, if_pos hq]
    rw [if_neg hq, if_neg hq, unmarked]
    cases hup : up q with
    | some n => exact n.item_bare
    | none =>
      simp only [Option.map_none]
      by_cases hbase : base q = none
      · rw [hbase, ite_self, ite_self]
      · by_cases hpass : Passes up q
        · rw [if_pos hpass, if_pos (passes_bare hpass)]
        · rw [if_neg hpass, if_neg (fun h => hpass (hhides q hq hbase hup h))]

theorem hidesNothing_of_unmarked {l : Layer} (h : ∀ r ∈ l.records, r.node ≠ .dir true) :
    HidesNothing base l.get := by
  intro q _ _ _ hpass k hk hpos
  rcases hpass k hk hpos with hnone | hdir
  · exact .inl (Option.map_eq_none_iff.mp hnone)
  obtain ⟨n, hn, hbare⟩ := Option.map_eq_some_iff.mp hdir
  obtain ⟨r, hr, -, rfl⟩ := mem_of_nodeAt hn
  have hmark := h r hr
  rw [hn]
  cases hnode : r.node with
  | dir isOpaque =>
    cases isOpaque with
    | false => exact .inr rfl
    | true => exact absurd hnode hmark
  | file bytes | link target | whiteout | special kind =>
    rw [hnode] at hbare
    cases hbare

/-- What is merged depends on the layer's nodes only up to permissions. -/
theorem merged_congr {up' : Path → Option LayerNode}
    (h : ∀ p, p ≠ [] → (up' p).map LayerNode.item = (up p).map LayerNode.item)
    (hplain : ∀ p, p ≠ [] → (up' p = some (.dir false) ↔ up p = some (.dir false)))
    (q : Path) : merged base up' q = merged base up q := by
  have hnone : ∀ p, p ≠ [] → (up' p = none ↔ up p = none) := by
    intro p hp
    rw [← Option.map_eq_none_iff, h p hp, Option.map_eq_none_iff]
  have hpasses : Passes up' q ↔ Passes up q := by
    apply forall_congr'
    intro k
    apply imp_congr_right
    intro hk
    apply imp_congr_right
    intro hpos
    have hne : q.take k ≠ [] := by
      intro hnil
      have hlen := congrArg length hnil
      rw [length_take, length_nil] at hlen
      omega
    rw [hnone _ hne, hplain _ hne]
  unfold merged
  by_cases hq : q = []
  · rw [if_pos hq, if_pos hq]
  rw [if_neg hq, if_neg hq]
  have hitem := h q hq
  cases hup : up q with
  | none =>
    rw [(hnone q hq).mpr hup]
    simp only [hpasses]
  | some n =>
    cases hup' : up' q with
    | none =>
      rw [hup, hup'] at hitem
      cases hitem
    | some n' =>
      rw [hup, hup'] at hitem
      exact Option.some.inj hitem

end

end Orchestrator.Lib.Overlay

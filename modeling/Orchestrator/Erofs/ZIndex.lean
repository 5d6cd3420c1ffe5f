/-
  Orchestrator.Erofs.ZIndex

  The logical-cluster index of a compressed file: extents, the index entries the
  writer derives from them, and where in the list of extents a logical cluster
  lies.

  A compressed extent of `n` logical clusters gives one HEAD and `n - 1` NONHEAD
  entries; the first NONHEAD carries the number of physical blocks instead of a
  distance, distances saturate below that flag, and in the full layout the last
  entry of the file is replaced by a boundary marker when the file ends inside
  its last cluster.  A plain extent gives one PLAIN entry a cluster.

  `locate` finds the extent of a logical cluster and the position in it; the index holds
  the entry of that position (`getElem?_zIndexEntries`).
-/

import Orchestrator.Lib.Bits

namespace Orchestrator.Erofs

open Lib List

/-! ## Extents and entries -/

/-- `uint32(x)`. -/
def u32 (x : Nat) : Nat := x % 2 ^ 32

def zLclusterPlain : Nat := 0
def zLclusterHead1 : Nat := 1
def zLclusterNonhead : Nat := 2

/-- Flag of the first NONHEAD, which carries the compressed block count. -/
def zCblkcntBit : Nat := 1 <<< 11

def zMapHeaderSize : Nat := 8
def zFullIndexExtra : Nat := 8
def zLclusterIdxSize : Nat := 8

/-- `zExtent`: `lclusters` logical clusters decoded from `blocks` physical blocks
    at `blkOff` of the compressed region; a plain one stores its data raw. -/
structure ZExtent where
  lclusters : Nat
  blocks : Nat
  blkOff : Nat
  plain : Bool
deriving DecidableEq, Repr, Inhabited

structure ZIndexEntry where
  typ : Nat := 0
  clusterofs : Nat := 0
  u : Nat := 0
deriving DecidableEq, Repr, Inhabited

/-- The distance field of the NONHEAD at position `i`. -/
def nonheadDelta (ext : ZExtent) (i : Nat) : Nat :=
  if i = 1 then zCblkcntBit ||| u32 ext.blocks
  else if zCblkcntBit ≤ u32 i then zCblkcntBit - 1
  else u32 i

/-- The entry of position `i` of an extent; `marker` is set for the extent that
    ends with the boundary marker. -/
def entryOf (compBase tailOfs : Nat) (marker : Bool) (ext : ZExtent) (i : Nat) : ZIndexEntry :=
  let blkaddr := u32 (compBase + ext.blkOff)
  if ext.plain then { typ := zLclusterPlain, u := u32 (blkaddr + u32 i) }
  else if i = 0 then { typ := zLclusterHead1, u := blkaddr }
  else if marker ∧ i = ext.lclusters - 1 then { typ := zLclusterPlain, clusterofs := tailOfs }
  else
    let d1 := u32 (ext.lclusters - i)
    { typ := zLclusterNonhead, u := nonheadDelta ext i ||| u32 (d1 <<< 16) }

/-- The entries of one extent.  A compressed one always has its HEAD. -/
def extentEntries (compBase tailOfs : Nat) (marker : Bool) (ext : ZExtent) : List ZIndexEntry :=
  let n := if ext.plain then ext.lclusters else max 1 ext.lclusters
  (range n).map (entryOf compBase tailOfs marker ext)

/-- `zIndexEntries`, for extents that start at block `compBase + blkOff`.  Only the
    last extent of a file that ends inside a cluster gets the boundary marker. -/
def zIndexEntries (compBase tailOfs : Nat) (eofMarker : Bool) : List ZExtent → List ZIndexEntry
  | [] => []
  | ext :: rest =>
    extentEntries compBase tailOfs (eofMarker && rest.isEmpty && tailOfs != 0) ext ++
      zIndexEntries compBase tailOfs eofMarker rest

def indexCount (size blockSize : Nat) : Nat := (size + blockSize - 1) / blockSize

/-- What the packer stores: a plain extent has a block for each cluster; a
    compressed one saves a block at least, so it has a NONHEAD to carry its block
    count.  The bounds are those of the format, at the smallest block size. -/
structure ZExtent.Packable (ext : ZExtent) : Prop where
  lclusters_pos : 0 < ext.lclusters
  lclusters_le : ext.lclusters ≤ 24576
  plain_blocks : ext.plain = true → ext.blocks = ext.lclusters
  nonhead : ext.plain = false → 2 ≤ ext.lclusters
  blocks_pos : 0 < ext.blocks
  blocks_le : ext.plain = false → ext.blocks ≤ 2048

/-! ## Where a logical cluster lies -/

/-- The extent of logical cluster `k`, the position in it, and what follows it. -/
def locate : List ZExtent → Nat → Option (ZExtent × Nat × List ZExtent)
  | [], _ => none
  | ext :: rest, k =>
    if k < ext.lclusters then some (ext, k, rest) else locate rest (k - ext.lclusters)

/-- Logical clusters of a list of extents. -/
def clusters (exts : List ZExtent) : Nat := (exts.map ZExtent.lclusters).sum

@[simp] theorem clusters_nil : clusters [] = 0 := rfl

@[simp] theorem clusters_cons (ext : ZExtent) (rest : List ZExtent) :
    clusters (ext :: rest) = ext.lclusters + clusters rest := by
  rw [clusters, map_cons, sum_cons, clusters]

variable {exts : List ZExtent} {k : Nat}

theorem locate_eq_some (h : k < clusters exts) :
    ∃ ext i rest, locate exts k = some (ext, i, rest) := by
  induction exts generalizing k with
  | nil => simp at h
  | cons ext rest ih =>
    rw [locate]
    by_cases hk : k < ext.lclusters
    · rw [if_pos hk]
      exact ⟨ext, k, rest, rfl⟩
    · rw [if_neg hk]
      rw [clusters_cons] at h
      exact ih (by omega)

variable {ext : ZExtent} {rest : List ZExtent} {i : Nat}

/-- What `locate` finds: the extent is one of the list, the position is inside
    it, and the clusters before the position are those of the extents before. -/
theorem locate_spec (h : locate exts k = some (ext, i, rest)) :
    ∃ before, exts = before ++ ext :: rest ∧ i < ext.lclusters ∧ k = clusters before + i := by
  induction exts generalizing k with
  | nil => cases h
  | cons e es ih =>
    rw [locate] at h
    by_cases hk : k < e.lclusters
    · rw [if_pos hk] at h
      cases h
      exact ⟨[], rfl, hk, by simp⟩
    rw [if_neg hk] at h
    obtain ⟨before, hes, hi, hpos⟩ := ih h
    refine ⟨e :: before, by rw [hes, cons_append], hi, ?_⟩
    rw [clusters_cons]
    omega

theorem clusters_cons_past (e : ZExtent) (es : List ZExtent) (i : Nat) :
    ¬ clusters (e :: es) + i < e.lclusters ∧
      clusters (e :: es) + i - e.lclusters = clusters es + i := by
  rw [clusters_cons]
  omega

theorem locate_append {before : List ZExtent} (hi : i < ext.lclusters) :
    locate (before ++ ext :: rest) (clusters before + i) = some (ext, i, rest) := by
  induction before with
  | nil =>
    have h0 : clusters [] + i = i := by simp
    rw [h0, nil_append, locate, if_pos hi]
  | cons e es ih =>
    obtain ⟨hnot, hsub⟩ := clusters_cons_past e es i
    rw [cons_append, locate, if_neg hnot, hsub]
    exact ih

/-! ## The entries of the index -/

theorem length_extentEntries (compBase tailOfs : Nat) (marker : Bool) (h : 0 < ext.lclusters) :
    (extentEntries compBase tailOfs marker ext).length = ext.lclusters := by
  rw [extentEntries, length_map, length_range]
  split
  · rfl
  · omega

theorem length_zIndexEntries (compBase tailOfs : Nat) (eofMarker : Bool)
    (h : ∀ ext ∈ exts, 0 < ext.lclusters) :
    (zIndexEntries compBase tailOfs eofMarker exts).length = clusters exts := by
  induction exts with
  | nil => rfl
  | cons ext rest ih =>
    have hrest := ih fun e he => h e (mem_cons_of_mem _ he)
    rw [zIndexEntries, length_append, clusters_cons,
      length_extentEntries _ _ _ (h ext mem_cons_self), hrest]

/-- The index holds, for each logical cluster, the entry of its place. -/
theorem getElem?_zIndexEntries {compBase tailOfs : Nat} {eofMarker : Bool}
    (hpos : ∀ e ∈ exts, 0 < e.lclusters) (h : locate exts k = some (ext, i, rest)) :
    (zIndexEntries compBase tailOfs eofMarker exts)[k]? =
      some (entryOf compBase tailOfs (eofMarker && rest.isEmpty && tailOfs != 0) ext i) := by
  induction exts generalizing k with
  | nil => cases h
  | cons e es ih =>
    have he := hpos e mem_cons_self
    rw [locate] at h
    rw [zIndexEntries]
    by_cases hk : k < e.lclusters
    · rw [if_pos hk] at h
      cases h
      rw [getElem?_append_left (by rw [length_extentEntries _ _ _ he]; exact hk),
        extentEntries, getElem?_map, getElem?_range]
      · rfl
      · split
        · exact hk
        · omega
    · rw [if_neg hk] at h
      rw [getElem?_append_right (by rw [length_extentEntries _ _ _ he]; omega),
        length_extentEntries _ _ _ he]
      exact ih (fun e' he' => hpos e' (mem_cons_of_mem _ he')) h

/-! ## Reading the fields of an entry -/

theorem low_of_lt {u : Nat} (h : u < 2 ^ 16 := by omega) : u &&& 0xffff = u :=
  Nat.and_two_pow_sub_one_of_lt_two_pow h

theorem low_nonhead {d0 d1 : Nat} (h : d0 < 2 ^ 16 := by omega) :
    (d0 ||| u32 (d1 <<< 16)) &&& 0xffff = d0 := by
  have hu : u32 (d1 <<< 16) = 2 ^ 16 * (d1 % 2 ^ 16) := by
    rw [u32, Nat.shiftLeft_eq]
    omega
  have hor : d0 ||| 2 ^ 16 * (d1 % 2 ^ 16) = 2 ^ 16 * (d1 % 2 ^ 16) + d0 := by
    rw [Nat.or_comm, Nat.two_pow_add_eq_or_of_lt h]
  have hmask : (0xffff : Nat) = 2 ^ 16 - 1 := rfl
  rw [hu, hor, hmask, Nat.and_two_pow_sub_one_eq_mod]
  omega

theorem blkcnt_or {blocks : Nat} (h : blocks < 2048) : zCblkcntBit ||| blocks = 2048 + blocks := by
  have hbit : zCblkcntBit = 2 ^ 11 * 1 := rfl
  rw [hbit, ← Nat.two_pow_add_eq_or_of_lt (by omega)]

/-- At 2048 blocks the count falls on its own flag. -/
theorem blkcnt_or_2048 : zCblkcntBit ||| 2048 = 2048 := by decide

/-- The block count that the flagged field really carries. -/
def carriedBlocks (ext : ZExtent) : Nat := if ext.blocks = 2048 then 0 else ext.blocks

theorem nonheadDelta_one (h : ext.blocks ≤ 2048) :
    nonheadDelta ext 1 = 2048 + carriedBlocks ext := by
  have hu : u32 ext.blocks = ext.blocks := Nat.mod_eq_of_lt (by omega)
  rw [nonheadDelta, if_pos rfl, hu, carriedBlocks]
  split
  · rename_i heq
    rw [heq, blkcnt_or_2048]
  · rw [blkcnt_or (by omega)]

theorem nonheadDelta_of_two_le (h : 2 ≤ i := by omega) (hi : i < 2 ^ 32 := by omega) :
    nonheadDelta ext i = min i 2047 := by
  have hbit : zCblkcntBit = 2048 := rfl
  have hu : u32 i = i := Nat.mod_eq_of_lt hi
  rw [nonheadDelta, if_neg (by omega), hu, hbit]
  split <;> omega

end Orchestrator.Erofs

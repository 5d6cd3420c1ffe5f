/-
  Orchestrator.Erofs.ZCompactIndex

  When the compacted index of a file stands for its full index.

  `zCanCompact` lets a file use the compacted layout when its extents follow each
  other on disk, so that addresses can be added up.  The extents of a file are laid
  out by position (`headAt`, `countAt`, `addrAt`) to instantiate `IndexStream`;
  `writeZCompactIndexes_agrees_iff` then says for which files both layouts describe the same
  clusters.
-/

import Orchestrator.Erofs.ZCompactRead

namespace Orchestrator.Erofs

open Lib Lib.Exec List

/-! ## Files that may use the compacted layout -/

structure ZInfo where
  extents : List ZExtent := []
  totalBlocks : Nat := 0
  wholeFragment : Bool := false
  fragOff : Nat := 0
deriving DecidableEq, Repr

/-- Every extent starts where the one before it ends. -/
def contiguous : List ZExtent → Bool
  | prev :: ext :: rest =>
    ext.blkOff = u32 (prev.blkOff + u32 prev.blocks) && contiguous (ext :: rest)
  | _ => true

def zCanCompact (blockSize : Nat) (z : ZInfo) : Bool :=
  if z.wholeFragment then z.fragOff ≤ 2 ^ 32 - 1
  else if 1 <<< 12 < blockSize ∨ z.extents = [] then false
  else contiguous z.extents

theorem zCanCompact_spec {blockSize : Nat} {z : ZInfo} (hwhole : z.wholeFragment = false)
    (h : zCanCompact blockSize z = true) : z.extents ≠ [] ∧ contiguous z.extents = true := by
  rw [zCanCompact, if_neg (by simp [hwhole])] at h
  split at h
  · cases h
  · rename_i hcond
    exact ⟨fun hnil => hcond (.inr hnil), h⟩

/-- `w.z.compBase + e.z.extents[0].blkOff`. -/
def firstBlkaddr (compBase : Nat) (exts : List ZExtent) : Nat :=
  u32 (compBase + ((exts.head?.map ZExtent.blkOff).getD 0))

/-! ## Extents by position -/

/-- The HEAD (or PLAIN) position of cluster `k`. -/
def headAt : List ZExtent → Nat → Nat
  | [], k => k
  | ext :: rest, k =>
    if k < ext.lclusters then (if ext.plain then k else 0)
    else ext.lclusters + headAt rest (k - ext.lclusters)

/-- The block count that the index carries for the extent of cluster `k`. -/
def countAt : List ZExtent → Nat → Nat
  | [], _ => 0
  | ext :: rest, k =>
    if k < ext.lclusters then (if ext.plain then 0 else carriedBlocks ext)
    else countAt rest (k - ext.lclusters)

/-- The blocks that the index counts for an extent. -/
def carried (ext : ZExtent) : Nat := if ext.plain then ext.lclusters else carriedBlocks ext

/-- The address that the counts give the HEAD or PLAIN cluster `k`. -/
def addrAt : Nat → List ZExtent → Nat → Nat
  | base, [], _ => base
  | base, ext :: rest, k =>
    if k < ext.lclusters then base + (if ext.plain then k else 0)
    else addrAt (base + carried ext) rest (k - ext.lclusters)

section

variable {before rest exts : List ZExtent} {ext : ZExtent} {i k base : Nat}

theorem clusters_append (xs ys : List ZExtent) : clusters (xs ++ ys) = clusters xs + clusters ys := by
  rw [clusters, map_append, sum_append, clusters, clusters]

/-- Cluster `k` is position `i` of the extent `ext` behind `before`. -/
structure Place (exts : List ZExtent) (k : Nat) (before : List ZExtent) (ext : ZExtent) (i : Nat)
    (rest : List ZExtent) : Prop where
  exts_eq : exts = before ++ ext :: rest
  i_lt : i < ext.lclusters
  k_eq : k = clusters before + i

theorem exists_place (hk : k < clusters exts) :
    ∃ before ext i rest, Place exts k before ext i rest := by
  obtain ⟨ext, i, rest, h⟩ := locate_eq_some hk
  obtain ⟨before, hexts, hi, hpos⟩ := locate_spec h
  exact ⟨before, ext, i, rest, hexts, hi, hpos⟩

section

variable (h : Place exts k before ext i rest)
include h

theorem Place.lt_clusters : k < clusters exts := by
  have hk := h.k_eq
  have hi := h.i_lt
  rw [h.exts_eq, clusters_append, clusters_cons]
  omega

theorem Place.mem : ext ∈ exts := by
  rw [h.exts_eq]
  simp

theorem Place.succ (hpos : ∀ e ∈ exts, 0 < e.lclusters) (hk : k + 1 < clusters exts) :
    Place exts (k + 1) before ext (i + 1) rest ∨
      i + 1 = ext.lclusters ∧ ∃ ext' rest', rest = ext' :: rest' ∧
        Place exts (k + 1) (before ++ [ext]) ext' 0 rest' := by
  have hkeq := h.k_eq
  by_cases hin : i + 1 < ext.lclusters
  · exact .inl ⟨h.exts_eq, hin, by omega⟩
  have hi := h.i_lt
  refine .inr ⟨by omega, ?_⟩
  cases rest with
  | nil =>
    have hexts := h.exts_eq
    rw [hexts, clusters_append, clusters_cons, clusters_nil] at hk
    omega
  | cons ext' rest' =>
    refine ⟨ext', rest', rfl, ?_, ?_, ?_⟩
    · rw [h.exts_eq, append_assoc]
      rfl
    · exact hpos ext' (by rw [h.exts_eq]; simp)
    · rw [clusters_append, clusters_cons, clusters_nil]
      omega

theorem Place.headAt :
    headAt exts k = clusters before + if ext.plain then i else 0 := by
  obtain ⟨rfl, hi, rfl⟩ := h
  induction before with
  | nil => simp [Erofs.headAt, hi]
  | cons e es ih =>
    obtain ⟨hnot, hsub⟩ := clusters_cons_past e es i
    rw [cons_append, Erofs.headAt, if_neg hnot, hsub, ih, clusters_cons, Nat.add_assoc]

theorem Place.countAt :
    countAt exts k = if ext.plain then 0 else carriedBlocks ext := by
  obtain ⟨rfl, hi, rfl⟩ := h
  induction before with
  | nil => simp [Erofs.countAt, hi]
  | cons e es ih =>
    obtain ⟨hnot, hsub⟩ := clusters_cons_past e es i
    rw [cons_append, Erofs.countAt, if_neg hnot, hsub, ih]

theorem Place.addrAt :
    addrAt base exts k = base + (before.map carried).sum + if ext.plain then i else 0 := by
  obtain ⟨rfl, hi, rfl⟩ := h
  induction before generalizing base with
  | nil => simp [Erofs.addrAt, hi]
  | cons e es ih =>
    obtain ⟨hnot, hsub⟩ := clusters_cons_past e es i
    rw [cons_append, Erofs.addrAt, if_neg hnot, hsub, ih, map_cons, sum_cons]
    omega

theorem Place.head (hpos : 0 < ext.lclusters) :
    Place exts (clusters before) before ext 0 rest :=
  ⟨h.exts_eq, hpos, rfl⟩

theorem Place.entry (hpos : ∀ e ∈ exts, 0 < e.lclusters) (compBase tailOfs : Nat) :
    (zIndexEntries compBase tailOfs false exts)[k]? =
      some (entryOf compBase tailOfs false ext i) := by
  have hloc : locate exts k = some (ext, i, rest) := by
    rw [h.exts_eq, h.k_eq]
    exact locate_append h.i_lt
  exact getElem?_zIndexEntries hpos hloc

theorem Place.getD_entry (hpos : ∀ e ∈ exts, 0 < e.lclusters) (compBase tailOfs : Nat) :
    (zIndexEntries compBase tailOfs false exts).getD k {} = entryOf compBase tailOfs false ext i := by
  rw [getD_eq_getElem?_getD, h.entry hpos]
  rfl

end

end

/-! ## The entries of an extent -/

section

variable {ext : ZExtent} {i compBase tailOfs : Nat} {marker : Bool}

theorem entryOf_plain (h : ext.plain = true) : entryOf compBase tailOfs marker ext i =
    { typ := zLclusterPlain, u := u32 (u32 (compBase + ext.blkOff) + u32 i) } := by
  rw [entryOf, if_pos h]

theorem entryOf_head (h : ext.plain = false) : entryOf compBase tailOfs marker ext 0 =
    { typ := zLclusterHead1, u := u32 (compBase + ext.blkOff) } := by
  rw [entryOf, if_neg (by simp [h]), if_pos rfl]

theorem entryOf_nonhead (h : ext.plain = false) (hi : 0 < i := by omega) :
    entryOf compBase tailOfs false ext i =
      { typ := zLclusterNonhead
        u := nonheadDelta ext i ||| u32 (u32 (ext.lclusters - i) <<< 16) } := by
  rw [entryOf, if_neg (by simp [h]), if_neg (by omega), if_neg (by simp)]

theorem entryOf_typ : (entryOf compBase tailOfs false ext i).typ =
    if ext.plain then zLclusterPlain else if i = 0 then zLclusterHead1 else zLclusterNonhead := by
  cases hplain : ext.plain with
  | true => rw [entryOf_plain hplain, if_pos rfl]
  | false =>
    rw [if_neg (by simp)]
    by_cases h0 : i = 0
    · rw [h0, entryOf_head hplain, if_pos rfl]
    · rw [entryOf_nonhead hplain, if_neg h0]

theorem entryOf_clusterofs : (entryOf compBase tailOfs false ext i).clusterofs = 0 := by
  cases hplain : ext.plain with
  | true => rw [entryOf_plain hplain]
  | false =>
    by_cases h0 : i = 0
    · rw [h0, entryOf_head hplain]
    · rw [entryOf_nonhead hplain]

theorem ZExtent.Packable.carriedBlocks_lt (hp : ext.Packable) (h : ext.plain = false) :
    carriedBlocks ext < 2048 := by
  have hle := hp.blocks_le h
  rw [carriedBlocks]
  split <;> omega

end

section

variable {exts before rest : List ZExtent} {ext : ZExtent} {k i : Nat}

theorem Place.headAt_plain (h : Place exts k before ext i rest) (hplain : ext.plain = true) :
    Erofs.headAt exts k = k := by
  have hkeq := h.k_eq
  rw [h.headAt, hplain, if_pos rfl]
  omega

theorem Place.headAt_compressed (h : Place exts k before ext i rest) (hplain : ext.plain = false) :
    Erofs.headAt exts k = clusters before := by
  rw [h.headAt, hplain]
  simp

/-- Behind the last extent the functions are of no interest, but total. -/
theorem headAt_le (exts : List ZExtent) (k : Nat) : headAt exts k ≤ k := by
  induction exts generalizing k with
  | nil => exact Nat.le_refl k
  | cons e es ih =>
    have hrest := ih (k - e.lclusters)
    rw [headAt]
    split
    · split <;> omega
    · omega

theorem countAt_lt (hpack : ∀ ext ∈ exts, ext.Packable) (k : Nat) : countAt exts k < 2048 := by
  induction exts generalizing k with
  | nil => exact Nat.zero_lt_succ _
  | cons e es ih =>
    rw [countAt]
    split
    · cases hplain : e.plain with
      | true => simp
      | false =>
        rw [if_neg (by simp)]
        exact (hpack e mem_cons_self).carriedBlocks_lt hplain
    · exact ih (fun ext he => hpack ext (mem_cons_of_mem _ he)) _

/-- The first cluster behind an extent: the counts lead from its HEAD, or from its
    last cluster, to the extent that follows. -/
theorem addrAt_next {k' : Nat} {ext' : ZExtent} {rest' : List ZExtent} {base : Nat}
    (hp : ext.Packable) (h : Place exts k before ext i rest) (hlast : i + 1 = ext.lclusters)
    (hnext : Place exts k' (before ++ [ext]) ext' 0 rest') :
    addrAt base exts k' = addrAt base exts (headAt exts k) +
      if headAt exts k = k then 1 else countAt exts (headAt exts k) := by
  have hkeq := h.k_eq
  have hsum : ((before ++ [ext]).map carried).sum = (before.map carried).sum + carried ext := by
    rw [map_append, sum_append]
    simp
  have hzero : (if ext'.plain = true then 0 else 0) = 0 := by split <;> rfl
  rw [hnext.addrAt, hsum, hzero]
  cases hplain : ext.plain with
  | true =>
    rw [h.headAt_plain hplain, if_pos rfl, h.addrAt, hplain, if_pos rfl, carried, if_pos hplain]
    omega
  | false =>
    have h2 := hp.nonhead hplain
    have hhead := h.head (by omega)
    rw [h.headAt_compressed hplain, if_neg (by omega), hhead.addrAt, hhead.countAt, hplain,
      if_neg (by simp), if_neg (by simp), carried, if_neg (by simp [hplain])]
    omega

/-- **The extents of a file make an index stream.** -/
theorem indexStream_of_extents (hpack : ∀ ext ∈ exts, ext.Packable) (compBase tailOfs base : Nat) :
    IndexStream (fun k => (zIndexEntries compBase tailOfs false exts).getD k {}) (clusters exts)
      (headAt exts) (fun k => u32 (addrAt base exts k)) (countAt exts) := by
  have hpos : ∀ e ∈ exts, 0 < e.lclusters := fun e he => (hpack e he).lclusters_pos
  have hentry : ∀ {k before ext i rest}, Place exts k before ext i rest →
      (zIndexEntries compBase tailOfs false exts).getD k {} = entryOf compBase tailOfs false ext i :=
    fun h => h.getD_entry hpos compBase tailOfs
  refine ⟨headAt_le exts, ?_, ?_, ?_, ?_, ?_, ?_, countAt_lt hpack, ?_, ?_⟩
  · -- nonhead_iff
    intro k hk
    obtain ⟨before, ext, i, rest, h⟩ := exists_place hk
    have hkeq := h.k_eq
    simp only [hentry h, entryOf_typ]
    cases hplain : ext.plain with
    | true => simp [h.headAt_plain hplain, zLclusterPlain, zLclusterNonhead]
    | false =>
      rw [h.headAt_compressed hplain, if_neg (by simp)]
      split
      · simp [zLclusterHead1, zLclusterNonhead]
        omega
      · simp
        omega
  · -- same_head
    intro k hk hlt
    obtain ⟨before, ext, i, rest, h⟩ := exists_place (show k < clusters exts by omega)
    rcases h.succ hpos hk with hnext | ⟨-, ext', rest', -, hnext⟩
    · cases hplain : ext.plain with
      | true =>
        rw [hnext.headAt_plain hplain] at hlt
        omega
      | false => rw [hnext.headAt_compressed hplain, h.headAt_compressed hplain]
    · -- the next cluster starts an extent
      have hkeq := hnext.k_eq
      rw [hnext.headAt] at hlt
      split at hlt <;> omega
  · -- typ_le
    intro k hk
    obtain ⟨before, ext, i, rest, h⟩ := exists_place hk
    simp only [hentry h, entryOf_typ]
    split
    · decide
    · split <;> decide
  · -- clusterofs_eq
    intro k hk
    obtain ⟨before, ext, i, rest, h⟩ := exists_place hk
    simp only [hentry h, entryOf_clusterofs]
  · -- first_nonhead
    intro k hk hfirst
    obtain ⟨before, ext, i, rest, h⟩ := exists_place hk
    have hkeq := h.k_eq
    cases hplain : ext.plain with
    | true =>
      rw [h.headAt_plain hplain] at hfirst
      omega
    | false =>
      have hp := hpack ext h.mem
      have hc := hp.carriedBlocks_lt hplain
      have hhead := h.head hp.lclusters_pos
      rw [h.headAt_compressed hplain] at hfirst ⊢
      obtain rfl : i = 1 := by omega
      simp only [hentry h]
      rw [entryOf_nonhead hplain, hhead.countAt, hplain, if_neg (by simp),
        nonheadDelta_one (hp.blocks_le hplain), low_nonhead]
  · -- later_nonhead
    intro k hk hlater
    obtain ⟨before, ext, i, rest, h⟩ := exists_place hk
    have hkeq := h.k_eq
    cases hplain : ext.plain with
    | true =>
      rw [h.headAt_plain hplain] at hlater
      omega
    | false =>
      have hle := (hpack ext h.mem).lclusters_le
      have hilt := h.i_lt
      rw [h.headAt_compressed hplain] at hlater ⊢
      have hsub : k - clusters before = i := by omega
      simp only [hentry h]
      rw [entryOf_nonhead hplain, hsub, nonheadDelta_of_two_le,
        low_nonhead]
  · -- addr_lt
    intro k
    exact Nat.mod_lt _ (by decide)
  · -- addr_succ
    intro k hk hhead
    obtain ⟨before, ext, i, rest, h⟩ := exists_place (show k < clusters exts by omega)
    rcases h.succ hpos hk with hnext | ⟨hlast, ext', rest', -, hnext⟩
    · -- the same extent: it is plain
      cases hplain : ext.plain with
      | true =>
        rw [h.headAt_plain hplain, if_pos rfl, hnext.addrAt, h.addrAt, hplain, if_pos rfl,
          if_pos rfl, u32_u32_add]
        congr 1
      | false =>
        have hkeq := hnext.k_eq
        rw [hnext.headAt_compressed hplain] at hhead
        omega
    · rw [addrAt_next (hpack ext h.mem) h hlast hnext, u32_u32_add]

end

/-! ## Walking back -/

section

variable {E : Nat → ZIndexEntry} {n : Nat} {headOf addr count : Nat → Nat}

/-- An index for position `k` that has its type and points back inside its extent. -/
structure PointsBack (E : Nat → ZIndexEntry) (headOf : Nat → Nat) (k : Nat) (e : LIndex) : Prop where
  typ_eq : e.typ = (E k).typ
  back : headOf k < k → 1 ≤ e.distance ∧ e.distance ≤ k - headOf k

theorem typ_of_le {typ : Nat} (h : typ ≤ 2) : typ &&& 0x3 = typ := by
  exact Nat.and_two_pow_sub_one_of_lt_two_pow (show typ < 2 ^ 2 by omega)

theorem Decodes.pointsBack (s : IndexStream E n headOf addr count) {k : Nat} (hk : k < n)
    {e : LIndex} (h : Decodes E headOf addr count k e) : PointsBack E headOf k e := by
  refine ⟨?_, ?_⟩
  · rw [LIndex.typ, h.typ_eq, typ_of_le (s.typ_le k hk)]
  · intro hlt
    rcases s.cases k with hhead | hfirst | hlater
    · omega
    · have hcount := s.count_lt (headOf k)
      have hlow : e.u &&& 0xffff = 2048 + count (headOf k) := by
        rw [h.first hfirst, low_of_lt]
      rw [LIndex.distance_blkcnt hlow hcount]
      omega
    · exact (h.later hlater).2

theorem IndexStream.pointsBack (s : IndexStream E n headOf addr count) {k : Nat} (hk : k < n) :
    PointsBack E headOf k ⟨(E k).typ, (E k).clusterofs, (E k).u⟩ := by
  refine ⟨typ_of_le (s.typ_le k hk), ?_⟩
  intro hlt
  rcases s.cases k with hhead | hfirst | hlater
  · omega
  · rw [LIndex.distance_blkcnt (s.first_nonhead k hk hfirst) (s.count_lt _)]
    omega
  have hlow := s.later_nonhead k hk hlater
  have hand := and_blkcnt_lt (d := min (k - headOf k) 2047)
  have hdist : LIndex.distance ⟨(E k).typ, (E k).clusterofs, (E k).u⟩ = min (k - headOf k) 2047 := by
    simp only [LIndex.distance, hlow, hand]
    rfl
  rw [hdist]
  omega

/-- **Indexes that point back lead to the HEAD.** -/
theorem walkBack_of_pointsBack (s : IndexStream E n headOf addr count)
    (index : Int → Except ZError LIndex)
    (hindex : ∀ k : Nat, k < n → ∃ e, index k = .ok e ∧ PointsBack E headOf k e) (strict : Bool)
    {k : Nat} (hk : k < n) :
    ∃ e, index (headOf k) = .ok e ∧ walkBack index strict k = .ok ((headOf k : Int), e) := by
  have hle := s.head_le k
  have hself : headOf (headOf k) = headOf k := s.headOf_between hk (Nat.le_refl _) hle
  obtain ⟨eh, heh, hback⟩ := hindex (headOf k) (by omega)
  refine ⟨eh, heh, walkBack_reaches strict hle heh ?_ ?_⟩
  · rw [hback.typ_eq]
    intro hc
    have := (s.nonhead_iff _ (by omega)).mp hc
    omega
  · intro j hj hjk
    have hsame : headOf j = headOf k := s.headOf_between hk (by omega) hjk
    obtain ⟨e, he, hpb⟩ := hindex j (by omega)
    have hnon : (E j).typ = zLclusterNonhead := (s.nonhead_iff j (by omega)).mpr (by omega)
    have hdist := hpb.back (by omega)
    rw [hsame] at hdist
    exact ⟨e, he, by rw [hpb.typ_eq, hnon], hdist⟩

end

/-! ## Addresses -/

section

variable {exts before rest : List ZExtent} {ext : ZExtent} {k i : Nat}

theorem blkOff_of_contiguous {e : ZExtent} {es : List ZExtent} (h : contiguous (e :: es) = true)
    (hsplit : e :: es = before ++ ext :: rest) :
    u32 (e.blkOff + (before.map ZExtent.blocks).sum) = u32 ext.blkOff := by
  induction before generalizing e es with
  | nil =>
    cases hsplit
    simp
  | cons b bs ih =>
    rw [cons_append] at hsplit
    obtain ⟨rfl, hes⟩ := cons.inj hsplit
    cases es with
    | nil => simp at hes
    | cons e' es' =>
      rw [contiguous, Bool.and_eq_true, decide_eq_true_eq] at h
      have hrest := ih h.2 hes
      rw [h.1] at hrest
      rw [map_cons, sum_cons, ← hrest]
      simp only [u32]
      omega

theorem Place.entry_u (h : Place exts k before ext i rest) (hc : contiguous exts = true)
    (hhead : ext.plain = false → i = 0) (hi : i < 2 ^ 32) (compBase tailOfs : Nat) :
    (entryOf compBase tailOfs false ext i).u =
      u32 (firstBlkaddr compBase exts + (before.map ZExtent.blocks).sum +
        if ext.plain then i else 0) := by
  obtain ⟨e, es, hes⟩ : ∃ e es, exts = e :: es := by
    cases exts with
    | nil =>
      have := h.exts_eq
      simp at this
    | cons e es => exact ⟨e, es, rfl⟩
  have hsplit := h.exts_eq
  rw [hes] at hsplit hc
  have hblk := blkOff_of_contiguous hc hsplit
  have hfirst : firstBlkaddr compBase exts = u32 (compBase + e.blkOff) := by
    rw [hes]
    rfl
  rw [hfirst]
  cases hplain : ext.plain with
  | true =>
    rw [entryOf_plain hplain, if_pos rfl]
    simp only [u32] at hblk ⊢
    omega
  | false =>
    obtain rfl := hhead hplain
    rw [entryOf_head hplain, if_neg (by simp)]
    simp only [u32] at hblk ⊢
    omega

end

/-! ## Both layouts -/

/-- The entries of an index, read as the full layout has them. -/
def entryIndex (entries : List ZIndexEntry) (lcn : Int) : Except ZError LIndex :=
  if lcn < 0 then .error (.outOfRange lcn)
  else match entries[lcn.toNat]? with
    | some entry => .ok ⟨entry.typ, entry.clusterofs, entry.u⟩
    | none => .error (.outOfRange lcn)

/-- The compacted index of a file in an image, where the writer puts it and the
    reader looks for it. -/
structure HoldsCompactIndex (img : Image) (z : ZRead) (nid coreSize xattrSize compBase tailOfs : Nat)
    (exts : List ZExtent) : Prop where
  blkSizeBits_ge : 9 ≤ img.blkSizeBits
  compact : z.compact = true
  nIdx_eq : z.nIdx = clusters exts
  idxStart_eq : z.idxStart = img.metaStartPos + compactIndexStart nid coreSize xattrSize
  bytes : ∃ before after,
    img.data = before ++ writeZCompactIndexes (compactIndexStart nid coreSize xattrSize)
      (firstBlkaddr compBase exts) (zIndexEntries compBase tailOfs false exts) ++ after ∧
    z.idxStart = before.length

/-- What `zCompactIndex` says of a cluster is what its full entry says: the type, the
    block of a HEAD or PLAIN cluster, the block count behind a HEAD, and the HEAD
    that the walk back ends at. -/
structure SameCluster (img : Image) (z : ZRead) (entries : List ZIndexEntry) (lcn : Nat) : Prop where
  read : ∃ e full, img.zCompactIndex z lcn = .ok e ∧ entries[lcn]? = some full ∧
    e.typ = full.typ ∧
    (full.typ ≠ zLclusterNonhead → e.u = full.u) ∧
    (full.typ = zLclusterNonhead →
      (∃ head, (entries[lcn - 1]? = some head ∧ 0 < lcn) ∧ head.typ = zLclusterHead1) →
      e.u &&& 0xffff = full.u &&& 0xffff)
  walk : ∃ head e full, walkBack (img.zIndex z) true lcn = .ok (head, e) ∧
    walkBack (entryIndex entries) true lcn = .ok (head, full)

section

variable {img : Image} {z : ZRead} {nid coreSize xattrSize compBase tailOfs : Nat}
variable {exts : List ZExtent}

theorem metaStartPos_mod (h : 9 ≤ img.blkSizeBits) : img.metaStartPos % 32 = 0 := by
  obtain ⟨d, hd⟩ : ∃ d, img.blkSizeBits = 5 + d := ⟨img.blkSizeBits - 5, by omega⟩
  rw [Image.metaStartPos, Nat.shiftLeft_eq, hd, Nat.pow_add]
  have hcomm : img.metaBlkAddr * (2 ^ 5 * 2 ^ d) = 32 * (img.metaBlkAddr * 2 ^ d) :=
    Nat.mul_left_comm _ _ _
  rw [hcomm, Nat.mul_mod_right]

section

variable (hpack : ∀ ext ∈ exts, ext.Packable)
include hpack

theorem firstBlkaddr_eq (h0 : 0 < clusters exts) :
    firstBlkaddr compBase exts = u32 (addrAt (firstBlkaddr compBase exts) exts 0) := by
  obtain ⟨b, ext, i, rest, h⟩ := exists_place h0
  have hkeq := h.k_eq
  have hb : b = [] := by
    cases b with
    | nil => rfl
    | cons e es =>
      have := (hpack e (by rw [h.exts_eq]; simp)).lclusters_pos
      rw [clusters_cons] at hkeq
      omega
  have hsmall : firstBlkaddr compBase exts < 2 ^ 32 := Nat.mod_lt _ (by decide)
  have hzero : (if ext.plain = true then i else 0) = 0 := by
    split
    · omega
    · rfl
  rw [h.addrAt, hb, hzero, map_nil, sum_nil, Nat.add_zero, Nat.add_zero, u32_of_lt hsmall]

theorem getElem?_entries {k : Nat} (hk : k < clusters exts) :
    (zIndexEntries compBase tailOfs false exts)[k]? =
      some ((zIndexEntries compBase tailOfs false exts).getD k {}) := by
  obtain ⟨before, ext, i, rest, h⟩ := exists_place hk
  rw [getD_eq_getElem?_getD, h.entry fun e he => (hpack e he).lclusters_pos]
  rfl

theorem length_writeZCompactIndexes (h0 : 0 < clusters exts) :
    (writeZCompactIndexes (compactIndexStart nid coreSize xattrSize) (firstBlkaddr compBase exts)
      (zIndexEntries compBase tailOfs false exts)).length =
        zCompactIndexSize (compactIndexStart nid coreSize xattrSize) (clusters exts) :=
  (writeZCompactIndexes_packs (indexStream_of_extents hpack compBase tailOfs _)
    (compactIndexStart_mod nid coreSize xattrSize)
    (length_zIndexEntries _ _ _ fun e he => (hpack e he).lclusters_pos)
    (fun _ hk => getElem?_entries hpack hk) (firstBlkaddr_eq hpack h0)).1

variable (himg : HoldsCompactIndex img z nid coreSize xattrSize compBase tailOfs exts)

include himg in
/-- What the reader gets for a cluster, whether the addresses are right or not. -/
theorem HoldsCompactIndex.decodes {lcn : Nat} (hlcn : lcn < clusters exts) :
    ∃ e, img.zCompactIndex z lcn = .ok e ∧
      Decodes (fun k => (zIndexEntries compBase tailOfs false exts).getD k {}) (headAt exts)
        (fun k => u32 (addrAt (firstBlkaddr compBase exts) exts k)) (countAt exts) lcn e := by
  have hpos : ∀ e ∈ exts, 0 < e.lclusters := fun e he => (hpack e he).lclusters_pos
  have s := indexStream_of_extents hpack compBase tailOfs (firstBlkaddr compBase exts)
  obtain ⟨before, after, hdata, hidx⟩ := himg.bytes
  have hstart := himg.idxStart_eq
  have hmeta := metaStartPos_mod himg.blkSizeBits_ge
  refine zCompactIndex_decodes s (compactIndexStart_mod nid coreSize xattrSize)
    (length_zIndexEntries _ _ _ hpos) (fun _ hk => getElem?_entries hpack hk)
    (firstBlkaddr_eq hpack (by omega)) hdata hidx ?_ himg.nIdx_eq hlcn
  omega

/-- The counts lead every HEAD and PLAIN cluster to its block when no extent in front
    of it fills 2048 blocks. -/
theorem addrAt_eq_blocks
    (hfull : ∀ ext ∈ exts.dropLast, ext.plain = false → ext.blocks < 2048) {before rest : List ZExtent}
    {ext : ZExtent} (hsplit : exts = before ++ ext :: rest) :
    (before.map carried).sum = (before.map ZExtent.blocks).sum := by
  have hmem : ∀ e ∈ before, e ∈ exts.dropLast := by
    intro e he
    rw [hsplit, dropLast_append_of_ne_nil (by simp)]
    exact mem_append_left _ he
  congr 1
  apply map_congr_left
  intro e he
  have hin : e ∈ exts := (dropLast_sublist exts).mem (hmem e he)
  cases hplain : e.plain with
  | true => rw [carried, if_pos hplain, (hpack e hin).plain_blocks hplain]
  | false =>
    have hlt := hfull e (hmem e he) hplain
    rw [carried, if_neg (by simp [hplain]), carriedBlocks, if_neg (by omega)]

variable (hcont : contiguous exts = true)
include himg hcont

/-- A file without an extent of 2048 blocks before its last one reads the same. -/
theorem HoldsCompactIndex.sameCluster
    (hfull : ∀ ext ∈ exts.dropLast, ext.plain = false → ext.blocks < 2048) {lcn : Nat}
    (hlcn : lcn < clusters exts) :
    SameCluster img z (zIndexEntries compBase tailOfs false exts) lcn := by
  have hpos : ∀ e ∈ exts, 0 < e.lclusters := fun e he => (hpack e he).lclusters_pos
  have s := indexStream_of_extents hpack compBase tailOfs (firstBlkaddr compBase exts)
  have hget : ∀ k, k < clusters exts → (zIndexEntries compBase tailOfs false exts)[k]? =
      some ((zIndexEntries compBase tailOfs false exts).getD k {}) :=
    fun _ hk => getElem?_entries hpack hk
  constructor
  · obtain ⟨e, he, hdec⟩ := himg.decodes hpack hlcn
    refine ⟨e, _, he, hget lcn hlcn, (hdec.pointsBack s hlcn).typ_eq, ?_, ?_⟩
    · -- a HEAD or PLAIN cluster
      intro hne
      obtain ⟨before, ext, i, rest, h⟩ := exists_place hlcn
      have hhead : headAt exts lcn = lcn := by
        have hle := s.head_le lcn
        have := (s.nonhead_iff lcn hlcn).not.mp hne
        omega
      have hi : ext.plain = false → i = 0 := by
        intro hplain
        have hkeq := h.k_eq
        rw [h.headAt_compressed hplain] at hhead
        omega
      have hle := (hpack ext h.mem).lclusters_le
      have hilt := h.i_lt
      rw [hdec.head hhead, h.getD_entry hpos, h.entry_u hcont hi (by omega), h.addrAt,
        addrAt_eq_blocks hpack hfull h.exts_eq]
    · -- the block count
      rintro hnon ⟨head, ⟨hprev, h0⟩, hhead1⟩
      have hlt := (s.nonhead_iff lcn hlcn).mp hnon
      have hprevHead : headAt exts (lcn - 1) = lcn - 1 := by
        have hle := s.head_le (lcn - 1)
        have hne : ¬ headAt exts (lcn - 1) < lcn - 1 := by
          intro hc
          have htyp := (s.nonhead_iff (lcn - 1) (by omega)).mpr hc
          rw [hget (lcn - 1) (by omega)] at hprev
          cases hprev
          rw [hhead1] at htyp
          cases htyp
        omega
      have hsame := s.headOf_between (m := lcn - 1) hlcn
      have hfirst : headAt exts lcn + 1 = lcn := by omega
      have hcount := s.count_lt (headAt exts lcn)
      rw [s.first_nonhead lcn hlcn hfirst, hdec.first hfirst, low_of_lt]
  · obtain ⟨e, -, hwalk⟩ := walkBack_of_pointsBack s (img.zIndex z) (fun k hk => by
      obtain ⟨e, he, hdec⟩ := himg.decodes hpack hk
      refine ⟨e, ?_, hdec.pointsBack s hk⟩
      have hnIdx := himg.nIdx_eq
      rw [Image.zIndex, if_neg (by omega), if_pos himg.compact]
      exact he) true hlcn
    obtain ⟨full, -, hfullwalk⟩ := walkBack_of_pointsBack s
      (entryIndex (zIndexEntries compBase tailOfs false exts)) (fun k hk => by
      refine ⟨_, ?_, s.pointsBack hk⟩
      rw [entryIndex, if_neg (by omega), Int.toNat_natCast, hget k hk]) true hlcn
    exact ⟨headAt exts lcn, e, full, hwalk, hfullwalk⟩

/-- Behind an extent of 2048 blocks the next HEAD is read 2048 blocks too low. -/
theorem HoldsCompactIndex.not_sameCluster {before rest : List ZExtent}
    {ext next : ZExtent} (hsplit : exts = before ++ ext :: next :: rest) (hplain : ext.plain = false)
    (hblocks : 2048 ≤ ext.blocks) :
    ¬ ∀ lcn, lcn < clusters exts →
      SameCluster img z (zIndexEntries compBase tailOfs false exts) lcn := by
  intro hall
  have hpos : ∀ e ∈ exts, 0 < e.lclusters := fun e he => (hpack e he).lclusters_pos
  have s := indexStream_of_extents hpack compBase tailOfs (firstBlkaddr compBase exts)
  -- a first cluster of an extent, where both addresses agree
  have haddr : ∀ {k b e r}, Place exts k b e 0 r →
      u32 (firstBlkaddr compBase exts + (b.map carried).sum) =
        u32 (firstBlkaddr compBase exts + (b.map ZExtent.blocks).sum) := by
    intro k b e r h
    have hk := h.lt_clusters
    obtain ⟨idx, full, hidx, hfull, -, hu, -⟩ := (hall k hk).read
    obtain ⟨idx', hidx', hdec⟩ := himg.decodes hpack hk
    rw [hidx] at hidx'
    cases hidx'
    rw [h.entry hpos] at hfull
    cases hfull
    have hne : (entryOf compBase tailOfs false e 0).typ ≠ zLclusterNonhead := by
      rw [entryOf_typ]
      split
      · decide
      · decide
    have hhead : headAt exts k = k := by
      have hkeq := h.k_eq
      rw [h.headAt]
      split <;> omega
    have hval := hu hne
    rw [hdec.head hhead, h.addrAt, h.entry_u hcont (fun _ => rfl) (by omega)] at hval
    simpa using hval
  have hmem : ext ∈ exts := by rw [hsplit]; simp
  have hmem' : next ∈ exts := by rw [hsplit]; simp
  have h1 := haddr (k := clusters before) (b := before) (e := ext) (r := next :: rest)
    ⟨hsplit, hpos ext hmem, rfl⟩
  have h2 := haddr (k := clusters (before ++ [ext])) (b := before ++ [ext]) (e := next) (r := rest)
    ⟨by rw [hsplit, append_assoc]; rfl, hpos next hmem', rfl⟩
  have hle := (hpack ext hmem).blocks_le hplain
  have hzero : carried ext = 0 := by
    rw [carried, if_neg (by simp [hplain]), carriedBlocks, if_pos (by omega)]
  rw [map_append, map_append, sum_append, sum_append] at h2
  simp only [map_cons, map_nil, sum_cons, sum_nil, Nat.add_zero, hzero] at h2
  simp only [u32] at h1 h2
  omega

end

/-- **The compacted index of a file is its full index** exactly when no compressed
    extent before the last fills 2048 blocks: the index has the reserved size, and
    every cluster is read with the type, block, block count and HEAD of its full
    entry. -/
theorem writeZCompactIndexes_agrees_iff {zi : ZInfo} (hpack : ∀ ext ∈ zi.extents, ext.Packable)
    (hwhole : zi.wholeFragment = false) (hcan : zCanCompact img.blockSize zi = true)
    (himg : HoldsCompactIndex img z nid coreSize xattrSize compBase tailOfs zi.extents) :
    ((writeZCompactIndexes (compactIndexStart nid coreSize xattrSize)
        (firstBlkaddr compBase zi.extents)
        (zIndexEntries compBase tailOfs false zi.extents)).length =
          zCompactIndexSize (compactIndexStart nid coreSize xattrSize) (clusters zi.extents) ∧
      ∀ lcn, lcn < clusters zi.extents →
        SameCluster img z (zIndexEntries compBase tailOfs false zi.extents) lcn) ↔
      ∀ ext ∈ zi.extents.dropLast, ext.plain = false → ext.blocks < 2048 := by
  obtain ⟨hne, hcont⟩ := zCanCompact_spec hwhole hcan
  have h0 : 0 < clusters zi.extents := by
    obtain ⟨ext, rest, hexts⟩ := exists_cons_of_ne_nil hne
    have hpos := (hpack ext (by rw [hexts]; exact mem_cons_self)).lclusters_pos
    rw [hexts, clusters_cons]
    omega
  constructor
  · rintro ⟨-, hsame⟩ ext hext hplain
    by_contra hge
    obtain ⟨before, after, hsplit⟩ := append_of_mem hext
    -- an extent of `dropLast` has one behind it
    obtain ⟨next, rest, hafter⟩ : ∃ next rest, zi.extents = before ++ ext :: next :: rest := by
      have hall := dropLast_append_getLast hne
      rw [hsplit, append_assoc, cons_append] at hall
      cases after with
      | nil => exact ⟨_, [], hall.symm⟩
      | cons next rest => exact ⟨next, _, hall.symm⟩
    exact himg.not_sameCluster hpack hcont hafter hplain (by omega) hsame
  · intro hfull
    exact ⟨length_writeZCompactIndexes hpack h0, fun lcn hlcn => himg.sameCluster hpack hcont hfull hlcn⟩

end

/-! ## Two files -/

/-- An image of 512-byte blocks that holds nothing but the compacted index of the
    first inode, for a compressed region at block 10. -/
def compactIndexImage (exts : List ZExtent) : Image where
  data := replicate 40 0 ++
    writeZCompactIndexes 40 (firstBlkaddr 10 exts) (zIndexEntries 10 0 false exts) ++ []
  metaBlkAddr := 0
  blkSizeBits := 9

def compactIndexRead (exts : List ZExtent) : ZRead :=
  { idxStart := 40, nIdx := clusters exts, compact := true }

theorem compactIndexImage_holds (exts : List ZExtent) :
    HoldsCompactIndex (compactIndexImage exts) (compactIndexRead exts) 0 32 0 10 0 exts :=
  ⟨Nat.le_refl 9, rfl, rfl, rfl, replicate 40 0, [], rfl, rfl⟩

def smallFile : ZInfo := { extents := [⟨3, 2, 0, false⟩, ⟨1, 1, 2, true⟩] }

theorem smallFile_compact_index :
    (writeZCompactIndexes 40 10 (zIndexEntries 10 0 false smallFile.extents)).length =
        zCompactIndexSize 40 4 ∧
      ∀ lcn, lcn < 4 → SameCluster (compactIndexImage smallFile.extents)
        (compactIndexRead smallFile.extents) (zIndexEntries 10 0 false smallFile.extents) lcn :=
  (writeZCompactIndexes_agrees_iff (show ∀ ext ∈ smallFile.extents, ext.Packable by
      intro ext hext
      simp only [smallFile, mem_cons, not_mem_nil, or_false] at hext
      rcases hext with rfl | rfl <;> constructor <;> decide)
    rfl (by decide) (compactIndexImage_holds smallFile.extents)).mpr (by
      intro ext hext _
      simp only [smallFile, dropLast, mem_cons, not_mem_nil, or_false] at hext
      subst hext
      decide)

/-- A megabyte and two blocks in a pcluster of one megabyte, and a raw block. -/
def fullPclusterFile : ZInfo := { extents := [⟨2050, 2048, 0, false⟩, ⟨1, 1, 2048, true⟩] }

/-- The raw block of that file is at block 2058, and is read at block 10. -/
theorem fullPclusterFile_compact_index :
    (∀ ext ∈ fullPclusterFile.extents, ext.Packable) ∧
      zCanCompact 512 fullPclusterFile = true ∧
      (∃ e, (compactIndexImage fullPclusterFile.extents).zCompactIndex
        (compactIndexRead fullPclusterFile.extents) 2050 = .ok e ∧ e.u = 10) ∧
      (zIndexEntries 10 0 false fullPclusterFile.extents)[2050]? =
        some { typ := zLclusterPlain, u := 2058 } := by
  have hpack : ∀ ext ∈ fullPclusterFile.extents, ext.Packable := by
    intro ext hext
    simp only [fullPclusterFile, mem_cons, not_mem_nil, or_false] at hext
    rcases hext with rfl | rfl <;> constructor <;> decide
  have hplace : Place fullPclusterFile.extents 2050 [⟨2050, 2048, 0, false⟩] ⟨1, 1, 2048, true⟩ 0 [] :=
    ⟨rfl, by decide, rfl⟩
  obtain ⟨e, he, hdec⟩ := (compactIndexImage_holds fullPclusterFile.extents).decodes hpack
    (show 2050 < clusters _ by decide)
  refine ⟨hpack, by decide, ⟨e, he, ?_⟩, ?_⟩
  · rw [hdec.head (by rw [hplace.headAt]; rfl), hplace.addrAt]
    rfl
  · rw [hplace.entry (fun e he => (hpack e he).lclusters_pos)]
    rfl

end Orchestrator.Erofs

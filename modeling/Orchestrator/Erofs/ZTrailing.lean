/-
  Orchestrator.Erofs.ZTrailing

  The map header and the index behind a compressed inode: `writeZTrailing`, and what
  `zInit` and `zIndex` read there.

  Both layouts are reduced to one view of the index (`IndexView`): for every cluster,
  the address of a PLAIN or HEAD, a distance that stays inside the extent, the block
  count behind the HEAD, and, in the full layout, the boundary marker in the place of
  the last cluster of a file that ends inside it.  The view needs block addresses that
  fit 32 bits.
-/

import Orchestrator.Erofs.ZCompactIndex

namespace Orchestrator.Erofs

open Lib Lib.Exec List

/-! ## The writer -/

/-- The fields of an `erofsEntry` that its trailing metadata depends on. -/
structure ZEntry where
  nid : Nat
  coreSize : Nat
  xattrSize : Nat
  size : Nat
  compactLayout : Bool
  z : ZInfo
deriving DecidableEq, Repr

/-- The inode that a reader parses from the entry. -/
def ZEntry.inode (e : ZEntry) : Inode :=
  { nid := e.nid, icsize := e.coreSize, xsize := e.xattrSize, compactLayout := e.compactLayout
    size := e.size }

/-- Padding in front of the map header. -/
def zTrailingPad (headerEnd : Nat) : Nat := (8 - headerEnd % 8) % 8

/-- The map header: only the advise field is not zero. -/
def zMapHeader (advise : Nat) : List UInt8 := leBytes 4 0 ++ leBytes 2 advise ++ [0, 0]

/-- `emit`: an entry of the full index. -/
def ZIndexEntry.bytes (e : ZIndexEntry) : List UInt8 :=
  leBytes 2 e.typ ++ leBytes 2 e.clusterofs ++ leBytes 4 e.u

/-- `uint16(e.size % uint64(w.blockSize))`. -/
def tailOfs (size blockSize : Nat) : Nat := size % blockSize % 2 ^ 16

def writeZTrailing (blockSize compBase : Nat) (e : ZEntry) : List UInt8 :=
  replicate (zTrailingPad (e.coreSize + e.xattrSize)) 0 ++
    if e.z.wholeFragment then leBytes 8 (2 ^ 63 ||| e.z.fragOff)
    else if e.compactLayout then
      zMapHeader compactAdviseBits ++
        writeZCompactIndexes (compactIndexStart e.nid e.coreSize e.xattrSize)
          (firstBlkaddr compBase e.z.extents)
          (zIndexEntries compBase (tailOfs e.size blockSize) false e.z.extents)
    else
      zMapHeader zAdviseBigPcluster1 ++ replicate zFullIndexExtra 0 ++
        (zIndexEntries compBase (tailOfs e.size blockSize) true e.z.extents).flatMap
          ZIndexEntry.bytes

/-- An image that has the trailing metadata of an entry where its inode is. -/
structure HoldsTrailing (img : Image) (compBase : Nat) (e : ZEntry) : Prop where
  blkSizeBits_ge : 9 ≤ img.blkSizeBits
  trailing : ∃ before after, img.data = before ++ writeZTrailing img.blockSize compBase e ++ after ∧
    before.length = img.metaStartPos + e.nid * sizeInodeCompact + e.inode.flatDataOffset

/-! ## The reader's position -/

theorem Image.readAt_slice {img : Image} {before mid after : List UInt8}
    (h : img.data = before ++ mid ++ after) {n : Nat} (off : Nat) (hn : off + n ≤ mid.length) {pos : Int}
    (hpos : pos = before.length + off) : img.readAt n pos = .ok ((mid.drop off).take n) := by
  have hnat : pos.toNat = before.length + off := by omega
  rw [Image.readAt, hnat, h, if_pos ⟨by omega, by simp only [length_append]; omega⟩,
    append_assoc, drop_length_add_append, drop_append_of_le_length (by omega),
    take_append_of_le_length (by rw [length_drop]; omega)]

/-- The header is where the writer's padding ends. -/
theorem align8_header {start : Nat} (h : start % 8 = 0) (headerEnd : Nat) :
    align8 (start + headerEnd) = start + headerEnd + zTrailingPad headerEnd := by
  rw [align8, zTrailingPad]
  omega

section

variable {img : Image} {compBase : Nat} {e : ZEntry}

theorem inodeStart_mod (h : 9 ≤ img.blkSizeBits) (nid : Nat) :
    (img.metaStartPos + nid * sizeInodeCompact) % 8 = 0 := by
  have hmeta := metaStartPos_mod h
  have hsize : sizeInodeCompact = 32 := rfl
  rw [hsize]
  omega

def headerPos (img : Image) (e : ZEntry) : Nat :=
  align8 (img.metaStartPos + e.nid * sizeInodeCompact + e.inode.flatDataOffset)

theorem HoldsTrailing.split (h : HoldsTrailing img compBase e) (hw : e.z.wholeFragment = false) :
    ∃ before after, before.length = headerPos img e ∧
      img.data = before ++ (if e.compactLayout then
        zMapHeader compactAdviseBits ++
          writeZCompactIndexes (compactIndexStart e.nid e.coreSize e.xattrSize)
            (firstBlkaddr compBase e.z.extents)
            (zIndexEntries compBase (tailOfs e.size img.blockSize) false e.z.extents)
        else zMapHeader zAdviseBigPcluster1 ++ replicate zFullIndexExtra 0 ++
          (zIndexEntries compBase (tailOfs e.size img.blockSize) true e.z.extents).flatMap
            ZIndexEntry.bytes) ++ after := by
  obtain ⟨before, after, hdata, hlen⟩ := h.trailing
  have halign := align8_header (inodeStart_mod h.blkSizeBits_ge e.nid) e.inode.flatDataOffset
  refine ⟨before ++ replicate (zTrailingPad e.inode.flatDataOffset) 0, after, ?_, ?_⟩
  · rw [length_append, length_replicate, hlen, headerPos, halign]
  · rw [hdata, writeZTrailing, if_neg (by simp [hw]), ← append_assoc before]
    rfl

def zReadOf (img : Image) (e : ZEntry) : ZRead :=
  { idxStart := if e.compactLayout then headerPos img e + zMapHeaderSize
      else headerPos img e + zMapHeaderSize + zFullIndexExtra
    nIdx := ((e.size : Int) + img.blockSize - 1) / 2 ^ img.blkSizeBits
    compact := e.compactLayout
    advise := if e.compactLayout then compactAdviseBits else zAdviseBigPcluster1 }

/-- **`zInit` accepts the header that the writer puts there.** -/
theorem zInit_of_trailing (h : HoldsTrailing img compBase e) (hw : e.z.wholeFragment = false) :
    img.zInit e.inode = .ok (zReadOf img e) := by
  obtain ⟨before, after, hlen, hdata⟩ := h.split hw
  have hread : ∀ advise rest, img.data = before ++ (zMapHeader advise ++ rest) ++ after →
      img.readAt 8 (headerPos img e) = .ok (zMapHeader advise) := by
    intro advise rest hdata
    rw [append_assoc, append_assoc, ← append_assoc before] at hdata
    rw [Image.readAt_slice hdata 0 (Nat.le_refl _) (by omega)]
    rfl
  rw [Image.zInit, zReadOf]
  show (img.readAt 8 (headerPos img e) >>= _) = _
  cases hc : e.compactLayout with
  | true =>
    have hcl : e.inode.compactLayout = true := hc
    rw [hc, if_pos rfl] at hdata
    rw [hread _ _ hdata, hcl]
    rfl
  | false =>
    have hcl : e.inode.compactLayout = false := hc
    rw [hc, if_neg (by simp), append_assoc (zMapHeader _)] at hdata
    rw [hread _ _ hdata, hcl]
    rfl

end

/-! ## The index as the reader sees it -/

/-- The index of cluster `i` of an extent at block `addr`.  `tail` is the offset in the
    boundary marker, when the extent ends with one. -/
structure ClusterIndex (addr : Nat) (ext : ZExtent) (i : Nat) (tail : Option Nat) (e : LIndex) :
    Prop where
  plain : ext.plain = true → e.typ = zLclusterPlain ∧ e.u = addr + i ∧ e.clusterofs = 0
  head : ext.plain = false → i = 0 → e.typ = zLclusterHead1 ∧ e.u = addr
  nonhead : ext.plain = false → 0 < i → (tail = none ∨ i + 1 < ext.lclusters) →
    e.typ = zLclusterNonhead ∧ 1 ≤ e.distance ∧ e.distance ≤ i ∧
      (i = 1 → e.u &&& 0xffff = 2048 + ext.blocks)
  marker : ∀ t, ext.plain = false → 0 < i → tail = some t → i + 1 = ext.lclusters →
    e.typ = zLclusterPlain ∧ e.u = 0 ∧ e.clusterofs = t

theorem LIndex.typ_mk {typ : Nat} (h : typ ≤ 2) (clusterofs u : Nat) :
    (⟨typ, clusterofs, u⟩ : LIndex).typ = typ := typ_of_le h

section

variable {addr i : Nat} {ext : ZExtent} {tail : Option Nat} {e : LIndex}

theorem ClusterIndex.of_plain (hplain : ext.plain = true) (htyp : e.typ = zLclusterPlain)
    (hu : e.u = addr + i) (hofs : e.clusterofs = 0) : ClusterIndex addr ext i tail e where
  plain _ := ⟨htyp, hu, hofs⟩
  head := by simp [hplain]
  nonhead := by simp [hplain]
  marker := by simp [hplain]

theorem ClusterIndex.of_head (hplain : ext.plain = false) (h0 : i = 0)
    (htyp : e.typ = zLclusterHead1) (hu : e.u = addr) : ClusterIndex addr ext i tail e where
  plain := by simp [hplain]
  head _ _ := ⟨htyp, hu⟩
  nonhead _ hpos := by omega
  marker _ _ hpos := by omega

theorem ClusterIndex.of_nonhead (hplain : ext.plain = false) (h0 : 0 < i)
    (htail : tail = none ∨ i + 1 < ext.lclusters) (htyp : e.typ = zLclusterNonhead)
    (hback : 1 ≤ e.distance ∧ e.distance ≤ i ∧ (i = 1 → e.u &&& 0xffff = 2048 + ext.blocks)) :
    ClusterIndex addr ext i tail e where
  plain := by simp [hplain]
  head _ hzero := by omega
  nonhead _ _ _ := ⟨htyp, hback⟩
  marker t _ _ ht hend := by
    rcases htail with hnone | hlt
    · rw [hnone] at ht
      cases ht
    · omega

theorem ClusterIndex.of_marker {t : Nat} (hplain : ext.plain = false) (h0 : 0 < i)
    (htail : tail = some t) (hend : i + 1 = ext.lclusters) (htyp : e.typ = zLclusterPlain)
    (hu : e.u = 0) (hofs : e.clusterofs = t) : ClusterIndex addr ext i tail e where
  plain := by simp [hplain]
  head _ hzero := by omega
  nonhead _ _ hinside := by
    rcases hinside with hnone | hlt
    · rw [htail] at hnone
      cases hnone
    · omega
  marker t' _ _ ht' _ := by
    rw [htail] at ht'
    cases ht'
    exact ⟨htyp, hu, hofs⟩

end

/-- What an index says of every cluster of a file. -/
def IndexView (index : Int → Except ZError LIndex) (compBase : Nat) (exts : List ZExtent)
    (tail : Option Nat) : Prop :=
  ∀ k before ext i rest, Place exts k before ext i rest →
    ∃ e, index k = .ok e ∧
      ClusterIndex (compBase + ext.blkOff) ext i (if rest = [] then tail else none) e

/-- The blocks of an extent that the index has an address for: all raw ones, and the first
    block of an encoding. -/
def ZExtent.addresses (ext : ZExtent) : Nat := if ext.plain = true then ext.blocks else 1

/-- An extent whose addresses have 32 bits, and whose block count fits its field. -/
structure ZExtent.Addressable (compBase : Nat) (ext : ZExtent) : Prop where
  packable : ext.Packable
  addr_le : compBase + ext.blkOff + ext.addresses ≤ 2 ^ 32
  blocks_lt : ext.plain = false → ext.blocks < 2048

theorem leNat_leBytes_of_lt {n v : Nat} (h : v < 256 ^ n) : leNat (leBytes n v) = v := by
  rw [leNat_leBytes, Nat.mod_eq_of_lt h]

theorem entry_bytes_read {entry : ZIndexEntry} (htyp : entry.typ < 2 ^ 16)
    (hofs : entry.clusterofs < 2 ^ 16) (hu : entry.u < 2 ^ 32) :
    leNat (entry.bytes.take 2) = entry.typ ∧
      leNat ((entry.bytes.drop 2).take 2) = entry.clusterofs ∧
      leNat ((entry.bytes.drop 4).take 4) = entry.u := by
  have h1 : entry.bytes.take 2 = leBytes 2 entry.typ := by
    rw [ZIndexEntry.bytes, append_assoc, take_left' (length_leBytes _ _)]
  have h2 : (entry.bytes.drop 2).take 2 = leBytes 2 entry.clusterofs := by
    rw [ZIndexEntry.bytes, append_assoc, drop_left' (length_leBytes _ _),
      take_left' (length_leBytes _ _)]
  have h3 : (entry.bytes.drop 4).take 4 = leBytes 4 entry.u := by
    rw [ZIndexEntry.bytes, drop_left' (by simp), take_of_length_le (by simp)]
  rw [h1, h2, h3]
  exact ⟨leNat_leBytes_of_lt htyp, leNat_leBytes_of_lt hofs, leNat_leBytes_of_lt hu⟩

theorem entryBytes_length (entry : ZIndexEntry) : entry.bytes.length = 8 := by
  simp [ZIndexEntry.bytes]

section

variable {compBase t i : Nat} {ext : ZExtent}

theorem ZExtent.Addressable.addr_lt (h : ext.Addressable compBase) :
    compBase + ext.blkOff < 2 ^ 32 := by
  have haddr := h.addr_le
  have hpos := h.packable.blocks_pos
  rw [ZExtent.addresses] at haddr
  split at haddr <;> omega

/-- The block of a PLAIN or HEAD cluster, when addresses do not wrap. -/
theorem Place.u32_addr (h : ext.Addressable compBase) (hi : ext.plain = true → i < ext.lclusters) :
    u32 (compBase + ext.blkOff) = compBase + ext.blkOff ∧
      (ext.plain = true →
        u32 (u32 (compBase + ext.blkOff) + u32 i) = compBase + ext.blkOff + i) := by
  have hbase : u32 (compBase + ext.blkOff) = compBase + ext.blkOff := u32_of_lt h.addr_lt
  refine ⟨hbase, fun hplain => ?_⟩
  have haddr := h.addr_le
  have hblocks := h.packable.plain_blocks hplain
  have hlt := hi hplain
  rw [ZExtent.addresses, if_pos hplain] at haddr
  rw [hbase, u32_of_lt (show i < 2 ^ 32 by omega), u32_of_lt]

theorem nonheadDelta_eq (h : ext.Addressable compBase) (hplain : ext.plain = false) (h0 : 0 < i)
    (hi : i < ext.lclusters) :
    nonheadDelta ext i = if i = 1 then 2048 + ext.blocks else min i 2047 := by
  have hblocks := h.blocks_lt hplain
  have hle := h.packable.lclusters_le
  split
  · rename_i h1
    rw [h1, nonheadDelta_one (by omega), carriedBlocks, if_neg (by omega)]
  · exact nonheadDelta_of_two_le

/-- The distance field of a NONHEAD and what the reader makes of it. -/
theorem nonhead_distance (h : ext.Addressable compBase) (hplain : ext.plain = false)
    (h0 : 0 < i) (hi : i < ext.lclusters) {e : LIndex}
    (hu : e.u = nonheadDelta ext i ||| u32 (u32 (ext.lclusters - i) <<< 16)) :
    1 ≤ e.distance ∧ e.distance ≤ i ∧ (i = 1 → e.u &&& 0xffff = 2048 + ext.blocks) := by
  have hblocks := h.blocks_lt hplain
  rw [nonheadDelta_eq h hplain h0 hi] at hu
  split at hu
  · have hlow : e.u &&& 0xffff = 2048 + ext.blocks := by
      rw [hu, low_nonhead]
    rw [LIndex.distance_blkcnt hlow hblocks]
    exact ⟨Nat.le_refl 1, h0, fun _ => hlow⟩
  · rename_i h1
    have hlow : e.u &&& 0xffff = min i 2047 := by
      rw [hu, low_nonhead]
    have hdist : e.distance = min i 2047 := by
      simp only [LIndex.distance, hlow, and_blkcnt_lt (show min i 2047 < 2048 by omega)]
      rfl
    rw [hdist]
    exact ⟨by omega, by omega, fun hc => absurd hc h1⟩

theorem nonhead_u_lt (h : ext.Addressable compBase) (hplain : ext.plain = false) (h0 : 0 < i)
    (hi : i < ext.lclusters) :
    nonheadDelta ext i ||| u32 (u32 (ext.lclusters - i) <<< 16) < 2 ^ 32 := by
  have hblocks := h.blocks_lt hplain
  apply Nat.or_lt_two_pow
  · rw [nonheadDelta_eq h hplain h0 hi]
    split <;> omega
  · exact Nat.mod_lt _ (by decide)

end

/-- The offset in the boundary marker of the full index. -/
def markerOf (t : Nat) : Option Nat := if t = 0 then none else some t

/-- The fields of an entry of the full index fit, and say what the view asks for. -/
theorem entryOf_view {compBase t i : Nat} {ext : ZExtent} {last : Bool}
    (h : ext.Addressable compBase) (hi : i < ext.lclusters) (ht : t < 2 ^ 16) {entry : ZIndexEntry}
    (hentry : entry = entryOf compBase t (true && last && t != 0) ext i) :
    (entry.typ < 2 ^ 16 ∧ entry.clusterofs < 2 ^ 16 ∧ entry.u < 2 ^ 32) ∧
      ClusterIndex (compBase + ext.blkOff) ext i (if last = true then markerOf t else none)
        ⟨entry.typ, entry.clusterofs, entry.u⟩ := by
  obtain ⟨hbase, hplainAddr⟩ := Place.u32_addr (i := i) h (fun _ => hi)
  have hhead := h.addr_lt
  have hpos := h.packable.blocks_pos
  cases hplain : ext.plain with
  | true =>
    have hval := hplainAddr hplain
    have hblocks := h.packable.plain_blocks hplain
    have haddr := h.addr_le
    rw [ZExtent.addresses, if_pos hplain] at haddr
    rw [entryOf_plain hplain, hval] at hentry
    subst hentry
    refine ⟨⟨show zLclusterPlain < 2 ^ 16 by decide, by simp, by simp only; omega⟩, ?_⟩
    exact .of_plain hplain (LIndex.typ_mk (show zLclusterPlain ≤ 2 by decide) _ _) rfl rfl
  | false =>
    by_cases h0 : i = 0
    · subst h0
      rw [entryOf_head hplain, hbase] at hentry
      subst hentry
      refine ⟨⟨show zLclusterHead1 < 2 ^ 16 by decide, by simp, by simp only; omega⟩, ?_⟩
      exact .of_head hplain rfl (LIndex.typ_mk (show zLclusterHead1 ≤ 2 by decide) _ _) rfl
    · by_cases hmark : (true && last && t != 0) = true ∧ i = ext.lclusters - 1
      · -- the boundary marker
        rw [entryOf, if_neg (by simp [hplain]), if_neg h0, if_pos hmark] at hentry
        subst hentry
        have hboth : last = true ∧ t ≠ 0 := by simpa using hmark.1
        refine ⟨⟨show zLclusterPlain < 2 ^ 16 by decide, ht, by simp⟩, ?_⟩
        rw [hboth.1, if_pos rfl, markerOf, if_neg hboth.2]
        exact .of_marker hplain (by omega) rfl (by omega)
          (LIndex.typ_mk (show zLclusterPlain ≤ 2 by decide) _ _) rfl rfl
      · rw [entryOf, if_neg (by simp [hplain]), if_neg h0, if_neg hmark] at hentry
        subst hentry
        have hult := nonhead_u_lt h hplain (by omega) hi
        refine ⟨⟨show zLclusterNonhead < 2 ^ 16 by decide, by simp, hult⟩, ?_⟩
        apply ClusterIndex.of_nonhead hplain (by omega) _ (LIndex.typ_mk (by decide) _ _)
          (nonhead_distance h hplain (by omega) hi rfl)
        by_cases hend : i + 1 < ext.lclusters
        · exact .inr hend
        -- the last cluster, of an extent without a marker
        left
        split
        · rename_i hl
          rw [markerOf, if_pos]
          by_contra hne
          exact hmark ⟨by simp [hl, hne], by omega⟩
        · rfl

/-! ## The two layouts -/

section

variable {img : Image} {compBase : Nat} {e : ZEntry}

theorem nIdx_zReadOf (img : Image) (e : ZEntry) :
    (zReadOf img e).nIdx = indexCount e.size img.blockSize := by
  have hpos : 0 < img.blockSize := Nat.two_pow_pos _
  show ((e.size : Int) + img.blockSize - 1) / 2 ^ img.blkSizeBits = _
  have hcast : (e.size : Int) + img.blockSize - 1 = ((e.size + img.blockSize - 1 : Nat) : Int) := by
    omega
  rw [hcast, indexCount, Image.blockSize]
  norm_cast

theorem zIndex_in_range {z : ZRead} {k : Nat} (hk : (k : Int) < z.nIdx) :
    img.zIndex z k = if z.compact then img.zCompactIndex z k else do
      let buf ← img.readAt zLclusterIdxSize (z.idxStart + k * zLclusterIdxSize)
      return ⟨leNat (buf.take 2), leNat ((buf.drop 2).take 2), leNat ((buf.drop 4).take 4)⟩ := by
  rw [Image.zIndex, if_neg (by omega), Int.toNat_natCast]

theorem length_writeZTrailing_full {e : ZEntry} (hw : e.z.wholeFragment = false)
    (hlayout : e.compactLayout = false) (hpos : ∀ x ∈ e.z.extents, 0 < x.lclusters)
    (blockSize compBase : Nat) : (writeZTrailing blockSize compBase e).length =
      zTrailingPad (e.coreSize + e.xattrSize) + 16 + clusters e.z.extents * 8 := by
  have hmap : (zMapHeader zAdviseBigPcluster1 ++ replicate zFullIndexExtra 0).length = 16 := rfl
  rw [writeZTrailing, if_neg (by simp [hw]), if_neg (by simp [hlayout]), length_append,
    length_replicate, length_append, hmap, length_flatMap_width entryBytes_length,
    length_zIndexEntries _ _ _ hpos, Nat.add_assoc]

section

variable (h : HoldsTrailing img compBase e) (hw : e.z.wholeFragment = false)
  (hcount : indexCount e.size img.blockSize = clusters e.z.extents)
include h hw hcount

theorem HoldsTrailing.fullEntry (hlayout : e.compactLayout = false)
    (hpos : ∀ x ∈ e.z.extents, 0 < x.lclusters) {k : Nat} (hk : k < clusters e.z.extents)
    {entry : ZIndexEntry}
    (hget : (zIndexEntries compBase (tailOfs e.size img.blockSize) true e.z.extents)[k]? = some entry)
    (hfields : entry.typ < 2 ^ 16 ∧ entry.clusterofs < 2 ^ 16 ∧ entry.u < 2 ^ 32) :
    img.zIndex (zReadOf img e) k = .ok ⟨entry.typ, entry.clusterofs, entry.u⟩ := by
  obtain ⟨pre, after, hlen, hdata⟩ := h.split hw
  rw [hlayout, if_neg (by simp)] at hdata
  have hrec := take_drop_flatMap entryBytes_length hget
  have hlenAll := length_flatMap_width entryBytes_length
    (zIndexEntries compBase (tailOfs e.size img.blockSize) true e.z.extents)
  rw [length_zIndexEntries _ _ _ hpos] at hlenAll
  have hmap : (zMapHeader zAdviseBigPcluster1 ++ replicate zFullIndexExtra 0).length = 16 := rfl
  rw [← append_assoc pre] at hdata
  have hread : img.readAt zLclusterIdxSize
      ((zReadOf img e).idxStart + (k : Int) * zLclusterIdxSize) = .ok entry.bytes := by
    have hstart : (zReadOf img e).idxStart = headerPos img e + 16 := by
      rw [zReadOf, hlayout]
      rfl
    have hsize : zLclusterIdxSize = 8 := rfl
    rw [← hrec, hsize]
    apply Image.readAt_slice hdata (k * 8)
    · rw [hlenAll]
      omega
    · rw [hstart, length_append, hmap, hlen]
      omega
  obtain ⟨h1, h2, h3⟩ := entry_bytes_read hfields.1 hfields.2.1 hfields.2.2
  have hfull : (zReadOf img e).compact = false := hlayout
  rw [zIndex_in_range (by rw [nIdx_zReadOf, hcount]; omega), hfull, if_neg (by simp), hread]
  show Except.ok _ = _
  rw [h1, h2, h3]

/-- **The full index gives the view.** -/
theorem HoldsTrailing.fullView (hlayout : e.compactLayout = false)
    (haddr : ∀ ext ∈ e.z.extents, ext.Addressable compBase) :
    IndexView (img.zIndex (zReadOf img e)) compBase e.z.extents
      (markerOf (tailOfs e.size img.blockSize)) := by
  intro k before ext i rest hplace
  have hpos : ∀ x ∈ e.z.extents, 0 < x.lclusters := fun x hx => (haddr x hx).packable.lclusters_pos
  have hk : k < clusters e.z.extents := hplace.lt_clusters
  have hget : (zIndexEntries compBase (tailOfs e.size img.blockSize) true e.z.extents)[k]? =
      some (entryOf compBase (tailOfs e.size img.blockSize)
        (true && rest.isEmpty && tailOfs e.size img.blockSize != 0) ext i) := by
    have hloc : locate e.z.extents k = some (ext, i, rest) := by
      rw [hplace.exts_eq, hplace.k_eq]
      exact locate_append hplace.i_lt
    exact getElem?_zIndexEntries hpos hloc
  obtain ⟨hfields, hview⟩ := entryOf_view (haddr ext hplace.mem) hplace.i_lt
    (Nat.mod_lt _ (by decide)) rfl
  refine ⟨_, h.fullEntry hw hcount hlayout hpos hk hget hfields, ?_⟩
  have hempty : (rest.isEmpty = true) = (rest = []) := by simp
  simp only [hempty] at hview
  exact hview

/-- The compacted index is where `HoldsCompactIndex` asks for it. -/
theorem HoldsTrailing.holdsCompactIndex (hlayout : e.compactLayout = true) :
    HoldsCompactIndex img (zReadOf img e) e.nid e.coreSize e.xattrSize compBase
      (tailOfs e.size img.blockSize) e.z.extents := by
  obtain ⟨pre, after, hlen, hdata⟩ := h.split hw
  rw [hlayout, if_pos rfl, ← append_assoc pre] at hdata
  have hstart : (zReadOf img e).idxStart = headerPos img e + 8 := by
    rw [zReadOf, hlayout]
    rfl
  have hheader : headerPos img e + 8 =
      img.metaStartPos + compactIndexStart e.nid e.coreSize e.xattrSize := by
    have hmeta := metaStartPos_mod h.blkSizeBits_ge
    have hhdr : zMapHeaderSize = 8 := rfl
    have hflat : e.inode.flatDataOffset = e.coreSize + e.xattrSize := rfl
    rw [headerPos, compactIndexStart, align8, align8, hhdr, hflat]
    omega
  refine ⟨h.blkSizeBits_ge, hlayout, ?_, ?_, pre ++ zMapHeader compactAdviseBits, after, hdata, ?_⟩
  · rw [nIdx_zReadOf, hcount]
  · rw [hstart]
    exact_mod_cast hheader
  · have hmap : (zMapHeader compactAdviseBits).length = 8 := rfl
    rw [hstart, length_append, hmap, hlen]
    rfl

/-- **The compacted index gives the view**, without a boundary marker. -/
theorem HoldsTrailing.compactView (hlayout : e.compactLayout = true)
    (haddr : ∀ ext ∈ e.z.extents, ext.Addressable compBase)
    (hcont : contiguous e.z.extents = true) :
    IndexView (img.zIndex (zReadOf img e)) compBase e.z.extents none := by
  intro k before ext i rest hplace
  have hpack : ∀ x ∈ e.z.extents, x.Packable := fun x hx => (haddr x hx).packable
  have hfull : ∀ x ∈ e.z.extents.dropLast, x.plain = false → x.blocks < 2048 := fun x hx =>
    (haddr x ((dropLast_sublist _).mem hx)).blocks_lt
  have himg := h.holdsCompactIndex hw hcount hlayout
  have hk : k < clusters e.z.extents := hplace.lt_clusters
  have s := indexStream_of_extents hpack compBase (tailOfs e.size img.blockSize)
    (firstBlkaddr compBase e.z.extents)
  obtain ⟨idx, hidx, hdec⟩ := himg.decodes hpack hk
  have hread : img.zIndex (zReadOf img e) k = .ok idx := by
    rw [zIndex_in_range (by rw [nIdx_zReadOf, hcount]; omega), himg.compact, if_pos rfl]
    exact hidx
  have hentry := hplace.getD_entry (fun x hx => (hpack x hx).lclusters_pos) compBase
    (tailOfs e.size img.blockSize)
  have hback := hdec.pointsBack s hk
  have htyp := hback.typ_eq
  simp only [hentry, entryOf_typ] at htyp
  have haddrE := haddr ext hplace.mem
  have hkeq := hplace.k_eq
  have hilt := hplace.i_lt
  have hle := haddrE.packable.lclusters_le
  obtain ⟨hbase, hplainAddr⟩ := Place.u32_addr haddrE (fun _ => hilt)
  -- the address of a HEAD or PLAIN cluster is that of its full entry
  have hu : (ext.plain = false → i = 0) → headAt e.z.extents k = k →
      idx.u = (entryOf compBase (tailOfs e.size img.blockSize) false ext i).u := by
    intro hi hhead
    rw [hdec.head hhead, hplace.entry_u hcont hi (by omega), hplace.addrAt,
      addrAt_eq_blocks hpack hfull hplace.exts_eq]
  have htail : (if rest = [] then (none : Option Nat) else none) = none := by split <;> rfl
  refine ⟨idx, hread, ?_⟩
  rw [htail]
  cases hplain : ext.plain with
  | true =>
    rw [hplain, if_pos rfl] at htyp
    have hval := hu (fun hc => by rw [hplain] at hc; cases hc) (hplace.headAt_plain hplain)
    rw [entryOf_plain hplain] at hval
    exact .of_plain hplain htyp (hval.trans (hplainAddr hplain)) hdec.clusterofs_eq
  | false =>
    rw [hplain, if_neg (by simp)] at htyp
    by_cases h0 : i = 0
    · rw [if_pos h0] at htyp
      have hval := hu (fun _ => h0) (by rw [hplace.headAt_compressed hplain]; omega)
      rw [h0, entryOf_head hplain] at hval
      exact .of_head hplain h0 htyp (hval.trans hbase)
    · rw [if_neg h0] at htyp
      have hhead := hplace.headAt_compressed hplain
      have hdist := hback.back (by omega)
      apply ClusterIndex.of_nonhead hplain (by omega) (.inl rfl) htyp
      refine ⟨hdist.1, by omega, fun h1 => ?_⟩
      -- the block count
      have hcnt := hdec.first (by omega)
      have hblocks := haddrE.blocks_lt hplain
      rw [hhead, (hplace.head haddrE.packable.lclusters_pos).countAt, hplain, if_neg (by simp),
        carriedBlocks, if_neg (by omega)] at hcnt
      rw [hcnt, low_of_lt]

end

end

end Orchestrator.Erofs

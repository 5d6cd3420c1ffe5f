/-
  Orchestrator.Erofs.ZRead

  Reading compressed inodes: the map header, the two index layouts, the walk back
  to the HEAD of an extent, and the one-extent decompression cache.

  Everything here is read from an image that nobody vouches for, so every
  function is total on any bytes: a read past the end, a bad index or a bad
  pcluster is an error, and a walk that would not end is reported as running out
  of fuel.  What the functions return on images the writer produced is proved in
  `ZRoundTrip`.
-/

import Orchestrator.Erofs.ZIndex

namespace Orchestrator.Erofs

open Lib

/-! ## Images and inodes -/

inductive ZError where
  | io
  /-- A read at a negative position, which the reader under the image refuses. -/
  | negative (pos : Int)
  | notImplemented (advise algo clusterbits : Nat)
  | compactAdvise (advise : Nat)
  | outOfRange (lcn : Int)
  | bogusDelta (lcn : Int)
  | compactDelta (delta : Nat)
  | lclusterType (typ : Nat)
  | pclusterBlocks (blkaddr : Nat) (blocks : Int)
  | pclusterSize (blkaddr : Nat) (size : Int)
  | emptyPcluster (blkaddr : Nat)
  | decompress (blkaddr : Nat)
  | shortPcluster (blkaddr : Nat) (got want : Int)
  | shortExtent (head lcn : Int)
  | eof
  | noPackedInode
  | pastPackedEnd (off : Int)
  | inodeLayout (layout : Nat)
  | inlineCrossesBlock (nid : Nat)
  | blockBounds (offset stop : Int)
  | chunkFormat (format : Nat)
  | chunkRange (chunk : Int)
  | deviceId (id : Nat)
  /-- A slice expression outside its buffer: the program panics. -/
  | bounds
  /-- An index walk that does not come to an end. -/
  | fuel
deriving DecidableEq, Repr

instance : OutOfFuel ZError := ⟨.fuel⟩

/-- An image: its bytes, and what the superblock says about them. -/
structure Image where
  data : List UInt8
  metaBlkAddr : Nat
  blkSizeBits : Nat

def Image.blockSize (img : Image) : Nat := 2 ^ img.blkSizeBits

def Image.metaStartPos (img : Image) : Nat := img.metaBlkAddr <<< img.blkSizeBits

/-- `int64` of a value computed without bound. -/
def int64 (x : Int) : Int := x.bmod (2 ^ 64)

/-- `img.meta.ReadAt(buf, pos)` with a buffer of `n` bytes.  Positions are sums and products
    of 64-bit numbers, so it is enough to wrap the sum here, and an image holds less than
    `2 ^ 63` bytes. -/
def Image.readAt (img : Image) (n : Nat) (pos : Int) : Except ZError (List UInt8) :=
  if 0 ≤ pos ∧ pos.toNat + n ≤ img.data.length then .ok ((img.data.drop pos.toNat).take n)
  else if int64 pos < 0 then .error (.negative (int64 pos))
  else if (int64 pos).toNat + n ≤ img.data.length then
    .ok ((img.data.drop (int64 pos).toNat).take n)
  else .error .io

/-- The fields of an inode that reading its data uses. -/
structure Inode where
  nid : Nat
  icsize : Nat
  xsize : Nat
  /-- Whether the layout is the compact one, not the full one. -/
  compactLayout : Bool
  size : Int
deriving DecidableEq, Repr

def Inode.flatDataOffset (fi : Inode) : Nat := fi.icsize + fi.xsize

/-- `zRead`: the parsed map header, and the extent decompressed last. -/
structure ZRead where
  wholeFragment : Bool := false
  fragOff : Nat := 0
  idxStart : Int := 0
  nIdx : Int := 0
  compact : Bool := false
  advise : Nat := 0
  extStartLcn : Int := -1
  extEndLcn : Int := 0
  extData : List UInt8 := []
deriving DecidableEq, Repr

def sizeInodeCompact : Nat := 32
def comprAlgLZ4 : Nat := 0

def zAdviseCompacted2B : Nat := 0x0001
def zAdviseBigPcluster1 : Nat := 0x0002
def zAdviseBigPcluster2 : Nat := 0x0004

/-- The advise bits that the compact layout requires. -/
def compactAdviseBits : Nat := zAdviseCompacted2B ||| zAdviseBigPcluster1 ||| zAdviseBigPcluster2

/-- `(pos + 7) &^ 7`. -/
def align8 (pos : Nat) : Nat := (pos + 7) / 8 * 8

def Image.zInit (img : Image) (fi : Inode) : Except ZError ZRead := do
  let pos := align8 (img.metaStartPos + fi.nid * sizeInodeCompact + fi.flatDataOffset)
  let hdr ← img.readAt 8 pos
  let raw := leNat hdr
  if raw >>> 63 ≠ 0 then
    -- the whole file is in the packed inode, at the offset in the other bits
    return { wholeFragment := true, fragOff := raw % 2 ^ 63 }
  else
    let advise := leNat ((hdr.drop 4).take 2)
    let algo := (hdr.getD 6 0).toNat
    let clusterbits := (hdr.getD 7 0).toNat
    if algo &&& 0xf ≠ comprAlgLZ4 ∨ clusterbits &&& 0xf ≠ 0 then
      .error (.notImplemented advise algo clusterbits)
    else if fi.compactLayout ∧ advise &&& compactAdviseBits ≠ compactAdviseBits then
      .error (.compactAdvise advise)
    else
      let idxStart := if fi.compactLayout then pos + zMapHeaderSize
        else pos + zMapHeaderSize + zFullIndexExtra
      return { idxStart := idxStart
               nIdx := (fi.size + img.blockSize - 1) / 2 ^ img.blkSizeBits
               compact := fi.compactLayout
               advise := advise }

/-! ## The index -/

/-- One on-disk index, in the shape both layouts are read into. -/
structure LIndex where
  advise : Nat
  clusterofs : Nat
  u : Nat
deriving DecidableEq, Repr

def LIndex.typ (e : LIndex) : Nat := e.advise &&& 0x3

def decodeCompactBits (pack : List UInt8) (bitpos bits : Nat) : Nat × Nat :=
  let value := takeBits pack bitpos bits
  ((value >>> 12) &&& 3, value &&& (1 <<< 12 - 1))

/-- The number of 4-byte indexes that align the packs of 16 to 32 bytes. -/
def compactInitial (indexStart n : Nat) : Nat :=
  let initial := ((32 - indexStart % 32) / 4) % 8
  if n < initial then 0 else initial

def compactMiddle (initial n : Nat) : Nat :=
  if initial < n then (n - initial) / 16 * 16 else 0

/-- The pack that holds index `lcn`: where it starts behind the index start, the
    index's place in it, and its shape. -/
structure PackPos where
  start : Nat
  i : Nat
  vcnt : Nat
  destSize : Nat
deriving DecidableEq, Repr

def packPos (initial middle lcn : Nat) : PackPos :=
  if lcn < initial then ⟨lcn / 2 * 8, lcn % 2, 2, 4⟩
  else if lcn < initial + middle then
    ⟨initial * 4 + (lcn - initial) / 16 * 32, (lcn - initial) % 16, 16, 2⟩
  else
    ⟨initial * 4 + middle * 2 + (lcn - initial - middle) / 2 * 8,
      (lcn - initial - middle) % 2, 2, 4⟩

/-- The distance of the last record of a pack, from the record before it. -/
def deltaAfter (prev : Nat × Nat) : Nat :=
  if prev.1 ≠ zLclusterNonhead then 1
  else if prev.2 &&& zCblkcntBit ≠ 0 then 2
  else prev.2 + 1

/-- One step back over the records of a pack that adds up the blocks of the
    extents before record `j`. -/
def sumBlocksStep (pack : List UInt8) (encodeBits : Nat) (s : Int × Nat) :
    Except ZError (Step (Int × Nat) Nat) :=
  if 0 < s.1 then
    let j := s.1 - 1
    let prev := decodeCompactBits pack (encodeBits * j.toNat) encodeBits
    if prev.1 ≠ zLclusterNonhead then .ok (.next (j, u32 (s.2 + 1)))
    else if prev.2 &&& zCblkcntBit ≠ 0 then
      .ok (.next (j - 1, u32 (s.2 + (prev.2 - (prev.2 &&& zCblkcntBit)))))
    else if prev.2 ≤ 1 then .error (.compactDelta prev.2)
    else .ok (.next (j - (prev.2 - 2), s.2))
  else .ok (.done s.2)

def expandRecord (pack : List UInt8) (vcnt encodeBits i : Nat) : Except ZError LIndex := do
  let (typ, lo) := decodeCompactBits pack (encodeBits * i) encodeBits
  if typ = zLclusterNonhead then
    if lo &&& zCblkcntBit ≠ 0 then return ⟨typ, 0, lo⟩
    else if i + 1 = vcnt then
      return ⟨typ, 0, deltaAfter (decodeCompactBits pack (encodeBits * (i - 1)) encodeBits)⟩
    else return ⟨typ, 0, lo⟩
  else
    let nblk ← loop (sumBlocksStep pack encodeBits) (i + 1) (i, 0)
    let base := leNat (pack.drop (pack.length - 4))
    return ⟨typ, lo, u32 (base + nblk)⟩

/-- `zCompactIndex`, for an index number in range. -/
def Image.zCompactIndex (img : Image) (z : ZRead) (lcn : Nat) : Except ZError LIndex := do
  let initial := compactInitial z.idxStart.toNat z.nIdx.toNat
  let middle := compactMiddle initial z.nIdx.toNat
  let p := packPos initial middle lcn
  let packBytes := p.vcnt * p.destSize
  let pack ← img.readAt packBytes (z.idxStart + p.start)
  let encodeBits := (packBytes * 8 - 32) / p.vcnt
  expandRecord pack p.vcnt encodeBits p.i

def Image.zIndex (img : Image) (z : ZRead) (lcn : Int) : Except ZError LIndex :=
  if lcn < 0 ∨ z.nIdx ≤ lcn then .error (.outOfRange lcn)
  else if z.compact then img.zCompactIndex z lcn.toNat
  else do
    let buf ← img.readAt zLclusterIdxSize (z.idxStart + lcn * zLclusterIdxSize)
    return ⟨leNat (buf.take 2), leNat ((buf.drop 2).take 2), leNat ((buf.drop 4).take 4)⟩

/-! ## Walking to the HEAD -/

/-- How far a NONHEAD index points back. -/
def LIndex.distance (e : LIndex) : Nat :=
  let d0 := e.u &&& 0xffff
  if d0 &&& zCblkcntBit ≠ 0 then 1 else d0

/-- One step of the walk back to a HEAD.  Only the walk from the cluster itself
    (`strict`) rejects a distance of 0; the one behind a boundary marker does not. -/
def walkStep (index : Int → Except ZError LIndex) (strict : Bool) (s : Int × LIndex) :
    Except ZError (Step (Int × LIndex) (Int × LIndex)) :=
  if s.2.typ = zLclusterNonhead then
    if strict ∧ s.2.distance = 0 then .error (.bogusDelta s.1)
    else do
      let head := s.1 - s.2.distance
      return .next (head, ← index head)
  else .ok (.done s)

/-- Walk back from `head`.  Every step goes at least one cluster back, or the walk
    never ends. -/
def walkBack (index : Int → Except ZError LIndex) (strict : Bool) (head : Int) :
    Except ZError (Int × LIndex) := do
  let e ← index head
  loop (walkStep index strict) (head.toNat + 2) (head, e)

/-- **The walk ends at the HEAD** when every index on the way points back, but not
    past it. -/
theorem walkBack_reaches {index : Int → Except ZError LIndex} {h k : Nat} {eh : LIndex}
    (strict : Bool) (hle : h ≤ k) (hhead : index h = .ok eh) (hne : eh.typ ≠ zLclusterNonhead)
    (hback : ∀ j : Nat, h < j → j ≤ k → ∃ e, index j = .ok e ∧ e.typ = zLclusterNonhead ∧
      1 ≤ e.distance ∧ e.distance ≤ j - h) :
    walkBack index strict k = .ok ((h : Int), eh) := by
  have hwalk : ∀ (j fuel : Nat) (e : LIndex), h ≤ j → j ≤ k → index j = .ok e → j < fuel →
      loop (walkStep index strict) fuel ((j : Int), e) = .ok ((h : Int), eh) := by
    intro j
    induction j using Nat.strongRecOn with
    | _ j ih =>
      intro fuel e hhj hjk he hfuel
      obtain ⟨f, rfl⟩ : ∃ f, fuel = f + 1 := ⟨fuel - 1, by omega⟩
      rw [loop]
      by_cases heq : j = h
      · subst heq
        rw [hhead] at he
        cases he
        rw [walkStep, if_neg hne]
        rfl
      · obtain ⟨e', he', htyp, hpos, hinside⟩ := hback j (by omega) hjk
        rw [he] at he'
        cases he'
        have hprev : ∃ e', index ((j - e.distance : Nat) : Int) = .ok e' := by
          by_cases hat : j - e.distance = h
          · exact ⟨eh, by rw [hat]; exact hhead⟩
          · obtain ⟨e', he', _⟩ := hback (j - e.distance) (by omega) (by omega)
            exact ⟨e', he'⟩
        obtain ⟨e', he'⟩ := hprev
        have hcast : (j : Int) - e.distance = ((j - e.distance : Nat) : Int) := by omega
        have hnot : ¬ (strict = true ∧ e.distance = 0) := fun hc => by omega
        rw [walkStep, if_pos htyp, if_neg hnot]
        simp only [hcast, he']
        exact ih (j - e.distance) (by omega) f e' (by omega) (by omega) he' (by omega)
  have hlast : ∃ e, index k = .ok e := by
    by_cases heq : k = h
    · exact ⟨eh, by rw [heq]; exact hhead⟩
    · obtain ⟨e, he, _⟩ := hback k (by omega) (Nat.le_refl k)
      exact ⟨e, he⟩
  obtain ⟨e, he⟩ := hlast
  rw [walkBack, he]
  exact hwalk k _ e hle (Nat.le_refl k) he (by omega)

/-- A boundary marker: PLAIN with no block, and an offset. -/
def LIndex.isMarker (e : LIndex) : Bool :=
  e.typ = zLclusterPlain ∧ e.u = 0 ∧ e.clusterofs ≠ 0

/-- The HEAD (or PLAIN) index that logical cluster `lcn` belongs to. -/
def findHead (index : Int → Except ZError LIndex) (lcn : Int) : Except ZError (Int × LIndex) := do
  let (head, e) ← walkBack index true lcn
  if e.isMarker then walkBack index false (head - 1) else return (head, e)

/-! ## Extents -/

def zMaxPClusterSize : Int := 1 <<< 20
def zMaxPClusterDSize : Int := 12 <<< 20

structure ExtentScan where
  i : Int
  blocks : Int
  lclusters : Int
  decompressed : Int

/-- One index of the forward scan that sizes the extent at `head`. -/
def scanStep (index : Int → Except ZError LIndex) (blockSize : Int) (nIdx head : Int)
    (s : ExtentScan) : Except ZError (Step ExtentScan ExtentScan) :=
  if s.i < nIdx then do
    let e ← index s.i
    if e.typ = zLclusterNonhead then
      let d0 := e.u &&& 0xffff
      let blocks := if s.i = head + 1 ∧ d0 &&& zCblkcntBit ≠ 0
        then ((d0 - (d0 &&& zCblkcntBit) : Nat) : Int) else s.blocks
      return .next { s with i := s.i + 1, blocks := blocks, lclusters := s.lclusters + 1 }
    else if e.isMarker then
      return .done { s with decompressed := s.lclusters * blockSize + e.clusterofs }
    else return .done s
  else .ok (.done s)

section

-- `lz4.UncompressBlock(src, dst)` of the decoder library: the bytes it decodes into a
-- buffer of the given size, `none` when it reports an error.
variable (uncompressBlock : List UInt8 → Nat → Option (List UInt8))

/-- `zExtentData`: the decompressed extent, and the cache afterwards. -/
def Image.zExtentData (img : Image) (fi : Inode) (z : ZRead) (head : Int) (blkaddr : Nat) :
    Except ZError (List UInt8 × ZRead) :=
  if z.extStartLcn = head then .ok (z.extData, z)
  else do
    let blockSize : Int := img.blockSize
    let s ← loop (scanStep (img.zIndex z) blockSize z.nIdx head) ((z.nIdx - head).toNat + 1)
      ⟨head + 1, 1, 1, 0⟩
    let decompressed :=
      if s.decompressed = 0 then
        -- no boundary marker: the file size bounds the last extent
        if fi.size < head * blockSize + s.lclusters * blockSize then fi.size - head * blockSize
        else s.lclusters * blockSize
      else s.decompressed
    if zMaxPClusterSize < s.blocks * blockSize then .error (.pclusterBlocks blkaddr s.blocks)
    else if decompressed ≤ 0 ∨ zMaxPClusterDSize < decompressed then
      .error (.pclusterSize blkaddr decompressed)
    else
      let comp ← img.readAt (s.blocks * blockSize).toNat (blkaddr * blockSize)
      let comp := comp.dropWhile (· = 0)
      if comp = [] then .error (.emptyPcluster blkaddr)
      else
        match uncompressBlock comp decompressed.toNat with
        | none => .error (.decompress blkaddr)
        | some out =>
          if (out.length : Int) ≠ decompressed then
            .error (.shortPcluster blkaddr out.length decompressed)
          else
            return (out, { z with
              extStartLcn := head, extEndLcn := head + s.lclusters, extData := out })

/-- `copyCachedBlock`: the bytes of a block that the cached extent holds. -/
def ZRead.copyCachedBlock (z : ZRead) (lcn : Int) (blockSize n : Nat) : Option (List UInt8) :=
  if lcn < z.extStartLcn ∨ z.extEndLcn ≤ lcn then none
  else
    let start := (lcn - z.extStartLcn) * blockSize
    if start < 0 ∨ (z.extData.length : Int) < start + n then none
    else some ((z.extData.drop start.toNat).take n)

/-- `zReadIndexed`: the `n` bytes of logical block `bn`, and the cache afterwards. -/
def Image.zReadIndexed (img : Image) (fi : Inode) (z : ZRead) (bn : Int) (n : Nat) :
    Except ZError (List UInt8 × ZRead) :=
  match z.copyCachedBlock bn img.blockSize n with
  | some bytes => .ok (bytes, z)
  | none => do
    let (head, e) ← findHead (img.zIndex z) bn
    let off := (bn - head) * img.blockSize
    if e.typ = zLclusterPlain then
      -- stored raw, one block a cluster
      let bytes ← img.readAt n (e.u * img.blockSize + off)
      return (bytes, z)
    else if e.typ = zLclusterHead1 then
      let (data, z) ← img.zExtentData uncompressBlock fi z head e.u
      if data.length ≤ off ∨ (data.length : Int) < off + n then .error (.shortExtent head bn)
      else return ((data.drop off.toNat).take n, z)
    else .error (.lclusterType e.typ)

end

end Orchestrator.Erofs

/-
  Orchestrator.Erofs.ZReadFile

  Reading a file whose index and extents are on the image.

  The writer's side is summed up in two facts: the index gives the view of
  `ZTrailing`, and every extent, at the address the index gives for it, holds its part
  of the content (`FileOnDisk`).  From these, `findHead` comes to the HEAD or PLAIN
  cluster of any block, the forward scan sizes the extent, and the one-extent cache
  only ever holds a part of the content.  `Reader.readBlocks` is any
  sequence of reads.
-/

import Orchestrator.Erofs.ZTrailing
import Orchestrator.Erofs.ZStore

namespace Orchestrator.Erofs

open Lib Lib.Exec List

/-! ## Files on an image -/

/-- The image holds the extent of `raw` where the index says. -/
structure OnDisk (img : Image) (compBase : Nat) (ext : ZExtent) (raw : List UInt8) : Prop where
  addressable : ext.Addressable compBase
  raw_le : raw.length ≤ zFormatMaxExtentSize
  plain : ext.plain = true → ∀ off n, off + n ≤ raw.length →
    img.readAt n (((compBase + ext.blkOff) * img.blockSize + off : Nat) : Int) =
      .ok ((raw.drop off).take n)
  comp : ext.plain = false → ∃ comp, comp ≠ [] ∧ Lz4.decodeBlock comp = some raw ∧
    comp.length + img.blockSize ≤ raw.length ∧
    ext.blocks = (comp.length + img.blockSize - 1) / img.blockSize ∧
    ext.blocks * img.blockSize ≤ 1 <<< 20 ∧
    img.readAt (ext.blocks * img.blockSize)
        (((compBase + ext.blkOff) * img.blockSize : Nat) : Int) =
      .ok (replicate (ext.blocks * img.blockSize - comp.length) 0 ++ comp)

/-- The part of the content that an extent of `lclusters` clusters at cluster `h` holds. -/
def rawAt (blockSize : Nat) (content : List UInt8) (h lclusters : Nat) : List UInt8 :=
  (content.drop (h * blockSize)).take (lclusters * blockSize)

/-- The extents are on the image, and make up the content. -/
structure FileOnDisk (img : Image) (compBase : Nat) (exts : List ZExtent) (content : List UInt8) :
    Prop where
  extent : ∀ before ext rest, exts = before ++ ext :: rest →
    OnDisk img compBase ext (rawAt img.blockSize content (clusters before) ext.lclusters)
  count : indexCount content.length img.blockSize = clusters exts

/-- Logical block `k` of the content, short at the end of the file. -/
def blockOf (blockSize : Nat) (content : List UInt8) (k : Nat) : List UInt8 :=
  (content.drop (k * blockSize)).take blockSize

/-- The buffer that `zLoadBlock` has filled for block `k`. -/
def blockEnd (blockSize size k : Nat) : Nat :=
  if size < (k + 1) * blockSize then size - k * blockSize else blockSize

section

variable {img : Image} {compBase : Nat} {exts before rest : List ZExtent} {ext : ZExtent}
variable {content : List UInt8} {k i : Nat}

theorem Image.blockSize_pos (img : Image) : 0 < img.blockSize := Nat.two_pow_pos _

theorem indexCount_spec {size blockSize : Nat} (hbs : 0 < blockSize) (k : Nat) :
    k < indexCount size blockSize ↔ k * blockSize < size := by
  rw [indexCount]
  constructor
  · intro h
    exact mul_lt_of_lt_ceilDiv hbs h
  · intro h
    have hle := (ceilDiv_spec hbs size).1
    by_contra hge
    have hmul := Nat.mul_le_mul_right blockSize (Nat.le_of_not_lt hge)
    omega

theorem length_rawAt (blockSize : Nat) (content : List UInt8) (h lclusters : Nat) :
    (rawAt blockSize content h lclusters).length =
      min (lclusters * blockSize) (content.length - h * blockSize) := by
  rw [rawAt, length_take, length_drop]

theorem Place.next_le (h : Place exts k before ext i rest) :
    clusters before + ext.lclusters ≤ clusters exts := by
  rw [h.exts_eq, clusters_append, clusters_cons]
  omega

theorem Place.ext_unique {before' rest' : List ZExtent} {ext' : ZExtent} {i' : Nat}
    (h : Place exts k before ext i rest) (h' : Place exts k before' ext' i' rest') : ext = ext' := by
  have hloc : locate exts k = some (ext, i, rest) := by
    rw [h.exts_eq, h.k_eq]
    exact locate_append h.i_lt
  have hloc' : locate exts k = some (ext', i', rest') := by
    rw [h'.exts_eq, h'.k_eq]
    exact locate_append h'.i_lt
  rw [hloc] at hloc'
  cases hloc'
  rfl

theorem rawAt_block (hplace : Place exts k before ext i rest) {blockSize : Nat}
    (hbs : 0 < blockSize) (hk : k * blockSize < content.length) :
    let n := blockEnd blockSize content.length k
    0 < n ∧ i * blockSize + n ≤ (rawAt blockSize content (clusters before) ext.lclusters).length ∧
      ((rawAt blockSize content (clusters before) ext.lclusters).drop (i * blockSize)).take n =
        blockOf blockSize content k := by
  intro n
  have hlen : n = min blockSize (content.length - k * blockSize) := by
    show blockEnd blockSize content.length k = _
    rw [blockEnd, Nat.succ_mul]
    split <;> omega
  have hkmul : k * blockSize = clusters before * blockSize + i * blockSize := by
    rw [hplace.k_eq, Nat.add_mul]
  have hin := Nat.mul_le_mul_right blockSize hplace.i_lt
  rw [Nat.succ_mul] at hin
  refine ⟨by omega, ?_, ?_⟩
  · rw [length_rawAt]
    omega
  · rw [rawAt, drop_take, drop_drop, ← hkmul, take_take, blockOf]
    have hmin : min n (ext.lclusters * blockSize - i * blockSize) = n := by omega
    rw [hmin, hlen]
    apply take_eq_take_iff.mpr
    rw [length_drop]
    omega

end

/-! ## Finding the HEAD -/

variable {stop : Option Nat}

section

variable {index : Int → Except ZError LIndex} {compBase : Nat} {exts before rest : List ZExtent}
variable {ext : ZExtent} {tail : Option Nat} {k i : Nat}

theorem LIndex.isMarker_of_typ {e : LIndex} (h : e.typ ≠ zLclusterPlain) : e.isMarker = false := by
  simp [isMarker, h]

theorem LIndex.isMarker_of_clusterofs {e : LIndex} (h : e.clusterofs = 0) : e.isMarker = false := by
  simp [isMarker, h]

theorem Place.within (h : Place exts k before ext i rest) {j : Nat} (hj : j < ext.lclusters) :
    Place exts (clusters before + j) before ext j rest :=
  ⟨h.exts_eq, hj, rfl⟩

/-- Walking back inside a compressed extent, from in front of a marker. -/
theorem walkBack_extent (hview : IndexView index compBase exts tail)
    (hplace : Place exts k before ext i rest) (hplain : ext.plain = false) (strict : Bool)
    (hfront : (if rest = [] then tail else none) = none ∨ i + 1 < ext.lclusters) :
    ∃ e, walkBack index strict k = .ok ((clusters before : Nat), e) ∧
      e.typ = zLclusterHead1 ∧ e.u = compBase + ext.blkOff := by
  have hi := hplace.i_lt
  have hk := hplace.k_eq
  obtain ⟨eh, heh, hc⟩ := hview _ _ _ _ _ (hplace.within (show 0 < ext.lclusters by omega))
  obtain ⟨htyp, hu⟩ := hc.head hplain rfl
  refine ⟨eh, ?_, htyp, hu⟩
  apply walkBack_reaches strict (by omega) heh (by rw [htyp]; decide)
  intro j hlt hle
  obtain ⟨e, he, hce⟩ := hview _ _ _ _ _ (hplace.within (j := j - clusters before) (by omega))
  have hj : clusters before + (j - clusters before) = j := by omega
  rw [hj] at he
  obtain ⟨hnon, hpos, hback, -⟩ := hce.nonhead hplain (by omega) (hfront.imp id (by omega))
  exact ⟨e, he, hnon, hpos, hback⟩

theorem findHead_of_walk {h : Int} {e : LIndex} (hwalk : walkBack index true k = .ok (h, e)) :
    findHead index k = if e.isMarker then walkBack index false (h - 1) else .ok (h, e) := by
  rw [findHead, hwalk]
  rfl

theorem findHead_plain (hview : IndexView index compBase exts tail)
    (hplace : Place exts k before ext i rest) (hplain : ext.plain = true) :
    ∃ e, findHead index k = .ok ((k : Int), e) ∧ e.typ = zLclusterPlain ∧
      e.u = compBase + ext.blkOff + i := by
  obtain ⟨e, he, hc⟩ := hview _ _ _ _ _ hplace
  obtain ⟨htyp, hu, hofs⟩ := hc.plain hplain
  have hwalk : walkBack index true k = .ok ((k : Int), e) :=
    walkBack_reaches true (Nat.le_refl k) he (by rw [htyp]; decide) (by intro j h1 h2; omega)
  refine ⟨e, ?_, htyp, hu⟩
  rw [findHead_of_walk hwalk, LIndex.isMarker_of_clusterofs hofs]
  rfl

/-- **Any cluster of a compressed extent leads to its HEAD**, the one that the boundary
    marker replaces included. -/
theorem findHead_compressed (hview : IndexView index compBase exts tail)
    (htail : ∀ t, tail = some t → t ≠ 0)
    (hplace : Place exts k before ext i rest) (hplain : ext.plain = false)
    (htwo : 2 ≤ ext.lclusters) :
    ∃ e, findHead index k = .ok ((clusters before : Nat), e) ∧ e.typ = zLclusterHead1 ∧
      e.u = compBase + ext.blkOff := by
  have hi := hplace.i_lt
  have hk := hplace.k_eq
  by_cases hfront : (if rest = [] then tail else none) = none ∨ i + 1 < ext.lclusters
  · obtain ⟨e, hwalk, htyp, hu⟩ := walkBack_extent hview hplace hplain true hfront
    refine ⟨e, ?_, htyp, hu⟩
    have hnot : e.isMarker = false := LIndex.isMarker_of_typ (by rw [htyp]; decide)
    rw [findHead_of_walk hwalk, hnot]
    rfl
  · -- the marker: the walk starts again from the cluster before it
    rw [not_or] at hfront
    obtain ⟨t, ht⟩ := Option.ne_none_iff_exists'.mp hfront.1
    obtain ⟨m, hm, hc⟩ := hview _ _ _ _ _ hplace
    obtain ⟨htyp, hu, hofs⟩ := hc.marker t hplain (by omega) ht (by omega)
    have ht0 : t ≠ 0 := by
      split at ht
      · exact htail t ht
      · cases ht
    have hwalk : walkBack index true k = .ok ((k : Int), m) :=
      walkBack_reaches true (Nat.le_refl k) hm (by rw [htyp]; decide) (by intro j h1 h2; omega)
    have hmark : m.isMarker = true := by
      simp [LIndex.isMarker, htyp, hu, hofs, ht0]
    have hprev : Place exts (k - 1) before ext (i - 1) rest :=
      ⟨hplace.exts_eq, by omega, by omega⟩
    obtain ⟨e, hback, hhead, haddr⟩ :=
      walkBack_extent hview hprev hplain false (.inr (by omega))
    refine ⟨e, ?_, hhead, haddr⟩
    have hcast : (k : Int) - 1 = ((k - 1 : Nat) : Int) := by omega
    rw [findHead_of_walk hwalk, hmark, if_pos rfl, hcast]
    exact hback

/-! ## The forward scan -/

/-- The clusters of a compressed extent that the scan counts. -/
def scanned (ext : ZExtent) (tail : Option Nat) : Nat :=
  if tail = none then ext.lclusters else ext.lclusters - 1

theorem scanned_le (ext : ZExtent) (tail : Option Nat) : scanned ext tail ≤ ext.lclusters := by
  rw [scanned]
  split <;> omega

def scanAt (h : Nat) (ext : ZExtent) (j : Nat) : ExtentScan :=
  { i := (h + j : Nat), blocks := (if 2 ≤ j then ext.blocks else 1 : Nat), lclusters := j
    decompressed := 0 }

theorem scanAt_i (h : Nat) (ext : ZExtent) (j : Nat) : (scanAt h ext j).i = ((h + j : Nat) : Int) :=
  rfl

theorem scanStep_nonhead (hview : IndexView index compBase exts tail)
    (hplace : Place exts k before ext i rest) (hplain : ext.plain = false)
    (hblocks : ext.blocks < 2048) (h0 : 0 < i)
    (hfront : (if rest = [] then tail else none) = none ∨ i + 1 < ext.lclusters) (blockSize : Int)
    {nIdx : Nat} (hn : k < nIdx) :
    scanStep index blockSize nIdx (clusters before : Nat) (scanAt (clusters before) ext i) =
      .ok (.next (scanAt (clusters before) ext (i + 1))) := by
  have hk := hplace.k_eq
  obtain ⟨e, he, hc⟩ := hview _ _ _ _ _ hplace
  obtain ⟨htyp, -, -, hcnt⟩ := hc.nonhead hplain h0 hfront
  rw [scanStep, scanAt_i, ← hk, if_pos (by omega), he]
  show (if e.typ = zLclusterNonhead then _ else _) = _
  rw [if_pos htyp]
  have hnext : (k : Int) + 1 = ((clusters before + (i + 1) : Nat) : Int) := by omega
  have hcount : (if 2 ≤ i + 1 then ext.blocks else 1 : Nat) = ext.blocks := if_pos (by omega)
  rw [hnext, scanAt, scanAt, hcount]
  by_cases h1 : i = 1
  · have hbit : (2048 + ext.blocks) &&& zCblkcntBit = 2048 := and_blkcnt_add hblocks
    have hval : 2048 + ext.blocks - 2048 = ext.blocks := by omega
    rw [hcnt h1, hbit, if_pos ⟨by omega, by decide⟩, hval]
    rfl
  · have hpos : (k : Int) ≠ (clusters before : Nat) + 1 := by omega
    have hseen : (if 2 ≤ i then ext.blocks else 1 : Nat) = ext.blocks := if_pos (by omega)
    rw [if_neg (fun hc => hpos hc.1), hseen]
    rfl

/-- The scan at its end: at a boundary marker, or behind the extent. -/
def scanEnd (h : Nat) (ext : ZExtent) (stop : Option Nat) (blockSize : Int) : ExtentScan :=
  { scanAt h ext (scanned ext stop) with
    decompressed := match stop with
      | none => 0
      | some t => scanned ext stop * blockSize + t }

/-- What the scan meets behind the clusters it counts. -/
theorem scanStep_end (hview : IndexView index compBase exts tail) (htail : ∀ t, tail = some t → t ≠ 0)
    (hpos : ∀ x ∈ exts, 0 < x.lclusters) (hplace : Place exts k before ext 0 rest)
    (hplain : ext.plain = false) (htwo : 2 ≤ ext.lclusters) (blockSize : Int)
    (hstop : stop = if rest = [] then tail else none) :
    scanStep index blockSize (clusters exts : Nat) (clusters before : Nat)
        (scanAt (clusters before) ext (scanned ext stop)) =
      .ok (.done (scanEnd (clusters before) ext stop blockSize)) := by
  cases stop with
  | some t =>
    -- the boundary marker
    have hm : scanned ext (some t) = ext.lclusters - 1 := if_neg (by simp)
    have hlast := hplace.within (show ext.lclusters - 1 < ext.lclusters by omega)
    obtain ⟨e, he, hc⟩ := hview _ _ _ _ _ hlast
    obtain ⟨htyp, hu, hofs⟩ := hc.marker t hplain (by omega) hstop.symm (by omega)
    have ht0 : t ≠ 0 := by
      split at hstop
      · exact htail t hstop.symm
      · cases hstop
    have hmark : e.isMarker = true := by
      simp [LIndex.isMarker, htyp, hu, hofs, ht0]
    have hlt := hlast.lt_clusters
    rw [hm, scanStep, scanAt_i, if_pos (by omega), he]
    show (if e.typ = zLclusterNonhead then _ else _) = _
    rw [if_neg (by rw [htyp]; decide), hmark, if_pos rfl, hofs, scanEnd, hm]
    rfl
  | none =>
    have hm : scanned ext none = ext.lclusters := if_pos rfl
    rw [hm, scanStep, scanAt_i]
    cases rest with
    | nil =>
      -- the end of the index
      have hall : clusters exts = clusters before + ext.lclusters := by
        rw [hplace.exts_eq, clusters_append, clusters_cons, clusters_nil]
        omega
      rw [if_neg (by omega), scanEnd, hm]
      rfl
    | cons next more =>
      -- the next extent
      have hnext : Place exts (clusters before + ext.lclusters) (before ++ [ext]) next 0 more := by
        refine ⟨by rw [hplace.exts_eq]; simp, ?_, ?_⟩
        · exact hpos next (by rw [hplace.exts_eq]; simp)
        · rw [clusters_append, clusters_cons, clusters_nil]
          omega
      have hlt := hnext.lt_clusters
      obtain ⟨e, he, hc⟩ := hview _ _ _ _ _ hnext
      have hfree : e.typ ≠ zLclusterNonhead ∧ e.isMarker = false := by
        cases hp : next.plain with
        | true =>
          obtain ⟨htyp, -, hofs⟩ := hc.plain hp
          exact ⟨by rw [htyp]; decide, LIndex.isMarker_of_clusterofs hofs⟩
        | false =>
          obtain ⟨htyp, -⟩ := hc.head hp rfl
          exact ⟨by rw [htyp]; decide, LIndex.isMarker_of_typ (by rw [htyp]; decide)⟩
      rw [if_pos (by omega), he]
      show (if e.typ = zLclusterNonhead then _ else _) = _
      rw [if_neg hfree.1, hfree.2, if_neg (by simp), scanEnd, hm]
      rfl

/-- **The forward scan of a compressed extent** counts its clusters up to the boundary
    marker, and takes the decompressed size from that. -/
theorem scan_extent (hview : IndexView index compBase exts tail) (htail : ∀ t, tail = some t → t ≠ 0)
    (hpos : ∀ x ∈ exts, 0 < x.lclusters) (hplace : Place exts k before ext 0 rest)
    (hplain : ext.plain = false) (hblocks : ext.blocks < 2048) (htwo : 2 ≤ ext.lclusters)
    (blockSize : Int) (hstop : stop = if rest = [] then tail else none) :
    loop (scanStep index blockSize (clusters exts : Nat) (clusters before : Nat))
        (((clusters exts : Int) - (clusters before : Nat)).toNat + 1)
        ⟨(clusters before : Nat) + 1, 1, 1, 0⟩ =
      .ok (scanEnd (clusters before) ext stop blockSize) := by
  have hle := hplace.next_le
  have hend := scanStep_end hview htail hpos hplace hplain htwo blockSize hstop
  generalize hm : scanned ext stop = m at hend
  have hval : m = if stop = none then ext.lclusters else ext.lclusters - 1 := hm.symm
  have hscan : ∀ d j fuel, 1 ≤ j → j + d = m → d < fuel →
      loop (scanStep index blockSize (clusters exts : Nat) (clusters before : Nat)) fuel
        (scanAt (clusters before) ext j) = .ok (scanEnd (clusters before) ext stop blockSize) := by
    intro d
    -- on the clusters that are still to be counted
    induction d with
    | zero =>
      intro j fuel hj hjm hfuel
      obtain ⟨f, rfl⟩ : ∃ f, fuel = f + 1 := ⟨fuel - 1, by omega⟩
      have hjm' : j = m := by omega
      rw [loop, hjm', hend]
      rfl
    | succ d ih =>
      intro j fuel hj hjm hfuel
      obtain ⟨f, rfl⟩ : ∃ f, fuel = f + 1 := ⟨fuel - 1, by omega⟩
      have hfront : stop = none ∨ j + 1 < ext.lclusters := by
        by_cases hs : stop = none
        · exact .inl hs
        · rw [if_neg hs] at hval
          exact .inr (by omega)
      have hj' : j < ext.lclusters := by
        split at hval <;> omega
      rw [hstop] at hfront
      have hstep := scanStep_nonhead hview (hplace.within hj') hplain
        hblocks (by omega) hfront blockSize (show clusters before + j < clusters exts by omega)
      rw [loop, hstep]
      exact ih (j + 1) f (by omega) (by omega) (by omega)
  have hm1 : 1 ≤ m ∧ m ≤ ext.lclusters := by
    split at hval <;> omega
  have hstart : (⟨(clusters before : Nat) + 1, 1, 1, 0⟩ : ExtentScan) = scanAt (clusters before) ext 1 :=
    rfl
  rw [hstart]
  exact hscan (m - 1) 1 _ (Nat.le_refl 1) (by omega) (by omega)

end

/-! ## Extents and the cache -/

/-- The decoder library decodes a block into a buffer of exactly its size. -/
def Uncompresses (uncompressBlock : List UInt8 → Nat → Option (List UInt8)) : Prop :=
  ∀ src out, Lz4.decodeBlock src = some out → uncompressBlock src out.length = some out

/-- The cache is empty, or has a compressed extent of the file. -/
def CacheOK (blockSize : Nat) (exts : List ZExtent) (content : List UInt8) (z : ZRead) : Prop :=
  (z.extStartLcn = -1 ∧ z.extEndLcn = 0) ∨
    ∃ before ext rest, Place exts (clusters before) before ext 0 rest ∧
      z.extStartLcn = (clusters before : Nat) ∧
      z.extEndLcn ≤ (clusters before + ext.lclusters : Nat) ∧
      z.extData = rawAt blockSize content (clusters before) ext.lclusters

structure Reader (img : Image) (compBase : Nat) (exts : List ZExtent) (content : List UInt8)
    (tail : Option Nat) (z : ZRead) : Prop where
  view : IndexView (img.zIndex z) compBase exts tail
  nIdx_eq : z.nIdx = (clusters exts : Nat)
  tail_eq : ∀ t, tail = some t → t = content.length % img.blockSize ∧ t ≠ 0
  file : FileOnDisk img compBase exts content
  cache : CacheOK img.blockSize exts content z

/-- Padding in front of an encoding is stripped, and no more. -/
theorem dropWhile_padding {comp : List UInt8} (hhead : comp.head? ≠ some 0) (n : Nat) :
    (replicate n 0 ++ comp).dropWhile (· = 0) = comp := by
  induction n with
  | zero =>
    cases comp with
    | nil => rfl
    | cons b rest =>
      have hb : b ≠ 0 := by simpa using hhead
      simp [hb]
  | succ n ih =>
    rw [replicate_succ, cons_append, dropWhile_cons_of_pos (by simp)]
    exact ih

section

variable {uncompressBlock : List UInt8 → Nat → Option (List UInt8)}
variable {img : Image} {compBase : Nat} {exts before rest : List ZExtent} {ext : ZExtent}
variable {content : List UInt8} {tail : Option Nat} {z : ZRead} {k i : Nat}

section

variable (h : Reader img compBase exts content tail z)
include h

theorem Reader.pos :
    ∀ x ∈ exts, 0 < x.lclusters := by
  intro x hx
  obtain ⟨before, rest, hsplit⟩ := append_of_mem hx
  exact (h.file.extent before x rest hsplit).addressable.packable.lclusters_pos

/-- The scan sizes the extent: a file that ends inside a cluster ends at its marker, or
    at its size when there is none. -/
theorem Reader.decompressed_eq (hplace : Place exts k before ext i rest) (htwo : 2 ≤ ext.lclusters)
    (hstop : stop = if rest = [] then tail else none) {s : ExtentScan}
    (hs : s = scanEnd (clusters before) ext stop img.blockSize) :
    (if s.decompressed = 0 then
        if (content.length : Int) < (clusters before : Nat) * (img.blockSize : Int) +
            s.lclusters * img.blockSize
        then (content.length : Int) - (clusters before : Nat) * (img.blockSize : Int)
        else s.lclusters * img.blockSize
      else s.decompressed) =
      ((rawAt img.blockSize content (clusters before) ext.lclusters).length : Int) := by
  have hbs := img.blockSize_pos
  have hstart : clusters before * img.blockSize < content.length := by
    apply (indexCount_spec hbs _).mp
    rw [h.file.count]
    have hle := hplace.next_le
    omega
  rw [length_rawAt]
  cases stop with
  | none =>
    have hl : s.lclusters = (ext.lclusters : Int) := by
      rw [hs]
      rfl
    have hd : s.decompressed = 0 := by
      rw [hs]
      rfl
    rw [hd, if_pos rfl, hl, ← Int.natCast_mul, ← Int.natCast_mul]
    split <;> omega
  | some t =>
    have hlast : rest = [] ∧ tail = some t := by
      split at hstop
      · exact ⟨‹_›, hstop.symm⟩
      · cases hstop
    obtain ⟨ht, ht0⟩ := h.tail_eq t hlast.2
    have hd : s.decompressed = ((ext.lclusters - 1 : Nat) : Int) * img.blockSize + t := by
      rw [hs]
      rfl
    -- the clusters of the file end with the one that `t` bytes are in
    have hcount := h.file.count
    rw [hplace.exts_eq, hlast.1, clusters_append, clusters_cons, clusters_nil, indexCount] at hcount
    have hdm := Nat.div_add_mod content.length img.blockSize
    have hq : content.length / img.blockSize = clusters before + (ext.lclusters - 1) := by
      have hup : (content.length + img.blockSize - 1) / img.blockSize =
          content.length / img.blockSize + 1 := by
        have hsplit : content.length + img.blockSize - 1 =
            (content.length % img.blockSize - 1) + img.blockSize * (content.length / img.blockSize + 1) := by
          rw [Nat.mul_add]
          omega
        have hlt := Nat.mod_lt content.length hbs
        rw [hsplit, Nat.add_mul_div_left _ _ hbs, Nat.div_eq_of_lt (by omega)]
        omega
      omega
    rw [hq, Nat.mul_comm, Nat.add_mul, ← ht] at hdm
    have hone : ext.lclusters * img.blockSize = (ext.lclusters - 1) * img.blockSize + img.blockSize := by
      rw [← Nat.succ_mul]
      congr 1
      omega
    have hlt := Nat.mod_lt content.length hbs
    rw [← ht] at hlt
    have hval : min (ext.lclusters * img.blockSize)
        (content.length - clusters before * img.blockSize) =
        (ext.lclusters - 1) * img.blockSize + t := by
      omega
    rw [hval, hd, ← Int.natCast_mul, if_neg (by omega)]
    omega

/-- The block count: the one the first NONHEAD carries, or, when the boundary marker took
    its place, the single block that the encoding of such an extent fits in. -/
theorem Reader.blocks_eq (hplace : Place exts k before ext i rest) (hplain : ext.plain = false)
    (hstop : stop = if rest = [] then tail else none) :
    (scanEnd (clusters before) ext stop img.blockSize).blocks = (ext.blocks : Int) := by
  have hdisk := h.file.extent before ext rest hplace.exts_eq
  have htwo := hdisk.addressable.packable.nonhead hplain
  by_cases hm : 2 ≤ scanned ext stop
  · show ((if 2 ≤ scanned ext stop then ext.blocks else 1 : Nat) : Int) = _
    rw [if_pos hm]
  -- two clusters, and the second one is the marker
  obtain ⟨t, rfl⟩ : ∃ t, stop = some t := by
    cases stop with
    | none => exact absurd htwo hm
    | some t => exact ⟨t, rfl⟩
  have hsize := h.decompressed_eq hplace htwo hstop rfl
  have hval : scanned ext (some t) = 1 := by
    have hsub : scanned ext (some t) = ext.lclusters - 1 := if_neg (by simp)
    omega
  have ht : t < img.blockSize := by
    have htail : tail = some t := by
      split at hstop
      · exact hstop.symm
      · cases hstop
    rw [(h.tail_eq t htail).1]
    exact Nat.mod_lt _ img.blockSize_pos
  have hd : (scanEnd (clusters before) ext (some t) img.blockSize).decompressed =
      ((img.blockSize + t : Nat) : Int) := by
    show ((scanned ext (some t) : Nat) : Int) * (img.blockSize : Int) + t = _
    rw [hval]
    omega
  have hbs := img.blockSize_pos
  rw [hd, if_neg (by omega)] at hsize
  obtain ⟨comp, hne, -, hsave, hblocks, -⟩ := hdisk.comp hplain
  have hpos := length_pos_of_ne_nil hne
  have hone : ext.blocks = 1 := by
    rw [hblocks]
    apply (Nat.div_eq_iff hbs).mpr
    omega
  show ((if 2 ≤ scanned ext (some t) then ext.blocks else 1 : Nat) : Int) = _
  rw [if_neg hm, hone]

/-- **Decompressing an extent** gives its part of the content, from the cache or from the
    image, and leaves a cache that is good for the next read. -/
theorem Reader.zExtentData (hlz4 : Uncompresses uncompressBlock) {fi : Inode}
    (hfi : fi.size = content.length) (hplace : Place exts (clusters before) before ext 0 rest)
    (hplain : ext.plain = false) :
    ∃ z', img.zExtentData uncompressBlock fi z (clusters before : Nat) (compBase + ext.blkOff) =
        .ok (rawAt img.blockSize content (clusters before) ext.lclusters, z') ∧
      Reader img compBase exts content tail z' := by
  rw [Image.zExtentData]
  by_cases hhit : z.extStartLcn = (clusters before : Nat)
  · refine ⟨z, ?_, h⟩
    rw [if_pos hhit]
    -- the cached extent starts at the same cluster, so it is the same
    rcases h.cache with ⟨hstart, -⟩ | ⟨before', ext', rest', hplace', hstart, -, hdata⟩
    · omega
    · have heq : clusters before' = clusters before := by omega
      rw [heq] at hplace' hdata
      rw [hdata, hplace'.ext_unique hplace]
  · have hdisk := h.file.extent before ext rest hplace.exts_eq
    have htwo := hdisk.addressable.packable.nonhead hplain
    have hblk := hdisk.addressable.blocks_lt hplain
    have htail : ∀ t, tail = some t → t ≠ 0 := fun t ht => (h.tail_eq t ht).2
    have hscan := scan_extent h.view htail h.pos hplace hplain hblk htwo img.blockSize rfl
    have hblocks := h.blocks_eq hplace hplain rfl
    have hsize := h.decompressed_eq hplace htwo rfl rfl
    obtain ⟨comp, hne, hdec, hsave, hceil, hmax, hread⟩ := hdisk.comp hplain
    have hle := hdisk.raw_le
    generalize hs : scanEnd _ ext _ (img.blockSize : Int) = s at hscan hblocks hsize
    generalize hraw : rawAt _ _ _ _ = raw at hsize hdec hsave hle ⊢
    have hpos := length_pos_of_ne_nil hne
    have hstrip := dropWhile_padding (Lz4.head_ne_zero_of_decodeBlock hdec
      (ne_nil_of_length_pos (by omega))) (ext.blocks * img.blockSize - comp.length)
    have hmaxSize : zMaxPClusterSize = ((1 <<< 20 : Nat) : Int) := rfl
    have hmaxDSize : zMaxPClusterDSize = (zFormatMaxExtentSize : Int) := rfl
    have hlclusters : s.lclusters ≤ ext.lclusters := by
      rw [← hs]
      show ((scanned ext _ : Nat) : Int) ≤ _
      exact_mod_cast scanned_le ext _
    refine ⟨{ z with
      extStartLcn := (clusters before : Nat), extEndLcn := (clusters before : Nat) + s.lclusters
      extData := raw }, ?_, ?_⟩
    · rw [if_neg hhit, h.nIdx_eq]
      simp only [hscan, bind, Except.bind, hfi, hsize, hblocks]
      rw [← Int.natCast_mul, ← Int.natCast_mul, if_neg (by omega), if_neg (by omega),
        Int.toNat_natCast, Int.toNat_natCast, hread]
      simp only [hstrip]
      rw [if_neg hne, hlz4 _ _ hdec]
      exact if_neg (by simp)
    · refine ⟨h.view, h.nIdx_eq, h.tail_eq, h.file, .inr ⟨before, ext, rest, hplace, rfl, ?_, hraw.symm⟩⟩
      show ((clusters before : Nat) : Int) + s.lclusters ≤ _
      omega

/-! ## Reading blocks -/

theorem Reader.cached_block (hk : k * img.blockSize < content.length) {bytes : List UInt8}
    (hhit : z.copyCachedBlock k img.blockSize (blockEnd img.blockSize content.length k) =
      some bytes) : bytes = blockOf img.blockSize content k := by
  rw [ZRead.copyCachedBlock] at hhit
  split at hhit
  · cases hhit
  rename_i hrange
  rcases h.cache with ⟨hstart, hend⟩ | ⟨before, ext, rest, hplace, hstart, hend, hdata⟩
  · omega
  have hin : Place exts k before ext (k - clusters before) rest :=
    ⟨hplace.exts_eq, by omega, by omega⟩
  have hoff : ((k : Int) - z.extStartLcn) * img.blockSize =
      (((k - clusters before) * img.blockSize : Nat) : Int) := by
    rw [hstart, Int.natCast_mul]
    congr 1
    omega
  simp only [hoff, hdata, Int.toNat_natCast] at hhit
  split at hhit
  · cases hhit
  · cases hhit
    exact (rawAt_block hin img.blockSize_pos hk).2.2

/-- **Any block of the file reads back**, whatever was read before it. -/
theorem Reader.zReadIndexed (hlz4 : Uncompresses uncompressBlock) {fi : Inode}
    (hfi : fi.size = content.length) (hk : k < clusters exts) :
    ∃ z', img.zReadIndexed uncompressBlock fi z k (blockEnd img.blockSize content.length k) =
        .ok (blockOf img.blockSize content k, z') ∧
      Reader img compBase exts content tail z' := by
  have hin : k * img.blockSize < content.length := by
    apply (indexCount_spec img.blockSize_pos _).mp
    rw [h.file.count]
    exact hk
  rw [Image.zReadIndexed]
  cases hhit : z.copyCachedBlock k img.blockSize (blockEnd img.blockSize content.length k) with
  | some bytes =>
    refine ⟨z, ?_, h⟩
    rw [h.cached_block hin hhit]
  | none =>
    obtain ⟨before, ext, i, rest, hplace⟩ := exists_place hk
    have hdisk := h.file.extent before ext rest hplace.exts_eq
    obtain ⟨hpos, hle, hblock⟩ := rawAt_block hplace img.blockSize_pos hin
    have hkeq := hplace.k_eq
    -- a PLAIN cluster is read in place; a compressed extent as a whole, from its HEAD
    cases hplain : ext.plain with
    | true =>
      obtain ⟨e, hhead, htyp, hu⟩ := findHead_plain h.view hplace hplain
      have haddr : (e.u : Int) * img.blockSize + ((k : Int) - k) * img.blockSize =
          (((compBase + ext.blkOff) * img.blockSize + i * img.blockSize : Nat) : Int) := by
        rw [hu, ← Nat.add_mul, Int.sub_self, Int.zero_mul, Int.add_zero, Int.natCast_mul]
      refine ⟨z, ?_, h⟩
      simp only [hhead, bind, Except.bind, htyp, if_true, haddr]
      rw [hdisk.plain hplain _ _ hle, hblock]
      rfl
    | false =>
      have htwo := hdisk.addressable.packable.nonhead hplain
      have htail : ∀ t, tail = some t → t ≠ 0 := fun t ht => (h.tail_eq t ht).2
      obtain ⟨e, hhead, htyp, hu⟩ := findHead_compressed h.view htail hplace hplain htwo
      have hstart : Place exts (clusters before) before ext 0 rest :=
        ⟨hplace.exts_eq, by omega, rfl⟩
      obtain ⟨z', hdata, hz'⟩ := h.zExtentData hlz4 hfi hstart hplain
      have hoff : ((k : Int) - (clusters before : Nat)) * img.blockSize =
          ((i * img.blockSize : Nat) : Int) := by
        rw [Int.natCast_mul]
        congr 1
        omega
      refine ⟨z', ?_, hz'⟩
      have hne : zLclusterHead1 ≠ zLclusterPlain := by decide
      simp only [hhead, bind, Except.bind, htyp, hu, if_neg hne, if_true, hdata, hoff,
        Int.toNat_natCast]
      rw [if_neg (by omega), hblock]
      rfl

/-- Read the blocks `bns` one after another, each with a buffer of the block's size. -/
def Image.readBlocks (uncompressBlock : List UInt8 → Nat → Option (List UInt8)) (img : Image)
    (fi : Inode) (size : Nat) (z : ZRead) : List Nat → Except ZError (List (List UInt8))
  | [] => .ok []
  | bn :: bns => do
    let (bytes, z) ← img.zReadIndexed uncompressBlock fi z bn (blockEnd img.blockSize size bn)
    let rest ← img.readBlocks uncompressBlock fi size z bns
    return bytes :: rest

/-- **Any sequence of reads** returns the blocks of the content. -/
theorem Reader.readBlocks (hlz4 : Uncompresses uncompressBlock) {fi : Inode}
    (hfi : fi.size = content.length) (bns : List Nat) (hbns : ∀ bn ∈ bns, bn < clusters exts) :
    img.readBlocks uncompressBlock fi content.length z bns =
      .ok (bns.map (blockOf img.blockSize content)) := by
  induction bns generalizing z with
  | nil => rfl
  | cons bn bns ih =>
    obtain ⟨z', hread, hz'⟩ := h.zReadIndexed hlz4 hfi (hbns bn mem_cons_self)
    have hrest := ih hz' (fun b hb => hbns b (mem_cons_of_mem _ hb))
    simp only [Image.readBlocks, hread, hrest, bind, Except.bind]
    rfl

end

end

end Orchestrator.Erofs

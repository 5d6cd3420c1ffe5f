/-
  Orchestrator.Erofs.ZTrees

  Which trees read back.

  Every file does as long as the addresses of its own blocks have 32 bits and the number of
  blocks in the region does not wrap around below them; nothing in the writer checks either.
  For each there is a tree that loses a file, stored with the encoder for `lz4hc`.
-/

import Orchestrator.Erofs.Lz4Pack
import Orchestrator.Erofs.ZRoundTrip

namespace Orchestrator.Erofs

open Lib Lib.Exec List Lz4Enc

/-- The reference decoder, with a buffer of the size asked for. -/
def uncompressExactly (src : List UInt8) (n : Nat) : Option (List UInt8) :=
  (Lz4.decodeBlock src).filter fun out => out.length = n

theorem uncompressExactly_uncompresses : Uncompresses uncompressExactly := by
  intro src out h
  rw [uncompressExactly, h]
  simp

/-- Every file of every tree reads back block by block, in any order, if its own blocks are
    misplaced only as `A` admits. -/
def ReadsBack (A : Misplaced → Prop) : Prop :=
  ∀ (σ κ : Type) [DecidableEq κ] (Z : ZConfig σ κ)
    (uncompressBlock : List UInt8 → Nat → Option (List UInt8)) (dedupe : Bool) (pclusterSize : Nat)
    (packed : Option (FileJob σ)) (remaining : List (FileJob σ)) (store : Store κ)
    (infos : List ZInfo) (job : FileJob σ) (img : Image) (compBase : Nat) (e : ZEntry),
    Z.packers.Sound → Z.blockSize = 4096 → Uncompresses uncompressBlock →
    (∀ j ∈ packed.toList ++ remaining, j.profile.accepted 4096 = true) →
    compressAll Z dedupe pclusterSize packed remaining = .ok (store, infos) →
    NoCollision Z store.given →
    NoCollision Z ((packed.toList ++ remaining).map FileJob.content) →
    (job, e.z) ∈ (packed.toList ++ remaining).zip infos →
    HoldsFile img compBase store e → e.size = job.content.length →
    (e.compactLayout = true → zCanCompact 4096 e.z = true) →
    Placed A compBase store e.z.extents job.content →
    ∃ z, img.zInit e.inode = .ok z ∧
      ∀ bns : List Nat, (∀ bn ∈ bns, bn < indexCount job.content.length 4096) →
        img.readBlocks uncompressBlock e.inode job.content.length z bns =
          .ok (bns.map (blockOf 4096 job.content))

/-! ## Images of one file -/

/-- A file of one raw block, at nid 0 and with a full index. -/
def blockEntry (blkOff : Nat) : ZEntry :=
  { nid := 0, coreSize := 32, xattrSize := 0, size := 4096, compactLayout := false
    z := { extents := [⟨1, 1, blkOff, true⟩], totalBlocks := 1 } }

/-- An image with metadata from block 1, and the compressed region at block `compBase`. -/
def fileImage (compBase : Nat) (e : ZEntry) (region : List UInt8) : Image :=
  let trailing := writeZTrailing 4096 compBase e
  { data := replicate 4128 0 ++ trailing ++
      (replicate (compBase * 4096 - (4128 + trailing.length)) 0 ++ region)
    metaBlkAddr := 1
    blkSizeBits := 12 }

variable {img : Image} {compBase n : Nat}

theorem fileImage_holds {κ : Type} (hbase : 0 < compBase)
    (hroom : 4128 + (writeZTrailing 4096 compBase (blockEntry n)).length ≤ compBase * 4096)
    (store : Store κ) :
    HoldsFile (fileImage compBase (blockEntry n) (store.compressedData 4096)) compBase store
      (blockEntry n) := by
  refine ⟨rfl, hbase, ⟨show 9 ≤ 12 by decide, replicate 4128 0, _, rfl, ?_⟩, ?_⟩
  · rw [length_replicate]
    rfl
  · refine ⟨replicate 4128 0 ++ writeZTrailing 4096 compBase (blockEntry n) ++
      replicate (compBase * 4096 -
        (4128 + (writeZTrailing 4096 compBase (blockEntry n)).length)) 0, [], ?_, ?_⟩
    · rw [append_nil]
      exact (append_assoc _ _ _).symm
    · simp only [length_append, length_replicate]
      omega

theorem fileImage_block_zero (compBase : Nat) (e : ZEntry) (region : List UInt8) :
    (fileImage compBase e region).readAt 4096 0 = .ok (replicate 4096 0) := by
  have hin : 0 + 4096 ≤ (replicate 4128 (0 : UInt8)).length := by
    rw [length_replicate]
    decide
  have hmin : min 4096 4128 = 4096 := by decide
  obtain ⟨after, hdata⟩ : ∃ after, (fileImage compBase e region).data =
      [] ++ replicate 4128 0 ++ after := by
    refine ⟨writeZTrailing 4096 compBase e ++ (replicate (compBase * 4096 -
      (4128 + (writeZTrailing 4096 compBase e).length)) 0 ++ region), ?_⟩
    rw [nil_append, ← append_assoc]
    rfl
  rw [Image.readAt_slice hdata 0 hin (show (0 : Int) = ([] : List UInt8).length + (0 : Nat) from rfl),
    drop_zero, take_replicate, hmin]

/-! ## Files of one block -/

/-- Blocks of 4096 bytes, a hash that tells all spans apart, and a spool that takes every
    write. -/
def treeConfig : ZConfig LZ4HCEncoder (List UInt8) :=
  { blockSize := 4096, packers := lz4hcPackers, workers := 1, sum256 := id
    writeFails := fun _ => false }

def treeProfile : ZProfile := ⟨8192, 65536⟩

def treeWorkers : Nat → PackWorker LZ4HCEncoder := fun _ =>
  ⟨⟨fun _ => 0, ⟨fun _ => 0, 16384, 16384, Nat.le_refl _⟩, none, []⟩, replicate 8192 0,
    replicate 8192 0⟩

def blockJob (b : UInt8) : FileJob LZ4HCEncoder := ⟨treeProfile, replicate 4096 b, treeWorkers⟩

theorem treeProfile_accepted : treeProfile.accepted 4096 = true := by decide

structure Blocks (c : Nat) (store : Store (List UInt8)) : Prop where
  dedupe_eq : store.dedupe = none
  compBlocks_eq : store.compBlocks = u32 c
  length_spool : store.compSpool.length = c * 4096

variable {store : Store (List UInt8)} {c n : Nat}

/-- A file of one block is stored raw: no encoding of it saves a block. -/
theorem compressFile_block (b : UInt8) (h : Blocks c store) :
    ∃ store', compressFile treeConfig treeProfile (replicate 4096 b) treeWorkers store =
        .ok (store', { extents := [⟨1, 1, u32 c, true⟩], totalBlocks := 1 }) ∧
      Blocks (c + 1) store' := by
  have hlen : (replicate 4096 b).length = 4096 := length_replicate
  obtain ⟨enc, probe, n, hcomp⟩ :=
    lz4hcPackers_answers (treeWorkers 0).enc (replicate 4096 b) (treeWorkers 0).probe
  have hpack : packBuffer lz4hcPackers 4096 treeProfile (replicate 4096 b) (treeWorkers 0) =
      .ok [⟨replicate 4096 b, []⟩] :=
    packBuffer_raw (ne_nil_of_length_pos (by omega)) (by rw [hlen]; decide) (by rw [hlen]; decide)
      hcomp (by rintro ⟨hpos, -, hsave⟩; omega)
  have hnew : newExtent 4096 store.compBlocks (replicate 4096 b) [] = ⟨1, 1, u32 c, true⟩ := by
    rw [newExtent, hlen, h.compBlocks_eq]
    rfl
  have hbytes : (extentBytes 4096 ⟨1, 1, u32 c, true⟩ (replicate 4096 b) []).length = 4096 := by
    rw [extentBytes, if_neg (by simp), length_append, length_replicate, length_replicate]
    simp only
  have hstore := storeSpan_fresh (Z := treeConfig) (s := store) (fun _ => rfl)
    (by rw [h.dedupe_eq]; rfl) hnew
  have hfile := compressFile_buffer (Z := treeConfig) store (by rw [hlen]; decide) hpack
  rw [storeSpans, hstore] at hfile
  refine ⟨_, hfile, ?_, ?_, ?_⟩
  · show store.dedupe.map _ = none
    rw [h.dedupe_eq]
    rfl
  · show u32 (store.compBlocks + u32 1) = _
    rw [h.compBlocks_eq, u32_add_u32, u32_u32_add]
  · show (store.compSpool ++ extentBytes 4096 _ _ _).length = _
    rw [length_append, hbytes, h.length_spool, Nat.succ_mul]

theorem packFiles_cons (job : FileJob LZ4HCEncoder) (rest : List (Bool × FileJob LZ4HCEncoder))
    {store' : Store (List UInt8)} {zi : ZInfo}
    (h : compressFile treeConfig job.profile job.content job.workers store = .ok (store', zi))
    {r : Collecting (List UInt8) × List ZInfo}
    (hrest : packFiles treeConfig ⟨store', []⟩ rest = .ok r) :
    packFiles treeConfig ⟨store, []⟩ ((false, job) :: rest) = .ok (r.1, zi :: r.2) := by
  have hone : packFile treeConfig false job ⟨store, []⟩ = .ok (⟨store', []⟩, zi) := by
    simp [packFile, h, bind, Except.bind, pure, Except.pure]
  rw [packFiles, hone]
  simp only [bind, Except.bind, hrest]
  rfl

/-- Storing `n` files of one block of zeros, and then others. -/
theorem packFiles_zeros (n : Nat) (h : Blocks c store) (rest : List (Bool × FileJob LZ4HCEncoder)) :
    ∃ store', Blocks (c + n) store' ∧ ∀ r, packFiles treeConfig ⟨store', []⟩ rest = .ok r →
      ∃ infos, infos.length = n ∧
        packFiles treeConfig ⟨store, []⟩ (replicate n (false, blockJob 0) ++ rest) =
          .ok (r.1, infos ++ r.2) := by
  induction n generalizing store c with
  | zero => exact ⟨store, h, fun r hr => ⟨[], rfl, hr⟩⟩
  | succ n ih =>
    obtain ⟨next, hnext, hblocks⟩ := compressFile_block 0 h
    obtain ⟨store', hblocks', hrest⟩ := ih hblocks
    refine ⟨store', by rwa [Nat.add_assoc, Nat.add_comm 1 n] at hblocks', fun r hr => ?_⟩
    obtain ⟨infos, hlen, hall⟩ := hrest r hr
    exact ⟨_ :: infos, by rw [length_cons, hlen], packFiles_cons (blockJob 0) _ hnext hall⟩

theorem compressAll_unshared {remaining : List (FileJob LZ4HCEncoder)}
    {r : Collecting (List UInt8) × List ZInfo}
    (h : packFiles treeConfig ⟨Store.new false, []⟩ (remaining.map (false, ·)) = .ok r) :
    compressAll treeConfig false 8192 none remaining = .ok (r.1.store, r.2) := by
  have hoff : ∀ sizes size, decide (1 < fileDedupeSizes false 8192 sizes size) = false := by
    intro sizes size
    rw [fileDedupeSizes, if_neg (by simp)]
    rfl
  rw [compressAll]
  simp only [Option.toList_none, map_nil, nil_append, hoff, h]
  rfl

theorem blockEntry_lclusters : ∀ x ∈ (blockEntry n).z.extents, 0 < x.lclusters := by
  intro x hx
  cases mem_singleton.mp hx
  exact Nat.one_pos

/-- The index of such a file has the low 32 bits of the address. -/
theorem blockEntry_index (hbs : img.blockSize = 4096)
    (himg : HoldsTrailing img compBase (blockEntry n)) :
    findHead (img.zIndex (zReadOf img (blockEntry n))) (0 : Nat) =
      .ok (((0 : Nat) : Int), ⟨zLclusterPlain, 0, u32 (compBase + n)⟩) := by
  have hget : (zIndexEntries compBase (tailOfs (blockEntry n).size img.blockSize) true
      (blockEntry n).z.extents)[0]? =
      some { typ := zLclusterPlain, clusterofs := 0, u := u32 (compBase + n) } := by
    show some (entryOf compBase _ _ ⟨1, 1, n, true⟩ 0) = _
    rw [entryOf_plain rfl, u32_u32_add]
    rfl
  have hcount : indexCount (blockEntry n).size img.blockSize =
      clusters (blockEntry n).z.extents := by
    rw [hbs]
    show indexCount 4096 4096 = 1
    decide
  have hplain : zLclusterPlain ≠ zLclusterNonhead := by decide
  have hindex := himg.fullEntry rfl hcount rfl blockEntry_lclusters (show 0 < 1 by decide)
    hget ⟨show zLclusterPlain < 2 ^ 16 by decide, show 0 < 2 ^ 16 by decide,
      Nat.mod_lt _ (by omega)⟩
  have hwalk := walkBack_reaches true (Nat.le_refl 0) hindex
    (by rw [LIndex.typ_mk (show zLclusterPlain ≤ 2 by decide)]; exact hplain)
    (by intro j h1 h2; omega)
  rw [findHead_of_walk hwalk, LIndex.isMarker_of_clusterofs rfl]
  rfl

/-- Reading such a file gives what is at that address. -/
theorem blockEntry_reads (hbs : img.blockSize = 4096)
    (himg : HoldsTrailing img compBase (blockEntry n)) :
    img.readBlocks uncompressExactly (blockEntry n).inode 4096 (zReadOf img (blockEntry n)) [0] =
      (img.readAt 4096 ((u32 (compBase + n) * 4096 : Nat) : Int)).map fun block => [block] := by
  have hhead := blockEntry_index hbs himg
  have hend : blockEnd 4096 4096 0 = 4096 := by decide
  have hmiss : (zReadOf img (blockEntry n)).copyCachedBlock ((0 : Nat) : Int) 4096 4096 = none :=
    if_pos (.inr (Int.le_refl 0))
  have hblock : img.zReadIndexed uncompressExactly (blockEntry n).inode
      (zReadOf img (blockEntry n)) (0 : Nat) 4096 =
        (img.readAt 4096 ((u32 (compBase + n) * 4096 : Nat) : Int)).map fun block =>
          (block, zReadOf img (blockEntry n)) := by
    have htyp : LIndex.typ ⟨zLclusterPlain, 0, u32 (compBase + n)⟩ = zLclusterPlain :=
      LIndex.typ_mk (show zLclusterPlain ≤ 2 by decide) _ _
    have hpos : ((u32 (compBase + n) : Nat) : Int) * (4096 : Nat) +
        (((0 : Nat) : Int) - (0 : Nat)) * (4096 : Nat) =
          ((u32 (compBase + n) * 4096 : Nat) : Int) := by omega
    rw [Image.zReadIndexed, hbs, hmiss]
    simp only [hhead, bind, Except.bind, htyp, if_true]
    rw [hpos]
    cases img.readAt 4096 ((u32 (compBase + n) * 4096 : Nat) : Int) <;> rfl
  rw [Image.readBlocks, hbs, hend, hblock]
  cases img.readAt 4096 ((u32 (compBase + n) * 4096 : Nat) : Int) <;> rfl

theorem blockEntry_room (n : Nat) :
    4128 + (writeZTrailing 4096 (2 ^ 27) (blockEntry n)).length ≤ 2 ^ 27 * 4096 := by
  have hlen := length_writeZTrailing_full (show (blockEntry n).z.wholeFragment = false from rfl)
    rfl blockEntry_lclusters 4096 (2 ^ 27)
  have hpad : zTrailingPad ((blockEntry n).coreSize + (blockEntry n).xattrSize) = 0 :=
    show zTrailingPad (32 + 0) = 0 by decide
  have hone : clusters (blockEntry n).z.extents = 1 := rfl
  rw [hlen, hpad, hone]
  decide

/-- An empty region has no first block. -/
theorem fileImage_end {e : ZEntry}
    (hroom : 4128 + (writeZTrailing 4096 compBase e).length ≤ compBase * 4096)
    (hsize : compBase * 4096 < 2 ^ 63) :
    (fileImage compBase e []).readAt 4096 ((compBase * 4096 : Nat) : Int) = .error .io := by
  have hlen : (fileImage compBase e []).data.length = compBase * 4096 := by
    simp only [fileImage, length_append, length_replicate, length_nil]
    omega
  have hpos : int64 ((compBase * 4096 : Nat) : Int) = ((compBase * 4096 : Nat) : Int) := by
    apply Int.bmod_eq_of_le <;> omega
  rw [Image.readAt, hpos, hlen, if_neg (by omega), if_neg (by omega), if_neg (by omega)]

/-- A tree of files of one block, stored without dedupe, its image with the region at block
    `2 ^ 27`, and a file of ones in it whose block is misplaced. -/
structure Astray (t : Misplaced) (remaining : List (FileJob LZ4HCEncoder)) (img : Image) (e : ZEntry) :
    Prop where
  accepted : ∀ j ∈ remaining, j.profile.accepted 4096 = true
  stored : ∃ store infos, compressAll treeConfig false 8192 none remaining = .ok (store, infos) ∧
    (blockJob 1, e.z) ∈ remaining.zip infos ∧ HoldsFile img (2 ^ 27) store e ∧
      Placed (· = t) (2 ^ 27) store e.z.extents (replicate 4096 1)
  full : e.compactLayout = false
  size : e.size = 4096

theorem placed_block {remaining : List (FileJob LZ4HCEncoder)} {infos : List ZInfo}
    (hacc : ∀ j ∈ remaining, j.profile.accepted 4096 = true)
    (h : compressAll treeConfig false 8192 none remaining = .ok (store, infos))
    (hjob : (blockJob 1, (blockEntry n).z) ∈ remaining.zip infos) {A : Misplaced → Prop}
    (hA : ∀ b, n = u32 b → (b + 1) * 4096 ≤ store.compSpool.length →
      ∀ t, ZExtent.misplaced (2 ^ 27) store.compBlocks b ⟨1, 1, n, true⟩ t → A t) :
    Placed A (2 ^ 27) store (blockEntry n).z.extents (replicate 4096 1) := by
  have hheld : FileHeld treeConfig store (replicate 4096 1) (blockEntry n).z :=
    compressAll_ok (Z := treeConfig) lz4hcPackers_sound rfl hacc (fun a _ b _ h => h) h hjob
  intro before ext after hsplit
  obtain ⟨b, hat⟩ := hheld.stored rfl (fun a _ b _ h => h) hsplit
  have hext : ext = ⟨1, 1, n, true⟩ := by
    have hmem : ext ∈ (blockEntry n).z.extents := by
      rw [hsplit]
      simp
    exact mem_singleton.mp hmem
  subst hext
  exact ⟨b, hat, hA b hat.blkOff_eq hat.inside⟩

theorem blockOf_block (b : UInt8) : blockOf 4096 (blockJob b).content 0 = replicate 4096 b := by
  rw [blockOf, Nat.zero_mul, drop_zero]
  exact take_of_length_le (by rw [blockJob, length_replicate])

theorem accepted_blocks (m : Nat) :
    ∀ j ∈ replicate m (blockJob 0) ++ [blockJob 1], j.profile.accepted 4096 = true := by
  intro j hj
  rcases mem_append.mp hj with hzero | hone
  · rw [eq_of_mem_replicate hzero]
    exact treeProfile_accepted
  · rw [mem_singleton.mp hone]
    exact treeProfile_accepted

theorem new_blocks : Blocks 0 (Store.new false) := ⟨rfl, rfl, rfl⟩

/-- Behind `m` blocks of zeros that reach up to block `2 ^ 32` of the image, a block of ones has
    address 0. -/
theorem wrapped_tree {m : Nat} (hm : 2 ^ 27 + m = 2 ^ 32) :
    ∃ img e, Astray .wrapped (replicate m (blockJob 0) ++ [blockJob 1]) img e ∧
      img.zInit e.inode = .ok (zReadOf img e) ∧
        img.readBlocks uncompressExactly e.inode 4096 (zReadOf img e) [0] =
          .ok [replicate 4096 0] := by
  obtain ⟨store0, hblocks0, hall⟩ := packFiles_zeros m new_blocks [(false, blockJob 1)]
  obtain ⟨store, hlast, hblocks⟩ := compressFile_block 1 hblocks0
  rw [Nat.zero_add] at hlast hblocks
  obtain ⟨infos, hlen, hpack⟩ := hall _ (packFiles_cons (blockJob 1) [] hlast rfl)
  have hacc := accepted_blocks m
  have htree : (replicate m (blockJob 0) ++ [blockJob 1]).map (false, ·) =
      replicate m (false, blockJob 0) ++ [(false, blockJob 1)] := by
    rw [map_append, map_replicate]
    rfl
  have hcompress := compressAll_unshared (htree ▸ hpack)
  have hjob : (blockJob 1, (blockEntry (u32 m)).z) ∈
      (replicate m (blockJob 0) ++ [blockJob 1]).zip (infos ++ [(blockEntry (u32 m)).z]) := by
    rw [zip_append (by rw [length_replicate, hlen])]
    exact mem_append_right _ (mem_singleton.mpr rfl)
  have himg := fileImage_holds (by decide) (blockEntry_room (u32 m)) store
  refine ⟨_, blockEntry (u32 m), ⟨hacc, ⟨store, _, hcompress, hjob, himg, ?_⟩, rfl, rfl⟩,
    zInit_of_trailing himg.trailing rfl, ?_⟩
  · refine placed_block hacc hcompress hjob fun b _ hin t ht => ?_
    cases t with
    | wrapped => rfl
    | unwritten =>
      -- all blocks are written
      change store.compBlocks < b + 1 at ht
      rw [hblocks.length_spool] at hin
      rw [hblocks.compBlocks_eq, u32_of_lt (show m + 1 < 2 ^ 32 by omega)] at ht
      omega
  · have hzero : u32 (2 ^ 27 + u32 m) = 0 := by
      rw [u32_add_u32, hm]
      rfl
    rw [blockEntry_reads rfl himg.trailing, hzero]
    exact congrArg (Except.map _) (fileImage_block_zero _ _ _)

/-- A block of ones before `m` blocks of zeros: with `2 ^ 32` blocks in all the region counts as
    empty, and is not written. -/
theorem unwritten_tree {m : Nat} (hm : 1 + m = 2 ^ 32) :
    ∃ img e, Astray .unwritten (blockJob 1 :: replicate m (blockJob 0)) img e ∧
      img.zInit e.inode = .ok (zReadOf img e) ∧
        img.readBlocks uncompressExactly e.inode 4096 (zReadOf img e) [0] = .error .io := by
  obtain ⟨store0, hfirst, hblocks0⟩ := compressFile_block 1 new_blocks
  obtain ⟨store, hblocks, hall⟩ := packFiles_zeros m hblocks0 []
  obtain ⟨infos, hlen, hpack⟩ := hall _ rfl
  rw [append_nil, append_nil] at hpack
  have hacc : ∀ j ∈ blockJob 1 :: replicate m (blockJob 0), j.profile.accepted 4096 = true :=
    fun j hj => accepted_blocks m j (by simpa [or_comm] using hj)
  have htree : (blockJob 1 :: replicate m (blockJob 0)).map (false, ·) =
      (false, blockJob 1) :: replicate m (false, blockJob 0) := by
    rw [map_cons, map_replicate]
  have hcompress := compressAll_unshared (htree ▸ packFiles_cons (blockJob 1) _ hfirst hpack)
  have hcount : store.compBlocks = 0 := by
    rw [hblocks.compBlocks_eq, Nat.zero_add, hm]
    rfl
  have himg := fileImage_holds (by decide) (blockEntry_room 0) store
  refine ⟨_, blockEntry 0, ⟨hacc, ⟨store, _, hcompress, mem_cons_self, himg, ?_⟩, rfl, rfl⟩,
    zInit_of_trailing himg.trailing rfl, ?_⟩
  · refine placed_block hacc hcompress mem_cons_self fun b hb hin t ht => ?_
    cases t with
    | unwritten => rfl
    | wrapped =>
      -- it is block 0 of the region
      change 2 ^ 32 < 2 ^ 27 + b + 1 at ht
      rw [hblocks.length_spool, Nat.zero_add, hm] at hin
      rw [u32_of_lt (show b < 2 ^ 32 by omega)] at hb
      subst hb
      exact absurd ht (by decide)
  · have hregion : store.compressedData 4096 = [] := by
      rw [Store.compressedData, hcount, Nat.zero_mul, take_zero]
    have hend : (fileImage (2 ^ 27) (blockEntry 0) []).readAt 4096 ((2 ^ 27 * 4096 : Nat) : Int) =
        .error .io := fileImage_end (blockEntry_room 0) (by decide)
    rw [blockEntry_reads rfl himg.trailing, hregion]
    exact congrArg (Except.map _) hend

/-- **What the packer stores, the reader returns**, exactly for the files whose own blocks are not
    misplaced: whatever other files the tree has, with or without dedupe of spans and of whole
    files, for both index layouts, and in any order of reads.  Each way to misplace a block alone
    can lose a file. -/
theorem zReadIndexed_returns_content (A : Misplaced → Prop) : ReadsBack A ↔ ∀ t, ¬ A t := by
  constructor
  · intro h t hA
    obtain ⟨remaining, img, e, hastray, z, hinit, hread⟩ : ∃ remaining img e,
        Astray t remaining img e ∧ ∃ z, img.zInit e.inode = .ok z ∧
          img.readBlocks uncompressExactly e.inode 4096 z [0] ≠ .ok [replicate 4096 1] := by
      cases t with
      | wrapped =>
        obtain ⟨img, e, hastray, hinit, hread⟩ := wrapped_tree (m := 2 ^ 32 - 2 ^ 27) rfl
        refine ⟨_, img, e, hastray, _, hinit, ?_⟩
        rw [hread]
        intro heq
        have hhead := congrArg head? (head_eq_of_cons_eq (Except.ok.inj heq))
        simp at hhead
      | unwritten =>
        obtain ⟨img, e, hastray, hinit, hread⟩ := unwritten_tree (m := 2 ^ 32 - 1) rfl
        exact ⟨_, img, e, hastray, _, hinit, by rw [hread]; nofun⟩
    obtain ⟨store, infos, hcompress, hjob, himg, hplaced⟩ := hastray.stored
    have hlen : (blockJob 1).content.length = 4096 := length_replicate
    obtain ⟨z', hinit', hback⟩ := h LZ4HCEncoder (List UInt8) treeConfig uncompressExactly false 8192 none
      remaining store infos (blockJob 1) img (2 ^ 27) e lz4hcPackers_sound rfl
      uncompressExactly_uncompresses hastray.accepted hcompress (fun a _ b _ h => h)
      (fun a _ b _ h => h) hjob himg (hastray.size.trans hlen.symm)
      (fun hc => by rw [hastray.full] at hc; cases hc)
      (fun before ext after hsplit => by
        obtain ⟨b, hat, honly⟩ := hplaced before ext after hsplit
        exact ⟨b, hat, fun t' ht' => honly t' ht' ▸ hA⟩)
    cases hinit.symm.trans hinit'
    apply hread
    have hblock := hback [0] (by rw [hlen]; decide)
    rwa [hlen, map_singleton, blockOf_block] at hblock
  · intro hA σ κ _ Z uncompressBlock dedupe pclusterSize packed remaining store infos job img compBase
      e hP hbs hlz4 hacc hcompress hno hfiles hjob himg hsize hlayout hplaced
    have hheld := compressAll_ok hP hbs hacc hfiles hcompress hjob
    have hnone : Placed (fun _ => False) compBase store e.z.extents job.content := by
      intro before ext after hsplit
      obtain ⟨b, hat, honly⟩ := hplaced before ext after hsplit
      exact ⟨b, hat, fun t ht => hA t (honly t ht)⟩
    obtain ⟨_, _, _, hfile⟩ := id hheld
    exact ⟨zReadOf img e, zInit_of_trailing himg.trailing hfile.whole,
      fun bns hbns => hheld.reads hbs hlz4 hno himg hsize hlayout hnone hbns⟩

/-- **Two trees that reach past the block addresses of 32 bits.**  In the first, the block of
    ones behind the zeros is block `2 ^ 32` of the image, and reads back as block 0.  In the
    second it is the first of `2 ^ 32` blocks of the region, and cannot be read. -/
theorem region_past_32_bits_read_back :
    (∃ img e z, Astray .wrapped (replicate (2 ^ 32 - 2 ^ 27) (blockJob 0) ++ [blockJob 1]) img e ∧
      img.zInit e.inode = .ok z ∧
        img.readBlocks uncompressExactly e.inode 4096 z [0] = .ok [replicate 4096 0]) ∧
    (∃ img e z, Astray .unwritten (blockJob 1 :: replicate (2 ^ 32 - 1) (blockJob 0)) img e ∧
      img.zInit e.inode = .ok z ∧
        img.readBlocks uncompressExactly e.inode 4096 z [0] = .error .io) ∧
    blockOf 4096 (blockJob 1).content 0 = replicate 4096 1 := by
  refine ⟨?_, ?_, blockOf_block 1⟩
  · obtain ⟨img, e, hastray, hinit, hread⟩ := wrapped_tree (m := 2 ^ 32 - 2 ^ 27) rfl
    exact ⟨img, e, _, hastray, hinit, hread⟩
  · obtain ⟨img, e, hastray, hinit, hread⟩ := unwritten_tree (m := 2 ^ 32 - 1) rfl
    exact ⟨img, e, _, hastray, hinit, hread⟩

end Orchestrator.Erofs

/-
  Orchestrator.Erofs.ZCache

  The extent cache of a compressed inode: what a read returns with something in the
  cache, against what it returns on an inode that has just been opened.

  The cache is asked twice.  `copyCachedBlock` goes by the clusters that the cached extent
  was found to cover, before any index is read; `zExtentData` goes by the HEAD that the
  walk from the cluster leads to.  The two agree whatever the decoder gives exactly if the
  walk from every cluster of an extent leads to its HEAD (`Image.Straight`).

  A freshly opened inode is the one that `ZRead.forget` leaves.
-/

import Orchestrator.Erofs.ZWalk
import Orchestrator.Lib.Lz4Block

namespace Orchestrator.Erofs

open Lib Lib.Exec

/-- The size of the buffer that `zLoadBlock` has block `bn` read into. -/
def Image.blockLen (img : Image) (fi : Inode) (bn : Nat) : Nat :=
  (if fi.size < int64 ((bn + 1) * img.blockSize) then fi.size - bn * img.blockSize
    else img.blockSize).toNat

section

variable (uncompressBlock : List UInt8 → Nat → Option (List UInt8))

/-- `zReadIndexed` with the cache it leaves behind in every case.  An extent that turns out
    too short for the block has been cached by then. -/
def Image.zReadCached (img : Image) (fi : Inode) (z : ZRead) (bn : Int) (n : Nat) :
    Except ZError (List UInt8) × ZRead :=
  match z.copyCachedBlock bn img.blockSize n with
  | some bytes => (.ok bytes, z)
  | none =>
    match findHead (img.zIndex z) bn with
    | .error err => (.error err, z)
    | .ok (head, e) =>
      let off := (bn - head) * img.blockSize
      if e.typ = zLclusterPlain then (img.readAt n (e.u * img.blockSize + off), z)
      else if e.typ = zLclusterHead1 then
        match img.zExtentData uncompressBlock fi z head e.u with
        | .error err => (.error err, z)
        | .ok (data, z) =>
          if data.length ≤ off ∨ (data.length : Int) < off + n then
            (.error (.shortExtent head bn), z)
          else (.ok ((data.drop off.toNat).take n), z)
      else (.error (.lclusterType e.typ), z)

/-- Read block `bn` of a compressed inode, as `loadBlock` does: past the end of the file
    there is nothing to read. -/
def Image.zReadBlock (img : Image) (fi : Inode) (z : ZRead) (bn : Nat) :
    Except ZError (List UInt8) × ZRead :=
  if fi.size ≤ bn * img.blockSize then (.error .eof, z)
  else img.zReadCached uncompressBlock fi z bn (img.blockLen fi bn)

/-- Read blocks one after another on one inode; a read that fails does not end the
    sequence. -/
def Image.zReadBlocks (img : Image) (fi : Inode) (z : ZRead) :
    List Nat → List (Except ZError (List UInt8))
  | [] => []
  | bn :: bns =>
    let (res, z) := img.zReadBlock uncompressBlock fi z bn
    res :: img.zReadBlocks fi z bns

/-- A read of some block decompresses the extent at `head`, and leaves `kept` in the
    cache. -/
structure Image.Decodes (img : Image) (fi : Inode) (z : ZRead) (head : Int) (e : LIndex)
    (kept : ZRead) : Prop where
  reached : ∃ bn : Nat, (bn : Int) * img.blockSize < fi.size ∧
    findHead (img.zIndex z) bn = .ok (head, e)
  typ_eq : e.typ = zLclusterHead1
  decoded : img.zExtentData uncompressBlock fi z.forget head e.u = .ok (kept.extData, kept)

end

/-- A decoder that fills its buffer.  How far an extent reaches does not depend on the decoder. -/
def fill (_ : List UInt8) (n : Nat) : Option (List UInt8) := some (List.replicate n 0)

/-- From every block that is found in an extent, by the NONHEAD entries behind a HEAD that some
    read comes to, the walk over the entries leads back to that HEAD. -/
def Image.Straight (img : Image) (fi : Inode) (z : ZRead) : Prop :=
  ∀ head e kept, img.Decodes fill fi z head e kept →
    ∀ bn : Nat, (bn : Int) * img.blockSize < fi.size → head ≤ bn → (bn : Int) < kept.extEndLcn →
      ((bn : Int) - head) * img.blockSize + img.blockLen fi bn ≤ kept.extData.length →
      findHead (img.zIndex z) bn = .ok (head, e)

section

variable {uncompressBlock : List UInt8 → Nat → Option (List UInt8)}
variable {img : Image} {fi : Inode} {z z' kept : ZRead} {head : Int} {e : LIndex} {bn : Nat}

/-- The cache beside an error is the only difference to `zReadIndexed`. -/
theorem zReadIndexed_eq_zReadCached (bn : Int) (n : Nat) :
    img.zReadIndexed uncompressBlock fi z bn n =
      (img.zReadCached uncompressBlock fi z bn n).1.map
        fun bytes => (bytes, (img.zReadCached uncompressBlock fi z bn n).2) := by
  unfold Image.zReadIndexed Image.zReadCached
  cases z.copyCachedBlock bn img.blockSize n with
  | some bytes => rfl
  | none =>
    cases findHead (img.zIndex z) bn with
    | error err => rfl
    | ok found =>
      obtain ⟨head, e⟩ := found
      simp only [bind, Except.bind]
      split
      · cases img.readAt n (e.u * img.blockSize + (bn - head) * img.blockSize) <;> rfl
      split
      · cases img.zExtentData uncompressBlock fi z head e.u with
        | error err => rfl
        | ok r =>
          obtain ⟨data, z'⟩ := r
          simp only
          split <;> rfl
      · rfl

/-! ## Indexes and extents do not depend on the cache -/

theorem zIndex_forget (img : Image) (z : ZRead) : img.zIndex z.forget = img.zIndex z := rfl

theorem zIndex_eq_of_forget (h : z.forget = z'.forget) : img.zIndex z = img.zIndex z' := by
  rw [← zIndex_forget img z, h, zIndex_forget]

/-- An extent that is not the cached one is decompressed as on a fresh inode, and takes the
    place of whatever was cached. -/
theorem zExtentData_miss (hforget : z.forget = z'.forget) (hz : z.extStartLcn ≠ head)
    (hz' : z'.extStartLcn ≠ head) (blkaddr : Nat) :
    img.zExtentData uncompressBlock fi z head blkaddr =
      img.zExtentData uncompressBlock fi z' head blkaddr := by
  obtain ⟨whole, frag, start, count, comp, adv, s, t, d⟩ := z
  obtain ⟨whole', frag', start', count', comp', adv', s', t', d'⟩ := z'
  unfold ZRead.forget at hforget
  injection hforget with h1 h2 h3 h4 h5 h6
  subst h1 h2 h3 h4 h5 h6
  unfold Image.zExtentData
  rw [if_neg hz, if_neg hz']
  rfl

/-- What is decompressed is what the cache has afterwards, for the clusters scanned. -/
theorem zExtentData_kept {blkaddr : Nat} {data : List UInt8} (hz : z.extStartLcn ≠ head)
    (h : img.zExtentData uncompressBlock fi z head blkaddr = .ok (data, kept)) :
    kept.extStartLcn = head ∧ kept.extData = data ∧ kept.forget = z.forget ∧
      Nonheads (img.zIndex z) head kept.extEndLcn := by
  obtain ⟨hforget, hkept⟩ := (img.zExtentData_fine uncompressBlock fi z head blkaddr).of_eq_ok h
  obtain ⟨hstart, hdata, hnon⟩ := hkept hz
  exact ⟨hstart, hdata, hforget, hnon⟩

/-- Every decoder that fills its buffer gives an extent where one gives an extent. -/
theorem zExtentData_filled {decoder : List UInt8 → Nat → Option (List UInt8)}
    (hfills : ∀ src n, ∃ out, decoder src n = some out ∧ out.length = n) {blkaddr : Nat}
    {data : List UInt8} (hz : z.extStartLcn ≠ head)
    (h : img.zExtentData uncompressBlock fi z head blkaddr = .ok (data, kept)) :
    ∃ src out, decoder src data.length = some out ∧ out.length = data.length ∧
      img.zExtentData decoder fi z head blkaddr = .ok (out, { kept with extData := out }) := by
  unfold Image.zExtentData at h ⊢
  rw [if_neg hz] at h ⊢
  obtain ⟨s, hscan, h⟩ := bind_eq_ok h
  simp only [bind, Except.bind, hscan] at h ⊢
  generalize (if s.decompressed = 0 then _ else s.decompressed : Int) = decompressed at h ⊢
  split at h
  · cases h
  rename_i hblocks
  rw [if_neg hblocks]
  split at h
  · cases h
  rename_i hsize
  rw [if_neg hsize]
  obtain ⟨comp, hcomp, h⟩ := bind_eq_ok h
  simp only [hcomp] at h ⊢
  split at h
  · cases h
  rename_i hempty
  rw [if_neg hempty]
  split at h
  · cases h
  split at h
  · cases h
  rename_i hlen
  cases h
  obtain ⟨out, hout, houtlen⟩ := hfills (comp.dropWhile (· = 0)) decompressed.toNat
  have hdata : decompressed.toNat = data.length := by omega
  refine ⟨_, out, hdata ▸ hout, houtlen.trans hdata, ?_⟩
  simp only [hout]
  rw [if_neg (by omega)]
  rfl

/-! ## One read -/

theorem blockLen_pos (h : (bn : Int) * img.blockSize < fi.size) : 0 < img.blockLen fi bn := by
  have hbs : 0 < img.blockSize := Nat.two_pow_pos _
  unfold Image.blockLen
  split <;> omega

/-- What the cache has for a block. -/
theorem copyCachedBlock_eq_some {n : Nat} {bytes : List UInt8} :
    z.copyCachedBlock bn img.blockSize n = some bytes ↔
      (z.extStartLcn ≤ bn ∧ (bn : Int) < z.extEndLcn ∧
        ((bn : Int) - z.extStartLcn) * img.blockSize + n ≤ z.extData.length) ∧
      (z.extData.drop (((bn : Int) - z.extStartLcn) * img.blockSize).toNat).take n = bytes := by
  unfold ZRead.copyCachedBlock
  by_cases hout : (bn : Int) < z.extStartLcn ∨ z.extEndLcn ≤ bn
  · rw [if_pos hout]
    exact iff_of_false nofun fun h => by omega
  rw [if_neg hout]
  have hpos : 0 ≤ ((bn : Int) - z.extStartLcn) * img.blockSize :=
    Int.mul_nonneg (by omega) (by omega)
  dsimp only
  split
  · exact iff_of_false nofun fun h => by omega
  · rw [Option.some.injEq]
    exact (and_iff_right (by omega)).symm

theorem copyCachedBlock_forget (z : ZRead) (bn blockSize n : Nat) :
    z.forget.copyCachedBlock bn blockSize n = none := by
  have hout : (bn : Int) < z.forget.extStartLcn ∨ z.forget.extEndLcn ≤ bn :=
    .inr (Int.natCast_nonneg bn)
  unfold ZRead.copyCachedBlock
  rw [if_pos hout]

/-- The HEAD of a decompressed extent is a cluster of the file, so no fresh cache has it. -/
theorem Image.Decodes.start_ne (h : img.Decodes uncompressBlock fi z head e kept) :
    z.forget.extStartLcn ≠ head := by
  obtain ⟨bn, _, hfind⟩ := h.reached
  have hpos := Image.nonneg_of_zIndex (findHead_le hfind).2
  show (-1 : Int) ≠ head
  omega

/-- A read whose walk leads to a HEAD leaves that extent in the cache, or what was there. -/
theorem zReadBlock_of_head (hin : (bn : Int) * img.blockSize < fi.size)
    (hmiss : z.copyCachedBlock bn img.blockSize (img.blockLen fi bn) = none)
    (hfind : findHead (img.zIndex z) bn = .ok (head, e)) (htyp : e.typ = zLclusterHead1)
    {data : List UInt8}
    (hdata : img.zExtentData uncompressBlock fi z head e.u = .ok (data, kept)) :
    img.zReadBlock uncompressBlock fi z bn =
      (if data.length ≤ ((bn : Int) - head) * img.blockSize ∨
          (data.length : Int) < ((bn : Int) - head) * img.blockSize + img.blockLen fi bn then
        .error (.shortExtent head bn)
      else .ok ((data.drop (((bn : Int) - head) * img.blockSize).toNat).take (img.blockLen fi bn)),
      kept) := by
  have hne : zLclusterHead1 ≠ zLclusterPlain := by decide
  unfold Image.zReadBlock Image.zReadCached
  rw [if_neg (by omega), hmiss, hfind]
  simp only [htyp, if_neg hne, if_true, hdata]
  split <;> rfl

theorem zReadBlock_of_hit (hin : (bn : Int) * img.blockSize < fi.size) {bytes : List UInt8}
    (hhit : z.copyCachedBlock bn img.blockSize (img.blockLen fi bn) = some bytes) :
    img.zReadBlock uncompressBlock fi z bn = (.ok bytes, z) := by
  unfold Image.zReadBlock Image.zReadCached
  rw [if_neg (by omega), hhit]

/-- The cached bytes of a block are what a fresh inode reads when the walk from the block
    leads to the HEAD of the cached extent. -/
theorem Image.Decodes.read_of_head (h : img.Decodes uncompressBlock fi z head e kept)
    {bytes : List UInt8} (hin : (bn : Int) * img.blockSize < fi.size)
    (hhit : kept.copyCachedBlock bn img.blockSize (img.blockLen fi bn) = some bytes)
    (hfind : findHead (img.zIndex z) bn = .ok (head, e)) :
    (img.zReadBlock uncompressBlock fi z.forget bn).1 = .ok bytes := by
  obtain ⟨hstart, -, -, -⟩ := zExtentData_kept h.start_ne h.decoded
  have hlen := blockLen_pos hin
  obtain ⟨⟨hlo, hhi, hfits⟩, rfl⟩ := copyCachedBlock_eq_some.mp hhit
  rw [zReadBlock_of_head hin (copyCachedBlock_forget z bn _ _) hfind h.typ_eq h.decoded]
  rw [hstart] at hfits ⊢
  rw [if_neg (by omega)]

/-- A block that is answered from the cache is one of a straight index. -/
theorem Image.Straight.findHead_eq (hst : img.Straight fi z)
    (h : img.Decodes uncompressBlock fi z head e kept) {bytes : List UInt8}
    (hin : (bn : Int) * img.blockSize < fi.size)
    (hhit : kept.copyCachedBlock bn img.blockSize (img.blockLen fi bn) = some bytes) :
    findHead (img.zIndex z) bn = .ok (head, e) := by
  obtain ⟨hstart, -, -, -⟩ := zExtentData_kept h.start_ne h.decoded
  obtain ⟨⟨hlo, hhi, hfits⟩, -⟩ := copyCachedBlock_eq_some.mp hhit
  have hfills : ∀ src n, ∃ out, fill src n = some out ∧ out.length = n :=
    fun _ n => ⟨_, rfl, List.length_replicate⟩
  obtain ⟨src, out, -, hlen, hfilled⟩ := zExtentData_filled hfills h.start_ne h.decoded
  rw [hstart] at hlo hfits
  exact hst head e { kept with extData := out } ⟨h.reached, h.typ_eq, hfilled⟩ bn hin hlo hhi
    (by rw [← hlen] at hfits; exact hfits)

/-- What the cache of an inode may hold: nothing, or an extent some read decompressed. -/
def Kept (uncompressBlock : List UInt8 → Nat → Option (List UInt8)) (img : Image) (fi : Inode)
    (z z' : ZRead) : Prop :=
  z' = z.forget ∨ ∃ head e, img.Decodes uncompressBlock fi z head e z'

theorem Kept.forget_eq (h : Kept uncompressBlock img fi z z') : z'.forget = z.forget := by
  rcases h with rfl | ⟨head, e, h⟩
  · rfl
  · exact (zExtentData_kept h.start_ne h.decoded).2.2.1

/-- The extent at a HEAD is the same with anything in the cache. -/
theorem Kept.zExtentData_eq (h : Kept uncompressBlock img fi z z') {lcn : Int}
    (hfind : findHead (img.zIndex z) lcn = .ok (head, e)) :
    img.zExtentData uncompressBlock fi z' head e.u =
      img.zExtentData uncompressBlock fi z.forget head e.u := by
  rcases h with rfl | ⟨head', e', hdec⟩
  · rfl
  obtain ⟨hstart, -, hforget, -⟩ := zExtentData_kept hdec.start_ne hdec.decoded
  by_cases heq : head' = head
  · -- the same HEAD has the same index entry, and the cache its extent
    subst heq
    obtain ⟨bn', -, hfind'⟩ := hdec.reached
    obtain rfl : e' = e := Except.ok.inj ((findHead_le hfind').2.symm.trans (findHead_le hfind).2)
    rw [hdec.decoded]
    unfold Image.zExtentData
    rw [if_pos hstart]
  · have hpos := Image.nonneg_of_zIndex (findHead_le hfind).2
    apply zExtentData_miss hforget
    · rw [hstart]
      exact heq
    · show (-1 : Int) ≠ head
      omega

/-- **One read.**  With a straight index a read returns what it would return on a fresh inode,
    and keeps the cache what it may be. -/
theorem Image.Straight.zReadBlock (hst : img.Straight fi z)
    (hk : Kept uncompressBlock img fi z z') (bn : Nat) :
    (img.zReadBlock uncompressBlock fi z' bn).1 =
        (img.zReadBlock uncompressBlock fi z.forget bn).1 ∧
      Kept uncompressBlock img fi z (img.zReadBlock uncompressBlock fi z' bn).2 := by
  by_cases hin : (bn : Int) * img.blockSize < fi.size
  swap
  · simp only [Image.zReadBlock, if_pos (Int.not_lt.mp hin)]
    exact ⟨trivial, hk⟩
  -- either the cache answers, or it is asked again at the HEAD the walk leads to
  cases hhit : z'.copyCachedBlock bn img.blockSize (img.blockLen fi bn) with
  | some bytes =>
    rw [zReadBlock_of_hit hin hhit]
    refine ⟨?_, hk⟩
    rcases hk with rfl | ⟨head, e, hdec⟩
    · rw [copyCachedBlock_forget] at hhit
      cases hhit
    · exact (hdec.read_of_head hin hhit (hst.findHead_eq hdec hin hhit)).symm
  | none =>
    have hidx : img.zIndex z' = img.zIndex z := zIndex_eq_of_forget hk.forget_eq
    cases hfind : findHead (img.zIndex z) bn with
    | error err =>
      simp only [Image.zReadBlock, Image.zReadCached, if_neg (Int.not_le.mpr hin), hhit, hidx,
        hfind, copyCachedBlock_forget, zIndex_forget]
      exact ⟨trivial, hk⟩
    | ok found =>
      obtain ⟨head, e⟩ := found
      have hsame := hk.zExtentData_eq hfind
      by_cases htyp : e.typ = zLclusterHead1
      · cases hdata : img.zExtentData uncompressBlock fi z.forget head e.u with
        | error err =>
          have hne : zLclusterHead1 ≠ zLclusterPlain := by decide
          simp only [Image.zReadBlock, Image.zReadCached, if_neg (Int.not_le.mpr hin), hhit,
            hidx, hfind, copyCachedBlock_forget, zIndex_forget, htyp, if_neg hne, if_true,
            hsame, hdata]
          exact ⟨trivial, hk⟩
        | ok extent =>
          obtain ⟨data, kept⟩ := extent
          rw [hdata] at hsame
          rw [zReadBlock_of_head hin hhit (hidx ▸ hfind) htyp hsame,
            zReadBlock_of_head hin (copyCachedBlock_forget z bn _ _) hfind htyp hdata]
          refine ⟨rfl, .inr ⟨head, e, ⟨bn, hin, hfind⟩, htyp, ?_⟩⟩
          have hpos := Image.nonneg_of_zIndex (findHead_le hfind).2
          have hstart : z.forget.extStartLcn ≠ head := by
            show (-1 : Int) ≠ head
            omega
          rw [(zExtentData_kept hstart hdata).2.1]
          exact hdata
      · simp only [Image.zReadBlock, Image.zReadCached, if_neg (Int.not_le.mpr hin), hhit,
          hidx, hfind, copyCachedBlock_forget, zIndex_forget, if_neg htyp]
        split <;> exact ⟨rfl, hk⟩

/-! ## Sequences of reads -/

theorem Image.Straight.zReadBlocks (hst : img.Straight fi z) (bns : List Nat)
    (hk : Kept uncompressBlock img fi z z') :
    img.zReadBlocks uncompressBlock fi z' bns =
      bns.map fun bn => (img.zReadBlock uncompressBlock fi z.forget bn).1 := by
  induction bns generalizing z' with
  | nil => rfl
  | cons bn bns ih =>
    obtain ⟨hres, hk'⟩ := hst.zReadBlock hk bn
    rw [Image.zReadBlocks, List.map_cons, ← hres, ← ih hk']

end

/-! ## An index that is not straight -/

/-- A decoder whose output has the byte `x` in block `k` and zeros elsewhere. -/
def marking (blockSize k : Nat) (x : UInt8) (_ : List UInt8) (n : Nat) : Option (List UInt8) :=
  some ((List.range n).map fun i => if i / blockSize = k then x else 0)

/-- What block `bn` of a file begins with, in an extent that begins at `head`. -/
theorem head?_marking {blockSize k n m bn : Nat} {head : Int} {x : UInt8} {src out : List UInt8}
    (hbs : 0 < blockSize) (hle : head ≤ bn) (h : marking blockSize k x src n = some out) (hm : 0 < m)
    (hfits : ((bn : Int) - head) * blockSize + m ≤ n) :
    ((out.drop (((bn : Int) - head) * blockSize).toNat).take m).head? =
      some (if ((bn : Int) - head).toNat = k then x else 0) := by
  obtain ⟨off, hoff⟩ : ∃ off : Nat, (bn : Int) - head = off := ⟨((bn : Int) - head).toNat, by omega⟩
  rw [hoff, ← Int.natCast_mul] at hfits ⊢
  rw [Int.toNat_natCast, Int.toNat_natCast]
  cases h
  have hlt : off * blockSize < n := by omega
  rw [List.head?_take, if_neg (by omega), List.head?_drop]
  simp [hlt, Nat.mul_div_cancel _ hbs]

section

variable {img : Image} {fi : Inode} {z kept : ZRead} {head : Int} {e : LIndex} {bn : Nat}

theorem marking_fills (blockSize k : Nat) (x : UInt8) (src : List UInt8) (n : Nat) :
    ∃ out, marking blockSize k x src n = some out ∧ out.length = n :=
  ⟨_, rfl, by rw [List.length_map, List.length_range]⟩

/-- A byte that is not the first of what a read of the block finds stored raw. -/
theorem exists_other_byte (img : Image) (fi : Inode) (z : ZRead) (bn : Nat) :
    ∃ x : UInt8, x ≠ 0 ∧ ∀ head e bytes, findHead (img.zIndex z) bn = .ok (head, e) →
      img.readAt (img.blockLen fi bn) (e.u * img.blockSize + ((bn : Int) - head) * img.blockSize) =
        .ok bytes → bytes.head? ≠ some x := by
  cases hfind : findHead (img.zIndex z) bn with
  | error err => exact ⟨1, by decide, nofun⟩
  | ok found =>
    obtain ⟨head, e⟩ := found
    cases hread : img.readAt (img.blockLen fi bn)
        (e.u * img.blockSize + ((bn : Int) - head) * img.blockSize) with
    | error err =>
      refine ⟨1, by decide, ?_⟩
      rintro head' e' bytes ⟨⟩ hbytes
      cases hread.symm.trans hbytes
    | ok found =>
      by_cases hone : found.head? = some 1
      · refine ⟨2, by decide, ?_⟩
        rintro head' e' bytes ⟨⟩ hbytes
        cases hread.symm.trans hbytes
        rw [hone]
        decide
      · refine ⟨1, by decide, ?_⟩
        rintro head' e' bytes ⟨⟩ hbytes
        cases hread.symm.trans hbytes
        exact hone

/-- Where the walk does not lead to `head`, no fresh read begins with the byte that the extent at
    `head` has in this block. -/
theorem zReadBlock_forget_ne {x : UInt8} (hx : x ≠ 0)
    (hother : ∀ head e bytes, findHead (img.zIndex z) bn = .ok (head, e) →
      img.readAt (img.blockLen fi bn) (e.u * img.blockSize + ((bn : Int) - head) * img.blockSize) =
        .ok bytes → bytes.head? ≠ some x)
    (hin : (bn : Int) * img.blockSize < fi.size) (hindex : img.zIndex z head = .ok e) (hlo : head ≤ bn)
    (hnot : findHead (img.zIndex z) bn ≠ .ok (head, e)) {bytes : List UInt8}
    (hread : (img.zReadBlock (marking img.blockSize ((bn : Int) - head).toNat x) fi z.forget bn).1 =
      .ok bytes) : bytes.head? ≠ some x := by
  have hbs : 0 < img.blockSize := Nat.two_pow_pos _
  unfold Image.zReadBlock Image.zReadCached at hread
  rw [if_neg (by omega), copyCachedBlock_forget, zIndex_forget] at hread
  cases hfind : findHead (img.zIndex z) bn with
  | error err =>
    rw [hfind] at hread
    cases hread
  | ok found =>
    obtain ⟨head', e'⟩ := found
    obtain ⟨hle, hindex'⟩ := findHead_le hfind
    simp only [hfind] at hread
    split at hread
    · exact hother head' e' bytes hfind hread
    split at hread
    · cases hdata : img.zExtentData (marking img.blockSize ((bn : Int) - head).toNat x) fi z.forget
          head' e'.u with
      | error err =>
        rw [hdata] at hread
        cases hread
      | ok extent =>
        obtain ⟨data, kept'⟩ := extent
        have hpos := Image.nonneg_of_zIndex hindex'
        have hstart : z.forget.extStartLcn ≠ head' := by
          show (-1 : Int) ≠ head'
          omega
        obtain ⟨src, out, hout, hlen, hsame⟩ :=
          zExtentData_filled (marking_fills _ _ _) hstart hdata
        rw [hdata] at hsame
        obtain rfl : data = out := congrArg Prod.fst (Except.ok.inj hsame)
        rw [hdata] at hread
        simp only at hread
        split at hread
        · cases hread
        rename_i hfits
        obtain rfl := Except.ok.inj hread
        -- the marked block is counted from another HEAD, so it is not this one
        have hne : ((bn : Int) - head').toNat ≠ ((bn : Int) - head).toNat := by
          intro heq
          obtain rfl : head' = head := by omega
          rw [hindex] at hindex'
          cases hindex'
          exact hnot hfind
        rw [head?_marking hbs hle hout (blockLen_pos hin) (by omega), if_neg hne]
        exact fun h => hx (Option.some.inj h).symm
    · cases hread

/-- Where a walk does not lead to the HEAD of the extent that a block is in, a read of the block
    finds something else than the cache, for some decoder. -/
theorem exists_decoder_differs (hdec : img.Decodes fill fi z head e kept)
    (hin : (bn : Int) * img.blockSize < fi.size) (hlo : head ≤ bn) (hhi : (bn : Int) < kept.extEndLcn)
    (hfits : ((bn : Int) - head) * img.blockSize + img.blockLen fi bn ≤ kept.extData.length)
    (hnot : findHead (img.zIndex z) bn ≠ .ok (head, e)) :
    ∃ decoder bns, img.zReadBlocks decoder fi z.forget bns ≠
      bns.map fun bn => (img.zReadBlock decoder fi z.forget bn).1 := by
  obtain ⟨x, hx, hother⟩ := exists_other_byte img fi z bn
  obtain ⟨first, hfirst, hfind⟩ := hdec.reached
  have hbs : 0 < img.blockSize := Nat.two_pow_pos _
  obtain ⟨src, out, hout, hlen, hdata⟩ := zExtentData_filled
    (marking_fills img.blockSize ((bn : Int) - head).toNat x) hdec.start_ne hdec.decoded
  obtain ⟨hstart, -, -, -⟩ := zExtentData_kept hdec.start_ne hdec.decoded
  refine ⟨marking img.blockSize ((bn : Int) - head).toNat x, [first, bn], fun hagree => ?_⟩
  -- the read of `first` puts the extent into the cache, the next one is answered from there
  have hread := zReadBlock_of_head hfirst (copyCachedBlock_forget z first _ _) hfind hdec.typ_eq hdata
  have hhit : ({ kept with extData := out } : ZRead).copyCachedBlock bn img.blockSize
      (img.blockLen fi bn) = some _ :=
    copyCachedBlock_eq_some.mpr ⟨⟨by rw [hstart]; exact hlo, hhi, by
      rw [hstart, hlen]; exact hfits⟩, rfl⟩
  simp only [Image.zReadBlocks, List.map_cons, List.map_nil, hread, zReadBlock_of_hit hin hhit,
    List.cons.injEq, and_true, true_and] at hagree
  refine zReadBlock_forget_ne hx hother hin (findHead_le hfind).2 hlo hnot hagree.symm ?_
  rw [hstart, head?_marking hbs hlo hout (blockLen_pos hin) hfits, if_pos rfl]

end

/-- **The cache is transparent exactly when the index is straight**: whatever the decoder gives,
    every read of every sequence returns the bytes or the error that it returns on an inode just
    opened. -/
theorem zReadBlocks_agree_iff (img : Image) (fi : Inode) (z : ZRead) :
    (∀ uncompressBlock bns, img.zReadBlocks uncompressBlock fi z.forget bns =
      bns.map fun bn => (img.zReadBlock uncompressBlock fi z.forget bn).1) ↔
      img.Straight fi z := by
  constructor
  · intro hagree head e kept hdec bn hin hlo hhi hfits
    by_contra hnot
    obtain ⟨decoder, bns, hdiffer⟩ := exists_decoder_differs hdec hin hlo hhi hfits hnot
    exact hdiffer (hagree decoder bns)
  · intro hst uncompressBlock bns
    exact hst.zReadBlocks bns (.inl rfl)

/-! ## An index that leads past a HEAD -/

/-- A block of 490 literals, a match and 5 more literals: 513 bytes of value 1. -/
def onesBlock : List UInt8 :=
  [0xfe, 255, 220] ++ List.replicate 490 1 ++ [1, 0] ++ [0x50, 1, 1, 1, 1, 1]

/-- An inode at the start of the image, its map header at 32 and three indexes from 48 on:
    a PLAIN cluster at block 1, a HEAD at block 1, and a NONHEAD that points two clusters
    back, past the HEAD. -/
def skippedHeadImage : Image :=
  { data := List.replicate 48 0 ++
      ([0, 0, 0, 0, 1, 0, 0, 0] ++ [1, 0, 0, 0, 1, 0, 0, 0] ++ [2, 0, 0, 0, 2, 0, 0, 0]) ++
      List.replicate 451 0 ++ onesBlock ++ List.replicate 1024 7
    metaBlkAddr := 0
    blkSizeBits := 9 }

def skippedHeadInode : Inode :=
  { nid := 0, icsize := 32, xsize := 0, compactLayout := false, size := 1025 }

def referenceDecoder (src : List UInt8) (_ : Nat) : Option (List UInt8) := Lz4.decodeBlock src

/-- Block 2 of the file is a 7 when it is read first, and a 1 after block 1 was read. -/
theorem cached_read_differs :
    ∃ z, skippedHeadImage.zInit skippedHeadInode = .ok z ∧ z.forget = z ∧
      skippedHeadImage.zReadBlocks referenceDecoder skippedHeadInode z [2] = [.ok [7]] ∧
      skippedHeadImage.zReadBlocks referenceDecoder skippedHeadInode z [1, 2] =
        [.ok (List.replicate 512 1), .ok [1]] := by
  refine ⟨{ idxStart := 48, nIdx := 3 }, ?_, rfl, ?_, ?_⟩
  · decide +kernel
  · decide +kernel
  · decide +kernel

end Orchestrator.Erofs

/-
  Orchestrator.Erofs.ZRoundTrip

  From the packer to the reader.

  A tree's files are stored one after another into one compressed region behind the
  metadata, and a file with the content of an earlier one shares its extents.  A stored file
  whose blocks are where its index says reads back block by block, in any order and through
  the cache, for both index layouts (`FileHeld.reads`).
-/

import Orchestrator.Erofs.ZReadFile

namespace Orchestrator.Erofs

open Lib Lib.Exec List

/-! ## From spans to extents on the image -/

section

variable {blockSize : Nat} {exts : List ZExtent} {spans : List PackedSpan} {spool : List UInt8}

theorem forall₂_split {α β : Type} {R : α → β → Prop} {before : List α} {x : α} {rest : List α}
    {ys : List β} (h : List.Forall₂ R (before ++ x :: rest) ys) :
    ∃ ysb y ysr, ys = ysb ++ y :: ysr ∧ List.Forall₂ R before ysb ∧ R x y ∧
      List.Forall₂ R rest ysr := by
  induction before generalizing ys with
  | nil =>
    obtain ⟨y, ysr, hxy, hrest, rfl⟩ := forall₂_cons_left_iff.mp h
    exact ⟨[], y, ysr, rfl, .nil, hxy, hrest⟩
  | cons b bs ih =>
    obtain ⟨y, ys', hby, htail, rfl⟩ := forall₂_cons_left_iff.mp h
    obtain ⟨ysb, x', ysr, rfl, hbs, hx, hrest⟩ := ih htail
    exact ⟨y :: ysb, x', ysr, rfl, .cons hby hbs, hx, hrest⟩

theorem clusters_of_aligned (hbs : 0 < blockSize)
    (h : List.Forall₂ (fun ext ps => Stored blockSize spool ext ps.raw) exts spans)
    (hal : ∀ ps ∈ spans, blockSize ∣ ps.raw.length) :
    clusters exts * blockSize = (coveredBy spans).length := by
  induction h with
  | nil => simp
  | cons hst htail ih =>
    rename_i ext ps exts spans
    obtain ⟨b, hat⟩ := hst
    obtain ⟨q, hq⟩ := hal ps mem_cons_self
    have hl : ext.lclusters = q := by
      rw [hat.lclusters_eq, hq, ceilDiv_mul hbs]
    rw [clusters_cons, coveredBy_cons, length_append, Nat.add_mul, hl, hq,
      ih fun p hp => hal p (mem_cons_of_mem _ hp), Nat.mul_comm]

/-- All clusters of a file: every span but the last ends on a block. -/
theorem clusters_of_spans (hbs : 0 < blockSize)
    (h : List.Forall₂ (fun ext ps => Stored blockSize spool ext ps.raw) exts spans)
    (hal : ∀ ps ∈ spans.dropLast, blockSize ∣ ps.raw.length) :
    indexCount (coveredBy spans).length blockSize = clusters exts := by
  induction h with
  | nil =>
    rw [indexCount, coveredBy_nil, clusters_nil]
    exact Nat.div_eq_of_lt (by simp; omega)
  | cons hst htail ih =>
    rename_i ext ps exts spans
    obtain ⟨b, hat⟩ := hst
    rw [clusters_cons, coveredBy_cons, length_append]
    cases spans with
    | nil =>
      cases htail
      rw [coveredBy_nil, clusters_nil, hat.lclusters_eq]
      rfl
    | cons next more =>
      obtain ⟨q, hq⟩ := hal ps (by simp)
      have hrest := ih fun p hp => hal p (by simp [hp])
      have hl : ext.lclusters = q := by
        rw [hat.lclusters_eq, hq, ceilDiv_mul hbs]
      rw [← hrest, hl, hq, indexCount, indexCount, Nat.add_assoc, Nat.add_sub_assoc (by omega),
        Nat.mul_add_div hbs]

theorem rawAt_of_spans (hbs : 0 < blockSize) {before rest : List ZExtent} {ext : ZExtent}
    (h : List.Forall₂ (fun ext ps => Stored blockSize spool ext ps.raw) (before ++ ext :: rest) spans)
    (hal : ∀ ps ∈ spans.dropLast, blockSize ∣ ps.raw.length) :
    Stored blockSize spool ext
      (rawAt blockSize (coveredBy spans) (clusters before) ext.lclusters) := by
  obtain ⟨sb, ps, sr, rfl, hbefore, hst, hrest⟩ := forall₂_split h
  have hstart : clusters before * blockSize = (coveredBy sb).length := by
    apply clusters_of_aligned hbs hbefore
    intro p hp
    apply hal p
    rw [dropLast_append_of_ne_nil (by simp)]
    exact mem_append_left _ hp
  have hraw : rawAt blockSize (coveredBy (sb ++ ps :: sr)) (clusters before) ext.lclusters = ps.raw := by
    obtain ⟨b, hat⟩ := hst
    have hceil := (ceilDiv_spec hbs ps.raw.length).1
    rw [rawAt, coveredBy_append, hstart, drop_left, coveredBy_cons, hat.lclusters_eq]
    cases sr with
    | nil =>
      rw [coveredBy_nil, append_nil, take_of_length_le hceil]
    | cons next more =>
      obtain ⟨q, hq⟩ := hal ps (by rw [dropLast_append_of_ne_nil (by simp)]; simp)
      have hfull : (ps.raw.length + blockSize - 1) / blockSize * blockSize = ps.raw.length := by
        rw [hq, ceilDiv_mul hbs, Nat.mul_comm]
      rw [hfull, take_left]
  rw [hraw]
  exact hst

end

variable {n : Nat} {ext : ZExtent}

theorem StoredAt.slice_le {blockSize b off : Nat} {spool raw : List UInt8}
    (h : StoredAt blockSize spool b ext raw) (hn : off + n ≤ ext.blocks * blockSize) :
    b * blockSize + off + n ≤ spool.length := by
  have hin := h.inside
  rw [Nat.add_mul] at hin
  omega

variable {img : Image} {compBase : Nat}

theorem blockSize_of_bits (h : img.blkSizeBits = 12) : img.blockSize = 4096 := by
  rw [Image.blockSize, h]
  rfl

theorem StoredAt.take {blockSize b c : Nat} {spool raw : List UInt8} (hbs : 0 < blockSize)
    (h : StoredAt blockSize spool b ext raw) (hc : b + ext.blocks ≤ c) :
    StoredAt blockSize (spool.take (c * blockSize)) b ext raw := by
  have hin := h.inside
  have hend := Nat.mul_le_mul_right blockSize hc
  have hkeep : ∀ n, n ≤ ext.blocks * blockSize →
      ((spool.take (c * blockSize)).drop (b * blockSize)).take n =
        (spool.drop (b * blockSize)).take n := by
    intro n hn
    rw [Nat.add_mul] at hend
    rw [drop_take, take_take, Nat.min_eq_left (by omega)]
  refine ⟨h.blkOff_eq, h.lclusters_eq, h.raw_pos, h.raw_le, ?_, ?_⟩
  · rw [length_take]
    exact Nat.le_min.mpr ⟨hend, hin⟩
  · rcases h.data with ⟨hplain, hblocks, hraw⟩ | ⟨hplain, comp, hne, hdec, hle, hsave, hblocks, hcomp⟩
    · refine .inl ⟨hplain, hblocks, ?_⟩
      rw [hkeep _ (by rw [hblocks, h.lclusters_eq]; exact (ceilDiv_spec hbs _).1)]
      exact hraw
    · exact .inr ⟨hplain, comp, hne, hdec, hle, hsave, hblocks, by rw [hkeep _ (Nat.le_refl _), hcomp]⟩

/-- **A stored span is on the image**, when its blocks have addresses of 32 bits. -/
theorem OnDisk.of_stored {region raw before after : List UInt8} {b : Nat}
    (hbits : img.blkSizeBits = 12) (hdata : img.data = before ++ region ++ after)
    (hbase : before.length = compBase * 4096) (hat : StoredAt 4096 region b ext raw)
    (hreach : compBase + b + ext.addresses ≤ 2 ^ 32) : OnDisk img compBase ext raw := by
  have hbs := blockSize_of_bits hbits
  have hmax : zFormatMaxExtentSize = 12582912 := rfl
  have hpc : (1 <<< 20 : Nat) = 1048576 := rfl
  have hpos := hat.raw_pos
  have hle := hat.raw_le
  have hlc := hat.lclusters_eq
  have hblocks : 0 < ext.blocks ∧ (ext.plain = false → ext.blocks ≤ 256 ∧ 2 ≤ ext.lclusters) ∧
      (ext.plain = true → ext.blocks = ext.lclusters) := by
    rcases hat.data with ⟨hp, heq, -⟩ | ⟨hp, comp, hne, -, hcl, hsave, heq, -⟩
    · exact ⟨by omega, fun hc => absurd (hp.symm.trans hc) (by simp), fun _ => heq⟩
    · have hcpos := length_pos_of_ne_nil hne
      exact ⟨by omega, fun _ => by omega, fun hc => absurd (hp.symm.trans hc) (by simp)⟩
  have hsome : 0 < ext.addresses := by
    rw [ZExtent.addresses]
    split
    · exact hblocks.1
    · exact Nat.one_pos
  -- the offset in the extent is the true one, as its addresses fit 32 bits
  have hoff : ext.blkOff = b := by
    rw [hat.blkOff_eq]
    exact u32_of_lt
  have haddr : ext.Addressable compBase := by
    refine ⟨⟨by omega, by omega, hblocks.2.2, fun hp => (hblocks.2.1 hp).2, hblocks.1,
      fun hp => by have := (hblocks.2.1 hp).1; omega⟩, by omega,
      fun hp => by have := (hblocks.2.1 hp).1; omega⟩
  -- any bytes within the blocks of the extent are read from the region
  have hread : ∀ off n, off + n ≤ ext.blocks * 4096 →
      img.readAt n (((compBase + ext.blkOff) * img.blockSize + off : Nat) : Int) =
        .ok ((region.drop (b * 4096 + off)).take n) := by
    intro off n hn
    apply Image.readAt_slice hdata (b * 4096 + off) (hat.slice_le hn)
    rw [hoff, hbs, hbase]
    omega
  have hcover : raw.length ≤ ext.lclusters * 4096 := by omega
  have hpcluster : ext.plain = false → ext.blocks * 4096 ≤ 1 <<< 20 := by
    intro hp
    exact Nat.le_trans (Nat.mul_le_mul_right 4096 (hblocks.2.1 hp).1) (by decide)
  refine ⟨haddr, hle, ?_, ?_⟩
  · intro hp off n hn
    rcases hat.data with ⟨-, heq, hraw⟩ | ⟨hp', -⟩
    · have hslice : ((raw.drop off).take n) = (region.drop (b * 4096 + off)).take n := by
        conv_lhs => rw [← hraw]
        rw [drop_take, take_take, drop_drop, Nat.min_eq_left (by omega)]
      rw [hread off n (by rw [heq]; exact Nat.le_trans hn hcover), hslice]
    · rw [hp] at hp'
      cases hp'
  · intro hp
    rcases hat.data with ⟨hp', -⟩ | ⟨-, comp, hne, hdec, hcl, hsave, heq, hcomp⟩
    · rw [hp] at hp'
      cases hp'
    have hr := hread 0 (ext.blocks * 4096) (Nat.le_of_eq (Nat.zero_add _))
    rw [Nat.add_zero, Nat.add_zero, hcomp, hbs] at hr
    rw [hbs]
    exact ⟨comp, hne, hdec, hsave, heq, hpcluster hp, hr⟩

/-! ## Trees of files -/

/-- A regular file to be stored, its profile, and the workers that pack it. -/
structure FileJob (σ : Type) where
  profile : ZProfile
  content : List UInt8
  workers : Nat → PackWorker σ

def compressFiles {σ κ : Type} [DecidableEq κ] (Z : ZConfig σ κ) (s : Store κ) :
    List (FileJob σ) → Except PackError (Store κ)
  | [] => .ok s
  | job :: rest => do
    let (s, _) ← compressFile Z job.profile job.content job.workers s
    compressFiles Z s rest

/-- The variables of the loop of `compressAll`: the store, and the files whose extents others
    may share, by the hash of their content. -/
structure Collecting (κ : Type) where
  store : Store κ
  fileDedupe : List (κ × ZInfo) := []

/-- `fileDedupeSizes`: how many files have the size, of those for which that is counted. -/
def fileDedupeSizes (dedupe : Bool) (pclusterSize : Nat) (sizes : List Nat) (size : Nat) : Nat :=
  if dedupe = true ∧ 4 * pclusterSize ≤ size ∧ size < 2 * zSegmentSize then sizes.count size else 0

/-- One file of that loop; `shared` says that another one has its size. -/
def packFile {σ κ : Type} [DecidableEq κ] (Z : ZConfig σ κ) (shared : Bool) (job : FileJob σ)
    (s : Collecting κ) : Except PackError (Collecting κ × ZInfo) :=
  let key := Z.sum256 job.content
  match if shared then s.fileDedupe.lookup key else none with
  | some zi => .ok (s, zi)
  | none => do
    let (store, zi) ← compressFile Z job.profile job.content job.workers s.store
    return (⟨store, if shared then (key, zi) :: s.fileDedupe else s.fileDedupe⟩, zi)

/-- The files one after another; workers pack several at a time, and their spans are stored
    in this order. -/
def packFiles {σ κ : Type} [DecidableEq κ] (Z : ZConfig σ κ) :
    Collecting κ → List (Bool × FileJob σ) → Except PackError (Collecting κ × List ZInfo)
  | s, [] => .ok (s, [])
  | s, (shared, job) :: rest => do
    let (s, zi) ← packFile Z shared job s
    let (s, infos) ← packFiles Z s rest
    return (s, zi :: infos)

/-- `compressAll`: the packed inode, if there is one, and the files that are not packed into
    it. -/
def compressAll {σ κ : Type} [DecidableEq κ] (Z : ZConfig σ κ) (dedupe : Bool) (pclusterSize : Nat)
    (packed : Option (FileJob σ)) (remaining : List (FileJob σ)) :
    Except PackError (Store κ × List ZInfo) := do
  let sizes := remaining.map fun job => job.content.length
  let tagged := remaining.map fun job =>
    (decide (1 < fileDedupeSizes dedupe pclusterSize sizes job.content.length), job)
  let (s, infos) ← packFiles Z ⟨Store.new dedupe, []⟩ (packed.toList.map (false, ·) ++ tagged)
  return (s.store, infos)

/-- `writeCompressedData`: the blocks of the spool that the region is said to have. -/
def Store.compressedData {κ : Type} (blockSize : Nat) (s : Store κ) : List UInt8 :=
  s.compSpool.take (s.compBlocks * blockSize)

/-- An image of blocks of 4096 bytes with the compressed region at block `compBase`, behind
    the superblock, and the trailing metadata of a file. -/
structure HoldsFile {κ : Type} (img : Image) (compBase : Nat) (store : Store κ) (e : ZEntry) :
    Prop where
  blkSizeBits_eq : img.blkSizeBits = 12
  compBase_pos : 0 < compBase
  trailing : HoldsTrailing img compBase e
  region : ∃ before after, img.data = before ++ store.compressedData 4096 ++ after ∧
    before.length = compBase * 4096

section

variable {σ κ : Type} [DecidableEq κ] {Z : ZConfig σ κ}

variable {s : Store κ}

theorem compressFile_ok (hP : Z.packers.Sound) (hbs : Z.blockSize = 4096) {job : FileJob σ}
    (hacc : job.profile.accepted 4096 = true) (hs : StoreOK Z s) {r : Store κ × ZInfo}
    (h : compressFile Z job.profile job.content job.workers s = .ok r) :
    Compressed Z job.profile job.content s r := by
  have hprof : job.profile.Accepted Z.blockSize := by
    rw [hbs]
    exact (ZProfile.accepted_iff _ _).mp hacc
  have hseg : Z.blockSize ∣ zSegmentSize := by
    rw [hbs]
    exact ⟨2048, rfl⟩
  exact ((compressFile_runs (I := fun _ _ => True) hP (by omega) hprof (fun _ _ _ _ _ _ _ => trivial)
    hseg hs trivial job.content job.workers).of_eq_ok h).1

/-- A stored file: its extents stand for spans that cut the content up. -/
def FileHeld (Z : ZConfig σ κ) (store : Store κ) (content : List UInt8) (zi : ZInfo) : Prop :=
  ∃ profile spans, Packs Z.blockSize profile content spans ∧ FileStored Z store zi spans

omit [DecidableEq κ] in
theorem FileHeld.grows (hbs : Z.blockSize = 4096) {store store' : Store κ} {content : List UInt8}
    {zi : ZInfo} (h : FileHeld Z store content zi) (hg : Grows store store') :
    FileHeld Z store' content zi := by
  obtain ⟨profile, spans, hpacks, hfile⟩ := h
  exact ⟨profile, spans, hpacks, hfile.grows (by omega) hg⟩

/-- The store, and files that were stored for one of the contents seen. -/
structure CollectingOK (Z : ZConfig σ κ) (seen : List (List UInt8)) (s : Collecting κ) : Prop where
  ok : StoreOK Z s.store
  files : ∀ key zi, (key, zi) ∈ s.fileDedupe →
    ∃ content ∈ seen, Z.sum256 content = key ∧ FileHeld Z s.store content zi

/-- **One file**: it is stored, or shares the extents of a file with its content. -/
theorem packFile_ok (hP : Z.packers.Sound) (hbs : Z.blockSize = 4096) {shared : Bool}
    {job : FileJob σ} (hacc : job.profile.accepted 4096 = true) {seen : List (List UInt8)}
    (hno : NoCollision Z (seen ++ [job.content])) {s : Collecting κ} (hs : CollectingOK Z seen s)
    {r : Collecting κ × ZInfo} (h : packFile Z shared job s = .ok r) :
    CollectingOK Z (seen ++ [job.content]) r.1 ∧ Grows s.store r.1.store ∧
      FileHeld Z r.1.store job.content r.2 := by
  have hlast : job.content ∈ seen ++ [job.content] := mem_append_right _ (mem_singleton.mpr rfl)
  rw [packFile] at h
  cases hhit : (if shared then s.fileDedupe.lookup (Z.sum256 job.content) else none) with
  | some zi =>
    rw [hhit] at h
    cases h
    rw [ite_eq_iff'] at hhit
    have hshared : shared = true := by
      by_contra hc
      cases hhit.2 hc
    obtain ⟨l₁, l₂, hmap, -⟩ := lookup_eq_some_iff.mp (hhit.1 hshared)
    obtain ⟨content, hmem, hkey, hheld⟩ := hs.files (Z.sum256 job.content) zi (by rw [hmap]; simp)
    -- a hit is a file with the same hash, and so with the same content
    have hsame := hno content (mem_append_left _ hmem) job.content hlast hkey
    refine ⟨⟨hs.ok, fun key zi' hin => ?_⟩, Grows.refl _, hsame ▸ hheld⟩
    obtain ⟨content', hmem', hrest⟩ := hs.files key zi' hin
    exact ⟨content', mem_append_left _ hmem', hrest⟩
  | none =>
    rw [hhit] at h
    obtain ⟨stored, hone, hret⟩ := bind_eq_ok h
    cases hret
    have hfile := compressFile_ok hP hbs hacc hs.ok hone
    obtain ⟨spans, hpacks, hspans⟩ := hfile.file
    have hheld : FileHeld Z stored.1 job.content stored.2 := ⟨job.profile, spans, hpacks, hspans⟩
    -- what earlier files are held by stays, as the store only grows
    have hold : ∀ key zi, (key, zi) ∈ s.fileDedupe → ∃ content ∈ seen ++ [job.content],
        Z.sum256 content = key ∧ FileHeld Z stored.1 content zi := by
      intro key zi hin
      obtain ⟨content, hmem, hkey, hwas⟩ := hs.files key zi hin
      exact ⟨content, mem_append_left _ hmem, hkey, hwas.grows hbs hfile.grows⟩
    refine ⟨⟨hfile.ok, fun key zi hin => ?_⟩, hfile.grows, hheld⟩
    cases shared with
    | false => exact hold key zi hin
    | true =>
      rcases mem_cons.mp hin with hnew | hin
      · cases hnew
        exact ⟨job.content, hlast, rfl, hheld⟩
      · exact hold key zi hin

theorem packFiles_ok (hP : Z.packers.Sound) (hbs : Z.blockSize = 4096)
    {jobs : List (Bool × FileJob σ)} (hacc : ∀ job ∈ jobs, job.2.profile.accepted 4096 = true)
    {seen : List (List UInt8)} (hno : NoCollision Z (seen ++ jobs.map (·.2.content)))
    {s : Collecting κ} (hs : CollectingOK Z seen s) {r : Collecting κ × List ZInfo}
    (h : packFiles Z s jobs = .ok r) :
    StoreOK Z r.1.store ∧ Grows s.store r.1.store ∧
      Forall₂ (fun job zi => FileHeld Z r.1.store job.2.content zi) jobs r.2 := by
  induction jobs generalizing s r seen with
  | nil =>
    cases h
    exact ⟨hs.ok, Grows.refl _, .nil⟩
  | cons job rest ih =>
    have hsplit : seen ++ (job :: rest).map (·.2.content) =
        seen ++ [job.2.content] ++ rest.map (·.2.content) := by simp
    rw [hsplit] at hno
    obtain ⟨first, hone, hrest⟩ := bind_eq_ok h
    obtain ⟨others, hmore, hret⟩ := bind_eq_ok hrest
    cases hret
    obtain ⟨hok, hgrows, hheld⟩ := packFile_ok hP hbs (hacc job mem_cons_self)
      (fun a ha b hb => hno a (mem_append_left _ ha) b (mem_append_left _ hb)) hs hone
    obtain ⟨hend, hgrows', hothers⟩ := ih (fun j hj => hacc j (mem_cons_of_mem _ hj)) hno hok hmore
    exact ⟨hend, hgrows.trans hgrows', .cons (hheld.grows hbs hgrows') hothers⟩

/-! ## Where the blocks of a file are -/

/-- What can keep the blocks at `b` of the spool out of the reader's sight. -/
inductive Misplaced where
  /-- One of their addresses has more than 32 bits. -/
  | wrapped
  /-- The number of blocks in the region has wrapped around, and they are not written. -/
  | unwritten
deriving DecidableEq, Repr

def ZExtent.misplaced (compBase written b : Nat) (ext : ZExtent) : Misplaced → Prop
  | .wrapped => 2 ^ 32 < compBase + b + ext.addresses
  | .unwritten => written < b + ext.blocks

/-- Every extent of the file is at some block of the spool, misplaced only as `A` admits.  That
    it is there at all is what `FileHeld.stored` says. -/
def Placed (A : Misplaced → Prop) (compBase : Nat) (store : Store κ) (exts : List ZExtent)
    (content : List UInt8) : Prop :=
  ∀ before ext after, exts = before ++ ext :: after →
    ∃ b, StoredAt 4096 store.compSpool b ext (rawAt 4096 content (clusters before) ext.lclusters) ∧
      ∀ t, ext.misplaced compBase store.compBlocks b t → A t

omit [DecidableEq κ] in
theorem FileHeld.stored (hbs : Z.blockSize = 4096) {store : Store κ} {content : List UInt8}
    {zi : ZInfo} (h : FileHeld Z store content zi) (hno : NoCollision Z store.given)
    {before after : List ZExtent} {ext : ZExtent} (hsplit : zi.extents = before ++ ext :: after) :
    Stored 4096 store.compSpool ext (rawAt 4096 content (clusters before) ext.lclusters) := by
  obtain ⟨profile, spans, hpacks, hfile⟩ := h
  have hexts := hfile.extents hno
  have halign := hpacks.aligned
  rw [hbs] at hexts halign
  rw [hsplit] at hexts
  rw [← hpacks.cover]
  exact rawAt_of_spans (by decide) hexts halign

omit [DecidableEq κ] in
theorem Reader.of_stored (hbs : Z.blockSize = 4096) {content : List UInt8} {store : Store κ}
    {e : ZEntry} (hheld : FileHeld Z store content e.z) (hno : NoCollision Z store.given)
    {img : Image} {compBase : Nat} (himg : HoldsFile img compBase store e)
    (hsize : e.size = content.length) (hlayout : e.compactLayout = true → zCanCompact 4096 e.z = true)
    (hplaced : Placed (fun _ => False) compBase store e.z.extents content) :
    ∃ tail, Reader img compBase e.z.extents content tail (zReadOf img e) := by
  obtain ⟨profile, spans, hpacks, hfile⟩ := hheld
  have hblock := blockSize_of_bits himg.blkSizeBits_eq
  have hexts := hfile.extents hno
  have halign := hpacks.aligned
  rw [hbs] at hexts halign
  obtain ⟨before, after, hdata, hlen⟩ := himg.region
  -- every extent is where its addresses say, and holds its part of the content
  have hdisk : FileOnDisk img compBase e.z.extents content := by
    constructor
    · intro eb ext er hsplit
      obtain ⟨b, hat, hplace⟩ := hplaced eb ext er hsplit
      rw [hblock]
      exact .of_stored himg.blkSizeBits_eq hdata hlen
        (hat.take (by decide) (Nat.le_of_not_lt (hplace .unwritten)))
        (Nat.le_of_not_lt (hplace .wrapped))
    · rw [hblock, ← hpacks.cover]
      exact clusters_of_spans (by decide) hexts halign
  have haddr : ∀ ext ∈ e.z.extents, ext.Addressable compBase := by
    intro ext hmem
    obtain ⟨eb, er, hsplit⟩ := append_of_mem hmem
    exact (hdisk.extent eb ext er hsplit).addressable
  have hcount : indexCount e.size img.blockSize = clusters e.z.extents := by
    rw [hsize]
    exact hdisk.count
  have hnIdx : (zReadOf img e).nIdx = (clusters e.z.extents : Nat) := by
    rw [nIdx_zReadOf, hcount]
  have hcache : CacheOK img.blockSize e.z.extents content (zReadOf img e) := .inl ⟨rfl, rfl⟩
  -- the two layouts give the same view; only the full one has a boundary marker
  cases hc : e.compactLayout with
  | true =>
    have hcont := (zCanCompact_spec hfile.whole (hlayout hc)).2
    have hview := himg.trailing.compactView hfile.whole hcount hc haddr hcont
    exact ⟨none, hview, hnIdx, (fun t ht => by cases ht), hdisk, hcache⟩
  | false =>
    have hview := himg.trailing.fullView hfile.whole hcount hc haddr
    refine ⟨_, hview, hnIdx, fun t ht => ?_, hdisk, hcache⟩
    have hmod : tailOfs e.size img.blockSize = content.length % img.blockSize := by
      have hlt := Nat.mod_lt content.length img.blockSize_pos
      rw [tailOfs, hsize]
      exact Nat.mod_eq_of_lt (by omega)
    rw [markerOf, hmod] at ht
    split at ht
    · cases ht
    · cases ht
      exact ⟨rfl, ‹_›⟩

theorem compressAll_ok (hP : Z.packers.Sound) (hbs : Z.blockSize = 4096) {dedupe : Bool}
    {pclusterSize : Nat} {packed : Option (FileJob σ)} {remaining : List (FileJob σ)}
    (hacc : ∀ j ∈ packed.toList ++ remaining, j.profile.accepted 4096 = true)
    (hfiles : NoCollision Z ((packed.toList ++ remaining).map FileJob.content)) {store : Store κ}
    {infos : List ZInfo} (h : compressAll Z dedupe pclusterSize packed remaining = .ok (store, infos))
    {job : FileJob σ} {zi : ZInfo} (hjob : (job, zi) ∈ (packed.toList ++ remaining).zip infos) :
    FileHeld Z store job.content zi := by
  rw [compressAll] at h
  generalize htag : packed.toList.map _ ++ remaining.map _ = jobs at h
  have hjobs : packed.toList ++ remaining = jobs.map Prod.snd := by
    rw [← htag]
    simp [Function.comp_def]
  rw [hjobs] at hacc hfiles hjob
  obtain ⟨r, hrun, hret⟩ := bind_eq_ok h
  cases hret
  have hstart : CollectingOK Z [] ⟨Store.new dedupe, []⟩ :=
    ⟨StoreOK.new Z dedupe, fun _ _ hin => by cases hin⟩
  obtain ⟨-, -, hheld⟩ := packFiles_ok hP hbs (fun j hj => hacc j.2 (mem_map_of_mem hj))
    (by simpa [Function.comp_def] using hfiles) hstart hrun
  have hmapped : Forall₂ (fun (j : FileJob σ) zi => FileHeld Z r.1.store j.content zi)
      (jobs.map Prod.snd) r.2 := forall₂_map_left_iff.mpr hheld
  exact (forall₂_iff_zip.mp hmapped).2 hjob

omit [DecidableEq κ] in
theorem FileHeld.reads (hbs : Z.blockSize = 4096)
    {uncompressBlock : List UInt8 → Nat → Option (List UInt8)} (hlz4 : Uncompresses uncompressBlock)
    {content : List UInt8} {store : Store κ} {e : ZEntry} (hheld : FileHeld Z store content e.z)
    (hno : NoCollision Z store.given) {img : Image} {compBase : Nat}
    (himg : HoldsFile img compBase store e) (hsize : e.size = content.length)
    (hlayout : e.compactLayout = true → zCanCompact 4096 e.z = true)
    (hplaced : Placed (fun _ => False) compBase store e.z.extents content) {bns : List Nat}
    (hbns : ∀ bn ∈ bns, bn < indexCount content.length 4096) :
    img.readBlocks uncompressBlock e.inode content.length (zReadOf img e) bns =
      .ok (bns.map (blockOf 4096 content)) := by
  have hblock := blockSize_of_bits himg.blkSizeBits_eq
  obtain ⟨tail, hreader⟩ := Reader.of_stored hbs hheld hno himg hsize hlayout hplaced
  have hcount := hreader.file.count
  rw [hblock] at hcount
  have hinode : e.inode.size = content.length := by
    rw [← hsize]
    rfl
  have hread := hreader.readBlocks hlz4 hinode bns
    (fun bn hbn => by rw [← hcount]; exact hbns bn hbn)
  rw [hblock] at hread
  exact hread

end

end Orchestrator.Erofs

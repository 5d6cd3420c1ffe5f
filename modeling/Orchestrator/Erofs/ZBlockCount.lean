/-
  Orchestrator.Erofs.ZBlockCount

  The number of blocks of a compressed extent, on its way from the packer through the
  index to the reader.

  The count shares the low half of the index behind the HEAD with the flag that marks it.
  The options that bound it are checked one by one: the block size by `setBlockSize`, the
  sizes of pclusters and extents by `newZState`.  `block_counts_kept_iff` says which
  combinations keep every count that the packer can store, in files stored one after
  another with either profile, deduped or not.
-/

import Orchestrator.Erofs.ZRoundTrip

namespace Orchestrator.Erofs

open Lib Lib.Exec List

/-! ## Options -/

def minBlockSize : Nat := 512
def maxBlockSize : Nat := 1 <<< 20

/-- `bits.OnesCount` of a 64-bit number. -/
def onesCount (n : Nat) : Nat := (range 64).countP n.testBit

/-- `setBlockSize`, for a writer whose block size is `cur`, 0 for none yet. -/
def setBlockSize (cur n : Nat) : Except String Nat :=
  if n < minBlockSize ∨ maxBlockSize < n then
    .error s!"mkfs: invalid block size {n}: must be between {minBlockSize} and {maxBlockSize}"
  else if onesCount n ≠ 1 then .error s!"mkfs: invalid block size {n}: must be a power of two"
  else if cur = 0 then .ok n
  else if cur ≠ n then .error s!"mkfs: block size conflict: already {cur}, requested {n}"
  else .ok cur

/-- The sizes in `CompressionOptions`; 0 stands for a default. -/
structure CompressionOptions where
  pclusterSize : Int := 0
  maxExtentSize : Int := 0
  packedPClusterSize : Int := 0
  packedMaxExtentSize : Int := 0

def zDefaultPClusterSize : Int := 65536
def zDefaultMaxExtentSize : Int := 4 <<< 20

def orDefault (size default : Int) : Int := if size = 0 then default else size

/-- The profiles of a `zState`: for regular files, and for the packed inode. -/
structure ZProfiles where
  data : ZProfile
  packed : ZProfile

/-- `newZState`, as far as it checks sizes. -/
def newZState (opts : CompressionOptions) (blockSize : Nat) : Except String ZProfiles := do
  let pc := orDefault opts.pclusterSize zDefaultPClusterSize
  let ext := orDefault opts.maxExtentSize zDefaultMaxExtentSize
  let packedPc := orDefault opts.packedPClusterSize pc
  let packedExt := orDefault opts.packedMaxExtentSize ext
  let check (ok : Nat → Nat → Bool) (name limit : String) (size : Int) : Except String Nat :=
    if 0 < size ∧ ok blockSize size.toNat then .ok size.toNat
    else .error (s!"erofs: {name} {size} must be a positive multiple of block size {blockSize}" ++
      s!", at most {limit}")
  let pc ← check validatePCluster "pcluster size" "1 MiB" pc
  let packedPc ← check validatePCluster "packed pcluster size" "1 MiB" packedPc
  let ext ← check validateExtent "max extent size" "12 MiB" ext
  let packedExt ← check validateExtent "packed max extent size" "12 MiB" packedExt
  return ⟨⟨pc, ext⟩, ⟨packedPc, packedExt⟩⟩

def ZProfiles.Has (ps : ZProfiles) (profile : ZProfile) : Prop :=
  profile = ps.data ∨ profile = ps.packed

variable {blockSize : Nat} {profile : ZProfile} {ps : ZProfiles}

theorem newZState_accepted {opts : CompressionOptions} (h : newZState opts blockSize = .ok ps)
    (hp : ps.Has profile) :
    profile.Accepted blockSize := by
  have hcheck : ∀ (ok : Nat → Nat → Bool) (e : String) (size : Int) (r : Nat),
      (if 0 < size ∧ ok blockSize size.toNat then Except.ok size.toNat else .error e) = .ok r →
      ok blockSize r = true := by
    intro ok e size r hr
    split at hr
    · rename_i hok
      cases hr
      exact hok.2
    · cases hr
  have hruns : Runs (fun _ => True) (newZState opts blockSize) fun ps =>
      ps.data.accepted blockSize = true ∧ ps.packed.accepted blockSize = true := by
    unfold newZState
    apply Runs.bind (runs_self _)
    intro pc hpc
    apply Runs.bind (runs_self _)
    intro packedPc hpacked
    apply Runs.bind (runs_self _)
    intro ext hext
    apply Runs.bind (runs_self _)
    intro packedExt hpackedExt
    apply runs_pure
    simp only [ZProfile.accepted, Bool.and_eq_true]
    exact ⟨⟨hcheck _ _ _ _ hpc, hcheck _ _ _ _ hext⟩, hcheck _ _ _ _ hpacked,
      hcheck _ _ _ _ hpackedExt⟩
  obtain ⟨hdata, hpacked⟩ := hruns.of_eq_ok h
  rcases hp with rfl | rfl
  · exact (ZProfile.accepted_iff _ _).mp hdata
  · exact (ZProfile.accepted_iff _ _).mp hpacked

theorem onesCount_eq_one {n : Nat} (hlt : n < 2 ^ 64) (h : onesCount n = 1) : ∃ k, n = 2 ^ k := by
  unfold onesCount at h
  rw [countP_eq_length_filter, length_eq_one_iff] at h
  obtain ⟨k, hk⟩ := h
  refine ⟨k, Nat.eq_of_testBit_eq fun i => ?_⟩
  have hmem : i ∈ (range 64).filter n.testBit ↔ i = k := by rw [hk, mem_singleton]
  rw [mem_filter, mem_range] at hmem
  rw [Nat.testBit_two_pow]
  by_cases hi : i < 64
  · by_cases heq : i = k
    · rw [(hmem.mpr heq).2, decide_eq_true heq.symm]
    · have hbit : n.testBit i ≠ true := fun hb => heq (hmem.mp ⟨hi, hb⟩)
      rw [Bool.eq_false_iff.mpr hbit, decide_eq_false (Ne.symm heq)]
  · have hkmem : k ∈ (range 64).filter n.testBit := by
      rw [hk]
      exact mem_singleton_self k
    have hk64 : k < 64 := mem_range.mp (mem_filter.mp hkmem).1
    have hbig : n < 2 ^ i := Nat.lt_of_lt_of_le hlt (Nat.pow_le_pow_right (by decide) (by omega))
    rw [Nat.testBit_lt_two_pow hbig, decide_eq_false (by omega)]

theorem setBlockSize_ok {cur n r : Nat} (h : setBlockSize cur n = .ok r) :
    minBlockSize ≤ n ∧ n ∣ zSegmentSize := by
  unfold setBlockSize at h
  by_cases hrange : n < minBlockSize ∨ maxBlockSize < n
  · rw [if_pos hrange] at h
    cases h
  rw [if_neg hrange] at h
  by_cases hone : onesCount n ≠ 1
  · rw [if_pos hone] at h
    cases h
  have hmax : maxBlockSize = 2 ^ 20 := rfl
  obtain ⟨k, rfl⟩ := onesCount_eq_one (show n < 2 ^ 64 by omega) (not_not.mp hone)
  refine ⟨by omega, ?_⟩
  have hk : k ≤ 20 := (Nat.pow_le_pow_iff_right (by decide)).mp (show 2 ^ k ≤ 2 ^ 20 by omega)
  have hseg : zSegmentSize = 2 ^ 23 := rfl
  rw [hseg]
  exact Nat.pow_dvd_pow 2 (by omega)

/-! ## The count in the index -/

def ZIndexEntry.read (e : ZIndexEntry) : LIndex := ⟨e.typ, e.clusterofs, e.u⟩

/-- The number of blocks that `zExtentData` reads, from the entry behind the HEAD. -/
def blocksBehindHead (e : LIndex) : Nat :=
  let d0 := e.u &&& 0xffff
  if e.typ = zLclusterNonhead ∧ d0 &&& zCblkcntBit ≠ 0 then d0 - (d0 &&& zCblkcntBit) else 1

/-- The scan of `zExtentData` ends with this number: it sets the count at the entry behind the
    HEAD and keeps it from there on. -/
theorem scan_blocks {index : Int → Except ZError LIndex} {blockSize nIdx head : Int} {fuel : Nat}
    {e : LIndex} {r : ExtentScan} (he : index (head + 1) = .ok e) (hin : head + 1 < nIdx)
    (h : loop (scanStep index blockSize nIdx head) fuel ⟨head + 1, 1, 1, 0⟩ = .ok r) :
    r.blocks = blocksBehindHead e := by
  obtain ⟨s, hreach, hdone⟩ := loop_reach h
  have hinv : s.i = head + 1 ∧ s.blocks = 1 ∨ head + 1 < s.i ∧ s.blocks = blocksBehindHead e := by
    refine reach_invariant (fun s : ExtentScan => s.i = head + 1 ∧ s.blocks = 1 ∨
      head + 1 < s.i ∧ s.blocks = blocksBehindHead e) ?_ hreach (.inl ⟨rfl, rfl⟩)
    intro s s' hs hnext
    rw [scanStep] at hnext
    split at hnext
    · obtain ⟨x, hx, hnext⟩ := bind_eq_ok hnext
      split at hnext
      · cases hnext
        rcases hs with ⟨hi, hone⟩ | ⟨hi, hset⟩
        · obtain rfl : e = x := Except.ok.inj (he.symm.trans (hi ▸ hx))
          refine .inr ⟨by simp only; omega, ?_⟩
          rename_i hnon
          simp only [blocksBehindHead, hi, hone, hnon, true_and]
          split <;> rfl
        · refine .inr ⟨by simp only; omega, ?_⟩
          rw [if_neg fun hc => by omega]
          exact hset
      · split at hnext <;> cases hnext
    · cases hnext
  rw [scanStep] at hdone
  rcases hinv with ⟨hi, hone⟩ | ⟨-, hset⟩
  · -- the scan ends at once: the entry is a HEAD of its own
    rw [hi, if_pos hin, he] at hdone
    simp only [bind, Except.bind] at hdone
    split at hdone
    · cases hdone
    · rename_i hnon
      rw [blocksBehindHead, if_neg fun hc => hnon hc.1]
      split at hdone <;> cases hdone <;> exact hone
  · split at hdone
    · obtain ⟨x, -, hdone⟩ := bind_eq_ok hdone
      split at hdone
      · cases hdone
      · split at hdone <;> cases hdone <;> exact hset
    · cases hdone
      exact hset

/-- **The count is kept exactly below the flag.**  The boundary marker may only take the
    place of the count of a single block. -/
theorem blocksBehindHead_entry {ext : ZExtent} (hplain : ext.plain = false)
    (hle : ext.blocks ≤ 2048) (htwo : ext.lclusters = 2 → ext.blocks = 1) (compBase tailOfs : Nat)
    (marker : Bool) :
    blocksBehindHead (entryOf compBase tailOfs marker ext 1).read = ext.blocks ↔
      ext.blocks < 2048 := by
  unfold entryOf
  rw [hplain]
  simp only [Bool.false_eq_true, if_false]
  rw [if_neg (by decide)]
  by_cases hmark : marker = true ∧ 1 = ext.lclusters - 1
  · have hone := htwo (by omega)
    rw [if_pos hmark, hone]
    simp [blocksBehindHead, ZIndexEntry.read, LIndex.typ, zLclusterPlain, zLclusterNonhead]
  rw [if_neg hmark]
  have hcarried : carriedBlocks ext < 2048 := by
    unfold carriedBlocks
    split <;> omega
  have hlow : nonheadDelta ext 1 < 2 ^ 16 := by
    rw [nonheadDelta_one hle]
    omega
  have hbit : (2048 + carriedBlocks ext) &&& zCblkcntBit = 2048 := and_blkcnt_add hcarried
  have hval : blocksBehindHead (ZIndexEntry.read { typ := zLclusterNonhead, u := (
      nonheadDelta ext 1 ||| u32 (u32 (ext.lclusters - 1) <<< 16)) }) = carriedBlocks ext := by
    unfold blocksBehindHead ZIndexEntry.read
    dsimp only
    rw [low_nonhead hlow, nonheadDelta_one hle, hbit, if_pos
      ⟨(by decide : zLclusterNonhead &&& 3 = zLclusterNonhead), by decide⟩]
    omega
  rw [hval]
  unfold carriedBlocks
  split <;> omega

/-! ## Where extents come from -/

/-- An extent that some profile has packed a span into. -/
def Made (blockSize : Nat) (ps : ZProfiles) (ext : ZExtent) : Prop :=
  ∃ profile span blkOff, ps.Has profile ∧ PackedSpan.OK blockSize profile span ∧
    ext = newExtent blockSize blkOff span.raw span.comp

/-- The dedupe map only has extents that were made for a span. -/
def MadeStore {κ : Type} (blockSize : Nat) (ps : ZProfiles) (s : Store κ) : Prop :=
  ∀ m, s.dedupe = some m → ∀ p ∈ m, Made blockSize ps p.2

def MadeFile (blockSize : Nat) (ps : ZProfiles) (zi : ZInfo) : Prop :=
  ∀ ext ∈ zi.extents, Made blockSize ps ext

section

variable {σ κ : Type} [DecidableEq κ] {Z : ZConfig σ κ} {ps : ZProfiles} {profile : ZProfile}
variable {content : List UInt8} {store : Store κ}

omit [DecidableEq κ] in
theorem MadeStore.new (Z : ZConfig σ κ) (ps : ZProfiles) (dedupe : Bool) :
    MadeStore Z.blockSize ps (Store.new dedupe : Store κ) := by
  intro m hm p hp
  cases dedupe with
  | false => cases hm
  | true =>
    cases hm
    cases hp

theorem MadeFile.push {zi : ZInfo} {ext : ZExtent} (h : MadeFile blockSize ps zi)
    (hext : Made blockSize ps ext) :
    MadeFile blockSize ps (zi.push ext) :=
  forall_mem_append.mpr ⟨h, forall_mem_singleton.mpr hext⟩

/-- Storing a span gives an extent that was made for it, or for an earlier one. -/
theorem made_keeps (hp : ps.Has profile) :
    Keeps Z profile fun s zi => MadeStore Z.blockSize ps s ∧ MadeFile Z.blockSize ps zi := by
  rintro span hspan s zi r ⟨hs, hzi⟩ hr
  unfold Store.storeSpan Store.storeSpanKeyed at hr
  dsimp only at hr
  cases hhit : s.dedupe.bind (fun m => m.lookup (Z.sum256 span.raw)) with
  | some ext =>
    obtain ⟨m, hm, hlook⟩ := Option.bind_eq_some_iff.mp hhit
    have hmem : (Z.sum256 span.raw, ext) ∈ m := by
      obtain ⟨l₁, l₂, rfl, -⟩ := lookup_eq_some_iff.mp hlook
      simp
    simp only [hhit, Except.ok.injEq] at hr
    subst hr
    exact ⟨hs, hzi.push (hs m hm _ hmem)⟩
  | none =>
    have hmade : Made Z.blockSize ps (newExtent Z.blockSize s.compBlocks span.raw span.comp) :=
      ⟨profile, span, s.compBlocks, hp, hspan, rfl⟩
    simp only [hhit] at hr
    refine (Runs.bind (R := fun r => MadeStore Z.blockSize ps r.2 ∧ MadeFile Z.blockSize ps (zi.push r.1))
      (writeExtent_runs _ span.raw span.comp _) ?_).of_eq_ok hr
    rintro s' rfl
    refine runs_pure ⟨fun m hm p hpm => ?_, hzi.push hmade⟩
    have hm' : s.dedupe.map (fun m => (Z.sum256 span.raw,
        newExtent Z.blockSize s.compBlocks span.raw span.comp) :: m) = some m := hm
    obtain ⟨m0, hm0, rfl⟩ := Option.map_eq_some_iff.mp hm'
    rcases mem_cons.mp hpm with rfl | hold
    · exact hmade
    · exact hs m0 hm0 p hold

/-- **Every extent of a stored file was made for a span of one of the profiles**, whichever
    way the file was packed. -/
theorem compressFile_made (hP : Z.packers.Sound) (hbs : 0 < Z.blockSize)
    (hprof : profile.Accepted Z.blockSize) (hp : ps.Has profile)
    (hseg : Z.blockSize ∣ zSegmentSize) (hok : StoreOK Z store)
    (hst : MadeStore Z.blockSize ps store) {workers : Nat → PackWorker σ} {r : Store κ × ZInfo}
    (h : compressFile Z profile content workers store = .ok r) :
    StoreOK Z r.1 ∧ MadeStore Z.blockSize ps r.1 ∧ MadeFile Z.blockSize ps r.2 := by
  have hinv : MadeStore Z.blockSize ps store ∧ MadeFile Z.blockSize ps {} :=
    ⟨hst, nofun⟩
  obtain ⟨hstored, hmade⟩ := (compressFile_runs hP hbs hprof (made_keeps hp) hseg hok hinv content
    workers).of_eq_ok h
  exact ⟨hstored.ok, hmade⟩

theorem compressFiles_made (hP : Z.packers.Sound) (hbs : 0 < Z.blockSize)
    (hprof : ∀ p, ps.Has p → p.Accepted Z.blockSize) (hseg : Z.blockSize ∣ zSegmentSize)
    {jobs : List (FileJob σ)} (hjobs : ∀ job ∈ jobs, ps.Has job.profile) {s s' : Store κ}
    (hok : StoreOK Z s) (hst : MadeStore Z.blockSize ps s)
    (h : compressFiles Z s jobs = .ok s') : StoreOK Z s' ∧ MadeStore Z.blockSize ps s' := by
  induction jobs generalizing s with
  | nil =>
    obtain rfl : s = s' := Except.ok.inj h
    exact ⟨hok, hst⟩
  | cons job rest ih =>
    rw [compressFiles] at h
    have hjob := hjobs job mem_cons_self
    cases hone : compressFile Z job.profile job.content job.workers s with
    | error err =>
      rw [hone] at h
      cases h
    | ok r =>
      rw [hone] at h
      obtain ⟨hok', hst', -⟩ := compressFile_made hP hbs (hprof _ hjob) hjob hseg hok hst hone
      exact ih (fun j hj => hjobs j (mem_cons_of_mem _ hj)) hok' hst' h

end

/-! ## Sizes that keep every count -/

/-- A profile whose extents may fill pclusters of 2048 blocks. -/
def ZProfile.FillsFlag (blockSize : Nat) (p : ZProfile) : Prop :=
  p.pclusterSize = 2048 * blockSize ∧ p.pclusterSize < p.maxExtentSize

instance (blockSize : Nat) (p : ZProfile) : Decidable (p.FillsFlag blockSize) := by
  unfold ZProfile.FillsFlag
  infer_instance

/-- The encoding of a packed span within a pcluster of a profile that does not fill the flag
    leaves a block of 2048 free. -/
theorem encoding_le (hmin : minBlockSize ≤ blockSize) (hprof : profile.Accepted blockSize)
    (hfree : ¬ profile.FillsFlag blockSize) {span : PackedSpan} (hspan : span.OK blockSize profile) :
    span.comp.length ≤ 2047 * blockSize := by
  have hpc := hprof.pc_le
  have hmax : (1 <<< 20 : Nat) = 2048 * minBlockSize := rfl
  have hle := hspan.le
  obtain ⟨q, hq⟩ := hprof.pc_dvd
  rcases hspan.encodes with hnil | ⟨hcomp, hsave, -⟩
  · rw [hnil]
    exact Nat.zero_le _
  by_cases hfull : profile.pclusterSize = 2048 * blockSize
  · have hext : ¬ profile.pclusterSize < profile.maxExtentSize := fun hlt => hfree ⟨hfull, hlt⟩
    omega
  have hlt : blockSize * q < blockSize * 2048 := by omega
  have hq' : q < 2048 := Nat.lt_of_mul_lt_mul_left hlt
  have hmul : blockSize * q ≤ blockSize * 2047 := Nat.mul_le_mul_left blockSize (by omega)
  omega

theorem Made.blocks (hmin : minBlockSize ≤ blockSize) (hprof : ∀ p, ps.Has p → p.Accepted blockSize)
    {ext : ZExtent} (h : Made blockSize ps ext) (hplain : ext.plain = false) :
    ext.blocks ≤ 2048 ∧ (ext.lclusters = 2 → ext.blocks = 1) ∧
      ((∀ p, ps.Has p → ¬ p.FillsFlag blockSize) → ext.blocks < 2048) := by
  obtain ⟨profile, span, blkOff, hp, hspan, rfl⟩ := h
  have hpos : 0 < blockSize := Nat.lt_of_lt_of_le (by decide) hmin
  have hmax : (1 <<< 20 : Nat) = 2048 * minBlockSize := rfl
  have hpc := (hprof profile hp).pc_le
  by_cases hnil : span.comp = []
  · rw [newExtent, if_neg (by simp [hnil])] at hplain
    cases hplain
  rw [newExtent, if_pos hnil]
  dsimp only
  obtain ⟨hcomp, hsave, -⟩ := hspan.encodes.resolve_left hnil
  have hlen : 0 < span.comp.length := length_pos_of_ne_nil hnil
  refine ⟨?_, fun htwo => ?_, fun hfree => ?_⟩
  · rw [← Nat.lt_succ_iff, Nat.div_lt_iff_lt_mul hpos]
    omega
  · have hraw := (ceilDiv_spec hpos span.raw.length).1
    rw [htwo] at hraw
    apply Nat.le_antisymm
    · rw [← Nat.lt_succ_iff, Nat.div_lt_iff_lt_mul hpos]
      omega
    · rw [Nat.le_div_iff_mul_le hpos]
      omega
  · have hle := encoding_le hmin (hprof profile hp) (hfree profile hp) hspan
    rw [Nat.div_lt_iff_lt_mul hpos]
    omega

/-- Every compressed extent of every file that the packer stores is read with as many
    blocks as it has. -/
def BlockCountsKept (blockSize : Nat) (ps : ZProfiles) : Prop :=
  ∀ (σ κ : Type) [DecidableEq κ] (Z : ZConfig σ κ) (dedupe : Bool) (earlier : List (FileJob σ))
    (job : FileJob σ) (s s' : Store κ) (zi : ZInfo),
    Z.blockSize = blockSize → Z.packers.Sound → (∀ j ∈ job :: earlier, ps.Has j.profile) →
    compressFiles Z (Store.new dedupe) earlier = .ok s →
    compressFile Z job.profile job.content job.workers s = .ok (s', zi) →
    ∀ ext ∈ zi.extents, ext.plain = false → ∀ compBase tailOfs marker,
      blocksBehindHead (entryOf compBase tailOfs marker ext 1).read = ext.blocks

theorem block_counts_kept (hmin : minBlockSize ≤ blockSize) (hseg : blockSize ∣ zSegmentSize)
    (hprof : ∀ p, ps.Has p → p.Accepted blockSize) (hfree : ∀ p, ps.Has p → ¬ p.FillsFlag blockSize) :
    BlockCountsKept blockSize ps := by
  intro σ κ _ Z dedupe earlier job s s' zi hbs hP hjobs h0 h1 ext hext hplain compBase tailOfs marker
  subst hbs
  have hpos : 0 < Z.blockSize := Nat.lt_of_lt_of_le (by decide) hmin
  have hjob := hjobs job mem_cons_self
  obtain ⟨hok, hst⟩ := compressFiles_made hP hpos hprof hseg
    (fun j hj => hjobs j (mem_cons_of_mem _ hj)) (StoreOK.new Z dedupe)
    (MadeStore.new Z ps dedupe) h0
  have hmade := (compressFile_made hP hpos (hprof _ hjob) hjob hseg hok hst h1).2.2 ext hext
  obtain ⟨hle, htwo, hlt⟩ := hmade.blocks hmin hprof hplain
  exact (blocksBehindHead_entry hplain hle htwo compBase tailOfs marker).mpr (hlt hfree)

/-! ## A compressor that fills a pcluster -/

theorem tryCompress_literalRun {lits : Nat → Nat} {b : UInt8} {len n : Nat} (w : PackWorker Unit)
    (hpos : 0 < lits len) (hlen : lits len + 9 ≤ len)
    (hn : (literalRun b (lits len) len).encode.length = n) (hroom : n ≤ w.probe.length) :
    w.tryCompress (literalPackers lits) (replicate len b) =
      .ok (n, { w with probe := (literalRun b (lits len) len).encode ++ w.probe.drop n }) := by
  rw [PackWorker.tryCompress, literalPackers_run lits hpos hlen hn hroom]

/-! ## A window that is a block longer than a pcluster -/

/-- Only two candidates of such a window are ever tried. -/
theorem clamp_next {pc len : Nat} (hbs : 0 < blockSize) (hpc : blockSize ∣ pc) (hpos : 0 < pc)
    (hlen : len = pc + blockSize) (n : Nat) :
    clamp blockSize pc len true n = if len ≤ n then len else pc := by
  unfold clamp
  by_cases hn : len ≤ n
  · rw [if_pos ⟨hn, rfl⟩, if_pos hn]
  have hmin : min pc len = pc := by omega
  rw [if_neg (fun hc => hn hc.1), if_neg hn, if_neg hn]
  by_cases hsmall : n < pc
  · simp only [if_pos hsmall, hmin, Nat.div_mul_cancel hpc]
    exact if_pos ⟨hpos, .inr (by omega)⟩
  obtain ⟨q, rfl⟩ := hpc
  have hdiv : n / blockSize = q := by
    apply Nat.div_eq_of_lt_le
    · rw [Nat.mul_comm]
      omega
    · rw [Nat.succ_mul, Nat.mul_comm]
      omega
  simp only [if_neg hsmall, hdiv, Nat.mul_comm q]
  exact if_pos ⟨hpos, .inr (by omega)⟩

/-- A compressor that makes little of the first pcluster of the window, and fills one with
    the encoding `out` of the window. -/
structure Fills {σ : Type} (P : Packers σ) (blockSize pc : Nat) (window out : List UInt8) (n : Nat) :
    Prop where
  bs_pos : 0 < blockSize
  pc_pos : 0 < pc
  pc_dvd : blockSize ∣ pc
  length_eq : window.length = pc + blockSize
  short : ∀ w : PackWorker σ, w.probe.length = pc →
    ∃ enc probe, w.tryCompress P (window.take pc) = .ok (n, { w with enc := enc, probe := probe })
  whole : ∀ w : PackWorker σ, w.probe.length = pc →
    ∃ enc rest, w.tryCompress P window =
      .ok (out.length, { w with enc := enc, probe := out ++ rest })
  short_fits : fits blockSize pc pc n
  short_lt : n < pc * 31 / 32
  grows : window.length ≤ pc * pc * 31 / 32 / n
  whole_fits : fits blockSize pc window.length out.length

section

variable {σ : Type} {P : Packers σ} {blockSize pc n : Nat} {window out : List UInt8}
variable (h : Fills P blockSize pc window out n)

include h in
/-- Trying the whole window ends the search. -/
theorem Fills.search_whole (k : Nat) (s : Search σ) (hcand : s.cand = window.length)
    (hroom : s.worker.probe.length = pc) :
    ∃ s', search P blockSize pc window true (k + 1) s = .ok s' ∧ s'.best = window.length ∧
      s'.worker.kept.take s'.bestLen = out := by
  obtain ⟨enc, rest, htry⟩ := h.whole s.worker hroom
  refine ⟨{ s with
      best := s.cand
      bestLen := out.length
      lastCand := s.cand
      worker := ⟨enc, s.worker.kept, out ++ rest⟩ }, ?_, hcand, take_left⟩
  rw [search, hcand, take_length, htry]
  simp only [bind, Except.bind, searchNext, if_pos h.whole_fits, or_true, if_true]
  rfl

include h in
/-- **The window is packed as one span**, whatever the estimate of the first candidate. -/
theorem Fills.packSpan {w : PackWorker σ} (hprobe : w.probe.length = pc) (hkept : w.kept.length = pc)
    (hpc : profile.pclusterSize = pc) (ratio : Float) :
    ∃ c, packSpan P blockSize window profile w true ratio = .ok c ∧ c.span = window.length ∧
      c.comp = out := by
  have hclamp := clamp_next h.bs_pos h.pc_dvd h.pc_pos h.length_eq
  have hpos := h.pc_pos
  have hlen := h.length_eq
  have hfinish : ∀ (s : Search σ), s.best = window.length → s.worker.kept.take s.bestLen = out →
      ∃ c, (if s.best = 0 then lastResort P blockSize pc window true ratio s
          else pure (s.chosen ratio)) = .ok c ∧ c.span = window.length ∧ c.comp = out := by
    intro s hbest hcomp
    exact ⟨s.chosen ratio, if_neg (by omega), hbest, hcomp⟩
  unfold Orchestrator.Erofs.packSpan
  rw [hpc]
  dsimp only
  rw [hclamp]
  by_cases hfirst : window.length ≤ firstCand pc ratio
  · obtain ⟨s, hs, hbest, hcomp⟩ := h.search_whole 4 { cand := window.length, worker := w } rfl hprobe
    rw [if_pos hfirst, hs]
    exact hfinish s hbest hcomp
  -- the first pcluster shrinks a lot, and the search grows to the whole window
  have hbsp := h.bs_pos
  obtain ⟨enc, probe, htry⟩ := h.short w hprobe
  have hshort : ¬ (pc * 31 / 32 ≤ n ∨ pc = window.length) := by
    have hlt := h.short_lt
    omega
  have hgrow : grow blockSize pc window.length true pc 0 n = window.length := by
    unfold grow
    rw [if_neg (by decide), hclamp, if_pos h.grows]
  have hgo : ¬ (window.length ≤ pc ∨ (0 : Nat) ≠ 0 ∧ 0 ≤ window.length) := by omega
  obtain ⟨s, hs, hbest, hcomp⟩ := h.search_whole 3
    { cand := window.length, best := pc, bestLen := n, tooBig := 0, lastCand := pc
      worker := ⟨enc, w.kept, probe⟩ } rfl hkept
  have hsearch : search P blockSize pc window true 5 { cand := pc, worker := w } = .ok s := by
    rw [search, htry]
    simp only [bind, Except.bind, searchNext, if_pos h.short_fits, if_neg hshort, hgrow,
      if_neg hgo]
    exact hs
  rw [if_neg hfirst, hsearch]
  exact hfinish s hbest hcomp

end

/-! ## A span of 2048 blocks -/

/-- Bytes of a span that is one block longer than the largest pcluster. -/
def fullLen : Nat := 2049 * 512

/-- Short encodings, but for a span of that length. -/
def fullLits (len : Nat) : Nat := if len = fullLen then 1044000 else 1

def fullBlock : List UInt8 := (literalRun 0 1044000 fullLen).encode

theorem length_fullBlock : fullBlock.length = 1048124 := by
  have hlits : (Lz4.lenBytes 1044000).length = 4095 := length_lenBytes (by decide)
  have hmatch : (Lz4.lenBytes (fullLen - 1044000 - 5 - Lz4.minMatch)).length = 20 :=
    length_lenBytes (by decide)
  rw [fullBlock, length_literalRun, hlits, hmatch]

theorem length_shortBlock : (literalRun 0 1 1048576).encode.length = 4122 := by
  have hone : (Lz4.lenBytes 1).length = 0 := by decide
  have hmatch : (Lz4.lenBytes (1048576 - 1 - 5 - Lz4.minMatch)).length = 4112 :=
    length_lenBytes (by decide)
  rw [length_literalRun, hone, hmatch]

theorem fills_full :
    Fills (literalPackers fullLits) 512 1048576 (replicate fullLen 0) fullBlock 4122 := by
  have hfull : fullLits fullLen = 1044000 := if_pos rfl
  have hone : fullLits 1048576 = 1 := if_neg (by decide)
  have hlen : fullLen = 1049088 := rfl
  constructor
  · decide
  · decide
  · decide
  · rw [length_replicate]
    exact hlen
  · intro w hw
    have hmin : min 1048576 fullLen = 1048576 := by decide
    have hn : (literalRun 0 (fullLits 1048576) 1048576).encode.length = 4122 := by
      rw [hone]
      exact length_shortBlock
    rw [take_replicate, hmin]
    exact ⟨w.enc, _, tryCompress_literalRun w (by omega) (by omega) hn (by omega)⟩
  · intro w hw
    have hn : (literalRun 0 (fullLits fullLen) fullLen).encode.length = fullBlock.length := by
      rw [hfull]
      rfl
    have htry := tryCompress_literalRun w (by omega) (by omega) hn
      (by rw [length_fullBlock]; omega)
    rw [hfull] at htry
    exact ⟨w.enc, _, htry⟩
  · decide
  · decide
  · rw [length_replicate]
    decide
  · rw [length_replicate, length_fullBlock]
    decide

def fullConfig : ZConfig Unit (List UInt8) :=
  { blockSize := 512, packers := literalPackers fullLits, workers := 1, sum256 := id
    writeFails := fun _ => false }

def fullWorkers : Nat → PackWorker Unit := fun _ =>
  ⟨(), replicate 1048576 0, replicate 1048576 0⟩

def fullInfo : ZInfo := { extents := [⟨2049, 2048, 0, false⟩], totalBlocks := 2048 }

theorem compressFile_full (hpc : profile.pclusterSize = 1048576)
    (hext : fullLen ≤ profile.maxExtentSize) :
    ∃ s, compressFile fullConfig profile (replicate fullLen 0) fullWorkers (Store.new false) =
      .ok (s, fullInfo) := by
  have hlen : fullLen = 1049088 := rfl
  have hsize : zSegmentSize = 8388608 := rfl
  obtain ⟨c, hc, hspan, hcomp⟩ := fills_full.packSpan (w := fullWorkers 0)
    length_replicate length_replicate hpc 0.5
  have hne : replicate fullLen (0 : UInt8) ≠ [] :=
    ne_nil_of_length_pos (by rw [length_replicate]; omega)
  have hpack := packBuffer_whole hne (by rw [length_replicate]; exact hext) hc hspan rfl
  rw [hcomp] at hpack
  have hblock : fullBlock ≠ [] := ne_nil_of_length_pos (by rw [length_fullBlock]; decide)
  have hnew : newExtent 512 0 (replicate fullLen 0) fullBlock = ⟨2049, 2048, 0, false⟩ := by
    rw [newExtent, if_pos hblock, length_fullBlock, length_replicate]
    rfl
  have hstore := storeSpan_fresh (Z := fullConfig) (s := Store.new false) (fun _ => rfl)
    (show _ = none from rfl) hnew
  have hsmall : (replicate fullLen (0 : UInt8)).length < 2 * zSegmentSize := by
    rw [length_replicate]
    omega
  rw [compressFile_buffer (Z := fullConfig) (Store.new false) hsmall hpack, storeSpans, hstore]
  exact ⟨_, rfl⟩

theorem fullInfo_read (compBase tailOfs : Nat) :
    blocksBehindHead (entryOf compBase tailOfs false ⟨2049, 2048, 0, false⟩ 1).read ≠ 2048 := by
  intro hkept
  have hplain : (⟨2049, 2048, 0, false⟩ : ZExtent).plain = false := rfl
  have hlt := (blocksBehindHead_entry hplain (Nat.le_refl 2048) nofun
    compBase tailOfs false).mp hkept
  exact Nat.lt_irrefl 2048 hlt

theorem FillsFlag.not_kept (hmin : minBlockSize ≤ blockSize) (hp : ps.Has profile)
    (hprof : profile.Accepted blockSize) (hfill : profile.FillsFlag blockSize) :
    ¬ BlockCountsKept blockSize ps := by
  obtain ⟨hpc, hext⟩ := hfill
  have hpcmax := hprof.pc_le
  have hmax : (1 <<< 20 : Nat) = 2048 * minBlockSize := rfl
  have h512 : minBlockSize = 512 := rfl
  obtain rfl : blockSize = 512 := by omega
  have hroom : fullLen ≤ profile.maxExtentSize := by
    have hlen : fullLen = 1049088 := rfl
    obtain ⟨q, hq⟩ := hprof.ext_dvd
    omega
  intro hkept
  obtain ⟨s, hs⟩ := compressFile_full (by omega) hroom
  have hread := hkept Unit (List UInt8) fullConfig false []
    ⟨profile, replicate fullLen 0, fullWorkers⟩ (Store.new false) s fullInfo rfl
    (literalPackers_sound fullLits) (fun j hj => by rw [mem_singleton.mp hj]; exact hp) rfl hs
    ⟨2049, 2048, 0, false⟩ (mem_singleton_self _) rfl 0 0 false
  exact fullInfo_read 0 0 hread

/-- **Every block count reaches the reader exactly when neither profile can fill 2048
    blocks**: pclusters have fewer, or an extent is no longer than a pcluster. -/
theorem block_counts_kept_iff {cur blockSize r : Nat} (hbs : setBlockSize cur blockSize = .ok r)
    {opts : CompressionOptions} {ps : ZProfiles} (hz : newZState opts blockSize = .ok ps) :
    BlockCountsKept blockSize ps ↔
      ¬ ps.data.FillsFlag blockSize ∧ ¬ ps.packed.FillsFlag blockSize := by
  obtain ⟨hmin, hseg⟩ := setBlockSize_ok hbs
  have hprof : ∀ p, ps.Has p → p.Accepted blockSize := fun p hp => newZState_accepted hz hp
  constructor
  · intro hkept
    exact ⟨fun hfill => FillsFlag.not_kept hmin (.inl rfl) (hprof _ (.inl rfl)) hfill hkept,
      fun hfill => FillsFlag.not_kept hmin (.inr rfl) (hprof _ (.inr rfl)) hfill hkept⟩
  · rintro ⟨hdata, hpacked⟩
    apply block_counts_kept hmin hseg hprof
    rintro p (rfl | rfl)
    · exact hdata
    · exact hpacked

/-- The default sizes keep every count, at the default block size. -/
theorem block_counts_kept_defaults :
    setBlockSize 0 4096 = .ok 4096 ∧
      newZState {} 4096 = .ok ⟨⟨65536, 4194304⟩, ⟨65536, 4194304⟩⟩ ∧
      BlockCountsKept 4096 ⟨⟨65536, 4194304⟩, ⟨65536, 4194304⟩⟩ := by
  have hbs : setBlockSize 0 4096 = .ok 4096 := by decide
  have hz : newZState {} 4096 = .ok ⟨⟨65536, 4194304⟩, ⟨65536, 4194304⟩⟩ := by rfl
  exact ⟨hbs, hz, (block_counts_kept_iff hbs hz).mpr (by decide)⟩

/-- Blocks of 512 bytes and pclusters of 1 MiB are accepted; an extent that fills one is
    read with no block at all. -/
theorem full_pcluster_count_lost :
    setBlockSize 0 512 = .ok 512 ∧
      newZState { pclusterSize := 1048576 } 512 =
        .ok ⟨⟨1048576, 4194304⟩, ⟨1048576, 4194304⟩⟩ ∧
      (literalPackers fullLits).Sound ∧
      ∃ s, compressFile fullConfig ⟨1048576, 4194304⟩ (replicate fullLen 0) fullWorkers
          (Store.new false) = .ok (s, { extents := [⟨2049, 2048, 0, false⟩], totalBlocks := 2048 }) ∧
        blocksBehindHead (entryOf 1 0 false ⟨2049, 2048, 0, false⟩ 1).read = 0 := by
  refine ⟨by decide, by rfl, literalPackers_sound fullLits, ?_⟩
  have hsize : (⟨1048576, 4194304⟩ : ZProfile).pclusterSize = 1048576 := rfl
  obtain ⟨s, hs⟩ := compressFile_full hsize (by decide)
  exact ⟨s, hs, by decide⟩

end Orchestrator.Erofs

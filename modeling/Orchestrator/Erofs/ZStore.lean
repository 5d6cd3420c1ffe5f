/-
  Orchestrator.Erofs.ZStore

  Storing packed spans: `storeSpanKeyed` with its spool and dedupe map, and the three
  ways a file comes to be stored (`packBuffer` with its collector, the serial
  `compressStream`, and `compressParallel`, which packs segments on workers and
  stores them in order).

  The spool only grows, so a stored span stays where it is.  Block offsets are
  32 bits wide in the extents, while the spool is not bounded: `StoredAt` keeps the
  true offset beside the one in the extent, and it is the reader's business whether
  both are the same.

  `compressFile_runs` is the result: the extents of a stored file stand for spans that cut
  its content up.
-/

import Orchestrator.Erofs.ZSpans
import Orchestrator.Erofs.ZCompactIndex
import Mathlib.Data.List.Forall2

namespace Orchestrator.Erofs

open Lib Lib.Exec List

/-! ## The store -/

/-- The part of `zState` that stored spans change. -/
structure Store (κ : Type) where
  /-- Blocks in the spool; a `uint32` in the source. -/
  compBlocks : Nat := 0
  compSpool : List UInt8 := []
  writes : Nat := 0
  dedupe : Option (List (κ × ZExtent)) := none
  /-- The spans the store was given, which statements about collisions range over; the
      source only counts them (`ExtentReferences`). -/
  given : List (List UInt8) := []

/-- The part of `zState` that stays fixed: block size, compressors, number of workers,
    the hash, and which writes to the spool fail. -/
structure ZConfig (σ κ : Type) where
  blockSize : Nat
  packers : Packers σ
  workers : Nat
  sum256 : List UInt8 → κ
  writeFails : Nat → Bool

def Store.new {κ : Type} (dedupe : Bool) : Store κ :=
  { dedupe := if dedupe then some [] else none }

section

variable {σ κ : Type} [DecidableEq κ] (Z : ZConfig σ κ)

def Store.write (p : List UInt8) (s : Store κ) : Except PackError (Store κ) :=
  if Z.writeFails s.writes then .error .spoolWrite
  else .ok { s with compSpool := s.compSpool ++ p, writes := s.writes + 1 }

/-- `writeSpoolBlocks`, with the two parts that every caller gives it. -/
def Store.writeSpoolBlocks (p q : List UInt8) (s : Store κ) : Except PackError (Store κ) := do
  let s ← s.write Z p
  s.write Z q

/-- The extent of a span that is not in the store yet. -/
def newExtent (blockSize compBlocks : Nat) (span comp : List UInt8) : ZExtent :=
  let lclusters := (span.length + blockSize - 1) / blockSize
  if comp ≠ [] then
    { lclusters := lclusters, blocks := (comp.length + blockSize - 1) / blockSize
      blkOff := compBlocks, plain := false }
  else { lclusters := lclusters, blocks := lclusters, blkOff := compBlocks, plain := true }

/-- The blocks of an extent: an encoding is right-aligned in them, raw data left-aligned. -/
def Store.writeExtent (ext : ZExtent) (span comp : List UInt8) (s : Store κ) :
    Except PackError (Store κ) :=
  if comp ≠ [] then
    s.writeSpoolBlocks Z (replicate (ext.blocks * Z.blockSize - comp.length) 0) comp
  else s.writeSpoolBlocks Z span (replicate (ext.blocks * Z.blockSize - span.length) 0)

def Store.storeSpanKeyed (span comp : List UInt8) (key : κ) (s : Store κ) :
    Except PackError (ZExtent × Store κ) :=
  let s := { s with given := s.given ++ [span] }
  match s.dedupe.bind fun m => m.lookup key with
  | some ext => .ok (ext, s)
  | none => do
    let ext := newExtent Z.blockSize s.compBlocks span comp
    let s ← s.writeExtent Z ext span comp
    return (ext, { s with
      compBlocks := u32 (s.compBlocks + u32 ext.blocks)
      dedupe := s.dedupe.map fun m => (key, ext) :: m })

/-- `storeSpan`.  Without dedupe the key is not looked at. -/
def Store.storeSpan (span comp : List UInt8) (s : Store κ) :
    Except PackError (ZExtent × Store κ) :=
  s.storeSpanKeyed Z span comp (Z.sum256 span)

def ZInfo.push (zi : ZInfo) (ext : ZExtent) : ZInfo :=
  { zi with
    extents := zi.extents ++ [ext]
    totalBlocks := u32 (zi.totalBlocks + u32 ext.blocks) }

/-- Store the spans of a file in order, as the collectors do. -/
def storeSpans (s : Store κ) (zi : ZInfo) : List PackedSpan → Except PackError (Store κ × ZInfo)
  | [] => .ok (s, zi)
  | ps :: rest => do
    let (ext, s) ← s.storeSpan Z ps.raw ps.comp
    storeSpans s (zi.push ext) rest

/-! ## Compressing a file -/

/-- `io.ReadFull`: `n` bytes off the source. -/
def readFull (n : Nat) (r : List UInt8) : Except PackError (List UInt8 × List UInt8) :=
  if r.length < n then .error .unexpectedEOF else .ok (r.take n, r.drop n)

structure Streaming (σ κ : Type) where
  window : List UInt8 := []
  remaining : Nat
  source : List UInt8
  ratio : Float := 0.5
  worker : PackWorker σ
  store : Store κ
  info : ZInfo := {}

/-- Refill the window up to the limit of an extent. -/
def Streaming.refill (maxExtentSize : Nat) (s : Streaming σ κ) :
    Except PackError (Streaming σ κ) :=
  let want := min maxExtentSize (s.window.length + s.remaining)
  if s.window.length < want then do
    let (bytes, source) ← readFull (want - s.window.length) s.source
    return { s with
      window := s.window ++ bytes
      remaining := s.remaining - (want - s.window.length)
      source := source }
  else .ok s

def streamStep (profile : ZProfile) (s : Streaming σ κ) :
    Except PackError (Step (Streaming σ κ) (Streaming σ κ)) :=
  if s.remaining = 0 ∧ s.window = [] then .ok (.done s)
  else do
    let s ← s.refill profile.maxExtentSize
    let final := decide (s.remaining = 0)
    let c ← packSpan Z.packers Z.blockSize s.window profile s.worker final s.ratio
    let (comp, worker) ← refineSpan Z.packers Z.blockSize (s.window.take c.span) c.comp c.worker
    let (ext, store) ← s.store.storeSpan Z (s.window.take c.span) comp
    return .next { s with
      window := s.window.drop c.span, ratio := c.ratio, worker := worker, store := store
      info := s.info.push ext }

def compressSerial (profile : ZProfile) (source : List UInt8) (size : Nat) (worker : PackWorker σ)
    (store : Store κ) : Except PackError (Store κ × ZInfo) := do
  let s ← loop (streamStep Z profile) (size + 1)
    { remaining := size, source := source, worker := worker, store := store }
  return (s.store, s.info)

def zSegmentSize : Nat := 8 <<< 20

theorem zSegmentSize_pos : 0 < zSegmentSize := by
  have hsize : zSegmentSize = 8388608 := rfl
  omega

/-- One segment of `compressParallel`: read, packed on a worker, stored in order. -/
def segmentStep (profile : ZProfile) (size : Nat) (workers : Nat → PackWorker σ)
    (s : List UInt8 × Store κ × ZInfo) (idx : Nat) :
    Except PackError (List UInt8 × Store κ × ZInfo) := do
  let segments := (size + zSegmentSize - 1) / zSegmentSize
  let (buf, source) ← readFull (min zSegmentSize (size - idx * zSegmentSize)) s.1
  let p ← packWindow Z.packers Z.blockSize profile (idx + 1 = segments) buf (workers idx)
  let (store, info) ← storeSpans Z s.2.1 s.2.2 p.spans
  return (source, store, info)

/-- `compressParallel`; segment `idx` is packed on the worker `workers idx`. -/
def compressParallel (profile : ZProfile) (source : List UInt8) (size : Nat)
    (workers : Nat → PackWorker σ) (store : Store κ) : Except PackError (Store κ × ZInfo) := do
  let segments := (size + zSegmentSize - 1) / zSegmentSize
  let s ← (range segments).foldlM (segmentStep Z profile size workers) (source, store, {})
  return s.2

def compressStream (profile : ZProfile) (source : List UInt8) (size : Nat)
    (workers : Nat → PackWorker σ) (store : Store κ) : Except PackError (Store κ × ZInfo) :=
  if 2 * zSegmentSize ≤ size ∧ 1 < Z.workers then
    compressParallel Z profile source size workers store
  else compressSerial Z profile source size (workers 0) store

/-- How the loop of `compressAll` stores a regular file: a large one as a stream, any
    other from a buffer that a worker packs and the collector stores. -/
def compressFile (profile : ZProfile) (content : List UInt8) (workers : Nat → PackWorker σ)
    (store : Store κ) : Except PackError (Store κ × ZInfo) :=
  if 2 * zSegmentSize ≤ content.length then
    compressStream Z profile content content.length workers store
  else do
    let spans ← packBuffer Z.packers Z.blockSize profile content (workers 0)
    storeSpans Z store {} spans

end

/-! ## What is stored where -/

theorem ceilDiv_spec {bs : Nat} (h : 0 < bs) (n : Nat) :
    n ≤ (n + bs - 1) / bs * bs ∧ (n + bs - 1) / bs * bs < n + bs := by
  have hmod := Nat.div_add_mod (n + bs - 1) bs
  have hlt := Nat.mod_lt (n + bs - 1) h
  rw [Nat.mul_comm] at hmod
  omega

theorem ceilDiv_mul {bs : Nat} (h : 0 < bs) (q : Nat) : (bs * q + bs - 1) / bs = q := by
  rw [Nat.add_sub_assoc h, Nat.mul_add_div h, Nat.div_eq_of_lt (by omega), Nat.add_zero]

theorem mul_lt_of_lt_ceilDiv {bs len idx : Nat} (hbs : 0 < bs) (h : idx < (len + bs - 1) / bs) :
    idx * bs < len := by
  have hceil := ceilDiv_spec hbs len
  have hin := Nat.mul_le_mul_right bs h
  rw [Nat.succ_mul] at hin
  omega

structure PackedSpan.Storable (blockSize : Nat) (ps : PackedSpan) : Prop where
  pos : 0 < ps.raw.length
  le : ps.raw.length ≤ zFormatMaxExtentSize
  encodes : Encodes blockSize (1 <<< 20) ps.raw ps.comp

variable {blockSize : Nat}

theorem PackedSpan.OK.storable {profile : ZProfile} {ps : PackedSpan} (h : ps.OK blockSize profile)
    (hprof : profile.Accepted blockSize) : ps.Storable blockSize := by
  refine ⟨h.pos, Nat.le_trans h.le hprof.ext_le, ?_⟩
  rcases h.encodes with hnil | ⟨hpc, hsave, hdec⟩
  · exact .inl hnil
  · exact .inr ⟨Nat.le_trans hpc hprof.pc_le, hsave, hdec⟩

/-- `ext` stands for `raw`, which is at block `b` of the spool; `blkOff` holds the low
    32 bits of `b`. -/
structure StoredAt (blockSize : Nat) (spool : List UInt8) (b : Nat) (ext : ZExtent)
    (raw : List UInt8) : Prop where
  blkOff_eq : ext.blkOff = u32 b
  lclusters_eq : ext.lclusters = (raw.length + blockSize - 1) / blockSize
  raw_pos : 0 < raw.length
  raw_le : raw.length ≤ zFormatMaxExtentSize
  inside : (b + ext.blocks) * blockSize ≤ spool.length
  data : (ext.plain = true ∧ ext.blocks = ext.lclusters ∧
      (spool.drop (b * blockSize)).take raw.length = raw) ∨
    (ext.plain = false ∧ ∃ comp, comp ≠ [] ∧ Lz4.decodeBlock comp = some raw ∧
      comp.length ≤ 1 <<< 20 ∧ comp.length + blockSize ≤ raw.length ∧
      ext.blocks = (comp.length + blockSize - 1) / blockSize ∧
      (spool.drop (b * blockSize)).take (ext.blocks * blockSize) =
        replicate (ext.blocks * blockSize - comp.length) 0 ++ comp)

/-- `ext` stands for `raw` somewhere in the spool. -/
def Stored (blockSize : Nat) (spool : List UInt8) (ext : ZExtent) (raw : List UInt8) : Prop :=
  ∃ b, StoredAt blockSize spool b ext raw

theorem StoredAt.append {spool raw : List UInt8} {b : Nat} {ext : ZExtent}
    (h : StoredAt blockSize spool b ext raw) (hbs : 0 < blockSize) (more : List UInt8) :
    StoredAt blockSize (spool ++ more) b ext raw := by
  have hin := h.inside
  rw [Nat.add_mul] at hin
  have hkeep : ∀ n, n ≤ ext.blocks * blockSize →
      ((spool ++ more).drop (b * blockSize)).take n = (spool.drop (b * blockSize)).take n := by
    intro n hn
    rw [drop_append_of_le_length (by omega), take_append_of_le_length
      (by rw [length_drop]; omega)]
  refine ⟨h.blkOff_eq, h.lclusters_eq, h.raw_pos, h.raw_le, ?_, ?_⟩
  · rw [length_append, Nat.add_mul]
    omega
  · rcases h.data with ⟨hplain, hblocks, hraw⟩ | ⟨hplain, comp, hne, hdec, hle, hsave, hblocks, hcomp⟩
    · left
      refine ⟨hplain, hblocks, ?_⟩
      have hceil := (ceilDiv_spec hbs raw.length).1
      rw [hkeep raw.length (by rw [hblocks, h.lclusters_eq]; exact hceil)]
      exact hraw
    · right
      refine ⟨hplain, comp, hne, hdec, hle, hsave, hblocks, ?_⟩
      rw [hkeep _ (Nat.le_refl _)]
      exact hcomp

section

variable {σ κ : Type} {Z : ZConfig σ κ}

/-- The hash tells the given spans apart. -/
def NoCollision (Z : ZConfig σ κ) (spans : List (List UInt8)) : Prop :=
  ∀ a ∈ spans, ∀ b ∈ spans, Z.sum256 a = Z.sum256 b → a = b

/-- The spool is a whole number of blocks, and the dedupe map only has extents that
    stand for spans with that hash. -/
structure StoreOK (Z : ZConfig σ κ) (s : Store κ) : Prop where
  blocks : ∃ b, s.compSpool.length = b * Z.blockSize ∧ s.compBlocks = u32 b
  dedupe : ∀ m, s.dedupe = some m → ∀ key ext, (key, ext) ∈ m →
    ∃ raw ∈ s.given, Z.sum256 raw = key ∧ Stored Z.blockSize s.compSpool ext raw

theorem StoreOK.new (Z : ZConfig σ κ) (dedupe : Bool) : StoreOK Z (Store.new dedupe) := by
  refine ⟨⟨0, by simp [Store.new], rfl⟩, ?_⟩
  intro m hm key ext hmem
  cases dedupe with
  | false => simp [Store.new] at hm
  | true =>
    have hnil : m = [] := by simpa [Store.new] using hm.symm
    rw [hnil] at hmem
    cases hmem

structure Grows (s s' : Store κ) : Prop where
  spool : ∃ more, s'.compSpool = s.compSpool ++ more
  given : ∃ more, s'.given = s.given ++ more

theorem Grows.refl (s : Store κ) : Grows s s := ⟨⟨[], by simp⟩, ⟨[], by simp⟩⟩

variable {s : Store κ}

theorem Grows.trans {t u : Store κ} (h : Grows s t) (h' : Grows t u) : Grows s u := by
  obtain ⟨⟨a, ha⟩, b, hb⟩ := h
  obtain ⟨⟨c, hc⟩, d, hd⟩ := h'
  exact ⟨⟨a ++ c, by rw [hc, ha, append_assoc]⟩, ⟨b ++ d, by rw [hd, hb, append_assoc]⟩⟩

variable {s' : Store κ}

theorem Grows.noCollision (h : Grows s s') (hno : NoCollision Z s'.given) :
    NoCollision Z s.given := by
  obtain ⟨more, hmore⟩ := h.given
  rw [hmore] at hno
  intro a ha b hb
  exact hno a (mem_append_left _ ha) b (mem_append_left _ hb)

theorem Grows.stored (h : Grows s s') (hbs : 0 < blockSize) {ext : ZExtent} {raw : List UInt8}
    (hst : Stored blockSize s.compSpool ext raw) :
    Stored blockSize s'.compSpool ext raw := by
  obtain ⟨more, hmore⟩ := h.spool
  obtain ⟨b, hb⟩ := hst
  rw [hmore]
  exact ⟨b, hb.append hbs more⟩

/-! ## Storing a span -/

theorem writeSpoolBlocks_runs (p q : List UInt8) (s : Store κ) :
    Runs PackError.External (s.writeSpoolBlocks Z p q) fun s' =>
      s' = { s with compSpool := s.compSpool ++ (p ++ q), writes := s.writes + 2 } := by
  have hwrite : ∀ (p : List UInt8) (s : Store κ), Runs PackError.External (s.write Z p) fun s' =>
      s' = { s with compSpool := s.compSpool ++ p, writes := s.writes + 1 } := by
    intro p s
    rw [Store.write]
    split
    · exact runs_error (by simp [PackError.External])
    · exact runs_ok rfl
  rw [Store.writeSpoolBlocks]
  apply Runs.bind (hwrite p s)
  rintro s' rfl
  apply (hwrite q _).mono
  rintro s'' rfl
  rw [append_assoc]

/-- The bytes that `writeExtent` puts into the spool. -/
def extentBytes (blockSize : Nat) (ext : ZExtent) (span comp : List UInt8) : List UInt8 :=
  if comp ≠ [] then replicate (ext.blocks * blockSize - comp.length) 0 ++ comp
  else span ++ replicate (ext.blocks * blockSize - span.length) 0

theorem writeExtent_runs (ext : ZExtent) (span comp : List UInt8) (s : Store κ) :
    Runs PackError.External (s.writeExtent Z ext span comp) fun s' =>
      s' = { s with
        compSpool := s.compSpool ++ extentBytes Z.blockSize ext span comp
        writes := s.writes + 2 } := by
  rw [Store.writeExtent, extentBytes]
  split
  · exact writeSpoolBlocks_runs _ _ s
  · exact writeSpoolBlocks_runs _ _ s

variable {ps : PackedSpan}

/-- A new extent takes a whole number of blocks and stands for its span. -/
theorem newExtent_stored {b : Nat} (hbs : 0 < blockSize) {spool : List UInt8}
    (hspool : spool.length = b * blockSize) (hps : ps.Storable blockSize) {ext : ZExtent}
    (hext : ext = newExtent blockSize (u32 b) ps.raw ps.comp) :
    (extentBytes blockSize ext ps.raw ps.comp).length = ext.blocks * blockSize ∧
      StoredAt blockSize (spool ++ extentBytes blockSize ext ps.raw ps.comp) b ext ps.raw := by
  have hdrop : (spool ++ extentBytes blockSize ext ps.raw ps.comp).drop (b * blockSize) =
      extentBytes blockSize ext ps.raw ps.comp := by
    rw [← hspool, drop_left]
  by_cases hnil : ps.comp = []
  · -- raw
    have hceil := (ceilDiv_spec hbs ps.raw.length).1
    have hval : ext = ⟨(ps.raw.length + blockSize - 1) / blockSize,
        (ps.raw.length + blockSize - 1) / blockSize, u32 b, true⟩ := by
      rw [hext, newExtent, if_neg (by simp [hnil])]
    have hbytes : extentBytes blockSize ext ps.raw ps.comp =
        ps.raw ++ replicate (ext.blocks * blockSize - ps.raw.length) 0 := by
      rw [extentBytes, if_neg (by simp [hnil])]
    have hlen : (extentBytes blockSize ext ps.raw ps.comp).length = ext.blocks * blockSize := by
      rw [hbytes, length_append, length_replicate, hval]
      simp only
      omega
    refine ⟨hlen, ⟨by rw [hval], by rw [hval], hps.pos, hps.le, ?_, .inl ⟨by rw [hval], by rw [hval], ?_⟩⟩⟩
    · rw [length_append, hlen, Nat.add_mul]
      omega
    · rw [hdrop, hbytes, take_left]
  · -- an encoding, right-aligned
    have hceil := (ceilDiv_spec hbs ps.comp.length).1
    have hval : ext = ⟨(ps.raw.length + blockSize - 1) / blockSize,
        (ps.comp.length + blockSize - 1) / blockSize, u32 b, false⟩ := by
      rw [hext, newExtent, if_pos hnil]
    have hbytes : extentBytes blockSize ext ps.raw ps.comp =
        replicate (ext.blocks * blockSize - ps.comp.length) 0 ++ ps.comp := by
      rw [extentBytes, if_pos hnil]
    have hlen : (extentBytes blockSize ext ps.raw ps.comp).length = ext.blocks * blockSize := by
      rw [hbytes, length_append, length_replicate, hval]
      simp only
      omega
    obtain ⟨hle, hsave, hdec⟩ := hps.encodes.resolve_left hnil
    refine ⟨hlen, ⟨by rw [hval], by rw [hval], hps.pos, hps.le, ?_, .inr ⟨by rw [hval], ps.comp, hnil,
      hdec, hle, hsave, by rw [hval], ?_⟩⟩⟩
    · rw [length_append, hlen, Nat.add_mul]
      omega
    · rw [hdrop, take_of_length_le (Nat.le_of_eq hlen), hbytes]

structure StoredSpan (Z : ZConfig σ κ) (s : Store κ) (raw : List UInt8) (r : ZExtent × Store κ) :
    Prop where
  ok : StoreOK Z r.2
  grows : Grows s r.2
  stored : NoCollision Z r.2.given → Stored Z.blockSize r.2.compSpool r.1 raw

structure FileStored (Z : ZConfig σ κ) (s : Store κ) (zi : ZInfo) (spans : List PackedSpan) :
    Prop where
  whole : zi.wholeFragment = false
  extents : NoCollision Z s.given →
    List.Forall₂ (fun ext ps => Stored Z.blockSize s.compSpool ext ps.raw) zi.extents spans

theorem FileStored.start (Z : ZConfig σ κ) (s : Store κ) : FileStored Z s {} [] :=
  ⟨rfl, fun _ => .nil⟩

variable {zi : ZInfo} {spans : List PackedSpan}

theorem FileStored.grows (h : FileStored Z s zi spans) (hbs : 0 < Z.blockSize) (hg : Grows s s') :
    FileStored Z s' zi spans := by
  refine ⟨h.whole, fun hno => ?_⟩
  apply (h.extents (hg.noCollision hno)).imp
  intro ext ps hst
  exact hg.stored hbs hst

theorem FileStored.push {r : ZExtent × Store κ} (h : FileStored Z s zi spans)
    (hbs : 0 < Z.blockSize) (hr : StoredSpan Z s ps.raw r) :
    FileStored Z r.2 (zi.push r.1) (spans ++ [ps]) := by
  refine ⟨h.whole, fun hno => ?_⟩
  exact rel_append ((h.grows hbs hr.grows).extents hno) (.cons (hr.stored hno) .nil)

variable [DecidableEq κ]

/-- **Storing a span**: the extent that is returned stands for it, a new one as well as
    one that the dedupe map had. -/
theorem storeSpan_runs (hbs : 0 < Z.blockSize) (hs : StoreOK Z s) (hps : ps.Storable Z.blockSize) :
    Runs PackError.External (s.storeSpan Z ps.raw ps.comp) (StoredSpan Z s ps.raw) := by
  rw [Store.storeSpan, Store.storeSpanKeyed]
  simp only
  cases hhit : s.dedupe.bind (fun m => m.lookup (Z.sum256 ps.raw)) with
  | some ext =>
    -- the span, or one with its hash, was stored before
    obtain ⟨m, hm, hlook⟩ := Option.bind_eq_some_iff.mp hhit
    have hmem : (Z.sum256 ps.raw, ext) ∈ m := by
      obtain ⟨l₁, l₂, rfl, -⟩ := lookup_eq_some_iff.mp hlook
      simp
    obtain ⟨raw, hraw, hkey, hst⟩ := hs.dedupe m hm _ _ hmem
    refine runs_ok ⟨⟨hs.blocks, ?_⟩, ⟨⟨[], by simp⟩, ⟨[ps.raw], rfl⟩⟩, ?_⟩
    · intro m' hm' key ext' hmem'
      obtain ⟨raw', hraw', hkey', hst'⟩ := hs.dedupe m' hm' key ext' hmem'
      exact ⟨raw', mem_append_left _ hraw', hkey', hst'⟩
    · intro hno
      have heq : raw = ps.raw := hno raw (mem_append_left _ hraw) ps.raw
        (mem_append_right _ (mem_singleton.mpr rfl)) hkey
      rw [← heq]
      exact hst
  | none =>
    obtain ⟨b, hlen, hblk⟩ := hs.blocks
    generalize hext : newExtent Z.blockSize s.compBlocks ps.raw ps.comp = ext
    rw [hblk] at hext
    obtain ⟨hbytes, hat⟩ := newExtent_stored hbs hlen hps hext.symm
    apply Runs.bind (writeExtent_runs ext ps.raw ps.comp _)
    rintro s' rfl
    have hgrow : Grows s { s with
        compSpool := s.compSpool ++ extentBytes Z.blockSize ext ps.raw ps.comp
        given := s.given ++ [ps.raw] } := ⟨⟨_, rfl⟩, ⟨_, rfl⟩⟩
    refine runs_pure ⟨⟨⟨b + ext.blocks, ?_, ?_⟩, ?_⟩, ⟨⟨_, rfl⟩, ⟨_, rfl⟩⟩, fun _ => ⟨b, hat⟩⟩
    · show (s.compSpool ++ extentBytes Z.blockSize ext ps.raw ps.comp).length = _
      rw [length_append, hlen, hbytes, Nat.add_mul]
    · show u32 (s.compBlocks + u32 ext.blocks) = u32 (b + ext.blocks)
      rw [hblk, u32_add_u32, u32_u32_add]
    · intro m hm key ext' hmem
      have hm' : s.dedupe.map (fun m => (Z.sum256 ps.raw, ext) :: m) = some m := hm
      obtain ⟨m0, hm0, rfl⟩ := Option.map_eq_some_iff.mp hm'
      rcases mem_cons.mp hmem with hnew | hold
      · cases hnew
        exact ⟨ps.raw, mem_append_right _ (mem_singleton.mpr rfl), rfl, b, hat⟩
      · obtain ⟨raw, hraw, hkey, hst⟩ := hs.dedupe m0 hm0 key ext' hold
        exact ⟨raw, mem_append_left _ hraw, hkey, hgrow.stored hbs hst⟩

/-! ## Storing the spans of a file -/

/-- `I` of a store and a file survives every span that is packed for the profile. -/
def Keeps (Z : ZConfig σ κ) (profile : ZProfile) (I : Store κ → ZInfo → Prop) : Prop :=
  ∀ ps, PackedSpan.OK Z.blockSize profile ps → ∀ s zi r, I s zi →
    s.storeSpan Z ps.raw ps.comp = .ok r → I r.2 (zi.push r.1)

variable {profile : ZProfile} {I : Store κ → ZInfo → Prop}

theorem storeSpans_runs (hbs : 0 < Z.blockSize) (hprof : profile.Accepted Z.blockSize)
    (hI : Keeps Z profile I) (hok : ∀ ps ∈ spans, ps.OK Z.blockSize profile) (hs : StoreOK Z s)
    {before : List PackedSpan} (hzi : FileStored Z s zi before) (hinv : I s zi) :
    Runs PackError.External (storeSpans Z s zi spans) fun r =>
      StoreOK Z r.1 ∧ Grows s r.1 ∧ FileStored Z r.1 r.2 (before ++ spans) ∧ I r.1 r.2 := by
  induction spans generalizing s zi before with
  | nil =>
    rw [storeSpans, append_nil]
    exact runs_ok ⟨hs, Grows.refl s, hzi, hinv⟩
  | cons ps rest ih =>
    have hps := hok ps mem_cons_self
    rw [storeSpans]
    apply Runs.bind (storeSpan_runs hbs hs (hps.storable hprof)).eq_ok
    rintro ⟨ext, s'⟩ ⟨heq, hr⟩
    have hrest := ih (fun p hp => hok p (mem_cons_of_mem _ hp)) hr.ok (hzi.push hbs hr)
      (hI ps hps s zi _ hinv heq)
    apply hrest.mono
    rintro ⟨s'', zi'⟩ ⟨hok'', hg, hfile, hinv'⟩
    rw [append_assoc] at hfile
    exact ⟨hok'', hr.grows.trans hg, hfile, hinv'⟩

/-! ## Compressing a file -/

section

variable {content : List UInt8} {store : Store κ}

/-- A file that is stored: its extents stand for spans that cut its content up. -/
structure Compressed (Z : ZConfig σ κ) (profile : ZProfile) (content : List UInt8) (store : Store κ)
    (r : Store κ × ZInfo) : Prop where
  ok : StoreOK Z r.1
  grows : Grows store r.1
  file : ∃ spans, Packs Z.blockSize profile content spans ∧ FileStored Z r.1 r.2 spans

/-- The loop of `compressStream`: the spans so far, the window and the rest of the source
    make the content. -/
structure StreamingOK (Z : ZConfig σ κ) (profile : ZProfile) (content : List UInt8)
    (store : Store κ) (s : Streaming σ κ) : Prop where
  source : s.source.length = s.remaining
  window : s.window.length ≤ profile.maxExtentSize
  ok : StoreOK Z s.store
  grows : Grows store s.store
  file : ∃ spans, Cutting Z.blockSize profile content spans (s.window ++ s.source) ∧
    FileStored Z s.store s.info spans

omit [DecidableEq κ] in
/-- Refilling the window moves bytes of the source into it: up to the limit, or all. -/
theorem refill_runs {s : Streaming σ κ} (hs : StreamingOK Z profile content store s)
    (hpos : 0 < profile.maxExtentSize) (hrun : ¬ (s.remaining = 0 ∧ s.window = [])) :
    Runs PackError.External (s.refill profile.maxExtentSize) fun s' =>
      StreamingOK Z profile content store s' ∧ s'.window ++ s'.source = s.window ++ s.source ∧
        0 < s'.window.length ∧
        (s'.remaining = 0 ∨ s'.window.length = profile.maxExtentSize) ∧
        s'.store = s.store ∧ s'.info = s.info := by
  have hsrc := hs.source
  have hwin := hs.window
  have hsome : 0 < s.window.length + s.remaining := by
    by_contra h0
    exact hrun ⟨by omega, eq_nil_of_length_eq_zero (by omega)⟩
  rw [Streaming.refill]
  by_cases hwant : s.window.length < min profile.maxExtentSize (s.window.length + s.remaining)
  · simp only [if_pos hwant]
    rw [readFull, if_neg (by omega)]
    -- reading moves bytes from the source to the window, so the two together stay
    generalize hn : min _ (s.window.length + s.remaining) - s.window.length = n
    have htake : (s.source.take n).length = n := by
      rw [length_take]
      omega
    have hjoin : s.window ++ s.source.take n ++ s.source.drop n = s.window ++ s.source := by
      rw [append_assoc, take_append_drop]
    obtain ⟨spans, hpack, hfile⟩ := hs.file
    refine runs_pure ⟨⟨?_, ?_, hs.ok, hs.grows, spans, ?_, hfile⟩, hjoin, ?_, ?_, rfl, rfl⟩
    · show (s.source.drop n).length = s.remaining - n
      rw [length_drop]
      omega
    · show (s.window ++ s.source.take n).length ≤ _
      rw [length_append]
      omega
    · show Cutting _ _ _ spans (s.window ++ s.source.take n ++ s.source.drop n)
      rw [hjoin]
      exact hpack
    · show 0 < (s.window ++ s.source.take n).length
      rw [length_append]
      omega
    · show s.remaining - n = 0 ∨ (s.window ++ s.source.take n).length = _
      rw [length_append]
      omega
  · rw [if_neg hwant]
    exact runs_ok ⟨hs, rfl, by omega, by omega, rfl, rfl⟩

section

variable (hP : Z.packers.Sound) (hbs : 0 < Z.blockSize) (hprof : profile.Accepted Z.blockSize)
  (hI : Keeps Z profile I)
include hP hbs hprof hI

/-- **One extent of a stream.** -/
theorem streamStep_runs {s : Streaming σ κ} (hs : StreamingOK Z profile content store s)
    (hinv : I s.store s.info) :
    Runs PackError.External (streamStep Z profile s) fun r =>
      match r with
      | .next s' => (StreamingOK Z profile content store s' ∧ I s'.store s'.info) ∧
          (s'.window ++ s'.source).length < (s.window ++ s.source).length
      | .done s' => Compressed Z profile content store (s'.store, s'.info) ∧
          I s'.store s'.info := by
  rw [streamStep]
  by_cases hdone : s.remaining = 0 ∧ s.window = []
  · rw [if_pos hdone]
    obtain ⟨spans, hcut, hfile⟩ := hs.file
    have hsrc : s.source = [] := eq_nil_of_length_eq_zero (by rw [hs.source, hdone.1])
    rw [hdone.2, hsrc] at hcut
    exact runs_ok ⟨⟨hs.ok, hs.grows, spans, hcut.packs, hfile⟩, hinv⟩
  · rw [if_neg hdone]
    -- an extent: refill the window, choose a span, encode it again, store it
    apply Runs.bind (refill_runs hs hprof.ext_pos hdone)
    rintro s' ⟨hs', hsame, hpos, hfull, hstore, hinfo⟩
    have hsrc := hs'.source
    have hwin := hs'.window
    apply Runs.bind ((packSpan_runs hP hbs hprof.pc_dvd hprof.pc_pos hpos s'.worker
      s'.ratio).mono_error Packers.Fails.external)
    intro c hc
    apply Runs.bind ((refineSpan_runs hP hc.comp hc.held).mono_error Packers.Fails.external)
    rintro ⟨comp, worker⟩ ⟨hcomp, -⟩
    have hspan := hc.span.le
    have hspan0 := hc.span.pos
    have hlen : (s'.window.take c.span).length = c.span := by
      rw [length_take]
      omega
    have hps : PackedSpan.OK Z.blockSize profile ⟨s'.window.take c.span, comp⟩ :=
      ⟨by rw [hlen]; exact hspan0, by rw [hlen]; omega, hcomp⟩
    apply Runs.bind (storeSpan_runs hbs hs'.ok (hps.storable hprof)).eq_ok
    rintro ⟨ext, store'⟩ ⟨heq, hst⟩
    rw [← hstore, ← hinfo] at hinv
    obtain ⟨spans, hpack, hfile⟩ := hs'.file
    have htake : (s'.window ++ s'.source).take c.span = s'.window.take c.span :=
      take_append_of_le_length hspan
    have hdrop : (s'.window ++ s'.source).drop c.span = s'.window.drop c.span ++ s'.source :=
      drop_append_of_le_length hspan
    -- a span that is not aligned took the whole window, which is then the end or full
    have hsplit : SpanEnd Z.blockSize (s'.window ++ s'.source).length c.span := by
      rw [length_append]
      refine ⟨hspan0, by omega, ?_⟩
      rcases hc.span.aligned with hdvd | hall
      · exact .inl hdvd
      rcases hfull with h0 | hmax
      · exact .inr (by omega)
      · exact .inl (hall.trans hmax ▸ hprof.ext_dvd)
    have hne : s'.window ++ s'.source ≠ [] := by
      intro hnil
      have hzero := congrArg length hnil
      rw [length_append, length_nil] at hzero
      omega
    have hnext := hpack.snoc hne hsplit (by omega) (htake.symm ▸ hcomp)
    rw [htake, hdrop] at hnext
    refine runs_pure ⟨⟨⟨hsrc, ?_, hst.ok, hs'.grows.trans hst.grows, _, hnext,
      hfile.push hbs hst⟩, hI _ hps _ _ _ hinv heq⟩, ?_⟩
    · show (s'.window.drop c.span).length ≤ _
      rw [length_drop]
      omega
    · show (s'.window.drop c.span ++ s'.source).length < _
      rw [← hsame, length_append, length_append, length_drop]
      omega

theorem compressSerial_runs (hstore : StoreOK Z store) (hinv : I store {}) (worker : PackWorker σ) :
    Runs PackError.External (compressSerial Z profile content content.length worker store)
      fun r => Compressed Z profile content store r ∧ I r.1 r.2 := by
  rw [compressSerial]
  apply Runs.bind (loop_runs
    (fun s => StreamingOK Z profile content store s ∧ I s.store s.info)
    (fun s => (s.window ++ s.source).length)
    (R := fun s => Compressed Z profile content store (s.store, s.info) ∧ I s.store s.info)
    (fun s hs => (streamStep_runs hP hbs hprof hI hs.1 hs.2).mono fun r hr => by
      cases r <;> exact hr) ?_ (Nat.lt_succ_self _))
  · intro s hs
    exact runs_pure hs
  · exact ⟨⟨rfl, Nat.zero_le _, hstore, Grows.refl store, [], Cutting.start,
      FileStored.start Z store⟩, hinv⟩

/-- `compressParallel` before segment `idx`. -/
structure SegmentsOK (Z : ZConfig σ κ) (profile : ZProfile) (content : List UInt8)
    (store : Store κ) (idx : Nat) (s : List UInt8 × Store κ × ZInfo) : Prop where
  source : s.1.length = content.length - idx * zSegmentSize
  ok : StoreOK Z s.2.1
  grows : Grows store s.2.1
  file : ∃ spans, Cutting Z.blockSize profile content spans s.1 ∧
    FileStored Z s.2.1 s.2.2 spans

/-- **One segment of a stream.** -/
theorem segmentStep_runs (hseg : Z.blockSize ∣ zSegmentSize) (workers : Nat → PackWorker σ)
    {idx : Nat} {s : List UInt8 × Store κ × ZInfo}
    (hidx : idx < (content.length + zSegmentSize - 1) / zSegmentSize)
    (hs : SegmentsOK Z profile content store idx s) (hinv : I s.2.1 s.2.2) :
    Runs PackError.External (segmentStep Z profile content.length workers s idx) fun r =>
      SegmentsOK Z profile content store (idx + 1) r ∧ I r.2.1 r.2.2 := by
  obtain ⟨r, st, zi⟩ := s
  have hsrc : r.length = content.length - idx * zSegmentSize := hs.source
  rw [segmentStep]
  simp only
  obtain ⟨n, hn⟩ : ∃ n, n = min zSegmentSize (content.length - idx * zSegmentSize) := ⟨_, rfl⟩
  have hle : n ≤ r.length := by
    rw [hn, hsrc]
    exact Nat.min_le_right _ _
  rw [← hn, readFull, if_neg (Nat.not_lt.mpr hle)]
  have htake : (r.take n).length = n := by
    rw [length_take]
    exact Nat.min_eq_left hle
  show Runs _ (packWindow _ _ _ _ _ _ >>= _) _
  apply Runs.bind (packWindow_runs hP hbs hprof _ _ (workers idx))
  intro p hp
  obtain ⟨spans, hcut, hfile⟩ := hs.file
  apply Runs.bind (storeSpans_runs hbs hprof hI hp.ok hs.ok hfile hinv)
  rintro ⟨st', zi'⟩ ⟨hok, hgrows, hfile', hinv'⟩
  refine runs_pure ⟨⟨?_, hok, hs.grows.trans hgrows, _, ?_, hfile'⟩, hinv'⟩
  · show (r.drop n).length = content.length - (idx + 1) * zSegmentSize
    clear hidx hp
    rw [length_drop, Nat.succ_mul]
    omega
  · have hsplit : r.take n ++ r.drop n = r := take_append_drop n r
    apply Cutting.segment (hsplit.symm ▸ hcut) _ hp
    · -- what a full segment holds is whole blocks, and any other leaves nothing
      intro hmore
      have hfull : n = zSegmentSize := by
        have hrest := length_pos_of_ne_nil hmore
        rw [length_drop] at hrest
        clear hidx hp
        omega
      rw [htake, hfull]
      exact hseg
    · intro hnil
      have hbefore := mul_lt_of_lt_ceilDiv zSegmentSize_pos hidx
      have hpos := zSegmentSize_pos
      have hzero := congrArg length hnil
      rw [htake, length_nil] at hzero
      clear hidx hp
      omega

theorem compressParallel_runs (hseg : Z.blockSize ∣ zSegmentSize) (hstore : StoreOK Z store)
    (hinv : I store {}) (workers : Nat → PackWorker σ) :
    Runs PackError.External (compressParallel Z profile content content.length workers store)
      fun r => Compressed Z profile content store r ∧ I r.1 r.2 := by
  rw [compressParallel]
  apply Runs.bind (foldlM_range_runs
    (fun i s => SegmentsOK Z profile content store i s ∧ I s.2.1 s.2.2) _
    (fun i s hi hs => segmentStep_runs hP hbs hprof hI hseg workers hi hs.1 hs.2) ?_)
  · rintro s ⟨hs, hinv⟩
    obtain ⟨spans, hcut, hfile⟩ := hs.file
    have hsrc := hs.source
    have hceil := (ceilDiv_spec zSegmentSize_pos content.length).1
    have hnil : s.1 = [] := eq_nil_of_length_eq_zero (by omega)
    rw [hnil] at hcut
    exact runs_pure ⟨⟨hs.ok, hs.grows, spans, hcut.packs, hfile⟩, hinv⟩
  · refine ⟨⟨?_, hstore, Grows.refl store, [], Cutting.start,
      FileStored.start Z store⟩, hinv⟩
    show content.length = content.length - 0 * zSegmentSize
    omega

/-- **A file that the packer has stored is cut up by its extents**, whichever way it was
    packed, and what every span keeps is kept; the packer never stops for a reason of its
    own. -/
theorem compressFile_runs (hseg : Z.blockSize ∣ zSegmentSize) (hstore : StoreOK Z store)
    (hinv : I store {}) (content : List UInt8) (workers : Nat → PackWorker σ) :
    Runs PackError.External (compressFile Z profile content workers store) fun r =>
      Compressed Z profile content store r ∧ I r.1 r.2 := by
  rw [compressFile]
  split
  · rw [compressStream]
    split
    · exact compressParallel_runs hP hbs hprof hI hseg hstore hinv workers
    · exact compressSerial_runs hP hbs hprof hI hstore hinv (workers 0)
  · apply Runs.bind (packBuffer_runs hP hbs hprof content (workers 0))
    intro spans hpacks
    apply (storeSpans_runs hbs hprof hI hpacks.ok hstore (FileStored.start Z store) hinv).mono
    rintro r ⟨hok, hgrows, hfile, hinv'⟩
    exact ⟨⟨hok, hgrows, spans, hpacks, hfile⟩, hinv'⟩

end

variable (store) in
theorem compressFile_buffer (hsmall : content.length < 2 * zSegmentSize)
    {workers : Nat → PackWorker σ} {spans : List PackedSpan}
    (hpack : packBuffer Z.packers Z.blockSize profile content (workers 0) = .ok spans) :
    compressFile Z profile content workers store = storeSpans Z store {} spans := by
  rw [compressFile, if_neg (Nat.not_le.mpr hsmall), hpack]
  rfl

/-- A span that the dedupe map does not have, while writes succeed. -/
theorem storeSpan_fresh (hwrites : ∀ k, Z.writeFails k = false) {s : Store κ} {span comp : List UInt8}
    (hmiss : (s.dedupe.bind fun m => m.lookup (Z.sum256 span)) = none) {ext : ZExtent}
    (hnew : newExtent Z.blockSize s.compBlocks span comp = ext) :
    s.storeSpan Z span comp = .ok (ext, { s with
      compBlocks := u32 (s.compBlocks + u32 ext.blocks)
      compSpool := s.compSpool ++ extentBytes Z.blockSize ext span comp
      writes := s.writes + 2
      dedupe := s.dedupe.map fun m => (Z.sum256 span, ext) :: m
      given := s.given ++ [span] }) := by
  have hwrite : ∀ (p q : List UInt8) (s : Store κ), s.writeSpoolBlocks Z p q =
      .ok { s with compSpool := s.compSpool ++ (p ++ q), writes := s.writes + 2 } := by
    intro p q s
    simp [Store.writeSpoolBlocks, Store.write, hwrites, bind, Except.bind, append_assoc]
  rw [Store.storeSpan, Store.storeSpanKeyed]
  simp only [hmiss, hnew, Store.writeExtent, hwrite, extentBytes]
  by_cases hnil : comp = []
  · rw [if_neg (by simp [hnil]), if_neg (by simp [hnil])]
    rfl
  · rw [if_pos hnil, if_pos hnil]
    rfl

end

end

end Orchestrator.Erofs

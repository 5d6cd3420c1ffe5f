/-
  Orchestrator.Artifact.ApplyTar

  A tar archive as an artifact (internal/artifact/archive.go, applyTar).

  The archive goes through the tar writer and a compressor into the output file.  All three
  are closed in deferred calls and what the closes return is dropped, so the last padding,
  the trailer and what the compressor holds are written when success is already decided.

  The compressors and the layout of a header are parameters, as they are libraries.  The
  output file is not part of the source tree.  Which calls on the file an archive is written
  in follows from the source, the header layout and the compressor, so what a success is
  worth is a condition on the calls that fail (`Undisturbed`).
-/

import Orchestrator.Artifact.Archive
import Orchestrator.Lib.Sink

namespace Orchestrator.Artifact

open Lib Lib.Posix Lib.Overlay Lib.Sink List

/-! ## The tar writer -/

/-- What the libraries do: the blocks of a header for content of a size, if it can be
    written at all, the compressors, and the names that io/fs accepts. -/
structure Tools where
  headerBlocks : Header → Nat → Option (List UInt8)
  gzip : Int → Option Encoder
  zstd : Option Encoder
  lz4 : Encoder
  lz4hc : Option Encoder
  utf8 : Name → Bool

def blockSize : Nat := 512

/-- `blockPadding`: the zeros that fill the last block of content. -/
def blockPadding (size : Nat) : Nat := (blockSize - size % blockSize) % blockSize

/-- `tar.Writer`: `failed` is its sticky error, `pad` the padding it owes. -/
structure TarWriter (enc : Encoder) where
  out : Writer enc := {}
  pad : Nat := 0
  failed : Bool := false

section

variable {enc : Encoder} (f : Faults)

def TarWriter.raw (b : List UInt8) (t : TarWriter enc) : Bool × TarWriter enc :=
  if t.failed then (false, t)
  else
    let (ok, out) := t.out.write f b
    (ok, { t with out := out, failed := !ok })

/-- `Flush`: the padding of the entry before. -/
def TarWriter.flush (t : TarWriter enc) : Bool × TarWriter enc :=
  match t.raw f (replicate t.pad 0) with
  | (true, t) => (true, { t with pad := 0 })
  | (false, t) => (false, t)

/-- `WriteHeader`.  A header that cannot be written is an error, but not a sticky one. -/
def TarWriter.writeHeader (blocks : Option (List UInt8)) (size : Nat) (t : TarWriter enc) :
    Bool × TarWriter enc :=
  match t.flush f with
  | (false, t) => (false, t)
  | (true, t) =>
    match blocks with
    | none => (false, t)
    | some b =>
      match t.raw f b with
      | (true, t) => (true, { t with pad := blockPadding size })
      | (false, t) => (false, t)

/-- Bytes one after another, up to the first error. -/
def TarWriter.raws : List (List UInt8) → TarWriter enc → Bool × TarWriter enc
  | [], t => (true, t)
  | b :: bs, t =>
    match t.raw f b with
    | (true, t) => t.raws bs
    | (false, t) => (false, t)

/-- `Close`: the padding, and two blocks of zeros. -/
def TarWriter.close (t : TarWriter enc) : Bool × TarWriter enc :=
  match t.flush f with
  | (true, t) => t.raws f [replicate blockSize 0, replicate blockSize 0]
  | (false, t) => (false, t)

end

def copyBufferSize : Nat := 32 * 1024

/-- The reads of `io.Copy`, at most `fuel` of them. -/
def copyReads : Nat → List UInt8 → List (List UInt8)
  | 0, _ => []
  | _ + 1, [] => []
  | fuel + 1, b :: bs =>
    (b :: bs).take copyBufferSize :: copyReads fuel ((b :: bs).drop copyBufferSize)

/-- The content of an entry, as `io.Copy` hands it over. -/
def copied (body : List UInt8) : List (List UInt8) := copyReads body.length body

section

variable (tools : Tools) {enc : Encoder} (f : Faults)

def TarWriter.entry (e : Entry) (t : TarWriter enc) : Bool × TarWriter enc :=
  match t.writeHeader f (tools.headerBlocks e.header e.body.length) e.body.length with
  | (true, t) => t.raws f (copied e.body)
  | (false, t) => (false, t)

def TarWriter.entries : List Entry → TarWriter enc → Bool × TarWriter enc
  | [], t => (true, t)
  | e :: es, t =>
    match t.entry tools f e with
    | (true, t) => TarWriter.entries es t
    | (false, t) => (false, t)

/-! ## applyTar -/

inductive ApplyError where
  | createFile
  | gzipWriter
  | zstdWriter
  | lz4hcWriter
  | unsupportedCompression (compression : String)
  | statSource
  | openSource
  | archive (e : ArchiveError)
  /-- A header or content that was not written. -/
  | write
deriving DecidableEq, Repr

inductive Source where
  | missing
  /-- A directory; io/fs may not accept its name. -/
  | dir (valid : Bool) (records : List Record)
  | single (r : Record)

/-- The fields of `Archive` that a tar goes by. -/
structure TarOptions where
  compression : String := ""
  level : Int := 0

def gzipDefaultCompression : Int := -1

def gzipLevel (level : Int) : Int := if level = 0 then gzipDefaultCompression else level

/-- The writer that is put over the output file. -/
def encoderFor (a : TarOptions) : Except ApplyError Encoder :=
  if a.compression = "" ∨ a.compression = "none" then .ok Encoder.plain
  else if a.compression = "gzip" then
    match tools.gzip (gzipLevel a.level) with
    | some enc => .ok enc
    | none => .error .gzipWriter
  else if a.compression = "zstd" then
    match tools.zstd with
    | some enc => .ok enc
    | none => .error .zstdWriter
  else if a.compression = "lz4" then .ok tools.lz4
  else if a.compression = "lz4hc" then
    match tools.lz4hc with
    | some enc => .ok enc
    | none => .error .lz4hcWriter
  else .error (.unsupportedCompression a.compression)

def archiveFile (r : Record) : List Entry × Option ArchiveError :=
  match r.node with
  | .link _ | .file _ => ([tarEntry r], none)
  -- nothing else opens as a regular file
  | .dir _ | .whiteout | .special _ => ([], some (.notRegular r.path))

/-- What there is to be written, and the error that the walk ends with. -/
def Source.walk (src : Source) : List Entry × Option ApplyError :=
  match src with
  | .missing => ([], some .statSource)
  | .dir false _ => ([], some .openSource)
  | .dir true records =>
    let (entries, err) := archiveDir tools.utf8 records
    (entries, err.map .archive)
  | .single r =>
    let (entries, err) := archiveFile r
    (entries, err.map .archive)

/-- The deferred calls, the last one first; nothing is done with what they return. -/
def TarWriter.deferred (t : TarWriter enc) : File :=
  let (_, t) := t.close f
  let (_, out) := t.out.close f
  let (_, file) := out.file.close f
  file

/-- `applyTar`: the result, and the output file when all is done; `creates` says whether
    the file could be created. -/
def applyTar (creates : Bool) (a : TarOptions) (src : Source) :
    Except ApplyError Unit × File :=
  if creates then
    match encoderFor tools a with
    | .error e => (.error e, (File.close f {}).2)
    | .ok enc =>
      let (entries, err) := src.walk tools
      match TarWriter.entries tools f entries ({} : TarWriter enc) with
      | (false, t) => (.error .write, t.deferred f)
      | (true, t) =>
        match err with
        | some e => (.error e, t.deferred f)
        | none => (.ok (), t.deferred f)
  else (.error .createFile, {})

/-! ## Complete archives -/

/-- The writes of a list of entries behind padding that is owed, and the padding owed
    afterwards. -/
def entryWrites : Nat → List Entry → Option (List (List UInt8) × Nat)
  | pad, [] => some ([], pad)
  | pad, e :: es => do
    let blocks ← tools.headerBlocks e.header e.body.length
    let (ws, last) ← entryWrites (blockPadding e.body.length) es
    return (replicate pad 0 :: blocks :: copied e.body ++ ws, last)

def tarWrites (entries : List Entry) : Option (List (List UInt8)) := do
  let (ws, pad) ← entryWrites tools 0 entries
  return ws ++ [replicate pad 0, replicate blockSize 0, replicate blockSize 0]

/-- The file is the whole archive of the source. -/
def Complete (a : TarOptions) (src : Source) (file : File) : Prop :=
  ∃ enc ws, encoderFor tools a = .ok enc ∧ tarWrites tools (src.walk tools).1 = some ws ∧
    file.bytes = enc.whole ws

/-- None of the calls that the archive of the source is written in fails, and the close of the
    file keeps all of it. -/
def Undisturbed (f : Faults) (a : TarOptions) (src : Source) : Prop :=
  ∃ enc ws, encoderFor tools a = .ok enc ∧ tarWrites tools (src.walk tools).1 = some ws ∧
    f.Sound enc ws

end

/-! ## What is written -/

section

variable {tools : Tools} {enc : Encoder} {f : Faults} {t : TarWriter enc}
variable {sent : List (List UInt8)}

/-- A tar writer that has handed `sent` down, or had an error reported and stopped. -/
structure TarWriter.Holds (f : Faults) (t : TarWriter enc) (sent : List (List UInt8)) : Prop where
  out : t.out.Holds f sent
  failed : t.failed = true → t.out.failed = true

section

variable (h : t.Holds f sent)
include h

theorem TarWriter.Holds.extend (hfailed : t.failed = true) (more : List (List UInt8)) :
    t.Holds f (sent ++ more) :=
  ⟨h.out.extend (h.failed hfailed) more, h.failed⟩

theorem TarWriter.Holds.raw (b : List UInt8) :
    (t.raw f b).2.Holds f (sent ++ [b]) ∧ (t.raw f b).2.pad = t.pad ∧
      ((t.raw f b).1 = false → (t.raw f b).2.failed = true) := by
  unfold TarWriter.raw
  by_cases hfailed : t.failed = true
  · rw [if_pos hfailed]
    exact ⟨h.extend hfailed [b], rfl, fun _ => hfailed⟩
  rw [if_neg hfailed]
  obtain ⟨hout, hbad⟩ := h.out.write b
  generalize t.out.write f b = r at hout hbad
  obtain ⟨ok, out⟩ := r
  refine ⟨⟨hout, fun hstop => hbad ?_⟩, rfl, fun hstop => ?_⟩
  · simpa using hstop
  · simpa using hstop

theorem TarWriter.Holds.raws (bs : List (List UInt8)) :
    (t.raws f bs).2.Holds f (sent ++ bs) ∧ (t.raws f bs).2.pad = t.pad := by
  induction bs generalizing t sent with
  | nil =>
    rw [append_nil]
    exact ⟨h, rfl⟩
  | cons b bs ih =>
    obtain ⟨hb, hpad, hbad⟩ := h.raw b
    have hjoin : sent ++ b :: bs = sent ++ [b] ++ bs := by simp
    unfold TarWriter.raws
    rw [hjoin]
    generalize t.raw f b = r at hb hpad hbad
    obtain ⟨ok, t'⟩ := r
    cases ok with
    | true =>
      obtain ⟨hrest, hpad'⟩ := ih hb
      exact ⟨hrest, hpad'.trans hpad⟩
    | false => exact ⟨hb.extend (hbad rfl) bs, hpad⟩

theorem TarWriter.Holds.flush :
    (t.flush f).2.Holds f (sent ++ [replicate t.pad 0]) ∧
      ((t.flush f).1 = false → (t.flush f).2.failed = true) := by
  obtain ⟨hb, -, hbad⟩ := h.raw (replicate t.pad 0)
  unfold TarWriter.flush
  generalize t.raw f (replicate t.pad 0) = r at hb hbad
  obtain ⟨ok, t'⟩ := r
  cases ok with
  | true => exact ⟨⟨hb.out, hb.failed⟩, nofun⟩
  | false => exact ⟨hb, hbad⟩

/-- **One entry that is written without an error.** -/
theorem TarWriter.Holds.entry {e : Entry} {t' : TarWriter enc}
    (hok : t.entry tools f e = (true, t')) :
    ∃ blocks, tools.headerBlocks e.header e.body.length = some blocks ∧
      t'.Holds f (sent ++ (replicate t.pad 0 :: blocks :: copied e.body)) ∧
      t'.pad = blockPadding e.body.length := by
  obtain ⟨hflush, -⟩ := h.flush
  unfold TarWriter.entry TarWriter.writeHeader at hok
  generalize t.flush f = r at hflush hok
  obtain ⟨ok, t₁⟩ := r
  cases ok with
  | false => cases hok
  | true =>
    cases hblocks : tools.headerBlocks e.header e.body.length with
    | none =>
      rw [hblocks] at hok
      cases hok
    | some blocks =>
      rw [hblocks] at hok
      dsimp only at hok
      obtain ⟨hhead, -, -⟩ := hflush.raw blocks
      generalize t₁.raw f blocks = r at hhead hok
      obtain ⟨ok, t₂⟩ := r
      cases ok with
      | false => cases hok
      | true =>
        have hpadded : ({ t₂ with pad := blockPadding e.body.length } : TarWriter enc).Holds f
            (sent ++ [replicate t.pad 0] ++ [blocks]) := ⟨hhead.out, hhead.failed⟩
        obtain ⟨hbody, hpad⟩ := hpadded.raws (copied e.body)
        dsimp only at hok
        rw [hok] at hbody hpad
        refine ⟨blocks, rfl, ?_, hpad⟩
        have hjoin : sent ++ (replicate t.pad 0 :: blocks :: copied e.body) =
            sent ++ [replicate t.pad 0] ++ [blocks] ++ copied e.body := by simp
        rw [hjoin]
        exact hbody

/-- **Entries that are written without an error** were handed down one after another. -/
theorem TarWriter.Holds.entries {es : List Entry} {t' : TarWriter enc}
    (hok : TarWriter.entries tools f es t = (true, t')) :
    ∃ ws, entryWrites tools t.pad es = some (ws, t'.pad) ∧ t'.Holds f (sent ++ ws) := by
  induction es generalizing t sent with
  | nil =>
    cases hok
    exact ⟨[], rfl, by rw [append_nil]; exact h⟩
  | cons e es ih =>
    unfold TarWriter.entries at hok
    cases hentry : t.entry tools f e with
    | mk ok t₁ =>
      rw [hentry] at hok
      cases ok with
      | false => cases hok
      | true =>
        obtain ⟨blocks, hblocks, h₁, hpad⟩ := h.entry hentry
        obtain ⟨ws, hws, h'⟩ := ih h₁ hok
        rw [hpad] at hws
        refine ⟨replicate t.pad 0 :: blocks :: copied e.body ++ ws, ?_, ?_⟩
        · simp [entryWrites, hblocks, hws]
        · rw [← append_assoc]
          exact h'

/-- The deferred calls: the file is whole exactly when no call fails. -/
theorem TarWriter.Holds.deferred :
    (t.deferred f).bytes = enc.whole (sent ++ [replicate t.pad 0,
        replicate blockSize 0, replicate blockSize 0]) ↔
      f.Sound enc (sent ++ [replicate t.pad 0, replicate blockSize 0, replicate blockSize 0]) := by
  have hclose : (t.close f).2.Holds f (sent ++ [replicate t.pad 0,
      replicate blockSize 0, replicate blockSize 0]) := by
    have hjoin : sent ++ [replicate t.pad 0, replicate blockSize 0,
        replicate blockSize (0 : UInt8)] = sent ++ [replicate t.pad 0] ++
          [replicate blockSize 0, replicate blockSize 0] := by simp
    obtain ⟨hflush, hbad⟩ := h.flush
    unfold TarWriter.close
    rw [hjoin]
    generalize t.flush f = r at hflush hbad
    obtain ⟨ok, t₁⟩ := r
    cases ok with
    | true => exact (hflush.raws _).1
    | false => exact hflush.extend (hbad rfl) _
  exact hclose.out.close

end

end

/-! ## Results -/

section

variable {tools : Tools} {f : Faults} {creates : Bool} {a : TarOptions} {src : Source}

/-- What a success says: the writers were made, the walk went through, and every entry was
    handed down. -/
theorem applyTar_success (h : (applyTar tools f creates a src).1 = .ok ()) :
    ∃ (enc : Encoder) (t : TarWriter enc) (ws : List (List UInt8)),
      encoderFor tools a = .ok enc ∧ (src.walk tools).2 = none ∧
      tarWrites tools (src.walk tools).1 = some (ws ++ [replicate t.pad 0,
        replicate blockSize 0, replicate blockSize 0]) ∧
      t.Holds f ws ∧ (applyTar tools f creates a src).2 = t.deferred f := by
  unfold applyTar at h ⊢
  cases creates with
  | false => cases h
  | true =>
    rw [if_pos rfl] at h ⊢
    cases henc : encoderFor tools a with
    | error e =>
      rw [henc] at h
      cases h
    | ok enc =>
      rw [henc] at h
      dsimp only at h ⊢
      cases hrun : TarWriter.entries tools f (src.walk tools).1 ({} : TarWriter enc) with
      | mk ok t =>
        rw [hrun] at h
        cases ok with
        | false => cases h
        | true =>
          cases herr : (src.walk tools).2 with
          | some e =>
            rw [herr] at h
            cases h
          | none =>
            have hnew : ({} : TarWriter enc).Holds f [] := ⟨Writer.holds_new, nofun⟩
            obtain ⟨ws, hws, ht⟩ := hnew.entries hrun
            refine ⟨enc, t, ws, rfl, rfl, ?_, ht, rfl⟩
            have hws' : entryWrites tools 0 (src.walk tools).1 = some (ws, t.pad) := hws
            simp [tarWrites, hws']

/-- A walk without an error hands out every entry of the tree. -/
theorem walk_entries {valid : Bool} {records : List Record}
    (h : ((Source.dir valid records).walk tools).2 = none) :
    ((Source.dir valid records).walk tools).1 = records.map tarEntry := by
  cases valid with
  | false => cases h
  | true =>
    have hnone : (archiveDir tools.utf8 records).2 = none := by
      simpa [Source.walk] using h
    simp only [Source.walk]
    rw [archiveDir_entries (archiveDir_ok_iff.mp hnone)]

/-- From a complete file a reader gets every entry. -/
theorem Complete.recovered {file : File} (h : Complete tools a src file)
    {decode : List UInt8 → Option (List UInt8)} {untar : List UInt8 → Option (List Entry)}
    (hdecode : ∀ enc, encoderFor tools a = .ok enc → enc.Decodes decode)
    (huntar : ∀ ws, tarWrites tools (src.walk tools).1 = some ws →
      untar ws.flatten = some (src.walk tools).1) :
    (decode file.bytes).bind untar = some (src.walk tools).1 := by
  obtain ⟨enc, ws, henc, hws, hbytes⟩ := h
  rw [hbytes, hdecode enc henc ws]
  exact huntar ws hws

end

/-- **A tar that reports success is complete exactly when none of the calls on the output file
    fails that it is written in**, those of the deferred calls as well; then a reader gets every
    entry of the tree from it. -/
theorem applyTar_complete_iff {tools : Tools} {f : Faults} {creates : Bool} {a : TarOptions}
    {src : Source} (h : (applyTar tools f creates a src).1 = .ok ())
    {decode : List UInt8 → Option (List UInt8)} {untar : List UInt8 → Option (List Entry)}
    (hdecode : ∀ enc, encoderFor tools a = .ok enc → enc.Decodes decode)
    (huntar : ∀ ws, tarWrites tools (src.walk tools).1 = some ws →
      untar ws.flatten = some (src.walk tools).1) :
    (Complete tools a src (applyTar tools f creates a src).2 ↔ Undisturbed tools f a src) ∧
    (Undisturbed tools f a src →
      (decode (applyTar tools f creates a src).2.bytes).bind untar = some (src.walk tools).1 ∧
        ∀ valid records, src = .dir valid records →
          (src.walk tools).1 = records.map tarEntry) := by
  obtain ⟨enc, t, ws, henc, hwalk, hws, ht, hfile⟩ := applyTar_success h
  have hiff : Complete tools a src (applyTar tools f creates a src).2 ↔
      Undisturbed tools f a src := by
    rw [hfile]
    constructor
    · rintro ⟨enc', ws', henc', hws', hbytes⟩
      cases henc.symm.trans henc'
      cases hws.symm.trans hws'
      exact ⟨enc, _, henc, hws, ht.deferred.mp hbytes⟩
    · rintro ⟨enc', ws', henc', hws', hsound⟩
      cases henc.symm.trans henc'
      cases hws.symm.trans hws'
      exact ⟨enc, _, henc, hws, ht.deferred.mpr hsound⟩
  refine ⟨hiff, fun hfine => ⟨(hiff.mpr hfine).recovered hdecode huntar, ?_⟩⟩
  rintro valid records rfl
  exact walk_entries hwalk

/-! ## A small archive -/

theorem plain_decodes : Encoder.plain.Decodes some := by
  have hemits : ∀ ws : List (List UInt8), Encoder.plain.emits () ws = ws := by
    intro ws
    induction ws with
    | nil => rfl
    | cons b ws ih => exact congrArg (b :: ·) ih
  intro ws
  show some (Encoder.plain.emits () ws ++ []).flatten = _
  rw [hemits, append_nil]

/-- Headers of one block, and no compressor. -/
def smallTools : Tools where
  headerBlocks _ _ := some (replicate blockSize 1)
  gzip _ := none
  zstd := none
  lz4 := Encoder.plain
  lz4hc := none
  utf8 _ := true

/-- A directory with one file of two bytes. -/
def smallTree : Source := .dir true [⟨["a".toList], .file [1, 2], 0o644, 0⟩]

/-- The third write to the file fails: the one of the padding, when the archive is closed. -/
def fullDisk : Faults where
  write n := if n = 2 then some 0 else none
  close := none
  reports _ := true

/-- Success is reported, and the file ends behind the two bytes. -/
theorem success_with_truncated_file :
    (applyTar smallTools fullDisk true {} smallTree).1 = .ok () ∧
      (applyTar smallTools fullDisk true {} smallTree).2.bytes = replicate blockSize 1 ++ [1, 2] ∧
      ¬ Complete smallTools {} smallTree (applyTar smallTools fullDisk true {} smallTree).2 := by
  have hbytes : (applyTar smallTools fullDisk true {} smallTree).2.bytes =
      replicate blockSize 1 ++ [1, 2] := by decide +kernel
  refine ⟨rfl, hbytes, ?_⟩
  rintro ⟨enc, ws, henc, hws, hfile⟩
  obtain rfl : Encoder.plain = enc := Except.ok.inj henc
  cases hws
  exact absurd (hbytes.symm.trans hfile) (by decide +kernel)

/-- The archive of that tree is complete when a later call would fail. -/
theorem applyTar_complete_small :
    let f : Faults := { fullDisk with write := fun n => if n = 5 then some 0 else none }
    (applyTar smallTools f true {} smallTree).1 = .ok () ∧
      Complete smallTools {} smallTree (applyTar smallTools f true {} smallTree).2 := by
  intro f
  have hdecode : ∀ enc, encoderFor smallTools {} = .ok enc → enc.Decodes some := by
    intro enc henc
    obtain rfl : Encoder.plain = enc := Except.ok.inj henc
    exact plain_decodes
  obtain ⟨untar, huntar⟩ : ∃ untar : List UInt8 → Option (List Entry),
      ∀ ws, tarWrites smallTools (smallTree.walk smallTools).1 = some ws →
        untar ws.flatten = some (smallTree.walk smallTools).1 :=
    ⟨fun _ => some (smallTree.walk smallTools).1, fun _ _ => rfl⟩
  refine ⟨rfl, (applyTar_complete_iff rfl hdecode huntar).1.mpr ?_⟩
  refine ⟨_, _, rfl, rfl, fun k hk => ?_, nofun⟩
  have hlt : k < 5 := hk.trans_eq (by decide +kernel)
  exact if_neg (Nat.ne_of_lt hlt)

end Orchestrator.Artifact

/-
  Orchestrator.Erofs.ZSpans

  The spans that the packer cuts a buffer into: the loop of `packBuffer` takes them off the
  window one by one, and `packLoop_spans` says what they are, for any compressor that keeps
  its contract.  A short buffer is a single span.

  The compressor for runs shows that spans are stored compressed as well as raw.
-/

import Orchestrator.Erofs.ZPack

namespace Orchestrator.Erofs

open Lib Lib.Exec List

/-! ## Packing a buffer -/

structure ZProfile.Accepted (blockSize : Nat) (p : ZProfile) : Prop where
  pc_dvd : blockSize ∣ p.pclusterSize
  pc_pos : 0 < p.pclusterSize
  pc_le : p.pclusterSize ≤ 1 <<< 20
  ext_dvd : blockSize ∣ p.maxExtentSize
  ext_pos : 0 < p.maxExtentSize
  ext_le : p.maxExtentSize ≤ zFormatMaxExtentSize

theorem ZProfile.accepted_iff (blockSize : Nat) (p : ZProfile) :
    p.accepted blockSize = true ↔ p.Accepted blockSize := by
  simp only [accepted, validatePCluster, validateExtent, Bool.and_eq_true, decide_eq_true_eq,
    not_or, not_lt, not_le, not_not]
  constructor
  · rintro ⟨⟨h1, h2, h3⟩, h4, h5, h6⟩
    exact ⟨Nat.dvd_of_mod_eq_zero h1, h2, h3, Nat.dvd_of_mod_eq_zero h4, h5, h6⟩
  · intro h
    exact ⟨⟨Nat.mod_eq_zero_of_dvd h.pc_dvd, h.pc_pos, h.pc_le⟩,
      Nat.mod_eq_zero_of_dvd h.ext_dvd, h.ext_pos, h.ext_le⟩

structure PackedSpan.OK (blockSize : Nat) (profile : ZProfile) (ps : PackedSpan) : Prop where
  pos : 0 < ps.raw.length
  le : ps.raw.length ≤ profile.maxExtentSize
  encodes : Encodes blockSize profile.pclusterSize ps.raw ps.comp

def coveredBy (spans : List PackedSpan) : List UInt8 := (spans.map PackedSpan.raw).flatten

@[simp] theorem coveredBy_nil : coveredBy [] = [] := rfl

@[simp] theorem coveredBy_cons (ps : PackedSpan) (rest : List PackedSpan) :
    coveredBy (ps :: rest) = ps.raw ++ coveredBy rest := rfl

theorem coveredBy_append (xs ys : List PackedSpan) :
    coveredBy (xs ++ ys) = coveredBy xs ++ coveredBy ys := by
  rw [coveredBy, map_append, flatten_append, coveredBy, coveredBy]

/-- `spans` cut `buf` up: they follow each other, and all but the last are whole blocks. -/
structure Packs (blockSize : Nat) (profile : ZProfile) (buf : List UInt8)
    (spans : List PackedSpan) : Prop where
  cover : coveredBy spans = buf
  ok : ∀ ps ∈ spans, ps.OK blockSize profile
  aligned : ∀ ps ∈ spans.dropLast, blockSize ∣ ps.raw.length

section

variable {σ : Type} {P : Packers σ} {blockSize : Nat} {profile : ZProfile} {last : Bool}
variable {buf : List UInt8}

theorem dvd_length_coveredBy {spans : List PackedSpan}
    (h : ∀ ps ∈ spans, blockSize ∣ ps.raw.length) : blockSize ∣ (coveredBy spans).length := by
  induction spans with
  | nil => exact Nat.dvd_zero _
  | cons ps rest ih =>
    obtain ⟨hps, hrest⟩ := forall_mem_cons.mp h
    rw [coveredBy_cons, length_append]
    exact Nat.dvd_add hps (ih hrest)

theorem Packs.aligned_all {spans : List PackedSpan} (h : Packs blockSize profile buf spans)
    (hbuf : blockSize ∣ buf.length) : ∀ ps ∈ spans, blockSize ∣ ps.raw.length := by
  rcases eq_nil_or_concat' spans with rfl | ⟨init, ps, rfl⟩
  · nofun
  have hinit := h.aligned
  rw [dropLast_concat] at hinit
  refine forall_mem_append.mpr ⟨hinit, forall_mem_singleton.mpr ?_⟩
  rw [← h.cover, coveredBy_append, length_append, coveredBy_cons, coveredBy_nil, append_nil] at hbuf
  exact (Nat.dvd_add_right (dvd_length_coveredBy hinit)).mp hbuf

/-- A stream in the middle of being packed: the spans so far and the window make the
    buffer. -/
structure Cutting (blockSize : Nat) (profile : ZProfile) (buf : List UInt8)
    (spans : List PackedSpan) (window : List UInt8) : Prop where
  cover : coveredBy spans ++ window = buf
  ok : ∀ ps ∈ spans, ps.OK blockSize profile
  aligned : ∀ ps ∈ spans.dropLast, blockSize ∣ ps.raw.length
  aligned_all : window ≠ [] → ∀ ps ∈ spans, blockSize ∣ ps.raw.length

variable {spans : List PackedSpan} {window : List UInt8}

theorem Cutting.start : Cutting blockSize profile buf [] buf := by
  refine ⟨rfl, ?_, ?_, ?_⟩
  · nofun
  · nofun
  · nofun

theorem Cutting.packs (h : Cutting blockSize profile buf spans []) :
    Packs blockSize profile buf spans :=
  ⟨(append_nil _).symm.trans h.cover, h.ok, h.aligned⟩

theorem Cutting.snoc (h : Cutting blockSize profile buf spans window) (hne : window ≠ [])
    {span : Nat} (hspan : SpanEnd blockSize window.length span)
    (hmax : span ≤ profile.maxExtentSize) {comp : List UInt8}
    (hcomp : Encodes blockSize profile.pclusterSize (window.take span) comp) :
    Cutting blockSize profile buf (spans ++ [⟨window.take span, comp⟩]) (window.drop span) := by
  have hlen : (window.take span).length = span := by
    have := hspan.le
    rw [length_take]
    omega
  have hbefore := h.aligned_all hne
  constructor
  · rw [coveredBy_append, coveredBy_cons, coveredBy_nil, append_nil, append_assoc,
      take_append_drop]
    exact h.cover
  · refine forall_mem_append.mpr ⟨h.ok, forall_mem_singleton.mpr ?_⟩
    exact ⟨by rw [hlen]; exact hspan.pos, by rw [hlen]; exact hmax, hcomp⟩
  · intro ps hps
    rw [dropLast_concat] at hps
    exact hbefore ps hps
  · intro hopen
    refine forall_mem_append.mpr ⟨hbefore, forall_mem_singleton.mpr ?_⟩
    show blockSize ∣ (window.take span).length
    rw [hlen]
    -- a span that is not on a boundary leaves nothing
    refine hspan.aligned.resolve_right fun hall => hopen ?_
    rw [hall, drop_length]

/-- The spans of a segment at the front of the window; only the last segment of a
    stream may end inside a block. -/
theorem Cutting.segment {buf seg : List UInt8} {more : List PackedSpan} {r : List UInt8}
    (h : Cutting blockSize profile buf spans (seg ++ r)) (hseg : seg ≠ [])
    (hmore : Packs blockSize profile seg more) (hlast : r ≠ [] → blockSize ∣ seg.length) :
    Cutting blockSize profile buf (spans ++ more) r := by
  have hbefore := h.aligned_all (by simp [hseg])
  have hmoreNe : more ≠ [] := by
    intro hnil
    have hcover := hmore.cover
    rw [hnil, coveredBy_nil] at hcover
    exact hseg hcover.symm
  constructor
  · rw [coveredBy_append, hmore.cover, append_assoc]
    exact h.cover
  · exact forall_mem_append.mpr ⟨h.ok, hmore.ok⟩
  · rw [dropLast_append_of_ne_nil hmoreNe]
    exact forall_mem_append.mpr ⟨hbefore, hmore.aligned⟩
  · exact fun hopen => forall_mem_append.mpr ⟨hbefore, hmore.aligned_all (hlast hopen)⟩

section

variable (hP : P.Sound) (hbs : 0 < blockSize) (hprof : profile.Accepted blockSize)
include hP hbs hprof

/-- **One span off the window.** -/
theorem packStep_runs {s : Packing σ} (hs : Cutting blockSize profile buf s.spans s.window) :
    Runs P.Fails (packStep P blockSize profile last s) fun r =>
      match r with
      | .next s' => Cutting blockSize profile buf s'.spans s'.window ∧
          s'.window.length < s.window.length ∧
          ∃ ps, s'.spans = s.spans ++ [ps] ∧ s'.worker.Holds ps.comp
      | .done s' => Packs blockSize profile buf s'.spans := by
  rw [packStep]
  by_cases hnil : s.window = []
  · rw [if_pos hnil]
    rw [hnil] at hs
    exact runs_ok hs.packs
  rw [if_neg hnil]
  have hpos : 0 < s.window.length := length_pos_of_ne_nil hnil
  obtain ⟨candidate, hcand⟩ : ∃ c, c = s.window.take (min s.window.length profile.maxExtentSize) :=
    ⟨_, rfl⟩
  have hclen : candidate.length = min s.window.length profile.maxExtentSize := by
    rw [hcand, length_take]
    omega
  have hext := hprof.ext_pos
  rw [← hcand]
  apply Runs.bind (packSpan_runs hP hbs hprof.pc_dvd hprof.pc_pos (by omega) s.worker s.ratio)
  intro c hc
  have hle := hc.span.le
  have htake : candidate.take c.span = s.window.take c.span := by
    rw [hcand, take_take]
    congr 1
    omega
  have hcomp := hc.comp
  rw [htake] at hcomp
  apply Runs.bind (refineSpan_runs hP hcomp hc.held)
  rintro ⟨comp, worker⟩ ⟨hcomp', hheld⟩
  -- a candidate that is not the whole window is a whole extent
  have hspan : SpanEnd blockSize s.window.length c.span := by
    refine ⟨hc.span.pos, by omega, ?_⟩
    rcases hc.span.aligned with hdvd | hall
    · exact .inl hdvd
    by_cases hext : s.window.length ≤ profile.maxExtentSize
    · exact .inr (by omega)
    · have hmax : c.span = profile.maxExtentSize := by omega
      exact .inl (hmax ▸ hprof.ext_dvd)
  refine runs_pure ⟨hs.snoc hnil hspan (by omega) hcomp', ?_, _, rfl, hheld⟩
  show (s.window.drop c.span).length < s.window.length
  have := hc.span.pos
  rw [length_drop]
  omega

/-- **The spans of a buffer cut it up**, whatever the compressors do and wherever the
    running ratio starts. -/
theorem packLoop_runs (last : Bool) (buf : List UInt8) (worker : PackWorker σ) (ratio : Float) :
    Runs P.Fails (loop (packStep P blockSize profile last) (buf.length + 1)
      { window := buf, worker := worker, ratio := ratio })
      fun s => Packs blockSize profile buf s.spans := by
  apply loop_runs (fun s => Cutting blockSize profile buf s.spans s.window)
    (fun s => s.window.length)
    (fun s hs => (packStep_runs hP hbs hprof hs).mono fun r hr => by
      cases r with
      | next => exact ⟨hr.1, hr.2.1⟩
      | done => exact hr)
  · exact Cutting.start
  · exact Nat.lt_succ_self _

theorem packWindow_runs (last : Bool) (buf : List UInt8) (worker : PackWorker σ) :
    Runs PackError.External (packWindow P blockSize profile last buf worker)
      fun s => Packs blockSize profile buf s.spans :=
  (packLoop_runs hP hbs hprof last buf worker _).mono_error Packers.Fails.external

theorem packBuffer_runs (buf : List UInt8) (worker : PackWorker σ) :
    Runs PackError.External (packBuffer P blockSize profile buf worker)
      (Packs blockSize profile buf) := by
  rw [packBuffer]
  apply Runs.bind (packWindow_runs hP hbs hprof true buf worker)
  intro s hs
  exact runs_pure hs

end

end

/-! ## Short buffers -/

section

variable {σ : Type} {P : Packers σ} {blockSize : Nat} {profile : ZProfile} {buf : List UInt8}

/-- The last window of a stream is one candidate when it is no longer than the pcluster. -/
theorem clamp_short {pc len : Nat} (h : len ≤ pc) (n : Nat) : clamp blockSize pc len true n = len := by
  rw [clamp]
  by_cases hn : len ≤ n
  · rw [if_pos ⟨hn, rfl⟩]
  have hlt : n < pc := by omega
  have hmin : min pc len = len := by omega
  rw [if_neg (by simp [hn]), if_neg hn]
  simp only [if_pos hlt, hmin]
  exact if_neg (by simp)

variable {worker : PackWorker σ} {enc : σ} {probe : List UInt8} {n : Nat}

/-- The span of a short window: all of it, compressed when that saves a block. -/
theorem packSpan_short (blockSize : Nat) (hlen : buf.length ≤ profile.pclusterSize)
    (hcomp : P.compress worker.enc buf worker.probe = (enc, probe, some n)) (ratio : Float) :
    ∃ c, packSpan P blockSize buf profile worker true ratio = .ok c ∧ c.span = buf.length ∧
      c.comp = if fits blockSize profile.pclusterSize buf.length n then probe.take n else [] := by
  have htry : worker.tryCompress P (buf.take buf.length) =
      .ok (n, { worker with enc := enc, probe := probe }) := by
    rw [take_length, PackWorker.tryCompress, hcomp]
  rw [packSpan, clamp_short hlen, search, htry]
  by_cases hfit : fits blockSize profile.pclusterSize buf.length n
  · have hpos : buf.length ≠ 0 := by
      obtain ⟨h1, h2, h3⟩ := hfit
      omega
    refine ⟨⟨buf.length, probe.take n, ⟨enc, worker.kept, probe⟩, nextRatio ratio n buf.length⟩, ?_,
      rfl, (if_pos hfit).symm⟩
    · simp only [bind, Except.bind, searchNext, if_pos hfit, or_true, if_true]
      exact if_neg hpos
  · refine ⟨⟨buf.length, [], ⟨enc, probe, worker.kept⟩, ratio⟩, ?_, rfl, (if_neg hfit).symm⟩
    simp only [bind, Except.bind, searchNext, if_neg hfit, clamp_short hlen, le_refl, if_true,
      ne_eq, not_true_eq_false, if_false, pure, Except.pure, lastResort]

section

variable (hne : buf ≠ []) (hext : buf.length ≤ profile.maxExtentSize) {c : Chosen σ}
  (hc : packSpan P blockSize buf profile worker true 0.5 = .ok c) (hspan : c.span = buf.length)
include hne hext hc hspan

/-- When the first span is the whole buffer, the loop ends behind it. -/
theorem packLoop_whole
    (hrefine : refineSpan P blockSize buf c.comp c.worker = .ok (c.comp, c.worker)) :
    packWindow P blockSize profile true buf worker =
      .ok { window := [], spans := [⟨buf, c.comp⟩], ratio := c.ratio, worker := c.worker } := by
  obtain ⟨len, hl⟩ : ∃ len, buf.length = len + 1 :=
    ⟨buf.length - 1, by have := length_pos_of_ne_nil hne; omega⟩
  have htake : buf.take (min buf.length profile.maxExtentSize) = buf := by
    rw [Nat.min_eq_left hext, take_length]
  have hstep : packStep P blockSize profile true { window := buf, worker := worker } =
      .ok (.next { window := [], spans := [⟨buf, c.comp⟩], ratio := c.ratio, worker := c.worker }) := by
    rw [packStep, if_neg hne]
    simp only [htake, decide_true, Bool.and_self, hc, bind, Except.bind, hspan, take_length, hrefine,
      drop_length, nil_append]
    rfl
  rw [packWindow, loop, hstep, hl]
  rfl

theorem packBuffer_whole
    (hrefine : refineSpan P blockSize buf c.comp c.worker = .ok (c.comp, c.worker)) :
    packBuffer P blockSize profile buf worker = .ok [⟨buf, c.comp⟩] := by
  rw [packBuffer, packLoop_whole hne hext hc hspan hrefine]
  rfl

end

/-- A buffer no longer than the pcluster whose encoding saves no block is one raw span. -/
theorem packBuffer_raw (hne : buf ≠ []) (hlen : buf.length ≤ profile.pclusterSize)
    (hext : buf.length ≤ profile.maxExtentSize)
    (hcomp : P.compress worker.enc buf worker.probe = (enc, probe, some n))
    (hfit : ¬ fits blockSize profile.pclusterSize buf.length n) :
    packBuffer P blockSize profile buf worker = .ok [⟨buf, []⟩] := by
  obtain ⟨c, hc, hspan, hcc⟩ := packSpan_short blockSize hlen hcomp 0.5
  rw [if_neg hfit] at hcc
  have hrefine : refineSpan P blockSize buf c.comp c.worker = .ok (c.comp, c.worker) := by
    rw [refineSpan, hcc]
    cases P.finalize <;> rfl
  rw [packBuffer_whole hne hext hc hspan hrefine, hcc]

end

/-! ## A compressor for runs -/

theorem copyMatch_run (b : UInt8) (k n : Nat) :
    Lz4.copyMatch (replicate (k + 1) b) 1 n = replicate (k + 1 + n) b := by
  induction n generalizing k with
  | zero => rfl
  | succ n ih =>
    have hlast : (replicate (k + 1) b).getD ((replicate (k + 1) b).length - 1) 0 = b := by
      simp
    rw [Lz4.copyMatch, hlast, ← replicate_succ', ih (k + 1)]
    congr 1
    omega

/-- The encoding of a run: its first `lits` bytes as literals, a match that overlaps itself, and
    the five literals that the format wants at the end. -/
def literalRun (b : UInt8) (lits len : Nat) : Lz4.Block :=
  ⟨[⟨replicate lits b, 1, len - lits - 5⟩], replicate 5 b⟩

theorem decodeBlock_literalRun (b : UInt8) {lits len : Nat} (hpos : 0 < lits)
    (hlen : lits + 9 ≤ len) :
    Lz4.decodeBlock (literalRun b lits len).encode = some (replicate len b) := by
  have hparse : Lz4.parseBlock (literalRun b lits len).encode = some (literalRun b lits len) := by
    apply Lz4.parseBlock_encode
    intro s hs
    have hval : s = ⟨replicate lits b, 1, len - lits - 5⟩ := by simpa [literalRun] using hs
    rw [hval]
    exact ⟨show 1 < 65536 by decide, show 4 ≤ len - lits - 5 by omega⟩
  obtain ⟨k, rfl⟩ : ∃ k, lits = k + 1 := ⟨lits - 1, by omega⟩
  have hexp : (literalRun b (k + 1) len).expand = some (replicate len b) := by
    have hsum : k + 1 + (len - (k + 1) - 5) + 5 = len := by omega
    simp only [Lz4.Block.expand, literalRun, Lz4.expandSeqs, foldlM_cons, foldlM_nil,
      Lz4.expandSeq, nil_append]
    rw [if_pos ⟨Nat.le_refl 1, by rw [length_replicate]; omega⟩]
    show some (Lz4.copyMatch (replicate (k + 1) b) 1 (len - (k + 1) - 5) ++
      replicate 5 b) = _
    rw [copyMatch_run, ← replicate_add, hsum]
  rw [Lz4.decodeBlock, hparse]
  exact hexp

theorem length_lenBytes {v : Nat} (h : 15 ≤ v) : (Lz4.lenBytes v).length = (v - 15) / 255 + 1 := by
  rw [Lz4.lenBytes, if_pos h, Lz4.lenExt, length_append, length_replicate]
  rfl

theorem length_literalRun (b : UInt8) (lits len : Nat) :
    (literalRun b lits len).encode.length = 1 + (Lz4.lenBytes lits).length + lits + 2 +
      (Lz4.lenBytes (len - lits - 5 - Lz4.minMatch)).length + 6 := by
  have hfive : (Lz4.lenBytes 5).length = 0 := by decide
  simp only [literalRun, Lz4.Block.encode, Lz4.encodeSeqs, Lz4.Sequence.encode, Lz4.encodeTail,
    flatMap_cons, flatMap_nil, length_append, length_cons, length_nil,
    length_replicate, hfive]
  omega

/-- Compress runs, with as many literals as `lits` says, and give up on anything else. -/
def literalPackers (lits : Nat → Nat) : Packers Unit where
  compress _ src dst :=
    let b := src.headD 0
    let out := (literalRun b (lits src.length) src.length).encode
    if 0 < lits src.length ∧ lits src.length + 9 ≤ src.length ∧
        src = replicate src.length b ∧ out.length ≤ dst.length then
      ((), out ++ dst.drop out.length, some out.length)
    else ((), dst, some 0)
  finalize := none

theorem literalPackers_sound (lits : Nat → Nat) : (literalPackers lits).Sound := by
  constructor
  · intro enc src dst n hres hpos
    simp only [literalPackers] at hres ⊢
    split at hres
    · rename_i hrun
      rw [if_pos hrun]
      obtain ⟨hlits, hlen, hsrc, -⟩ := hrun
      cases hres
      refine ⟨by simp, ?_⟩
      rw [take_left, decodeBlock_literalRun _ hlits hlen, ← hsrc]
    · cases hres
      omega
  · nofun

/-- A run is compressed when the buffer has room for its encoding. -/
theorem literalPackers_run (lits : Nat → Nat) {b : UInt8} {len n : Nat} {dst : List UInt8}
    (hpos : 0 < lits len) (hlen : lits len + 9 ≤ len)
    (hn : (literalRun b (lits len) len).encode.length = n) (hroom : n ≤ dst.length) :
    (literalPackers lits).compress () (replicate len b) dst =
      ((), (literalRun b (lits len) len).encode ++ dst.drop n, some n) := by
  obtain ⟨k, rfl⟩ : ∃ k, len = k + 1 := ⟨len - 1, by omega⟩
  have hhead : (replicate (k + 1) b).headD 0 = b := rfl
  simp only [literalPackers, hhead, length_replicate]
  rw [if_pos ⟨hpos, hlen, trivial, by omega⟩, hn]

/-! ## The spans of a buffer -/

section

variable {σ : Type} {P : Packers σ} {blockSize : Nat} {profile : ZProfile}
variable (hP : P.Sound) (hbs : 0 < blockSize) (hprof : profile.Accepted blockSize)
include hP hbs hprof

/-- **What the packer makes of a buffer**, for any compressor that keeps its contract and
    any running ratio.  The spans are the buffer cut up in order; all but the last are
    whole blocks; one that is stored compressed saves a block, fits the pcluster and is an
    encoding of its own bytes.  The only error is the compressor's.  Each step stages its
    bytes while a buffer of the worker still holds them. -/
theorem packLoop_spans (last : Bool) (buf : List UInt8) (worker : PackWorker σ) (ratio : Float) :
    Runs P.Fails (loop (packStep P blockSize profile last) (buf.length + 1)
        { window := buf, worker := worker, ratio := ratio })
      (fun s => coveredBy s.spans = buf ∧ (∀ ps ∈ s.spans.dropLast, blockSize ∣ ps.raw.length) ∧
        ∀ ps ∈ s.spans, 0 < ps.raw.length ∧ ps.raw.length ≤ profile.maxExtentSize ∧
          (ps.comp = [] ∨ ps.comp.length ≤ profile.pclusterSize ∧
            ps.comp.length + blockSize ≤ ps.raw.length ∧ Lz4.decodeBlock ps.comp = some ps.raw)) ∧
    ∀ s, Cutting blockSize profile buf s.spans s.window →
      Runs P.Fails (packStep P blockSize profile last s) fun r => ∀ s', r = .next s' →
        Cutting blockSize profile buf s'.spans s'.window ∧
        ∃ ps, s'.spans = s.spans ++ [ps] ∧ s'.worker.Holds ps.comp := by
  constructor
  · apply (packLoop_runs hP hbs hprof last buf worker ratio).mono
    intro s hs
    exact ⟨hs.cover, hs.aligned, fun ps hps =>
      ⟨(hs.ok ps hps).pos, (hs.ok ps hps).le, (hs.ok ps hps).encodes⟩⟩
  · intro s hs
    apply (packStep_runs hP hbs hprof hs).mono
    rintro r hr s' rfl
    exact ⟨hr.1, hr.2.2⟩

end

/-- A run of 24 bytes becomes one span, stored as its encoding. -/
theorem packLoop_spans_run :
    let P := literalPackers fun _ => 1
    let profile : ZProfile := ⟨32, 64⟩
    let worker : PackWorker Unit := ⟨(), replicate 32 0, replicate 32 0⟩
    P.Sound ∧ profile.Accepted 4 ∧
      ∃ s comp, loop (packStep P 4 profile true) 25 { window := replicate 24 7, worker := worker } =
          .ok s ∧
        s.spans = [⟨replicate 24 7, comp⟩] ∧ comp.length = 10 ∧
        Lz4.decodeBlock comp = some (replicate 24 7) := by
  intro P profile worker
  have hP : P.Sound := literalPackers_sound fun _ => 1
  have hprof : profile.Accepted 4 := (ZProfile.accepted_iff _ _).mp (by decide)
  have hrun : P.compress () (replicate 24 7) worker.probe =
      ((), (literalRun 7 1 24).encode ++ worker.probe.drop 10, some 10) :=
    literalPackers_run (fun _ => 1) (by decide) (by decide) (by decide) (by decide)
  obtain ⟨c, hc, hspan, hcomp⟩ :=
    packSpan_short 4 (show (replicate 24 7).length ≤ profile.pclusterSize by decide) hrun 0.5
  have hten : c.comp.length = 10 := by
    rw [hcomp]
    decide
  have hloop := packLoop_whole (by decide) (by decide) hc hspan rfl
  obtain ⟨s, hs, -, -, hspans⟩ | ⟨e, he, -⟩ :=
    (packLoop_spans hP (by decide) hprof true (replicate 24 7) worker 0.5).1
  · cases hs.symm.trans hloop
    obtain ⟨-, -, hnil | ⟨-, -, hdec⟩⟩ := hspans _ mem_cons_self
    · exact absurd (congrArg length hnil) (by simp [hten])
    · exact ⟨hP, hprof, _, c.comp, hloop, rfl, hten, hdec⟩
  · cases hloop.symm.trans he

end Orchestrator.Erofs

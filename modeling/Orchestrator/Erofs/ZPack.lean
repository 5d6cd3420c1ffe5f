/-
  Orchestrator.Erofs.ZPack

  How the packer cuts a stream into spans: `packSpan`, which probes candidate spans
  with the real compressor, `refineSpan`, which encodes the chosen one again with a
  stronger compressor, and the loop of `packBuffer`.

  The compressors are parameters.  They work on the buffers of a worker, which hold
  whatever earlier spans left there, and are only asked to return either 0 or the
  length of an encoding that decodes to the span (`Packers.Sound`).  Nothing is asked of
  the running ratio, which only steers the search.
-/

import Orchestrator.Erofs.ZIndex
import Orchestrator.Lib.Lz4Block

namespace Orchestrator.Erofs

open Lib Lib.Exec List

/-! ## Profiles, compressors and workers -/

inductive PackError where
  | compress
  | unexpectedEOF
  | spoolWrite
  | fuel
deriving DecidableEq, Repr

instance : OutOfFuel PackError := ⟨.fuel⟩

/-- The errors that come from outside the packer. -/
def PackError.External (e : PackError) : Prop := e ≠ .fuel

structure ZProfile where
  pclusterSize : Nat
  maxExtentSize : Nat
deriving DecidableEq, Repr

def zFormatMaxExtentSize : Nat := 12 <<< 20

def validatePCluster (blockSize size : Nat) : Bool :=
  ¬ (size % blockSize ≠ 0 ∨ size ≤ 0 ∨ 1 <<< 20 < size)

def validateExtent (blockSize size : Nat) : Bool :=
  ¬ (size % blockSize ≠ 0 ∨ size ≤ 0 ∨ zFormatMaxExtentSize < size)

/-- The profiles that `newZState` accepts. -/
def ZProfile.accepted (blockSize : Nat) (p : ZProfile) : Bool :=
  validatePCluster blockSize p.pclusterSize && validateExtent blockSize p.maxExtentSize

/-- `zCompressor` and `zFinalizer`: both get the encoder, the input and the output
    buffer, and return the encoder and the buffer afterwards; no length is an error. -/
structure Packers (σ : Type) where
  compress : σ → List UInt8 → List UInt8 → σ × List UInt8 × Option Nat
  finalize : Option (σ → List UInt8 → List UInt8 → Nat → σ × List UInt8 × Option (Nat × Bool))

/-- `zPackWorker`: an encoder and its two buffers. -/
structure PackWorker (σ : Type) where
  enc : σ
  probe : List UInt8
  kept : List UInt8

/-- `*probe, *kept = *kept, *probe`. -/
def PackWorker.swap {σ : Type} (w : PackWorker σ) : PackWorker σ :=
  { w with probe := w.kept, kept := w.probe }

section

variable {σ : Type} (P : Packers σ)

/-! ## Choosing a span -/

/-- `clamp`, for a window of `len` bytes. -/
def clamp (blockSize pc len : Nat) (final : Bool) (n : Nat) : Nat :=
  if len ≤ n ∧ final then len
  else
    let n := if len ≤ n then len else n
    let n := if n < pc then min pc len else n
    let aligned := n / blockSize * blockSize
    if 0 < aligned ∧ (¬ final ∨ n ≠ len) then aligned else n

/-- `fits`: within the pcluster, and saving at least one block. -/
def fits (blockSize pc span compLen : Nat) : Prop :=
  0 < compLen ∧ compLen ≤ pc ∧ compLen + blockSize ≤ span

instance (blockSize pc span compLen : Nat) : Decidable (fits blockSize pc span compLen) := by
  unfold fits
  infer_instance

structure Search (σ : Type) where
  cand : Nat
  best : Nat := 0
  bestLen : Nat := 0
  tooBig : Nat := 0
  lastCand : Nat := 0
  worker : PackWorker σ

def grow (blockSize pc len : Nat) (final : Bool) (cand tooBig n : Nat) : Nat :=
  clamp blockSize pc len final
    (if tooBig ≠ 0 then (cand + tooBig) / 2 else cand * pc * 31 / 32 / n)

/-- What a probe of `cand` that gave `n` bytes means for the search. -/
def searchNext (blockSize pc len : Nat) (final : Bool) (s : Search σ) (n : Nat) :
    Step (Search σ) (Search σ) :=
  let s := { s with lastCand := s.cand }
  if fits blockSize pc s.cand n then
    let s := { s with best := s.cand, bestLen := n, worker := s.worker.swap }
    -- the pcluster is as good as full, or the stream is exhausted
    if pc * 31 / 32 ≤ n ∨ s.cand = len then .done s
    else
      let grown := grow blockSize pc len final s.cand s.tooBig n
      if grown ≤ s.best ∨ (s.tooBig ≠ 0 ∧ s.tooBig ≤ grown) then .done s
      else .next { s with cand := grown }
  else
    -- 0 stands for incompressible at this size
    let n := if n = 0 then s.cand else n
    let s := { s with tooBig := s.cand }
    if s.best ≠ 0 then
      let shrunk := clamp blockSize pc len final ((s.best + s.tooBig) / 2)
      if shrunk ≤ s.best ∨ s.tooBig ≤ shrunk then .done s
      else .next { s with cand := shrunk }
    else
      let shrunk := clamp blockSize pc len final (s.cand * pc * 15 / 16 / n)
      if s.cand ≤ shrunk then .done s
      else .next { s with cand := shrunk }

def PackWorker.tryCompress (w : PackWorker σ) (src : List UInt8) :
    Except PackError (Nat × PackWorker σ) :=
  let (enc, probe, r) := P.compress w.enc src w.probe
  match r with
  | none => .error .compress
  | some n => .ok (n, { w with enc := enc, probe := probe })

/-- The probes of the search, at most `k` of them. -/
def search (blockSize pc : Nat) (window : List UInt8) (final : Bool) :
    Nat → Search σ → Except PackError (Search σ)
  | 0, s => .ok s
  | k + 1, s => do
    let (n, worker) ← s.worker.tryCompress P (window.take s.cand)
    match searchNext blockSize pc window.length final { s with worker := worker } n with
    | .done s => return s
    | .next s => search blockSize pc window final k s

/-- The chosen span: its length, its encoding (empty when it is stored raw), the
    worker and the ratio afterwards. -/
structure Chosen (σ : Type) where
  span : Nat
  comp : List UInt8
  worker : PackWorker σ
  ratio : Float

def nextRatio (ratio : Float) (bestLen best : Nat) : Float :=
  0.75 * ratio + 0.25 * Float.ofNat bestLen / Float.ofNat best

def firstCand (pc : Nat) (ratio : Float) : Nat :=
  (Float.ofNat pc / max ratio 0.02 * 0.98).toUInt64.toNat

/-- The span that the search found, kept in the worker's second buffer. -/
def Search.chosen (s : Search σ) (ratio : Float) : Chosen σ :=
  { span := s.best
    comp := s.worker.kept.take s.bestLen
    worker := s.worker
    ratio := nextRatio ratio s.bestLen s.best }

/-- The last resort of `packSpan`: a single pcluster of input. -/
def lastResort (blockSize pc : Nat) (window : List UInt8) (final : Bool) (ratio : Float)
    (s : Search σ) : Except PackError (Chosen σ) :=
  let cand := clamp blockSize pc window.length final pc
  if cand = s.lastCand then .ok ⟨cand, [], s.worker, ratio⟩
  else do
    let (n, worker) ← s.worker.tryCompress P (window.take cand)
    if ¬ fits blockSize pc cand n then return ⟨cand, [], worker, ratio⟩
    else
      let s := { s with best := cand, bestLen := n, worker := worker.swap }
      return s.chosen ratio

def packSpan (blockSize : Nat) (window : List UInt8) (profile : ZProfile) (worker : PackWorker σ)
    (final : Bool) (ratio : Float) : Except PackError (Chosen σ) := do
  let pc := profile.pclusterSize
  let cand := clamp blockSize pc window.length final (firstCand pc ratio)
  let s ← search P blockSize pc window final 5 { cand := cand, worker := worker }
  if s.best = 0 then lastResort P blockSize pc window final ratio s
  else return s.chosen ratio

/-- `refineSpan`; the scratch buffer is the probe buffer of the worker. -/
def refineSpan (blockSize : Nat) (span comp : List UInt8) (worker : PackWorker σ) :
    Except PackError (List UInt8 × PackWorker σ) :=
  match P.finalize with
  | none => .ok (comp, worker)
  | some finalize =>
    if comp = [] then .ok (comp, worker)
    else if span.length * 3 < comp.length * 4 then .ok (comp, worker)
    else
      let fastBlocks := (comp.length + blockSize - 1) / blockSize
      if fastBlocks = 1 then .ok (comp, worker)
      else
        let (enc, scratch, r) :=
          finalize worker.enc span worker.probe ((fastBlocks - 1) * blockSize)
        let worker := { worker with enc := enc, probe := scratch }
        match r with
        | none => .error .compress
        | some (n, withinLimit) =>
          if ¬ withinLimit then .ok (comp, worker)
          else if 0 < n ∧ n < comp.length ∧ n + blockSize ≤ span.length then
            .ok (scratch.take n, worker)
          else .ok (comp, worker)

/-! ## Packing a buffer -/

/-- `packedSpan`: an extent to be.  An empty `comp` stores the span raw. -/
structure PackedSpan where
  raw : List UInt8
  comp : List UInt8
deriving DecidableEq, Repr

structure Packing (σ : Type) where
  window : List UInt8
  spans : List PackedSpan := []
  ratio : Float := 0.5
  worker : PackWorker σ

/-- One span off the window.  `last` is set when the window ends the stream. -/
def packStep (blockSize : Nat) (profile : ZProfile) (last : Bool) (s : Packing σ) :
    Except PackError (Step (Packing σ) (Packing σ)) :=
  if s.window = [] then .ok (.done s)
  else do
    let candidate := s.window.take (min s.window.length profile.maxExtentSize)
    let final := last && candidate.length = s.window.length
    let c ← packSpan P blockSize candidate profile s.worker final s.ratio
    let (comp, worker) ← refineSpan P blockSize (s.window.take c.span) c.comp c.worker
    return .next
      { window := s.window.drop c.span
        spans := s.spans ++ [⟨s.window.take c.span, comp⟩]
        ratio := c.ratio
        worker := worker }

/-- The loop over a buffer: `packBuffer`, and a worker's loop over a segment. -/
def packWindow (blockSize : Nat) (profile : ZProfile) (last : Bool) (buf : List UInt8)
    (worker : PackWorker σ) : Except PackError (Packing σ) :=
  loop (packStep P blockSize profile last) (buf.length + 1) { window := buf, worker := worker }

def packBuffer (blockSize : Nat) (profile : ZProfile) (buf : List UInt8) (worker : PackWorker σ) :
    Except PackError (List PackedSpan) := do
  let s ← packWindow P blockSize profile true buf worker
  return s.spans

end

/-! ## What the compressors promise -/

/-- A compressor that returns a length has put an encoding of its input there. -/
structure Packers.Sound {σ : Type} (P : Packers σ) : Prop where
  compress : ∀ enc src dst n, (P.compress enc src dst).2.2 = some n → 0 < n →
    n ≤ (P.compress enc src dst).2.1.length ∧
      Lz4.decodeBlock ((P.compress enc src dst).2.1.take n) = some src
  finalize : ∀ f, P.finalize = some f → ∀ enc src dst limit n,
    (f enc src dst limit).2.2 = some (n, true) → 0 < n →
    n ≤ (f enc src dst limit).2.1.length ∧
      Lz4.decodeBlock ((f enc src dst limit).2.1.take n) = some src

def Packers.Fails {σ : Type} (P : Packers σ) (e : PackError) : Prop :=
  e = .compress ∧ ((∃ enc src dst, (P.compress enc src dst).2.2 = none) ∨
    ∃ f, P.finalize = some f ∧ ∃ enc src dst limit, (f enc src dst limit).2.2 = none)

theorem Packers.Fails.external {σ : Type} {P : Packers σ} (e : PackError) (h : P.Fails e) :
    e.External := by
  rw [PackError.External, h.1]
  nofun

/-- `comp` is what one of the worker's buffers starts with. -/
def PackWorker.Holds {σ : Type} (w : PackWorker σ) (comp : List UInt8) : Prop :=
  comp = w.kept.take comp.length ∨ comp = w.probe.take comp.length

/-- What is stored for a span: the span itself, or an encoding that is within the
    pcluster and saves a block. -/
def Encodes (blockSize pc : Nat) (raw comp : List UInt8) : Prop :=
  comp = [] ∨ (comp.length ≤ pc ∧ comp.length + blockSize ≤ raw.length ∧
    Lz4.decodeBlock comp = some raw)

/-! ## Spans end on blocks -/

/-- A length that `clamp` may give: on a block boundary, or the whole window. -/
structure SpanEnd (blockSize len n : Nat) : Prop where
  pos : 0 < n
  le : n ≤ len
  aligned : blockSize ∣ n ∨ n = len

section

variable {σ : Type} {P : Packers σ} {blockSize pc : Nat} {window : List UInt8} {final : Bool}

theorem clamp_spanEnd {len : Nat} (hbs : 0 < blockSize) (hpc : blockSize ∣ pc) (hpos : 0 < pc)
    (hlen : 0 < len) (n : Nat) : SpanEnd blockSize len (clamp blockSize pc len final n) := by
  have hle : blockSize ≤ pc := Nat.le_of_dvd hpos hpc
  rw [clamp]
  by_cases hall : len ≤ n ∧ final = true
  · rw [if_pos hall]
    exact ⟨hlen, Nat.le_refl _, .inr rfl⟩
  rw [if_neg hall]
  -- the candidate before it is aligned
  obtain ⟨m, hm⟩ : ∃ m, m = if (if len ≤ n then len else n) < pc then min pc len
    else if len ≤ n then len else n := ⟨_, rfl⟩
  have hm0 : 0 < m := by
    rw [hm]
    split <;> split <;> omega
  have hmle : m ≤ len := by
    rw [hm]
    split <;> split <;> omega
  have hshort : m < pc → m = len := by
    rw [hm]
    split <;> split <;> omega
  have hdiv := Nat.div_mul_le_self m blockSize
  simp only [← hm]
  by_cases hcut : 0 < m / blockSize * blockSize ∧ (¬ final = true ∨ m ≠ len)
  · rw [if_pos hcut]
    exact ⟨hcut.1, by omega, .inl (Nat.dvd_mul_left _ _)⟩
  rw [if_neg hcut]
  refine ⟨hm0, hmle, ?_⟩
  by_cases hsmall : m < blockSize
  · -- nothing to cut: the window is shorter than a block
    exact .inr (hshort (by omega))
  have hq : 0 < m / blockSize * blockSize :=
    Nat.mul_pos (Nat.div_pos (by omega) hbs) hbs
  exact .inr (by_contra fun hml => hcut ⟨hq, .inr hml⟩)

/-! ## The search -/

theorem tryCompress_runs (hP : P.Sound) (w : PackWorker σ) (src : List UInt8) :
    Runs P.Fails (w.tryCompress P src) fun r =>
      r.2.kept = w.kept ∧ (0 < r.1 → r.1 ≤ r.2.probe.length ∧
        Lz4.decodeBlock (r.2.probe.take r.1) = some src) := by
  rw [PackWorker.tryCompress]
  have hsound := hP.compress w.enc src w.probe
  cases h : (P.compress w.enc src w.probe).2.2 with
  | none =>
    simp only [h]
    exact runs_error ⟨rfl, .inl ⟨_, _, _, h⟩⟩
  | some n =>
    simp only [h]
    exact runs_ok ⟨rfl, fun hn => hsound n h hn⟩

/-- The state of the search: the candidate may be probed, and a span that was found
    is encoded in the kept buffer. -/
structure SearchOK (blockSize pc : Nat) (window : List UInt8) (s : Search σ) : Prop where
  cand : SpanEnd blockSize window.length s.cand
  found : s.best ≠ 0 → SpanEnd blockSize window.length s.best ∧
    fits blockSize pc s.best s.bestLen ∧ s.bestLen ≤ s.worker.kept.length ∧
    Lz4.decodeBlock (s.worker.kept.take s.bestLen) = some (window.take s.best)

/-- The state that a step of the search leaves, whether it goes on or not. -/
def Search.after : Step (Search σ) (Search σ) → Search σ
  | .next s => s
  | .done s => s

/-- A probe that fits becomes the span in hand; one that does not leaves it. -/
theorem searchNext_after (blockSize pc : Nat) (window : List UInt8) (final : Bool) (s : Search σ)
    (n : Nat) :
    ∃ cand, (cand = s.cand ∨ ∃ m, cand = clamp blockSize pc window.length final m) ∧
      Search.after (searchNext blockSize pc window.length final s n) =
        if fits blockSize pc s.cand n then
          { s with
            cand := cand, lastCand := s.cand, best := s.cand, bestLen := n, worker := s.worker.swap }
        else { s with cand := cand, lastCand := s.cand, tooBig := s.cand } := by
  rw [searchNext]
  by_cases hfit : fits blockSize pc s.cand n
  · simp only [if_pos hfit]
    split
    · exact ⟨s.cand, .inl rfl, rfl⟩
    · split
      · exact ⟨s.cand, .inl rfl, rfl⟩
      · exact ⟨_, .inr ⟨_, rfl⟩, rfl⟩
  · simp only [if_neg hfit]
    by_cases hb : s.best ≠ 0
    · rw [if_pos hb]
      split
      · exact ⟨s.cand, .inl rfl, rfl⟩
      · exact ⟨_, .inr ⟨_, rfl⟩, rfl⟩
    · rw [if_neg hb]
      by_cases hstop : s.cand ≤ clamp blockSize pc window.length final
          (s.cand * pc * 15 / 16 / if n = 0 then s.cand else n)
      · rw [if_pos hstop]
        exact ⟨s.cand, .inl rfl, rfl⟩
      · rw [if_neg hstop]
        exact ⟨_, .inr ⟨_, rfl⟩, rfl⟩

theorem searchNext_ok
    (hclamp : ∀ n, SpanEnd blockSize window.length (clamp blockSize pc window.length final n))
    {s : Search σ} (hs : SearchOK blockSize pc window s) {n : Nat}
    (hprobe : 0 < n → n ≤ s.worker.probe.length ∧
      Lz4.decodeBlock (s.worker.probe.take n) = some (window.take s.cand)) :
    SearchOK blockSize pc window
      (Search.after (searchNext blockSize pc window.length final s n)) := by
  obtain ⟨cand, hcand, hafter⟩ := searchNext_after blockSize pc window final s n
  have hend : SpanEnd blockSize window.length cand := by
    rcases hcand with rfl | ⟨m, rfl⟩
    · exact hs.cand
    · exact hclamp m
  rw [hafter]
  split
  · rename_i hfit
    obtain ⟨hlen, hdec⟩ := hprobe hfit.1
    exact ⟨hend, fun _ => ⟨hs.cand, hfit, hlen, hdec⟩⟩
  · exact ⟨hend, hs.found⟩

theorem search_runs (hP : P.Sound)
    (hclamp : ∀ n, SpanEnd blockSize window.length (clamp blockSize pc window.length final n))
    (k : Nat) {s : Search σ} (hs : SearchOK blockSize pc window s) :
    Runs P.Fails (search P blockSize pc window final k s)
      (SearchOK blockSize pc window) := by
  induction k generalizing s with
  | zero => exact runs_ok hs
  | succ k ih =>
    rw [search]
    apply Runs.bind (tryCompress_runs hP s.worker (window.take s.cand))
    rintro ⟨n, worker⟩ ⟨hkept, hprobe⟩
    have hs' : SearchOK blockSize pc window { s with worker := worker } := by
      refine ⟨hs.cand, fun hb => ?_⟩
      simp only at hkept ⊢
      rw [hkept]
      exact hs.found hb
    have hnext := searchNext_ok hclamp hs' hprobe
    simp only
    cases hstep : searchNext blockSize pc window.length final { s with worker := worker } n with
    | done s' =>
      rw [hstep] at hnext
      exact runs_pure hnext
    | next s' =>
      rw [hstep] at hnext
      exact ih hnext

structure ChosenOK (blockSize pc : Nat) (window : List UInt8) (c : Chosen σ) : Prop where
  span : SpanEnd blockSize window.length c.span
  comp : Encodes blockSize pc (window.take c.span) c.comp
  held : c.comp = c.worker.kept.take c.comp.length

theorem SearchOK.chosen {s : Search σ} (hs : SearchOK blockSize pc window s)
    (hb : s.best ≠ 0) (ratio : Float) :
    ChosenOK blockSize pc window (s.chosen ratio) := by
  obtain ⟨hend, ⟨-, hpc, hsave⟩, hlen, hdec⟩ := hs.found hb
  have hcomp : (s.worker.kept.take s.bestLen).length = s.bestLen := by
    rw [length_take]
    omega
  have hspan : (window.take s.best).length = s.best := by
    have := hend.le
    rw [length_take]
    omega
  refine ⟨hend, .inr ⟨?_, ?_, hdec⟩, ?_⟩
  · show (s.worker.kept.take s.bestLen).length ≤ pc
    omega
  · show (s.worker.kept.take s.bestLen).length + blockSize ≤ (window.take s.best).length
    omega
  · show _ = s.worker.kept.take (s.worker.kept.take s.bestLen).length
    rw [hcomp]
    rfl

theorem lastResort_runs (hP : P.Sound)
    (hclamp : ∀ n, SpanEnd blockSize window.length (clamp blockSize pc window.length final n))
    (ratio : Float) (s : Search σ) :
    Runs P.Fails (lastResort P blockSize pc window final ratio s)
      (ChosenOK blockSize pc window) := by
  rw [lastResort]
  split
  · exact runs_ok ⟨hclamp _, .inl rfl, rfl⟩
  apply Runs.bind (tryCompress_runs hP s.worker _)
  rintro ⟨n, worker⟩ ⟨-, hprobe⟩
  simp only
  split
  · exact runs_pure ⟨hclamp _, .inl rfl, rfl⟩
  rename_i hfit
  have hfit' : fits blockSize pc (clamp blockSize pc window.length final pc) n := by
    simpa using hfit
  obtain ⟨hlen, hdec⟩ := hprobe hfit'.1
  have hok : SearchOK blockSize pc window
      { s with
        best := clamp blockSize pc window.length final pc
        bestLen := n
        worker := worker.swap
        cand := clamp blockSize pc window.length final pc } :=
    ⟨hclamp _, fun _ => ⟨hclamp _, hfit', hlen, hdec⟩⟩
  have hne : clamp blockSize pc window.length final pc ≠ 0 := by
    have := (hclamp pc).pos
    omega
  exact runs_pure (hok.chosen hne ratio)

/-- **`packSpan` chooses a span that may be stored**, for any estimate and any state of
    the worker. -/
theorem packSpan_runs (hP : P.Sound) {profile : ZProfile} (hbs : 0 < blockSize)
    (hpc : blockSize ∣ profile.pclusterSize) (hpos : 0 < profile.pclusterSize)
    (hwindow : 0 < window.length) (worker : PackWorker σ) (ratio : Float) :
    Runs P.Fails (packSpan P blockSize window profile worker final ratio)
      (ChosenOK blockSize profile.pclusterSize window) := by
  have hclamp : ∀ n, SpanEnd blockSize window.length
      (clamp blockSize profile.pclusterSize window.length final n) :=
    clamp_spanEnd hbs hpc hpos hwindow
  rw [packSpan]
  apply Runs.bind (search_runs hP hclamp 5
    (s := { cand := _, worker := worker }) ⟨hclamp _, fun hc => absurd rfl hc⟩)
  intro s hs
  split
  · exact lastResort_runs hP hclamp ratio s
  · rename_i hb
    exact runs_pure (hs.chosen hb ratio)

/-- **`refineSpan` keeps what it was given, or has a shorter encoding.** -/
theorem refineSpan_runs (hP : P.Sound) {span comp : List UInt8}
    (hcomp : Encodes blockSize pc span comp) {worker : PackWorker σ}
    (hheld : comp = worker.kept.take comp.length) :
    Runs P.Fails (refineSpan P blockSize span comp worker)
      fun r => Encodes blockSize pc span r.1 ∧ r.2.Holds r.1 := by
  rw [refineSpan]
  cases hf : P.finalize with
  | none => exact runs_ok ⟨hcomp, .inl hheld⟩
  | some finalize =>
    simp only
    split
    · exact runs_ok ⟨hcomp, .inl hheld⟩
    rename_i hne
    split
    · exact runs_ok ⟨hcomp, .inl hheld⟩
    split
    · exact runs_ok ⟨hcomp, .inl hheld⟩
    -- the second encoding has to save a block over the first
    obtain ⟨limit, hlimit⟩ : ∃ limit, limit =
      ((comp.length + blockSize - 1) / blockSize - 1) * blockSize := ⟨_, rfl⟩
    rw [← hlimit]
    cases hr : (finalize worker.enc span worker.probe limit).2.2 with
    | none => exact runs_error ⟨rfl, .inr ⟨_, hf, _, _, _, _, hr⟩⟩
    | some r =>
      obtain ⟨n, withinLimit⟩ := r
      simp only
      cases withinLimit with
      | false => exact runs_ok ⟨hcomp, .inl hheld⟩
      | true =>
        rw [if_neg (by simp)]
        split
        · rename_i hn
          obtain ⟨hlen, hdec⟩ := hP.finalize finalize hf _ _ _ _ n hr hn.1
          have hpc : comp.length ≤ pc := by
            rcases hcomp with hnil | hcomp
            · exact absurd hnil hne
            · exact hcomp.1
          refine runs_ok ⟨.inr ⟨?_, ?_, hdec⟩, .inr ?_⟩
          · rw [length_take]
            omega
          · rw [length_take]
            omega
          · rw [length_take, Nat.min_eq_left hlen]
        · exact runs_ok ⟨hcomp, .inl hheld⟩

end

end Orchestrator.Erofs

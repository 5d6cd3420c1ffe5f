/-
  Orchestrator.Erofs.Lz4Enc.CompressBlock

  The lazy compressor `CompressBlock`.

  The outer loop looks for a match at `i`; the inner one repeatedly replaces it
  by a wider match that begins inside it, cutting the old one short or dropping
  it.  Anchor, match and output move together, so one invariant covers both
  loops: the sequences written so far stand for the source up to the anchor
  (`Emitted`), and the match in hand is an `IsMatch` that starts at or after it.
  The inner loop ends because the end of the match in hand grows.
-/

import Orchestrator.Erofs.Lz4Enc.Emit

namespace Orchestrator.Erofs.Lz4Enc

open Lib Lib.Exec
open Lib.Lz4 (Sequence)

/-! ## The compressor -/

structure ParseState where
  enc : LZ4HCEncoder
  dst : List UInt8
  d : Int
  anchor : Int
  i : Int

/-- How a parse ends: a sequence did not fit, and the block is given up, or there
    is nothing left to match. -/
inductive Exit (σ : Type) where
  | full (st : ParseState)
  | parsed (s : σ)

/-- Emit the literals from the anchor and then the match; `none` when they do not
    fit.  The anchor moves to the end of the match. -/
def ParseState.emitMatch (st : ParseState) (src : List UInt8) (start offset mlen : Int) :
    Exec (Option ParseState) := do
  let literals ← slice src st.anchor start
  let (dst, d, ok) ← emitSequence st.dst st.d literals offset mlen
  if ok then return some { st with dst := dst, d := d, anchor := start + mlen }
  else return none

/-- One round of the overlap-resolving lazy loop. -/
def lazyStep (src : List UInt8) (mfLimit : Int) (s : ParseState × Match) :
    Exec (Step (ParseState × Match) (Exit (ParseState × Match))) :=
  let (st, m) := s
  let probeAt := m.start + m.len - 2
  if m.start < probeAt ∧ probeAt < mfLimit then do
    let enc ← st.enc.insertRange src (max (st.i + 1) (probeAt - 2)) (min (probeAt + 1) mfLimit)
    let st := { st with enc := enc }
    let m2 ← enc.widerMatch src probeAt m.start
    if m2.len ≤ m.len ∨ m2.start + m2.len ≤ m.start + m.len then return .done (.parsed (st, m))
    else if m2.start ≤ m.start then return .next (st, m2)
    else
      let keep := m2.start - m.start
      if lz4MinMatch ≤ keep then
        match ← st.emitMatch src m.start (m.start - m.ref) keep with
        | none => return .done (.full st)
        | some st => return .next (st, m2)
      else
        -- too little remains of the old match: its bytes stay literals
        return .next (st, m2)
  else .ok (.done (.parsed s))

def lazyBody (src : List UInt8) (mfLimit : Int) (st : ParseState) :
    Exec (Step ParseState (Exit ParseState)) :=
  if st.i < mfLimit then do
    let m ← st.enc.widerMatch src st.i st.anchor
    if m.len = 0 then
      let i := st.i + 1
      if i < mfLimit then return .next { st with enc := ← st.enc.insert src i, i := i }
      else return .next { st with i := i }
    else
      match ← loop (lazyStep src mfLimit) (src.length + 1) (st, m) with
      | .full st => return .done (.full st)
      | .parsed (st, m) =>
        match ← st.emitMatch src m.start (m.start - m.ref) m.len with
        | none => return .done (.full st)
        | some st =>
          let next := m.start + m.len
          let enc ← st.enc.insertRange src (max (st.i + 1) (next - lz4MaxDistance))
            (min next mfLimit)
          return .next { st with enc := enc, i := next }
  else .ok (.done (.parsed st))

/-- `CompressBlock`: the size of the block (0 when it does not fit), the buffer and
    the encoder afterwards.  The error result is always nil. -/
def LZ4HCEncoder.compressBlock (e : LZ4HCEncoder) (src dst : List UInt8) :
    Exec (Int × List UInt8 × LZ4HCEncoder) :=
  if src.length < lz4MFLimit + lz4MinMatch then do
    let (dst, n) ← emitTail src dst 0 0
    return (n, dst, e)
  else do
    let mfLimit := src.length - lz4MFLimit
    let enc ← (e.reset src.length).insert src 0
    match ← loop (lazyBody src mfLimit) (src.length + 1) ⟨enc, dst, 0, 0, 0⟩ with
    | .full st => return (0, st.dst, st.enc)
    | .parsed st =>
      let (dst, n) ← emitTail src st.dst st.d st.anchor
      return (n, dst, st.enc)

/-! ## The invariant -/

/-- Tables and output of a parse in progress; `size` is the length of the
    destination, which never changes. -/
structure Parsing (src : List UInt8) (size : Nat) (st : ParseState) : Prop where
  indexed : Indexed st.enc src.length
  emitted : ∃ seqs, Emitted src st.dst st.d st.anchor seqs
  size_eq : st.dst.length = size
  i_nonneg : 0 ≤ st.i

variable {src : List UInt8} {st : ParseState} {size : Nat}

theorem Parsing.anchor_nonneg (h : Parsing src size st) : 0 ≤ st.anchor := by
  obtain ⟨seqs, hemit⟩ := h.emitted
  exact hemit.anchor_nonneg

/-- Emitting a match writes its sequence and moves only the output. -/
theorem emitMatch_advanced {m : Match} (h : Parsing src size st) (hm : IsMatch src m)
    (hle : st.anchor ≤ m.start) :
    Sat (st.emitMatch src m.start (m.start - m.ref) m.len) fun r => ∀ st', r = some st' →
      Advanced st.dst st.d (matchSequence src st.anchor m).encode st'.dst st'.d ∧
        st' = { st with dst := st'.dst, d := st'.d, anchor := m.start + m.len } := by
  obtain ⟨seqs, hemit⟩ := h.emitted
  have hanchor := hemit.anchor_nonneg
  have hcursor := hemit.cursor
  have href := hm.ref_nonneg
  have hlt := hm.ref_lt_start
  have hmin := hm.minMatch_le
  have hstart := hm.start_lt
  refine Sat.bind (slice_sat hanchor hle (by omega)) ?_
  rintro literals rfl
  have hoff : m.start - m.ref = (m.start - m.ref).toNat := by omega
  have hlen : m.len = m.len.toNat := by omega
  rw [hoff, hlen]
  refine Sat.bind (emitSequence_sat _ _ _ (by omega) (by omega)) ?_
  rintro ⟨dst, d, ok⟩ hadv
  cases ok with
  | false => exact sat_pure (by simp)
  | true =>
    have hadv' := hadv rfl
    refine sat_pure ?_
    rintro st' hst'
    cases hst'
    exact ⟨hadv', rfl⟩

/-- Emitting a match keeps the invariant and moves only the output: forward, within the buffer. -/
theorem emitMatch_sat {m : Match} (h : Parsing src size st) (hm : IsMatch src m)
    (hle : st.anchor ≤ m.start) :
    Sat (st.emitMatch src m.start (m.start - m.ref) m.len) fun r => ∀ st', r = some st' →
      Parsing src size st' ∧ st'.enc = st.enc ∧ st'.i = st.i ∧
        st'.anchor = m.start + m.len ∧ st.d ≤ st'.d ∧ st'.d ≤ size := by
  obtain ⟨seqs, hemit⟩ := h.emitted
  refine (emitMatch_advanced h hm hle).mono ?_
  intro r hr st' hst'
  obtain ⟨hadv, heq⟩ := hr st' hst'
  have hsnoc := hemit.snoc hm hle hadv
  have hsize : st'.dst.length = size := by rw [← h.size_eq]; exact hadv.length_eq
  have hcursor := hadv.cursor
  have hfits := hsnoc.cursor_le
  rw [heq]
  exact ⟨⟨h.indexed, ⟨_, hsnoc⟩, hsize, h.i_nonneg⟩, rfl, rfl, rfl, by simp only; omega,
    by simp only; omega⟩

/-- The invariant of the lazy loop: the match in hand starts at or after the
    anchor and runs past `i`. -/
structure Holding (src : List UInt8) (size : Nat) (i : Int) (s : ParseState × Match) : Prop where
  parsing : Parsing src size s.1
  i_eq : s.1.i = i
  isMatch : IsMatch src s.2
  anchor_le : s.1.anchor ≤ s.2.start
  past : i + 4 ≤ s.2.start + s.2.len

theorem lazyStep_sat {i : Int} {s : ParseState × Match} (h : Holding src size i s) :
    Sat (lazyStep src (src.length - lz4MFLimit) s) fun r =>
      match r with
      | .next s' => Holding src size i s' ∧
          (src.length - (s'.2.start + s'.2.len)).toNat < (src.length - (s.2.start + s.2.len)).toNat
      | .done (.full st) => st.dst.length = size
      | .done (.parsed s') => Holding src size i s' := by
  obtain ⟨st, m⟩ := s
  obtain ⟨hparse, rfl, hm, hanchor, hpast⟩ := h
  simp only at hparse hm hanchor hpast
  have hmin := hm.minMatch_le
  have hend := hm.end_le
  have href := hm.ref_nonneg
  have hlt := hm.ref_lt_start
  have hi := hparse.i_nonneg
  simp only [lazyStep]
  by_cases hprobe : m.start < m.start + m.len - 2 ∧ m.start + m.len - 2 < src.length - lz4MFLimit
  · rw [if_pos hprobe]
    simp only [lz4MFLimit] at hprobe
    refine Sat.bind (insertRange_sat hparse.indexed (by omega) (by rw [lz4MFLimit]; omega)) ?_
    rintro enc ⟨henc, _⟩
    have hparse' : Parsing src size { st with enc := enc } :=
      ⟨henc, hparse.emitted, hparse.size_eq, hparse.i_nonneg⟩
    refine Sat.bind (widerMatch_sat henc (by omega) (by omega) hprobe.2) ?_
    intro m2 hfound
    split
    · exact sat_pure ⟨hparse', rfl, hm, hanchor, hpast⟩
    rename_i hwider
    rcases hfound with hnone | ⟨hm2, hstart2, hstart2', hpast2⟩
    · omega
    have hend2 := hm2.end_le
    split
    · -- the wider match covers the one in hand
      refine sat_pure ⟨⟨hparse', rfl, hm2, ?_, ?_⟩, ?_⟩ <;> simp only <;> omega
    split
    · rename_i hkeep
      have hkeepm := hm.truncate (m2.start - m.start) hkeep (by omega)
      refine Sat.bind (emitMatch_sat hparse' hkeepm hanchor) ?_
      intro r hr
      cases r with
      | none => exact sat_pure hparse.size_eq
      | some st' =>
        obtain ⟨hst', _, hi', ha', _⟩ := hr st' rfl
        refine sat_pure ⟨⟨hst', hi', hm2, ?_, ?_⟩, ?_⟩ <;> simp only at ha' ⊢ <;> omega
    · refine sat_pure ⟨⟨hparse', rfl, hm2, ?_, ?_⟩, ?_⟩ <;> simp only <;> omega
  · rw [if_neg hprobe]
    exact sat_ok ⟨hparse, rfl, hm, hanchor, hpast⟩

theorem lazyBody_sat (h : Parsing src size st) (hle : st.anchor ≤ st.i) :
    Sat (lazyBody src (src.length - lz4MFLimit) st) fun r =>
      match r with
      | .next st' => (Parsing src size st' ∧ st'.anchor ≤ st'.i) ∧
          (src.length - lz4MFLimit - st'.i).toNat < (src.length - lz4MFLimit - st.i).toNat
      | .done (.full st') => st'.dst.length = size
      | .done (.parsed st') => Parsing src size st' := by
  have hi := h.i_nonneg
  have hanchor := h.anchor_nonneg
  rw [lazyBody]
  by_cases hlim : st.i < src.length - lz4MFLimit
  · rw [if_pos hlim]
    have hlim12 : st.i < src.length - 12 := hlim
    refine Sat.bind (widerMatch_sat h.indexed hanchor hle hlim12) ?_
    intro m hfound
    split
    · simp only
      split
      · rename_i hnext
        have hnext12 : st.i + 1 < src.length - 12 := hnext
        refine Sat.bind (insert_sat h.indexed) ?_
        rintro enc ⟨henc, _⟩
        refine sat_pure ⟨⟨⟨henc, h.emitted, h.size_eq, ?_⟩, ?_⟩, ?_⟩ <;> simp only <;> omega
      · refine sat_pure ⟨⟨⟨h.indexed, h.emitted, h.size_eq, ?_⟩, ?_⟩, ?_⟩ <;> simp only <;> omega
    · rename_i hsome
      rcases hfound with hnone | ⟨hm, hstart, _, hpast⟩
      · contradiction
      -- the inner loop: the end of the match in hand grows, and is bounded by the source
      refine Sat.bind (loop_sat (Holding src size st.i)
        (fun s => (src.length - (s.2.start + s.2.len)).toNat)
        (R := fun r => match r with
          | .full st' => st'.dst.length = size
          | .parsed s' => Holding src size st.i s') ?_ ⟨h, rfl, hm, hstart, hpast⟩ ?_) ?_
      · intro s hs
        refine (lazyStep_sat hs).mono ?_
        rintro (s' | (st' | s')) hr <;> exact hr
      · have hend := hm.end_le
        simp only
        omega
      · rintro (st' | ⟨st', m'⟩) hr
        · exact sat_pure hr
        · obtain ⟨hst', hi', hm', ha', hpast'⟩ := hr
          simp only at hst' hi' hm' ha' hpast' ⊢
          refine Sat.bind (emitMatch_sat hst' hm' ha') ?_
          intro r hr
          cases r with
          | none => exact sat_pure hst'.size_eq
          | some st'' =>
            obtain ⟨hst'', _, hi'', ha'', _⟩ := hr st'' rfl
            refine Sat.bind (insertRange_sat hst''.indexed (by omega)
              (by rw [lz4MFLimit]; omega)) ?_
            rintro enc ⟨henc, _⟩
            refine sat_pure ⟨⟨⟨henc, hst''.emitted, hst''.size_eq, ?_⟩, ?_⟩, ?_⟩ <;>
              simp only <;> omega
  · rw [if_neg hlim]
    exact sat_ok h

theorem Parsing.start {dst : List UInt8} {enc : LZ4HCEncoder} (henc : Indexed enc src.length) :
    Parsing src dst.length ⟨enc, dst, 0, 0, 0⟩ :=
  ⟨henc, ⟨[], Emitted.start src dst⟩, rfl, Int.le_refl 0⟩

/-! ## Correctness -/

theorem compressBlock_sat (e : LZ4HCEncoder) (src dst : List UInt8) :
    Sat (e.compressBlock src dst) fun r =>
      0 ≤ r.1 ∧ r.2.1.length = dst.length ∧ (0 < r.1 → Compressed src r.2.1 r.1) := by
  rw [LZ4HCEncoder.compressBlock]
  split
  · refine Sat.bind (emitTail_sat (Emitted.start src dst)) ?_
    intro r hr
    exact sat_pure hr.2
  rename_i hlong
  simp only [lz4MFLimit, lz4MinMatch] at hlong
  refine Sat.bind (insert_sat (Indexed.reset e src.length)) ?_
  rintro enc ⟨henc, _⟩
  refine Sat.bind (loop_sat (fun st => Parsing src dst.length st ∧ st.anchor ≤ st.i)
    (fun st => (src.length - lz4MFLimit - st.i).toNat)
    (R := fun r => match r with
      | .full st' => st'.dst.length = dst.length
      | .parsed st' => Parsing src dst.length st')
    ?_ ⟨Parsing.start henc, Int.le_refl 0⟩ (by simp only [lz4MFLimit]; omega)) ?_
  · rintro st ⟨hst, hle⟩
    refine (lazyBody_sat hst hle).mono ?_
    rintro (s' | (st' | s')) hr <;> exact hr
  rintro (st' | st') hr
  · exact sat_pure ⟨Int.le_refl 0, hr, by simp⟩
  · obtain ⟨seqs, hemit⟩ := hr.emitted
    refine Sat.bind (emitTail_sat hemit) ?_
    rintro ⟨dst', n⟩ ⟨-, hn, hlen, hcomp⟩
    exact sat_pure ⟨hn, by rw [hlen]; exact hr.size_eq, hcomp⟩

/-- **`CompressBlock` is correct from every encoder state.**  It returns without an
    access out of bounds, and a size above 0 is the size of a block that decodes
    to the source and keeps to the format's limits. -/
theorem compressBlock_correct (e : LZ4HCEncoder) (src dst : List UInt8) :
    ∃ n dst' e', e.compressBlock src dst = .ok (n, dst', e') ∧
      0 ≤ n ∧ dst'.length = dst.length ∧ (0 < n → Compressed src dst' n) := by
  obtain ⟨⟨n, dst', e'⟩, heq, hpost⟩ := compressBlock_sat e src dst
  exact ⟨n, dst', e', heq, hpost⟩

end Orchestrator.Erofs.Lz4Enc

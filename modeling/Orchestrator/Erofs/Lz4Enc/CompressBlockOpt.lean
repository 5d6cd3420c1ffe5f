/-
  Orchestrator.Erofs.Lz4Enc.CompressBlockOpt

  The optimal-parse compressor `CompressBlockOptLimit`.

  The main loop commits one batch after another.  The literals behind the last
  match of a batch are carried over, to the next batch, a long match or the tail.  The
  invariant is the one of the lazy compressor (`Parsing`); a batch enters it through
  `Covers`, its matches in the order of the source.

  `CompressBlockOpt` is the run whose limit is the size of the buffer, which no output
  exceeds.  A run with a smaller limit makes the same parse, and stops at the first emission
  that takes the output past the limit; as the cursor never moves back, the block of the
  other run is longer than the limit then.  The two runs are followed side by side.
-/

import Orchestrator.Erofs.Lz4Enc.CompressBlock
import Orchestrator.Erofs.Lz4Enc.OptBatch

namespace Orchestrator.Erofs.Lz4Enc

open Lib Lib.Exec

/-! ## The compressor -/

/-- `optAdvance`: the encoder with the consumed positions indexed, and the new
    parse position. -/
def LZ4HCEncoder.optAdvance (e : LZ4HCEncoder) (src : List UInt8) (ip consumed mfLimit : Int) :
    Exec (LZ4HCEncoder × Int) := do
  let next := ip + consumed
  let e ← e.insertRange src (max (ip + 1) (next - lz4MaxDistance)) (min next mfLimit)
  return (e, next)

/-- Emit the matches of a batch; stop when one does not fit, or when the output
    exceeds the limit. -/
def emitTuples (src : List UInt8) (limit ip : Int) :
    List (Int × Int × Int) → ParseState → Exec (Exit ParseState)
  | [], st => .ok (.parsed st)
  | q :: rest, st => do
    match ← st.emitMatch src (ip + q.1) q.2.2 q.2.1 with
    | none => return .full st
    | some st => if limit < st.d then return .full st else emitTuples src limit ip rest st

def optBody (src : List UInt8) (limit mfLimit : Int) (st : ParseState) :
    Exec (Step ParseState (Exit ParseState)) :=
  if st.i < mfLimit then do
    let m ← st.enc.forwardMatch src st.i
    if m.len = 0 then
      let ip := st.i + 1
      if ip < mfLimit then return .next { st with enc := ← st.enc.insert src ip, i := ip }
      else return .next { st with i := ip }
    else if lz4SufficientLen ≤ m.len then
      match ← st.emitMatch src st.i (st.i - m.ref) m.len with
      | none => return .done (.full st)
      | some st =>
        if limit < st.d then return .done (.full st)
        else
          let (enc, ip) ← st.enc.optAdvance src st.i m.len mfLimit
          return .next { st with enc := enc, i := ip, anchor := ip }
    else
      let s ← st.enc.seedBatch st.i m
      let s ← runBatch src st.i mfLimit s
      let endPos ← s.enc.trimLiterals s.last
      let seqs ← s.enc.backtrack endPos
      match ← emitTuples src limit st.i seqs.reverse
          { st with enc := { s.enc with seqs := seqs } } with
      | .full st => return .done (.full st)
      | .parsed st =>
        let consumed := if endPos = 0 then 1 else endPos
        let (enc, ip) ← st.enc.optAdvance src st.i consumed mfLimit
        return .next { st with enc := enc, i := ip }
  else .ok (.done (.parsed st))

/-- The tables as an optimal parse starts with them. -/
def LZ4HCEncoder.resetOpt (e : LZ4HCEncoder) (n : Nat) : LZ4HCEncoder :=
  { e.reset n with opt := some (e.opt.getD fun _ => {}) }

/-- `CompressBlockOptLimit`: the size of the block (0 when it does not fit),
    whether it is within the limit, the buffer and the encoder afterwards.  The
    error result is always nil. -/
def LZ4HCEncoder.compressBlockOptLimit (e : LZ4HCEncoder) (src dst : List UInt8) (limit : Int) :
    Exec (Int × Bool × List UInt8 × LZ4HCEncoder) :=
  if src.length < lz4MFLimit + lz4MinMatch then do
    let (dst, n) ← emitTail src dst 0 0
    return (n, decide (0 < n ∧ n ≤ limit), dst, e)
  else do
    let mfLimit := src.length - lz4MFLimit
    let enc ← (e.resetOpt src.length).insert src 0
    match ← loop (optBody src limit mfLimit) (src.length + 1) ⟨enc, dst, 0, 0, 0⟩ with
    | .full st => return (0, false, st.dst, st.enc)
    | .parsed st =>
      let (dst, n) ← emitTail src st.dst st.d st.anchor
      return (n, decide (0 < n ∧ n ≤ limit), dst, st.enc)

def LZ4HCEncoder.compressBlockOpt (e : LZ4HCEncoder) (src dst : List UInt8) :
    Exec (Int × List UInt8 × LZ4HCEncoder) := do
  let (n, _, dst, e) ← e.compressBlockOptLimit src dst dst.length
  return (n, dst, e)

/-! ## Batches -/

section

variable {src : List UInt8} {ip : Int}

/-- What a batch that starts at `ip` with the first match `m` does: it runs to its
    end without a fault, and

    * every position up to the last one has a finite price, in an array whose
      bounds no position exceeds;
    * a position once settled keeps its entry, in every later state of the forward
      pass and in the array the backtrack reads;
    * every step of the backtrack goes to an earlier position;
    * the matches it collects, in the order of the source, follow one another up
      to the end of the batch and agree with the source. -/
structure BatchCorrect (src : List UInt8) (ip : Int) (enc : LZ4HCEncoder) (m : Match)
    (s₀ s₁ : BatchState) (opt : Nat → OptEntry) (endPos : Int) (seqs : List (Int × Int × Int)) :
    Prop where
  seeded : enc.seedBatch ip m = .ok s₀
  ran : runBatch src ip (src.length - lz4MFLimit) s₀ = .ok s₁
  opt_eq : s₁.enc.opt = some opt
  trimmed : s₁.enc.trimLiterals s₁.last = .ok endPos
  backtracked : s₁.enc.backtrack endPos = .ok seqs
  last_lt : s₁.last < optSize
  finite : ∀ p : Nat, p ≤ s₁.last → (opt p).price < inf
  settled : ∀ s s' t t', Reach (batchStep src ip (src.length - lz4MFLimit)) s₀ s →
    Reach (batchStep src ip (src.length - lz4MFLimit)) s s' →
    s.enc.opt = some t → s'.enc.opt = some t' → ∀ p : Nat, p < s.cur → t' p = t p
  settled_final : ∀ s t, Reach (batchStep src ip (src.length - lz4MFLimit)) s₀ s →
    s.enc.opt = some t → ∀ p : Nat, p < s.cur → opt p = t p
  decreases : ∀ b b', Reach s₁.enc.backStep (endPos, []) b → s₁.enc.backStep b = .ok (.next b') →
    0 ≤ b'.1 ∧ b'.1 < b.1
  endPos_le : endPos ≤ s₁.last
  covers : Covers src ip 0 endPos seqs.reverse

theorem Batching.opt_unique {s : BatchState} {t t' : Nat → OptEntry} (h : Batching src ip s t)
    (h' : s.enc.opt = some t') : t' = t := by
  have hopt := h.tables.opt_eq
  rw [h'] at hopt
  exact Option.some.inj hopt

theorem batch_correct {enc : LZ4HCEncoder} {m : Match} {t : Nat → OptEntry} (hip : 0 ≤ ip)
    (henc : Indexed enc src.length) (hopt : enc.opt = some t) (hm : IsMatch src m)
    (hstart : m.start = ip) (hlen : m.len < 4095) :
    ∃ s₀ s₁ opt endPos seqs, BatchCorrect src ip enc m s₀ s₁ opt endPos seqs ∧
      Tables s₁.enc src.length opt ∧ 0 ≤ endPos := by
  obtain ⟨s₀, hseed, _, _, t₀, hs₀⟩ := seedBatch_sat henc hopt hm hstart hlen
  obtain ⟨s₁, hrun, t₁, hs₁⟩ := runBatch_sat hip hs₀
  obtain ⟨endPos, htrim, h0, hle, hmatch⟩ := trimLiterals_sat hs₁
  obtain ⟨seqs, hback, hcov⟩ := backtrack_sat hs₁ h0 hle hmatch
  have hlast := hs₁.last_lt
  have hreached : ∀ {s}, Reach (batchStep src ip (src.length - lz4MFLimit)) s₀ s →
      ∃ t, Batching src ip s t := by
    intro s hs
    obtain ⟨t, hbatch, _, _⟩ := reach_settled hip hs₀ hs
    exact ⟨t, hbatch⟩
  refine ⟨s₀, s₁, t₁, endPos, seqs, ⟨hseed, hrun, hs₁.tables.opt_eq, htrim, hback, ?_, ?_, ?_, ?_,
    ?_, hle, hcov⟩, hs₁.tables, h0⟩
  · show s₁.last < 8192
    omega
  · intro p hp
    have hbounds := (hs₁.settled p hp).price_bounds (by omega)
    rw [inf]
    omega
  · intro s s' t t' hs hs' ht ht' p hp
    obtain ⟨u, hu⟩ := hreached hs
    obtain ⟨u', hu', _, hsame⟩ := reach_settled hip hu hs'
    rw [hu.opt_unique ht, hu'.opt_unique ht']
    exact hsame p hp
  · intro s t hs ht p hp
    -- the pass leaves from a state that is reached from `s`
    obtain ⟨sf, hsf, hdone⟩ := loop_reach hrun
    obtain ⟨u, hu⟩ := hreached hs
    obtain ⟨uf, huf, hcur, hsame⟩ := reach_settled hip hu (reach_of_done hs hsf hdone)
    obtain ⟨u₁, hu₁, hsame₁⟩ := (batchStep_sat hip huf).of_eq_ok hdone
    have hopt₁ : u₁ = t₁ := by
      have h1 := hu₁.tables.opt_eq
      rw [hs₁.tables.opt_eq] at h1
      exact (Option.some.inj h1).symm
    rw [hu.opt_unique ht, ← hopt₁, hsame₁ p (by omega), hsame p hp]
  · intro b b' hb hnext
    have hb : Backtracking src ip endPos b := by
      refine reach_invariant (Backtracking src ip endPos) ?_ hb
        ⟨h0, Int.le_refl _, ⟨endPos, Int.le_refl _, rfl⟩, fun _ => rfl⟩
      intro b₁ b₂ hb₁ hnext
      exact ((backStep_sat hs₁ hle hmatch hb₁).of_eq_ok hnext).1
    have hstep := (backStep_sat hs₁ hle hmatch hb).of_eq_ok hnext
    exact ⟨hstep.1.pos_nonneg, hstep.2⟩

end

/-! ## The main loop -/

/-- The parse was given up, or its output has reached `d`. -/
def Past (d : Int) : Exit ParseState → Prop
  | .full _ => True
  | .parsed st => d ≤ st.d

theorem Past.mono {d d' : Int} {r : Exit ParseState} (h : Past d r) (hle : d' ≤ d) :
    Past d' r := by
  cases r with
  | full st => trivial
  | parsed st => exact Int.le_trans hle h

def GaveUp (size : Nat) (r : Exit ParseState) : Prop := ∃ st, r = .full st ∧ st.dst.length = size

structure OptParsing (src : List UInt8) (size : Nat) (st : ParseState) : Prop where
  parsing : Parsing src size st
  has_opt : ∃ t, st.enc.opt = some t
  anchor_le : st.anchor ≤ st.i

section

variable {src : List UInt8} {size : Nat} {st : ParseState} {limit : Int}

/-- What the matches of a batch that ends at `hi` leave. -/
def Tupled (src : List UInt8) (size : Nat) (st : ParseState) (hi : Int) : Exit ParseState → Prop
  | .full st' => st'.dst.length = size
  | .parsed st' => Parsing src size st' ∧ st'.enc = st.enc ∧ st'.i = st.i ∧ st'.anchor ≤ hi ∧
      st.d ≤ st'.d

theorem emitTuples_limited {ip lo hi : Int} {qs : List (Int × Int × Int)}
    (h : Parsing src size st) (hcov : Covers src ip lo hi qs) (hanchor : st.anchor ≤ ip + lo) :
    Both (fun r r' => (r' = r ∨ GaveUp size r' ∧ Past (limit + 1) r) ∧
        Tupled src size st (ip + hi) r)
      (emitTuples src size ip qs st) (emitTuples src limit ip qs st) := by
  induction qs generalizing st lo with
  | nil =>
    have hlo : lo = hi := hcov
    exact both_pure ⟨.inl rfl, h, rfl, rfl, by omega, Int.le_refl _⟩
  | cons q rest ih =>
    obtain ⟨hq, hm, hrest⟩ := hcov
    have hemit := emitMatch_sat h hm (by simp only [tupleMatch]; omega)
    have hoff : ip + q.1 - (ip + q.1 - q.2.2) = q.2.2 := by omega
    simp only [tupleMatch, hoff] at hemit
    rw [emitTuples, emitTuples]
    refine both_same hemit ?_
    intro r hr
    cases r with
    | none => exact both_pure ⟨.inl rfl, h.size_eq⟩
    | some st' =>
      obtain ⟨hst', henc, hi', ha, hgrow, hfits⟩ := hr st' rfl
      have hfrom : ∀ r, Tupled src size st' (ip + hi) r →
          Tupled src size st (ip + hi) r ∧ Past st'.d r := by
        rintro (st'' | st'') hr'
        · exact ⟨hr', trivial⟩
        · obtain ⟨h1, h2, h3, h4, h5⟩ := hr'
          exact ⟨⟨h1, h2.trans henc, h3.trans hi', h4, by omega⟩, h5⟩
      have hnext := ih hst' hrest (by omega)
      simp only
      rw [if_neg (by omega)]
      by_cases hover : limit < st'.d
      · rw [if_pos hover]
        obtain ⟨r, -, hr, -, -, hkeep⟩ := hnext
        obtain ⟨hkeep, hpast⟩ := hfrom r hkeep
        exact ⟨r, .full st', hr, rfl, .inr ⟨⟨st', rfl, hst'.size_eq⟩, hpast.mono hover⟩, hkeep⟩
      · rw [if_neg hover]
        exact hnext.mono fun r r' hr => ⟨hr.1, (hfrom r hr.2).1⟩

theorem optAdvance_sat {e : LZ4HCEncoder} {ip consumed : Int} (he : Indexed e src.length)
    (hip : 0 ≤ ip) :
    Sat (e.optAdvance src ip consumed (src.length - lz4MFLimit)) fun r =>
      Indexed r.1 src.length ∧ r.1.opt = e.opt ∧ r.2 = ip + consumed := by
  refine Sat.bind (insertRange_sat he (by omega) (by rw [lz4MFLimit]; omega)) ?_
  rintro e' ⟨he', hopt⟩
  exact sat_pure ⟨he', hopt, rfl⟩

/-- A step that leaves the output at `d` or beyond. -/
abbrev PastStep (d : Int) : Step ParseState (Exit ParseState) → Prop :=
  StepPast (fun st => d ≤ st.d) (Past d)

theorem PastStep.mono {d d' : Int} {r : Step ParseState (Exit ParseState)} (h : PastStep d r)
    (hle : d' ≤ d) : PastStep d' r := by
  cases r with
  | next st => exact Int.le_trans hle h
  | done r => exact Past.mono h hle

def OptKept (src : List UInt8) (size : Nat) (st : ParseState) :
    Step ParseState (Exit ParseState) → Prop
  | .next st' => (OptParsing src size st' ∧
      (src.length - lz4MFLimit - st'.i).toNat < (src.length - lz4MFLimit - st.i).toNat) ∧
      st.d ≤ st'.d
  | .done (.full st') => st'.dst.length = size
  | .done (.parsed st') => Parsing src size st' ∧ st.d ≤ st'.d

theorem OptKept.past {r : Step ParseState (Exit ParseState)} (h : OptKept src size st r) :
    PastStep st.d r := by
  rcases r with st' | (st' | st')
  · exact h.2
  · trivial
  · exact h.2

/-- What a round of a limited run is next to the one of the whole run. -/
def LimitedStep (size : Nat) (limit : Int) (r r' : Step ParseState (Exit ParseState)) : Prop :=
  r' = r ∨ (∃ g, r' = .done g ∧ GaveUp size g) ∧ PastStep (limit + 1) r

theorem both_round {m : Exec (Step ParseState (Exit ParseState))}
    (h : Sat m (OptKept src size st)) :
    Both (fun r r' => OptKept src size st r ∧ LimitedStep size limit r r') m m := by
  obtain ⟨r, hr, hkept⟩ := h
  exact ⟨r, r, hr, hr, hkept, .inl rfl⟩

/-- The end of a round that has emitted matches: the positions up to their end are indexed. -/
theorem optAdvance_round {st' : ParseState} {c : Int} {a : Int → Int}
    (hst' : Parsing src size st') (hopt : ∃ t, st'.enc.opt = some t) (hi : st'.i = st.i)
    (hlim : st.i < src.length - lz4MFLimit) (hpos : 1 ≤ c)
    (hle : st'.anchor ≤ st.i + c) (ha : a (st'.i + c) = st'.anchor)
    (hgrow : st.d ≤ st'.d) :
    Sat (st'.enc.optAdvance src st'.i c (src.length - lz4MFLimit) >>= fun r =>
        (pure (Step.next { st' with enc := r.1, i := r.2, anchor := a r.2 }) :
          Exec (Step ParseState (Exit ParseState))))
      fun r => OptKept src size st r ∧ PastStep st'.d r := by
  obtain ⟨t, hopt⟩ := hopt
  have hi0 := hst'.i_nonneg
  refine Sat.bind (optAdvance_sat hst'.indexed hi0) ?_
  rintro ⟨enc, ip⟩ ⟨henc, hopt', hip⟩
  simp only at henc hopt' hip ⊢
  subst hip
  rw [ha]
  refine sat_pure ⟨⟨⟨⟨⟨henc, hst'.emitted, hst'.size_eq, ?_⟩, ⟨t, by rw [hopt', hopt]⟩, ?_⟩, ?_⟩,
    hgrow⟩, Int.le_refl st'.d⟩ <;> simp only <;> omega

theorem optBody_limited (limit : Int) (h : OptParsing src size st) :
    Both (fun r r' => OptKept src size st r ∧ LimitedStep size limit r r')
      (optBody src size (src.length - lz4MFLimit) st)
      (optBody src limit (src.length - lz4MFLimit) st) := by
  obtain ⟨hp, ⟨t, hopt⟩, hanchor⟩ := h
  have hi := hp.i_nonneg
  rw [optBody, optBody]
  by_cases hlim : st.i < src.length - lz4MFLimit
  · rw [if_pos hlim, if_pos hlim]
    have hlim12 : st.i < src.length - 12 := hlim
    refine both_same (forwardMatch_sat hp.indexed hi hlim12) ?_
    intro m hfound
    split
    · refine both_round ?_
      simp only
      split
      · rename_i hnext
        have hnext12 : st.i + 1 < src.length - 12 := hnext
        refine Sat.bind (insert_sat hp.indexed) ?_
        rintro enc ⟨henc, hopt'⟩
        refine sat_pure ⟨⟨⟨⟨henc, hp.emitted, hp.size_eq, ?_⟩, ⟨t, by rw [hopt', hopt]⟩, ?_⟩, ?_⟩,
          Int.le_refl st.d⟩ <;> simp only <;> omega
      · refine sat_pure ⟨⟨⟨⟨hp.indexed, hp.emitted, hp.size_eq, ?_⟩, ⟨t, hopt⟩, ?_⟩, ?_⟩,
          Int.le_refl st.d⟩ <;> simp only <;> omega
    · rename_i hsome
      rcases hfound with hnone | ⟨hm, hlo, hhi, _⟩
      · contradiction
      have hstart : m.start = st.i := by omega
      have hmin := hm.minMatch_le
      split
      · -- a match long enough is taken as it is
        have hemit := emitMatch_sat hp hm (by omega)
        rw [hstart] at hemit
        refine both_same hemit ?_
        intro r hr
        cases r with
        | none => exact both_pure ⟨hp.size_eq, .inl rfl⟩
        | some st' =>
          obtain ⟨hst', henc', hi', ha', hgrow, hfits⟩ := hr st' rfl
          have hround := optAdvance_round (a := id) hst' ⟨t, by rw [henc', hopt]⟩ hi' hlim
            (c := m.len) (by omega) (by omega) (by rw [id, ha', hi']) hgrow
          simp only
          rw [if_neg (by omega)]
          by_cases hover : limit < st'.d
          · rw [if_pos hover]
            obtain ⟨r, hr, hkept, hpast⟩ := hround
            exact ⟨r, .done (.full st'), hr, rfl, hkept,
              .inr ⟨⟨_, rfl, st', rfl, hst'.size_eq⟩, hpast.mono hover⟩⟩
          · rw [if_neg hover]
            exact both_round (hround.mono fun r hr => hr.1)
      · rename_i hshort
        have hlen : m.len < 4095 := Int.not_le.mp hshort
        obtain ⟨s₀, s₁, opt, endPos, seqs, hbatch, htab, h0⟩ :=
          batch_correct hi hp.indexed hopt hm hstart hlen
        refine both_same ⟨s₀, hbatch.seeded, rfl⟩ ?_
        rintro _ rfl
        refine both_same ⟨s₁, hbatch.ran, rfl⟩ ?_
        rintro _ rfl
        refine both_same ⟨endPos, hbatch.trimmed, rfl⟩ ?_
        rintro _ rfl
        refine both_same ⟨seqs, hbatch.backtracked, rfl⟩ ?_
        rintro _ rfl
        have hp' : Parsing src size { st with enc := { s₁.enc with seqs := seqs } } :=
          ⟨⟨htab.indexed.head_le, htab.indexed.chain_len⟩, hp.emitted, hp.size_eq, hi⟩
        refine Both.bind (emitTuples_limited hp' hbatch.covers (by simp only; omega)) ?_
        rintro r r' ⟨hrel, hkeep⟩
        have hround : ∀ st', r = .parsed st' → Sat (st'.enc.optAdvance src st'.i
            (if endPos = 0 then 1 else endPos) (src.length - lz4MFLimit) >>= fun r =>
              (pure (Step.next { st' with enc := r.1, i := r.2 }) :
                Exec (Step ParseState (Exit ParseState))))
            fun r => OptKept src size st r ∧ PastStep st'.d r := by
          rintro st' rfl
          obtain ⟨hst', henc', hi', ha', hgrow⟩ := hkeep
          simp only at hi' hgrow
          refine optAdvance_round (a := fun _ => st'.anchor) hst'
            ⟨opt, by rw [henc']; exact htab.opt_eq⟩ hi' hlim ?_ ?_ rfl hgrow <;> split <;> omega
        -- the whole run goes on from a state that is past the mark if the other one gave up
        rcases hrel with rfl | ⟨⟨g, rfl, hg⟩, hlate⟩
        · cases r' with
          | full st' => exact both_pure ⟨hkeep, .inl rfl⟩
          | parsed st' => exact both_round ((hround st' rfl).mono fun r hr => hr.1)
        cases r with
        | full st' =>
          exact ⟨.done (.full st'), .done (.full g), rfl, rfl, hkeep,
            .inr ⟨⟨_, rfl, g, rfl, hg⟩, trivial⟩⟩
        | parsed st' =>
          obtain ⟨r, hr, hkept, hpast⟩ := hround st' rfl
          exact ⟨r, .done (.full g), hr, rfl, hkept,
            .inr ⟨⟨_, rfl, g, rfl, hg⟩, hpast.mono hlate⟩⟩
  · rw [if_neg hlim, if_neg hlim]
    exact both_round (sat_ok ⟨hp, Int.le_refl st.d⟩)

/-- A round of either run. -/
theorem optBody_sat (h : OptParsing src size st) :
    Sat (optBody src limit (src.length - lz4MFLimit) st) (OptKept src size st) := by
  obtain ⟨r, r', -, hr', hkept, rfl | ⟨⟨g, rfl, st', rfl, hlen⟩, -⟩⟩ := optBody_limited limit h
  · exact ⟨r', hr', hkept⟩
  · exact ⟨_, hr', hlen⟩

/-- The two main loops: they leave alike, or the limited one gave up, and what the whole one has
    written is past the limit. -/
theorem optLoop_limited (limit : Int) (h : OptParsing src size st) (fuel : Nat)
    (hfuel : (src.length - lz4MFLimit - st.i).toNat < fuel) :
    Both (fun r r' => (r' = r ∨ GaveUp size r' ∧ Past (limit + 1) r) ∧
        match r with
        | .full st' => st'.dst.length = size
        | .parsed st' => Parsing src size st')
      (loop (optBody src size (src.length - lz4MFLimit)) fuel st)
      (loop (optBody src limit (src.length - lz4MFLimit)) fuel st) := by
  refine loop_sooner (OptParsing src size) (fun st => limit + 1 ≤ st.d) (GaveUp size)
    (Past (limit + 1)) (fun st => (src.length - lz4MFLimit - st.i).toNat) ?_ ?_ ?_ h hfuel
  · intro st hst
    refine (optBody_sat hst).mono ?_
    rintro (st' | (st' | st')) hr
    · exact hr.1
    · exact hr
    · exact hr.1
  · intro st hst hover
    exact (optBody_sat hst).mono fun r hr => hr.past.mono hover
  · intro st hst
    exact (optBody_limited limit hst).mono fun r r' hr => hr.2

end

/-! ## Correctness -/

/-- A batch the compressor begins in a run: some state of the main loop finds a
    first match `m` at `ip` that is too short to be taken as it is. -/
def BeginsBatch (e : LZ4HCEncoder) (src dst : List UInt8) (limit : Int) (ip : Int)
    (enc : LZ4HCEncoder) (m : Match) : Prop :=
  ¬ src.length < lz4MFLimit + lz4MinMatch ∧
  ∃ enc₀ st, (e.resetOpt src.length).insert src 0 = .ok enc₀ ∧
    Reach (optBody src limit (src.length - lz4MFLimit)) ⟨enc₀, dst, 0, 0, 0⟩ st ∧
    st.i = ip ∧ st.enc = enc ∧ ip < src.length - lz4MFLimit ∧
    enc.forwardMatch src ip = .ok m ∧ m.len ≠ 0 ∧ ¬ lz4SufficientLen ≤ m.len

theorem OptParsing.start (e : LZ4HCEncoder) (src dst : List UInt8)
    (hlong : ¬ src.length < lz4MFLimit + lz4MinMatch) :
    Sat ((e.resetOpt src.length).insert src 0) fun enc =>
      OptParsing src dst.length ⟨enc, dst, 0, 0, 0⟩ := by
  simp only [lz4MFLimit, lz4MinMatch] at hlong
  have hindexed : Indexed (e.resetOpt src.length) src.length :=
    ⟨(Indexed.reset e src.length).head_le, (Indexed.reset e src.length).chain_len⟩
  refine (insert_sat hindexed).mono ?_
  rintro enc ⟨henc, hopt⟩
  exact ⟨Parsing.start henc, ⟨_, hopt⟩, Int.le_refl 0⟩

/-- The two compressors return, and the limited one returns the same with its own judgement of the
    size, or it is not within its limit and the block of the other one is not either. -/
theorem compressBlockOptLimit_both (e : LZ4HCEncoder) (src dst : List UInt8) (limit : Int) :
    Both (fun r r' => (r' = (r.1, decide (0 < r.1 ∧ r.1 ≤ limit), r.2.2) ∨
        (r'.2.1 = false ∧ ¬ (0 < r.1 ∧ r.1 ≤ limit))) ∧
        0 ≤ r'.1 ∧ r'.2.2.1.length = dst.length ∧ (0 < r'.1 → Compressed src r'.2.2.1 r'.1))
      (e.compressBlockOptLimit src dst dst.length) (e.compressBlockOptLimit src dst limit) := by
  rw [LZ4HCEncoder.compressBlockOptLimit, LZ4HCEncoder.compressBlockOptLimit]
  split
  · refine both_same (emitTail_sat (Emitted.start src dst)) ?_
    intro r hr
    exact both_pure ⟨.inl rfl, hr.2⟩
  rename_i hlong
  refine both_same (OptParsing.start e src dst hlong) ?_
  intro enc hstart
  refine Both.bind (optLoop_limited limit hstart (src.length + 1)
    (by simp only [lz4MFLimit]; omega)) ?_
  rintro r r' ⟨hrel, hparsed⟩
  rcases hrel with rfl | ⟨⟨g, rfl, hg⟩, hlate⟩
  · cases r' with
    | full st => exact both_pure ⟨.inl rfl, Int.le_refl 0, hparsed, by simp⟩
    | parsed st =>
      obtain ⟨seqs, hemit⟩ := hparsed.emitted
      refine both_same (emitTail_sat hemit) ?_
      rintro ⟨dst', n⟩ ⟨-, hn, hlen, hcomp⟩
      exact both_pure ⟨.inl rfl, hn, hlen.trans hparsed.size_eq, hcomp⟩
  · cases r with
    | full st => exact both_pure ⟨.inr ⟨rfl, by simp⟩, Int.le_refl 0, hg, by simp⟩
    | parsed st =>
      obtain ⟨seqs, hemit⟩ := hparsed.emitted
      obtain ⟨⟨dst', n⟩, htail, hgrow, -⟩ := emitTail_sat hemit
      refine ⟨(n, decide (0 < n ∧ n ≤ dst.length), dst', st.enc), _, ?_, rfl,
        .inr ⟨rfl, ?_⟩, Int.le_refl 0, hg, by simp⟩
      · simp only [htail]
        rfl
      · have hover : limit + 1 ≤ st.d := hlate
        simp only at hgrow ⊢
        omega

/-- **`CompressBlockOptLimit` is correct from every encoder state, for every
    limit.**  It returns without an access out of bounds, a size above 0 is the
    size of a block that decodes to the source, and every batch of the run is
    parsed as `BatchCorrect` says. -/
theorem compressBlockOptLimit_correct (e : LZ4HCEncoder) (src dst : List UInt8) (limit : Int) :
    (∃ n withinLimit dst' e',
      e.compressBlockOptLimit src dst limit = .ok (n, withinLimit, dst', e') ∧
        0 ≤ n ∧ dst'.length = dst.length ∧ (0 < n → Compressed src dst' n)) ∧
    ∀ ip enc m, BeginsBatch e src dst limit ip enc m →
      ∃ s₀ s₁ opt endPos seqs, BatchCorrect src ip enc m s₀ s₁ opt endPos seqs := by
  constructor
  · obtain ⟨-, ⟨n, within, dst', e'⟩, -, heq, -, hpost⟩ :=
      compressBlockOptLimit_both e src dst limit
    exact ⟨n, within, dst', e', heq, hpost⟩
  · rintro ip enc m ⟨hlong, enc₀, st, hinsert, hreach, rfl, rfl, hlim, hfwd, hsome, hshort⟩
    have hstart := (OptParsing.start e src dst hlong).of_eq_ok hinsert
    have hst : OptParsing src dst.length st := by
      refine reach_invariant (OptParsing src dst.length) ?_ hreach hstart
      intro s s' hs hnext
      exact ((optBody_sat hs).of_eq_ok hnext).1.1
    obtain ⟨hp, ⟨t, hopt⟩, _⟩ := hst
    have hfound := (forwardMatch_sat hp.indexed hp.i_nonneg hlim).of_eq_ok hfwd
    rcases hfound with hnone | ⟨hm, hlo, hhi, _⟩
    · contradiction
    · obtain ⟨s₀, s₁, opt, endPos, seqs, hbatch, _⟩ :=
        batch_correct hp.i_nonneg hp.indexed hopt hm (by omega) (Int.not_le.mp hshort)
      exact ⟨s₀, s₁, opt, endPos, seqs, hbatch⟩

/-- **The limited compressor is the whole one, up to its limit**: from every encoder state it is
    within the limit, with a block of size `k`, exactly when the other one gives a block of size
    `k` that is not above the limit, and then the two blocks are the same. -/
theorem compressBlockOptLimit_iff (e : LZ4HCEncoder) (src dst : List UInt8) (limit : Int) :
    ∃ n withinLimit dst₁ e₁ n' dst₂ e₂,
      e.compressBlockOptLimit src dst limit = .ok (n, withinLimit, dst₁, e₁) ∧
      e.compressBlockOpt src dst = .ok (n', dst₂, e₂) ∧
      (∀ k, (withinLimit = true ∧ n = k) ↔ (n' = k ∧ 0 < k ∧ k ≤ limit)) ∧
      (withinLimit = true → dst₁.take n.toNat = dst₂.take n.toNat) := by
  obtain ⟨⟨n', within', dst₂, e₂⟩, ⟨n, within, dst₁, e₁⟩, hwhole, hlimited, hrel, -⟩ :=
    compressBlockOptLimit_both e src dst limit
  refine ⟨n, within, dst₁, e₁, n', dst₂, e₂, hlimited, ?_, ?_, ?_⟩
  · rw [LZ4HCEncoder.compressBlockOpt, hwhole]
    rfl
  · intro k
    rcases hrel with heq | ⟨hno, hover⟩
    · cases heq
      simp only [decide_eq_true_eq]
      constructor
      · rintro ⟨⟨hpos, hle⟩, rfl⟩
        exact ⟨rfl, hpos, hle⟩
      · rintro ⟨rfl, hpos, hle⟩
        exact ⟨⟨hpos, hle⟩, rfl⟩
    · simp only at hno hover
      refine iff_of_false (by simp [hno]) ?_
      rintro ⟨rfl, hpos, hle⟩
      exact hover ⟨hpos, hle⟩
  · intro hwithin
    rcases hrel with heq | ⟨hno, -⟩
    · cases heq
      rfl
    · exact absurd (hno.symm.trans hwithin) (by decide)

end Orchestrator.Erofs.Lz4Enc

/-
  Orchestrator.Erofs.Lz4Enc.OptBatch

  One batch of the optimal parse: seeding, the forward pass over positions, and
  the backtrack.

  An entry says how the cheapest known parse reaches its position: by a literal
  run or by a match.  In the forward pass at `cur` the positions below `cur` are
  settled, those from `cur` to `last` hold a match or an infinite placeholder
  (`Prices`); the literal step settles `cur`, and pricing a match only touches
  positions beyond it.

  The backtrack terminates because a settled literal entry never has an empty
  run, except at position 0.  That, the bound on prices and the agreement of matches with
  the source are all facts about a single entry (`Settled`).
-/

import Orchestrator.Erofs.Lz4Enc.Matcher

namespace Orchestrator.Erofs.Lz4Enc

open Lib Lib.Exec Function LZ4HCEncoder

/-! ## Prices -/

/-- `const inf = int32(1) << 30`. -/
def inf : Int := 2 ^ 30

def litRunPrice (litlen : Int) : Int :=
  if 15 ≤ litlen then int32 (litlen + 1 + (litlen - 15) / 255) else litlen

def seqPrice (litlen mlen : Int) : Int :=
  let price := int32 (1 + 2 + litRunPrice litlen)
  if 15 + lz4MinMatch ≤ mlen then int32 (price + (1 + (mlen - (15 + lz4MinMatch)) / 255))
  else price

/-- The running price of a match as its length grows, and the length at which it
    next grows by a byte. -/
structure Pricing where
  price : Int
  nextPriceBump : Int
deriving DecidableEq, Repr

def Pricing.start (price : Int) : Pricing := ⟨price, 15 + lz4MinMatch⟩

def Pricing.bump (p : Pricing) (l : Int) : Pricing :=
  if l = p.nextPriceBump then ⟨int32 (p.price + 1), p.nextPriceBump + 255⟩ else p

/-! ## The opt array -/

def optSize : Nat := (lz4OptWindow + lz4SufficientLen + 1).toNat

/-- `opt[i]`; `opt` is nil until the first optimal parse. -/
def LZ4HCEncoder.optAt (e : LZ4HCEncoder) (i : Int) : Exec OptEntry :=
  match e.opt with
  | some t => tableGet optSize t i
  | none => .error .bounds

/-- `opt[i] = v`. -/
def LZ4HCEncoder.setOpt (e : LZ4HCEncoder) (i : Int) (v : OptEntry) : Exec LZ4HCEncoder :=
  match e.opt with
  | some t => do return { e with opt := some (← tableSet optSize t i v) }
  | none => .error .bounds

/-- `for j := lo; j < hi; j++ { opt[j] = lz4OptEntry{price: inf, mlen: 1} }`. -/
def LZ4HCEncoder.fillInf (e : LZ4HCEncoder) (lo hi : Int) : Exec LZ4HCEncoder :=
  forRange (fun j e => e.setOpt j { price := inf, mlen := 1 }) lo hi e

/-! ## The forward pass -/

structure BatchState where
  enc : LZ4HCEncoder
  last : Int
  cur : Int

/-- Seed the batch with the lengths of the first match, which starts at `ip`. -/
def LZ4HCEncoder.seedBatch (e : LZ4HCEncoder) (ip : Int) (m : Match) : Exec BatchState := do
  let ml := m.len
  let e ← e.setOpt 0 { price := 0, mlen := 1 }
  let e ← e.fillInf 1 (min lz4MinMatch (ml + 1))
  let (_, e) ← forRange (fun l (s : Pricing × LZ4HCEncoder) => do
      let p := s.1.bump l
      return (p, ← s.2.setOpt l { price := p.price, off := int32 (ip - m.ref), mlen := int32 l }))
    lz4MinMatch (ml + 1) (Pricing.start (seqPrice 0 lz4MinMatch), e)
  return ⟨e, ml, 1⟩

def LZ4HCEncoder.literalStep (e : LZ4HCEncoder) (cur last : Int) : Exec LZ4HCEncoder := do
  let prev ← e.optAt (cur - 1)
  if prev.price < inf then
    let litlen := if prev.mlen = 1 then int32 (prev.litlen + 1) else 1
    let base :=
      if prev.mlen = 1 then int32 (prev.price - litRunPrice prev.litlen) else prev.price
    let price := int32 (base + litRunPrice litlen)
    let entry : OptEntry := { price := price, mlen := 1, litlen := litlen }
    if last < cur then e.setOpt cur entry
    else if price < (← e.optAt cur).price then e.setOpt cur entry
    else return e
  else return e

/-- The literal run pending at `relStart` and the price without it. -/
def LZ4HCEncoder.matchBase (e : LZ4HCEncoder) (relStart : Int) (entry : OptEntry) :
    Exec (Int × Int) :=
  if entry.mlen = 1 then do return (entry.litlen, (← e.optAt (relStart - entry.litlen)).price)
  else .ok (0, entry.price)

/-- Offer length `l` of a match that starts at `relStart` to its end position. -/
def priceLength (relStart cur off l : Int) (s : Pricing × LZ4HCEncoder × Int) :
    Exec (Pricing × LZ4HCEncoder × Int) :=
  let (p, e, last) := s
  let p := p.bump l
  let pos := relStart + l
  let entry : OptEntry := { price := p.price, off := off, mlen := int32 l }
  if pos ≤ cur then .ok (p, e, last)
  else if last < pos then do
    let e ← e.fillInf (last + 1) pos
    return (p, ← e.setOpt pos entry, pos)
  else do
    if p.price < (← e.optAt pos).price then return (p, ← e.setOpt pos entry, last)
    else return (p, e, last)

def batchStep (src : List UInt8) (ip mfLimit : Int) (s : BatchState) :
    Exec (Step BatchState BatchState) :=
  if s.cur ≤ s.last then do
    let e ← s.enc.literalStep s.cur s.last
    if s.cur = s.last ∨ mfLimit ≤ ip + s.cur then return .next ⟨e, s.last, s.cur + 1⟩
    else
      let e ← e.insert src (ip + s.cur)
      let m ← e.widerMatch src (ip + s.cur) ip
      if m.len = 0 then return .next ⟨e, s.last, s.cur + 1⟩
      else
        let relStart := m.start - ip
        if lz4SufficientLen ≤ m.len ∨ lz4OptWindow ≤ relStart + m.len then
          -- flush the parse up to cur; the outer loop finds this match again
          return .done ⟨e, s.cur, s.cur⟩
        else
          let entry ← e.optAt relStart
          if inf ≤ entry.price then return .next ⟨e, s.last, s.cur + 1⟩
          else
            let (litlen, base) ← e.matchBase relStart entry
            let (_, e, last) ← forRange (priceLength relStart s.cur (int32 (m.start - m.ref)))
              lz4MinMatch (m.len + 1)
              (Pricing.start (int32 (base + seqPrice litlen lz4MinMatch)), e, s.last)
            return .next ⟨e, last, s.cur + 1⟩
  else .ok (.done s)

/-- The forward pass.  Positions stay below the window, which bounds its length. -/
def runBatch (src : List UInt8) (ip mfLimit : Int) (s : BatchState) : Exec BatchState :=
  loop (batchStep src ip mfLimit) (lz4OptWindow.toNat + 1) s

/-! ## The backtrack -/

/-- `for endPos > 0 && opt[endPos].mlen == 1 { endPos-- }`. -/
def LZ4HCEncoder.trimLiterals (e : LZ4HCEncoder) (last : Int) : Exec Int :=
  loop (fun endPos =>
      if 0 < endPos then do
        if (← e.optAt endPos).mlen = 1 then return .next (endPos - 1) else return .done endPos
      else .ok (.done endPos))
    (last.toNat + 1) last

/-- One step of the backtrack: the position, and the matches passed so far. -/
def LZ4HCEncoder.backStep (e : LZ4HCEncoder) (s : Int × List (Int × Int × Int)) :
    Exec (Step (Int × List (Int × Int × Int)) (List (Int × Int × Int))) :=
  if 0 < s.1 then do
    let ent ← e.optAt s.1
    if ent.mlen = 1 then return .next (s.1 - ent.litlen, s.2)
    else return .next (s.1 - ent.mlen, s.2 ++ [(int32 (int32 s.1 - ent.mlen), ent.mlen, ent.off)])
  else .ok (.done s.2)

/-- The matches of the cheapest parse up to `endPos`, last one first. -/
def LZ4HCEncoder.backtrack (e : LZ4HCEncoder) (endPos : Int) : Exec (List (Int × Int × Int)) :=
  loop e.backStep (endPos.toNat + 1) (endPos, [])

/-! ## Entries -/

theorem int32_eq_self {x : Int} (h0 : -2 ^ 31 ≤ x := by omega) (h1 : x < 2 ^ 31 := by omega) :
    int32 x = x := by
  rw [int32, Int.bmod_def]
  split <;> omega

/-- The encoded size of a run is at least its length and at most twice that. -/
theorem litRunPrice_bounds {x : Int} (h0 : 0 ≤ x := by omega) (h1 : x ≤ 8192 := by omega) :
    x ≤ litRunPrice x ∧ litRunPrice x ≤ 2 * x ∧ litRunPrice x ≤ x + 1 + x / 255 := by
  rw [litRunPrice]
  split
  · rw [int32_eq_self]
    omega
  · omega

theorem seqPrice_minMatch {litlen : Int} (h0 : 0 ≤ litlen) (h1 : litlen ≤ 8192) :
    seqPrice litlen lz4MinMatch = 3 + litRunPrice litlen := by
  have hrun := litRunPrice_bounds h0 h1
  have hlong : ¬ 15 + lz4MinMatch ≤ lz4MinMatch := by decide
  rw [seqPrice, if_neg hlong, int32_eq_self]
  omega

structure MatchEntry (src : List UInt8) (ip : Int) (p : Nat) (ent : OptEntry) : Prop where
  price_nonneg : 0 ≤ ent.price
  price_le : ent.price ≤ 2 * p
  mlen_le : ent.mlen ≤ p
  isMatch : IsMatch src ⟨ip + p - ent.mlen, ip + p - ent.mlen - ent.off, ent.mlen⟩

/-- The entry at `p` ends a run of literals, which is empty only at position 0. -/
structure LiteralEntry (p : Nat) (ent : OptEntry) : Prop where
  mlen_eq : ent.mlen = 1
  litlen_nonneg : 0 ≤ ent.litlen
  litlen_pos : 0 < p → 0 < ent.litlen
  litlen_le : ent.litlen ≤ p
  base_nonneg : litRunPrice ent.litlen ≤ ent.price
  base_le : ent.price - litRunPrice ent.litlen ≤ 2 * (p - ent.litlen)

/-- A settled entry: reached by literals or by a match, at a finite price. -/
def Settled (src : List UInt8) (ip : Int) (p : Nat) (ent : OptEntry) : Prop :=
  LiteralEntry p ent ∨ MatchEntry src ip p ent

/-- An entry the forward pass has not come to: a placeholder or a match. -/
def Pending (src : List UInt8) (ip : Int) (p : Nat) (ent : OptEntry) : Prop :=
  (ent.price = inf ∧ ent.mlen = 1) ∨ MatchEntry src ip p ent

variable {src : List UInt8}

theorem MatchEntry.mlen_ne_one {ip : Int} {p : Nat} {ent : OptEntry} (h : MatchEntry src ip p ent) :
    ent.mlen ≠ 1 := by
  have hmin : 4 ≤ ent.mlen := h.isMatch.minMatch_le
  omega

theorem Settled.price_bounds {ip : Int} {p : Nat} {ent : OptEntry} (h : Settled src ip p ent)
    (hp : p ≤ 8192) : 0 ≤ ent.price ∧ ent.price ≤ 2 * p := by
  rcases h with h | h
  · have h0 := h.litlen_nonneg
    have hle := h.litlen_le
    have hbase := h.base_nonneg
    have hbase' := h.base_le
    have hrun := litRunPrice_bounds h0
    omega
  · exact ⟨h.price_nonneg, h.price_le⟩

/-- Settled below `lo`, pending from there to `last`. -/
structure Prices (src : List UInt8) (ip : Int) (t : Nat → OptEntry) (lo last : Int) : Prop where
  settled : ∀ p : Nat, p < lo → Settled src ip p (t p)
  pending : ∀ p : Nat, lo ≤ p → p ≤ last → Pending src ip p (t p)

section

variable {src : List UInt8} {ip : Int} {t t' : Nat → OptEntry} {lo last : Int} {v : OptEntry}

theorem Prices.set_pending (h : Prices src ip t lo last) {pos : Nat} (hlo : lo ≤ pos)
    (hv : MatchEntry src ip pos v) : Prices src ip (update t pos v) lo last := by
  refine ⟨fun p hp => ?_, fun p hp hlast => ?_⟩
  · rw [update_of_ne (by omega)]
    exact h.settled p hp
  · by_cases hpos : p = pos
    · rw [hpos, update_self]
      exact .inr hv
    · rw [update_of_ne hpos]
      exact h.pending p hp hlast

theorem Prices.extend (h : Prices src ip t lo last) {last' : Int} (hlo : lo ≤ last + 1)
    (hsame : ∀ p : Nat, p ≤ last → t' p = t p)
    (hnew : ∀ p : Nat, last < p → p ≤ last' → Pending src ip p (t' p)) :
    Prices src ip t' lo last' := by
  refine ⟨fun p hp => ?_, fun p hp hlast => ?_⟩
  · rw [hsame p (by omega)]
    exact h.settled p hp
  · by_cases hold : (p : Int) ≤ last
    · rw [hsame p hold]
      exact h.pending p hp hold
    · exact hnew p (by omega) hlast

theorem Prices.settle (h : Prices src ip t lo last) {cur : Nat} (hcur : lo = cur)
    (hsame : ∀ p, p ≠ cur → t' p = t p) (hv : Settled src ip cur (t' cur)) :
    Prices src ip t' (lo + 1) last := by
  refine ⟨fun p hp => ?_, fun p hp hlast => ?_⟩
  · by_cases hpos : p = cur
    · rw [hpos]
      exact hv
    · rw [hsame p hpos]
      exact h.settled p (by omega)
  · rw [hsame p (by omega)]
    exact h.pending p (by omega) hlast

end

/-! ## The array operations -/

/-- The encoder's tables during a batch; `t` is the content of `opt`. -/
structure Tables (e : LZ4HCEncoder) (n : Nat) (t : Nat → OptEntry) : Prop where
  indexed : Indexed e n
  opt_eq : e.opt = some t

section

variable {e : LZ4HCEncoder} {n : Nat} {t : Nat → OptEntry}

theorem optAt_sat (h : Tables e n t) {i : Int} (h0 : 0 ≤ i := by omega)
    (h1 : i < 8192 := by omega) :
    Sat (e.optAt i) fun v => v = t i.toNat := by
  rw [optAt, h.opt_eq]
  exact tableGet_sat h0 h1

theorem setOpt_sat (h : Tables e n t) {i : Int} {v : OptEntry} (h0 : 0 ≤ i := by omega)
    (h1 : i < 8192 := by omega) :
    Sat (e.setOpt i v) fun e' => Tables e' n (update t i.toNat v) := by
  rw [setOpt, h.opt_eq]
  refine Sat.bind (tableSet_sat h0 h1) ?_
  rintro t' rfl
  exact sat_pure ⟨⟨h.indexed.head_le, h.indexed.chain_len⟩, rfl⟩

theorem fillInf_sat (h : Tables e n t) {lo hi : Int} (h0 : 0 ≤ lo) (h1 : hi ≤ 8192) :
    Sat (e.fillInf lo hi) fun e' => ∃ t', Tables e' n t' ∧
      (∀ p : Nat, lo ≤ p → p < hi → t' p = { price := inf, mlen := 1 }) ∧
      (∀ p : Nat, p < lo ∨ hi ≤ p → t' p = t p) := by
  refine Sat.mono (forRange_sat (fun j e' => ∃ t', Tables e' n t' ∧
      (∀ p : Nat, lo ≤ p → p < j → t' p = { price := inf, mlen := 1 }) ∧
      (∀ p : Nat, p < lo ∨ j ≤ p → t' p = t p)) ?_ ⟨t, h, ?_, ?_⟩) ?_
  · rintro j e' hlo hhi ⟨t', ht', hinf, hsame⟩
    refine (setOpt_sat ht').mono ?_
    intro e'' ht''
    refine ⟨_, ht'', ?_, ?_⟩
    · intro p hp hpj
      by_cases hj : p = j.toNat
      · rw [hj, update_self]
      · rw [update_of_ne hj]
        exact hinf p hp (by omega)
    · intro p hp
      rw [update_of_ne (by omega)]
      exact hsame p (by omega)
  · intro p hp hp'
    omega
  · intro p _
    rfl
  · rintro e' ⟨t', ht', hinf, hsame⟩
    refine ⟨t', ht', ?_, ?_⟩
    · intro p hp hp'
      exact hinf p hp (by omega)
    · intro p hp
      exact hsame p (by omega)

theorem insert_tables (h : Tables e src.length t) {i : Int} (h0 : 0 ≤ i) (h1 : i + 4 ≤ src.length) :
    Sat (e.insert src i) fun e' => Tables e' src.length t := by
  refine (insert_sat h.indexed h0 h1).mono ?_
  rintro e' ⟨he', hopt⟩
  exact ⟨he', by rw [hopt, h.opt_eq]⟩

end

/-! ## Running prices -/

/-- The price of a match before length `l` is offered: `p0` for the shortest one,
    and one more for each bump passed. -/
def PricingAt (p0 l : Int) (p : Pricing) : Prop :=
  ∃ k, 0 ≤ k ∧ p.price = p0 + k ∧ p.nextPriceBump = 19 + 255 * k ∧ l ≤ p.nextPriceBump ∧
    255 * k ≤ l + 235

theorem PricingAt.start (p0 : Int) : PricingAt p0 4 (Pricing.start p0) :=
  ⟨0, by omega, by simp [Pricing.start], rfl, by rw [Pricing.start, lz4MinMatch]; simp, by omega⟩

theorem PricingAt.bump {p0 l : Int} {p : Pricing} (h : PricingAt p0 l p) (hp0 : 0 ≤ p0)
    (hp1 : p0 ≤ 2 ^ 20) (hl : l ≤ 8192) : PricingAt p0 (l + 1) (p.bump l) := by
  obtain ⟨k, hk, hprice, hbump, hle, hcount⟩ := h
  rw [Pricing.bump]
  split
  · refine ⟨k + 1, by omega, ?_, ?_, ?_, by omega⟩ <;> simp only
    · rw [int32_eq_self]
      omega
    · omega
    · omega
  · exact ⟨k, hk, hprice, hbump, by omega, by omega⟩

/-- Once length `l` has been counted in, the price is within the bumps up to `l`. -/
theorem PricingAt.bounds {p0 l : Int} {p : Pricing} (h : PricingAt p0 (l + 1) p) :
    p0 ≤ p.price ∧ 255 * (p.price - p0) ≤ l + 236 := by
  obtain ⟨k, hk, hprice, _, _, hcount⟩ := h
  omega

/-- Offering a match at one of its lengths: what the entry has to satisfy. -/
theorem matchEntry_of_length {ip price relStart l : Int} {m : Match} {pos : Nat} (hm : IsMatch src m)
    (hrel : m.start = ip + relStart) (hpos : pos = relStart + l) (h0 : 0 ≤ relStart) (hl : 4 ≤ l)
    (hle : l ≤ m.len) (hlt : l < 2 ^ 31) (hp0 : 0 ≤ price) (hp1 : price ≤ 2 * pos) :
    MatchEntry src ip pos { price := price, off := int32 (m.start - m.ref), mlen := int32 l } := by
  have href := hm.ref_nonneg
  have hltr := hm.ref_lt_start
  have hdist := hm.distance_le
  have hoff : int32 (m.start - m.ref) = m.start - m.ref := int32_eq_self
  have hmlen : int32 l = l := int32_eq_self (by omega) hlt
  rw [hoff, hmlen]
  refine ⟨hp0, hp1, by simp only; omega, ?_⟩
  have hstart : ip + (pos : Int) - l = m.start := by omega
  have hrefeq : m.start - (m.start - m.ref) = m.ref := by omega
  simp only [hstart, hrefeq]
  exact hm.truncate l hl hle

/-! ## The forward pass -/

/-- The invariant of the forward pass; `t` is the content of `opt`. -/
structure Batching (src : List UInt8) (ip : Int) (s : BatchState) (t : Nat → OptEntry) :
    Prop where
  tables : Tables s.enc src.length t
  cur_pos : 1 ≤ s.cur
  cur_le : s.cur ≤ s.last + 1
  last_pos : 1 ≤ s.last
  last_lt : s.last < 4096
  prices : Prices src ip t s.cur s.last

section

variable {src : List UInt8} {ip : Int} {e : LZ4HCEncoder} {t : Nat → OptEntry}

/-- Seeding prices the first match at all its lengths. -/
theorem seedBatch_sat {m : Match} (he : Indexed e src.length) (hopt : e.opt = some t)
    (hm : IsMatch src m) (hstart : m.start = ip) (hlen : m.len < 4095) :
    Sat (e.seedBatch ip m) fun s => s.cur = 1 ∧ s.last = m.len ∧ ∃ t', Batching src ip s t' := by
  have hmin := hm.minMatch_le
  have hprice0 : seqPrice 0 lz4MinMatch = 3 := by decide
  refine Sat.bind (setOpt_sat ⟨he, hopt⟩) ?_
  intro e1 h1
  refine Sat.bind (fillInf_sat h1 (by omega) (by omega)) ?_
  rintro e2 ⟨t2, h2, hinf, hsame⟩
  have hzero : Settled src ip 0 (t2 0) := by
    rw [hsame 0 (by omega), Int.toNat_zero, update_self]
    exact .inl ⟨rfl, Int.le_refl 0, by simp, Int.le_refl 0, by decide, by decide⟩
  rw [hprice0]
  -- lengths below `l` are priced; the ones before the shortest match are placeholders
  refine Sat.bind (forRange_sat (fun l (s : Pricing × LZ4HCEncoder) => PricingAt 3 l s.1 ∧
    ∃ t', Tables s.2 src.length t' ∧ Prices src ip t' 1 (l - 1)) ?_
    ⟨PricingAt.start 3, t2, h2, ?_, ?_⟩) ?_
  · rintro l ⟨p, e'⟩ hlo hhi ⟨hp, t', ht', hprices⟩
    simp only at hp ht' ⊢
    have hlo4 : 4 ≤ l := hlo
    have hp' := hp.bump (by omega) (by omega) (by omega)
    have hbounds := hp'.bounds
    refine Sat.bind (setOpt_sat ht') ?_
    intro e'' ht''
    refine sat_pure ⟨hp', _, ht'', ?_⟩
    have hentry : MatchEntry src ip l.toNat
        { price := (p.bump l).price, off := int32 (m.start - m.ref), mlen := int32 l } :=
      matchEntry_of_length hm (show m.start = ip + 0 by omega) (by omega) (Int.le_refl 0) hlo4
        (by omega) (by omega) (by omega) (by omega)
    rw [hstart] at hentry
    refine hprices.extend (by omega) ?_ ?_
    · intro p hp
      rw [update_of_ne (by omega)]
    · intro p hp hp'
      have hpl : p = l.toNat := by omega
      rw [hpl, update_self]
      exact .inr hentry
  · intro p hp
    have hp0 : p = 0 := by omega
    rw [hp0]
    exact hzero
  · intro p hp hp'
    have hp4 : (p : Int) ≤ 4 - 1 := hp'
    rw [hinf p hp (by rw [lz4MinMatch]; omega)]
    exact .inl ⟨rfl, rfl⟩
  · rintro ⟨p, e'⟩ ⟨_, t', ht', hprices⟩
    simp only at ht' ⊢
    have hmax : max lz4MinMatch (m.len + 1) - 1 = m.len := by
      rw [lz4MinMatch]
      omega
    rw [hmax] at hprices
    refine sat_pure ⟨rfl, rfl, t', ht', ?_, ?_, ?_, ?_, hprices⟩ <;> simp only <;> omega

/-- The entry the literal step offers at `cur`, given a settled entry before it. -/
theorem literalEntry_of_prev {prev : OptEntry} {cur : Nat} (hcur : 1 ≤ cur) (hlt : cur < 4096)
    (h : Settled src ip (cur - 1) prev) :
    ∃ litlen base, litlen = (if prev.mlen = 1 then int32 (prev.litlen + 1) else 1) ∧
      base = (if prev.mlen = 1 then int32 (prev.price - litRunPrice prev.litlen)
        else prev.price) ∧
      int32 (base + litRunPrice litlen) < inf ∧
      LiteralEntry cur { price := int32 (base + litRunPrice litlen), mlen := 1, litlen } := by
  refine ⟨_, _, rfl, rfl, ?_⟩
  rcases h with h | h
  · have h0 := h.litlen_nonneg
    have hle := h.litlen_le
    have hbase := h.base_nonneg
    have hbase' := h.base_le
    have hlen : int32 (prev.litlen + 1) = prev.litlen + 1 := int32_eq_self
    have hrun := litRunPrice_bounds h0
    have hrun' := litRunPrice_bounds (x := prev.litlen + 1)
    have hb : int32 (prev.price - litRunPrice prev.litlen)
        = prev.price - litRunPrice prev.litlen := int32_eq_self
    rw [if_pos h.mlen_eq, if_pos h.mlen_eq, hlen, hb, int32_eq_self]
    refine ⟨by rw [inf]; omega, rfl, ?_, ?_, ?_, ?_, ?_⟩ <;> simp only <;> omega
  · have hprice := h.price_nonneg
    have hprice' := h.price_le
    have hrun : litRunPrice 1 = 1 := by decide
    rw [if_neg h.mlen_ne_one, if_neg h.mlen_ne_one, hrun, int32_eq_self]
    refine ⟨by rw [inf]; omega, rfl, ?_, ?_, ?_, ?_, ?_⟩ <;> simp only [hrun] <;> omega

/-- The literal step settles `cur` and touches nothing else. -/
theorem literalStep_sat {cur last : Int} (h : Tables e src.length t)
    (hprices : Prices src ip t cur last) (h1 : 1 ≤ cur) (hle : cur ≤ last) (hlt : last < 4096) :
    Sat (e.literalStep cur last) fun e' => ∃ t', Tables e' src.length t' ∧
      Prices src ip t' (cur + 1) last ∧ ∀ p : Nat, p < cur → t' p = t p := by
  obtain ⟨c, rfl⟩ : ∃ c : Nat, cur = c := ⟨cur.toNat, by omega⟩
  have hprev := hprices.settled (c - 1) (by omega)
  have hpend := hprices.pending c (by omega) hle
  have hbounds := hprev.price_bounds (by omega)
  have hidx : ((c : Int) - 1).toNat = c - 1 := by omega
  obtain ⟨litlen, base, hlit, hbase, hfinite, hentry⟩ :=
    literalEntry_of_prev (by omega) (by omega) hprev
  -- storing the offered entry settles `cur`
  have hstore : Sat (e.setOpt c { price := int32 (base + litRunPrice litlen), mlen := 1, litlen })
      fun e' => ∃ t', Tables e' src.length t' ∧
        Prices src ip t' (c + 1) last ∧ ∀ p : Nat, p < (c : Int) → t' p = t p := by
    refine (setOpt_sat h).mono ?_
    intro e' he'
    rw [Int.toNat_natCast] at he'
    refine ⟨_, he', hprices.settle rfl ?_ ?_, ?_⟩
    · intro p hp
      exact update_of_ne hp _ _
    · rw [update_self]
      exact .inl hentry
    · intro p hp
      rw [update_of_ne (by omega)]
  refine Sat.bind (optAt_sat h) ?_
  rintro prev' rfl
  rw [hidx, if_pos (by rw [inf]; omega)]
  simp only [← hlit, ← hbase]
  rw [if_neg (by omega)]
  refine Sat.bind (optAt_sat h) ?_
  rintro old rfl
  rw [Int.toNat_natCast]
  by_cases hcheap : int32 (base + litRunPrice litlen) < (t c).price
  · rw [if_pos hcheap]
    exact hstore
  rw [if_neg hcheap]
  -- a placeholder costs more than any literal, so the entry kept is a match
  rcases hpend with ⟨hinf, _⟩ | hmatch
  · rw [hinf] at hcheap
    contradiction
  · exact sat_pure ⟨t, h, hprices.settle rfl (fun _ _ => rfl) (.inr hmatch), fun _ _ => rfl⟩

/-- What pricing one length keeps: positions up to `cur` are as they were. -/
structure Priced (src : List UInt8) (ip : Int) (t : Nat → OptEntry) (cur last : Int)
    (e : LZ4HCEncoder) (last' : Int) : Prop where
  table : ∃ t', Tables e src.length t' ∧ Prices src ip t' (cur + 1) last' ∧
    ∀ p : Nat, p ≤ cur → t' p = t p
  last_le : last ≤ last'
  last_lt : last' < 4096

theorem priceLength_sat {m : Match} {relStart cur last l p0 : Int}
    {s : Pricing × LZ4HCEncoder × Int} (hm : IsMatch src m) (hrel : m.start = ip + relStart)
    (h0 : 0 ≤ relStart) (hwin : relStart + m.len < 4096) (hcur0 : 0 ≤ cur) (hcur : cur ≤ last)
    (hp0 : 0 ≤ p0) (hp1 : p0 ≤ 2 * relStart + 4) (hl : 4 ≤ l) (hle : l ≤ m.len)
    (hp : PricingAt p0 l s.1) (h : Priced src ip t cur last s.2.1 s.2.2) :
    Sat (priceLength relStart cur (int32 (m.start - m.ref)) l s) fun s' =>
      PricingAt p0 (l + 1) s'.1 ∧ Priced src ip t cur last s'.2.1 s'.2.2 := by
  obtain ⟨p, e', last'⟩ := s
  obtain ⟨⟨t', ht', hprices, hsame⟩, hlast, hlast'⟩ := h
  simp only at hp ht' hprices hlast hlast'
  have hp' := hp.bump hp0 (by omega) (by omega)
  have hbounds := hp'.bounds
  have hentry : relStart + l > cur → MatchEntry src ip (relStart + l).toNat
      { price := (p.bump l).price, off := int32 (m.start - m.ref), mlen := int32 l } := by
    intro _
    exact matchEntry_of_length hm hrel (by omega) h0 hl hle (by omega) (by omega) (by omega)
  simp only [priceLength]
  split
  · exact sat_ok ⟨hp', ⟨t', ht', hprices, hsame⟩, hlast, hlast'⟩
  rename_i hpos
  have hentry' := hentry (by omega)
  split
  -- beyond the last position: placeholders up to it, then the match
  · refine Sat.bind (fillInf_sat ht' (by omega) (by omega)) ?_
    rintro e1 ⟨t1, ht1, hinf, hkeep⟩
    refine Sat.bind (setOpt_sat ht1) ?_
    intro e2 ht2
    refine sat_pure ⟨hp', ⟨_, ht2, ?_, ?_⟩, by simp only; omega, by simp only; omega⟩
    · refine hprices.extend (by omega) ?_ ?_
      · intro q hq
        rw [update_of_ne (by omega), hkeep q (by omega)]
      · intro q hq (hq' : (q : Int) ≤ relStart + l)
        by_cases hqpos : q = (relStart + l).toNat
        · rw [hqpos, update_self]
          exact .inr hentry'
        · rw [update_of_ne hqpos, hinf q (by omega) (by omega)]
          exact .inl ⟨rfl, rfl⟩
    · intro q hq
      rw [update_of_ne (by omega), hkeep q (by omega), hsame q hq]
  · refine Sat.bind (optAt_sat ht') ?_
    -- a pending position is only replaced by a cheaper match
    rintro old rfl
    split
    · refine Sat.bind (setOpt_sat ht') ?_
      intro e1 ht1
      refine sat_pure ⟨hp', ⟨_, ht1, hprices.set_pending (by omega) hentry', ?_⟩, hlast, hlast'⟩
      intro q hq
      rw [update_of_ne (by omega), hsame q hq]
    · exact sat_pure ⟨hp', ⟨t', ht', hprices, hsame⟩, hlast, hlast'⟩

theorem matchBase_sat {relStart : Int} (h : Tables e src.length t) (h0 : 0 ≤ relStart)
    (hlt : relStart < 4096) (hsettled : ∀ p : Nat, p ≤ relStart → Settled src ip p (t p)) :
    Sat (e.matchBase relStart (t relStart.toNat)) fun r =>
      0 ≤ r.1 ∧ r.1 ≤ relStart ∧ 0 ≤ r.2 ∧ r.2 ≤ 2 * (relStart - r.1) := by
  have hrel := hsettled relStart.toNat (by omega)
  have hbounds := hrel.price_bounds (by omega)
  rw [matchBase]
  split
  · rename_i hlit
    rcases hrel with hrel | hrel
    · have hl0 := hrel.litlen_nonneg
      have hl1 := hrel.litlen_le
      refine Sat.bind (optAt_sat h) ?_
      rintro base rfl
      have hbase := (hsettled (relStart - (t relStart.toNat).litlen).toNat
        (by omega)).price_bounds (by omega)
      refine sat_pure ⟨hl0, ?_, hbase.1, ?_⟩ <;> simp only <;> omega
    · exact absurd hlit hrel.mlen_ne_one
  · refine sat_ok ⟨Int.le_refl 0, h0, hbounds.1, ?_⟩
    simp only
    omega

/-- All positions of a batch are settled when the forward pass leaves it. -/
structure BatchDone (src : List UInt8) (ip : Int) (s : BatchState) (t : Nat → OptEntry) :
    Prop where
  tables : Tables s.enc src.length t
  last_pos : 1 ≤ s.last
  last_lt : s.last < 4096
  settled : ∀ p : Nat, p ≤ s.last → Settled src ip p (t p)

/-- What one position of the forward pass does: it settles `cur`, and the
    positions settled before keep their entries. -/
theorem batchStep_sat {s : BatchState} (hip : 0 ≤ ip) (h : Batching src ip s t) :
    Sat (batchStep src ip (src.length - lz4MFLimit) s) fun r =>
      match r with
      | .next s' => s.cur ≤ s.last ∧ s'.cur = s.cur + 1 ∧ ∃ t', Batching src ip s' t' ∧
          ∀ p : Nat, p < s.cur → t' p = t p
      | .done s' => ∃ t', BatchDone src ip s' t' ∧ ∀ p : Nat, p < s.cur → t' p = t p := by
  obtain ⟨enc, last, cur⟩ := s
  obtain ⟨htab, hcur, hcurle, hlast, hlt, hprices⟩ := h
  simp only at htab hcur hcurle hlast hlt hprices
  simp only [batchStep]
  by_cases hgo : cur ≤ last
  · rw [if_pos hgo]
    refine Sat.bind (literalStep_sat htab hprices hcur hgo hlt) ?_
    rintro e1 ⟨t1, ht1, hprices1, hsame⟩
    -- every way to the next position but pricing a match goes on with these entries
    have hnext : ∀ e', Tables e' src.length t1 → Batching src ip ⟨e', last, cur + 1⟩ t1 := by
      intro e' he'
      refine ⟨he', ?_, ?_, hlast, hlt, hprices1⟩ <;> simp only <;> omega
    split
    · exact sat_pure ⟨hgo, rfl, t1, hnext e1 ht1, hsame⟩
    rename_i hinside
    have hinside' : ¬ (src.length : Int) - 12 ≤ ip + cur := fun hc => hinside (.inr hc)
    refine Sat.bind (insert_tables ht1 (by omega) (by omega)) ?_
    intro e2 ht2
    refine Sat.bind (widerMatch_sat ht2.indexed hip (by omega) (by omega)) ?_
    intro m hfound
    split
    · exact sat_pure ⟨hgo, rfl, t1, hnext e2 ht2, hsame⟩
    rename_i hsome
    rcases hfound with hnone | ⟨hm, hmin, hmax, _⟩
    · contradiction
    split
    · refine sat_pure ⟨t1, ⟨ht2, hcur, ?_, ?_⟩, hsame⟩
      · simp only
        omega
      · intro p (hp : (p : Int) ≤ cur)
        exact hprices1.settled p (by omega)
    · rename_i hsmall
      rw [lz4OptWindow] at hsmall
      have hwin : m.start - ip + m.len < 4096 := by omega
      refine Sat.bind (optAt_sat ht2) ?_
      rintro entry rfl
      split
      · exact sat_pure ⟨hgo, rfl, t1, hnext e2 ht2, hsame⟩
      refine Sat.bind (matchBase_sat ht2 (by omega) (by omega)
        (fun p hp => hprices1.settled p (by omega))) ?_
      rintro ⟨litlen, base⟩ ⟨hl0, hl1, hb0, hb1⟩
      simp only at hl0 hl1 hb0 hb1 ⊢
      have hrun := litRunPrice_bounds hl0
      have hp0 : int32 (base + (3 + litRunPrice litlen)) = base + (3 + litRunPrice litlen) :=
        int32_eq_self
      rw [seqPrice_minMatch hl0 (by omega), hp0]
      refine Sat.bind (forRange_sat
        (fun l s => PricingAt (base + (3 + litRunPrice litlen)) l s.1 ∧
          Priced src ip t1 cur last s.2.1 s.2.2) ?_
        ⟨PricingAt.start _, ⟨t1, ht2, hprices1, fun _ _ => rfl⟩, Int.le_refl last, hlt⟩) ?_
      · rintro l s hlo hhi ⟨hp, hs⟩
        exact priceLength_sat hm (by omega) (by omega) hwin (by omega) hgo (by omega)
          (by omega) hlo (by omega) hp hs
      rintro ⟨p, e3, last3⟩ ⟨_, ⟨t3, ht3, hprices3, hsame3⟩, hle3, hlt3⟩
      simp only at ht3 hprices3 hle3 hlt3 ⊢
      refine sat_pure ⟨hgo, rfl, t3, ⟨ht3, ?_, ?_, ?_, hlt3, hprices3⟩, ?_⟩
      · simp only
        omega
      · simp only
        omega
      · simp only
        omega
      · intro p hp
        rw [hsame3 p (by omega), hsame p hp]
  · rw [if_neg hgo]
    refine sat_ok ⟨t, ⟨htab, hlast, hlt, ?_⟩, fun _ _ => rfl⟩
    intro p (hp : (p : Int) ≤ last)
    exact hprices.settled p (by omega)

theorem runBatch_sat {s : BatchState} (hip : 0 ≤ ip) (h : Batching src ip s t) :
    Sat (runBatch src ip (src.length - lz4MFLimit) s) fun s' => ∃ t', BatchDone src ip s' t' := by
  refine loop_sat (fun s => ∃ t, Batching src ip s t) (fun s => (4096 - s.cur).toNat) ?_ ⟨t, h⟩ ?_
  · rintro s ⟨t, hs⟩
    refine (batchStep_sat hip hs).mono ?_
    rintro (s' | s') hr
    · obtain ⟨hgo, hcur, t', hs', _⟩ := hr
      have hlt := hs.last_lt
      exact ⟨⟨t', hs'⟩, by omega⟩
    · obtain ⟨t', hs', _⟩ := hr
      exact ⟨t', hs'⟩
  · have hcur := h.cur_pos
    simp only [lz4OptWindow]
    omega

/-- **Settled positions stay as they are**: from any state of the forward pass to
    any later one. -/
theorem reach_settled {s s' : BatchState} (hip : 0 ≤ ip) (h : Batching src ip s t)
    (hreach : Reach (batchStep src ip (src.length - lz4MFLimit)) s s') :
    ∃ t', Batching src ip s' t' ∧ s.cur ≤ s'.cur ∧ ∀ p : Nat, p < s.cur → t' p = t p := by
  refine reach_invariant
    (fun s' => ∃ t', Batching src ip s' t' ∧ s.cur ≤ s'.cur ∧ ∀ p : Nat, p < s.cur → t' p = t p)
    ?_ hreach ⟨t, h, Int.le_refl _, fun _ _ => rfl⟩
  rintro s1 s2 ⟨t1, h1, hle, hsame⟩ hstep
  obtain ⟨_, hcur, t2, h2, hsame2⟩ := (batchStep_sat hip h1).of_eq_ok hstep
  refine ⟨t2, h2, by omega, ?_⟩
  intro p hp
  rw [hsame2 p (by omega), hsame p hp]

end

/-! ## The backtrack -/

section

variable {src : List UInt8} {ip : Int} {t : Nat → OptEntry} {s : BatchState}

/-- The end of a batch: its last match, or 0 when it has none. -/
theorem trimLiterals_sat (h : BatchDone src ip s t) :
    Sat (s.enc.trimLiterals s.last) fun endPos => 0 ≤ endPos ∧ endPos ≤ s.last ∧
      (0 < endPos → MatchEntry src ip endPos.toNat (t endPos.toNat)) := by
  have hpos := h.last_pos
  have hlt := h.last_lt
  refine loop_sat (fun p => 0 ≤ p ∧ p ≤ s.last) Int.toNat ?_ ⟨by omega, Int.le_refl _⟩
    (Nat.lt_succ_self _)
  rintro p ⟨hp0, hp⟩
  by_cases hgo : 0 < p
  · rw [if_pos hgo]
    refine Sat.bind (optAt_sat h.tables hp0) ?_
    rintro entry rfl
    split
    · refine sat_pure ⟨⟨?_, ?_⟩, ?_⟩ <;> omega
    rename_i hmlen
    refine sat_pure ⟨hp0, hp, fun _ => ?_⟩
    rcases h.settled p.toNat (by omega) with hlit | hmatch
    · exact absurd hlit.mlen_eq hmlen
    · exact hmatch
  · rw [if_neg hgo]
    exact sat_ok ⟨hp0, hp, fun hc => absurd hc hgo⟩

/-- A backtracked tuple as a match of the source. -/
def tupleMatch (ip : Int) (q : Int × Int × Int) : Match :=
  ⟨ip + q.1, ip + q.1 - q.2.2, q.2.1⟩

/-- Matches of a batch in the order of the source: each starts where the one
    before ended or later (what lies between are literals), agrees with the
    source, and the last one ends at `hi`. -/
def Covers (src : List UInt8) (ip lo hi : Int) : List (Int × Int × Int) → Prop
  | [] => lo = hi
  | q :: rest => lo ≤ q.1 ∧ IsMatch src (tupleMatch ip q) ∧ Covers src ip (q.1 + q.2.1) hi rest

theorem Covers.weaken {lo lo' hi : Int} {seqs : List (Int × Int × Int)}
    (h : Covers src ip lo hi seqs) (hle : lo' ≤ lo) (hnil : seqs = [] → lo' = hi) :
    Covers src ip lo' hi seqs := by
  cases seqs with
  | nil => exact hnil rfl
  | cons q rest => exact ⟨Int.le_trans hle h.1, h.2⟩

/-- Where the backtrack stands: the tuples so far, turned round, cover the batch
    from the current position on. -/
structure Backtracking (src : List UInt8) (ip endPos : Int) (s : Int × List (Int × Int × Int)) :
    Prop where
  pos_nonneg : 0 ≤ s.1
  pos_le : s.1 ≤ endPos
  covers : ∃ pos, s.1 ≤ pos ∧ Covers src ip pos endPos s.2.reverse
  from_end : s.2 = [] → s.1 = endPos

theorem backStep_sat {endPos : Int} {b : Int × List (Int × Int × Int)} (h : BatchDone src ip s t)
    (hend : endPos ≤ s.last)
    (hmatch : 0 < endPos → MatchEntry src ip endPos.toNat (t endPos.toNat))
    (hb : Backtracking src ip endPos b) :
    Sat (s.enc.backStep b) fun r =>
      match r with
      | .next b' => Backtracking src ip endPos b' ∧ b'.1 < b.1
      | .done seqs => Covers src ip 0 endPos seqs.reverse := by
  obtain ⟨pos, seqs⟩ := b
  obtain ⟨h0, hle, ⟨at_, hat, hcov⟩, hfrom⟩ := hb
  simp only at h0 hle hat hcov hfrom
  have hlt := h.last_lt
  simp only [backStep]
  by_cases hgo : 0 < pos
  · rw [if_pos hgo]
    refine Sat.bind (optAt_sat h.tables h0) ?_
    rintro ent rfl
    have hset := h.settled pos.toNat (by omega)
    split
    · rename_i hmlen
      rcases hset with hlit | hm
      · have hl := hlit.litlen_pos (by omega)
        have hl' := hlit.litlen_le
        refine sat_pure ⟨⟨?_, ?_, ⟨at_, ?_, hcov⟩, ?_⟩, ?_⟩ <;> simp only <;> try omega
        -- the backtrack starts on a match, so a run of literals is never its first step
        intro hnil
        have hpos := hfrom hnil
        rw [hpos] at hgo hmlen
        exact absurd hmlen (hmatch hgo).mlen_ne_one
      · exact absurd hmlen hm.mlen_ne_one
    · rename_i hmlen
      rcases hset with hlit | hm
      · exact absurd hlit.mlen_eq hmlen
      have hmin := hm.isMatch.minMatch_le
      have hmle := hm.mlen_le
      simp only at hmin
      have hpos32 : int32 pos = pos := int32_eq_self
      have hstart32 : int32 (pos - (t pos.toNat).mlen) = pos - (t pos.toNat).mlen :=
        int32_eq_self
      rw [hpos32, hstart32]
      refine sat_pure ⟨⟨?_, ?_, ⟨pos - (t pos.toNat).mlen, ?_, ?_⟩, ?_⟩, ?_⟩ <;>
        simp only <;> try omega
      · rw [List.reverse_append, List.reverse_singleton, List.singleton_append]
        refine ⟨Int.le_refl _, ?_, ?_⟩
        · have hm' := hm.isMatch
          have hcast : ((pos.toNat : Nat) : Int) = pos := by omega
          rw [hcast] at hm'
          have hs : ip + (pos - (t pos.toNat).mlen) = ip + pos - (t pos.toNat).mlen := by omega
          simp only [tupleMatch, hs]
          exact hm'
        · simp only
          have hback : pos - (t pos.toNat).mlen + (t pos.toNat).mlen = pos := by omega
          rw [hback]
          exact hcov.weaken hat fun hrev => hfrom (List.reverse_eq_nil_iff.mp hrev)
      · simp
  · rw [if_neg hgo]
    refine sat_ok (hcov.weaken (by omega) fun hrev => ?_)
    have hpos := hfrom (List.reverse_eq_nil_iff.mp hrev)
    omega

theorem backtrack_sat {endPos : Int} (h : BatchDone src ip s t) (h0 : 0 ≤ endPos)
    (hend : endPos ≤ s.last)
    (hmatch : 0 < endPos → MatchEntry src ip endPos.toNat (t endPos.toNat)) :
    Sat (s.enc.backtrack endPos) fun seqs => Covers src ip 0 endPos seqs.reverse := by
  refine loop_sat (Backtracking src ip endPos) (fun b => b.1.toNat) ?_
    ⟨h0, Int.le_refl _, ⟨endPos, Int.le_refl _, rfl⟩, fun _ => rfl⟩ (Nat.lt_succ_self _)
  intro b hb
  have hpos := hb.pos_nonneg
  refine (backStep_sat h hend hmatch hb).mono ?_
  rintro (b' | seqs) hr
  · have hpos' := hr.1.pos_nonneg
    exact ⟨hr.1, by omega⟩
  · exact hr

end

end Orchestrator.Erofs.Lz4Enc

/-
  Orchestrator.Erofs.Lz4Enc.Emit

  Writing sequences: `putLenExt`, `emitSequence` and `emitTail`, and the
  invariant that both compressors carry through their loops.

  The functions write exactly the bytes the block format gives the sequence
  (`emitSequence_sat`), after a size check that covers them.  `Emitted` then
  ties the output to the source: the bytes written so far are the encoding of
  some sequences, those sequences expand to the source up to the literal
  anchor, and each of their matches is one the format allows at its place.
-/

import Orchestrator.Erofs.Lz4Enc.Matcher
import Orchestrator.Lib.Lz4Block

namespace Orchestrator.Erofs.Lz4Enc

open Lib Lib.Exec List
open Lib.Lz4 (Sequence Block lenExt lenNibble lenBytes encodeSeqs encodeTail
  expandSeqs matchesFrom parseBlock decodeBlock)

/-! ## The writers -/

/-- `putLenExt`: the buffer and the cursor after it. -/
def putLenExt (dst : List UInt8) (d v : Int) : Exec (List UInt8 × Int) := do
  let (dst, d, v) ← loop (fun (s : List UInt8 × Int × Int) =>
      if 255 ≤ s.2.2 then do return .next (← setAt s.1 s.2.1 255, s.2.1 + 1, s.2.2 - 255)
      else .ok (.done s))
    (v.toNat + 1) (dst, d, v)
  return (← setAt dst d (byteOf v), d + 1)

/-- The optional length field after a nibble of 15. -/
def putLenField (dst : List UInt8) (d v : Int) : Exec (List UInt8 × Int) :=
  if 15 ≤ v then putLenExt dst d (v - 15) else .ok (dst, d)

/-- The high nibble of a token. -/
def litToken (lit : Int) : UInt8 := if 15 ≤ lit then (15 : UInt8) <<< 4 else byteOf lit <<< 4

/-- The low nibble of a token. -/
def matchToken (m : Int) : UInt8 := if 15 ≤ m then 15 else byteOf m

/-- `emitSequence`: the buffer, the cursor, and whether the sequence fitted. -/
def emitSequence (dst : List UInt8) (d : Int) (literals : List UInt8) (offset mlen : Int) :
    Exec (List UInt8 × Int × Bool) :=
  let lit : Int := literals.length
  let need := 1 + lit + (lit + 240) / 255 + 2 + (mlen + 240) / 255 + 1
  if dst.length < d + need then .ok (dst, 0, false)
  else do
    let m := mlen - lz4MinMatch
    let token := litToken lit ||| matchToken m
    let dst ← setAt dst d token
    let (dst, d) ← putLenField dst (d + 1) lit
    let (dst, n) ← copyAt dst d literals
    let d := d + n
    let dst ← setAt dst d (byteOf offset)
    let dst ← setAt dst (d + 1) (byteOf (offset / 256))
    let (dst, d) ← putLenField dst (d + 2) m
    return (dst, d, true)

/-- `emitTail`: the buffer and the size of the block, 0 when it does not fit. -/
def emitTail (src dst : List UInt8) (d anchor : Int) : Exec (List UInt8 × Int) :=
  let lit := src.length - anchor
  let need := 1 + lit + (lit + 240) / 255
  if dst.length < d + need then .ok (dst, 0)
  else do
    let dst ← setAt dst d (litToken lit)
    let (dst, d) ← putLenField dst (d + 1) lit
    let tail ← sliceFrom src anchor
    let (dst, n) ← copyAt dst d tail
    return (dst, d + n)

/-! ## The writers produce the format's bytes -/

theorem byteOf_eq {x : Int} (h : 0 ≤ x := by omega) : byteOf x = UInt8.ofNat x.toNat := by
  have hmod : (x % 256).toNat = x.toNat % 256 := by omega
  rw [byteOf, hmod]
  apply UInt8.toNat_inj.mp
  rw [UInt8.toNat_ofNat', UInt8.toNat_ofNat']
  omega

theorem shift_or_nibbles : ∀ a < 16, ∀ b < 16,
    (UInt8.ofNat a <<< 4) ||| UInt8.ofNat b = UInt8.ofNat (a * 16 + b) := by
  decide

theorem litToken_eq (n : Nat) : litToken n = UInt8.ofNat (lenNibble n) <<< 4 := by
  rw [litToken, lenNibble]
  by_cases h : 15 ≤ n
  · rw [if_pos (by omega), Nat.min_eq_right h]
    rfl
  · rw [if_neg (by omega), Nat.min_eq_left (by omega), byteOf_eq]
    rfl

theorem token_eq (n m : Nat) :
    litToken n ||| matchToken m = UInt8.ofNat (lenNibble n * 16 + lenNibble m) := by
  have hn := Lz4.lenNibble_le n
  have hm := Lz4.lenNibble_le m
  have hlow : matchToken m = UInt8.ofNat (lenNibble m) := by
    rw [matchToken, lenNibble]
    by_cases h : 15 ≤ m
    · rw [if_pos (by omega), Nat.min_eq_right h]
      rfl
    · rw [if_neg (by omega), Nat.min_eq_left (by omega), byteOf_eq]
      rfl
  rw [litToken_eq, hlow, shift_or_nibbles _ (by omega) _ (by omega)]

structure Advanced (dst : List UInt8) (d : Int) (bs dst' : List UInt8) (d' : Int) : Prop where
  wrote : Wrote dst d.toNat bs dst'
  cursor : d' = d + bs.length

variable {dst : List UInt8} {d : Int}

theorem Advanced.trans {dst' dst'' bs cs : List UInt8} {d' d'' : Int} (h0 : 0 ≤ d)
    (h : Advanced dst d bs dst' d') (h' : Advanced dst' d' cs dst'' d'') :
    Advanced dst d (bs ++ cs) dst'' d'' := by
  have hcursor := h.cursor
  have hcursor' := h'.cursor
  have hd : d'.toNat = d.toNat + bs.length := by omega
  have hw := h'.wrote
  rw [hd] at hw
  refine ⟨h.wrote.append hw, ?_⟩
  rw [length_append]
  omega

theorem Advanced.length_eq {dst' bs : List UInt8} {d' : Int} (h : Advanced dst d bs dst' d') :
    dst'.length = dst.length := h.wrote.length_eq

theorem setAt_advanced {v : UInt8} (h0 : 0 ≤ d := by omega) (h1 : d < dst.length := by omega) :
    Sat (setAt dst d v) fun dst' => Advanced dst d [v] dst' (d + 1) := by
  refine (setAt_sat h0 h1).mono ?_
  rintro dst' rfl
  exact ⟨Wrote.set (by omega), by simp⟩

theorem lenExt_succ {v : Nat} (h : 255 ≤ v) : lenExt v = 255 :: lenExt (v - 255) := by
  have hdiv : v / 255 = (v - 255) / 255 + 1 := by omega
  have hmod : v % 255 = (v - 255) % 255 := by omega
  rw [lenExt, lenExt, hdiv, hmod, replicate_succ, cons_append]

theorem length_lenExt (v : Nat) : (lenExt v).length = v / 255 + 1 := by
  rw [lenExt, length_append, length_replicate, length_singleton]

theorem putLenExt_sat (v : Nat) (h0 : 0 ≤ d) (h1 : d + (lenExt v).length ≤ dst.length) :
    Sat (putLenExt dst d v) fun r => Advanced dst d (lenExt v) r.1 r.2 := by
  -- what is written and what is still to be written make up the whole field
  refine Sat.bind (loop_sat
    (fun (s : List UInt8 × Int × Int) => ∃ w : Nat, ∃ bs, s.2.2 = w ∧ bs ++ lenExt w = lenExt v ∧
      Advanced dst d bs s.1 s.2.1)
    (R := fun (s : List UInt8 × Int × Int) => ∃ w : Nat, ∃ bs, s.2.2 = w ∧ w < 255 ∧ bs ++ lenExt w = lenExt v ∧
      Advanced dst d bs s.1 s.2.1)
    (fun s => s.2.2.toNat) ?_ ⟨v, [], rfl, rfl, Wrote.nil (by omega), by simp⟩ (by simp)) ?_
  · rintro ⟨cur, c, w⟩ ⟨w, bs, rfl, hbs, hadv⟩
    simp only at hadv ⊢
    have hlen := hadv.length_eq
    have hcursor := hadv.cursor
    have hsum := congrArg length hbs
    rw [length_append, length_lenExt, length_lenExt] at hsum
    rw [length_lenExt] at h1
    by_cases hbig : (255 : Int) ≤ w
    · rw [if_pos hbig]
      refine Sat.bind setAt_advanced ?_
      intro cur' hadv'
      refine sat_pure ⟨⟨w - 255, bs ++ [255], ?_, ?_, hadv.trans h0 hadv'⟩, ?_⟩
      · simp only
        omega
      · rw [lenExt_succ (by omega)] at hbs
        rw [append_assoc, singleton_append]
        exact hbs
      · simp only
        omega
    · rw [if_neg hbig]
      exact sat_ok ⟨w, bs, rfl, by omega, hbs, hadv⟩
  · rintro ⟨cur, c, w⟩ ⟨w, bs, rfl, hsmall, hbs, hadv⟩
    simp only at hadv ⊢
    have hlen := hadv.length_eq
    have hcursor := hadv.cursor
    have hlast : lenExt w = [byteOf w] := by
      rw [byteOf_eq, lenExt, Nat.div_eq_of_lt hsmall, Nat.mod_eq_of_lt hsmall]
      rfl
    rw [hlast] at hbs
    have hsum := congrArg length hbs
    rw [length_append, length_singleton] at hsum
    refine Sat.bind setAt_advanced ?_
    intro cur' hadv'
    refine sat_pure ?_
    rw [← hbs]
    exact hadv.trans h0 hadv'

theorem length_lenBytes (v : Nat) : (lenBytes v).length = (v + 240) / 255 := by
  rw [lenBytes]
  split
  · rw [length_lenExt]
    omega
  · rw [length_nil]
    omega

theorem putLenField_sat (v : Nat) (h0 : 0 ≤ d := by omega)
    (h1 : d + (lenBytes v).length ≤ dst.length := by omega) :
    Sat (putLenField dst d v) fun r => Advanced dst d (lenBytes v) r.1 r.2 := by
  rw [lenBytes] at h1 ⊢
  rw [putLenField]
  by_cases hv : 15 ≤ v
  · rw [if_pos hv] at h1 ⊢
    have hsub : (v : Int) - 15 = (v - 15 : Nat) := by omega
    rw [if_pos (by omega), hsub]
    exact putLenExt_sat (v - 15) h0 h1
  · rw [if_neg hv] at h1 ⊢
    rw [if_neg (by omega)]
    exact sat_ok ⟨Wrote.nil (by simp at h1; omega), by simp⟩

theorem copyAt_advanced {bs : List UInt8} (h0 : 0 ≤ d := by omega)
    (h1 : d + bs.length ≤ dst.length := by omega) :
    Sat (copyAt dst d bs) fun r => Advanced dst d bs r.1 (d + r.2) := by
  refine (copyAt_sat h0 h1).mono ?_
  rintro r ⟨hw, hn⟩
  exact ⟨hw, by rw [hn]⟩

/-- **`emitSequence` writes the encoding of its sequence, or reports that it does
    not fit.** -/
theorem emitSequence_sat (literals : List UInt8) (offset mlen : Nat) (h0 : 0 ≤ d) (hmin : 4 ≤ mlen) :
    Sat (emitSequence dst d literals offset mlen) fun r =>
      r.2.2 = true → Advanced dst d (Sequence.encode ⟨literals, offset, mlen⟩) r.1 r.2.1 := by
  simp only [emitSequence]
  split
  · exact sat_ok (by simp)
  rename_i hfits
  have hm : (mlen : Int) - lz4MinMatch = (mlen - 4 : Nat) := by
    rw [lz4MinMatch]
    omega
  have hlitLen := length_lenBytes literals.length
  have hmLen := length_lenBytes (mlen - 4)
  rw [hm, token_eq]
  refine Sat.bind (setAt_advanced h0) ?_
  intro dst1 h1
  have hlen1 := h1.length_eq
  refine Sat.bind (putLenField_sat literals.length) ?_
  rintro ⟨dst2, d2⟩ h2
  simp only at h2 ⊢
  have hlen2 := h2.length_eq
  have hcur2 := h2.cursor
  refine Sat.bind copyAt_advanced ?_
  rintro ⟨dst3, n⟩ h3
  simp only at h3 ⊢
  have hlen3 := h3.length_eq
  have hcur3 := h3.cursor
  refine Sat.bind setAt_advanced ?_
  intro dst4 h4
  have hlen4 := h4.length_eq
  refine Sat.bind setAt_advanced ?_
  intro dst5 h5
  have hlen5 := h5.length_eq
  have hd5 : d2 + n + 1 + 1 = d2 + n + 2 := by omega
  rw [hd5] at h5
  refine Sat.bind (putLenField_sat (mlen - 4)) ?_
  rintro ⟨dst6, d6⟩ h6
  refine sat_pure fun _ => ?_
  -- the fields in the order the format lists them
  have hall := ((((h1.trans h0 h2).trans h0 h3).trans h0 h4).trans h0 h5).trans h0 h6
  rw [byteOf_eq, byteOf_eq] at hall
  have hhi : ((offset : Int) / 256).toNat = offset / 256 := by omega
  rw [Int.toNat_natCast, hhi] at hall
  simpa [Sequence.encode, Lz4.minMatch, append_assoc] using hall

/-! ## What has been written -/

/-- A match, as (position, offset, length), that a block of an `n`-byte source
    may hold: its offset fits the format and stays in the decoded prefix, it does
    not start in the last 12 bytes, and it leaves the last 5 as literals. -/
def Allowed (n : Nat) (m : Nat × Nat × Nat) : Prop :=
  1 ≤ m.2.1 ∧ m.2.1 ≤ 65535 ∧ m.2.1 ≤ m.1 ∧ m.1 + 12 < n ∧ m.1 + m.2.2 + 5 ≤ n

/-- The output up to the cursor `d` encodes `seqs`, which expand to the source up
    to `anchor`. -/
structure Emitted (src dst : List UInt8) (d anchor : Int) (seqs : List Sequence) : Prop where
  cursor : d = (encodeSeqs seqs).length
  cursor_le : d ≤ dst.length
  written : dst.take d.toNat = encodeSeqs seqs
  anchor_nonneg : 0 ≤ anchor
  anchor_le : anchor ≤ src.length
  expands : expandSeqs [] seqs = some (src.take anchor.toNat)
  covers : (seqs.map fun s => s.literals.length + s.matchLen).sum = anchor.toNat
  encodable : ∀ s ∈ seqs, s.Encodable
  allowed : ∀ m ∈ matchesFrom 0 seqs, Allowed src.length m
  first_literal : ∀ s ∈ seqs.head?, 0 < s.literals.length

theorem Emitted.start (src dst : List UInt8) : Emitted src dst 0 0 [] := by
  refine ⟨rfl, by omega, rfl, by omega, by omega, rfl, rfl, ?_, ?_, ?_⟩ <;>
    simp [matchesFrom]

/-- The sequence that a match adds to the output. -/
def matchSequence (src : List UInt8) (anchor : Int) (m : Match) : Sequence :=
  ⟨(src.take m.start.toNat).drop anchor.toNat, (m.start - m.ref).toNat, m.len.toNat⟩

section

variable {src dst dst' : List UInt8} {d d' anchor : Int} {seqs : List Sequence} {m : Match}

theorem IsMatch.encodable (h : IsMatch src m) : (matchSequence src anchor m).Encodable := by
  have hdist := h.distance_le
  have hmin := h.minMatch_le
  refine ⟨?_, ?_⟩
  · show (m.start - m.ref).toNat < 65536
    omega
  · show 4 ≤ m.len.toNat
    omega

theorem length_literals (h : IsMatch src m) (hanchor : 0 ≤ anchor) (hle : anchor ≤ m.start) :
    ((matchSequence src anchor m).literals.length : Int) = m.start - anchor := by
  have hstart := h.start_lt
  rw [matchSequence, length_drop, length_take]
  omega

theorem IsMatch.expands (h : IsMatch src m) (hanchor : 0 ≤ anchor) (hle : anchor ≤ m.start)
    (hexp : expandSeqs [] seqs = some (src.take anchor.toNat)) :
    expandSeqs [] (seqs ++ [matchSequence src anchor m])
      = some (src.take (m.start + m.len).toNat) := by
  have href := h.ref_nonneg
  have hlt := h.ref_lt_start
  have hmin := h.minMatch_le
  have hend := h.end_le
  have hsum : (m.start + m.len).toNat = m.start.toNat + m.len.toNat := by omega
  rw [hsum]
  refine Lz4.expandSeqs_snoc_match hexp (by omega) (by omega) (by omega) (by omega) ?_
  intro j hj
  have hagree := h.agree j (by omega) (by omega)
  rw [Lib.elem, Lib.elem] at hagree
  have hfrom : m.start.toNat - (m.start - m.ref).toNat + j = (m.ref + j).toNat := by omega
  have hto : m.start.toNat + j = (m.start + j).toNat := by omega
  rw [hfrom, hto]
  exact hagree

theorem Emitted.snoc (h : Emitted src dst d anchor seqs) (hm : IsMatch src m)
    (hle : anchor ≤ m.start) (hadv : Advanced dst d (matchSequence src anchor m).encode dst' d') :
    Emitted src dst' d' (m.start + m.len) (seqs ++ [matchSequence src anchor m]) := by
  have hanchor := h.anchor_nonneg
  have hlen := hadv.length_eq
  have hcursor := hadv.cursor
  have hd := h.cursor
  have hfits := hadv.wrote.fits
  have hmin := hm.minMatch_le
  have hend := hm.end_le
  have hlit := length_literals hm hanchor hle
  have hencode : encodeSeqs (seqs ++ [matchSequence src anchor m])
      = encodeSeqs seqs ++ (matchSequence src anchor m).encode := by
    simp [encodeSeqs]
  refine ⟨?_, ?_, ?_, by omega, by omega, hm.expands hanchor hle h.expands, ?_, ?_, ?_, ?_⟩
  · rw [hencode, length_append]
    omega
  · omega
  · have hd' : d'.toNat = d.toNat + (matchSequence src anchor m).encode.length := by omega
    rw [hencode, hd', hadv.wrote.take_end, h.written]
  · have hcovers := h.covers
    have hml : ((matchSequence src anchor m).matchLen : Int) = m.len := by
      show (m.len.toNat : Int) = m.len
      omega
    rw [map_append, sum_append, map_singleton, sum_singleton]
    omega
  · exact forall_mem_append.mpr ⟨h.encodable, forall_mem_singleton.mpr hm.encodable⟩
  · intro p hp
    rw [Lz4.matchesFrom_append] at hp
    rcases mem_append.mp hp with hp | hp
    · exact h.allowed p hp
    -- the new match sits right behind its literals
    have hcovers := h.covers
    have hstart := hm.start_lt
    have href := hm.ref_nonneg
    have hlt := hm.ref_lt_start
    have hdist := hm.distance_le
    rw [matchesFrom, matchesFrom, mem_singleton] at hp
    rw [hp]
    refine ⟨?_, ?_, ?_, ?_, ?_⟩ <;> simp only [matchSequence] at hlit ⊢ <;> omega
  · intro s hs
    cases seqs with
    | nil =>
      -- the first match refers to something before it, so literals precede it
      have hzero : anchor = 0 := by
        have hcovers := h.covers
        simp only [map_nil, sum_nil] at hcovers
        omega
      have href := hm.ref_nonneg
      have hlt := hm.ref_lt_start
      have hs' : matchSequence src anchor m = s := by simpa using hs
      rw [← hs']
      omega
    | cons t rest => exact h.first_literal s (by simpa using hs)

end

/-- What a compressor promises about the first `n` bytes of its output. -/
structure Compressed (src dst : List UInt8) (n : Int) : Prop where
  fits : n ≤ dst.length
  decodes : decodeBlock (dst.take n.toNat) = some src
  matches_allowed : ∃ b, parseBlock (dst.take n.toNat) = some b ∧
    ∀ m ∈ matchesFrom 0 b.seqs, Allowed src.length m
  first_ne_zero : src ≠ [] → elem dst 0 ≠ 0

theorem Emitted.block_decodes {src : List UInt8} {anchor : Int} {seqs : List Sequence}
    (h : Emitted src dst d anchor seqs) :
    Block.expand ⟨seqs, src.drop anchor.toNat⟩ = some src := by
  rw [Block.expand, h.expands, Option.map_some, take_append_drop]

theorem ofNat_token_ne_zero {lit : Nat} (h : 0 < lit) (low : Nat) :
    UInt8.ofNat (lenNibble lit * 16 + lenNibble low) ≠ 0 := by
  intro hzero
  have htok := congrArg UInt8.toNat hzero
  rw [Lz4.token_toNat] at htok
  have hnib : 0 < lenNibble lit := by
    rw [lenNibble]
    omega
  have h0 : (0 : UInt8).toNat = 0 := rfl
  omega

/-- A block that starts with literals starts with a non-zero token. -/
theorem first_byte_ne_zero {seqs : List Sequence} {tail bs : List UInt8}
    (hfirst : ∀ s ∈ seqs.head?, 0 < s.literals.length) (htail : seqs = [] → tail ≠ []) :
    elem (Block.encode ⟨seqs, tail⟩ ++ bs) 0 ≠ 0 := by
  cases seqs with
  | nil =>
    have hpos : 0 < tail.length := length_pos_of_ne_nil (htail rfl)
    have htok := ofNat_token_ne_zero hpos 0
    exact htok
  | cons s rest =>
    have hpos := hfirst s rfl
    exact ofNat_token_ne_zero hpos (s.matchLen - Lz4.minMatch)

/-- `emitTail` writes the last literals, or reports that they do not fit. -/
theorem emitTail_advanced {src : List UInt8} {anchor : Int} (h0 : 0 ≤ d) (hanchor : 0 ≤ anchor)
    (hle : anchor ≤ src.length) :
    Sat (emitTail src dst d anchor) fun r =>
      r = (dst, 0) ∨ Advanced dst d (encodeTail (src.drop anchor.toNat)) r.1 r.2 := by
  simp only [emitTail]
  split
  · exact sat_ok (.inl rfl)
  rename_i hfits
  have hlit : (src.length : Int) - anchor = (src.length - anchor.toNat : Nat) := by omega
  have htail : (src.drop anchor.toNat).length = src.length - anchor.toNat := length_drop
  have hext := length_lenBytes (src.length - anchor.toNat)
  rw [hlit, litToken_eq]
  refine Sat.bind setAt_advanced ?_
  intro dst1 h1
  have hlen1 := h1.length_eq
  refine Sat.bind (putLenField_sat _) ?_
  rintro ⟨dst2, d2⟩ h2
  simp only at h2 ⊢
  have hlen2 := h2.length_eq
  have hcur2 := h2.cursor
  refine Sat.bind (sliceFrom_sat hanchor hle) ?_
  rintro tail rfl
  refine Sat.bind copyAt_advanced ?_
  rintro ⟨dst3, n⟩ h3
  have hall := (h1.trans (by omega) h2).trans (by omega) h3
  have hbytes : [UInt8.ofNat (lenNibble (src.length - anchor.toNat)) <<< 4]
      ++ lenBytes (src.length - anchor.toNat) ++ src.drop anchor.toNat
      = encodeTail (src.drop anchor.toNat) := by
    have hnib := Lz4.lenNibble_le (src.length - anchor.toNat)
    have hshift := shift_or_nibbles (lenNibble (src.length - anchor.toNat)) (by omega) 0 (by omega)
    have hor : UInt8.ofNat (lenNibble (src.length - anchor.toNat)) <<< 4
        = UInt8.ofNat (lenNibble (src.length - anchor.toNat) * 16) := by
      simpa using hshift
    rw [encodeTail, htail, hor]
    rfl
  rw [hbytes] at hall
  exact sat_pure (.inr hall)

/-- **`emitTail` closes the block**: it does not fit, or the output goes on and decodes to the
    source. -/
theorem emitTail_sat {src : List UInt8} {anchor : Int} {seqs : List Sequence}
    (h : Emitted src dst d anchor seqs) :
    Sat (emitTail src dst d anchor) fun r => (0 < r.2 → d ≤ r.2) ∧
      0 ≤ r.2 ∧ r.1.length = dst.length ∧ (0 < r.2 → Compressed src r.1 r.2) := by
  have hd := h.cursor
  refine (emitTail_advanced (by omega) h.anchor_nonneg h.anchor_le).mono ?_
  rintro ⟨dst', n⟩ (hnone | hall)
  · cases hnone
    exact ⟨by simp, by simp, rfl, by simp⟩
  · simp only at hall ⊢
    have hcur := hall.cursor
    have hout : dst'.take n.toNat = Block.encode ⟨seqs, src.drop anchor.toNat⟩ := by
      have hend : n.toNat = d.toNat + (encodeTail (src.drop anchor.toNat)).length := by
        omega
      rw [hend, hall.wrote.take_end, h.written, Block.encode]
    have hparse := Lz4.parseBlock_encode ⟨seqs, src.drop anchor.toNat⟩ h.encodable
    have hfits := hall.wrote.fits
    have hlen := hall.length_eq
    refine ⟨by omega, by omega, hlen, fun _ => ⟨by omega, ?_,
      ⟨⟨seqs, src.drop anchor.toNat⟩, ?_, h.allowed⟩, ?_⟩⟩
    · rw [hout, decodeBlock, hparse]
      exact h.block_decodes
    · rw [hout]
      exact hparse
    · intro hne
      rw [← take_append_drop n.toNat dst', hout]
      refine first_byte_ne_zero h.first_literal ?_
      intro hnil
      have hcovers := h.covers
      rw [hnil, map_nil, sum_nil] at hcovers
      rw [← hcovers, drop_zero]
      exact hne

end Orchestrator.Erofs.Lz4Enc

/-
  Orchestrator.Lib.Lz4Block

  The LZ4 block format: its sequences, the reference decoder, and the encoding
  of a parsed block.

  A block is a list of sequences, each a run of literals followed by a match,
  closed by a last run of literals with no match.  `parseBlock` reads the
  sequences off the bytes, `Block.expand` performs them on an output that
  starts empty, and `decodeBlock` is one after the other.  The decoder is
  strict: a match with offset 0, or one that reaches before the start of the
  output, is rejected, and so is a block that ends inside a sequence.

  The encoder side is the inverse (`parseBlock_encode`).
-/

import Orchestrator.Lib.Bytes

namespace Orchestrator.Lib.Lz4

open List

/-- A run of literals and the match that follows it. -/
structure Sequence where
  literals : List UInt8
  offset : Nat
  matchLen : Nat
deriving DecidableEq, Repr

/-- A parsed block: its sequences and the literals that close it. -/
structure Block where
  seqs : List Sequence
  tail : List UInt8
deriving DecidableEq, Repr

/-- The shortest match the format can express. -/
def minMatch : Nat := 4

/-! ## Decoding -/

/-- Bytes added to a length whose nibble is 15, up to the first one below 255. -/
def readExt (acc : Nat) : List UInt8 → Option (Nat × List UInt8)
  | [] => none
  | b :: bs => if b = 255 then readExt (acc + 255) bs else some (acc + b.toNat, bs)

/-- A length field: its nibble, continued in `bs` when the nibble is 15. -/
def readLen (nibble : Nat) (bs : List UInt8) : Option (Nat × List UInt8) :=
  if nibble < 15 then some (nibble, bs) else readExt nibble bs

/-- The sequences of a block.  Every sequence takes at least its token byte, so
    the length of the input bounds their number. -/
def parseSeqs : Nat → List UInt8 → Option Block
  | _, [] => none
  | 0, _ => none
  | fuel + 1, token :: rest => do
    let (litLen, rest) ← readLen (token.toNat / 16) rest
    if rest.length < litLen then none
    else
      let literals := rest.take litLen
      match rest.drop litLen with
      | [] => some ⟨[], literals⟩
      | [_] => none
      | lo :: hi :: rest =>
        let (ext, rest) ← readLen (token.toNat % 16) rest
        let block ← parseSeqs fuel rest
        some ⟨⟨literals, lo.toNat + 256 * hi.toNat, ext + minMatch⟩ :: block.seqs, block.tail⟩

/-- The sequences of a compressed block. -/
def parseBlock (bs : List UInt8) : Option Block := parseSeqs bs.length bs

/-- Copy `n` bytes from `offset` back, one at a time: a match may overlap the
    bytes it produces. -/
def copyMatch (out : List UInt8) (offset : Nat) : Nat → List UInt8
  | 0 => out
  | n + 1 => copyMatch (out ++ [out.getD (out.length - offset) 0]) offset n

def expandSeq (out : List UInt8) (s : Sequence) : Option (List UInt8) :=
  let out := out ++ s.literals
  if 1 ≤ s.offset ∧ s.offset ≤ out.length then some (copyMatch out s.offset s.matchLen)
  else none

def expandSeqs (out : List UInt8) (seqs : List Sequence) : Option (List UInt8) :=
  seqs.foldlM expandSeq out

/-- The bytes a block stands for. -/
def Block.expand (b : Block) : Option (List UInt8) :=
  (expandSeqs [] b.seqs).map (· ++ b.tail)

def decodeBlock (bs : List UInt8) : Option (List UInt8) := do
  let b ← parseBlock bs
  b.expand

/-- The matches of a list of sequences that starts at output position `pos`, as
    (position, offset, length). -/
def matchesFrom (pos : Nat) : List Sequence → List (Nat × Nat × Nat)
  | [] => []
  | s :: rest =>
    (pos + s.literals.length, s.offset, s.matchLen) ::
      matchesFrom (pos + s.literals.length + s.matchLen) rest

/-! ## Encoding -/

/-- The continuation bytes of a length that is `v` beyond what its nibble holds. -/
def lenExt (v : Nat) : List UInt8 := replicate (v / 255) 255 ++ [UInt8.ofNat (v % 255)]

def lenNibble (v : Nat) : Nat := min v 15

def lenBytes (v : Nat) : List UInt8 := if 15 ≤ v then lenExt (v - 15) else []

def Sequence.encode (s : Sequence) : List UInt8 :=
  UInt8.ofNat (lenNibble s.literals.length * 16 + lenNibble (s.matchLen - minMatch)) ::
    (lenBytes s.literals.length ++ s.literals ++
      [UInt8.ofNat s.offset, UInt8.ofNat (s.offset / 256)] ++ lenBytes (s.matchLen - minMatch))

def encodeTail (tail : List UInt8) : List UInt8 :=
  UInt8.ofNat (lenNibble tail.length * 16) :: (lenBytes tail.length ++ tail)

def encodeSeqs (seqs : List Sequence) : List UInt8 := seqs.flatMap Sequence.encode

def Block.encode (b : Block) : List UInt8 := encodeSeqs b.seqs ++ encodeTail b.tail

/-- What the fixed-width fields of a sequence can hold. -/
structure Sequence.Encodable (s : Sequence) : Prop where
  offset_lt : s.offset < 65536
  minMatch_le : minMatch ≤ s.matchLen

/-! ## Reading back lengths -/

theorem readExt_replicate (k acc : Nat) (bs : List UInt8) :
    readExt acc (replicate k 255 ++ bs) = readExt (acc + 255 * k) bs := by
  induction k generalizing acc with
  | zero => simp
  | succ k ih =>
    rw [replicate_succ, cons_append, readExt, if_pos rfl, ih]
    congr 1
    omega

theorem readExt_lenExt (acc v : Nat) (bs : List UInt8) :
    readExt acc (lenExt v ++ bs) = some (acc + v, bs) := by
  have hlt : v % 255 < 255 := Nat.mod_lt _ (by omega)
  have htoNat : (UInt8.ofNat (v % 255)).toNat = v % 255 :=
    UInt8.toNat_ofNat_of_lt' (show _ < 256 by omega)
  have hne : UInt8.ofNat (v % 255) ≠ 255 := by
    intro h
    have := congrArg UInt8.toNat h
    rw [htoNat] at this
    simp at this
    omega
  rw [lenExt, append_assoc, readExt_replicate, singleton_append, readExt, if_neg hne,
    htoNat]
  congr 2
  omega

theorem readLen_lenBytes (v : Nat) (bs : List UInt8) :
    readLen (lenNibble v) (lenBytes v ++ bs) = some (v, bs) := by
  by_cases hv : 15 ≤ v
  · have hnib : lenNibble v = 15 := by rw [lenNibble]; omega
    rw [hnib, readLen, if_neg (by omega), lenBytes, if_pos hv, readExt_lenExt]
    congr 2
    omega
  · have hnib : lenNibble v = v := by rw [lenNibble]; omega
    rw [hnib, readLen, if_pos (by omega), lenBytes, if_neg hv, nil_append]

theorem lenNibble_le (v : Nat) : lenNibble v ≤ 15 := by
  rw [lenNibble]
  omega

theorem token_toNat (v w : Nat) :
    (UInt8.ofNat (lenNibble v * 16 + lenNibble w)).toNat = lenNibble v * 16 + lenNibble w := by
  have hv := lenNibble_le v
  have hw := lenNibble_le w
  exact UInt8.toNat_ofNat_of_lt' (show _ < 256 by omega)

/-! ## Parsing inverts encoding -/

theorem parseSeqs_tail (fuel : Nat) (tail : List UInt8) :
    parseSeqs (fuel + 1) (encodeTail tail) = some ⟨[], tail⟩ := by
  have htok : (UInt8.ofNat (lenNibble tail.length * 16)).toNat / 16 = lenNibble tail.length := by
    have h := token_toNat tail.length 0
    have h0 : lenNibble 0 = 0 := rfl
    rw [h0, Nat.add_zero] at h
    rw [h]
    omega
  have hlen := readLen_lenBytes tail.length tail
  simp only [encodeTail, parseSeqs, htok, hlen, Option.bind_eq_bind, Option.bind_some,
    Nat.lt_irrefl, if_false, drop_length, take_length]

theorem parseSeqs_cons {s : Sequence} (hs : s.Encodable) {fuel : Nat} {bs : List UInt8}
    {b : Block} (h : parseSeqs fuel bs = some b) :
    parseSeqs (fuel + 1) (s.encode ++ bs) = some ⟨s :: b.seqs, b.tail⟩ := by
  obtain ⟨literals, offset, matchLen⟩ := s
  obtain ⟨hoff, hmin⟩ := hs
  simp only at hoff hmin
  have hnib := lenNibble_le (matchLen - minMatch)
  have hhi : (UInt8.ofNat (lenNibble literals.length * 16 +
      lenNibble (matchLen - minMatch))).toNat / 16 = lenNibble literals.length := by
    rw [token_toNat]
    omega
  have hlo : (UInt8.ofNat (lenNibble literals.length * 16 +
      lenNibble (matchLen - minMatch))).toNat % 16 = lenNibble (matchLen - minMatch) := by
    rw [token_toNat]
    omega
  have hoffset : (UInt8.ofNat offset).toNat + 256 * (UInt8.ofNat (offset / 256)).toNat
      = offset := by
    rw [UInt8.toNat_ofNat', UInt8.toNat_ofNat']
    omega
  have hmatch : matchLen - minMatch + minMatch = matchLen := by omega
  -- the three fields after the token, in the order the parser takes them
  have hlit : readLen (lenNibble literals.length) (lenBytes literals.length ++ literals ++
      [UInt8.ofNat offset, UInt8.ofNat (offset / 256)] ++ lenBytes (matchLen - minMatch) ++ bs)
      = some (literals.length, literals ++ (UInt8.ofNat offset :: UInt8.ofNat (offset / 256) ::
        (lenBytes (matchLen - minMatch) ++ bs))) := by
    have := readLen_lenBytes literals.length (literals ++ (UInt8.ofNat offset ::
      UInt8.ofNat (offset / 256) :: (lenBytes (matchLen - minMatch) ++ bs)))
    simpa [append_assoc] using this
  have hext := readLen_lenBytes (matchLen - minMatch) bs
  have hnotshort : ¬ (literals ++ (UInt8.ofNat offset :: UInt8.ofNat (offset / 256) ::
      (lenBytes (matchLen - minMatch) ++ bs))).length < literals.length := by
    rw [length_append]
    omega
  simp only [Sequence.encode, cons_append, parseSeqs, hhi, hlo, hlit, hext, h,
    Option.bind_eq_bind, Option.bind_some, if_neg hnotshort, take_left, drop_left,
    hoffset, hmatch]

theorem encodeTail_length_pos (tail : List UInt8) : 0 < (encodeTail tail).length := by
  simp [encodeTail]

theorem parseSeqs_encode (seqs : List Sequence) (tail : List UInt8)
    (h : ∀ s ∈ seqs, s.Encodable) (fuel : Nat) (hfuel : seqs.length < fuel) :
    parseSeqs fuel (encodeSeqs seqs ++ encodeTail tail) = some ⟨seqs, tail⟩ := by
  induction seqs generalizing fuel with
  | nil =>
    obtain ⟨k, rfl⟩ : ∃ k, fuel = k + 1 := ⟨fuel - 1, by simp at hfuel; omega⟩
    simpa [encodeSeqs] using parseSeqs_tail k tail
  | cons s rest ih =>
    obtain ⟨k, rfl⟩ : ∃ k, fuel = k + 1 := ⟨fuel - 1, by omega⟩
    have hrest := ih (fun t ht => h t (mem_cons_of_mem _ ht)) k
      (by rw [length_cons] at hfuel; omega)
    have hcons := parseSeqs_cons (h s mem_cons_self) hrest
    rw [encodeSeqs, flatMap_cons, append_assoc]
    exact hcons

theorem length_le_encodeSeqs (seqs : List Sequence) : seqs.length ≤ (encodeSeqs seqs).length := by
  induction seqs with
  | nil => simp
  | cons s rest ih =>
    rw [encodeSeqs, flatMap_cons, length_append, length_cons]
    have : 1 ≤ s.encode.length := by simp [Sequence.encode]
    rw [encodeSeqs] at ih
    omega

/-- Parsing inverts encoding. -/
theorem parseBlock_encode (b : Block) (h : ∀ s ∈ b.seqs, s.Encodable) :
    parseBlock b.encode = some b := by
  have hlen := length_le_encodeSeqs b.seqs
  have htail := encodeTail_length_pos b.tail
  exact parseSeqs_encode b.seqs b.tail h _ (by rw [Block.encode, length_append]; omega)

/-! ## Expanding sequences that come from an input -/

theorem copyMatch_take {src : List UInt8} {pos offset n : Nat}
    (hoff : 1 ≤ offset) (hpos : offset ≤ pos) (hn : pos + n ≤ src.length)
    (hmatch : ∀ j, j < n → src.getD (pos - offset + j) 0 = src.getD (pos + j) 0) :
    copyMatch (src.take pos) offset n = src.take (pos + n) := by
  induction n generalizing pos with
  | zero => simp [copyMatch]
  | succ n ih =>
    have hlen : (src.take pos).length = pos := by rw [length_take]; omega
    have hget : (src.take pos).getD (pos - offset) 0 = src.getD pos 0 := by
      have h0 := hmatch 0 (by omega)
      rw [Nat.add_zero, Nat.add_zero] at h0
      rw [← h0, getD_eq_getElem?_getD, getD_eq_getElem?_getD,
        getElem?_take_of_lt (by omega)]
    have hsnoc : src.take pos ++ [src.getD pos 0] = src.take (pos + 1) := by
      rw [take_add_one, getD_eq_getElem _ _ (by omega),
        getElem?_eq_getElem (by omega)]
      rfl
    rw [copyMatch, hlen, hget, hsnoc, ih (by omega) (by omega)]
    · congr 1
      omega
    · intro j hj
      have h := hmatch (j + 1) (by omega)
      rw [show pos + 1 - offset + j = pos - offset + (j + 1) by omega,
        show pos + 1 + j = pos + (j + 1) by omega]
      exact h

/-- Appending a sequence whose literals and match both come from `src` moves the
    expanded prefix of `src` past them. -/
theorem expandSeqs_snoc_match {src : List UInt8} {seqs : List Sequence}
    {anchor start offset n : Nat}
    (h : expandSeqs [] seqs = some (src.take anchor)) (hanchor : anchor ≤ start)
    (hoff : 1 ≤ offset) (hpos : offset ≤ start) (hn : start + n ≤ src.length)
    (hmatch : ∀ j, j < n → src.getD (start - offset + j) 0 = src.getD (start + j) 0) :
    expandSeqs [] (seqs ++ [⟨(src.take start).drop anchor, offset, n⟩])
      = some (src.take (start + n)) := by
  have hlits : src.take anchor ++ (src.take start).drop anchor = src.take start := by
    have h1 : src.take anchor = (src.take start).take anchor := by
      rw [take_take, Nat.min_eq_left hanchor]
    rw [h1, take_append_drop]
  have hlen : (src.take start).length = start := by rw [length_take]; omega
  rw [expandSeqs, foldlM_append]
  rw [expandSeqs] at h
  rw [h]
  simp only [Option.bind_eq_bind, Option.bind_some, foldlM_cons, foldlM_nil, expandSeq,
    hlits, hlen, hoff, hpos, and_self, if_true, Option.pure_def]
  rw [copyMatch_take hoff hpos hn hmatch]

theorem matchesFrom_append (pos : Nat) (xs ys : List Sequence) :
    matchesFrom pos (xs ++ ys) = matchesFrom pos xs ++
      matchesFrom (pos + (xs.map fun s => s.literals.length + s.matchLen).sum) ys := by
  induction xs generalizing pos with
  | nil => simp [matchesFrom]
  | cons s rest ih =>
    rw [cons_append, matchesFrom, matchesFrom, ih, cons_append, map_cons,
      sum_cons]
    congr 3
    omega

/-! ## The first byte -/

/-- A block that starts with a zero byte has no literals for its first match to refer to,
    so it stands for nothing. -/
theorem decodeBlock_zero_cons {rest out : List UInt8} (h : decodeBlock (0 :: rest) = some out) :
    out = [] := by
  have hlen : readLen (UInt8.toNat 0 / 16) rest = some (0, rest) := rfl
  obtain ⟨block, hparse, hexpand⟩ := Option.bind_eq_some_iff.mp h
  rw [parseBlock, length_cons, parseSeqs, hlen] at hparse
  simp only [Option.bind_eq_bind, Option.bind_some, Nat.not_lt_zero, if_false, take_zero,
    drop_zero] at hparse
  cases rest with
  | nil =>
    cases hparse
    simpa [Block.expand, expandSeqs] using hexpand.symm
  | cons lo rest =>
    cases rest with
    | nil => simp at hparse
    | cons hi rest =>
      simp only at hparse
      obtain ⟨ext, -, hparse⟩ := Option.bind_eq_some_iff.mp hparse
      obtain ⟨tail, -, hparse⟩ := Option.bind_eq_some_iff.mp hparse
      cases hparse
      -- the first match would have to start before the output
      have hbad : ¬ (1 ≤ lo.toNat + 256 * hi.toNat ∧
          lo.toNat + 256 * hi.toNat ≤ ([] ++ [] : List UInt8).length) := by
        simp
        omega
      simp only [Block.expand, expandSeqs, foldlM_cons, expandSeq, if_neg hbad] at hexpand
      simp at hexpand

/-- A block that stands for something does not start with a zero byte. -/
theorem head_ne_zero_of_decodeBlock {bs out : List UInt8} (h : decodeBlock bs = some out)
    (hne : out ≠ []) : bs.head? ≠ some 0 := by
  intro hzero
  cases bs with
  | nil => simp at hzero
  | cons b rest =>
    have hb : b = 0 := by simpa using hzero
    rw [hb] at h
    exact hne (decodeBlock_zero_cons h)

end Orchestrator.Lib.Lz4

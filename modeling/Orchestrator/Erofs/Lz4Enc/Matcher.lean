/-
  Orchestrator.Erofs.Lz4Enc.Matcher

  The match finder of the high-compression LZ4 encoder: the encoder's state,
  the hash chains, and the two searches `widerMatch` and `forwardMatch`.

  A search answers with a match or with length 0.  Nothing about the chains is
  trusted: their links may be stale, out of order, or left by an earlier block.
  Every candidate is compared with the source before it is used, so what a
  search returns is an `IsMatch` whatever the chains hold, as long as no hash head
  points past the source (`Indexed`).
-/

import Orchestrator.Lib.Bytes

namespace Orchestrator.Erofs.Lz4Enc

open Lib Lib.Exec

/-! ## Constants and state -/

def lz4MinMatch : Int := 4
def lz4LastLiterals : Int := 5
def lz4MFLimit : Int := 12
def lz4MaxDistance : Int := 65535
def lz4HashLog : Nat := 16
def lz4HashShift : Nat := 32 - lz4HashLog
def lz4Attempts : Int := 64
def lz4GoodEnough : Int := 768
def lz4OptWindow : Int := 4096
def lz4SufficientLen : Int := 4095

/-- The value a conversion or an operation in `int32` keeps. -/
def int32 (x : Int) : Int := x.bmod (2 ^ 32)

/-- `byte(x)`. -/
def byteOf (x : Int) : UInt8 := UInt8.ofNat (x % 256).toNat

/-- `[]uint16`: the backing array, and how much of it the slice shows. -/
structure Chain where
  data : Nat → Nat
  len : Nat
  cap : Nat
  len_le_cap : len ≤ cap

/-- Chain storage for a source of `n` bytes: a fresh array when the old one is
    too short, otherwise the old one with whatever it holds. -/
def Chain.resize (c : Chain) (n : Nat) : Chain :=
  if h : c.cap < n then ⟨fun _ => 0, n, n, Nat.le_refl n⟩
  else ⟨c.data, n, c.cap, Nat.le_of_not_lt h⟩

/-- One position of the optimal parse: its price, and the step that reaches it. -/
structure OptEntry where
  price : Int := 0
  off : Int := 0
  mlen : Int := 0
  litlen : Int := 0
deriving DecidableEq, Repr, Inhabited

structure LZ4HCEncoder where
  /-- 4-byte-prefix hash to the most recent position + 1. -/
  head : Nat → Int
  /-- Position to the backward delta to the previous one; 0 ends a chain. -/
  chain : Chain
  /-- Optimal-parse scratch, allocated on first use. -/
  opt : Option (Nat → OptEntry)
  /-- Backtracked (start, mlen, off) tuples. -/
  seqs : List (Int × Int × Int)

def headSize : Nat := 2 ^ lz4HashLog

/-- The tables as a block starts with them: chain storage of the source's size,
    and no heads. -/
def LZ4HCEncoder.reset (e : LZ4HCEncoder) (n : Nat) : LZ4HCEncoder :=
  { e with chain := e.chain.resize n, head := fun _ => 0 }

/-! ## Reading the source -/

def lz4Hash (u : Nat) : Nat := (u * 2654435761 % 2 ^ 32) / 2 ^ lz4HashShift

/-- `binary.LittleEndian.Uint32(b[i:])`. -/
def load32 (b : List UInt8) (i : Int) : Exec Nat := do
  let w ← sliceFrom b i
  if w.length < 4 then .error .bounds else return leNat (w.take 4)

/-- `binary.LittleEndian.Uint64(b)`. -/
def load64 (b : List UInt8) : Exec Nat :=
  if b.length < 8 then .error .bounds else .ok (leNat (b.take 8))

def trailingZeroBytes (x : Nat) : Int := trailingZeros64 x / 8

/-- The word loop of `matchLenAt`.  The flag says that a word differed. -/
def matchWords (src : List UInt8) (a b maxLen n : Int) : Exec (Step Int (Int × Bool)) :=
  if n + 8 ≤ maxLen then do
    let x ← load64 (← sliceFrom src (a + n))
    let y ← load64 (← sliceFrom src (b + n))
    if x ^^^ y ≠ 0 then return .done (n + trailingZeroBytes (x ^^^ y), true)
    else return .next (n + 8)
  else .ok (.done (n, false))

/-- `src[a] == src[b]`. -/
def sameByte (src : List UInt8) (a b : Int) : Exec Bool := do
  let x ← getAt src a
  let y ← getAt src b
  return decide (x = y)

/-- `c && src[a] == src[b]`. -/
def guardByte (c : Prop) [Decidable c] (src : List UInt8) (a b : Int) : Exec Bool :=
  if c then sameByte src a b else .ok false

/-- The byte loop of `matchLenAt`. -/
def matchBytes (src : List UInt8) (a b maxLen n : Int) : Exec (Step Int Int) :=
  if n < maxLen then do
    if ← sameByte src (a + n) (b + n) then return .next (n + 1) else return .done n
  else .ok (.done n)

def matchLenAt (src : List UInt8) (a b maxLen : Int) : Exec Int := do
  let (n, differs) ← loop (matchWords src a b maxLen) (maxLen.toNat + 1) 0
  if differs then return n else loop (matchBytes src a b maxLen) (maxLen.toNat + 1) n

/-! ## The hash chains -/

/-- `e.head[h]`. -/
def LZ4HCEncoder.headAt (e : LZ4HCEncoder) (h : Nat) : Exec Int := tableGet headSize e.head h

/-- `e.chain[i]`. -/
def LZ4HCEncoder.chainAt (e : LZ4HCEncoder) (i : Int) : Exec Int := do
  return (← tableGet e.chain.len e.chain.data i : Nat)

def LZ4HCEncoder.setHead (e : LZ4HCEncoder) (h : Nat) (v : Int) : Exec LZ4HCEncoder := do
  return { e with head := ← tableSet headSize e.head h v }

def LZ4HCEncoder.setChain (e : LZ4HCEncoder) (i : Int) (v : Nat) : Exec LZ4HCEncoder := do
  return { e with chain := { e.chain with data := ← tableSet e.chain.len e.chain.data i v } }

def LZ4HCEncoder.insert (e : LZ4HCEncoder) (src : List UInt8) (i : Int) : Exec LZ4HCEncoder := do
  let h := lz4Hash (← load32 src i)
  let prev := (← e.headAt h) - 1
  if prev = i then return e
  else
    let delta := if 0 ≤ prev ∧ i - prev ≤ lz4MaxDistance then ((i - prev) % 65536).toNat else 0
    let e ← e.setChain i delta
    e.setHead h (int32 (int32 i + 1))

/-- `for j := from; j < bound; j++ { e.insert(src, j) }`. -/
def LZ4HCEncoder.insertRange (e : LZ4HCEncoder) (src : List UInt8) (lo bound : Int) :
    Exec LZ4HCEncoder :=
  forRange (fun j e => e.insert src j) lo bound e

/-- Follow the chain from `cand` to the first position before `i`; `none` when
    the chain ends first. -/
def LZ4HCEncoder.skipFuture (e : LZ4HCEncoder) (i cand : Int) : Exec (Option Int) :=
  loop (fun cand =>
      if i ≤ cand then do
        let d ← e.chainAt cand
        if d = 0 then return .done none else return .next (cand - d)
      else .ok (.done (some cand)))
    ((cand - i + 1).toNat + 1) cand

/-! ## widerMatch -/

/-- The best match of a search so far; `len` is 0 while there is none. -/
structure Match where
  start : Int
  ref : Int
  len : Int
deriving DecidableEq, Repr

def Match.none : Match := ⟨0, 0, 0⟩

/-- The cheap reject: can `cand` beat a best match of length `bestLen`? -/
def viable (src : List UInt8) (i srcEnd cand bestLen : Int) : Exec Bool :=
  if bestLen = 0 then .ok true
  else do
    let left ← guardByte (cand ≠ 0) src (cand - 1) (i - 1)
    if left then return true
    else guardByte (i + bestLen < srcEnd) src (cand + bestLen) (i + bestLen)

/-- How far the match extends backwards from `i` and `cand`. -/
def extendBack (src : List UInt8) (i cand candidateBack : Int) : Exec Int :=
  loop (fun back =>
      if back < candidateBack then do
        if ← sameByte src (i - back - 1) (cand - back - 1) then return .next (back + 1)
        else return .done back
      else .ok (.done back))
    (candidateBack.toNat + 1) 0

/-- `needBack <= 0 || src[i-needBack] == src[cand-needBack]`. -/
def mandatoryByte (src : List UInt8) (i cand needBack : Int) : Exec Bool :=
  if needBack ≤ 0 then .ok true else sameByte src (i - needBack) (cand - needBack)

/-- One candidate of `widerMatch`: the best match with it taken into account,
    and whether that match is good enough to end the search. -/
def widen (src : List UInt8) (i srcEnd maxBack : Int) (first : Nat) (cand : Int) (best : Match) :
    Exec (Match × Bool) := do
  let v ← viable src i srcEnd cand best.len
  if ¬ v then return (best, false)
  else
    let w ← load32 src cand
    if w ≠ first then return (best, false)
    else
      let fwd ← matchLenAt src cand i (srcEnd - i)
      if ¬ (lz4MinMatch ≤ fwd ∧ best.len < fwd + maxBack) then return (best, false)
      else
        let candidateBack := min maxBack cand
        let needBack := best.len - fwd + 1
        if ¬ needBack ≤ candidateBack then return (best, false)
        else
          let ok ← mandatoryByte src i cand needBack
          if ¬ ok then return (best, false)
          else
            let back ← extendBack src i cand candidateBack
            if best.len < fwd + back then
              return (⟨i - back, cand - back, fwd + back⟩, decide (lz4GoodEnough ≤ fwd + back))
            else return (best, false)

/-- The candidate loop shared by the searches: `consider` takes a candidate into
    account and says whether to stop there; the chain leads to the next one. -/
def LZ4HCEncoder.search {β : Type} (e : LZ4HCEncoder) (limit : Int)
    (consider : Int → β → Exec (β × Bool)) (cand : Int) (best : β) : Exec β :=
  loop (fun (s : Int × Int × β) =>
      if 0 < s.1 ∧ 0 ≤ s.2.1 ∧ limit ≤ s.2.1 then do
        let (best, stop) ← consider s.2.1 s.2.2
        if stop then return .done best
        else
          let d ← e.chainAt s.2.1
          if d = 0 then return .done best else return .next (s.1 - 1, s.2.1 - d, best)
      else .ok (.done s.2.2))
    (lz4Attempts.toNat + 1) (lz4Attempts, cand, best)

def LZ4HCEncoder.widerMatch (e : LZ4HCEncoder) (src : List UInt8) (i minStart : Int) :
    Exec Match := do
  let head ← e.headAt (lz4Hash (← load32 src i))
  match ← e.skipFuture i (head - 1) with
  | none => return Match.none
  | some cand =>
    let srcEnd := src.length - lz4LastLiterals
    let maxBack := min (i - minStart) 64
    let first ← load32 src i
    let best ← e.search (i - lz4MaxDistance) (widen src i srcEnd maxBack first) cand Match.none
    if best.len < lz4MinMatch then return Match.none else return best

/-! ## forwardMatch -/

/-- `bestLen == 0 || src[cand+bestLen] == src[i+bestLen]`. -/
def longer (src : List UInt8) (i cand bestLen : Int) : Exec Bool :=
  if bestLen = 0 then .ok true else sameByte src (cand + bestLen) (i + bestLen)

/-- One candidate of `forwardMatch`; the flag says that the match cannot get
    longer. -/
def lengthen (src : List UInt8) (i maxLen : Int) (first : Nat) (cand : Int) (best : Match) :
    Exec (Match × Bool) := do
  let w ← load32 src cand
  if w ≠ first then return (best, false)
  else
    let promising ← longer src i cand best.len
    if ¬ promising then return (best, false)
    else
      let l ← matchLenAt src cand i maxLen
      if best.len < l then return (⟨i, cand, l⟩, decide (maxLen ≤ l))
      else return (best, false)

/-- `forwardMatch`, as a match that starts at `i`. -/
def LZ4HCEncoder.forwardMatch (e : LZ4HCEncoder) (src : List UInt8) (i : Int) : Exec Match := do
  let first ← load32 src i
  let head ← e.headAt (lz4Hash first)
  match ← e.skipFuture i (head - 1) with
  | none => return Match.none
  | some cand =>
    let srcEnd := src.length - lz4LastLiterals
    let best ← e.search (i - lz4MaxDistance) (lengthen src i (srcEnd - i) first) cand Match.none
    if best.len < lz4MinMatch then return Match.none else return best

/-! ## What a match is -/

/-- The source repeats itself: `n` bytes at `a` and at `b` are the same. -/
def Agree (src : List UInt8) (a b n : Int) : Prop :=
  ∀ j, 0 ≤ j → j < n → elem src (a + j) = elem src (b + j)

/-- A match the format allows at its place in `src`. -/
structure IsMatch (src : List UInt8) (m : Match) : Prop where
  ref_nonneg : 0 ≤ m.ref
  ref_lt_start : m.ref < m.start
  distance_le : m.start - m.ref ≤ 65535
  minMatch_le : 4 ≤ m.len
  start_lt : m.start < src.length - 12
  end_le : m.start + m.len ≤ src.length - 5
  agree : Agree src m.ref m.start m.len

theorem IsMatch.truncate {src : List UInt8} {m : Match} (h : IsMatch src m) (keep : Int)
    (hmin : 4 ≤ keep) (hle : keep ≤ m.len) : IsMatch src ⟨m.start, m.ref, keep⟩ := by
  have hend := h.end_le
  refine ⟨h.ref_nonneg, h.ref_lt_start, h.distance_le, hmin, h.start_lt, ?_, ?_⟩
  · show m.start + keep ≤ src.length - 5
    omega
  · intro j h0 hj
    have hj' : j < keep := hj
    exact h.agree j h0 (by omega)

theorem Agree.zero (src : List UInt8) (a b : Int) : Agree src a b 0 := by
  intro j h0 hj
  omega

theorem Agree.snoc {src : List UInt8} {a b n : Int} (h : Agree src a b n)
    (heq : elem src (a + n) = elem src (b + n)) : Agree src a b (n + 1) := by
  intro j h0 hj
  by_cases hjn : j < n
  · exact h j h0 hjn
  · have hj' : j = n := by omega
    rw [hj']
    exact heq

theorem Agree.append {src : List UInt8} {a b n m : Int} (h : Agree src a b n)
    (h' : Agree src (a + n) (b + n) m) : Agree src a b (n + m) := by
  intro j h0 hj
  by_cases hjn : j < n
  · exact h j h0 hjn
  have hsuffix := h' (j - n) (by omega) (by omega)
  have ha : a + n + (j - n) = a + j := by omega
  have hb : b + n + (j - n) = b + j := by omega
  rw [ha, hb] at hsuffix
  exact hsuffix

/-! ## Specifications of the readers -/

section

variable {src : List UInt8}

variable {i : Int}

theorem load32_sat (h0 : 0 ≤ i := by omega) (h1 : i + 4 ≤ src.length := by omega) :
    Sat (load32 src i) fun u => u < 2 ^ 32 := by
  refine Sat.bind (sliceFrom_sat h0) ?_
  rintro w rfl
  have hlen : ¬ (src.drop i.toNat).length < 4 := by
    rw [List.length_drop]
    omega
  rw [if_neg hlen]
  refine sat_pure ?_
  have hlt := leNat_lt ((src.drop i.toNat).take 4)
  have htake : ((src.drop i.toNat).take 4).length = 4 := by
    rw [List.length_take]
    omega
  rw [htake] at hlt
  omega

theorem lz4Hash_lt {u : Nat} : lz4Hash u < headSize := by
  rw [lz4Hash, headSize, lz4HashShift, lz4HashLog]
  omega

theorem load64_sat (h0 : 0 ≤ i := by omega) (h1 : i + 8 ≤ src.length := by omega) :
    Sat (load64 (src.drop i.toNat)) fun x => x = leNat ((src.drop i.toNat).take 8) := by
  have hlen : ¬ (src.drop i.toNat).length < 8 := by
    rw [List.length_drop]
    omega
  rw [load64, if_neg hlen]
  exact sat_ok rfl

theorem getD_word {k : Nat} (h0 : 0 ≤ i) (hk : k < 8) :
    ((src.drop i.toNat).take 8).getD k 0 = elem src (i + k) := by
  have hidx : i.toNat + k = (i + k).toNat := by omega
  rw [elem, List.getD_eq_getElem?_getD, List.getElem?_take_of_lt hk, List.getElem?_drop, hidx,
    List.getD_eq_getElem?_getD]
  rfl

variable {a b : Int}

/-- The words at two places agree on the bytes below their first difference;
    with no difference, on all eight. -/
theorem agree_of_words (src : List UInt8) (ha : 0 ≤ a) (hb : 0 ≤ b) :
    Agree src a b (trailingZeroBytes
      (leNat ((src.drop a.toNat).take 8) ^^^ leNat ((src.drop b.toNat).take 8))) := by
  intro j h0 hj
  have hle := trailingZeros64_le
    (leNat ((src.drop a.toNat).take 8) ^^^ leNat ((src.drop b.toNat).take 8))
  rw [trailingZeroBytes] at hj
  obtain ⟨k, rfl⟩ : ∃ k : Nat, j = k := ⟨j.toNat, by omega⟩
  have hword : ((src.drop a.toNat).take 8).getD k 0 = ((src.drop b.toNat).take 8).getD k 0 :=
    getD_eq_of_lt_trailingZeros64 (by omega)
  rw [getD_word ha (by omega), getD_word hb (by omega)] at hword
  exact hword

theorem trailingZeroBytes_le (x : Nat) : trailingZeroBytes x ≤ 8 := by
  have h := trailingZeros64_le x
  rw [trailingZeroBytes]
  omega

theorem trailingZeroBytes_nonneg (x : Nat) : 0 ≤ trailingZeroBytes x := by
  rw [trailingZeroBytes]
  omega

theorem trailingZeroBytes_zero : trailingZeroBytes 0 = 8 := by decide

theorem sameByte_sat (ha : 0 ≤ a := by omega) (haLen : a < src.length := by omega)
    (hb : 0 ≤ b := by omega) (hbLen : b < src.length := by omega) :
    Sat (sameByte src a b) fun r => r = true → elem src a = elem src b := by
  refine Sat.bind (getAt_sat ha haLen) ?_
  rintro x rfl
  refine Sat.bind (getAt_sat hb hbLen) ?_
  rintro y rfl
  exact sat_pure (by simp)

/-- `matchLenAt` may stop early, but the bytes it counts are equal. -/
theorem matchLenAt_sat {maxLen : Int} (ha : 0 ≤ a := by omega) (hb : 0 ≤ b := by omega)
    (hmax : 0 ≤ maxLen := by omega) (haLen : a + maxLen ≤ src.length := by omega)
    (hbLen : b + maxLen ≤ src.length := by omega) :
    Sat (matchLenAt src a b maxLen) fun n => 0 ≤ n ∧ n ≤ maxLen ∧ Agree src a b n := by
  -- both loops keep the same invariant on the count
  let Inv : Int → Prop := fun n => 0 ≤ n ∧ n ≤ maxLen ∧ Agree src a b n
  have hzero : Inv 0 := ⟨by omega, hmax, Agree.zero src a b⟩
  have hwords : Sat (loop (matchWords src a b maxLen) (maxLen.toNat + 1) 0)
      fun r => Inv r.1 := by
    refine loop_sat Inv (fun n => (maxLen - n).toNat) ?_ hzero (by omega)
    rintro n ⟨h0, hn, hagree⟩
    rw [matchWords]
    by_cases hfit : n + 8 ≤ maxLen
    · rw [if_pos hfit]
      refine Sat.bind sliceFrom_sat ?_
      rintro wa rfl
      refine Sat.bind load64_sat ?_
      rintro x rfl
      refine Sat.bind sliceFrom_sat ?_
      rintro wb rfl
      refine Sat.bind load64_sat ?_
      rintro y rfl
      have hext := hagree.append (agree_of_words src (a := a + n) (b := b + n)
        (by omega) (by omega))
      split
      · have hle := trailingZeroBytes_le (leNat ((src.drop (a + n).toNat).take 8) ^^^
          leNat ((src.drop (b + n).toNat).take 8))
        have hge := trailingZeroBytes_nonneg (leNat ((src.drop (a + n).toNat).take 8) ^^^
          leNat ((src.drop (b + n).toNat).take 8))
        refine sat_pure ⟨?_, ?_, hext⟩ <;> simp only <;> omega
      · rename_i hsame
        have hx : leNat ((src.drop (a + n).toNat).take 8) ^^^
            leNat ((src.drop (b + n).toNat).take 8) = 0 := by
          simpa using hsame
        rw [hx, trailingZeroBytes_zero] at hext
        exact sat_pure ⟨⟨by omega, hfit, hext⟩, by omega⟩
    · rw [if_neg hfit]
      exact sat_ok ⟨h0, hn, hagree⟩
  refine Sat.bind hwords ?_
  rintro ⟨n, differs⟩ hn
  cases differs with
  | true => exact sat_pure hn
  | false =>
    refine loop_sat Inv (fun n => (maxLen - n).toNat) ?_ hn ?_
    · rintro n ⟨h0, hn, hagree⟩
      rw [matchBytes]
      by_cases hlt : n < maxLen
      · rw [if_pos hlt]
        refine Sat.bind sameByte_sat ?_
        intro same heq
        cases same with
        | true => exact sat_pure ⟨⟨by omega, by omega, hagree.snoc (heq rfl)⟩, by omega⟩
        | false => exact sat_pure ⟨h0, hn, hagree⟩
      · rw [if_neg hlt]
        exact sat_ok ⟨h0, hn, hagree⟩
    · have h0 : 0 ≤ n := hn.1
      omega

end

/-! ## Specifications of the hash chains -/

/-- What the searches need of the tables for a source of `n` bytes: heads point
    into the source, and every position has a chain entry. -/
structure Indexed (e : LZ4HCEncoder) (n : Nat) : Prop where
  head_le : ∀ h, e.head h ≤ n
  chain_len : e.chain.len = n

theorem int32_le_self {x : Int} (h : -2 ^ 31 ≤ x) : int32 x ≤ x := by
  rw [int32, Int.bmod_def]
  split <;> omega

theorem neg_two_pow_le_int32 (x : Int) : -2 ^ 31 ≤ int32 x := by
  rw [int32, Int.bmod_def]
  split <;> omega

/-- A position past 2^31 wraps when it is stored, but never to a later one. -/
theorem int32_succ_le {i : Int} (h : 0 ≤ i) : int32 (int32 i + 1) ≤ i + 1 := by
  have hlow := neg_two_pow_le_int32 i
  have hi : int32 i ≤ i := int32_le_self (by omega)
  have hsucc : int32 (int32 i + 1) ≤ int32 i + 1 := int32_le_self (by omega)
  omega

section

variable {e : LZ4HCEncoder} {src : List UInt8}

theorem Indexed.reset (e : LZ4HCEncoder) (n : Nat) : Indexed (e.reset n) n := by
  refine ⟨fun h => ?_, ?_⟩
  · show (0 : Int) ≤ n
    omega
  · rw [LZ4HCEncoder.reset, Chain.resize]
    split <;> rfl

theorem headAt_sat {n : Nat} (he : Indexed e n) (u : Nat) :
    Sat (e.headAt (lz4Hash u)) fun v => v ≤ n := by
  have hlt : lz4Hash u < headSize := lz4Hash_lt
  refine (tableGet_sat (by omega) (by omega)).mono ?_
  rintro v rfl
  exact he.head_le _

variable {i : Int}

theorem chainAt_sat (h0 : 0 ≤ i) (h1 : i < e.chain.len) :
    Sat (e.chainAt i) fun d => 0 ≤ d := by
  refine Sat.bind (tableGet_sat h0 h1) ?_
  rintro d rfl
  refine sat_pure ?_
  omega

theorem insert_sat (he : Indexed e src.length) (h0 : 0 ≤ i := by omega)
    (h1 : i + 4 ≤ src.length := by omega) :
    Sat (e.insert src i) fun e' => Indexed e' src.length ∧ e'.opt = e.opt := by
  refine Sat.bind (load32_sat h0 h1) ?_
  intro u _
  refine Sat.bind (headAt_sat he u) ?_
  intro v _
  simp only
  split
  · exact sat_pure ⟨he, rfl⟩
  refine Sat.bind (Q := fun e' => Indexed e' src.length ∧ e'.opt = e.opt) ?_ ?_
  · have hchain := he.chain_len
    refine Sat.bind (tableSet_sat h0 (by omega)) ?_
    intro data _
    exact sat_pure ⟨⟨he.head_le, he.chain_len⟩, rfl⟩
  · rintro e' ⟨he', hopt⟩
    have hlt : lz4Hash u < headSize := lz4Hash_lt
    refine Sat.bind (tableSet_sat (by omega) (by omega)) ?_
    rintro head rfl
    refine sat_pure ⟨⟨fun h => ?_, he'.chain_len⟩, hopt⟩
    show Function.update e'.head _ _ h ≤ src.length
    rw [Function.update_apply]
    split
    · have hle := int32_succ_le h0
      omega
    · exact he'.head_le h

theorem insertRange_sat (he : Indexed e src.length) {lo bound : Int} (h0 : 0 ≤ lo)
    (h1 : bound + 3 ≤ src.length) :
    Sat (e.insertRange src lo bound) fun e' => Indexed e' src.length ∧ e'.opt = e.opt := by
  refine forRange_sat (fun _ e' => Indexed e' src.length ∧ e'.opt = e.opt) ?_ ⟨he, rfl⟩
  rintro j e' hlo hhi ⟨he', hopt⟩
  refine (insert_sat he').mono ?_
  rintro e'' ⟨he'', hopt'⟩
  exact ⟨he'', by rw [hopt', hopt]⟩

theorem skipFuture_sat (he : Indexed e src.length) {cand : Int} (h0 : 0 ≤ i)
    (hcand : cand < src.length) :
    Sat (e.skipFuture i cand) fun r => ∀ c, r = some c → c < i := by
  have hchain := he.chain_len
  refine loop_sat (fun c => c < (src.length : Int)) (fun c => (c - i + 1).toNat) ?_ hcand
    (Nat.lt_succ_self _)
  intro c hc
  by_cases hic : i ≤ c
  · rw [if_pos hic]
    refine Sat.bind (chainAt_sat (by omega) (by omega)) ?_
    intro d hd
    split
    · exact sat_pure (by simp)
    · refine sat_pure ⟨?_, ?_⟩ <;> omega
  · rw [if_neg hic]
    refine sat_ok ?_
    intro c' hc'
    cases hc'
    omega

/-- The candidate loop: `Inv` of the best match so far is kept while the search
    goes on, `Post` is what it ends with. -/
theorem search_sat {β : Type} {limit cand : Int} {consider : Int → β → Exec (β × Bool)} {best : β}
    (Inv Post : β → Prop) (hpost : ∀ b, Inv b → Post b)
    (hconsider : ∀ c b, 0 ≤ c → limit ≤ c → c < i → Inv b →
      Sat (consider c b) fun r => Post r.1 ∧ (r.2 = false → Inv r.1)) (hchain : i ≤ e.chain.len)
    (hcand : cand < i) (hbest : Inv best) :
    Sat (e.search limit consider cand best) Post := by
  refine loop_sat (fun s => s.2.1 < i ∧ Inv s.2.2) (fun s => s.1.toNat) ?_ ⟨hcand, hbest⟩
    (Nat.lt_succ_self _)
  rintro ⟨attempts, c, b⟩ ⟨hc, hb⟩
  simp only at hc hb ⊢
  split
  · rename_i hgo
    obtain ⟨hatt, hc0, hlim⟩ := hgo
    refine Sat.bind (hconsider c b hc0 hlim hc hb) ?_
    rintro ⟨b', stop⟩ ⟨hpost', hinv'⟩
    cases stop with
    | true => exact sat_pure hpost'
    | false =>
      refine Sat.bind (chainAt_sat hc0 (by omega)) ?_
      intro d hd
      simp only
      split
      · exact sat_pure hpost'
      · refine sat_pure ⟨⟨?_, hinv' rfl⟩, ?_⟩ <;> simp only <;> omega
  · exact sat_ok (hpost b hb)

end

/-! ## Specifications of the searches -/

section

variable {e : LZ4HCEncoder} {src : List UInt8}

theorem guardByte_sat {c : Prop} [Decidable c] {a b : Int}
    (h : c → 0 ≤ a ∧ a < src.length ∧ 0 ≤ b ∧ b < src.length) :
    Sat (guardByte c src a b) fun _ => True := by
  by_cases hc : c
  · obtain ⟨ha, haLen, hb, hbLen⟩ := h hc
    rw [guardByte, if_pos hc]
    exact (sameByte_sat ha haLen hb hbLen).mono fun _ _ => trivial
  · rw [guardByte, if_neg hc]
    exact sat_ok trivial

variable {cand i : Int}

theorem viable_sat {srcEnd bestLen : Int} (hcand0 : 0 ≤ cand) (hcand : cand < i) (hi : i ≤ srcEnd)
    (hEnd : srcEnd ≤ src.length) (hlen : 0 ≤ bestLen) :
    Sat (viable src i srcEnd cand bestLen) fun _ => True := by
  rw [viable]
  split
  · exact sat_ok trivial
  refine Sat.bind (guardByte_sat (by omega)) ?_
  intro left _
  cases left with
  | true => exact sat_pure trivial
  | false => exact guardByte_sat (by omega)

theorem extendBack_sat {candidateBack : Int} (h0 : 0 ≤ candidateBack) (hback : candidateBack ≤ cand)
    (hcand : cand < i) (hi : i ≤ src.length) :
    Sat (extendBack src i cand candidateBack) fun back =>
      0 ≤ back ∧ back ≤ candidateBack ∧ Agree src (cand - back) (i - back) back := by
  refine loop_sat (fun back => 0 ≤ back ∧ back ≤ candidateBack ∧
    Agree src (cand - back) (i - back) back) (fun back => (candidateBack - back).toNat) ?_
    ⟨by omega, h0, Agree.zero src _ _⟩ (by omega)
  rintro back ⟨hb0, hb1, hagree⟩
  by_cases hlt : back < candidateBack
  · rw [if_pos hlt]
    refine Sat.bind sameByte_sat ?_
    intro same heq
    cases same with
    | false => exact sat_pure ⟨hb0, hb1, hagree⟩
    | true =>
      refine sat_pure ⟨⟨by omega, by omega, ?_⟩, by omega⟩
      -- the new byte is the first of the longer run
      have hfirst : Agree src (cand - (back + 1)) (i - (back + 1)) 1 := by
        intro j hj0 hj1
        have hc : cand - (back + 1) + j = cand - back - 1 := by omega
        have hi' : i - (back + 1) + j = i - back - 1 := by omega
        rw [hc, hi']
        exact (heq rfl).symm
      have hc : cand - back = cand - (back + 1) + 1 := by omega
      have hi' : i - back = i - (back + 1) + 1 := by omega
      rw [hc, hi'] at hagree
      rw [Int.add_comm back 1] at hfirst hagree ⊢
      exact hfirst.append hagree
  · rw [if_neg hlt]
    exact sat_ok ⟨hb0, hb1, hagree⟩

theorem mandatoryByte_sat {needBack : Int} (hneed : needBack ≤ cand) (hcand : cand < i)
    (hi : i ≤ src.length) :
    Sat (mandatoryByte src i cand needBack) fun _ => True := by
  rw [mandatoryByte]
  split
  · exact sat_ok trivial
  · exact (sameByte_sat).mono fun _ _ => trivial

/-- What a search at `i` keeps of its best match: there is none yet, or it is a
    match that starts between `minStart` and `i` and runs past `i`. -/
def Found (src : List UInt8) (i minStart : Int) (m : Match) : Prop :=
  m.len = 0 ∨ (IsMatch src m ∧ minStart ≤ m.start ∧ m.start ≤ i ∧ i + 4 ≤ m.start + m.len)

theorem Found.none (src : List UInt8) (i minStart : Int) : Found src i minStart Match.none :=
  .inl rfl

variable {minStart : Int}

theorem Found.len_nonneg {m : Match} (h : Found src i minStart m) :
    0 ≤ m.len := by
  rcases h with h | ⟨h, _⟩
  · omega
  · have := h.minMatch_le
    omega

/-- A candidate that matches `fwd` bytes forward and `back` bytes backward. -/
theorem isMatch_of_extend {fwd : Int} (back : Int) (hcand : back ≤ cand) (hlt : cand < i)
    (hdist : i - 65535 ≤ cand) (hmin : 4 ≤ fwd) (hi : i < src.length - 12)
    (hfwd : fwd ≤ src.length - 5 - i) (hback : 0 ≤ back) (hforward : Agree src cand i fwd)
    (hbackward : Agree src (cand - back) (i - back) back) :
    IsMatch src ⟨i - back, cand - back, fwd + back⟩ := by
  refine ⟨?_, ?_, ?_, ?_, ?_, ?_, ?_⟩ <;> simp only <;> try omega
  have hc : cand = cand - back + back := by omega
  have hi' : i = i - back + back := by omega
  have hsum : fwd + back = back + fwd := by omega
  rw [hsum]
  refine hbackward.append ?_
  rw [← hc, ← hi']
  exact hforward

theorem widen_sat {first : Nat} {best : Match} (hmin0 : 0 ≤ minStart) (hmin : minStart ≤ i)
    (hi : i < src.length - 12) (hcand0 : 0 ≤ cand) (hdist : i - 65535 ≤ cand) (hcand : cand < i)
    (hbest : Found src i minStart best) :
    Sat (widen src i (src.length - 5) (min (i - minStart) 64) first cand best) fun r =>
      Found src i minStart r.1 := by
  have hlen := hbest.len_nonneg
  refine Sat.bind (viable_sat hcand0 hcand (by omega) (by omega) hlen) ?_
  intro v _
  split
  · exact sat_pure hbest
  refine Sat.bind (load32_sat hcand0) ?_
  intro w _
  split
  · exact sat_pure hbest
  refine Sat.bind matchLenAt_sat ?_
  rintro fwd ⟨hfwd0, hfwd, hforward⟩
  split
  · exact sat_pure hbest
  rename_i hlong
  simp only [lz4MinMatch, not_not] at hlong
  simp only
  split
  · exact sat_pure hbest
  rename_i hneed
  rw [not_not] at hneed
  refine Sat.bind (mandatoryByte_sat (by omega) hcand (by omega)) ?_
  intro ok _
  split
  · exact sat_pure hbest
  refine Sat.bind (extendBack_sat (by omega) (by omega) hcand (by omega)) ?_
  rintro back ⟨hback0, hback, hbackward⟩
  split
  · have hm := isMatch_of_extend back (by omega) hcand hdist hlong.1 hi hfwd
      hback0 hforward hbackward
    refine sat_pure (.inr ⟨hm, ?_, ?_, ?_⟩) <;> simp only <;> omega
  · exact sat_pure hbest

/-- **`widerMatch` returns a match or nothing**, whatever the chains hold. -/
theorem widerMatch_sat (he : Indexed e src.length) (hmin0 : 0 ≤ minStart) (hmin : minStart ≤ i)
    (hi : i < src.length - 12) :
    Sat (e.widerMatch src i minStart) (Found src i minStart) := by
  have hchain := he.chain_len
  refine Sat.bind load32_sat ?_
  intro u _
  refine Sat.bind (headAt_sat he u) ?_
  intro head hhead
  refine Sat.bind (skipFuture_sat he (by omega) (by omega)) ?_
  intro r hr
  cases r with
  | none => exact sat_pure (Found.none src i minStart)
  | some cand =>
    have hcand := hr cand rfl
    refine Sat.bind load32_sat ?_
    intro first _
    refine Sat.bind (search_sat (Found src i minStart) (Found src i minStart)
      (fun _ h => h) ?_ (by omega) hcand (Found.none src i minStart)) ?_
    · intro c b hc0 hlim hc hb
      refine (widen_sat hmin0 hmin hi hc0 hlim hc hb).mono ?_
      intro r hr
      exact ⟨hr, fun _ => hr⟩
    · intro best hbest
      split
      · exact sat_pure (Found.none src i minStart)
      · exact sat_pure hbest

/-- The best match of `forwardMatch` while longer ones are still possible. -/
theorem lengthen_sat {first : Nat} {best : Match} (hi : i < src.length - 12) (hcand0 : 0 ≤ cand)
    (hdist : i - 65535 ≤ cand) (hcand : cand < i) (hbest : best.len < 4 ∨ Found src i i best)
    (h0 : 0 ≤ best.len) (hshort : best.len < src.length - 5 - i) :
    Sat (lengthen src i (src.length - 5 - i) first cand best) fun r =>
      (r.1.len < 4 ∨ Found src i i r.1) ∧ 0 ≤ r.1.len ∧
        (r.2 = false → r.1.len < src.length - 5 - i) := by
  refine Sat.bind (load32_sat hcand0) ?_
  intro w _
  split
  · exact sat_pure ⟨hbest, h0, fun _ => hshort⟩
  refine Sat.bind (Q := fun _ => True) ?_ ?_
  · rw [longer]
    split
    · exact sat_ok trivial
    · exact (sameByte_sat).mono fun _ _ => trivial
  · intro promising _
    split
    · exact sat_pure ⟨hbest, h0, fun _ => hshort⟩
    refine Sat.bind matchLenAt_sat ?_
    rintro l ⟨hl0, hl, hforward⟩
    split
    · refine sat_pure ⟨?_, hl0, ?_⟩
      · by_cases hl4 : l < 4
        · exact .inl hl4
        have hm := isMatch_of_extend 0 hcand0 hcand hdist (by omega) hi hl
          (by omega) hforward (Agree.zero src _ _)
        simp only [Int.sub_zero, Int.add_zero] at hm
        refine .inr (.inr ⟨hm, ?_, ?_, ?_⟩) <;> simp only <;> omega
      · intro hstop
        have hless : decide ((src.length : Int) - 5 - i ≤ l) = false := hstop
        exact Int.not_le.mp (of_decide_eq_false hless)
    · exact sat_pure ⟨hbest, h0, fun _ => hshort⟩

/-- **`forwardMatch` returns a match that starts at `i`, or nothing.** -/
theorem forwardMatch_sat (he : Indexed e src.length) (hi0 : 0 ≤ i) (hi : i < src.length - 12) :
    Sat (e.forwardMatch src i) (Found src i i) := by
  have hchain := he.chain_len
  refine Sat.bind load32_sat ?_
  intro first _
  refine Sat.bind (headAt_sat he first) ?_
  intro head hhead
  refine Sat.bind (skipFuture_sat he (by omega) (by omega)) ?_
  intro r hr
  cases r with
  | none => exact sat_pure (Found.none src i i)
  | some cand =>
    have hcand := hr cand rfl
    refine Sat.bind (search_sat
      (fun b => (b.len < 4 ∨ Found src i i b) ∧ 0 ≤ b.len ∧
        b.len < src.length - 5 - i)
      (fun b => b.len < 4 ∨ Found src i i b)
      (fun _ h => h.1) ?_ (by omega) hcand ⟨.inl (by decide), by decide, ?_⟩) ?_
    · rintro c b hc0 hlim hc ⟨hb, hb0, hshort⟩
      refine (lengthen_sat hi hc0 hlim hc hb hb0 hshort).mono ?_
      rintro r ⟨hr, hr0, hstop⟩
      exact ⟨hr, fun hf => ⟨hr, hr0, hstop hf⟩⟩
    · show (0 : Int) < src.length - 5 - i
      omega
    · intro best hbest
      split
      · exact sat_pure (Found.none src i i)
      · rcases hbest with hbest | hbest
        · contradiction
        · exact sat_pure hbest

end

end Orchestrator.Erofs.Lz4Enc

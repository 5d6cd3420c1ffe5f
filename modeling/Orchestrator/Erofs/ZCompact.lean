/-
  Orchestrator.Erofs.ZCompact

  The compacted index: the writer `writeZCompactIndexes`, and the packs it writes.

  A pack holds a cluster type and 12 bits for each of its clusters, and one block
  address.  Addresses of the HEADs are not stored: writer and reader both add up
  the block counts of the extents in between, the writer from one pack to the
  next (`blkaddr`, `dummyHead`), the reader back to the start of the pack.  The
  last record of a pack trades its distance for a look-ahead, and the reader
  takes the distance from the record before it.

  `IndexStream` says what an index is in terms of positions, not of extents: which
  position is the HEAD of which, the block count a HEAD passes on, and the address that
  follows.  The state of the writer is a function of the position (`WriterAt`).
-/

import Orchestrator.Erofs.ZRead

namespace Orchestrator.Erofs

open Lib Lib.Exec List

/-! ## The writer -/

/-- What the writer carries from one pack to the next. -/
structure CompactState where
  blkaddr : Nat
  dummyHead : Bool
deriving DecidableEq, Repr

structure PackState extends CompactState where
  base : Nat
  updateBase : Bool
deriving DecidableEq, Repr

/-- The 12 bits stored for an entry, and the state behind it; `last` is set for the
    last record of the pack. -/
def packOffset (last : Bool) (entry : ZIndexEntry) (st : PackState) : Nat × PackState :=
  if entry.typ = zLclusterNonhead then
    let d0 := entry.u &&& 0xffff
    if d0 &&& zCblkcntBit ≠ 0 then
      (d0, { st with
        blkaddr := u32 (st.blkaddr + (d0 - (d0 &&& zCblkcntBit))), dummyHead := false })
    else if last then (min (entry.u >>> 16) (zCblkcntBit - 1), st)
    else (d0, st)
  else
    -- a HEAD nobody has counted yet stands for one block
    let blkaddr := if st.dummyHead then u32 (st.blkaddr + 1) else st.blkaddr
    (entry.clusterofs,
      { blkaddr := blkaddr
        base := if st.dummyHead ∧ st.updateBase then blkaddr else st.base
        dummyHead := true
        updateBase := false })

/-- The loop over the records of a pack, from record `i` on. -/
def packLoop (vcnt encodeBits : Nat) : Nat → List ZIndexEntry → PackState → List UInt8 →
    List UInt8 × PackState
  | _, [], st, pack => (pack, st)
  | i, entry :: rest, st, pack =>
    let (offset, st) := packOffset (i + 1 = vcnt) entry st
    packLoop vcnt encodeBits (i + 1) rest st
      (putBits pack (encodeBits * i) encodeBits (entry.typ <<< 12 ||| offset))

/-- `writePack`: the bytes of one pack, and the state behind it.  A short pack is
    filled up with empty entries. -/
def writePack (vcnt destSize : Nat) (packEntries : List ZIndexEntry) (st : CompactState) :
    List UInt8 × CompactState :=
  let size := vcnt * destSize
  let encodeBits := (size * 8 - 32) / vcnt
  let entries := packEntries ++ replicate (vcnt - packEntries.length) {}
  let (pack, st) := packLoop vcnt encodeBits 0 entries
    { blkaddr := st.blkaddr, dummyHead := st.dummyHead, base := st.blkaddr, updateBase := true }
    (replicate size 0)
  (pack.take (size - 4) ++ leBytes 4 st.base, st.toCompactState)

/-- `count` packs of `vcnt` entries. -/
def writePacks (vcnt destSize : Nat) : Nat → List ZIndexEntry → CompactState →
    List UInt8 × CompactState
  | 0, _, st => ([], st)
  | count + 1, entries, st =>
    let (bytes, st) := writePack vcnt destSize (entries.take vcnt) st
    let (rest, st) := writePacks vcnt destSize count (entries.drop vcnt) st
    (bytes ++ rest, st)

/-- Where the index of an inode starts, counted from the start of the metadata. -/
def compactIndexStart (nid coreSize xattrSize : Nat) : Nat :=
  align8 (nid * sizeInodeCompact + coreSize + xattrSize) + zMapHeaderSize

/-- `writeZCompactIndexes`: `blkaddr` is the address of the first extent. -/
def writeZCompactIndexes (indexStart blkaddr : Nat) (entries : List ZIndexEntry) : List UInt8 :=
  let initial := compactInitial indexStart entries.length
  let middle := compactMiddle initial entries.length
  let (first, st) := writePacks 2 4 ((initial + 1) / 2) (entries.take initial) ⟨blkaddr, false⟩
  let (packs, st) := writePacks 16 2 (middle / 16) ((entries.drop initial).take middle) st
  let tail := entries.drop (initial + middle)
  let (last, _) := writePacks 2 4 ((tail.length + 1) / 2) tail st
  first ++ packs ++ last

def zCompactIndexSize (indexStart nIdx : Nat) : Nat :=
  let initial := compactInitial indexStart nIdx
  let middle := compactMiddle initial nIdx
  let tail := nIdx - initial - middle
  initial * 4 + middle * 2 + (tail + 1) / 2 * 8

/-! ## Indexes by position -/

/-- An index of `n` entries: `headOf k` is the HEAD (or PLAIN) that position `k`
    belongs to, `count` the block count that the first NONHEAD behind a HEAD
    carries, `addr` the address that these counts give a HEAD. -/
structure IndexStream (E : Nat → ZIndexEntry) (n : Nat) (headOf addr count : Nat → Nat) :
    Prop where
  head_le : ∀ k, headOf k ≤ k
  nonhead_iff : ∀ k, k < n → ((E k).typ = zLclusterNonhead ↔ headOf k < k)
  same_head : ∀ k, k + 1 < n → headOf (k + 1) < k + 1 → headOf (k + 1) = headOf k
  typ_le : ∀ k, k < n → (E k).typ ≤ 2
  clusterofs_eq : ∀ k, k < n → (E k).clusterofs = 0
  first_nonhead : ∀ k, k < n → headOf k + 1 = k →
    (E k).u &&& 0xffff = 2048 + count (headOf k)
  later_nonhead : ∀ k, k < n → headOf k + 2 ≤ k → (E k).u &&& 0xffff = min (k - headOf k) 2047
  count_lt : ∀ k, count k < 2048
  addr_lt : ∀ k, addr k < 2 ^ 32
  addr_succ : ∀ k, k + 1 < n → headOf (k + 1) = k + 1 →
    addr (k + 1) = u32 (addr (headOf k) + if headOf k = k then 1 else count (headOf k))

section

variable {E : Nat → ZIndexEntry} {n : Nat} {headOf addr count : Nat → Nat}

variable {k : Nat}

/-- Positions between a HEAD and one of its clusters belong to that HEAD. -/
theorem IndexStream.headOf_between (s : IndexStream E n headOf addr count) {m : Nat}
    (hk : k < n := by omega) (hm : headOf k ≤ m := by omega) (hmk : m ≤ k := by omega) :
    headOf m = headOf k := by
  induction k with
  | zero =>
    have h0 : m = 0 := by omega
    rw [h0]
  | succ k ih =>
    by_cases heq : m = k + 1
    · rw [heq]
    have hlt : headOf (k + 1) < k + 1 := by omega
    have hsame := s.same_head k hk hlt
    rw [hsame] at hm ⊢
    exact ih (by omega) hm (by omega)

/-- The address of the extent that starts behind position `k - 1`. -/
def nextAddr (headOf addr count : Nat → Nat) (k : Nat) : Nat :=
  if k = 0 then addr 0
  else u32 (addr (headOf (k - 1)) +
    if headOf (k - 1) = k - 1 then 1 else count (headOf (k - 1)))

theorem IndexStream.addr_eq_nextAddr (s : IndexStream E n headOf addr count) (hk : k < n)
    (hhead : headOf k = k) : addr k = nextAddr headOf addr count k := by
  cases k with
  | zero => rfl
  | succ k =>
    rw [nextAddr, if_neg (by omega), Nat.add_sub_cancel]
    exact s.addr_succ k hk hhead

/-- The state of the writer before position `k`: behind a HEAD that is not counted
    yet it stands on that HEAD, elsewhere on the next one. -/
structure WriterAt (headOf addr count : Nat → Nat) (k : Nat) (st : CompactState) : Prop where
  dummyHead_iff : st.dummyHead = true ↔ 0 < k ∧ headOf (k - 1) = k - 1
  blkaddr_head : st.dummyHead = true → st.blkaddr = addr (k - 1)
  blkaddr_next : st.dummyHead = false → st.blkaddr = nextAddr headOf addr count k

/-! ## The writer at a position -/

theorem and_blkcnt_add {c : Nat} (h : c < 2048) : (2048 + c) &&& zCblkcntBit = 2048 := by
  have hbit : zCblkcntBit = 2 ^ 11 := rfl
  have hset : (2048 + c).testBit 11 = true := by
    have hlow : c.testBit 11 = false := Nat.testBit_lt_two_pow h
    have hpow := Nat.testBit_two_pow_add_eq c 11
    rw [hlow] at hpow
    exact hpow
  rw [hbit, Nat.and_two_pow, hset]
  rfl

theorem and_blkcnt_lt {d : Nat} (h : d < 2048 := by omega) : d &&& zCblkcntBit = 0 := by
  have hbit : zCblkcntBit = 2 ^ 11 := rfl
  rw [hbit, Nat.and_two_pow, Nat.testBit_lt_two_pow h]
  rfl

variable {st : PackState} {last : Bool} {entry : ZIndexEntry}

theorem packOffset_head (h : entry.typ ≠ zLclusterNonhead) :
    packOffset last entry st = (entry.clusterofs,
      { blkaddr := if st.dummyHead then u32 (st.blkaddr + 1) else st.blkaddr
        base := if st.dummyHead ∧ st.updateBase then
          (if st.dummyHead then u32 (st.blkaddr + 1) else st.blkaddr) else st.base
        dummyHead := true
        updateBase := false }) := by
  rw [packOffset, if_neg h]

theorem packOffset_first {c : Nat} (h : entry.typ = zLclusterNonhead)
    (hu : entry.u &&& 0xffff = 2048 + c) (hc : c < 2048) :
    packOffset last entry st =
      (2048 + c, { st with blkaddr := u32 (st.blkaddr + c), dummyHead := false }) := by
  have hand := and_blkcnt_add hc
  have hsub : 2048 + c - 2048 = c := by omega
  rw [packOffset, if_pos h]
  simp only [hu, hand]
  rw [if_pos (by omega), hsub]

theorem packOffset_later {d : Nat} (h : entry.typ = zLclusterNonhead)
    (hu : entry.u &&& 0xffff = d) (hd : d < 2048 := by omega) :
    packOffset last entry st =
      (if last then min (entry.u >>> 16) 2047 else d, st) := by
  have hand := and_blkcnt_lt hd
  rw [packOffset, if_pos h]
  simp only [hu, hand]
  rw [if_neg (by omega)]
  cases last <;> rfl

theorem IndexStream.cases (s : IndexStream E n headOf addr count) (k : Nat) :
    headOf k = k ∨ headOf k + 1 = k ∨ headOf k + 2 ≤ k := by
  have hle := s.head_le k
  omega

section

variable (s : IndexStream E n headOf addr count) (hk : k < n)
  (h : WriterAt headOf addr count k st.toCompactState)
include s hk h

theorem WriterAt.at_head (hhead : headOf k = k) :
    (E k).typ ≠ zLclusterNonhead ∧
      (if st.dummyHead then u32 (st.blkaddr + 1) else st.blkaddr) = addr k := by
  constructor
  · intro hc
    have := (s.nonhead_iff k hk).mp hc
    omega
  · rw [s.addr_eq_nextAddr hk hhead]
    by_cases hd : st.dummyHead = true
    · obtain ⟨hpos, hprev⟩ := h.dummyHead_iff.mp hd
      rw [if_pos hd, h.blkaddr_head hd, nextAddr, if_neg (by omega), hprev, if_pos rfl]
    · rw [if_neg hd]
      exact h.blkaddr_next (by simpa using hd)

theorem WriterAt.at_first (hfirst : headOf k + 1 = k) :
    (E k).typ = zLclusterNonhead ∧ st.dummyHead = true ∧ st.blkaddr = addr (headOf k) := by
  have hprev : headOf (k - 1) = headOf k := s.headOf_between hk
  have hd : st.dummyHead = true := h.dummyHead_iff.mpr ⟨by omega, by omega⟩
  have hk1 : k - 1 = headOf k := by omega
  exact ⟨(s.nonhead_iff k hk).mpr (by omega), hd, by rw [h.blkaddr_head hd, hk1]⟩

theorem WriterAt.at_later (hlater : headOf k + 2 ≤ k) :
    (E k).typ = zLclusterNonhead ∧ st.dummyHead = false ∧
      st.blkaddr = u32 (addr (headOf k) + count (headOf k)) := by
  have hprev : headOf (k - 1) = headOf k := s.headOf_between hk
  have hd : st.dummyHead = false := by
    cases hc : st.dummyHead with
    | false => rfl
    | true =>
      have := (h.dummyHead_iff.mp hc).2
      omega
  refine ⟨(s.nonhead_iff k hk).mpr (by omega), hd, ?_⟩
  rw [h.blkaddr_next hd, nextAddr, if_neg (by omega), if_neg (by omega), hprev]

/-- The writer moves from one position to the next. -/
theorem packOffset_writerAt (last : Bool) :
    WriterAt headOf addr count (k + 1) (packOffset last (E k) st).2.toCompactState := by
  rcases s.cases k with hhead | hfirst | hlater
  · -- a HEAD or PLAIN: the writer now stands on it
    obtain ⟨hne, haddr⟩ := h.at_head s hk hhead
    rw [packOffset_head hne]
    refine ⟨?_, ?_, ?_⟩
    · simp only [Nat.add_sub_cancel]
      exact ⟨fun _ => ⟨by omega, hhead⟩, fun _ => trivial⟩
    · intro _
      simp only [Nat.add_sub_cancel]
      exact haddr
    · intro hc
      simp at hc
  · -- the block count: the writer moves to the next extent
    obtain ⟨hnon, hd, hblk⟩ := h.at_first s hk hfirst
    rw [packOffset_first hnon (s.first_nonhead k hk hfirst) (s.count_lt _)]
    refine ⟨?_, ?_, ?_⟩
    · simp only [Nat.add_sub_cancel]
      exact ⟨fun hc => absurd hc (by simp), fun hc => by omega⟩
    · intro hc
      simp at hc
    · intro _
      simp only [nextAddr, Nat.add_sub_cancel]
      rw [if_neg (by omega), if_neg (by omega), hblk]
  · -- any other NONHEAD leaves the writer where it is
    obtain ⟨hnon, hd, hblk⟩ := h.at_later s hk hlater
    rw [packOffset_later hnon (s.later_nonhead k hk hlater)]
    refine ⟨?_, ?_, ?_⟩
    · simp only [Nat.add_sub_cancel]
      exact ⟨fun hc => absurd hc (by simp [hd]), fun hc => by omega⟩
    · intro hc
      rw [hd] at hc
      cases hc
    · intro _
      simp only [hblk, nextAddr, Nat.add_sub_cancel]
      rw [if_neg (by omega), if_neg (by omega)]

end

/-! ## The base address of a pack -/

/-- The address stored with a pack that starts at position `p`. -/
def baseOf (headOf addr count : Nat → Nat) (p : Nat) : Nat :=
  if headOf p = p then addr p
  else if headOf p + 1 = p then addr (headOf p)
  else u32 (addr (headOf p) + count (headOf p))

/-- The writer inside a pack that starts at `p`, behind its first record. -/
structure BaseSet (headOf addr count : Nat → Nat) (p : Nat) (st : PackState) : Prop where
  base_eq : st.base = baseOf headOf addr count p
  settled : st.updateBase = true → st.dummyHead = false

theorem packOffset_baseSet (s : IndexStream E n headOf addr count) {p : Nat} (hp : p < n)
    (h : WriterAt headOf addr count p st.toCompactState) (hbase : st.base = st.blkaddr)
    (hupd : st.updateBase = true) (last : Bool) :
    BaseSet headOf addr count p (packOffset last (E p) st).2 := by
  rcases s.cases p with hhead | hfirst | hlater
  · obtain ⟨hne, haddr⟩ := h.at_head s hp hhead
    rw [packOffset_head hne]
    refine ⟨?_, fun hc => by simp at hc⟩
    simp only [baseOf, hhead, if_true, haddr]
    by_cases hd : st.dummyHead = true
    · rw [if_pos ⟨hd, hupd⟩]
    · rw [if_neg hd] at haddr
      rw [if_neg (fun hc => hd hc.1), hbase, haddr]
  · obtain ⟨hnon, hd, hblk⟩ := h.at_first s hp hfirst
    rw [packOffset_first hnon (s.first_nonhead p hp hfirst) (s.count_lt _)]
    refine ⟨?_, fun _ => rfl⟩
    simp only [baseOf]
    rw [if_neg (by omega), if_pos hfirst, hbase, hblk]
  · obtain ⟨hnon, hd, hblk⟩ := h.at_later s hp hlater
    rw [packOffset_later hnon (s.later_nonhead p hp hlater)]
    refine ⟨?_, fun _ => hd⟩
    simp only [baseOf]
    rw [if_neg (by omega), if_neg (by omega), hbase, hblk]

theorem BaseSet.packOffset {p : Nat} (h : BaseSet headOf addr count p st) (last : Bool)
    (entry : ZIndexEntry) :
    BaseSet headOf addr count p (packOffset last entry st).2 := by
  rw [Erofs.packOffset]
  split
  · simp only
    split
    · exact ⟨h.base_eq, fun _ => rfl⟩
    · split
      · exact h
      · exact h
  · refine ⟨?_, fun hc => by simp at hc⟩
    have hnot : ¬ (st.dummyHead = true ∧ st.updateBase = true) := by
      rintro ⟨hd, hu⟩
      rw [h.settled hu] at hd
      cases hd
    simp only [hnot, if_false]
    exact h.base_eq

end

/-! ## The bits of a pack -/

/-- The 12 bits stored for an entry do not depend on where the writer stands. -/
def entryOffset (last : Bool) (entry : ZIndexEntry) : Nat :=
  (packOffset last entry ⟨⟨0, false⟩, 0, false⟩).1

theorem packOffset_fst (last : Bool) (entry : ZIndexEntry) (st : PackState) :
    (packOffset last entry st).1 = entryOffset last entry := by
  simp only [entryOffset, packOffset]
  split
  · split
    · rfl
    · split <;> rfl
  · rfl

def recordValue (vcnt i : Nat) (entry : ZIndexEntry) : Nat :=
  entry.typ <<< 12 ||| entryOffset (i + 1 = vcnt) entry

section

variable {vcnt eb : Nat}

theorem length_packLoop (i : Nat) (es : List ZIndexEntry) (st : PackState) (pack : List UInt8) :
    (packLoop vcnt eb i es st pack).1.length = pack.length := by
  induction es generalizing i st pack with
  | nil => rfl
  | cons e rest ih =>
    rw [packLoop]
    simp only
    rw [ih, length_putBits]

theorem length_cons_add {α : Type} (i : Nat) (e : α) (rest : List α) :
    i + (e :: rest).length = i + 1 + rest.length := by
  rw [length_cons, Nat.add_right_comm, Nat.add_assoc]

/-- Records that follow do not touch the bits before them. -/
theorem bitAt_packLoop_of_lt {i b : Nat} (hb : b < eb * i) (es : List ZIndexEntry)
    (st : PackState) (pack : List UInt8) (hlen : eb * (i + es.length) ≤ 8 * pack.length) :
    bitAt (packLoop vcnt eb i es st pack).1 b = bitAt pack b := by
  induction es generalizing i st pack with
  | nil => rfl
  | cons e rest ih =>
    have hnext : eb * (i + 1) = eb * i + eb := Nat.mul_succ eb i
    have hmono : eb * (i + 1) ≤ eb * (i + 1 + rest.length) := Nat.mul_le_mul_left _ (by omega)
    rw [length_cons_add] at hlen
    have hout : decide (eb * i ≤ b ∧ b < eb * i + eb) = false := decide_eq_false (by omega)
    rw [packLoop]
    simp only
    rw [ih (by omega) _ _ (by rw [length_putBits]; exact hlen),
      bitAt_putBits _ (by omega), hout, Bool.false_and, Bool.or_false]

/-- Record `j` of a pack that starts zeroed holds its field. -/
theorem bitAt_packLoop_record {i j b : Nat} {es : List ZIndexEntry} {entry : ZIndexEntry}
    (st : PackState) (pack : List UInt8) (hlen : eb * (i + es.length) ≤ 8 * pack.length)
    (hzero : ∀ b, eb * i ≤ b → bitAt pack b = false) (hj : es[j]? = some entry) (hb : b < eb) :
    bitAt (packLoop vcnt eb i es st pack).1 (eb * (i + j) + b) =
      (recordValue vcnt (i + j) entry).testBit b := by
  induction es generalizing i j st pack with
  | nil => simp at hj
  | cons e rest ih =>
    have hnext : eb * (i + 1) = eb * i + eb := Nat.mul_succ eb i
    have hmono : eb * (i + 1) ≤ eb * (i + 1 + rest.length) := Nat.mul_le_mul_left _ (by omega)
    rw [length_cons_add] at hlen
    rw [packLoop]
    simp only
    cases j with
    | zero =>
      -- this record, which the ones behind it leave alone
      have he : e = entry := by simpa using hj
      have hin : decide (eb * i ≤ eb * i + b ∧ eb * i + b < eb * i + eb) = true :=
        decide_eq_true (by omega)
      have hsub : eb * i + b - eb * i = b := by omega
      simp only [Nat.add_zero]
      rw [bitAt_packLoop_of_lt (by omega) _ _ _ (by rw [length_putBits]; exact hlen),
        bitAt_putBits _ (by omega), hzero _ (by omega), hin, Bool.true_and, Bool.false_or, hsub,
        packOffset_fst, he, recordValue]
    | succ j =>
      have hrest : rest[j]? = some entry := by simpa using hj
      have hpos : i + (j + 1) = i + 1 + j := by omega
      rw [hpos]
      refine ih _ _ (by rw [length_putBits]; exact hlen) ?_ hrest
      intro b hb
      have hout : decide (eb * i ≤ b ∧ b < eb * i + eb) = false := decide_eq_false (by omega)
      rw [bitAt_putBits _ (by omega), hzero b (by omega), hout, Bool.false_and, Bool.or_false]

theorem packLoop_baseSet {headOf addr count : Nat → Nat} {p : Nat} (i : Nat)
    (es : List ZIndexEntry) {st : PackState} (pack : List UInt8)
    (h : BaseSet headOf addr count p st) :
    BaseSet headOf addr count p (packLoop vcnt eb i es st pack).2 := by
  induction es generalizing i st pack with
  | nil => exact h
  | cons e rest ih =>
    rw [packLoop]
    exact ih _ _ (h.packOffset _ e)

theorem packLoop_writerAt {E : Nat → ZIndexEntry} {n : Nat} {headOf addr count : Nat → Nat}
    (s : IndexStream E n headOf addr count) (i : Nat) {k : Nat} {es : List ZIndexEntry}
    {st : PackState} (pack : List UInt8) (hes : ∀ j e, es[j]? = some e → e = E (k + j))
    (hk : k + es.length ≤ n) (h : WriterAt headOf addr count k st.toCompactState) :
    WriterAt headOf addr count (k + es.length) (packLoop vcnt eb i es st pack).2.toCompactState := by
  induction es generalizing i k st pack with
  | nil => exact h
  | cons e rest ih =>
    have he : e = E k := hes 0 e rfl
    rw [length_cons] at hk ⊢
    have hstep := packOffset_writerAt s (k := k) (by omega) h (i + 1 = vcnt)
    have hpos : k + (rest.length + 1) = k + 1 + rest.length := by omega
    rw [packLoop, hpos]
    rw [← he] at hstep
    refine ih (i + 1) _ ?_ (by omega) hstep
    intro j e' hj
    have hcons := hes (j + 1) e' (by simpa using hj)
    rw [hcons]
    congr 1
    omega

end

/-! ## A pack read back -/

/-- What the reader gets for record `j` of a pack. -/
theorem decode_value {typ offset : Nat} (htyp : typ ≤ 2) (hoff : offset < 4096) :
    typ <<< 12 ||| offset < 2 ^ 14 ∧ ((typ <<< 12 ||| offset) >>> 12) &&& 3 = typ ∧
      (typ <<< 12 ||| offset) &&& (1 <<< 12 - 1) = offset := by
  have hshift : typ <<< 12 = 2 ^ 12 * typ := by
    rw [Nat.shiftLeft_eq]
    omega
  have hor : typ <<< 12 ||| offset = 2 ^ 12 * typ + offset := by
    rw [hshift, Nat.two_pow_add_eq_or_of_lt hoff]
  have hmask3 : (3 : Nat) = 2 ^ 2 - 1 := rfl
  have hmask12 : (1 <<< 12 - 1 : Nat) = 2 ^ 12 - 1 := rfl
  rw [hor, hmask12, Nat.and_two_pow_sub_one_eq_mod, Nat.shiftRight_eq_div_pow, hmask3,
    Nat.and_two_pow_sub_one_eq_mod]
  omega

theorem entryOffset_lt {last : Bool} {entry : ZIndexEntry} (hofs : entry.clusterofs < 4096)
    (hu : entry.typ = zLclusterNonhead → entry.u &&& 0xffff < 4096) :
    entryOffset last entry < 4096 := by
  have hbit : zCblkcntBit = 2048 := rfl
  simp only [entryOffset, packOffset]
  split
  · rename_i htyp
    have hu' := hu htyp
    split
    · exact hu'
    split
    · simp only [hbit]
      omega
    · exact hu'
  · exact hofs

section

variable {E : Nat → ZIndexEntry} {n : Nat} {headOf addr count : Nat → Nat}

/-- The shapes of a pack: two records of 16 bits or sixteen of 14, and an address. -/
structure PackShape (vcnt destSize : Nat) : Prop where
  shape : (vcnt = 2 ∧ destSize = 4) ∨ (vcnt = 16 ∧ destSize = 2)

/-- Bits of a record in a pack of this shape. -/
def encodeBits (vcnt destSize : Nat) : Nat := (vcnt * destSize * 8 - 32) / vcnt

theorem PackShape.facts {vcnt destSize : Nat} (h : PackShape vcnt destSize) :
    2 ≤ vcnt ∧ vcnt ≤ 16 ∧ 4 ≤ vcnt * destSize ∧ 14 ≤ encodeBits vcnt destSize ∧
      encodeBits vcnt destSize ≤ 16 ∧
      encodeBits vcnt destSize * vcnt = 8 * (vcnt * destSize - 4) := by
  rcases h.shape with ⟨rfl, rfl⟩ | ⟨rfl, rfl⟩ <;> decide

/-- A pack as the reader sees it: the records of the positions from `p` on, and the
    base address. -/
structure PackReads (E : Nat → ZIndexEntry) (n : Nat) (headOf addr count : Nat → Nat)
    (p vcnt destSize : Nat) (pack : List UInt8) : Prop where
  length_eq : pack.length = vcnt * destSize
  record : ∀ j, j < vcnt → p + j < n →
    decodeCompactBits pack (encodeBits vcnt destSize * j) (encodeBits vcnt destSize) =
      ((E (p + j)).typ, entryOffset (j + 1 = vcnt) (E (p + j)))
  base : leNat (pack.drop (pack.length - 4)) = baseOf headOf addr count p

theorem IndexStream.low_lt (s : IndexStream E n headOf addr count) {k : Nat} (hk : k < n)
    (h : (E k).typ = zLclusterNonhead) : (E k).u &&& 0xffff < 4096 := by
  have hlt := (s.nonhead_iff k hk).mp h
  have hcount := s.count_lt (headOf k)
  rcases s.cases k with hhead | hfirst | hlater
  · omega
  · rw [s.first_nonhead k hk hfirst]
    omega
  · rw [s.later_nonhead k hk hlater]
    omega

theorem IndexStream.baseOf_lt (s : IndexStream E n headOf addr count) (p : Nat) :
    baseOf headOf addr count p < 2 ^ 32 := by
  rw [baseOf]
  split
  · exact s.addr_lt p
  · split
    · exact s.addr_lt _
    · exact Nat.mod_lt _ (by decide)

/-- **A written pack reads back.** -/
theorem writePack_reads (s : IndexStream E n headOf addr count) {p vcnt destSize : Nat}
    (hshape : PackShape vcnt destSize) (hp : p < n) (es : List ZIndexEntry)
    (hes : ∀ j, j < vcnt → p + j < n → es[j]? = some (E (p + j)))
    (hlen : es.length ≤ vcnt) (hin : p + es.length ≤ n) {st : CompactState}
    (hst : WriterAt headOf addr count p st) :
    PackReads E n headOf addr count p vcnt destSize (writePack vcnt destSize es st).1 ∧
      (es.length = vcnt →
        WriterAt headOf addr count (p + vcnt) (writePack vcnt destSize es st).2) := by
  obtain ⟨hv2, hv16, hsize, heb14, heb16, hebv⟩ := hshape.facts
  -- the entries with the filling, and the state and bits the loop leaves
  generalize hfull : es ++ replicate (vcnt - es.length) ({} : ZIndexEntry) = full
  have hfullLen : full.length = vcnt := by
    rw [← hfull, length_append, length_replicate]
    omega
  have hfullGet : ∀ j, j < vcnt → p + j < n → full[j]? = some (E (p + j)) := by
    intro j hj hjn
    have hget := hes j hj hjn
    have hlt : j < es.length := (List.getElem?_eq_some_iff.mp hget).1
    rw [← hfull, getElem?_append_left hlt]
    exact hget
  generalize hst0 : (⟨⟨st.blkaddr, st.dummyHead⟩, st.blkaddr, true⟩ : PackState) = st0
  generalize hr : packLoop vcnt (encodeBits vcnt destSize) 0 full st0
    (replicate (vcnt * destSize) 0) = r
  have hwrite : writePack vcnt destSize es st =
      (r.1.take (vcnt * destSize - 4) ++ leBytes 4 r.2.base, r.2.toCompactState) := by
    rw [← hr, ← hfull, ← hst0]
    rfl
  have hrlen : r.1.length = vcnt * destSize := by
    rw [← hr, length_packLoop, length_replicate]
  have htake : (r.1.take (vcnt * destSize - 4)).length = vcnt * destSize - 4 := by
    rw [length_take, hrlen]
    omega
  have hw0 : WriterAt headOf addr count p st0.toCompactState := by
    rw [← hst0]
    exact hst
  have hbase : BaseSet headOf addr count p r.2 := by
    -- the first record sets the base, the others keep it
    have h0 := hfullGet 0 (by omega) (by omega)
    cases hcase : full with
    | nil =>
      rw [hcase] at hfullLen
      simp at hfullLen
      omega
    | cons e rest =>
      have he : e = E p := by
        rw [hcase] at h0
        simpa using h0
      rw [← hr, hcase, packLoop]
      refine packLoop_baseSet _ _ _ ?_
      rw [he]
      refine packOffset_baseSet s hp hw0 ?_ ?_ _
      · rw [← hst0]
      · rw [← hst0]
  rw [hwrite]
  refine ⟨⟨?_, ?_, ?_⟩, ?_⟩
  · rw [length_append, htake, length_leBytes]
    omega
  · intro j hj hjn
    have htyp := s.typ_le (p + j) hjn
    have hofs := s.clusterofs_eq (p + j) hjn
    have hoff : entryOffset (j + 1 = vcnt) (E (p + j)) < 4096 :=
      entryOffset_lt (by omega) (s.low_lt hjn)
    obtain ⟨hval, hdt, hdo⟩ := decode_value htyp hoff
    have hpow : 2 ^ 14 ≤ 2 ^ encodeBits vcnt destSize := Nat.pow_le_pow_right (by omega) heb14
    have hmul : encodeBits vcnt destSize * (j + 1) ≤ encodeBits vcnt destSize * vcnt :=
      Nat.mul_le_mul_left _ (by omega)
    rw [Nat.mul_add, Nat.mul_one] at hmul
    have hfield : takeBits (r.1.take (vcnt * destSize - 4) ++ leBytes 4 r.2.base)
        (encodeBits vcnt destSize * j) (encodeBits vcnt destSize) =
        recordValue vcnt j (E (p + j)) := by
      refine takeBits_eq (by omega) (by rw [recordValue]; omega) ?_
      intro b hb
      have hbyte : (encodeBits vcnt destSize * j + b) / 8 < vcnt * destSize - 4 := by omega
      have hbit : bitAt (packLoop vcnt (encodeBits vcnt destSize) 0 full st0
          (replicate (vcnt * destSize) 0)).1 (encodeBits vcnt destSize * (0 + j) + b) =
          (recordValue vcnt (0 + j) (E (p + j))).testBit b := bitAt_packLoop_record st0 _
        (by rw [length_replicate, Nat.zero_add, hfullLen]; omega)
        (fun b _ => bitAt_replicate_zero _ b) (hfullGet j hj hjn) hb
      rw [hr, Nat.zero_add] at hbit
      rw [bitAt_append_left (by rw [htake]; exact hbyte), ← hbit, bitAt, bitAt,
        getD_eq_getElem?_getD, getD_eq_getElem?_getD, getElem?_take_of_lt hbyte]
    simp only [decodeCompactBits, hfield, recordValue, hdt, hdo]
  · have hdrop : (r.1.take (vcnt * destSize - 4) ++ leBytes 4 r.2.base).length - 4
        = (r.1.take (vcnt * destSize - 4)).length := by
      rw [length_append, length_leBytes]
      omega
    have hlt := s.baseOf_lt p
    rw [hdrop, drop_left, leNat_leBytes, hbase.base_eq]
    exact Nat.mod_eq_of_lt hlt
  · intro hfullpack
    have hes' : full = es := by
      rw [← hfull, hfullpack, Nat.sub_self, replicate_zero, append_nil]
    have hw : WriterAt headOf addr count (p + full.length) r.2.toCompactState := by
      rw [← hr]
      apply packLoop_writerAt s 0 (replicate (vcnt * destSize) 0) _ (by omega) hw0
      intro j e hj
      have hlt : j < full.length := (List.getElem?_eq_some_iff.mp hj).1
      have hget := hfullGet j (by omega) (by omega)
      rw [hj] at hget
      exact Option.some.inj hget
    rw [hfullLen] at hw
    exact hw

end

end Orchestrator.Erofs

/-
  Orchestrator.Erofs.ZCompactRead

  Reading the compacted index: what `zCompactIndex` gets back for a logical
  cluster from the packs of `ZCompact`, and where the walk to its HEAD ends.

  The block counts add up only as far as the index carries them.  The flag of the
  block count is also the value of a count of 2048, which is read as 0; such an
  extent is only possible with blocks of 512 bytes, and every HEAD behind it is
  read with a wrong address.
-/

import Orchestrator.Erofs.ZCompact

namespace Orchestrator.Erofs

open Lib Lib.Exec List

section

variable {E : Nat → ZIndexEntry} {n : Nat} {headOf addr count : Nat → Nat}

theorem u32_add_u32 (a b : Nat) : u32 (a + u32 b) = u32 (a + b) := by
  rw [u32, u32, u32]
  omega

theorem u32_u32_add (a b : Nat) : u32 (u32 a + b) = u32 (a + b) := by
  rw [u32, u32, u32]
  omega

theorem u32_of_lt {a : Nat} (h : a < 2 ^ 32 := by omega) : u32 a = a := Nat.mod_eq_of_lt h

/-! ## Reading a position -/

/-- An index read for position `k`: the type and address of a HEAD, the block count
    of the first NONHEAD, and a distance that stays inside the extent. -/
structure Decodes (E : Nat → ZIndexEntry) (headOf addr count : Nat → Nat) (k : Nat)
    (e : LIndex) : Prop where
  typ_eq : e.advise = (E k).typ
  clusterofs_eq : e.clusterofs = 0
  head : headOf k = k → e.u = addr k
  first : headOf k + 1 = k → e.u = 2048 + count (headOf k)
  later : headOf k + 2 ≤ k → e.u < 2 ^ 16 ∧ 1 ≤ e.distance ∧ e.distance ≤ k - headOf k

theorem LIndex.distance_of_lt {e : LIndex} (h : e.u < 2048) : e.distance = e.u := by
  simp only [LIndex.distance, low_of_lt (show e.u < 2 ^ 16 by omega), and_blkcnt_lt h]
  rfl

theorem LIndex.distance_blkcnt {e : LIndex} {c : Nat} (h : e.u &&& 0xffff = 2048 + c)
    (hc : c < 2048) : e.distance = 1 := by
  simp only [LIndex.distance, h, and_blkcnt_add hc]
  rfl

/-- A NONHEAD behind the first has a distance only. -/
theorem Decodes.of_later {k typ u : Nat} (htyp : typ = (E k).typ) (hlater : headOf k + 2 ≤ k)
    (hpos : 1 ≤ u) (hmax : u ≤ 2048) (hle : u ≤ k - headOf k) :
    Decodes E headOf addr count k ⟨typ, 0, u⟩ := by
  refine ⟨htyp, rfl, fun _ => by omega, fun _ => by omega, fun _ => ⟨by simp only; omega, ?_⟩⟩
  rcases Nat.lt_or_ge u 2048 with hlt | hge
  · rw [LIndex.distance_of_lt hlt]
    exact ⟨hpos, hle⟩
  -- a saturated distance and one more falls on the flag: one step back
  obtain rfl : u = 2048 := by omega
  rw [LIndex.distance_blkcnt (c := 0) (by simp only; rfl) (by omega)]
  omega

variable {p vcnt destSize num : Nat} {pack mid : List UInt8}

section

variable (s : IndexStream E n headOf addr count)
include s

theorem entryOffset_first {k : Nat} (hk : k < n)
    (h : headOf k + 1 = k) (last : Bool) :
    entryOffset last (E k) = 2048 + count (headOf k) := by
  have hnon : (E k).typ = zLclusterNonhead := (s.nonhead_iff k hk).mpr (by omega)
  rw [entryOffset, packOffset_first hnon (s.first_nonhead k hk h) (s.count_lt _)]

theorem entryOffset_later {k : Nat} (hk : k < n)
    (h : headOf k + 2 ≤ k) (last : Bool) :
    entryOffset last (E k) =
      if last then min ((E k).u >>> 16) 2047 else min (k - headOf k) 2047 := by
  have hnon : (E k).typ = zLclusterNonhead := (s.nonhead_iff k hk).mpr (by omega)
  rw [entryOffset, packOffset_later hnon (s.later_nonhead k hk h)]

/-- The last record of a pack is read through the one before it. -/
theorem deltaAfter_spec {k : Nat} (hk : k + 1 < n)
    (h : headOf (k + 1) + 2 ≤ k + 1) :
    let d := deltaAfter ((E k).typ, entryOffset false (E k))
    2 ≤ d ∧ d ≤ 2048 ∧ d ≤ k + 1 - headOf (k + 1) := by
  have hsame := s.same_head k hk (by omega)
  have hnon : (E k).typ = zLclusterNonhead := (s.nonhead_iff k (by omega)).mpr (by omega)
  rcases s.cases k with hhead | hfirst | hlater
  · omega
  · have hand := and_blkcnt_add (s.count_lt (headOf k))
    have hval : deltaAfter ((E k).typ, entryOffset false (E k)) = 2 := by
      rw [entryOffset_first s (by omega) hfirst, hnon, deltaAfter]
      simp only [hand]
      rfl
    simp only [hval]
    omega
  · have hand := and_blkcnt_lt (d := min (k - headOf k) 2047)
    have hval : deltaAfter ((E k).typ, entryOffset false (E k)) = min (k - headOf k) 2047 + 1 := by
      rw [entryOffset_later s (by omega) hlater, hnon, if_neg (by simp), deltaAfter]
      simp only [hand]
      rfl
    simp only [hval]
    omega

section

variable (hpack : PackReads E n headOf addr count p vcnt destSize pack)
include hpack

theorem sumBlocksStep_first {j : Nat} (hj : j < vcnt)
    (hjn : p + j < n) (h : headOf (p + j) + 1 = p + j) (acc : Nat) :
    sumBlocksStep pack (encodeBits vcnt destSize) ((j : Int) + 1, acc) =
      .ok (.next ((j : Int) - 1, u32 (acc + count (headOf (p + j))))) := by
  have hnon : (E (p + j)).typ = zLclusterNonhead := (s.nonhead_iff _ hjn).mpr (by omega)
  have hrec := hpack.record j hj hjn
  have hidx : ((j : Int) + 1 - 1).toNat = j := by omega
  have hand := and_blkcnt_add (s.count_lt (headOf (p + j)))
  have hsub : 2048 + count (headOf (p + j)) - 2048 = count (headOf (p + j)) := by omega
  rw [entryOffset_first s hjn h] at hrec
  simp only [sumBlocksStep, hidx, hrec, hnon, hand]
  rw [if_pos (by omega), if_neg (by simp), if_pos (by decide), hsub, Int.add_sub_cancel]

/-- **The reader's sum of blocks leads from the base of the pack to the HEAD at
    record `i`.** -/
theorem sumBlocks_spec (hshape : PackShape vcnt destSize) {i : Nat} (hi : i < vcnt)
    (hin : p + i < n) (hhead : headOf (p + i) = p + i) (acc fuel : Nat) (hfuel : i < fuel) :
    ∃ r, loop (sumBlocksStep pack (encodeBits vcnt destSize)) fuel ((i : Int), acc) = .ok r ∧
      u32 (baseOf headOf addr count p + r) = u32 (addr (p + i) + acc) := by
  have hv16 := hshape.facts.2.1
  induction i using Nat.strongRecOn generalizing acc fuel with
  | _ i ih =>
    obtain ⟨f, rfl⟩ : ∃ f, fuel = f + 1 := ⟨fuel - 1, by omega⟩
    cases i with
    | zero =>
      refine ⟨acc, ?_, ?_⟩
      · rw [loop, sumBlocksStep, if_neg (by omega)]
        rfl
      · have h0 : headOf p = p := hhead
        rw [baseOf, if_pos h0]
        rfl
    | succ j =>
      have hpred : p + (j + 1) = p + j + 1 := by omega
      have haddr := s.addr_succ (p + j) (by omega) (by rw [← hpred]; exact hhead)
      rw [← hpred] at haddr
      have hcast : ((j + 1 : Nat) : Int) = (j : Int) + 1 := by omega
      have hidx : ((j : Int) + 1 - 1).toNat = j := by omega
      have hrec := hpack.record j (by omega) (by omega)
      -- from a state right behind the block count at record `c` of this extent
      have hcount : ∀ c acc f, c + 1 ≤ j + 1 → headOf (p + c) = headOf (p + j) →
          headOf (p + c) + 1 = p + c → headOf (p + j) ≠ p + j → c + 1 < f →
          ∃ r, loop (sumBlocksStep pack (encodeBits vcnt destSize)) f ((c : Int) + 1, acc)
            = .ok r ∧ u32 (baseOf headOf addr count p + r) = u32 (addr (p + (j + 1)) + acc) := by
        intro c acc f hc hsame hfirst hne hf
        obtain ⟨g, rfl⟩ : ∃ g, f = g + 1 := ⟨f - 1, by omega⟩
        rw [loop, sumBlocksStep_first s hpack (by omega) (by omega) hfirst]
        show ∃ r, loop _ g _ = .ok r ∧ _
        rw [if_neg hne] at haddr
        cases c with
        | zero =>
          -- the HEAD stands right before the pack
          have hbase : baseOf headOf addr count p = addr (headOf p) := by
            have h0 : headOf p + 1 = p := hfirst
            rw [baseOf, if_neg (by omega), if_pos h0]
          have h0 : headOf (p + 0) = headOf p := rfl
          refine ⟨u32 (acc + count (headOf (p + 0))), ?_, ?_⟩
          · cases g with
            | zero => omega
            | succ g =>
              rw [loop, sumBlocksStep, if_neg (by simp)]
              rfl
          · rw [hbase, haddr, ← hsame, h0, u32_add_u32, u32_u32_add]
            congr 1
            omega
        | succ c =>
          have hh : headOf (p + c) = p + c := by
            have hb := s.headOf_between (k := p + (c + 1)) (m := p + c)
            omega
          have hcc : ((c + 1 : Nat) : Int) - 1 = (c : Int) := by omega
          obtain ⟨r, hr, hsum⟩ := ih c (by omega) (by omega) (by omega) hh
            (u32 (acc + count (headOf (p + (c + 1))))) g (by omega)
          refine ⟨r, by rw [hcc]; exact hr, ?_⟩
          have hheadeq : headOf (p + (c + 1)) = p + c := by omega
          rw [hsum, haddr, ← hsame, hheadeq, u32_add_u32, u32_u32_add]
          congr 1
          omega
      rcases s.cases (p + j) with hprev | hfirst | hlater
      · -- a PLAIN cluster before this one stands for one block
        have hne : (E (p + j)).typ ≠ zLclusterNonhead := by
          intro hc
          have := (s.nonhead_iff _ (by omega)).mp hc
          omega
        obtain ⟨r, hr, hsum⟩ := ih j (by omega) (by omega) (by omega) hprev (u32 (acc + 1)) f
          (by omega)
        refine ⟨r, ?_, ?_⟩
        · rw [loop, hcast]
          simp only [sumBlocksStep, hidx, hrec]
          rw [if_pos (by omega), if_pos hne]
          have hj : (j : Int) + 1 - 1 = j := by omega
          rw [hj]
          exact hr
        · rw [if_pos hprev] at haddr
          rw [hsum, haddr, hprev, u32_add_u32, u32_u32_add]
          congr 1
          omega
      · rw [hcast]
        exact hcount j acc (f + 1) (by omega) rfl hfirst (by omega) (by omega)
      · -- jump back over the NONHEADs of the extent before
        have hnon : (E (p + j)).typ = zLclusterNonhead :=
          (s.nonhead_iff _ (by omega)).mpr (by omega)
        have hlast : decide (j + 1 = vcnt) = false := decide_eq_false (by omega)
        rw [entryOffset_later s (by omega) hlater, hlast, if_neg (by simp)] at hrec
        have hand := and_blkcnt_lt (d := min (p + j - headOf (p + j)) 2047)
        have hstep : sumBlocksStep pack (encodeBits vcnt destSize) ((j : Int) + 1, acc) =
            .ok (.next ((j : Int) + 2 - (min (p + j - headOf (p + j)) 2047 : Nat), acc)) := by
          simp only [sumBlocksStep, hidx, hrec, hnon, hand]
          rw [if_pos (by omega), if_neg (by simp), if_neg (by simp), if_neg (by omega)]
          congr 3
          omega
        rw [hcast, loop, hstep]
        show ∃ r, loop _ f _ = .ok r ∧ _
        by_cases hinside : p ≤ headOf (p + j) + 1
        · -- the block count is a record of this pack
          obtain ⟨c, hc⟩ : ∃ c, p + c = headOf (p + j) + 1 :=
            ⟨headOf (p + j) + 1 - p, by omega⟩
          have hsame : headOf (p + c) = headOf (p + j) :=
            s.headOf_between
          have hpos : (j : Int) + 2 - (min (p + j - headOf (p + j)) 2047 : Nat) = (c : Int) + 1 := by
            omega
          rw [hpos]
          exact hcount c acc f (by omega) hsame (by omega) (by omega) (by omega)
        · -- it is in an earlier pack, and the base has it already
          have hsame : headOf p = headOf (p + j) :=
            s.headOf_between
          have hbase : baseOf headOf addr count p =
              u32 (addr (headOf (p + j)) + count (headOf (p + j))) := by
            rw [baseOf, if_neg (by omega), if_neg (by omega), hsame]
          obtain ⟨g, rfl⟩ : ∃ g, f = g + 1 := ⟨f - 1, by omega⟩
          refine ⟨acc, ?_, ?_⟩
          · rw [loop, sumBlocksStep, if_neg (by simp only; omega)]
            rfl
          · rw [if_neg (by omega)] at haddr
            rw [hbase, haddr]

/-- **Every record of a pack decodes.** -/
theorem expandRecord_decodes (hshape : PackShape vcnt destSize) {i : Nat} (hi : i < vcnt)
    (hin : p + i < n) :
    ∃ e, expandRecord pack vcnt (encodeBits vcnt destSize) i = .ok e ∧
      Decodes E headOf addr count (p + i) e := by
  have hrec := hpack.record i hi hin
  have hnonhead := s.nonhead_iff (p + i) hin
  rcases s.cases (p + i) with hhead | hfirst | hlater
  · -- a HEAD or PLAIN: its address is the sum of the blocks before it
    have hne : (E (p + i)).typ ≠ zLclusterNonhead := by
      intro hc
      have := hnonhead.mp hc
      omega
    obtain ⟨r, hr, hsum⟩ := sumBlocks_spec s hpack hshape hi hin hhead 0 (i + 1) (by omega)
    have hofs : entryOffset (i + 1 = vcnt) (E (p + i)) = 0 := by
      rw [entryOffset, packOffset_head hne]
      exact s.clusterofs_eq _ hin
    refine ⟨⟨(E (p + i)).typ, 0, u32 (baseOf headOf addr count p + r)⟩, ?_, rfl, rfl, ?_,
      fun _ => by omega, fun _ => by omega⟩
    · rw [hofs] at hrec
      simp only [expandRecord, hrec]
      rw [if_neg hne, hr]
      show Except.ok _ = _
      rw [hpack.base]
    · intro _
      rw [hsum, Nat.add_zero, u32_of_lt (s.addr_lt _)]
  · -- the block count
    have hnon : (E (p + i)).typ = zLclusterNonhead := hnonhead.mpr (by omega)
    have hand := and_blkcnt_add (s.count_lt (headOf (p + i)))
    rw [entryOffset_first s hin hfirst] at hrec
    refine ⟨⟨(E (p + i)).typ, 0, 2048 + count (headOf (p + i))⟩, ?_, rfl, rfl, fun _ => by omega,
      fun _ => rfl, fun _ => by omega⟩
    simp only [expandRecord, hrec]
    rw [if_pos hnon, hand, if_pos (by decide)]
    rfl
  · have hnon : (E (p + i)).typ = zLclusterNonhead := hnonhead.mpr (by omega)
    by_cases hlast : i + 1 = vcnt
    · -- the last record: its distance is that of the record before it and one
      obtain ⟨j, rfl⟩ : ∃ j, i = j + 1 := ⟨i - 1, by have := hshape.facts.1; omega⟩
      have hprev := hpack.record j (by omega) (by omega)
      have hnotlast : decide (j + 1 = vcnt) = false := decide_eq_false (by omega)
      have hpos : p + (j + 1) = p + j + 1 := by omega
      obtain ⟨hlow, hhigh, hinside⟩ := deltaAfter_spec s (k := p + j) (by omega) (by omega)
      rw [← hpos] at hinside
      rw [entryOffset_later s hin hlater, hlast, decide_eq_true rfl, if_pos rfl] at hrec
      rw [hnotlast] at hprev
      have hand := and_blkcnt_lt (d := min ((E (p + (j + 1))).u >>> 16) 2047) (by omega)
      refine ⟨⟨(E (p + (j + 1))).typ, 0, deltaAfter ((E (p + j)).typ, entryOffset false (E (p + j)))⟩,
        ?_, .of_later rfl hlater (by omega) hhigh hinside⟩
      simp only [expandRecord, hrec, Nat.add_sub_cancel, hprev]
      rw [if_pos hnon, hand, if_neg (by simp), if_pos hlast]
      rfl
    · have hnotlast : decide (i + 1 = vcnt) = false := decide_eq_false hlast
      rw [entryOffset_later s hin hlater, hnotlast, if_neg (by simp)] at hrec
      have hand := and_blkcnt_lt (d := min (p + i - headOf (p + i)) 2047)
      refine ⟨⟨(E (p + i)).typ, 0, min (p + i - headOf (p + i)) 2047⟩, ?_,
        .of_later rfl hlater (by omega) (by omega) (by omega)⟩
      simp only [expandRecord, hrec]
      rw [if_pos hnon, hand, if_neg (by simp), if_neg hlast]
      rfl

end

/-! ## The packs of a section -/

structure PacksRead (E : Nat → ZIndexEntry) (n : Nat) (headOf addr count : Nat → Nat)
    (p vcnt destSize num : Nat) (bytes : List UInt8) : Prop where
  length_eq : bytes.length = num * (vcnt * destSize)
  pack : ∀ c, c < num → PackReads E n headOf addr count (p + c * vcnt) vcnt destSize
    ((bytes.drop (c * (vcnt * destSize))).take (vcnt * destSize))

/-- **The packs of a section read back**, when they hold all their entries or the
    index ends with them; full packs leave the writer behind the last entry. -/
theorem writePacks_read (hshape : PackShape vcnt destSize) (num : Nat) (es : List ZIndexEntry)
    {p : Nat} {st : CompactState} (hes : ∀ j, j < es.length → es[j]? = some (E (p + j)))
    (hlen : es.length ≤ num * vcnt) (hmany : num * vcnt < es.length + vcnt)
    (hend : es.length = num * vcnt ∨ p + es.length = n) (hin : 0 < num → p + es.length ≤ n)
    (hst : 0 < num → WriterAt headOf addr count p st) :
    PacksRead E n headOf addr count p vcnt destSize num (writePacks vcnt destSize num es st).1 ∧
      (WriterAt headOf addr count p st → es.length = num * vcnt →
        WriterAt headOf addr count (p + es.length) (writePacks vcnt destSize num es st).2) := by
  have hv2 := hshape.facts.1
  induction num generalizing es p st with
  | zero =>
    have hnil : es.length = 0 := by omega
    refine ⟨⟨?_, fun c hc => by omega⟩, fun hst _ => ?_⟩
    · rw [writePacks, Nat.zero_mul]
      rfl
    · rw [hnil]
      exact hst
  | succ num ih =>
    have hmul : (num + 1) * vcnt = num * vcnt + vcnt := Nat.succ_mul _ _
    have htake : (es.take vcnt).length = min vcnt es.length := length_take
    have hdrop : (es.drop vcnt).length = es.length - vcnt := length_drop
    -- the first pack is full unless it is the last one
    have hfull : num = 0 ∧ num * vcnt = 0 ∨ vcnt ≤ num * vcnt := by
      rcases Nat.eq_zero_or_pos num with rfl | hpos
      · exact .inl ⟨rfl, Nat.zero_mul vcnt⟩
      · exact .inr (Nat.le_mul_of_pos_left vcnt hpos)
    have hin := hin (Nat.succ_pos num)
    obtain ⟨hfirst, hnext⟩ := writePack_reads s hshape (show p < n by omega) (es.take vcnt)
      (fun j hj hjn => by
        rw [getElem?_take_of_lt hj]
        exact hes j (by omega)) (by omega) (by omega) (hst (Nat.succ_pos num))
    have hw : writePacks vcnt destSize (num + 1) es st =
        ((writePack vcnt destSize (es.take vcnt) st).1 ++
          (writePacks vcnt destSize num (es.drop vcnt)
            (writePack vcnt destSize (es.take vcnt) st).2).1,
        (writePacks vcnt destSize num (es.drop vcnt)
          (writePack vcnt destSize (es.take vcnt) st).2).2) := rfl
    have hrest : ∀ j, j < (es.drop vcnt).length →
        (es.drop vcnt)[j]? = some (E (p + vcnt + j)) := by
      intro j hj
      rw [getElem?_drop, hes (vcnt + j) (by omega)]
      congr 2
      omega
    obtain ⟨hpacks, hstate⟩ := ih (es.drop vcnt) hrest (by omega) (by omega) (by omega)
      (fun _ => by omega) (fun _ => hnext (by omega))
    rw [hw]
    refine ⟨⟨?_, ?_⟩, ?_⟩
    · rw [length_append, hfirst.length_eq, hpacks.length_eq, Nat.succ_mul num]
      omega
    · intro c hc
      cases c with
      | zero =>
        rw [Nat.zero_mul, Nat.zero_mul, Nat.add_zero, drop_zero,
          take_append_of_le_length (by rw [hfirst.length_eq]),
          take_of_length_le (by rw [hfirst.length_eq])]
        exact hfirst
      | succ c =>
        have hpos : p + (c + 1) * vcnt = p + vcnt + c * vcnt := by
          rw [Nat.succ_mul]
          omega
        have hoff : (c + 1) * (vcnt * destSize) =
            (writePack vcnt destSize (es.take vcnt) st).1.length + c * (vcnt * destSize) := by
          rw [hfirst.length_eq, Nat.succ_mul]
          omega
        rw [hpos, hoff, drop_length_add_append]
        exact hpacks.pack c (by omega)
    · intro _ heq
      have hpos : p + es.length = p + vcnt + (es.drop vcnt).length := by omega
      rw [hpos]
      exact hstate (hnext (by omega)) (by omega)

end

/-! ## The whole index -/

theorem align8_mod (pos : Nat) : align8 pos % 8 = 0 := by
  rw [align8]
  omega

theorem compactIndexStart_mod (nid coreSize xattrSize : Nat) :
    compactIndexStart nid coreSize xattrSize % 8 = 0 := by
  have h := align8_mod (nid * sizeInodeCompact + coreSize + xattrSize)
  have hhdr : zMapHeaderSize = 8 := rfl
  rw [compactIndexStart, hhdr]
  omega

theorem compactInitial_spec {start : Nat} (h : start % 8 = 0) (n : Nat) :
    compactInitial start n % 2 = 0 ∧ compactInitial start n ≤ n := by
  rw [compactInitial]
  split
  · omega
  · omega

theorem compactMiddle_spec {initial n : Nat} (h : initial ≤ n) :
    compactMiddle initial n % 16 = 0 ∧ initial + compactMiddle initial n ≤ n := by
  rw [compactMiddle]
  split
  · omega
  · omega

/-- The place of a cluster in the bytes of the index: the pack `packPos` names. -/
structure PackAt (E : Nat → ZIndexEntry) (n : Nat) (headOf addr count : Nat → Nat) (lcn : Nat)
    (pos : PackPos) (bytes : List UInt8) : Prop where
  shape : PackShape pos.vcnt pos.destSize
  i_lt : pos.i < pos.vcnt
  i_le : pos.i ≤ lcn
  fits : pos.start + pos.vcnt * pos.destSize ≤ bytes.length
  reads : PackReads E n headOf addr count (lcn - pos.i) pos.vcnt pos.destSize
    ((bytes.drop pos.start).take (pos.vcnt * pos.destSize))

theorem PacksRead.packAt (h : PacksRead E n headOf addr count p vcnt destSize num mid)
    (hshape : PackShape vcnt destSize) {k : Nat} (hk : k < num * vcnt) (before after : List UInt8) :
    PackAt E n headOf addr count (p + k)
      ⟨before.length + k / vcnt * (vcnt * destSize), k % vcnt, vcnt, destSize⟩
      (before ++ mid ++ after) := by
  have hv : 0 < vcnt := by have := hshape.facts.1; omega
  have hc : k / vcnt < num := (Nat.div_lt_iff_lt_mul hv).mpr hk
  have hmul : (k / vcnt + 1) * (vcnt * destSize) ≤ num * (vcnt * destSize) :=
    Nat.mul_le_mul_right _ hc
  rw [Nat.succ_mul] at hmul
  have hlen := h.length_eq
  have hdm := Nat.div_add_mod k vcnt
  have hpos : p + k - k % vcnt = p + k / vcnt * vcnt := by
    rw [Nat.mul_comm] at hdm
    omega
  refine ⟨hshape, Nat.mod_lt _ hv, ?_, ?_, ?_⟩
  · simp only
    omega
  · simp only [length_append]
    omega
  · simp only
    rw [hpos, append_assoc, drop_length_add_append,
      drop_append_of_le_length (by omega), take_append_of_le_length
        (by rw [length_drop]; omega)]
    exact h.pack _ hc

/-- **The written index holds the pack of every cluster**, and has the length that
    was reserved for it. -/
theorem writeZCompactIndexes_packs (s : IndexStream E n headOf addr count) {start : Nat}
    (hstart : start % 8 = 0) {entries : List ZIndexEntry} (hn : entries.length = n)
    (hE : ∀ k, k < n → entries[k]? = some (E k)) {blkaddr : Nat} (hblk : blkaddr = addr 0) :
    (writeZCompactIndexes start blkaddr entries).length = zCompactIndexSize start n ∧
      ∀ lcn, lcn < n → PackAt E n headOf addr count lcn
        (packPos (compactInitial start n) (compactMiddle (compactInitial start n) n) lcn)
        (writeZCompactIndexes start blkaddr entries) := by
  have hi := compactInitial_spec hstart n
  generalize hinitial : compactInitial start n = initial at hi ⊢
  have hm := compactMiddle_spec (show initial ≤ n by omega)
  generalize hmiddle : compactMiddle initial n = middle at hm ⊢
  have hst0 : WriterAt headOf addr count 0 ⟨blkaddr, false⟩ := by
    refine ⟨?_, ?_, ?_⟩
    · exact ⟨fun hc => absurd hc (by simp), fun hc => by omega⟩
    · intro hc
      simp at hc
    · intro _
      rw [nextAddr, if_pos rfl, hblk]
  have hshape2 : PackShape 2 4 := ⟨.inl ⟨rfl, rfl⟩⟩
  have hshape16 : PackShape 16 2 := ⟨.inr ⟨rfl, rfl⟩⟩
  -- the pairs that align the packs of sixteen
  have hlen1 : (entries.take initial).length = initial := by
    rw [length_take]
    omega
  have h1 := writePacks_read s hshape2 ((initial + 1) / 2) (entries.take initial) (p := 0)
    (fun j hj => by
      rw [getElem?_take_of_lt (by omega), hE j (by omega), Nat.zero_add])
    (by omega) (by omega) (.inl (by omega)) (fun _ => by omega) (fun _ => hst0)
  generalize hr1 : writePacks 2 4 _ _ _ = r1 at h1
  rw [hlen1, Nat.zero_add] at h1
  obtain ⟨hread1, hstate1⟩ := h1
  -- the packs of sixteen
  have hlen2 : ((entries.drop initial).take middle).length = middle := by
    rw [length_take, length_drop]
    omega
  have h2 := writePacks_read s hshape16 (middle / 16)
    ((entries.drop initial).take middle) (p := initial)
    (fun j hj => by
      rw [getElem?_take_of_lt (by omega), getElem?_drop, hE (initial + j) (by omega)])
    (by omega) (by omega) (.inl (by omega)) (fun _ => by omega) (fun _ => hstate1 hst0 (by omega))
  generalize hr2 : writePacks 16 2 _ _ _ = r2 at h2
  rw [hlen2] at h2
  obtain ⟨hread2, hstate2⟩ := h2
  -- the pairs of the tail
  have hlen3 : (entries.drop (initial + middle)).length = n - (initial + middle) := by
    rw [length_drop, hn]
  have h3 := writePacks_read s hshape2 ((n - (initial + middle) + 1) / 2)
    (entries.drop (initial + middle)) (p := initial + middle)
    (fun j hj => by rw [getElem?_drop, hE (initial + middle + j) (by omega)])
    (by omega) (by omega) (.inr (by omega)) (fun _ => by omega)
    (fun _ => hstate2 (hstate1 hst0 (by omega)) (by omega))
  generalize hr3 : writePacks 2 4 _ _ _ = r3 at h3
  obtain ⟨hread3, -⟩ := h3
  have hbytes : writeZCompactIndexes start blkaddr entries = r1.1 ++ r2.1 ++ r3.1 := by
    rw [← hr3, ← hlen3, ← hr2, ← hr1, ← hmiddle, ← hinitial, ← hn]
    rfl
  have hl1 := hread1.length_eq
  have hl2 := hread2.length_eq
  have hl3 := hread3.length_eq
  rw [hbytes]
  constructor
  · rw [length_append, length_append, zCompactIndexSize, hinitial, hmiddle]
    omega
  · intro lcn hlcn
    rw [packPos]
    by_cases hin1 : lcn < initial
    · have hat := hread1.packAt hshape2 (k := lcn) (by omega) [] (r2.1 ++ r3.1)
      rw [if_pos hin1]
      simpa using hat
    rw [if_neg hin1]
    by_cases hin2 : lcn < initial + middle
    · have hat := hread2.packAt hshape16 (k := lcn - initial) (by omega) r1.1 r3.1
      have hpos : initial + (lcn - initial) = lcn := by omega
      have hlen : r1.1.length = initial * 4 := by omega
      rw [if_pos hin2]
      rw [hpos, hlen] at hat
      exact hat
    · have hat := hread3.packAt hshape2 (k := lcn - initial - middle) (by omega) (r1.1 ++ r2.1) []
      have hpos : initial + middle + (lcn - initial - middle) = lcn := by omega
      have hlen : (r1.1 ++ r2.1).length = initial * 4 + middle * 2 := by
        rw [length_append]
        omega
      rw [if_neg hin2]
      rw [hpos, hlen, append_nil] at hat
      exact hat

/-- **`zCompactIndex` decodes every cluster of an index in an image.** -/
theorem zCompactIndex_decodes (s : IndexStream E n headOf addr count) {start : Nat}
    (hstart : start % 8 = 0) {entries : List ZIndexEntry} (hn : entries.length = n)
    (hE : ∀ k, k < n → entries[k]? = some (E k)) {blkaddr : Nat} (hblk : blkaddr = addr 0)
    {img : Image} {z : ZRead} {before after : List UInt8}
    (hdata : img.data = before ++ writeZCompactIndexes start blkaddr entries ++ after)
    (hidx : z.idxStart = before.length) (hmod : before.length % 32 = start % 32)
    (hnIdx : z.nIdx = n) {lcn : Nat} (hlcn : lcn < n) :
    ∃ e, img.zCompactIndex z lcn = .ok e ∧ Decodes E headOf addr count lcn e := by
  have hat := (writeZCompactIndexes_packs s hstart hn hE hblk).2 lcn hlcn
  generalize writeZCompactIndexes start blkaddr entries = bytes at hat hdata
  have hini : compactInitial z.idxStart.toNat n = compactInitial start n := by
    rw [hidx, Int.toNat_natCast, compactInitial, compactInitial, hmod]
  have hmid : z.nIdx.toNat = n := by rw [hnIdx, Int.toNat_natCast]
  generalize hpos : packPos _ _ lcn = pos at hat
  have hread : img.readAt (pos.vcnt * pos.destSize) (z.idxStart + pos.start) =
      .ok ((bytes.drop pos.start).take (pos.vcnt * pos.destSize)) := by
    have hfits := hat.fits
    have hnat : (z.idxStart + (pos.start : Int)).toNat = before.length + pos.start := by omega
    rw [Image.readAt, hnat, hdata, if_pos ⟨by omega, by simp only [length_append]; omega⟩,
      append_assoc, drop_length_add_append, drop_append_of_le_length (by omega),
      take_append_of_le_length (by rw [length_drop]; omega)]
  have hcl : lcn - pos.i + pos.i = lcn := by
    have := hat.i_le
    omega
  obtain ⟨e, he, hdec⟩ := expandRecord_decodes s hat.reads hat.shape hat.i_lt (by omega)
  rw [hcl] at hdec
  refine ⟨e, ?_, hdec⟩
  simp only [Image.zCompactIndex, hini, hmid, hpos, hread]
  exact he

end

end Orchestrator.Erofs

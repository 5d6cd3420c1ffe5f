/-
  Orchestrator.Erofs.ZWalk

  When reading a block of an indexed inode comes to an end, for any content of the
  index.

  Two walks follow the distances in the index.  The first one, from the cluster
  itself, refuses a distance of 0, so it goes down with every step and ends on any
  bytes.  The second one, behind a boundary marker, takes the distance as it is: it
  ends unless it comes to a NONHEAD index with a distance of 0, where it stays for
  ever (`stalls_iff_endless`).
-/

import Orchestrator.Erofs.ZRead

namespace Orchestrator.Erofs

open Lib Lib.Exec

/-- `m` comes to an end, with a value or an error. -/
def Ends {α : Type} (m : Except ZError α) : Prop := Runs (· ≠ ZError.fuel) m fun _ => True

theorem ends_iff {α : Type} {m : Except ZError α} : Ends m ↔ m ≠ .error .fuel := by
  constructor
  · rintro (⟨a, rfl, -⟩ | ⟨e, rfl, he⟩) h
    · cases h
    · cases h
      exact he rfl
  · intro h
    cases m with
    | ok a => exact runs_ok trivial
    | error e => exact runs_error fun he => h (by rw [he])

/-- Errors that are neither a negative position nor a panic. -/
def ZError.Within (e : ZError) : Prop := (∀ pos, e ≠ .negative pos) ∧ e ≠ .bounds

/-- Errors of what comes to an end, and within bounds where `low` holds. -/
def ZError.Fine (low : Prop) (e : ZError) : Prop := e ≠ .fuel ∧ (low → e.Within)

/-- The errors that say what is wrong with the image. -/
def ZError.isPlain : ZError → Bool
  | .negative _ | .bounds | .fuel => false
  | _ => true

section

variable {α : Type} {low low' : Prop} {m : Except ZError α} {Q : α → Prop}

theorem runs_fine {e : ZError} (h : e.isPlain = true) : Runs (ZError.Fine low) (.error e) Q := by
  refine runs_error ⟨?_, fun _ => ⟨fun pos => ?_, ?_⟩⟩ <;> rintro rfl <;> cases h

theorem fine_mono (h : Runs (ZError.Fine low) m Q) (hlow : low' → low) :
    Runs (ZError.Fine low') m Q :=
  h.mono_error fun _ he => ⟨he.1, fun h' => he.2 (hlow h')⟩

theorem ends_of_fine (h : Runs (ZError.Fine low) m Q) : Ends m :=
  (h.mono_error fun _ he => he.1).mono fun _ _ => trivial

end

/-! ## Reading one index -/

theorem int64_eq_self {x : Int} (hlo : -2 ^ 63 ≤ x) (hhi : x < 2 ^ 63) : int64 x = x := by
  rw [int64]
  apply Int.bmod_eq_of_le <;> omega

theorem Image.readAt_fine (img : Image) (n : Nat) (pos : Int) :
    Runs (ZError.Fine (0 ≤ pos ∧ pos < 2 ^ 63)) (img.readAt n pos) fun bytes => bytes.length = n := by
  have hlen : ∀ k : Nat, k + n ≤ img.data.length → ((img.data.drop k).take n).length = n := by
    intro k hk
    rw [List.length_take, List.length_drop]
    omega
  rw [Image.readAt]
  split
  · exact runs_ok (hlen _ (by omega))
  split
  · rename_i hneg
    refine runs_error ⟨by simp, fun hpos => ?_⟩
    rw [int64_eq_self (by omega) hpos.2] at hneg
    omega
  split
  · exact runs_ok (hlen _ (by omega))
  · exact runs_fine rfl

structure ZRead.Low (z : ZRead) : Prop where
  idxStart_nonneg : 0 ≤ z.idxStart
  idxStart_le : z.idxStart ≤ 2 ^ 62
  nIdx_le : z.nIdx ≤ 2 ^ 54

theorem packPos_start_le (initial middle lcn : Nat) :
    (packPos initial middle lcn).start ≤ 4 * initial + 4 * lcn + 2 * middle := by
  rw [packPos]
  split
  · simp only
    omega
  split
  · simp only
    omega
  · simp only
    omega

theorem deltaAfter_lt {prev : Nat × Nat} (h : prev.2 < 2 ^ 12) : deltaAfter prev < 2 ^ 32 := by
  rw [deltaAfter]
  split
  · omega
  split
  · omega
  · omega

theorem decodeCompactBits_lt (pack : List UInt8) (bitpos bits : Nat) :
    (decodeCompactBits pack bitpos bits).2 < 2 ^ 12 := by
  have h := Nat.and_le_right (n := takeBits pack bitpos bits) (m := 1 <<< 12 - 1)
  rw [decodeCompactBits]
  simp only at h ⊢
  omega

theorem u32_lt (x : Nat) : u32 x < 2 ^ 32 := Nat.mod_lt _ (by omega)

theorem leNat_take_lt (bs : List UInt8) (n : Nat) : leNat (bs.take n) < 256 ^ n := by
  have hlen : (bs.take n).length ≤ n := by
    rw [List.length_take]
    omega
  calc leNat (bs.take n) < 256 ^ (bs.take n).length := leNat_lt _
    _ ≤ 256 ^ n := Nat.pow_le_pow_right (by decide) hlen

/-- The sum over the records of a pack goes down with every record. -/
theorem expandRecord_fine (pack : List UInt8) (vcnt encodeBits i : Nat) (low : Prop) :
    Runs (ZError.Fine low) (expandRecord pack vcnt encodeBits i) fun e => e.u < 2 ^ 32 := by
  rw [expandRecord]
  have hlo := decodeCompactBits_lt pack (encodeBits * i) encodeBits
  have hprev := decodeCompactBits_lt pack (encodeBits * (i - 1)) encodeBits
  generalize decodeCompactBits pack (encodeBits * i) encodeBits = rec at hlo
  obtain ⟨typ, lo⟩ := rec
  simp only at hlo ⊢
  split
  · split
    · exact runs_pure (by simp only; omega)
    split
    · exact runs_pure (deltaAfter_lt hprev)
    · exact runs_pure (by simp only; omega)
  · have hsum : Runs (ZError.Fine low) (loop (sumBlocksStep pack encodeBits) (i + 1) ((i : Int), 0))
        fun _ => True := by
      apply loop_runs (fun _ => True) (fun s => s.1.toNat) ?_ trivial (by simp)
      rintro ⟨j, sum⟩ -
      rw [sumBlocksStep]
      simp only
      split
      · split
        · exact runs_ok ⟨trivial, by simp only; omega⟩
        split
        · exact runs_ok ⟨trivial, by simp only; omega⟩
        split
        · exact runs_fine rfl
        · exact runs_ok ⟨trivial, by simp only; omega⟩
      · exact runs_ok trivial
    exact Runs.bind hsum fun nblk _ => runs_pure (u32_lt _)

/-- Reading an index ends, and within bounds if the inode lies low. -/
theorem Image.zIndex_fine (img : Image) (z : ZRead) (lcn : Int) :
    Runs (ZError.Fine z.Low) (img.zIndex z lcn) fun e => e.u < 2 ^ 32 := by
  rw [Image.zIndex]
  by_cases hout : lcn < 0 ∨ z.nIdx ≤ lcn
  · rw [if_pos hout]
    exact runs_fine rfl
  rw [if_neg hout]
  by_cases hcompact : z.compact = true
  · rw [if_pos hcompact, Image.zCompactIndex]
    have hinitial : compactInitial z.idxStart.toNat z.nIdx.toNat ≤ 8 := by
      rw [compactInitial]
      split <;> omega
    have hmiddle : compactMiddle (compactInitial z.idxStart.toNat z.nIdx.toNat) z.nIdx.toNat ≤
        z.nIdx.toNat := by
      rw [compactMiddle]
      split <;> omega
    have hpack := packPos_start_le (compactInitial z.idxStart.toNat z.nIdx.toNat) (compactMiddle
      (compactInitial z.idxStart.toNat z.nIdx.toNat) z.nIdx.toNat) lcn.toNat
    apply Runs.bind (fine_mono (img.readAt_fine _ _) fun ⟨_, _, _⟩ => ⟨by omega, by omega⟩)
    intro pack _
    exact expandRecord_fine _ _ _ _ _
  · rw [if_neg hcompact, zLclusterIdxSize]
    apply Runs.bind (fine_mono (img.readAt_fine _ _) fun ⟨_, _, _⟩ => ⟨by omega, by omega⟩)
    intro buf _
    exact runs_pure (leNat_take_lt _ 4)

theorem Image.zIndex_ends (img : Image) (z : ZRead) (lcn : Int) : Ends (img.zIndex z lcn) :=
  ends_of_fine (img.zIndex_fine z lcn)

theorem Image.nonneg_of_zIndex {img : Image} {z : ZRead} {lcn : Int} {e : LIndex}
    (h : img.zIndex z lcn = .ok e) : 0 ≤ lcn := by
  rw [Image.zIndex] at h
  by_contra hneg
  rw [if_pos (.inl (by omega))] at h
  cases h

/-! ## The walks -/

section

-- What the walks need of the index: reading an entry ends, and there is none before
-- entry 0.
variable {index : Int → Except ZError LIndex} (hends : ∀ lcn, Ends (index lcn))
  (hnonneg : ∀ lcn e, index lcn = .ok e → 0 ≤ lcn)

/-- A NONHEAD index that points at itself. -/
def LIndex.pointsAtSelf (e : LIndex) : Prop := e.typ = zLclusterNonhead ∧ e.distance = 0

/-- Following the distances from `head` leads to an index that points at itself. -/
def Stalls (index : Int → Except ZError LIndex) (head : Int) : Prop :=
  ∃ e s, index head = .ok e ∧ Reach (walkStep index false) (head, e) s ∧ s.2.pointsAtSelf

variable {s : Int × LIndex} {strict : Bool}

/-- What a step of a walk does: from a NONHEAD it goes back by its distance and reads the
    index there; anything else it returns. -/
theorem walkStep_cases {r : Step (Int × LIndex) (Int × LIndex)}
    (h : walkStep index strict s = .ok r) :
    (∃ s', r = .next s' ∧ s'.1 = s.1 - s.2.distance ∧ index s'.1 = .ok s'.2) ∨ r = .done s := by
  rw [walkStep] at h
  by_cases htyp : s.2.typ = zLclusterNonhead
  · rw [if_pos htyp] at h
    by_cases hzero : strict = true ∧ s.2.distance = 0
    · rw [if_pos hzero] at h
      cases h
    rw [if_neg hzero] at h
    obtain ⟨e', hread, hnext⟩ := bind_eq_ok h
    cases hnext
    exact .inl ⟨_, rfl, rfl, hread⟩
  · rw [if_neg htyp] at h
    cases h
    exact .inr rfl

variable {e : LIndex} {head : Int}

theorem walk_reads (he : index head = .ok e) (h : Reach (walkStep index strict) (head, e) s) :
    s.1 ≤ head ∧ index s.1 = .ok s.2 := by
  apply reach_invariant (fun s => s.1 ≤ head ∧ index s.1 = .ok s.2) ?_ h ⟨Int.le_refl _, he⟩
  rintro s s' ⟨hle, -⟩ hstep
  rcases walkStep_cases hstep with ⟨t, heq, hback, hread⟩ | heq
  · cases heq
    exact ⟨by omega, hread⟩
  · cases heq

/-- A walk goes back, and ends at an index it has read. -/
theorem walkBack_le {start : Int} (h : walkBack index strict start = .ok (head, e)) :
    head ≤ start ∧ index head = .ok e := by
  obtain ⟨e₀, hfirst, hloop⟩ := bind_eq_ok h
  obtain ⟨s, hreach, hdone⟩ := loop_reach hloop
  rcases walkStep_cases hdone with ⟨t, heq, -⟩ | heq
  · cases heq
  · cases heq
    exact walk_reads hfirst hreach

theorem findHead_le {lcn : Int} (h : findHead index lcn = .ok (head, e)) :
    head ≤ lcn ∧ index head = .ok e := by
  obtain ⟨⟨head₀, e₀⟩, hfirst, hrest⟩ := bind_eq_ok h
  obtain ⟨hle, hread⟩ := walkBack_le hfirst
  change (if e₀.isMarker then walkBack index false (head₀ - 1) else pure (head₀, e₀)) = _ at hrest
  by_cases hmarker : e₀.isMarker = true
  · rw [if_pos hmarker] at hrest
    obtain ⟨hle', hread'⟩ := walkBack_le hrest
    exact ⟨by omega, hread'⟩
  · rw [if_neg hmarker] at hrest
    cases hrest
    exact ⟨hle, hread⟩

theorem walkStep_self (hread : index s.1 = .ok s.2) (h : s.2.pointsAtSelf) :
    walkStep index false s = .ok (.next s) := by
  obtain ⟨head, e⟩ := s
  obtain ⟨htyp, hzero⟩ := h
  simp only at hread htyp hzero
  simp [walkStep, htyp, hzero, hread]

include hends hnonneg in
/-- A walk whose states never point at themselves goes down until it ends. -/
theorem walk_ends (he : index head = .ok e)
    (hmoves : ∀ s, Reach (walkStep index strict) (head, e) s → s.2.pointsAtSelf → strict = true) :
    Ends (loop (walkStep index strict) (head.toNat + 2) (head, e)) := by
  apply loop_runs (Reach (walkStep index strict) (head, e)) (fun s => s.1.toNat) ?_ (.refl _)
    (by simp only; omega)
  rintro ⟨h, e'⟩ hreach
  have hread : index h = .ok e' := (walk_reads he hreach).2
  have hfrom : 0 ≤ h := hnonneg h e' hread
  by_cases htyp : e'.typ = zLclusterNonhead
  · by_cases hzero : strict = true ∧ e'.distance = 0
    · rw [walkStep, if_pos htyp, if_pos hzero]
      exact runs_error (by simp)
    have hstep : walkStep index strict (h, e') =
        (index (h - e'.distance) >>= fun e'' => pure (.next (h - e'.distance, e''))) := by
      rw [walkStep, if_pos htyp, if_neg hzero]
    have hpos : 0 < e'.distance := by
      by_contra hnot
      have hself : e'.pointsAtSelf := ⟨htyp, by omega⟩
      exact hzero ⟨hmoves (h, e') hreach hself, hself.2⟩
    rcases hends (h - e'.distance) with ⟨e'', hprev, -⟩ | ⟨err, herr, hfuel⟩
    · have hto : 0 ≤ h - e'.distance := hnonneg _ e'' hprev
      rw [hprev] at hstep
      rw [hstep]
      exact runs_ok ⟨.step hreach hstep, by simp only; omega⟩
    · rw [hstep, herr]
      exact runs_error hfuel
  · rw [walkStep, if_neg htyp]
    exact runs_ok trivial

include hends hnonneg in
/-- The walk from the cluster itself ends, whatever the index holds. -/
theorem walkBack_strict_ends (head : Int) : Ends (walkBack index true head) := by
  rcases hends head with ⟨e, he, -⟩ | ⟨err, herr, hfuel⟩
  · rw [walkBack, he]
    exact walk_ends hends hnonneg he fun _ _ _ => rfl
  · rw [walkBack, herr]
    exact runs_error hfuel

/-- Behind a marker a walk that comes to a self-pointing index runs for ever. -/
theorem endless_of_stalls (he : index head = .ok e) (h : Stalls index head) (fuel : Nat) :
    loop (walkStep index false) fuel (head, e) = .error .fuel := by
  obtain ⟨e', s, he', hreach, hself⟩ := h
  rw [he] at he'
  cases he'
  exact loop_endless_of_reach hreach (walkStep_self (walk_reads he hreach).2 hself) fuel

include hends hnonneg in
/-- **The walk behind a marker ends exactly when it meets no self-pointing index.** -/
theorem walkBack_ends_iff (head : Int) : Ends (walkBack index false head) ↔ ¬ Stalls index head := by
  constructor
  · intro hended hstalls
    have ⟨e, _, he, _⟩ := hstalls
    rw [walkBack, he, ends_iff] at hended
    exact hended (endless_of_stalls he hstalls _)
  · intro hnot
    rcases hends head with ⟨e, he, -⟩ | ⟨err, herr, hfuel⟩
    · rw [walkBack, he]
      apply walk_ends hends hnonneg he
      intro s hreach hself
      exact absurd ⟨e, s, he, hreach, hself⟩ hnot
    · rw [walkBack, herr]
      exact runs_error hfuel

include hends hnonneg in
/-- Running out is not a matter of the fuel: a walk that stalls runs out of any, and one
    that does not has an outcome within the fuel it is given. -/
theorem stalls_iff_endless (he : index head = .ok e) :
    Stalls index head ↔ ∀ fuel, loop (walkStep index false) fuel (head, e) = .error .fuel := by
  constructor
  · intro h fuel
    exact endless_of_stalls he h fuel
  · intro h
    by_contra hnot
    have hended := (walkBack_ends_iff hends hnonneg head).mpr hnot
    rw [walkBack, he, ends_iff] at hended
    exact hended (h _)

end

/-! ## Reading a block -/

/-- The clusters between `head` and `stop` are NONHEAD. -/
def Nonheads (index : Int → Except ZError LIndex) (head stop : Int) : Prop :=
  ∀ i, head < i → i < stop → ∃ e, index i = .ok e ∧ e.typ = zLclusterNonhead

/-- An inode without the extent that is cached of it. -/
def ZRead.forget (z : ZRead) : ZRead := { z with extStartLcn := -1, extEndLcn := 0, extData := [] }

section

variable (uncompressBlock : List UInt8 → Nat → Option (List UInt8))

/-- Reading an extent ends: the scan that sizes it looks at each index once.  What was not in the
    cache is there afterwards, for the NONHEAD clusters that were scanned. -/
theorem Image.zExtentData_fine (img : Image) (fi : Inode) (z : ZRead) (head : Int) (blkaddr : Nat) :
    Runs (ZError.Fine (z.Low ∧ (blkaddr : Int) * img.blockSize < 2 ^ 63))
      (img.zExtentData uncompressBlock fi z head blkaddr) fun r => r.2.forget = z.forget ∧
        (z.extStartLcn ≠ head → r.2.extStartLcn = head ∧ r.2.extData = r.1 ∧
          Nonheads (img.zIndex z) head r.2.extEndLcn) := by
  have hscan : Runs (ZError.Fine (z.Low ∧ (blkaddr : Int) * img.blockSize < 2 ^ 63))
      (loop (scanStep (img.zIndex z) img.blockSize z.nIdx head)
        ((z.nIdx - head).toNat + 1) ⟨head + 1, 1, 1, 0⟩)
      fun s => Nonheads (img.zIndex z) head (head + s.lclusters) := by
    -- the scan goes forward, over indexes that are all NONHEAD
    apply loop_runs (fun s : ExtentScan => s.i = head + s.lclusters ∧
      Nonheads (img.zIndex z) head s.i) (fun s => (z.nIdx - s.i).toNat) ?_
      ⟨rfl, fun i hlt hi => by simp only at hi; omega⟩ (by simp only; omega)
    rintro s ⟨hi, hseen⟩
    have hend : Nonheads (img.zIndex z) head (head + s.lclusters) := hi ▸ hseen
    rw [scanStep]
    split
    · apply Runs.bind (fine_mono (img.zIndex_fine z s.i) And.left).eq_ok
      rintro e ⟨he, -⟩
      split
      · rename_i hnon
        refine runs_pure ⟨⟨by simp only; omega, fun i hlt hle => ?_⟩, by simp only; omega⟩
        by_cases heq : i = s.i
        · exact ⟨e, heq ▸ he, hnon⟩
        · exact hseen i hlt (by simp only at hle; omega)
      · split <;> exact runs_pure hend
    · exact runs_ok hend
  rw [Image.zExtentData]
  split
  · rename_i hcached
    exact runs_ok ⟨rfl, fun hne => absurd hcached hne⟩
  apply Runs.bind hscan
  intro s hs
  simp only
  -- the size does not matter: what is out of range is an error
  generalize (if s.decompressed = 0 then _ else s.decompressed : Int) = decompressed
  split
  · exact runs_fine rfl
  split
  · exact runs_fine rfl
  apply Runs.bind (fine_mono (img.readAt_fine _ _) fun h =>
    ⟨Int.mul_nonneg (by omega) (by omega), h.2⟩)
  intro comp _
  split
  · exact runs_fine rfl
  split
  · exact runs_fine rfl
  split
  · exact runs_fine rfl
  · exact runs_pure ⟨rfl, fun _ => ⟨rfl, rfl, hs⟩⟩

/-- The inode lies low, and so do its first `bn` blocks and the addresses in its index. -/
structure Image.LowAt (img : Image) (z : ZRead) (bn : Int) : Prop extends z.Low where
  block_le : bn * img.blockSize ≤ 2 ^ 62
  addr_le : 2 ^ 32 * img.blockSize ≤ 2 ^ 48

/-- Reading block `bn` is as fine as finding its HEAD; it gives all of the block, and only the
    cached extent changes. -/
theorem Image.zReadIndexed_runs (img : Image) (fi : Inode) (z : ZRead) (bn : Int) (n : Nat)
    {E : ZError → Prop} (hE : ∀ e, ZError.Fine (img.LowAt z bn) e → E e)
    (hfind : z.copyCachedBlock bn img.blockSize n = none →
      Runs E (findHead (img.zIndex z) bn) fun _ => True) :
    Runs E (img.zReadIndexed uncompressBlock fi z bn n)
      fun r => r.1.length = n ∧ r.2.forget = z.forget := by
  rw [Image.zReadIndexed]
  cases hcache : z.copyCachedBlock bn img.blockSize n with
  | some bytes =>
    apply runs_ok
    rw [ZRead.copyCachedBlock] at hcache
    split at hcache
    · cases hcache
    simp only at hcache
    split at hcache
    · cases hcache
    · cases hcache
      simp only [List.length_take, List.length_drop, and_true]
      omega
  | none =>
    apply Runs.bind (hfind hcache).eq_ok
    rintro ⟨head, e⟩ ⟨hfind, -⟩
    obtain ⟨hle, hread⟩ := findHead_le hfind
    have hhead : 0 ≤ head := Image.nonneg_of_zIndex hread
    have hu : e.u < 2 ^ 32 := (img.zIndex_fine z head).of_eq_ok hread
    have hoff : 0 ≤ (bn - head) * (img.blockSize : Int) :=
      Int.mul_nonneg (by omega) (by omega)
    have hoff' : (bn - head) * (img.blockSize : Int) ≤ bn * img.blockSize := by
      apply Int.mul_le_mul_of_nonneg_right <;> omega
    have haddr : (e.u : Int) * img.blockSize ≤ 2 ^ 32 * img.blockSize := by
      apply Int.mul_le_mul_of_nonneg_right <;> omega
    have haddr' : 0 ≤ (e.u : Int) * img.blockSize := Int.mul_nonneg (by omega) (by omega)
    -- the address is at least that of the HEAD and below the bound on the block
    refine Runs.mono_error ?_ hE
    simp only
    split
    · apply Runs.bind (fine_mono (img.readAt_fine n _) fun ⟨_, _, _⟩ => ⟨by omega, by omega⟩)
      intro bytes hbytes
      exact runs_pure ⟨hbytes, rfl⟩
    split
    · apply Runs.bind (fine_mono (img.zExtentData_fine uncompressBlock fi z head e.u)
        fun ⟨hlow, _, _⟩ => ⟨hlow, by omega⟩)
      rintro ⟨data, z'⟩ hforget
      simp only
      split
      · exact runs_fine rfl
      · refine runs_pure ⟨?_, hforget.1⟩
        simp only [List.length_take, List.length_drop]
        omega
    · exact runs_fine rfl

/-- The walk from cluster `bn` ends at a boundary marker, and the one behind the marker
    comes to a NONHEAD index with a distance of 0. -/
def Image.Traps (img : Image) (z : ZRead) (bn : Int) : Prop :=
  ∃ head e, walkBack (img.zIndex z) true bn = .ok (head, e) ∧ e.isMarker = true ∧
    Stalls (img.zIndex z) (head - 1)

/-- Reading block `bn` walks for ever: the block is not in the cached extent, and the walk
    from its cluster is trapped. -/
def Image.Loops (img : Image) (z : ZRead) (bn : Int) (n : Nat) : Prop :=
  z.copyCachedBlock bn img.blockSize n = none ∧ img.Traps z bn

/-- Finding the HEAD ends unless the walk behind a marker stalls. -/
theorem Image.findHead_ends_iff (img : Image) (z : ZRead) (bn : Int) :
    Ends (findHead (img.zIndex z) bn) ↔ ¬ img.Traps z bn := by
  have hends := img.zIndex_ends z
  have hnonneg : ∀ lcn e, img.zIndex z lcn = .ok e → 0 ≤ lcn := fun _ _ => Image.nonneg_of_zIndex
  rcases walkBack_strict_ends hends hnonneg bn with ⟨⟨head, e⟩, hwalk, -⟩ | ⟨err, herr, hfuel⟩
  · rw [findHead, hwalk]
    by_cases hmarker : e.isMarker = true
    · show Ends (if e.isMarker then walkBack (img.zIndex z) false (head - 1) else _) ↔ _
      rw [if_pos hmarker, walkBack_ends_iff hends hnonneg]
      constructor
      · rintro hnot ⟨head', e', heq, -, hstalls⟩
        rw [hwalk] at heq
        cases heq
        exact hnot hstalls
      · intro hnot hstalls
        exact hnot ⟨head, e, hwalk, hmarker, hstalls⟩
    · constructor
      · rintro - ⟨head', e', heq, hmarker', -⟩
        rw [hwalk] at heq
        cases heq
        exact hmarker hmarker'
      · intro _
        show Ends (if e.isMarker then _ else _)
        rw [if_neg hmarker]
        exact runs_pure trivial
  · rw [findHead, herr]
    constructor
    · rintro - ⟨head', e', heq, -⟩
      rw [herr] at heq
      cases heq
    · intro _
      exact runs_error hfuel

theorem Image.ends_zReadIndexed_iff (img : Image) (fi : Inode) (z : ZRead) (bn : Int) (n : Nat) :
    Ends (img.zReadIndexed uncompressBlock fi z bn n) ↔ ¬ img.Loops z bn n := by
  constructor
  · rintro hended ⟨hcache, htraps⟩
    have hfind : ¬ Ends (findHead (img.zIndex z) bn) :=
      fun h => (img.findHead_ends_iff z bn).mp h htraps
    rw [ends_iff, not_not] at hfind
    rw [Image.zReadIndexed, hcache, hfind, ends_iff] at hended
    exact hended rfl
  · intro hnot
    refine (img.zReadIndexed_runs uncompressBlock fi z bn n (fun e he => he.1) ?_).mono
      fun _ _ => trivial
    exact fun hcache => (img.findHead_ends_iff z bn).mpr fun htraps => hnot ⟨hcache, htraps⟩

/-- **Reading a block ends, with data or an error, exactly when it does not walk for
    ever.** -/
theorem Image.zReadIndexed_ends_iff (img : Image) (fi : Inode) (z : ZRead) (bn : Int) (n : Nat) :
    ((∃ r, img.zReadIndexed uncompressBlock fi z bn n = .ok r) ∨
      ∃ err, img.zReadIndexed uncompressBlock fi z bn n = .error err ∧ err ≠ .fuel) ↔
      ¬ img.Loops z bn n := by
  rw [← img.ends_zReadIndexed_iff uncompressBlock fi z bn n]
  simp only [Ends, Runs, and_true]

end

/-- An image that is nothing but a full index of two entries: a NONHEAD with a distance of
    0, and a boundary marker behind it. -/
def stallingImage : Image where
  data := [2, 0, 0, 0, 0, 0, 0, 0] ++ [0, 0, 1, 0, 0, 0, 0, 0]
  metaBlkAddr := 0
  blkSizeBits := 9

def stallingInode : Inode := ⟨0, 32, 0, false, 1024⟩

def stallingRead : ZRead := { nIdx := 2 }

/-- Block 1 of that image is in no cached extent, its cluster is a marker, and index 0
    points at itself: the read ends neither with data nor with an error, whatever the fuel
    of the walk. -/
theorem stallingImage_never_ends :
    stallingImage.Loops stallingRead 1 512 ∧
      (∀ uncompressBlock,
        stallingImage.zReadIndexed uncompressBlock stallingInode stallingRead 1 512 =
          .error .fuel) ∧
      ∀ fuel, loop (walkStep (stallingImage.zIndex stallingRead) false) fuel (0, ⟨2, 0, 0⟩) =
        .error .fuel := by
  have hself : LIndex.pointsAtSelf ⟨2, 0, 0⟩ := ⟨by decide, by decide⟩
  have hread : stallingImage.zIndex stallingRead 0 = .ok ⟨2, 0, 0⟩ := by decide
  have hstalls : Stalls (stallingImage.zIndex stallingRead) 0 :=
    ⟨⟨2, 0, 0⟩, (0, ⟨2, 0, 0⟩), hread, .refl _, hself⟩
  refine ⟨⟨by decide, 1, ⟨0, 1, 0⟩, by decide, by decide, hstalls⟩, ?_,
    endless_of_stalls hread hstalls⟩
  intro uncompressBlock
  have hfind : findHead (stallingImage.zIndex stallingRead) 1 = .error .fuel := by decide
  have hcache : stallingRead.copyCachedBlock 1 stallingImage.blockSize 512 = none := by decide
  rw [Image.zReadIndexed, hcache, hfind]
  rfl

end Orchestrator.Erofs

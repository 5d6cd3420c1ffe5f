/-
  Orchestrator.Lib.Bytes

  Buffers indexed by signed integers, the way the modelled language indexes
  them: reads, writes and slice expressions that fault outside the buffer, the
  total accessor the specifications use (`elem`), and little-endian words.

  A run of writes is described by `Wrote xs d bs ys`: `ys` is `xs` with the
  window of `bs.length` bytes at `d` replaced by `bs`.  Consecutive windows
  compose (`Wrote.append`), which is all an encoder has to know about its
  output buffer.
-/

import Orchestrator.Lib.Exec
import Mathlib.Data.Nat.Bitwise
import Mathlib.Data.List.Basic
import Mathlib.Logic.Function.Basic

namespace Orchestrator.Lib

open List

/-! ## Indexed access -/

section

variable {α : Type}

/-- `xs[i]`. -/
def getAt (xs : List α) (i : Int) : Exec α :=
  if 0 ≤ i then
    match xs[i.toNat]? with
    | some v => .ok v
    | none => .error .bounds
  else .error .bounds

/-- `xs[i] = v`. -/
def setAt (xs : List α) (i : Int) (v : α) : Exec (List α) :=
  if 0 ≤ i ∧ i < xs.length then .ok (xs.set i.toNat v) else .error .bounds

/-- `xs[i:]`. -/
def sliceFrom (xs : List α) (i : Int) : Exec (List α) :=
  if 0 ≤ i ∧ i ≤ xs.length then .ok (xs.drop i.toNat) else .error .bounds

/-- `xs[i:j]`. -/
def slice (xs : List α) (i j : Int) : Exec (List α) :=
  if 0 ≤ i ∧ i ≤ j ∧ j ≤ xs.length then .ok ((xs.take j.toNat).drop i.toNat)
  else .error .bounds

/-- `copy(xs[d:], ys)`: the buffer after the copy and the number of elements
    copied. -/
def copyAt (xs : List α) (d : Int) (ys : List α) : Exec (List α × Int) :=
  if 0 ≤ d ∧ d ≤ xs.length then
    let n := min (xs.length - d.toNat) ys.length
    .ok (xs.take d.toNat ++ ys.take n ++ xs.drop (d.toNat + n), n)
  else .error .bounds

/-- Element `i` of a buffer of bytes or words, for specifications: total, and
    only meaningful inside the buffer. -/
def elem [Inhabited α] (xs : List α) (i : Int) : α := xs.getD i.toNat default

theorem getAt_sat [Inhabited α] {xs : List α} {i : Int} (h0 : 0 ≤ i) (h1 : i < xs.length) :
    Exec.Sat (getAt xs i) fun v => v = elem xs i := by
  have hlt : i.toNat < xs.length := by omega
  refine ⟨xs[i.toNat], ?_, ?_⟩
  · rw [getAt, if_pos h0, getElem?_eq_getElem hlt]
  · rw [elem, getD_eq_getElem _ _ hlt]

theorem setAt_sat {xs : List α} {i : Int} {v : α} (h0 : 0 ≤ i) (h1 : i < xs.length) :
    Exec.Sat (setAt xs i v) fun ys => ys = xs.set i.toNat v :=
  ⟨_, by rw [setAt, if_pos ⟨h0, h1⟩], rfl⟩

theorem sliceFrom_sat {xs : List α} {i : Int} (h0 : 0 ≤ i := by omega)
    (h1 : i ≤ xs.length := by omega) :
    Exec.Sat (sliceFrom xs i) fun ys => ys = xs.drop i.toNat :=
  ⟨_, by rw [sliceFrom, if_pos ⟨h0, h1⟩], rfl⟩

theorem slice_sat {xs : List α} {i j : Int} (h0 : 0 ≤ i) (h1 : i ≤ j) (h2 : j ≤ xs.length) :
    Exec.Sat (slice xs i j) fun ys => ys = (xs.take j.toNat).drop i.toNat :=
  ⟨_, by rw [slice, if_pos ⟨h0, h1, h2⟩], rfl⟩

end

/-! ## Windows of writes -/

section

variable {α : Type}

/-- `ys` is `xs` with the window `[d, d + bs.length)` overwritten by `bs`. -/
structure Wrote (xs : List α) (d : Nat) (bs ys : List α) : Prop where
  fits : d + bs.length ≤ xs.length
  eq : ys = xs.take d ++ bs ++ xs.drop (d + bs.length)

namespace Wrote

variable {xs ys zs bs cs : List α} {d : Nat}

theorem length_eq (h : Wrote xs d bs ys) : ys.length = xs.length := by
  have hfits := h.fits
  rw [h.eq]
  simp only [length_append, length_take, length_drop]
  omega

theorem take_end (h : Wrote xs d bs ys) :
    ys.take (d + bs.length) = xs.take d ++ bs := by
  have hfits := h.fits
  have hlen : (xs.take d ++ bs).length = d + bs.length := by
    rw [length_append, length_take]
    omega
  rw [h.eq, ← hlen, take_left]

theorem nil (h : d ≤ xs.length) : Wrote xs d [] xs :=
  ⟨by simpa using h, by simp⟩

theorem set {v : α} (h : d < xs.length) : Wrote xs d [v] (xs.set d v) := by
  refine ⟨by rw [length_singleton]; omega, ?_⟩
  rw [set_eq_take_append_cons_drop, if_pos h]
  simp

theorem append (h : Wrote xs d bs ys) (h' : Wrote ys (d + bs.length) cs zs) :
    Wrote xs d (bs ++ cs) zs := by
  have hlen := h.length_eq
  have hfits := h.fits
  have hfits' := h'.fits
  refine ⟨by rw [length_append]; omega, ?_⟩
  have hhead : (xs.take d ++ bs).length = d + bs.length := by
    rw [length_append, length_take]
    omega
  rw [h'.eq, h.take_end, h.eq, drop_append, drop_eq_nil_of_le (by omega), hhead,
    drop_drop, length_append]
  simp only [append_assoc, nil_append]
  congr 4
  omega

end Wrote

theorem copyAt_sat {xs ys : List α} {d : Int} (h0 : 0 ≤ d) (h1 : d + ys.length ≤ xs.length) :
    Exec.Sat (copyAt xs d ys) fun r => Wrote xs d.toNat ys r.1 ∧ r.2 = ys.length := by
  have hmin : min (xs.length - d.toNat) ys.length = ys.length := by omega
  refine ⟨_, by rw [copyAt, if_pos ⟨h0, by omega⟩], ?_⟩
  simp only [hmin, take_length]
  exact ⟨⟨by omega, rfl⟩, trivial⟩

end

/-! ## Tables

Large fixed arrays are functions with the size on the side: a table costs
nothing to clear, and only the indices it is read or written at matter. -/

section

variable {α : Type}

/-- `t[i]` in a table of `n` entries. -/
def tableGet (n : Nat) (t : Nat → α) (i : Int) : Exec α :=
  if 0 ≤ i ∧ i < n then .ok (t i.toNat) else .error .bounds

/-- `t[i] = v` in a table of `n` entries. -/
def tableSet (n : Nat) (t : Nat → α) (i : Int) (v : α) : Exec (Nat → α) :=
  if 0 ≤ i ∧ i < n then .ok (Function.update t i.toNat v) else .error .bounds

theorem tableGet_sat {n : Nat} {t : Nat → α} {i : Int} (h0 : 0 ≤ i) (h1 : i < n) :
    Exec.Sat (tableGet n t i) fun v => v = t i.toNat :=
  ⟨_, by rw [tableGet, if_pos ⟨h0, h1⟩], rfl⟩

theorem tableSet_sat {n : Nat} {t : Nat → α} {i : Int} {v : α} (h0 : 0 ≤ i) (h1 : i < n) :
    Exec.Sat (tableSet n t i v) fun t' => t' = Function.update t i.toNat v :=
  ⟨_, by rw [tableSet, if_pos ⟨h0, h1⟩], rfl⟩

end

/-! ## Little-endian words -/

/-- The number a byte string stands for, least significant byte first. -/
def leNat : List UInt8 → Nat
  | [] => 0
  | b :: bs => b.toNat + 256 * leNat bs

theorem leNat_lt (bs : List UInt8) : leNat bs < 256 ^ bs.length := by
  induction bs with
  | nil => simp [leNat]
  | cons b bs ih =>
    have hb : b.toNat < 256 := b.toNat_lt
    rw [leNat, length_cons, Nat.pow_succ]
    omega

/-- Bit `i` of a little-endian word is bit `i % 8` of byte `i / 8`. -/
theorem testBit_leNat (bs : List UInt8) (i : Nat) :
    (leNat bs).testBit i = (bs.getD (i / 8) 0).toNat.testBit (i % 8) := by
  induction bs generalizing i with
  | nil => simp [leNat]
  | cons b bs ih =>
    have hb : b.toNat < 2 ^ 8 := b.toNat_lt
    have hsum : leNat (b :: bs) = 2 ^ 8 * leNat bs + b.toNat := by
      rw [leNat]
      omega
    rw [hsum, Nat.testBit_two_pow_mul_add _ hb]
    by_cases hi : i < 8
    · have hdiv : i / 8 = 0 := by omega
      have hmod : i % 8 = i := by omega
      rw [if_pos hi, hdiv, hmod, getD_cons_zero]
    · have hdiv : i / 8 = (i - 8) / 8 + 1 := by omega
      have hmod : i % 8 = (i - 8) % 8 := by omega
      rw [if_neg hi, ih, hdiv, hmod, getD_cons_succ]

/-- The number of trailing zero bits of a 64-bit word; 64 for zero. -/
def trailingZeros64 (x : Nat) : Nat := (range 64).findIdx x.testBit

theorem testBit_of_lt_trailingZeros64 {x i : Nat} (h : i < trailingZeros64 x) :
    x.testBit i = false := by
  have hlen : i < (range 64).length := Nat.lt_of_lt_of_le h findIdx_le_length
  have hnot := not_of_lt_findIdx h
  rw [getElem_range] at hnot
  simpa using hnot

theorem trailingZeros64_le (x : Nat) : trailingZeros64 x ≤ 64 := by
  have h : trailingZeros64 x ≤ (range 64).length := findIdx_le_length
  simpa using h

/-- Two words agree on every byte below the first differing bit. -/
theorem getD_eq_of_lt_trailingZeros64 {as bs : List UInt8} {k : Nat}
    (h : 8 * (k + 1) ≤ trailingZeros64 (leNat as ^^^ leNat bs)) :
    as.getD k 0 = bs.getD k 0 := by
  apply UInt8.toNat_inj.mp
  apply Nat.eq_of_testBit_eq
  intro i
  by_cases hi : i < 8
  · have hzero := testBit_of_lt_trailingZeros64 (i := 8 * k + i)
      (x := leNat as ^^^ leNat bs) (by omega)
    have hdiv : (8 * k + i) / 8 = k := by omega
    have hmod : (8 * k + i) % 8 = i := by omega
    rw [Nat.testBit_xor, testBit_leNat, testBit_leNat, hdiv, hmod] at hzero
    simpa using hzero
  · have hpow : 2 ^ 8 ≤ 2 ^ i := Nat.pow_le_pow_right (by omega) (by omega)
    have ha : (as.getD k 0).toNat < 2 ^ 8 := UInt8.toNat_lt _
    have hb : (bs.getD k 0).toNat < 2 ^ 8 := UInt8.toNat_lt _
    rw [Nat.testBit_lt_two_pow (by omega), Nat.testBit_lt_two_pow (by omega)]

end Orchestrator.Lib

/-
  Orchestrator.Lib.Bits

  Byte strings as arrays of bits, and little-endian fields in them.

  Bit `i` of a byte string is bit `i % 8` of byte `i / 8`, the numbering of
  packed little-endian records.  `putBits` stores a field by setting bits, the
  way a writer does in a zeroed buffer; `takeBits` reads a field back through a
  32-bit window.  `takeBits_eq` reduces reading to bits, so a round trip is a
  statement about `bitAt` only.
-/

import Orchestrator.Lib.Bytes

namespace Orchestrator.Lib

open List

/-- Bit `i` of a byte string. -/
def bitAt (bs : List UInt8) (i : Nat) : Bool := (bs.getD (i / 8) 0).toNat.testBit (i % 8)

/-- `bs[pos/8] |= 1 << (pos & 7)`. -/
def setBit (bs : List UInt8) (pos : Nat) : List UInt8 :=
  bs.modify (pos / 8) fun b => b ||| (1 <<< UInt8.ofNat (pos % 8))

/-- Set the bits of `value` from `bitpos` on. -/
def putBits (bs : List UInt8) (bitpos bits value : Nat) : List UInt8 :=
  (range bits).foldl (fun bs i => if value.testBit i then setBit bs (bitpos + i) else bs) bs

/-- The field of `bits` bits at `bitpos`, read through the 32-bit window at its
    first byte. -/
def takeBits (bs : List UInt8) (bitpos bits : Nat) : Nat :=
  (leNat ((bs.drop (bitpos / 8)).take 4) >>> (bitpos % 8)) % 2 ^ bits

/-- `v` in `n` bytes, least significant byte first. -/
def leBytes : Nat → Nat → List UInt8
  | 0, _ => []
  | n + 1, v => UInt8.ofNat v :: leBytes n (v / 256)

/-! ## Single bits -/

theorem toNat_one_shiftLeft : ∀ k < 8, ((1 : UInt8) <<< UInt8.ofNat k).toNat = 2 ^ k := by
  decide

@[simp] theorem length_setBit (bs : List UInt8) (pos : Nat) :
    (setBit bs pos).length = bs.length := by
  rw [setBit, length_modify]

variable {bs : List UInt8}

theorem bitAt_setBit {pos : Nat} (h : pos / 8 < bs.length) (i : Nat) :
    bitAt (setBit bs pos) i = (bitAt bs i || decide (i = pos)) := by
  rw [bitAt, bitAt, setBit, getD_eq_getElem?_getD, getElem?_modify]
  by_cases hbyte : pos / 8 = i / 8
  · -- the byte that is changed
    have hlen : i / 8 < bs.length := by omega
    have hmod : pos % 8 < 8 := Nat.mod_lt _ (by omega)
    have hpos : decide (pos % 8 = i % 8) = decide (i = pos) := by
      apply decide_eq_decide.mpr
      omega
    rw [getElem?_eq_getElem hlen, getD_eq_getElem _ _ hlen]
    simp only [Option.map_eq_map, Option.map_some, if_pos hbyte, Option.getD_some,
      UInt8.toNat_or, Nat.testBit_or, toNat_one_shiftLeft _ hmod, Nat.testBit_two_pow, hpos]
  · have hpos : decide (i = pos) = false := by
      apply decide_eq_false
      omega
    simp only [if_neg hbyte, hpos, Bool.or_false, getD_eq_getElem?_getD, Option.map_eq_map,
      Option.map_id_fun', id_eq]

theorem bitAt_replicate_zero (n i : Nat) : bitAt (replicate n 0) i = false := by
  rw [bitAt, getD_eq_getElem?_getD, getElem?_replicate]
  split <;> simp

theorem bitAt_append_left {as : List UInt8} {i : Nat} (h : i / 8 < as.length) :
    bitAt (as ++ bs) i = bitAt as i := by
  rw [bitAt, bitAt, getD_eq_getElem?_getD, getD_eq_getElem?_getD,
    getElem?_append_left h]

/-! ## Fields -/

@[simp] theorem length_putBits (bs : List UInt8) (bitpos bits value : Nat) :
    (putBits bs bitpos bits value).length = bs.length := by
  rw [putBits]
  induction bits with
  | zero => rfl
  | succ k ih =>
    rw [range_succ, foldl_append, foldl_cons, foldl_nil]
    split
    · rw [length_setBit, ih]
    · exact ih

theorem putBits_succ (bs : List UInt8) (bitpos k value : Nat) :
    putBits bs bitpos (k + 1) value =
      if value.testBit k then setBit (putBits bs bitpos k value) (bitpos + k)
      else putBits bs bitpos k value := by
  rw [putBits, range_succ, foldl_append]
  rfl

variable {bits bitpos : Nat}

theorem bitAt_putBits (value : Nat) (h : bitpos + bits ≤ 8 * bs.length) (i : Nat) :
    bitAt (putBits bs bitpos bits value) i =
      (bitAt bs i || (decide (bitpos ≤ i ∧ i < bitpos + bits) && value.testBit (i - bitpos))) := by
  induction bits with
  | zero =>
    have hnone : decide (bitpos ≤ i ∧ i < bitpos + 0) = false := decide_eq_false (by omega)
    rw [hnone]
    simp [putBits]
  | succ k ih =>
    have hk := ih (by omega)
    have hbyte : (bitpos + k) / 8 < (putBits bs bitpos k value).length := by
      rw [length_putBits]
      omega
    rw [putBits_succ]
    by_cases hi : i = bitpos + k
    · have hin : decide (bitpos ≤ i ∧ i < bitpos + (k + 1)) = true := decide_eq_true (by omega)
      have hout : decide (bitpos ≤ i ∧ i < bitpos + k) = false := decide_eq_false (by omega)
      have hsub : i - bitpos = k := by omega
      rw [hin, hsub]
      rw [hout, hsub] at hk
      split
      · rename_i hbit
        rw [bitAt_setBit hbyte, hk, hbit]
        simp [hi]
      · rename_i hbit
        rw [hk]
        simp [hbit]
    · have hsame : decide (bitpos ≤ i ∧ i < bitpos + (k + 1))
          = decide (bitpos ≤ i ∧ i < bitpos + k) := decide_eq_decide.mpr (by omega)
      rw [hsame]
      split
      · rw [bitAt_setBit hbyte, hk]
        simp [hi]
      · exact hk

/-- Reading a field of at most 25 bits reads its bits. -/
theorem testBit_takeBits (hbits : bits ≤ 25) (j : Nat) :
    (takeBits bs bitpos bits).testBit j = (decide (j < bits) && bitAt bs (bitpos + j)) := by
  rw [takeBits, Nat.testBit_mod_two_pow, Nat.testBit_shiftRight]
  by_cases hj : j < bits
  · have hwindow : (bitpos % 8 + j) / 8 < 4 := by omega
    rw [testBit_leNat, getD_eq_getElem?_getD, getElem?_take_of_lt hwindow,
      getElem?_drop, bitAt, getD_eq_getElem?_getD]
    have hdiv : bitpos / 8 + (bitpos % 8 + j) / 8 = (bitpos + j) / 8 := by omega
    have hmod : (bitpos % 8 + j) % 8 = (bitpos + j) % 8 := by omega
    rw [hdiv, hmod]
  · have hfalse : decide (j < bits) = false := decide_eq_false hj
    rw [hfalse, Bool.false_and, Bool.false_and]

theorem takeBits_eq {value : Nat} (hbits : bits ≤ 25) (hvalue : value < 2 ^ bits)
    (h : ∀ j, j < bits → bitAt bs (bitpos + j) = value.testBit j) :
    takeBits bs bitpos bits = value := by
  apply Nat.eq_of_testBit_eq
  intro j
  rw [testBit_takeBits hbits]
  by_cases hj : j < bits
  · rw [decide_eq_true hj, Bool.true_and]
    exact h j hj
  · have hpow : 2 ^ bits ≤ 2 ^ j := Nat.pow_le_pow_right (by omega) (by omega)
    rw [decide_eq_false hj, Bool.false_and, Nat.testBit_lt_two_pow (by omega)]

/-! ## Little-endian numbers -/

@[simp] theorem length_leBytes (n v : Nat) : (leBytes n v).length = n := by
  induction n generalizing v with
  | zero => rfl
  | succ n ih => rw [leBytes, length_cons, ih]

theorem leNat_leBytes (n v : Nat) : leNat (leBytes n v) = v % 256 ^ n := by
  induction n generalizing v with
  | zero => simp [leBytes, leNat, Nat.mod_one]
  | succ n ih =>
    have hpow : 256 ^ (n + 1) = 256 * 256 ^ n := by rw [Nat.pow_succ, Nat.mul_comm]
    rw [leBytes, leNat, ih, UInt8.toNat_ofNat', hpow, Nat.mod_mul]

/-! ## Records of equal width -/

section

variable {α β : Type} {f : α → List β} {w : Nat}

theorem length_flatMap_width (hf : ∀ a, (f a).length = w) (xs : List α) :
    (xs.flatMap f).length = xs.length * w := by
  induction xs with
  | nil => simp
  | cons x xs ih => rw [flatMap_cons, length_append, hf, ih, length_cons, Nat.succ_mul,
      Nat.add_comm]

theorem take_drop_flatMap (hf : ∀ a, (f a).length = w) {xs : List α} {k : Nat} {a : α}
    (h : xs[k]? = some a) : ((xs.flatMap f).drop (k * w)).take w = f a := by
  induction xs generalizing k with
  | nil => simp at h
  | cons x xs ih =>
    rw [flatMap_cons]
    cases k with
    | zero =>
      have hx : x = a := by simpa using h
      rw [Nat.zero_mul, drop_zero, take_append_of_le_length (by rw [hf]),
        take_of_length_le (by rw [hf]), hx]
    | succ k =>
      have hsplit : (k + 1) * w = (f x).length + k * w := by
        rw [hf, Nat.succ_mul, Nat.add_comm]
      rw [hsplit, drop_length_add_append]
      exact ih (by simpa using h)

end

end Orchestrator.Lib

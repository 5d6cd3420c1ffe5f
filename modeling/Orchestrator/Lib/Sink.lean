/-
  Orchestrator.Lib.Sink

  Writing through an encoder into a file whose calls may fail.

  A `Writer` hands what it is given to an encoder, and the chunks that the encoder lets go
  of to the file.  The encoder may keep bytes back until it is finished, and the writer may
  report a failed call on the file only later, or not before it is closed.  `Writer.Holds`
  says what is in the file after any number of writes: as long as no call fails, all that the
  encoder let go of, and from then on a proper initial part of it.  Which calls there are is
  counted from the chunks alone (`callsFor`), so that the file is whole exactly if the calls
  up to that number do not fail (`Writer.Holds.close`).
-/

import Mathlib.Data.List.Basic

namespace Orchestrator.Lib.Sink

open List

/-! ## Files -/

/-- What becomes of the calls on a file: a write fails after some of its bytes, the close
    fails and keeps some of the bytes; and whether a writer reports a failure in a call. -/
structure Faults where
  write : Nat → Option Nat
  close : Option Nat
  reports : Nat → Bool

def Faults.Spares (f : Faults) (n : Nat) : Prop := ∀ k < n, f.write k = Option.none

structure File where
  bytes : List UInt8 := []
  calls : Nat := 0
deriving DecidableEq, Repr

/-- One write: that of nothing makes no call, and one that fails leaves something out. -/
def File.write (f : Faults) (b : List UInt8) (s : File) : Bool × File :=
  if b = [] then (true, s)
  else
    match f.write s.calls with
    | none => (true, { s with bytes := s.bytes ++ b, calls := s.calls + 1 })
    | some n =>
      (false, { bytes := s.bytes ++ b.take (min n (b.length - 1)), calls := s.calls + 1 })

def File.writes (f : Faults) : List (List UInt8) → File → Bool × File
  | [], s => (true, s)
  | b :: bs, s =>
    match s.write f b with
    | (true, s) => s.writes f bs
    | (false, s) => (false, s)

def File.close (f : Faults) (s : File) : Bool × File :=
  match f.close with
  | none => (true, s)
  | some n =>
    (false, { s with bytes := s.bytes.take n })

/-- The calls that chunks are written in. -/
def callsFor (bs : List (List UInt8)) : Nat := (bs.filter (· ≠ [])).length

theorem callsFor_append (bs cs : List (List UInt8)) :
    callsFor (bs ++ cs) = callsFor bs + callsFor cs := by
  rw [callsFor, filter_append, length_append]
  rfl

def Short (a b : List UInt8) : Prop := ∃ more, more ≠ [] ∧ b = a ++ more

variable {a b : List UInt8}

theorem Short.append (h : Short a b) (c : List UInt8) : Short a (b ++ c) := by
  obtain ⟨more, hne, rfl⟩ := h
  exact ⟨more ++ c, by simp [hne], append_assoc a more c⟩

theorem Short.ne (h : Short a b) : a ≠ b := by
  obtain ⟨more, hne, rfl⟩ := h
  intro heq
  exact hne (self_eq_append_right.mp heq)

theorem Short.take (h : Short a b) (n : Nat) : Short (a.take n) b := by
  obtain ⟨more, hne, rfl⟩ := h
  refine ⟨a.drop n ++ more, by simp [hne], ?_⟩
  rw [← append_assoc, take_append_drop]

theorem short_take {n : Nat} (h : n < a.length) : Short (a.take n) a := by
  refine ⟨a.drop n, ?_, (take_append_drop n a).symm⟩
  intro hnil
  have hlen := congrArg length hnil
  rw [length_drop, length_nil] at hlen
  omega

variable {f : Faults}

/-- **Writes one after another**: all is in the file and none of the calls failed, or one did and
    something is missing. -/
theorem File.writes_spec (bs : List (List UInt8)) (s : File) (hspares : f.Spares s.calls) :
    ((s.writes f bs).1 = true ∧ f.Spares (s.calls + callsFor bs) ∧
        (s.writes f bs).2 = ⟨s.bytes ++ bs.flatten, s.calls + callsFor bs⟩) ∨
      ((s.writes f bs).1 = false ∧ ¬ f.Spares (s.calls + callsFor bs) ∧
        Short (s.writes f bs).2.bytes (s.bytes ++ bs.flatten)) := by
  induction bs generalizing s with
  | nil => exact .inl ⟨rfl, hspares, by rw [flatten_nil, append_nil]; rfl⟩
  | cons b bs ih =>
    have hjoin : s.bytes ++ (b :: bs).flatten = s.bytes ++ b ++ bs.flatten := by
      rw [flatten_cons, append_assoc]
    unfold File.writes File.write
    rw [hjoin]
    by_cases hnil : b = []
    · subst hnil
      rw [if_pos rfl, append_nil]
      exact ih s hspares
    have hcalls : s.calls + callsFor (b :: bs) = s.calls + 1 + callsFor bs := by
      rw [callsFor, filter_cons_of_pos (by simpa using hnil), length_cons, callsFor]
      omega
    rw [if_neg hnil, hcalls]
    cases hfault : f.write s.calls with
    | none =>
      refine ih ⟨s.bytes ++ b, s.calls + 1⟩ fun k hk => ?_
      by_cases hlast : k = s.calls
      · rw [hlast, hfault]
      · exact hspares k (by simp only at hk; omega)
    | some n =>
      have hpos : 0 < b.length := length_pos_of_ne_nil hnil
      obtain ⟨more, hne, hmore⟩ := short_take (show min n (b.length - 1) < b.length by omega)
      refine .inr ⟨rfl, fun hall => ?_, more ++ bs.flatten, by simp [hne], ?_⟩
      · rw [hall s.calls (by omega)] at hfault
        cases hfault
      · simp only [append_assoc]
        rw [← append_assoc (b.take _), ← hmore]

/-! ## Encoders -/

/-- An encoder: the chunks it lets go of during a write, and those it ends with.  Failures
    of the calls on the file are reported at once, or some time later. -/
structure Encoder where
  State : Type
  init : State
  feed : State → List UInt8 → List (List UInt8) × State
  finish : State → List (List UInt8)
  immediate : Bool := false

def Encoder.plain : Encoder where
  State := Unit
  init := ()
  feed _ b := ([b], ())
  finish _ := []
  immediate := true

/-- The state behind a list of writes. -/
def Encoder.after (enc : Encoder) : enc.State → List (List UInt8) → enc.State
  | st, [] => st
  | st, b :: ws => enc.after (enc.feed st b).2 ws

/-- The chunks let go of during a list of writes. -/
def Encoder.emits (enc : Encoder) : enc.State → List (List UInt8) → List (List UInt8)
  | _, [] => []
  | st, b :: ws => (enc.feed st b).1 ++ enc.emits (enc.feed st b).2 ws

/-- All that a list of writes is encoded to, in the chunks it is written in. -/
def Encoder.chunks (enc : Encoder) (ws : List (List UInt8)) : List (List UInt8) :=
  enc.emits enc.init ws ++ enc.finish (enc.after enc.init ws)

def Encoder.whole (enc : Encoder) (ws : List (List UInt8)) : List UInt8 := (enc.chunks ws).flatten

/-- None of the calls that the encoding of `ws` is written in fails, and the close keeps all. -/
structure Faults.Sound (f : Faults) (enc : Encoder) (ws : List (List UInt8)) : Prop where
  writes : f.Spares (callsFor (enc.chunks ws))
  close : ∀ n, f.close = some n → (enc.whole ws).length ≤ n

/-- `decode` undoes the encoder, however the input is cut into writes. -/
def Encoder.Decodes (enc : Encoder) (decode : List UInt8 → Option (List UInt8)) : Prop :=
  ∀ ws, decode (enc.whole ws) = some ws.flatten

theorem Encoder.after_append (enc : Encoder) (st : enc.State) (ws us : List (List UInt8)) :
    enc.after st (ws ++ us) = enc.after (enc.after st ws) us := by
  induction ws generalizing st with
  | nil => rfl
  | cons b ws ih => exact ih _

theorem Encoder.emits_append (enc : Encoder) (st : enc.State) (ws us : List (List UInt8)) :
    enc.emits st (ws ++ us) = enc.emits st ws ++ enc.emits (enc.after st ws) us := by
  induction ws generalizing st with
  | nil => rfl
  | cons b ws ih =>
    show _ ++ enc.emits _ (ws ++ us) = _ ++ enc.emits _ ws ++ _
    rw [ih, append_assoc]
    rfl

/-! ## Writers -/

structure Writer (enc : Encoder) where
  state : enc.State := enc.init
  file : File := {}
  calls : Nat := 0
  failed : Bool := false

section

variable {enc : Encoder}

/-- A call of a writer that has failed: the failure is reported now, or not yet. -/
def Writer.report (f : Faults) (w : Writer enc) : Bool × Writer enc :=
  (!(enc.immediate || f.reports w.calls), { w with calls := w.calls + 1 })

/-- Hand bytes over; a writer that has failed takes them and does nothing. -/
def Writer.write (f : Faults) (b : List UInt8) (w : Writer enc) : Bool × Writer enc :=
  if w.failed then w.report f
  else
    let (chunks, state) := enc.feed w.state b
    match w.file.writes f chunks with
    | (true, file) => (true, { w with state := state, file := file, calls := w.calls + 1 })
    | (false, file) => { w with state := state, file := file, failed := true }.report f

def Writer.close (f : Faults) (w : Writer enc) : Bool × Writer enc :=
  if w.failed then (false, w)
  else
    match w.file.writes f (enc.finish w.state) with
    | (true, file) => (true, { w with file := file })
    | (false, file) => (false, { w with file := file, failed := true })

/-- What a writer's file holds once `sent` was handed to it. -/
def Writer.Holds (f : Faults) (w : Writer enc) (sent : List (List UInt8)) : Prop :=
  (w.failed = false ∧ f.Spares (callsFor (enc.emits enc.init sent)) ∧
      w.state = enc.after enc.init sent ∧
      w.file = ⟨(enc.emits enc.init sent).flatten, callsFor (enc.emits enc.init sent)⟩) ∨
    (w.failed = true ∧ ¬ f.Spares (callsFor (enc.emits enc.init sent)) ∧
      Short w.file.bytes (enc.emits enc.init sent).flatten)

theorem Writer.holds_new : ({} : Writer enc).Holds f [] := .inl ⟨rfl, nofun, rfl, rfl⟩

variable {w : Writer enc} {sent : List (List UInt8)}

theorem not_spares_append {bs : List (List UInt8)} (h : ¬ f.Spares (callsFor bs))
    (cs : List (List UInt8)) : ¬ f.Spares (callsFor (bs ++ cs)) := by
  rw [callsFor_append]
  exact fun hall => h fun k hk => hall k (by omega)

/-- A file that misses something misses it when more is handed over. -/
theorem Writer.Holds.extend (h : w.Holds f sent) (hfailed : w.failed = true)
    (more : List (List UInt8)) : w.Holds f (sent ++ more) := by
  rcases h with ⟨hno, -⟩ | ⟨-, hfault, hshort⟩
  · rw [hno] at hfailed
    cases hfailed
  · refine .inr ⟨hfailed, ?_, ?_⟩
    · rw [enc.emits_append]
      exact not_spares_append hfault _
    · rw [enc.emits_append, flatten_append]
      exact hshort.append _

/-- **One write.** -/
theorem Writer.Holds.write (h : w.Holds f sent) (b : List UInt8) :
    (w.write f b).2.Holds f (sent ++ [b]) ∧ ((w.write f b).1 = false → (w.write f b).2.failed = true) := by
  by_cases hfailed : w.failed = true
  · have hwrite : w.write f b = w.report f := if_pos hfailed
    rw [hwrite]
    have hmore := h.extend hfailed [b]
    exact ⟨hmore, fun _ => hfailed⟩
  rcases h with ⟨hno, hspares, hstate, hfile⟩ | ⟨hyes, -⟩
  swap
  · exact absurd hyes hfailed
  have hemit : enc.emits enc.init (sent ++ [b]) = enc.emits enc.init sent ++
      (enc.feed (enc.after enc.init sent) b).1 := by
    rw [enc.emits_append]
    exact congrArg _ (append_nil _)
  unfold Writer.write
  rw [if_neg hfailed, hstate, hfile]
  dsimp only
  have hspec := File.writes_spec (f := f) (enc.feed (enc.after enc.init sent) b).1
    ⟨(enc.emits enc.init sent).flatten, callsFor (enc.emits enc.init sent)⟩ hspares
  simp only [← callsFor_append, ← flatten_append, ← hemit] at hspec
  generalize File.writes f (enc.feed (enc.after enc.init sent) b).1 _ = r at hspec ⊢
  obtain ⟨ok, file⟩ := r
  rcases hspec with ⟨rfl, hspares', rfl⟩ | ⟨rfl, hfault, hshort⟩
  · exact ⟨.inl ⟨hno, hspares', (enc.after_append enc.init sent [b]).symm, rfl⟩, nofun⟩
  · exact ⟨.inr ⟨rfl, hfault, hshort⟩, fun _ => rfl⟩

/-- **The end of the encoding and of the file.**  The file holds all of it exactly when the calls
    it is written in are spared and the close keeps it. -/
theorem Writer.Holds.close (h : w.Holds f sent) :
    ((w.close f).2.file.close f).2.bytes = enc.whole sent ↔ f.Sound enc sent := by
  have hclosed : (f.Spares (callsFor (enc.chunks sent)) ∧
        (w.close f).2.file.bytes = enc.whole sent) ∨
      (¬ f.Spares (callsFor (enc.chunks sent)) ∧
        Short (w.close f).2.file.bytes (enc.whole sent)) := by
    unfold Writer.close Encoder.whole Encoder.chunks
    rcases h with ⟨hno, hspares, hstate, hfile⟩ | ⟨hyes, hfault, hshort⟩
    · rw [hno, hstate, hfile]
      simp only [Bool.false_eq_true, if_false]
      have hspec := File.writes_spec (f := f) (enc.finish (enc.after enc.init sent))
        ⟨(enc.emits enc.init sent).flatten, callsFor (enc.emits enc.init sent)⟩ hspares
      simp only [← callsFor_append, ← flatten_append] at hspec
      generalize File.writes f _ _ = r at hspec
      obtain ⟨ok, file⟩ := r
      rcases hspec with ⟨rfl, hspares', rfl⟩ | ⟨rfl, hfault, hshort⟩
      · exact .inl ⟨hspares', rfl⟩
      · exact .inr ⟨hfault, hshort⟩
    · rw [hyes, if_pos rfl, flatten_append]
      exact .inr ⟨not_spares_append hfault _, hshort.append _⟩
  generalize (w.close f).2.file = file at hclosed
  unfold File.close
  rcases hclosed with ⟨hspares, hbytes⟩ | ⟨hfault, hshort⟩
  · cases hclose : f.close with
    | none =>
      refine ⟨fun _ => ⟨hspares, fun n hn => ?_⟩, fun _ => hbytes⟩
      cases hclose.symm.trans hn
    | some n =>
      simp only [hbytes]
      refine ⟨fun heq => ⟨hspares, fun n' hn => ?_⟩,
        fun hsound => take_of_length_le (hsound.close n hclose)⟩
      cases hclose.symm.trans hn
      by_contra hlt
      exact (short_take (Nat.not_le.mp hlt)).ne heq
  · refine iff_of_false ?_ fun hsound => hfault hsound.writes
    cases f.close with
    | none => exact hshort.ne
    | some n => exact (hshort.take n).ne

end

end Orchestrator.Lib.Sink

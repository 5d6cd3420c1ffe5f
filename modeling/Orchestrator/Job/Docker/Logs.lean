/-
  Orchestrator.Job.Docker.Logs

  The worker's log as the watcher reads it (`streamLogs` and `splitLines` of
  internal/job/docker/watcher.go): the daemon sends both output streams as frames, a header of
  eight bytes before each payload, and every frame is split into lines on its own.

  Go strings are lists of bytes here.  The context is not cancelled: the log is read up to its
  end.
-/

import Orchestrator.Lib.Bits
import Orchestrator.Lifecycle.Store

namespace Orchestrator.Job.Docker

open Lifecycle Lib List

/-! ## Lines -/

def lf : UInt8 := 10

def cr : UInt8 := 13

/-- `strings.ReplaceAll(s, "\r\n", "\n")`. -/
def replaceCRLF : List UInt8 → List UInt8
  | [] => []
  | c :: rest => if c = cr ∧ rest.head? = some lf then replaceCRLF rest else c :: replaceCRLF rest

/-- `strings.TrimSuffix(part, "\r")`. -/
def trimCR (part : List UInt8) : List UInt8 :=
  if part.getLast? = some cr then part.dropLast else part

def splitLines (s : List UInt8) : List (List UInt8) :=
  let s := replaceCRLF s
  let parts := s.splitOn lf
  let parts := if s.getLast? = some lf then parts.dropLast else parts
  parts.map trimCR

/-- The lines of all that was written to a stream, as if it were one frame. -/
def linesOf (written : List UInt8) : List (List UInt8) :=
  if written = [] then [] else splitLines written

theorem linesOf_of_ne {written : List UInt8} (h : written ≠ []) :
    linesOf written = splitLines written :=
  if_neg h

/-! ## Frames -/

structure LogLine where
  stream : Stream
  lines : List (List UInt8)
deriving DecidableEq, Repr

/-- What the loop of `streamLogs` emits for the rest of the log. -/
def streamLogs (logs : List UInt8) : List LogLine :=
  if logs.length < 8 then []
  else
    -- the size is big-endian
    let size := leNat ((logs.drop 4).take 4).reverse
    let rest := logs.drop 8
    if size = 0 then streamLogs rest
    else if rest.length < size then []
    else
      let stream := if logs.head? = some 2 then .stderr else .stdout
      let lines := splitLines (rest.take size)
      (if lines = [] then [] else [⟨stream, lines⟩]) ++ streamLogs (rest.drop size)
termination_by logs.length
decreasing_by all_goals simp only [length_drop]; omega

structure Frame where
  kind : UInt8
  payload : List UInt8
  fits : payload.length < 2 ^ 32

def Frame.stream (f : Frame) : Stream := if f.kind = 2 then .stderr else .stdout

def Frame.wire (f : Frame) : List UInt8 :=
  [f.kind, 0, 0, 0] ++ ((leBytes 4 f.payload.length).reverse ++ f.payload)

def written (stream : Stream) (frames : List Frame) : List UInt8 :=
  (frames.filter fun f => f.stream = stream).flatMap Frame.payload

/-- The pieces that the daemon has cut it into. -/
def pieces (stream : Stream) (frames : List Frame) : List (List UInt8) :=
  ((frames.filter fun f => f.stream = stream).map Frame.payload).filter fun p => p ≠ []

/-- The lines that the signals of one stream carry. -/
def emittedLines (stream : Stream) (signals : List LogLine) : List (List UInt8) :=
  (signals.filter fun l => l.stream = stream).flatMap LogLine.lines

/-! ## Splitting -/

theorem count_replaceCRLF (s : List UInt8) : (replaceCRLF s).count lf = s.count lf := by
  induction s with
  | nil => rfl
  | cons c rest ih =>
    rw [replaceCRLF]
    split
    · rename_i hc
      rw [ih, hc.1, count_cons_of_ne (by decide)]
    · rw [count_cons, count_cons, ih]

/-- The last byte stays: a carriage return that goes has a newline behind it. -/
theorem getLast?_replaceCRLF (s : List UInt8) : (replaceCRLF s).getLast? = s.getLast? := by
  induction s with
  | nil => rfl
  | cons c rest ih =>
    rw [replaceCRLF]
    split
    · rename_i hc
      obtain ⟨tail, rfl⟩ := head?_eq_some_iff.mp hc.2
      rw [ih, getLast?_cons_cons]
    · rw [getLast?_cons, getLast?_cons, ih]

/-- A cut behind a newline parts no `"\r\n"`. -/
theorem replaceCRLF_append {p : List UInt8} (h : p.getLast? = some lf) (q : List UInt8) :
    replaceCRLF (p ++ q) = replaceCRLF p ++ replaceCRLF q := by
  induction p with
  | nil => cases h
  | cons c rest ih =>
    cases rest with
    | nil =>
      obtain rfl : c = lf := Option.some.inj h
      rfl
    | cons d rest =>
      rw [getLast?_cons_cons] at h
      have hrest := ih h
      rw [cons_append] at hrest
      rw [cons_append, cons_append, replaceCRLF, hrest, replaceCRLF.eq_2 c, head?_cons, head?_cons]
      split <;> rfl

theorem length_splitOn_lf (s : List UInt8) : (s.splitOn lf).length = s.count lf + 1 := by
  induction s with
  | nil => rfl
  | cons c rest ih =>
    rw [splitOn_cons_eq_if_modifyHead, count_cons]
    split <;> simp_all

theorem length_splitLines (s : List UInt8) :
    (splitLines s).length = s.count lf + if s.getLast? = some lf then 0 else 1 := by
  simp only [splitLines, length_map, getLast?_replaceCRLF]
  split
  · rw [length_dropLast, length_splitOn_lf, count_replaceCRLF, Nat.add_sub_cancel, Nat.add_zero]
  · rw [length_splitOn_lf, count_replaceCRLF]

/-- A cut behind a newline parts no line. -/
theorem splitLines_append {p q : List UInt8} (hp : p.getLast? = some lf) (hq : q ≠ []) :
    splitLines (p ++ q) = splitLines p ++ splitLines q := by
  have hlast := getLast?_replaceCRLF p
  obtain ⟨init, hinit⟩ := getLast?_eq_some_iff.mp (hlast.trans hp)
  have hend : (p ++ q).getLast? = q.getLast? := getLast?_append_of_ne_nil _ hq
  simp only [splitLines, getLast?_replaceCRLF, hend, hp, if_pos, ← map_append]
  rw [replaceCRLF_append hp, hinit, append_assoc, singleton_append, splitOn_append_cons_self,
    splitOn_append_cons_self]
  have hnil : (([] : List UInt8).splitOn lf) = [[]] := rfl
  rw [hnil, dropLast_concat]
  split
  · rw [dropLast_append_of_ne_nil (splitOn_ne_nil _ _)]
  · rfl

/-! ## Pieces -/

section

variable {ps : List (List UInt8)}

/-- A piece that does not end with a newline, and is not the last one, makes a line too many. -/
theorem length_flatMap_splitLines (hps : ∀ p ∈ ps, p ≠ []) :
    (ps.flatMap splitLines).length = (linesOf ps.flatten).length +
      ps.dropLast.countP fun p => p.getLast? ≠ some lf := by
  induction ps with
  | nil => rfl
  | cons p ps ih =>
    obtain ⟨hp, hps⟩ := forall_mem_cons.mp hps
    cases ps with
    | nil => simp [linesOf, hp]
    | cons p' ps =>
      have hne : (p' :: ps).flatten ≠ [] := by simp [hps p' mem_cons_self]
      have hlast : (p ++ (p' :: ps).flatten).getLast? = (p' :: ps).flatten.getLast? :=
        getLast?_append_of_ne_nil _ hne
      have hflat : (p :: p' :: ps).flatten = p ++ (p' :: ps).flatten := rfl
      have hrest := ih hps
      rw [linesOf_of_ne hne, length_splitLines] at hrest
      rw [flatMap_cons, length_append, hrest, dropLast_cons_cons, countP_cons, hflat,
        linesOf_of_ne (append_ne_nil_of_left_ne_nil hp _), length_splitLines, length_splitLines,
        count_append, hlast]
      by_cases hend : p.getLast? = some lf <;> simp [hend] <;> omega

/-- **Splitting piece by piece** gives the lines of the whole exactly if every piece but the last
    ends with a newline. -/
theorem flatMap_splitLines_iff (hps : ∀ p ∈ ps, p ≠ []) :
    ps.flatMap splitLines = linesOf ps.flatten ↔ ∀ p ∈ ps.dropLast, p.getLast? = some lf := by
  constructor
  · intro h
    have hlen := length_flatMap_splitLines hps
    rw [h] at hlen
    have hzero : (ps.dropLast.countP fun p => p.getLast? ≠ some lf) = 0 := by omega
    simpa using countP_eq_zero.mp hzero
  · intro h
    induction ps with
    | nil => rfl
    | cons p ps ih =>
      obtain ⟨hp, hps⟩ := forall_mem_cons.mp hps
      cases ps with
      | nil => simp [linesOf, hp]
      | cons p' ps =>
        rw [dropLast_cons_cons, forall_mem_cons] at h
        have hne : (p' :: ps).flatten ≠ [] := by simp [hps p' mem_cons_self]
        have hflat : (p :: p' :: ps).flatten = p ++ (p' :: ps).flatten := rfl
        have hrest := ih hps h.2
        rw [linesOf_of_ne hne] at hrest
        rw [flatMap_cons, hrest, hflat, linesOf_of_ne (append_ne_nil_of_left_ne_nil hp _),
          splitLines_append h.1 hne]

end

/-! ## The log -/

theorem streamLogs_wire (f : Frame) (more : List UInt8) :
    streamLogs (f.wire ++ more) =
      (if f.payload = [] then [] else [⟨f.stream, splitLines f.payload⟩]) ++ streamLogs more := by
  have hfits := f.fits
  have hwire : f.wire ++ more = f.kind :: 0 :: 0 :: 0 ::
      ((leBytes 4 f.payload.length).reverse ++ (f.payload ++ more)) := by
    simp [Frame.wire]
  have hlen : (leBytes 4 f.payload.length).reverse.length = 4 := by simp
  have hsize : leNat (leBytes 4 f.payload.length) = f.payload.length := by
    rw [leNat_leBytes, Nat.mod_eq_of_lt (by omega)]
  have hrest : (f.wire ++ more).drop 8 = f.payload ++ more := by
    rw [hwire]
    exact drop_left' hlen
  have hlong : ¬ (f.wire ++ more).length < 8 := by
    simp [hwire]
  rw [streamLogs, if_neg hlong]
  simp only [hrest]
  rw [hwire]
  simp only [drop_succ_cons, drop_zero, take_left' hlen, reverse_reverse, hsize, head?_cons]
  by_cases hnil : f.payload = []
  · simp [hnil]
  have hpos : f.payload.length ≠ 0 := by simpa using hnil
  have hlines : splitLines f.payload ≠ [] := by
    intro hempty
    have hcount := length_splitLines f.payload
    rw [hempty, length_nil] at hcount
    split at hcount
    · rename_i hlast
      have hlf := count_pos_iff.mpr (mem_of_getLast? hlast)
      omega
    · omega
  rw [if_neg hpos, if_neg (by simp), take_left, drop_left, if_neg hlines, if_neg hnil]
  simp [Frame.stream]

theorem emittedLines_streamLogs (stream : Stream) (frames : List Frame) :
    emittedLines stream (streamLogs (frames.flatMap Frame.wire)) =
      (pieces stream frames).flatMap splitLines := by
  induction frames with
  | nil => simp [streamLogs, emittedLines, pieces]
  | cons f frames ih =>
    have hsplit : ∀ a b, emittedLines stream (a ++ b) =
        emittedLines stream a ++ emittedLines stream b := by simp [emittedLines]
    rw [flatMap_cons, streamLogs_wire, hsplit, ih]
    by_cases hstream : f.stream = stream <;> by_cases hnil : f.payload = [] <;>
      simp [emittedLines, pieces, hstream, hnil]

/-- **The lines that are emitted of a stream** are those of what was written to it exactly if
    every frame of the stream with bytes in it, but the last, ends with a newline. -/
theorem emittedLines_iff (stream : Stream) (frames : List Frame) :
    emittedLines stream (streamLogs (frames.flatMap Frame.wire)) =
        linesOf (written stream frames) ↔
      ∀ p ∈ (pieces stream frames).dropLast, p.getLast? = some lf := by
  have hwritten : written stream frames = (pieces stream frames).flatten := by
    rw [written, pieces, flatten_filter_ne_nil, flatMap_def]
  rw [emittedLines_streamLogs, hwritten]
  apply flatMap_splitLines_iff
  simp [pieces]

/-- A line that the daemon cuts in two comes out as two lines. -/
theorem line_cut_in_two :
    let whole : List Frame := [⟨1, [97, 98, lf], by decide⟩]
    let cut : List Frame := [⟨1, [97], by decide⟩, ⟨1, [98, lf], by decide⟩]
    written .stdout whole = written .stdout cut ∧
      linesOf (written .stdout cut) = [[97, 98]] ∧
      emittedLines .stdout (streamLogs (whole.flatMap Frame.wire)) = [[97, 98]] ∧
      emittedLines .stdout (streamLogs (cut.flatMap Frame.wire)) = [[97], [98]] := by
  simp only [emittedLines_streamLogs]
  decide

end Orchestrator.Job.Docker

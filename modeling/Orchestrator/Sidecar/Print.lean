/-
  Orchestrator.Sidecar.Print

  What the summary of an upper layer tells (internal/sidecar/sync.go, `printDelta`).

  A push is skipped when the summary is the one of the last push: the number of entries, the
  bytes of all files and the newest modification time.

  A call that makes, removes, renames or writes leaves its time on an entry or on the directory
  it is in, and when that directory goes, on the one above.  So a run of such calls after the
  newest time leaves the same summary only if it leaves the same layer.  A change of mode
  leaves no time, and a call that sets times can take one back.
-/

import Orchestrator.Sidecar.Delta

namespace Orchestrator.Sidecar

open Lib Lib.Posix Lib.Overlay

/-! ## System calls on a layer -/

/-- The upper directory as a walk finds it: its own time, and its entries. -/
structure Upper where
  mtime : Int
  records : List Record
deriving DecidableEq, Repr

def upperOf (l : Layer) : Upper := ⟨l.mtime, l.records⟩

inductive Op where
  | create (p : Path) (n : LayerNode) (mode : Nat)
  | delete (p : Path)
  | rename (old new : Path)
  | write (p : Path) (bytes : List UInt8)
  | truncate (p : Path) (size : Nat)
  | chmod (p : Path) (mode : Nat)
  | setTimes (p : Path) (mtime : Int)
deriving DecidableEq, Repr

/-- The calls that leave their time behind. -/
def Op.leavesTime : Op → Bool
  | chmod _ _ => false
  | setTimes _ _ => false
  | _ => true

namespace Upper

variable (u : Upper) (now : Int)

/-- `printDelta` of a layer that has been changed. -/
def print : DeltaPrint :=
  u.records.foldl printStep ⟨1, 0, if u.mtime > 0 then u.mtime else 0⟩

def isDir (p : Path) : Bool :=
  p = [] ∨ nodeAt u.records p = some (.dir false) ∨ nodeAt u.records p = some (.dir true)

/-- Nothing is strictly below `p`. -/
def isLeaf (p : Path) : Bool := ∀ r ∈ u.records, p <+: r.path → r.path = p

def update (p : Path) (f : Record → Record) : Upper :=
  { u with records := u.records.map fun r => if r.path = p then f r else r }

def touch (p : Path) : Upper :=
  if p = [] then { u with mtime := now } else u.update p fun r => { r with mtime := now }

def setBytes (p : Path) (bytes : List UInt8) : Upper :=
  u.update p fun r => { r with node := .file bytes, mtime := now }

/-- The layer after a call at the time `now`, if it succeeds and changes something. -/
def apply : Op → Option Upper
  | .create p n mode =>
    if p ≠ [] ∧ u.isDir p.dropLast ∧ nodeAt u.records p = none then
      some (({ u with records := u.records ++ [⟨p, n, mode, now⟩] } : Upper).touch now p.dropLast)
    else none
  | .delete p =>
    if p ≠ [] ∧ u.isDir p.dropLast ∧ nodeAt u.records p ≠ none ∧ u.isLeaf p then
      some (({ u with records := u.records.filter (·.path ≠ p) } : Upper).touch now p.dropLast)
    else none
  | .rename old new =>
    if old ≠ [] ∧ new ≠ [] ∧ u.isDir old.dropLast ∧ u.isDir new.dropLast ∧
        nodeAt u.records old ≠ none ∧ ¬old <+: new ∧ u.isLeaf new ∧
        (nodeAt u.records new = none ∨ u.isDir new = u.isDir old) then
      let moved := (u.records.filter (·.path ≠ new)).map fun r =>
        if old <+: r.path then { r with path := new ++ r.path.drop old.length } else r
      some ((({ u with records := moved } : Upper).touch now old.dropLast).touch now new.dropLast)
    else none
  | .write p bytes =>
    match nodeAt u.records p with
    | some (.file _) => some (u.setBytes now p bytes)
    | _ => none
  | .truncate p size =>
    match nodeAt u.records p with
    | some (.file bytes) =>
      -- a file that has the size already is left alone
      if bytes.length = size then none
      else some (u.setBytes now p (bytes.takeD size 0))
    | _ => none
  | .chmod p mode =>
    match nodeAt u.records p with
    -- a link has no mode of its own
    | none | some (.link _) => none
    | some _ => some (u.update p fun r => { r with mode := mode })
  | .setTimes p mtime =>
    if p = [] ∨ nodeAt u.records p ≠ none then some (u.touch mtime p) else none

def step (e : Int × Op) : Upper := (u.apply e.1 e.2).getD u

def run (es : List (Int × Op)) : Upper := es.foldl step u

end Upper

/-! ## Newer times -/

def Late (N : Int) (u : Upper) : Prop := N < u.mtime ∨ ∃ r ∈ u.records, N < r.mtime

section

variable {N now : Int} {u u' : Upper} {p : Path} {op : Op}

theorem newest_foldl (records : List Record) (d : DeltaPrint) :
    d.newest ≤ (records.foldl printStep d).newest ∧
      ∀ r ∈ records, r.mtime ≤ (records.foldl printStep d).newest := by
  induction records generalizing d with
  | nil => simp
  | cons r records ih =>
    obtain ⟨hstart, hall⟩ := ih (printStep d r)
    have hstep : d.newest ≤ (printStep d r).newest ∧ r.mtime ≤ (printStep d r).newest := by
      simp only [printStep]
      split <;> omega
    refine ⟨hstep.1.trans hstart, fun r' hr' => ?_⟩
    rcases List.mem_cons.mp hr' with rfl | hr'
    · exact hstep.2.trans hstart
    · exact hall r' hr'

theorem Late.newest (h : Late N u) : N < u.print.newest := by
  have hall := newest_foldl u.records ⟨1, 0, if u.mtime > 0 then u.mtime else 0⟩
  rcases h with hroot | ⟨r, hr, hlt⟩
  · have hstart : u.mtime ≤ (if u.mtime > 0 then u.mtime else 0) := by
      split <;> omega
    exact Int.lt_of_lt_of_le hroot (hstart.trans hall.1)
  · exact Int.lt_of_lt_of_le hlt (hall.2 r hr)

/-- A path is in the layer: the directory itself, or an entry. -/
def Has (u : Upper) (p : Path) : Prop := p = [] ∨ ∃ r ∈ u.records, r.path = p

theorem mem_of_node {n : LayerNode} (h : nodeAt u.records p = some n) :
    ∃ r ∈ u.records, r.path = p := by
  obtain ⟨r, hr, hp, -⟩ := mem_of_nodeAt h
  exact ⟨r, hr, hp⟩

theorem has_of_isDir (h : u.isDir p) : Has u p := by
  rcases of_decide_eq_true h with hp | hn | hn
  · exact .inl hp
  · exact .inr (mem_of_node hn)
  · exact .inr (mem_of_node hn)

theorem late_update (h : ∃ r ∈ u.records, r.path = p) {f : Record → Record}
    (hf : ∀ r, N < (f r).mtime) : Late N (u.update p f) := by
  obtain ⟨r, hr, rfl⟩ := h
  exact .inr ⟨f r, List.mem_map.mpr ⟨r, hr, if_pos rfl⟩, hf r⟩

theorem late_touch (h : Has u p) (hnow : N < now) : Late N (u.touch now p) := by
  unfold Upper.touch
  split
  · exact .inl hnow
  · rename_i hp
    exact late_update (h.resolve_left hp) fun _ => hnow

theorem has_touch {q : Path} (h : Has u q) : Has (u.touch now p) q := by
  unfold Upper.touch Upper.update
  rcases h with hq | ⟨r, hr, rfl⟩
  · exact .inl hq
  split
  · exact .inr ⟨r, hr, rfl⟩
  · refine .inr ⟨_, List.mem_map_of_mem hr, ?_⟩
    split <;> rfl

theorem dropLast_ne (hp : p ≠ []) : p.dropLast ≠ p := by
  intro heq
  have hlen := congrArg List.length heq
  rw [List.length_dropLast] at hlen
  have hpos := List.length_pos_iff.mpr hp
  omega

theorem has_filter (h : Has u p.dropLast) (hp : p ≠ []) :
    Has ⟨u.mtime, u.records.filter (·.path ≠ p)⟩ p.dropLast := by
  rcases h with hroot | ⟨r, hr, hpath⟩
  · exact .inl hroot
  · refine .inr ⟨r, List.mem_filter.mpr ⟨hr, ?_⟩, hpath⟩
    rw [hpath]
    exact decide_eq_true (dropLast_ne hp)

theorem has_moved {old new q : Path} (h : Has u q) (hq : ¬old <+: q) :
    Has ⟨u.mtime, u.records.map fun r =>
      if old <+: r.path then { r with path := new ++ r.path.drop old.length } else r⟩ q := by
  rcases h with hroot | ⟨r, hr, rfl⟩
  · exact .inl hroot
  · exact .inr ⟨r, List.mem_map.mpr ⟨r, hr, if_neg hq⟩, rfl⟩

/-- **One call** that changes something. -/
theorem late_apply (h : u.apply now op = some u') (hnow : N < now) (hop : op.leavesTime) :
    Late N u' := by
  cases op with
  | create p n mode =>
    simp only [Upper.apply, Option.ite_none_right_eq_some, Option.some.injEq] at h
    obtain ⟨⟨-, hdir, -⟩, rfl⟩ := h
    apply late_touch _ hnow
    rcases has_of_isDir hdir with hroot | ⟨r, hr, hpath⟩
    · exact .inl hroot
    · exact .inr ⟨r, List.mem_append_left _ hr, hpath⟩
  | delete p =>
    simp only [Upper.apply, Option.ite_none_right_eq_some, Option.some.injEq] at h
    obtain ⟨⟨hp, hdir, -⟩, rfl⟩ := h
    exact late_touch (has_filter (has_of_isDir hdir) hp) hnow
  | rename old new =>
    simp only [Upper.apply, Option.ite_none_right_eq_some, Option.some.injEq] at h
    obtain ⟨⟨-, hnew, -, hdir, -, hinto, -⟩, rfl⟩ := h
    have hstays : ¬old <+: new.dropLast := fun h => hinto (h.trans (List.dropLast_prefix new))
    have hthere := has_filter (has_of_isDir hdir) hnew
    exact late_touch (has_touch (has_moved hthere hstays)) hnow
  | write p bytes =>
    simp only [Upper.apply] at h
    split at h
    · rename_i old hnode
      cases h
      exact late_update (mem_of_node hnode) fun _ => hnow
    · cases h
  | truncate p size =>
    simp only [Upper.apply] at h
    split at h
    · rename_i old hnode
      simp only [Option.ite_none_left_eq_some, Option.some.injEq] at h
      obtain ⟨-, rfl⟩ := h
      exact late_update (mem_of_node hnode) fun _ => hnow
    · cases h
  | chmod p mode | setTimes p mtime => cases hop

end

/-! ## Runs -/

/-- A run either changed nothing, or something has a new time after it. -/
theorem run_cases {N : Int} {u : Upper} {es : List (Int × Op)}
    (hes : ∀ e ∈ es, N < e.1 ∧ e.2.leavesTime) : u.run es = u ∨ Late N (u.run es) := by
  induction es using List.reverseRecOn with
  | nil => exact .inl rfl
  | append_singleton es e ih =>
    obtain ⟨hnow, hop⟩ := hes e (by simp)
    have hlast : u.run (es ++ [e]) = (u.run es).step e := List.foldl_concat ..
    rw [hlast, Upper.step]
    cases happly : (u.run es).apply e.1 e.2 with
    | none => exact ih fun e' he' => hes e' (List.mem_append_left _ he')
    | some u' => exact .inr (late_apply happly hnow hop)

/-- **What the summary tells**: after calls that come later than the newest time, change no
    modes and set no times, the summary is the same exactly if the layer is. -/
theorem same_print_iff (l : Layer) (es : List (Int × Op))
    (hes : ∀ e ∈ es, (printDelta l).newest < e.1 ∧ e.2.leavesTime) :
    ((upperOf l).run es).print = printDelta l ↔ (upperOf l).run es = upperOf l := by
  constructor
  · intro hsame
    rcases run_cases (u := upperOf l) hes with hrun | hlate
    · exact hrun
    · have hlt := hlate.newest
      rw [hsame] at hlt
      exact absurd hlt (Int.lt_irrefl _)
  · intro hrun
    rw [hrun]
    rfl

/-! ## What is not noticed -/

section

def oneFile : Layer where
  records := [⟨["f".toList], .file [1], 0o644, 5⟩]
  mtime := 5
  nodup := by decide
  placed := by
    intro pre r post h
    obtain ⟨rfl, rfl, -⟩ : pre = [] ∧ r = ⟨["f".toList], .file [1], 0o644, 5⟩ ∧ post = [] := by
      cases pre <;> simp_all
    exact ⟨[], "f".toList, rfl, by decide, .inl rfl⟩
  target_ne := by decide

theorem same_print_iff_oneFile :
    ((upperOf oneFile).run [(6, .write ["f".toList] [2])]).print = printDelta oneFile ↔
      (upperOf oneFile).run [(6, .write ["f".toList] [2])] = upperOf oneFile :=
  same_print_iff oneFile [(6, .write ["f".toList] [2])] (by decide)

/-- A change of mode, and a write whose time is set back, leave the same summary. -/
theorem mode_and_time_missed :
    ((upperOf oneFile).run [(6, .chmod ["f".toList] 0o755)]).print = printDelta oneFile ∧
      ((upperOf oneFile).run [(6, .chmod ["f".toList] 0o755)]).records =
        [⟨["f".toList], .file [1], 0o755, 5⟩] ∧
      ((upperOf oneFile).run [(6, .write ["f".toList] [2]), (7, .setTimes ["f".toList] 5)]).print =
        printDelta oneFile ∧
      ((upperOf oneFile).run [(6, .write ["f".toList] [2]), (7, .setTimes ["f".toList] 5)]).records =
        [⟨["f".toList], .file [2], 0o644, 5⟩] := by
  decide

end

end Orchestrator.Sidecar

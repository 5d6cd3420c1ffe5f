/-
  Orchestrator.Sidecar.Sync

  A synced mount over the lives of its sidecar (internal/sidecar/sync.go, with `Mount` and
  `adoptExistingMounts` of runner.go): the upper layer that the workload writes, the object
  at the sync destination, and the baseline that lets a push be skipped.

  A push is three steps (the summary, the archive, the upload), so the workload may write
  between any two of them, and each of them may fail, with or without saying so.  What the
  artifacts do to a layer is a `Format`: how a layer is summarised, packed and unpacked.

  With nothing between them, and the format `deltaFormat`, the steps are `pushDelta` of
  Orchestrator.Sidecar.Delta.
-/

import Orchestrator.Lib.Machine
import Orchestrator.Sidecar.Delta

namespace Orchestrator.Sidecar.Sync

open Lib Lib.Machine

/-! ## Layers and archives -/

/-- What the artifacts of a push and a restore do to an upper layer. -/
structure Format where
  Layer : Type
  Archive : Type
  Print : Type
  [decArchive : DecidableEq Archive]
  [decPrint : DecidableEq Print]
  empty : Layer
  fresh : Layer → Bool
  print : Layer → Print
  /-- What the archive holds, and whether the walk came to its end. -/
  pack : Layer → Archive × Bool
  /-- If the archive is staged in the mount itself: the layer after it was there. -/
  staged : Option (Layer → Layer)
  /-- Extract an archive over a layer, and open the result up. -/
  unpack : Archive → Layer → Layer

instance (F : Format) : DecidableEq F.Archive := F.decArchive

instance (F : Format) : DecidableEq F.Print := F.decPrint

variable {F : Format}

def Holds (object : Option F.Archive) (l : F.Layer) : Prop :=
  object = some (F.pack l).1 ∧ (F.pack l).2 = true

instance (object : Option F.Archive) (l : F.Layer) : Decidable (Holds object l) :=
  inferInstanceAs (Decidable (_ ∧ _))

/-! ## The sidecar, the volume and the object store -/

inductive Phase where
  /-- No process, or one whose mounts were not set up. -/
  | down
  /-- In `Mount`, before `restoreDelta`. -/
  | mounting
  /-- In `Mount`, before `establishMounts`. -/
  | restored
  | syncing
  /-- In `StopSync`, after the loop has ended. -/
  | flushing
  /-- In `Release`, after `StopSync`. -/
  | flushed
deriving DecidableEq, Repr

def Phase.syncs : Phase → Bool
  | .syncing => true
  | .flushing => true
  | _ => false

inductive Push (F : Format) where
  | idle
  /-- After `printDelta`, which may have failed. -/
  | printed (print : Option F.Print)
  /-- After the first artifact, with the archive and whether it reported success. -/
  | packed (print : Option F.Print) (archive : Option F.Archive) (whole : Bool)

structure State (F : Format) where
  upper : Option F.Layer
  overlay : Bool
  object : Option F.Archive
  /-- `r.sync.pushed` of the mount. -/
  pushed : Option F.Print
  phase : Phase
  push : Push F
  /-- The workload has written since the last summary was taken. -/
  written : Bool
  /-- A restore has not read the object, and none has since. -/
  unread : Bool

/-- What becomes of an `Unmount`, which takes the overlay away and then the scratch
    directory with the upper layer in it. -/
inductive Teardown where
  | whole
  | overlayOnly
  | refused
deriving DecidableEq, Repr

/-- What becomes of `restoreDelta`. -/
inductive Restore (F : Format) where
  /-- It returns an error, and the upper directory is left as it is then. -/
  | fails (left : Option F.Layer)
  /-- The download ends with an `os.ErrNotExist` of the host, which is taken for a destination
      that does not exist. -/
  | missing
  /-- It returns nil; the summary of the result may have failed. -/
  | ends (printed : Bool)

/-- What becomes of `establishMounts`. -/
inductive Establish where
  | up
  /-- This mount, or one before it, fails. -/
  | down (scratchRemoved : Bool)
  /-- A mount after this one fails, and this one is rolled back. -/
  | rolledBack (t : Teardown)
deriving DecidableEq, Repr

/-- What `pushDelta` sees of the upper directory. -/
inductive Look where
  | seen
  | noStat
  | noPrint
deriving DecidableEq, Repr

inductive Event (F : Format) where
  | write (l : F.Layer)
  /-- The sidecar's process ends, and the overlay may be lost with it. -/
  | crash (overlayLost : Bool)
  /-- A sidecar starts and looks for its mounts.  `others` says whether all other targets
      are mounted, if the mounts can be inspected. -/
  | start (others : Option Bool) (t : Teardown)
  | restore (r : Restore F)
  | establish (e : Establish)
  /-- `pushDelta` begins, on the interval or in `StopSync`. -/
  | print (look : Look)
  /-- The archive is written.  `disturbed` is what it holds, and whether success is reported,
      if the layer has changed, the archive is in it, or a call fails. -/
  | pack (disturbed : Option F.Archive × Bool) (faulty : Bool)
  | upload (answer : StoreAnswer)
  | stopSync
  /-- `Release` goes on to unmount, and the process ends. -/
  | release (t : Teardown)

/-- What is there when `pushDelta` returns nil. -/
structure Returned (F : Format) where
  object : Option F.Archive
  upper : Option F.Layer
  written : Bool

def State.unmount (s : State F) : Teardown → State F
  | .whole => { s with overlay := false, upper := none }
  | .overlayOnly => { s with overlay := false }
  | .refused => s

/-- The process ends, and its memory with it. -/
def State.exit (s : State F) : State F := { s with phase := .down, push := .idle, pushed := none }

def State.finish (s : State F) : State F :=
  { s with push := .idle, phase := if s.phase = .flushing then .flushed else s.phase }

def State.returnNil (s : State F) : State F × List (Returned F) :=
  (s.finish, [⟨s.object, s.upper, s.written⟩])

/-- `adoptExistingMounts`, and what `RunPost` does with the result. -/
def State.start (s : State F) : Option Bool → Teardown → State F
  | none, _ => s
  | some others, t =>
    if s.overlay = false then { s with phase := .mounting }
    else if others then { s with phase := .syncing }
    -- a part of the mounts is stale: it is taken away, and all are set up again
    else if t = .whole then { s.unmount t with phase := .mounting }
    else s.unmount t

def State.restoreDelta (s : State F) : Restore F → State F
  | .fails left => { s with upper := left, unread := true }.exit
  | .missing =>
    { s with
      upper := some (s.upper.getD F.empty)
      phase := .restored
      unread := s.unread || s.object.isSome }
  | .ends printed =>
    let base := s.upper.getD F.empty
    match s.object with
    -- a first session
    | none => { s with upper := some base, phase := .restored, unread := false }
    | some archive =>
      let l := F.unpack archive base
      { s with
        upper := some l
        pushed := if printed then some (F.print l) else s.pushed
        phase := .restored
        unread := false }

def State.establish (s : State F) : Establish → State F
  | .up => { s with overlay := true, phase := .syncing }
  | .down removed => { s with upper := if removed then none else s.upper }.exit
  | .rolledBack t => ({ s with overlay := true }.unmount t).exit

/-- `pushDelta` up to the first artifact. -/
def State.beginPush (s : State F) (look : Look) : State F × List (Returned F) :=
  match s.upper, look with
  -- nothing mounted, nothing to push
  | none, _ => { s with written := false }.returnNil
  | some _, .noStat => { s with written := false }.returnNil
  | some _, .noPrint => ({ s with push := .printed none, written := false }, [])
  | some l, .seen =>
    if s.pushed = some (F.print l) then { s with written := false }.returnNil
    else ({ s with push := .printed (some (F.print l)), written := false }, [])

/-- What the first artifact of a push leaves, and whether it reports success. -/
def packed (written : Bool) (l : F.Layer) (disturbed : Option F.Archive × Bool) (faulty : Bool) :
    Option F.Archive × Bool :=
  if written ∨ F.staged.isSome ∨ faulty then disturbed else (some (F.pack l).1, (F.pack l).2)

def State.pack (s : State F) (print : Option F.Print) (l : F.Layer)
    (out : Option F.Archive × Bool) : State F :=
  { s with upper := some (F.staged.elim l (· l)), push := .packed print out.1 out.2 }

/-- The end of `pushDelta`: the second artifact, which runs whether or not the first one
    failed. -/
def State.upload (s : State F) (print : Option F.Print) (whole : Bool) :
    Option F.Archive → StoreAnswer → State F × List (Returned F)
  -- there is nothing to open
  | none, _ => (s.finish, [])
  | some archive, .through =>
    if whole then { s with object := some archive, pushed := print <|> s.pushed }.returnNil
    else ({ s with object := some archive }.finish, [])
  | some _, .refused => (s.finish, [])
  | some archive, .lost => ({ s with object := some archive }.finish, [])

/-- An event that the state does not allow changes nothing. -/
def step (s : State F) : Event F → State F × List (Returned F)
  | .write l =>
    if s.overlay = true ∧ s.upper.isSome then
      ({ s with upper := some l, written := true }, [])
    else (s, [])
  | .crash overlayLost => ({ s with overlay := s.overlay && !overlayLost }.exit, [])
  | .start others t => if s.phase = .down then (s.start others t, []) else (s, [])
  | .restore r => if s.phase = .mounting then (s.restoreDelta r, []) else (s, [])
  | .establish e => if s.phase = .restored then (s.establish e, []) else (s, [])
  | .print look =>
    match s.push with
    | .idle => if s.phase.syncs then s.beginPush look else (s, [])
    | _ => (s, [])
  | .pack disturbed faulty =>
    match s.push, s.upper with
    | .printed print, some l => (s.pack print l (packed s.written l disturbed faulty), [])
    | _, _ => (s, [])
  | .upload answer =>
    match s.push with
    | .packed print archive whole => s.upload print whole archive answer
    | _ => (s, [])
  | .stopSync =>
    match s.push with
    | .idle => if s.phase = .syncing then ({ s with phase := .flushing }, []) else (s, [])
    -- the loop is waited for
    | _ => (s, [])
  | .release t => if s.phase = .flushed then ((s.unmount t).exit, []) else (s, [])

/-- Before the first session on a volume; there may be an object of earlier ones. -/
def State.init (object : Option F.Archive) : State F where
  upper := none
  overlay := false
  object := object
  pushed := none
  phase := .down
  push := .idle
  written := false
  unread := false

/-- A push that is not skipped goes on with a summary; it is skipped without one, or if the
    summary is the baseline. -/
theorem beginPush_cases (s : State F) (look : Look) :
    (s.beginPush look = { s with written := false }.returnNil ∧
      ∀ l, s.upper = some l → look = .noStat ∨ s.pushed = some (F.print l)) ∨
    ∃ l print, s.beginPush look = ({ s with push := .printed print, written := false }, []) ∧
      s.upper = some l ∧ (look = .noPrint ∨ print = some (F.print l)) := by
  obtain ⟨upper, overlay, object, pushed, phase, push, written, unread⟩ := s
  cases upper with
  | none => exact .inl ⟨rfl, nofun⟩
  | some l =>
    cases look with
    | noStat => exact .inl ⟨rfl, fun _ _ => .inl rfl⟩
    | noPrint => exact .inr ⟨l, none, rfl, rfl, .inl rfl⟩
    | seen =>
      simp only [State.beginPush]
      split
      · rename_i hsame
        refine .inl ⟨rfl, fun l' hl' => .inr ?_⟩
        cases hl'
        exact hsame
      · exact .inr ⟨l, some (F.print l), rfl, rfl, .inr rfl⟩

/-! ## A push with nothing between its steps -/

section

open Overlay Artifact

variable {env : SyncEnv} {m : Mount} {unpack : Stream → Layer → Layer} {empty : Layer}
  {left : Layer → Layer}

/-- The layers of Orchestrator.Lib.Overlay, as `pushDelta` of a mount summarises and packs
    them. -/
abbrev deltaFormat (env : SyncEnv) (m : Mount) (unpack : Stream → Layer → Layer) (empty : Layer)
    (left : Layer → Layer) : Format where
  Layer := Layer
  Archive := Stream
  Print := DeltaPrint
  empty := empty
  fresh l := l.records.isEmpty
  print := printDelta
  pack l :=
    ({ entries := (archiveDir env.utf8 l.records).1 }, (archiveDir env.utf8 l.records).2.isNone)
  staged := if stagedInside m then some left else none
  unpack := unpack

/-- The two hold the same about a mount. -/
structure Agree (s : State (deltaFormat env m unpack empty left)) (d : SyncState) : Prop where
  pushed : s.pushed = d.pushed m.id
  object : s.object = d.objects m.sync

end

end Orchestrator.Sidecar.Sync

/-
  Orchestrator.Artifact.Archive

  Packing a directory into a tar stream (internal/artifact/archive.go, workspace.go).

  The directory is the upper layer of an overlay, in the order the walk visits it.  A
  directory or a link becomes a header; anything else is opened, which only a regular
  file survives.  Every name goes through io/fs, which takes valid UTF-8 only.  The first
  error ends the walk, and the archive is closed with what was written up to then.
-/

import Orchestrator.Artifact.Unarchive
import Orchestrator.Lib.Overlay

namespace Orchestrator.Artifact

open Lib Lib.Posix Lib.Prog Lib.Overlay

/-! ## archiveDir -/

inductive ArchiveError where
  /-- The walk or the open was refused for the name. -/
  | invalidName (path : Path)
  /-- Neither a regular file nor a directory could be opened. -/
  | notRegular (path : Path)
  /-- The content did not fit its header. -/
  | writeTooLong (path : Path)
deriving DecidableEq, Repr

def tarEntry (r : Record) : Entry :=
  let name := joinSlash r.path
  match r.node with
  | .dir _ => { header := { name := name, typeflag := .dir } }
  | .link target => { header := { name := name, typeflag := .symlink, linkname := target } }
  | .file bytes => { header := { name := name, typeflag := .reg, mode := r.mode }, body := bytes }
  | .whiteout | .special _ => { header := { name := name, typeflag := .other } }

/-- The visit of one entry: what it writes, and why it stops the walk; `utf8` are the names
    that io/fs accepts (utf8.ValidString). -/
def archiveEntry (utf8 : Name → Bool) (r : Record) : List Entry × Option ArchiveError :=
  if r.path.all utf8 then
    -- a device, a FIFO or a socket: the open fails, or finds no regular file
    if r.node.isSpecial then ([], some (.notRegular r.path)) else ([tarEntry r], none)
  else
    match r.node with
    -- the header is written before the directory is read
    | .dir _ => ([tarEntry r], some (.invalidName r.path))
    | _ => ([], some (.invalidName r.path))

/-- The walk: the entries in the archive, which is closed in any case, and the error. -/
def archiveDir (utf8 : Name → Bool) : List Record → List Entry × Option ArchiveError
  | [] => ([], none)
  | r :: rest =>
    match archiveEntry utf8 r with
    | (written, some err) => (written, some err)
    | (written, none) => (written ++ (archiveDir utf8 rest).1, (archiveDir utf8 rest).2)

/-- What the visit of an entry asks for. -/
def Packable (utf8 : Name → Bool) (r : Record) : Prop :=
  r.path.all utf8 = true ∧ r.node.isSpecial = false

section

variable {utf8 : Name → Bool} {r : Record}

theorem archiveEntry_of_packable (h : Packable utf8 r) :
    archiveEntry utf8 r = ([tarEntry r], none) := by
  unfold archiveEntry
  rw [if_pos h.1, h.2]
  rfl

theorem packable_of_archiveEntry (h : (archiveEntry utf8 r).2 = none) : Packable utf8 r := by
  unfold archiveEntry at h
  split at h
  · rename_i hutf8
    refine ⟨hutf8, ?_⟩
    split at h
    · cases h
    · rename_i hnode
      exact Bool.eq_false_iff.mpr hnode
  · split at h <;> cases h

/-- **Packing succeeds** exactly on a layer without whiteouts and special files whose names are
    valid. -/
theorem archiveDir_ok_iff {records : List Record} :
    (archiveDir utf8 records).2 = none ↔ ∀ r ∈ records, Packable utf8 r := by
  induction records with
  | nil => simp [archiveDir]
  | cons r rest ih =>
    rw [List.forall_mem_cons, ← ih, archiveDir]
    constructor
    · intro h
      split at h
      · cases h
      · rename_i written hentry
        exact ⟨packable_of_archiveEntry (by rw [hentry]), h⟩
    · rintro ⟨hpack, hrest⟩
      rw [archiveEntry_of_packable hpack]
      exact hrest

theorem archiveDir_entries {records : List Record} (h : ∀ r ∈ records, Packable utf8 r) :
    archiveDir utf8 records = (records.map tarEntry, none) := by
  induction records with
  | nil => rfl
  | cons r rest ih =>
    rw [List.forall_mem_cons] at h
    rw [archiveDir, archiveEntry_of_packable h.1, ih h.2]
    rfl

end

end Orchestrator.Artifact

/-
  Orchestrator.Artifact.Unarchive

  Extraction of a tar stream (internal/artifact/unarchive.go).

  The stream is what the tar reader hands out: entries with a header and content, and
  how it ends.  Paths are absolute and clean, as lists of names, so `filepath.Join` is a
  cleaned concatenation, `filepath.Dir` drops the last name, and a path is under another
  when that one is an initial part of it.

  Every file system call goes through a host that may let it fail.  `EvalSymlinks` is
  the exception: it is evaluated on the tree.  Errors are constructors that carry what
  the texts of the source print.
-/

import Orchestrator.Artifact.Definitions
import Orchestrator.Lib.Posix.Host

namespace Orchestrator.Artifact

open Lib Lib.Posix Lib.Prog

/-! ## The stream -/

inductive Typeflag where
  | reg
  | dir
  | symlink
  | link
  | xGlobalHeader
  | xHeader
  /-- Devices, FIFOs and what else a tar can hold. -/
  | other
deriving DecidableEq, Repr

structure Header where
  name : List Char
  linkname : List Char := []
  mode : Nat := 0
  typeflag : Typeflag
deriving DecidableEq, Repr

/-- An entry as it is read: `whole` is false when its content breaks off. -/
structure Entry where
  header : Header
  body : List UInt8 := []
  whole : Bool := true
deriving DecidableEq, Repr

structure Stream where
  /-- The decompressor accepts the start of the file. -/
  opens : Bool := true
  entries : List Entry
  /-- The stream ends where a header could be, and not in a broken one. -/
  intact : Bool := true
deriving DecidableEq, Repr

/-! ## Errors -/

/-- The calls whose errors are reported with a text of their own. -/
inductive Failed where
  | createDestination
  | createDirectory
  | inspectPath
  | createFile
  | setFileMode
  | extractFile
  | replaceEntry
  | createHardLink
  | createSymlink
deriving DecidableEq, Repr

/-- What kept the sweep from judging or removing an entry. -/
inductive Problem where
  | walk (e : Errno)
  | readlink (e : Errno)
  | remove (linkname : List Char) (e : Errno)
deriving DecidableEq, Repr

inductive UnarchiveError where
  /-- These are the path errors of the archive (ErrArchivePathInvalid). -/
  | invalidPath (name : List Char)
  | entryEscapes (dir : Path)
  | traversesSymlink (path : Path)
  | traversesFile (path : Path)
  | invalidHardLink (name linkname : List Char)
  | hardLinkItself (name linkname : List Char)
  | hardLinkNotFound (name linkname : List Char)
  | hardLinkDirectory (name linkname : List Char)
  | hardLinkSymlink (name linkname : List Char)
  /-- The strip and subdir settings leave the source of a hard link out. -/
  | hardLinkExcluded (name linkname : List Char)
  /-- A link that the contained policy does not let in (errUnsafeSymlink). -/
  | unsafeSymlink (name linkname : List Char)
  | layoutMismatch
  | stream
  | header
  | truncated
  | call (what : Failed) (e : Errno)
  | sweep (escaped : List (Path × List Char)) (problems : List (Path × Problem))
  | joined (first second : UnarchiveError)
deriving DecidableEq, Repr

/-- Extraction as a program: errors of the source stop it, and so does the end of the
    process. -/
abbrev Extract := Prog Fs (Stop UnarchiveError)

def checked {α : Type} (what : Failed) : Except Errno α → Extract α
  | .ok a => return a
  | .error e => throw (.err (.call what e))

/-! ## Names -/

def extractFileMode : Nat := 0o644

/-- Only the execute bits of the archive's mode are kept. -/
def extractMode (mode : Nat) : Nat :=
  if mode &&& 0o111 ≠ 0 then extractFileMode ||| 0o111 else extractFileMode

def trimSlashes (s : List Char) : List Char :=
  ((s.dropWhile (· = '/')).reverse.dropWhile (· = '/')).reverse

def cleanSubdir (s : List Char) : List Char :=
  let s := trimSlashes (clean s)
  if s = dot then [] else s

/-- A text up to its first slash, and what is behind it (strings.SplitN at 2). -/
def splitSlash (name : List Char) : List Char × Option (List Char) :=
  match name.span (· ≠ '/') with
  | (first, []) => (first, none)
  | (first, _ :: rest) => (first, some rest)

/-- Take a text off the front of another, if it is there. -/
def trimFront (front s : List Char) : List Char :=
  if front.isPrefixOf s then s.drop front.length else s

def join (dir : Path) (name : List Char) : Path := cleanComps true (dir ++ parts name)

/-- `candidate` is `root` itself or beneath it. -/
def underRoot (candidate root : Path) : Bool := root.isPrefixOf candidate

/-- The way from `base` to `target`. -/
def relativeTo : Path → Path → List Name
  | b :: bs, c :: cs =>
    if b = c then relativeTo bs cs else (b :: bs).map (fun _ => dotdot) ++ c :: cs
  | bs, cs => bs.map (fun _ => dotdot) ++ cs

/-- The strip and subdir rewrite of a name; `archiveRoot` is the root folder detected so
    far, and the one after this name. -/
def Unarchive.transform (a : Unarchive) (subdir archiveRoot name : List Char) :
    Option (List Char) × List Char :=
  let stripped := if a.strip then (splitSlash name).2 else some name
  match stripped with
  -- the wrapper root directory entry itself
  | none => (none, archiveRoot)
  | some out =>
    if subdir = [] then (some out, archiveRoot)
    else
      -- without strip the subdir is under the detected root folder
      let archiveRoot :=
        if ¬a.strip ∧ archiveRoot = [] then (splitSlash name).1 else archiveRoot
      let front := if a.strip then subdir else archiveRoot ++ '/' :: subdir
      if ¬(front ++ ['/']).isPrefixOf out ∧ out ≠ front then (none, archiveRoot)
      else
        let out := trimFront ['/'] (trimFront front out)
        if out = [] then (none, archiveRoot) else (some out, archiveRoot)

/-! ## Resolution -/

/-- A path with its links resolved, or as it is written. -/
def resolveIfPossible (t : Tree) (target : Path) : Path :=
  match t.evalSymlinks target with
  | .ok resolved => resolved
  | .error _ => target

/-- One component of `resolveWalking`. -/
def walkPart (t : Tree) (current : Path) (part : Name) : Path :=
  if part = [] ∨ part = dot then current
  else if part = dotdot then resolveIfPossible t current.dropLast
  else resolveIfPossible t (current ++ [part])

/-- Follow `name` from `base` one component at a time, resolving what exists. -/
def resolveWalking (t : Tree) (base : Path) (name : List Name) : Path :=
  name.foldl (walkPart t) (resolveIfPossible t base)

/-! ## Entries -/

section

variable (host : Host)

/-- The loop of `mkdirAllInRoot`: `parts` are the directories to go down from `current`. -/
def descend (current : Path) : List Name → Extract Unit
  | [] => return ()
  | part :: rest => do
    let next := current ++ [part]
    match ← look host (·.lstat next) with
    | .error .noent =>
      match ← edit host (·.mkdir next) with
      | .ok () => descend next rest
      | .error e => if e = .exist then descend next rest
                    else throw (.err (.call .createDirectory e))
    | .error e => throw (.err (.call .inspectPath e))
    | .ok (.link _) => throw (.err (.traversesSymlink next))
    | .ok (.file _) => throw (.err (.traversesFile next))
    | .ok .dir => descend next rest

/-- Make `dir` and what is missing between it and `root`, through directories only. -/
def mkdirAllInRoot (root dir : Path) : Extract Unit := do
  if underRoot dir root then
    checked .createDestination (← mkdirAll host root)
    descend host root (dir.drop root.length)
  else throw (.err (.entryEscapes dir))

/-- The part of `writeRegularFile` between its deferred clean-up: fill the temporary file
    and rename it. -/
def fillAndRename (e : Entry) (tmpName : Path) (ino : Nat) (targetPath : Path) : Extract Unit := do
  checked .setFileMode (← chmod host ino (extractMode e.header.mode))
  checked .extractFile (← Posix.write host ino e.body)
  if e.whole then
    checked .createFile (← edit host (·.rename tmpName targetPath))
  else throw (.err .truncated)

def writeRegularFile (e : Entry) (targetPath destDir : Path) : Extract Unit := do
  mkdirAllInRoot host destDir targetPath.dropLast
  let (tmpName, ino) ← checked .createFile (← createTemp host targetPath.dropLast 0o600)
  let out ← attempt (fillAndRename host e tmpName ino targetPath)
  -- deferred; after a rename the name is gone and this does nothing
  let _ ← edit host (·.remove tmpName)
  match out with
  | .ok () => return ()
  | .error err => throw (.err err)

/-- A hard link is judged before anything is replaced. -/
def validateHardLinkSource (h : Header) (targetPath destDir hardLinkSource root : Path) :
    Extract Unit := do
  let t := (← get).tree
  if ¬underRoot (resolveWalking t destDir (relativeTo destDir hardLinkSource)) root then
    throw (.err (.invalidHardLink h.name h.linkname))
  else if resolveIfPossible t hardLinkSource = resolveIfPossible t targetPath then
    throw (.err (.hardLinkItself h.name h.linkname))
  else
    match ← look host (·.lstat hardLinkSource) with
    | .error _ => throw (.err (.hardLinkNotFound h.name h.linkname))
    | .ok .dir => throw (.err (.hardLinkDirectory h.name h.linkname))
    | .ok (.link _) => throw (.err (.hardLinkSymlink h.name h.linkname))
    | .ok (.file _) => return ()

def validateSymlinkTarget (h : Header) (targetPath root : Path) : Extract Unit := do
  if isAbs h.linkname then throw (.err (.unsafeSymlink h.name h.linkname))
  else
    let t := (← get).tree
    if underRoot (resolveWalking t targetPath.dropLast (parts h.linkname)) root then return ()
    else throw (.err (.unsafeSymlink h.name h.linkname))

/-- The end of `extractLink`: replace what is at the target by the link `make` makes. -/
def replaceBy (targetPath destDir : Path) (what : Failed) (make : Tree → Except Errno Tree) :
    Extract Unit := do
  mkdirAllInRoot host destDir targetPath.dropLast
  match ← edit host (·.remove targetPath) with
  | .ok () => checked what (← edit host make)
  | .error e =>
    if e = .noent then checked what (← edit host make)
    else throw (.err (.call .replaceEntry e))

def extractHardLink (h : Header) (targetPath destDir hardLinkSource : Path) : Extract Unit := do
  let root := resolveIfPossible (← get).tree destDir
  validateHardLinkSource host h targetPath destDir hardLinkSource root
  replaceBy host targetPath destDir .createHardLink (·.link hardLinkSource targetPath)

def extractSymlink (h : Header) (targetPath destDir : Path) (containedSymlinks : Bool) :
    Extract Unit := do
  let root := resolveIfPossible (← get).tree destDir
  (if containedSymlinks then validateSymlinkTarget h targetPath root else return ())
  replaceBy host targetPath destDir .createSymlink (·.symlink h.linkname targetPath)

/-- Write one entry; the result is the root folder detected so far, which the target of a
    hard link can be the first to show. -/
def Unarchive.writeEntry (a : Unarchive) (subdir archiveRoot : List Char) (e : Entry)
    (targetPath destDir : Path) : Extract (List Char) := do
  let h := e.header
  match h.typeflag with
  | .dir => mkdirAllInRoot host destDir targetPath; return archiveRoot
  | .reg => writeRegularFile host e targetPath destDir; return archiveRoot
  | .link =>
    match a.transform subdir archiveRoot (clean (trimFront ['.', '/'] h.linkname)) with
    | (none, _) => throw (.err (.hardLinkExcluded h.name h.linkname))
    | (some source, archiveRoot) =>
      extractHardLink host h targetPath destDir (join destDir source)
      return archiveRoot
  | .symlink =>
    match ← attempt (extractSymlink host h targetPath destDir
        (a.symlinkPolicy = symlinkPolicyContained)) with
    | .ok () => return archiveRoot
    -- an unsafe link is left out
    | .error (.unsafeSymlink _ _) => return archiveRoot
    | .error err => throw (.err err)
  | _ => return archiveRoot

structure Progress where
  archiveRoot : List Char := []
  extracted : Nat := 0
deriving DecidableEq, Repr

/-- One iteration of the loop of `extractTar`. -/
def Unarchive.extractEntry (a : Unarchive) (destDir : Path) (st : Progress) (e : Entry) :
    Extract Progress := do
  if e.header.typeflag = .xGlobalHeader ∨ e.header.typeflag = .xHeader then return st
  else
    let subdir := cleanSubdir a.subdir.toList
    let cleanName := clean e.header.name
    if dotdot.isPrefixOf cleanName then throw (.err (.invalidPath e.header.name))
    else
      match a.transform subdir st.archiveRoot cleanName with
      | (none, archiveRoot) => return { st with archiveRoot := archiveRoot }
      | (some extractPath, archiveRoot) =>
        let archiveRoot ← a.writeEntry host subdir archiveRoot e (join destDir extractPath) destDir
        return { archiveRoot := archiveRoot, extracted := st.extracted + 1 }

/-- The body of `extractTar`, without the deferred sweep. -/
def Unarchive.extractEntries (a : Unarchive) (stream : Stream) (destDir : Path) : Extract Unit := do
  if ¬stream.opens then throw (.err .stream)
  else
    let st ← stream.entries.foldlM (a.extractEntry host destDir) {}
    if ¬stream.intact then throw (.err .header)
    else if st.extracted = 0 ∧ (a.strip ∨ cleanSubdir a.subdir.toList ≠ []) then
      throw (.err .layoutMismatch)
    else return ()

/-! ## The sweep -/

/-- What the sweep found so far. -/
structure Sweep where
  escaped : List (Path × List Char) := []
  problems : List (Path × Problem) := []
deriving DecidableEq, Repr

def Sweep.addProblem (sw : Sweep) (entry : Path) (p : Problem) : Sweep :=
  { sw with problems := sw.problems ++ [(entry, p)] }

/-- Remove `entry` if it is a link that leads out of `root`. -/
def pruneIfEscaping (root entry : Path) (d : Node) (sw : Sweep) : Extract Sweep := do
  match d with
  | .link _ =>
    match ← look host (·.readlink entry) with
    | .error e => return sw.addProblem entry (.readlink e)
    | .ok linkname =>
      if underRoot (resolveWalking (← get).tree entry.dropLast (parts linkname)) root then
        return sw
      else
        match ← edit host (·.remove entry) with
        | .error e => return sw.addProblem entry (.remove linkname e)
        | .ok () => return { sw with escaped := sw.escaped ++ [(entry, linkname)] }
  | _ => return sw

/-- filepath.WalkDir with `pruneIfEscaping`; `fuel` bounds the depth. -/
def walkDir (root : Path) : Nat → Path → Node → Sweep → Extract Sweep
  | 0, _, _, _ => throw .fuel
  | fuel + 1, entry, d, sw => do
    let sw ← pruneIfEscaping host root entry d sw
    if d = .dir then
      match ← look host (·.readDir entry) with
      | .error e => return sw.addProblem entry (.walk e)
      | .ok dirs => dirs.foldlM (fun sw d => walkDir root fuel (entry ++ [d.1]) d.2 sw) sw
    else return sw

/-- Remove every link under `destDir` that leads out of it: the error, if some entry could
    not be judged or removed. -/
def assertNoEscapingSymlinks (destDir : Path) : Extract (Option UnarchiveError) := do
  let t := (← get).tree
  let root := resolveIfPossible t destDir
  let sw ← (do
    match ← look host (·.lstat destDir) with
    | .error e => return ({} : Sweep).addProblem destDir (.walk e)
    | .ok d => walkDir host root (t.nodes.keys.length + 1) destDir d {})
  return if sw.problems = [] then none else some (.sweep sw.escaped sw.problems)

/-- Extract a stream into `destDir`; under the contained policy the sweep follows on every
    way out. -/
def Unarchive.extractTar (a : Unarchive) (stream : Stream) (destDir : Path) : Extract Unit := do
  let result ← attempt (a.extractEntries host stream destDir)
  let sweepErr ← (do
    if a.symlinkPolicy = symlinkPolicyContained then
      match ← look host (·.stat destDir) with
      | .error _ => return none
      | .ok _ => assertNoEscapingSymlinks host destDir
    else return none)
  match result, sweepErr with
  | .ok (), none => return ()
  | .ok (), some sweepErr => throw (.err sweepErr)
  | .error err, none => throw (.err err)
  | .error err, some sweepErr => throw (.err (.joined err sweepErr))

end

end Orchestrator.Artifact

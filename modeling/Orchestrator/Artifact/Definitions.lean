/-
  Orchestrator.Artifact.Definitions

  The artifact types of a request and the checks they pass before a job is accepted
  (internal/artifact: artifact.go, definitions.go, validate.go, and the fields of the
  ten types).

  The types are a closed set; `Artifact` has one constructor for each.  `validate` is
  the check of one artifact of the list and gives the field and the message of the first
  rule that is broken.  What the standard library does with a URL text (`url.Parse`) and
  with the verb `%q` is a parameter, `Library`.
-/

import Orchestrator.Lib.Posix.Path

namespace Orchestrator

open Lib

/-! ## The types -/

namespace Artifact

structure Download where
  id : String
  in_ : String
  out : String
  depends : String := ""
  timeoutSeconds : Int := 0
  headers : List (String × String) := []
deriving DecidableEq, Repr

structure Clone where
  id : String
  in_ : String
  out : String
  ref : String := ""
  subdir : String := ""
  depends : String := ""
  timeoutSeconds : Int := 0
  headers : List (String × String) := []
deriving DecidableEq, Repr

structure Upload where
  id : String
  in_ : String
  out : String
  depends : String := ""
  timeoutSeconds : Int := 0
  retries : Int := 0
  headers : List (String × String) := []
deriving DecidableEq, Repr

structure Write where
  id : String
  in_ : String
  out : String
  depends : String := ""
deriving DecidableEq, Repr

structure Read where
  id : String
  in_ : String
  format : String := ""
  depends : String := ""
deriving DecidableEq, Repr

structure Archive where
  id : String
  in_ : String
  out : String
  format : String
  compression : String := ""
  level : Int := 0
  blockSize : Int := 0
  depends : String := ""
deriving DecidableEq, Repr

structure Unarchive where
  id : String
  in_ : String
  out : String
  subdir : String := ""
  strip : Bool := false
  symlinkPolicy : String := ""
  depends : String := ""
deriving DecidableEq, Repr

structure Mount where
  id : String
  in_ : String
  out : String
  writable : Bool := false
  size : Int := 0
  sync : String := ""
  syncIntervalSeconds : Int := 0
  depends : String := ""
deriving DecidableEq, Repr

structure ListFiles where
  id : String
  in_ : String
  isRecursive : Option Bool := none
  excludes : List String := []
  depends : String := ""
deriving DecidableEq, Repr

structure Stat where
  id : String
  in_ : String
  depends : String := ""
deriving DecidableEq, Repr

end Artifact

inductive Artifact where
  | download (a : Artifact.Download)
  | clone (a : Artifact.Clone)
  | upload (a : Artifact.Upload)
  | write (a : Artifact.Write)
  | read (a : Artifact.Read)
  | archive (a : Artifact.Archive)
  | unarchive (a : Artifact.Unarchive)
  | mount (a : Artifact.Mount)
  | list (a : Artifact.ListFiles)
  | stat (a : Artifact.Stat)
deriving DecidableEq, Repr

namespace Artifact

def artifactID : Artifact → String
  | download a => a.id
  | clone a => a.id
  | upload a => a.id
  | write a => a.id
  | read a => a.id
  | archive a => a.id
  | unarchive a => a.id
  | mount a => a.id
  | list a => a.id
  | stat a => a.id

def dependsOn : Artifact → String
  | download a => a.depends
  | clone a => a.depends
  | upload a => a.depends
  | write a => a.depends
  | read a => a.depends
  | archive a => a.depends
  | unarchive a => a.depends
  | mount a => a.depends
  | list a => a.depends
  | stat a => a.depends

/-- The workspace file an artifact reads before it can run, or the empty text. -/
def sourceFile : Artifact → String
  | upload a => a.in_
  | read a => a.in_
  | archive a => a.in_
  | unarchive a => a.in_
  | mount a => a.in_
  | stat a => a.in_
  | list a => a.in_
  | _ => ""

def workloadDependency : String := "workload"
def jobDependency : String := "job"

/-- A dependency value that names the post phase. -/
def PostPhase (depends : String) : Prop :=
  depends = workloadDependency ∨ depends = jobDependency

instance (depends : String) : Decidable (PostPhase depends) :=
  inferInstanceAs (Decidable (_ ∨ _))

/-! ## Checks of single fields -/

/-- What `url.Parse` finds in a text. -/
structure URL where
  scheme : String
  host : String
  path : String
  /-- The user name, and the password if the text has one. -/
  user : Option (String × Option String)
deriving DecidableEq, Repr

/-- The parts of the standard library that the checks call. -/
structure Library where
  parse : String → Option URL
  /-- The verb `%q`. -/
  quote : String → String

structure ValidationError where
  field : String
  message : String
deriving DecidableEq, Repr

def s3Scheme : String := "s3"

/-- `^[a-z][a-z0-9_]*$`. -/
def validS3ProfileName (name : String) : Bool :=
  match name.toList with
  | [] => false
  | c :: rest => c.isLower && rest.all fun c => c.isLower || c.isDigit || c = '_'

/-- The message for a URL that is not accepted, if it is not. -/
def validateURL (lib : Library) (rawURL : String) : Option String :=
  if rawURL = "" then none
  else
    match lib.parse rawURL with
    | none => some "malformed URL"
    | some parsed =>
      let scheme := parsed.scheme.toLower
      if scheme ≠ "http" ∧ scheme ≠ "https" ∧ scheme ≠ s3Scheme then
        some ("URL scheme must be http, https, or s3, got " ++ lib.quote parsed.scheme)
      else if parsed.host = "" then some "URL must have a host"
      else if scheme = s3Scheme ∧ (parsed.path = "" ∨ parsed.path = "/") then
        some "s3 URL must have a key: s3://bucket/key"
      else if scheme = s3Scheme then
        match parsed.user with
        | none => none
        | some (_, some _) =>
          some "s3 URL must not carry credentials; name a profile as s3://profile@bucket/key"
        | some (name, none) =>
          if validS3ProfileName name then none
          else some ("s3 profile must be lower case letters, digits and underscores, " ++
            "starting with a letter")
      else none

def validateGitURL (lib : Library) (rawURL : String) : Option String :=
  match lib.parse rawURL with
  | none => some "malformed URL"
  | some parsed =>
    let scheme := parsed.scheme.toLower
    if scheme ≠ "http" ∧ scheme ≠ "https" then
      some ("URL scheme must be http or https, got " ++ lib.quote parsed.scheme)
    else if parsed.host = "" then some "URL must have a host"
    else if parsed.user ≠ none then
      some "URL must not carry credentials; pass an Authorization header instead"
    else none

def validatePath (path : String) : Option String :=
  if path = "" then none
  else if Posix.isAbs path.toList then some "path must be relative, not absolute"
  else if (['.', '.'] : List Char) <+: Posix.clean path.toList then some "path traversal not allowed"
  else if Posix.dotdot ∈ Posix.parts path.toList then some "path traversal not allowed"
  else none

/-- A required field of some kind; `what` names the kind in the message. -/
def required (check : String → Option String) (field name what value : String) :
    Option ValidationError :=
  if value = "" then some ⟨field ++ "." ++ name, name ++ " (" ++ what ++ ") is required"⟩
  else
    match check value with
    | some err => some ⟨field ++ "." ++ name, "invalid " ++ name ++ " (" ++ what ++ "): " ++ err⟩
    | none => none

def requiredPath (field name what value : String) : Option ValidationError :=
  required validatePath field name what value

def requiredURL (lib : Library) (field name what value : String) : Option ValidationError :=
  required (validateURL lib) field name what value

/-! ## Checks of an artifact -/

def squashfsMinBlockSize : Int := 4096
def squashfsMaxBlockSize : Int := 1048576

/-- The powers of two from 4 KiB to 1 MiB. -/
def validSquashfsBlockSize (bs : Int) : Bool :=
  squashfsMinBlockSize ≤ bs && bs ≤ squashfsMaxBlockSize && bs.toNat &&& (bs.toNat - 1) = 0

def squashfsCompression (lib : Library) (name : String) : Option String :=
  if name ∈ ["", "gzip", "zstd", "lz4", "lz4hc"] then none
  else some ("unsupported squashfs compression: " ++ lib.quote name ++
    " (supported: gzip, zstd, lz4, lz4hc)")

def erofsCompression (lib : Library) (name : String) : Option String :=
  if name ∈ ["", "none", "lz4", "lz4hc"] then none
  else some ("unsupported erofs compression: " ++ lib.quote name ++ " (supported: lz4, lz4hc, none)")

/-- A check that fails with a message about one field. -/
def rule (broken : Prop) [Decidable broken] (field message : String) : Option ValidationError :=
  if broken then some ⟨field, message⟩ else none

def validateArchiveFormat (lib : Library) (field : String) (a : Archive) : Option ValidationError :=
  if a.format = "tar" then
    (if a.compression ∈ ["", "none", "zstd", "lz4", "lz4hc"] then
      rule (a.level ≠ 0) (field ++ ".level") "level is only valid with gzip compression"
    else if a.compression = "gzip" then
      rule (a.level < 0 ∨ a.level > 9) (field ++ ".level")
        "level must be between 0 and 9 (0 means default)"
    else
      some ⟨field ++ ".compression",
        "compression must be \"gzip\", \"zstd\", \"lz4\", \"lz4hc\", or \"none\" for tar"⟩) <|>
    rule (a.blockSize ≠ 0) (field ++ ".blockSize") "blockSize is only valid for squashfs"
  else if a.format = "squashfs" then
    (squashfsCompression lib a.compression).map (fun err => ⟨field ++ ".compression", err⟩) <|>
    rule (a.level ≠ 0) (field ++ ".level") "level is not supported for squashfs" <|>
    rule (a.blockSize ≠ 0 ∧ ¬validSquashfsBlockSize a.blockSize) (field ++ ".blockSize")
      "blockSize must be a power of 2 between 4096 and 1048576 (0 means 1 MiB default)"
  else if a.format = "erofs" then
    (erofsCompression lib a.compression).map (fun err => ⟨field ++ ".compression", err⟩) <|>
    rule (a.level ≠ 0) (field ++ ".level") "level is not supported for erofs" <|>
    rule (a.blockSize ≠ 0) (field ++ ".blockSize") "blockSize is not supported for erofs"
  else
    some ⟨field ++ ".format", "format must be \"tar\", \"squashfs\", or \"erofs\""⟩

def minSyncIntervalSeconds : Int := 5

def validateMountOptions (lib : Library) (field : String) (a : Mount) : Option ValidationError :=
  rule (Posix.clean a.out.toList = Posix.dot) (field ++ ".out")
    "out must be a directory inside the workspace, not the workspace itself" <|>
  rule (a.size < 0) (field ++ ".size") "size must not be negative" <|>
  rule (a.size > 0 ∧ ¬a.writable) (field ++ ".size") "size only applies to writable mounts" <|>
  (if a.sync = "" then none
   else
    rule (¬a.writable) (field ++ ".sync")
      "sync only applies to writable mounts: without an overlay there is no delta to sync" <|>
    (validateURL lib a.sync).map fun err => ⟨field ++ ".sync", "invalid sync destination: " ++ err⟩) <|>
  rule (a.syncIntervalSeconds < 0) (field ++ ".syncIntervalSeconds")
    "sync interval must not be negative" <|>
  rule (a.syncIntervalSeconds > 0 ∧ a.sync = "") (field ++ ".syncIntervalSeconds")
    "sync interval needs a sync destination" <|>
  rule (a.syncIntervalSeconds > 0 ∧ a.syncIntervalSeconds < minSyncIntervalSeconds)
    (field ++ ".syncIntervalSeconds")
    ("sync interval must be at least " ++ toString minSyncIntervalSeconds ++ " seconds")

def symlinkPolicyPreserve : String := "preserve"
def symlinkPolicyContained : String := "contained"

/-- The check of the artifact at index `i` of a request's list. -/
def validate (lib : Library) (i : Nat) (a : Artifact) : Option ValidationError :=
  let field := "artifacts[" ++ toString i ++ "]"
  if a.artifactID = "" then
    some ⟨field ++ ".id", "artifact[" ++ toString i ++ "]: id is required"⟩
  else
    match a with
    | download a => requiredURL lib field "in" "url" a.in_ <|> requiredPath field "out" "path" a.out
    | clone a =>
      rule (a.in_ = "") (field ++ ".in") "in (repository url) is required" <|>
      (validateGitURL lib a.in_).map
        (fun err => ⟨field ++ ".in", "invalid in (repository url): " ++ err⟩) <|>
      requiredPath field "out" "path" a.out <|>
      (validatePath a.subdir).map fun err => ⟨field ++ ".subdir", "invalid subdir: " ++ err⟩
    | upload a => requiredPath field "in" "path" a.in_ <|> requiredURL lib field "out" "url" a.out
    | write a =>
      requiredPath field "out" "path" a.out <|>
      rule (a.in_ = "") (field ++ ".in") "in (content) is required"
    | read a =>
      requiredPath field "in" "path" a.in_ <|>
      rule (a.format ∉ ["", "text", "json"]) (field ++ ".format")
        "format must be \"text\" or \"json\""
    | archive a =>
      requiredPath field "in" "path" a.in_ <|> requiredPath field "out" "dest" a.out <|>
      validateArchiveFormat lib field a
    | unarchive a =>
      requiredPath field "in" "path" a.in_ <|> requiredPath field "out" "dest" a.out <|>
      rule (a.symlinkPolicy ∉ ["", symlinkPolicyPreserve, symlinkPolicyContained])
        (field ++ ".symlinkPolicy") "symlinkPolicy must be \"preserve\" or \"contained\""
    | mount a =>
      requiredPath field "in" "image path" a.in_ <|> requiredPath field "out" "mount dir" a.out <|>
      validateMountOptions lib field a
    | stat a => requiredPath field "in" "path" a.in_
    | list a => requiredPath field "in" "path" a.in_

def maxArtifacts : Nat := 64

/-- The part of the job service's `validate` that is about the artifact list: the first
    error, or none when the list is accepted. -/
def validateArtifacts (lib : Library) (artifacts : List Artifact) : Option ValidationError :=
  rule (maxArtifacts < artifacts.length) "artifacts"
    ("artifacts exceed maximum of " ++ toString maxArtifacts) <|>
  artifacts.zipIdx.findSome? fun (a, i) => validate lib i a

end Artifact
end Orchestrator

/-
  Orchestrator.Mount.Mountinfo

  Reading the mount table from the text the kernel renders for it.

  The kernel writes one line per mount, and in the two paths of a line (the root of the
  mount in its file system, and the mount point) it writes blank, tab, newline and
  backslash as a backslash and three octal digits.  Every other byte is written as it is,
  also those that `strings.Fields` takes for white space: a path with such a byte in it
  is read as two fields.
-/

import Orchestrator.Lib.Text
import Orchestrator.Lib.Posix.Path

namespace Orchestrator.Mount

open Lib.Posix Lib.Text List

/-! ## What the kernel writes -/

/-- A word of the kernel: a number, an option list, the tag of a peer group, the name of a file
    system. -/
structure Word where
  text : List Char
  text_ne : text ≠ []
  printable : ∀ c ∈ text, 33 ≤ c.toNat ∧ c.toNat ≤ 126
  not_dash : text ≠ ['-']

/-- The text of an absolute path. -/
def pathText (comps : Path) : List Char := '/' :: joinSlash comps

structure MountEntry where
  id : Word
  parent : Word
  device : Word
  root : List Char
  point : Path
  options : Word
  optional : List Word
  fstype : Word
  /-- Source and options of the file system. -/
  rest : List Char
  root_ne : root ≠ []
  root_not_dash : root ≠ ['-']
  point_proper : ∀ c ∈ point, Proper c ∧ '/' ∉ c
  rest_line : '\n' ∉ rest

def escapeByte (c : Char) : List Char :=
  if c = ' ' then ['\\', '0', '4', '0']
  else if c = '\t' then ['\\', '0', '1', '1']
  else if c = '\n' then ['\\', '0', '1', '2']
  else if c = '\\' then ['\\', '1', '3', '4']
  else [c]

def escape (path : List Char) : List Char := path.flatMap escapeByte

/-- The fields before the separator. -/
def MountEntry.words (m : MountEntry) : List (List Char) :=
  [m.id.text, m.parent.text, m.device.text, escape m.root, escape (pathText m.point),
    m.options.text] ++ m.optional.map Word.text

def separator : List Char := [' ', '-', ' ']

def MountEntry.line (m : MountEntry) : List Char :=
  unwords m.words ++ (separator ++ (m.fstype.text ++ ' ' :: m.rest))

/-- The text of `/proc/self/mountinfo`. -/
def render (table : List MountEntry) : List Char := table.flatMap fun m => m.line ++ ['\n']

/-! ## What the program reads -/

/-- `strconv.ParseUint(s, 8, 8)` of the next three bytes. -/
def octal? : List Char → Option Nat
  | a :: b :: c :: _ =>
    if [a, b, c].all fun d => '0' ≤ d ∧ d ≤ '7' then
      let n := (a.toNat - 48) * 64 + (b.toNat - 48) * 8 + (c.toNat - 48)
      if n < 256 then some n else none
    else none
  | _ => none

/-- The loop of `UnescapeMountPath`; `skip` bytes have been read already. -/
def unescapeFrom : Nat → List Char → List Char
  | _, [] => []
  | skip + 1, _ :: rest => unescapeFrom skip rest
  | 0, c :: rest =>
    if c = '\\' then
      match octal? rest with
      | some n => Char.ofNat n :: unescapeFrom 3 rest
      | none => c :: unescapeFrom 0 rest
    else c :: unescapeFrom 0 rest

def unescapeMountPath (s : List Char) : List Char :=
  if '\\' ∉ s then s else unescapeFrom 0 s

/-- The part of a line before the separator, in fields, and the part after it. -/
def lineFields (line : List Char) : Option (List (List Char) × List (List Char)) :=
  (cut separator line).map fun r => (fields r.1, fields r.2)

def mountsUnder (mountinfo dir : List Char) : List (List Char) :=
  let dir := clean dir
  (mountinfo.splitOn '\n').filterMap fun line =>
    match lineFields line with
    | none => none
    | some (pre, _) =>
      if pre.length < 5 then none
      else
        let p := unescapeMountPath (pre.getD 4 [])
        if p = dir ∨ (dir ++ ['/']).isPrefixOf p then some p else none

/-- The newest entry at a path: its root and its file system. -/
def newestAt (target : List Char) (found : Option (List Char × List Char)) (line : List Char) :
    Option (List Char × List Char) :=
  match lineFields line with
  | none => found
  | some (pre, post) =>
    if pre.length < 5 ∨ post.length < 1 then found
    else if unescapeMountPath (pre.getD 4 []) ≠ target then found
    else some (unescapeMountPath (pre.getD 3 []), post.getD 0 [])

/-- Whether a mount with this root and file system looks like one of an artifact. -/
def looksLikeArtifact (root fstype : List Char) : Bool :=
  fstype = "overlay".toList ∨ fstype = "squashfs".toList ∨ fstype = "erofs".toList ∨
    "/.lower".toList <:+: root

def hasArtifactMount (mountinfo target : List Char) : Bool :=
  let target := clean target
  match (mountinfo.splitOn '\n').foldl (newestAt target) none with
  | none => false
  | some (root, fstype) => looksLikeArtifact root fstype

/-! ## The escapes -/

/-- White space that the kernel does not escape. -/
def oddSpaces : List (List Char) :=
  spaces.filter fun space => space ≠ [' '] ∧ space ≠ ['\t'] ∧ space ≠ ['\n']

/-- A path whose text has no white space but what the kernel escapes. -/
def Clear (path : List Char) : Prop := ∀ space ∈ oddSpaces, ¬ space <:+: path

instance (path : List Char) : Decidable (Clear path) :=
  inferInstanceAs (Decidable (∀ space ∈ oddSpaces, ¬ space <:+: path))

theorem escape_cons (c : Char) (path : List Char) :
    escape (c :: path) = escapeByte c ++ escape path := rfl

def escaped : List Char := [' ', '\t', '\n', '\\']

theorem escapeByte_cases (c : Char) : c ∈ escaped ∨ c ∉ escaped ∧ escapeByte c = [c] := by
  by_cases hc : c ∈ escaped
  · exact .inl hc
  have hother := hc
  simp only [escaped, mem_cons, not_mem_nil, or_false, not_or] at hother
  obtain ⟨hb, ht, hn, hs⟩ := hother
  exact .inr ⟨hc, by rw [escapeByte, if_neg hb, if_neg ht, if_neg hn, if_neg hs]⟩

/-- The bytes that escapes are made of. -/
def escapeBytes : List Char := ['\\', '0', '1', '2', '3', '4']

theorem escapeByte_eq_or (c : Char) :
    (escapeByte c ≠ [] ∧ ∀ d ∈ escapeByte c, d ∈ escapeBytes) ∨ escapeByte c = [c] := by
  rcases escapeByte_cases c with hc | ⟨-, h⟩
  · have hescape : ∀ c ∈ escaped, escapeByte c ≠ [] ∧ ∀ d ∈ escapeByte c, d ∈ escapeBytes := by
      decide
    exact .inl (hescape c hc)
  · exact .inr h

theorem unescapeFrom_escapeByte (c : Char) (rest : List Char) :
    unescapeFrom 0 (escapeByte c ++ rest) = c :: unescapeFrom 0 rest := by
  rcases escapeByte_cases c with hc | ⟨hc, h⟩
  · simp only [escaped, mem_cons, not_mem_nil, or_false] at hc
    rcases hc with rfl | rfl | rfl | rfl <;> rfl
  · have hs : c ≠ '\\' := by rintro rfl; exact hc (by decide)
    rw [h, singleton_append, unescapeFrom, if_neg hs]

theorem unescapeFrom_escape (path : List Char) : unescapeFrom 0 (escape path) = path := by
  induction path with
  | nil => rfl
  | cons c path ih => rw [escape_cons, unescapeFrom_escapeByte, ih]

theorem unescapeFrom_plain {s : List Char} (h : '\\' ∉ s) : unescapeFrom 0 s = s := by
  induction s with
  | nil => rfl
  | cons c s ih =>
    rw [mem_cons, not_or] at h
    rw [unescapeFrom, if_neg (Ne.symm h.1), ih h.2]

/-- **Unescaping undoes the kernel's escaping**, for any bytes. -/
theorem unescapeMountPath_escape (path : List Char) : unescapeMountPath (escape path) = path := by
  have hloop := unescapeFrom_escape path
  rw [unescapeMountPath]
  split
  · rename_i hplain
    rw [unescapeFrom_plain hplain] at hloop
    exact hloop
  · exact hloop

variable {path : List Char}

/-- A text of other bytes that an escaped path starts with, the path starts with. -/
theorem prefix_of_prefix_escape {t : List Char} (ht : ∀ c ∈ t, c ∉ escapeBytes)
    (h : t <+: escape path) : t <+: path := by
  induction path generalizing t with
  | nil => exact h
  | cons c path ih =>
    cases t with
    | nil => exact nil_prefix
    | cons d t =>
      rw [escape_cons] at h
      rcases escapeByte_eq_or c with ⟨hne, hbytes⟩ | hsame
      · obtain ⟨x, xs, hx⟩ := exists_cons_of_ne_nil hne
        rw [hx, cons_append, cons_prefix_cons] at h
        have hmem : x ∈ escapeBytes := hbytes x (by rw [hx]; exact mem_cons_self)
        exact absurd (h.1 ▸ hmem) (ht d mem_cons_self)
      · rw [hsame, singleton_append, cons_prefix_cons] at h
        have hrest := ih (fun e he => ht e (mem_cons_of_mem d he)) h.2
        exact cons_prefix_cons.mpr ⟨h.1, hrest⟩

/-- A text of other bytes that is in an escaped path is in the path. -/
theorem infix_of_infix_escape {t : List Char} (hne : t ≠ []) (ht : ∀ c ∈ t, c ∉ escapeBytes)
    (h : t <:+: escape path) : t <:+: path := by
  induction path with
  | nil => exact h
  | cons c path ih =>
    have hskip : ∀ block : List Char, (∀ d ∈ block, d ∈ escapeBytes) →
        t <:+: block ++ escape path → t <:+: escape path := by
      intro block
      induction block with
      | nil => exact fun _ h => h
      | cons d block ihb =>
        intro hblock hin
        rw [cons_append, infix_cons_iff] at hin
        rcases hin with hpre | hin
        · obtain ⟨x, xs, rfl⟩ := exists_cons_of_ne_nil hne
          have heq := (cons_prefix_cons.mp hpre).1
          exact absurd (heq ▸ hblock d mem_cons_self) (ht x mem_cons_self)
        · exact ihb (fun e he => hblock e (mem_cons_of_mem d he)) hin
    rcases escapeByte_eq_or c with ⟨-, hbytes⟩ | hsame
    · have hin := ih (hskip (escapeByte c) hbytes (by rw [← escape_cons]; exact h))
      exact infix_cons hin
    by_cases hpre : t <+: escape (c :: path)
    · exact (prefix_of_prefix_escape ht hpre).isInfix
    rw [escape_cons, hsame, singleton_append, infix_cons_iff] at h
    rcases h with h | h
    · rw [escape_cons, hsame, singleton_append] at hpre
      exact absurd h hpre
    · exact infix_cons (ih h)

theorem not_mem_escape {c : Char} (hc : c ∈ [' ', '\t', '\n']) (path : List Char) :
    c ∉ escape path := by
  rw [escape, mem_flatMap]
  rintro ⟨d, -, hd⟩
  rcases escapeByte_cases d with hescaped | ⟨hplain, h⟩
  · have hgone : ∀ d ∈ escaped, ∀ c ∈ [' ', '\t', '\n'], c ∉ escapeByte d := by decide
    exact hgone d hescaped c hc hd
  · have hsub : ∀ c ∈ [' ', '\t', '\n'], c ∈ escaped := by decide
    rw [h, mem_singleton] at hd
    exact hplain (hd ▸ hsub c hc)

/-- **The rendered text of a clear path has no white space.** -/
theorem solid_escape (h : Clear path) : Solid (escape path) := by
  intro space hspace hin
  have hkinds : ∀ space ∈ spaces, (space ∈ oddSpaces ∧ space ≠ [] ∧ ∀ c ∈ space, c ∉ escapeBytes) ∨
      ∃ c ∈ [' ', '\t', '\n'], space = [c] := by decide
  rcases hkinds space hspace with ⟨hodd, hne, hbytes⟩ | ⟨c, hc, rfl⟩
  · exact h space hodd (infix_of_infix_escape hne hbytes hin)
  · exact not_mem_escape hc path (hin.subset mem_cons_self)

/-! ## One line -/

theorem Word.solid (w : Word) : Solid w.text := by
  intro space hspace hin
  have hhead : ∀ space ∈ spaces, ∃ c ∈ space, ¬ (33 ≤ c.toNat ∧ c.toNat ≤ 126) := by decide
  obtain ⟨c, hc, hnot⟩ := hhead space hspace
  exact hnot (w.printable c (hin.subset hc))

/-- Behind a blank the separator can only be a word that is a dash. -/
theorem separator_not_here {v rest : List Char} (hblank : ' ' ∉ v) (hne : v ≠ [])
    (hdash : v ≠ ['-']) : ¬ separator <+: ' ' :: (v ++ ' ' :: rest) := by
  intro h
  obtain ⟨c, v, rfl⟩ := exists_cons_of_ne_nil hne
  rw [separator, cons_prefix_cons, cons_append, cons_prefix_cons] at h
  obtain ⟨-, rfl, h⟩ := h
  cases v with
  | nil => exact hdash rfl
  | cons d v =>
    rw [cons_append, cons_prefix_cons] at h
    exact hblank (by rw [h.1]; simp)

/-- **The separator is found behind the words.** -/
theorem cut_unwords {words : List (List Char)} (hne : words ≠ [])
    (h : ∀ w ∈ words, ' ' ∉ w ∧ w ≠ [] ∧ w ≠ ['-']) (post : List Char) :
    cut separator (unwords words ++ (separator ++ post)) = some (unwords words, post) := by
  -- no separator starts inside a word, for want of a blank
  have hinside : ∀ (w text : List Char), ' ' ∉ w → ∀ t, t <:+ w → t ≠ [] →
      ¬ separator <+: t ++ text := by
    intro w text hw t ht hne hpre
    obtain ⟨c, t, rfl⟩ := exists_cons_of_ne_nil hne
    rw [separator, cons_append, cons_prefix_cons] at hpre
    exact hw (ht.subset (by rw [hpre.1]; exact mem_cons_self))
  induction words with
  | nil => exact absurd rfl hne
  | cons w words ih =>
    obtain ⟨hblank, -, -⟩ := h w mem_cons_self
    cases words with
    | nil =>
      rw [unwords_singleton, cut_past (hinside w _ hblank), cut_here (by decide)]
      simp
    | cons v words =>
      obtain ⟨hvblank, hvne, hvdash⟩ := h v (by simp)
      have hrest := ih (by simp) fun u hu => h u (mem_cons_of_mem w hu)
      have hnext : ¬ separator <+: ' ' :: (unwords (v :: words) ++ (separator ++ post)) := by
        cases words with
        | nil =>
          rw [unwords_singleton]
          exact separator_not_here hvblank hvne hvdash
        | cons u words =>
          rw [unwords_cons_cons, append_assoc]
          exact separator_not_here hvblank hvne hvdash
      have hpast : cut separator (' ' :: (unwords (v :: words) ++ (separator ++ post))) =
          some (' ' :: unwords (v :: words), post) := by
        rw [cut, if_neg (by rw [List.isPrefixOf_iff_prefix]; exact hnext), hrest]
        rfl
      rw [unwords_cons_cons, append_assoc, cons_append,
        cut_past (hinside w _ hblank), hpast]
      rfl

/-- An entry whose two paths are clear. -/
def MountEntry.Clear (m : MountEntry) : Prop := Mount.Clear m.root ∧ Mount.Clear (pathText m.point)

section

variable {m : MountEntry} (h : m.Clear)
include h

theorem MountEntry.words_solid : ∀ w ∈ m.words, Solid w ∧ w ≠ [] ∧ w ≠ ['-'] := by
  have hword : ∀ w : Word, Solid w.text ∧ w.text ≠ [] ∧ w.text ≠ ['-'] :=
    fun w => ⟨w.solid, w.text_ne, w.not_dash⟩
  have hescape : ∀ path text, path ≠ unescapeMountPath text → escape path ≠ text := by
    rintro path _ hne rfl
    exact hne (unescapeMountPath_escape path).symm
  intro w hw
  simp only [MountEntry.words, cons_append, nil_append, mem_cons,
    mem_map] at hw
  rcases hw with rfl | rfl | rfl | rfl | rfl | rfl | ⟨v, -, rfl⟩
  · exact hword _
  · exact hword _
  · exact hword _
  · exact ⟨solid_escape h.1, hescape _ [] m.root_ne, hescape _ ['-'] m.root_not_dash⟩
  · exact ⟨solid_escape h.2, hescape _ [] (by simp [pathText, unescapeMountPath]),
      hescape _ ['-'] (by simp [pathText, unescapeMountPath])⟩
  · exact hword _
  · exact hword _

/-- **What is read from a line**: the words before the separator, and behind it first the file
    system. -/
theorem MountEntry.lineFields_line :
    lineFields m.line = some (m.words, m.fstype.text :: fields m.rest) := by
  have hwords := m.words_solid h
  have hcut : cut separator m.line = some (unwords m.words, m.fstype.text ++ ' ' :: m.rest) := by
    apply cut_unwords (by simp [MountEntry.words])
    intro w hw
    obtain ⟨hsolid, hne, hdash⟩ := hwords w hw
    exact ⟨hsolid.not_mem (by decide), hne, hdash⟩
  rw [lineFields, hcut, Option.map_some,
    fields_unwords fun w hw => ⟨(hwords w hw).1, (hwords w hw).2.1⟩,
    fields_cons m.fstype.solid m.fstype.text_ne]

theorem MountEntry.line_newline : '\n' ∉ m.line := by
  have hunwords : ∀ words : List (List Char), (∀ w ∈ words, '\n' ∉ w) → '\n' ∉ unwords words := by
    intro words
    induction words with
    | nil => intro _; decide
    | cons w words ih =>
      intro hw
      have hrest := ih fun v hv => hw v (mem_cons_of_mem w hv)
      cases words with
      | nil =>
        rw [unwords_singleton]
        exact hw w mem_cons_self
      | cons v words =>
        rw [unwords_cons_cons, mem_append, mem_cons]
        rintro (hmem | hmem | hmem)
        · exact hw w mem_cons_self hmem
        · exact absurd hmem (by decide)
        · exact hrest hmem
  have hwords := hunwords m.words fun w hw => (m.words_solid h w hw).1.not_mem (by decide)
  have hfstype : '\n' ∉ m.fstype.text := m.fstype.solid.not_mem (by decide)
  have hrest := m.rest_line
  rw [MountEntry.line, mem_append, mem_append, mem_append, mem_cons]
  rintro (hmem | hmem | hmem | hmem | hmem)
  · exact hwords hmem
  · exact absurd hmem (by decide)
  · exact hfstype hmem
  · exact absurd hmem (by decide)
  · exact hrest hmem

end

variable {table : List MountEntry}

/-- The lines of the text are the lines of the table, and an empty one. -/
theorem splitOn_render (h : ∀ m ∈ table, m.Clear) :
    (render table).splitOn '\n' = table.map MountEntry.line ++ [[]] := by
  have hrender : render table = ['\n'].intercalate (table.map MountEntry.line ++ [[]]) := by
    clear h
    induction table with
    | nil => rfl
    | cons m table ih =>
      rw [render, flatMap_cons, ← render, ih, map_cons, cons_append]
      cases table with
      | nil | cons m' table => simp [intercalate]
  rw [hrender, splitOn_intercalate]
  · intro line hline
    rw [mem_append, mem_map, mem_singleton] at hline
    rcases hline with ⟨m, hm, rfl⟩ | rfl
    · exact m.line_newline (h m hm)
    · simp
  · simp

/-! ## The table -/

/-- The names on an absolute path. -/
def names (path : List Char) : Path := cleanComps true (parts path)

theorem clean_abs (h : isAbs path = true) : clean path = pathText (names path) := by
  rw [clean, h]
  rfl

theorem names_proper (path : List Char) : ∀ c ∈ names path, Proper c ∧ '/' ∉ c :=
  cleanComps_rooted_proper slash_not_mem_parts

theorem pathText_inj {a b : Path} (ha : ∀ c ∈ a, Proper c ∧ '/' ∉ c)
    (hb : ∀ c ∈ b, Proper c ∧ '/' ∉ c) : pathText a = pathText b ↔ a = b := by
  rw [pathText, pathText, cons.injEq, joinSlash_inj ha hb]
  simp

/-- The test of `MountsUnder`.  Of the root directory it finds only the directory itself. -/
theorem under_iff {point dir : Path} (hpoint : ∀ c ∈ point, Proper c ∧ '/' ∉ c)
    (hdir : ∀ c ∈ dir, Proper c ∧ '/' ∉ c) :
    (pathText point = pathText dir ∨ (pathText dir ++ ['/']).isPrefixOf (pathText point) = true) ↔
      dir <+: point ∧ (dir ≠ [] ∨ point = []) := by
  rw [List.isPrefixOf_iff_prefix, pathText_inj hpoint hdir, pathText, pathText, cons_append,
    cons_prefix_cons]
  by_cases hne : dir = []
  · subst hne
    have hslash : ¬ ['/'] <+: joinSlash point := by
      intro h
      cases point with
      | nil => simp [joinSlash] at h
      | cons c point =>
        obtain ⟨hproper, hs⟩ := hpoint c mem_cons_self
        have habs : isAbs (joinSlash (c :: point)) = false := not_isAbs_joinSlash hproper hs
        obtain ⟨rest, hrest⟩ := h
        rw [← hrest] at habs
        simp [isAbs] at habs
    have hroot : joinSlash [] = [] := rfl
    simp [hroot, hslash]
  · rw [joinSlash_below hdir hpoint hne]
    constructor
    · rintro (rfl | ⟨-, h, -⟩)
      · exact ⟨prefix_refl _, .inl hne⟩
      · exact ⟨h, .inl hne⟩
    · rintro ⟨h, -⟩
      by_cases heq : point = dir
      · exact .inl heq
      · exact .inr ⟨rfl, h, fun h' => heq h'.symm⟩

def MountEntry.isArtifact (m : MountEntry) : Bool := looksLikeArtifact m.root m.fstype.text

/-- `HasArtifactMount` reads the entries in order and keeps the last one at the target. -/
theorem foldl_newestAt (h : ∀ m ∈ table, m.Clear) (target : Path)
    (htarget : ∀ c ∈ target, Proper c ∧ '/' ∉ c) (found : Option (List Char × List Char)) :
    (table.map MountEntry.line).foldl (newestAt (pathText target)) found =
      match (table.filter fun m => m.point = target).getLast? with
      | none => found
      | some m => some (m.root, m.fstype.text) := by
  induction table generalizing found with
  | nil => rfl
  | cons m table ih =>
    have hstep : newestAt (pathText target) found m.line =
        if m.point = target then some (m.root, m.fstype.text) else found := by
      have hlen : ¬ (m.words.length < 5 ∨ (m.fstype.text :: fields m.rest).length < 1) := by
        simp [MountEntry.words]
      have hroot : m.words.getD 3 [] = escape m.root := rfl
      have hpoint : m.words.getD 4 [] = escape (pathText m.point) := rfl
      rw [newestAt, m.lineFields_line (h m mem_cons_self)]
      simp only [if_neg hlen, hroot, hpoint, unescapeMountPath_escape, ne_eq,
        pathText_inj m.point_proper htarget, ite_not, getD_cons_zero]
    rw [map_cons, foldl_cons, hstep, ih fun m' hm' => h m' (mem_cons_of_mem m hm')]
    by_cases hat : m.point = target
    · rw [if_pos hat, filter_cons_of_pos (by simpa using hat), getLast?_cons]
      cases (table.filter fun m => m.point = target).getLast? with
      | none | some m' => rfl
    · rw [if_neg hat, filter_cons_of_neg (by simpa using hat)]

theorem mountsUnder_eq (h : ∀ m ∈ table, m.Clear) {dir : List Char} (hdir : isAbs dir = true) :
    mountsUnder (render table) dir =
      (table.filter fun m => names dir <+: m.point ∧ (names dir ≠ [] ∨ m.point = [])).map
        fun m => pathText m.point := by
  rw [mountsUnder, splitOn_render h, clean_abs hdir, filterMap_append, filterMap_map]
  have hempty : lineFields [] = none := by decide
  simp only [filterMap_cons, hempty, filterMap_nil, append_nil]
  rw [← filterMap_eq_map, ← filterMap_eq_filter, filterMap_filterMap]
  apply filterMap_congr
  intro m hm
  have hlen : ¬ m.words.length < 5 := by simp [MountEntry.words]
  have hpoint : m.words.getD 4 [] = escape (pathText m.point) := rfl
  simp only [Function.comp_apply, m.lineFields_line (h m hm), if_neg hlen, hpoint,
    unescapeMountPath_escape, under_iff m.point_proper (names_proper dir)]
  by_cases hunder : names dir <+: m.point ∧ (names dir ≠ [] ∨ m.point = [])
  · simp [Option.guard, hunder]
  · simp [Option.guard, hunder]

/-- **The table is read back**: for a table without unescaped white space in its paths,
    `HasArtifactMount` judges the last entry at its target, and `MountsUnder` lists the mount
    points at or below its directory exactly when the directory is not the root, or nothing is
    mounted below it. -/
theorem mountinfo_read_back (table : List MountEntry) (h : ∀ m ∈ table, m.Clear)
    {dir target : List Char} (hdir : isAbs dir = true) (htarget : isAbs target = true) :
    hasArtifactMount (render table) target =
        ((table.filter fun m => m.point = names target).getLast?.any MountEntry.isArtifact) ∧
      (mountsUnder (render table) dir =
          (table.filter fun m => names dir <+: m.point).map (fun m => pathText m.point) ↔
        names dir ≠ [] ∨ ∀ m ∈ table, m.point = []) := by
  constructor
  · have hlast : ∀ found, newestAt (pathText (names target)) found [] = found := fun _ => rfl
    rw [hasArtifactMount, splitOn_render h, clean_abs htarget, foldl_append,
      foldl_newestAt h _ (names_proper target), foldl_cons, foldl_nil, hlast]
    cases (table.filter fun m => m.point = names target).getLast? with
    | none | some m => rfl
  · rw [mountsUnder_eq h hdir]
    by_cases hroot : names dir = []
    · -- every mount point is below the root directory, and only the root itself is listed
      simp only [hroot, nil_prefix, true_and, ne_eq, not_true_eq_false, false_or, decide_true,
        filter_true]
      constructor
      · intro heq m hm
        have hlen := congrArg length heq
        rw [length_map, length_map, length_filter_eq_length_iff] at hlen
        simpa using hlen m hm
      · intro hall
        rw [filter_eq_self.mpr fun m hm => by simpa using hall m hm]
    · simp [hroot]

/-- A word of the kernel from a literal. -/
def word (s : String) (h : s.toList ≠ [] ∧ (∀ c ∈ s.toList, 33 ≤ c.toNat ∧ c.toNat ≤ 126) ∧
    s.toList ≠ ['-']) : Word := ⟨s.toList, h.1, h.2.1, h.2.2⟩

def overlayAt (point : Path) (h : ∀ c ∈ point, Proper c ∧ '/' ∉ c) : MountEntry where
  id := word "36" (by decide)
  parent := word "35" (by decide)
  device := word "98:0" (by decide)
  root := ['/']
  point := point
  options := word "rw,noatime" (by decide)
  optional := [word "master:1" (by decide)]
  fstype := word "overlay" (by decide)
  rest := "overlay rw".toList
  root_ne := by decide
  root_not_dash := by decide
  point_proper := h
  rest_line := by decide

/-- An overlay at `/a b`, stacked on a bind mount there, and a mount below it. -/
def stackedTable : List MountEntry :=
  [{ overlayAt ["a b".toList] (by decide) with fstype := word "ext4" (by decide) },
    overlayAt ["a b".toList] (by decide), overlayAt ["a b".toList, "c".toList] (by decide)]

/-- The overlay is seen on top, and all three mount points are read back with their blanks. -/
theorem mountinfo_read_back_stacked :
    (∀ m ∈ stackedTable, m.Clear) ∧
      hasArtifactMount (render stackedTable) "/a b".toList = true ∧
      mountsUnder (render stackedTable) "/a b/".toList =
        ["/a b".toList, "/a b".toList, "/a b/c".toList] := by
  have hclear : ∀ m ∈ stackedTable, m.Clear := by
    simp only [stackedTable, mem_cons, not_mem_nil, or_false, forall_eq_or_imp, forall_eq]
    exact ⟨⟨by decide, by decide⟩, ⟨by decide, by decide⟩, ⟨by decide, by decide⟩⟩
  have hread := mountinfo_read_back stackedTable hclear
    (show isAbs "/a b/".toList = true by decide) (show isAbs "/a b".toList = true by decide)
  exact ⟨hclear, hread.1.trans (by decide), (hread.2.mpr (.inl (by decide))).trans (by decide)⟩

/-- A mount at `/a` followed by a vertical tab and `b` is read as one at `/a`, and nothing is
    listed below `/`. -/
theorem mountinfo_misread :
    mountsUnder (render [overlayAt ["a\x0bb".toList] (by decide)]) "/a\x0bb".toList = [] ∧
      mountsUnder (render [overlayAt ["a\x0bb".toList] (by decide)]) "/a".toList = ["/a".toList] ∧
      hasArtifactMount (render [overlayAt ["a\x0bb".toList] (by decide)]) "/a\x0bb".toList = false ∧
      mountsUnder (render [overlayAt ["a".toList] (by decide)]) "/".toList = [] := by
  decide +kernel

end Orchestrator.Mount

/-
  Orchestrator.Job.Kubernetes.Mapper

  Job ids and the names of their Kubernetes Jobs (internal/job/service.go and
  internal/job/kubernetes/mapper.go).

  A Job's name has to be a DNS-1123 subdomain that fits a label value.  `jobNameFor` keeps
  an id whose characters a name may have, and rewrites any other one and adds a hash.
  What it does not look at is how the dot-separated labels of a name end, and whether a
  name that is kept is one that another id is rewritten to.

  Texts are lists of bytes, each written as the character of that number.  SHA-256 is a
  parameter.
-/

import Mathlib.Data.List.DropRight
import Orchestrator.Lib.Text

namespace Orchestrator.Job.Kubernetes

open Lib.Text

/-! ## Job ids -/

def maxJobIDLength : Nat := 128

/-- A character of an id that is no dot and not the first of its segment. -/
def isSegmentChar (c : Char) : Bool := c.isAlphanum || c = '_' || c = '-'

def isSegment : List Char → Bool
  | [] => false
  | c :: rest => c.isAlphanum && rest.all isSegmentChar

/-- `jobIDPattern`: segments with dots between them. -/
def jobIDPattern (id : List Char) : Bool := (id.splitOn '.').all isSegment

/-- The part of `validate` that is about the id: the field and what is wrong with it. -/
def validateID (id : List Char) : Except (String × String) Unit :=
  if id = [] then .error ("id", "job ID is required")
  else if id.length > maxJobIDLength then
    .error ("id", "job ID exceeds maximum length of " ++ toString maxJobIDLength)
  else if ¬ jobIDPattern id then
    .error ("id", "job ID must be alphanumeric (hyphens, underscores and dot-separated segments "
      ++ "allowed; each segment must start alphanumeric)")
  else .ok ()

/-- Job validation accepts the id. -/
def Accepted (id : List Char) : Prop := validateID id = .ok ()

instance (id : List Char) : Decidable (Accepted id) :=
  inferInstanceAs (Decidable (validateID id = .ok ()))

variable {id : List Char}

theorem Accepted.matches (h : Accepted id) : jobIDPattern id = true := by
  unfold Accepted validateID at h
  split at h
  · cases h
  split at h
  · cases h
  split at h
  · cases h
  · rename_i hmatch
    exact not_not.mp hmatch

/-! ## Job names -/

/-- The longest label value. -/
def maxJobNameLength : Nat := 63

/-- A character that `invalidJobNameChars` does not match. -/
def isJobNameChar (c : Char) : Bool := c.isLower || c.isDigit || c = '.' || c = '-'

def normaliseChar (c : Char) : Char := if isJobNameChar c.toLower then c.toLower else '-'

abbrev Sum256 := List Char → Vector UInt8 32

section

open List

def hexByte (b : UInt8) : List Char :=
  [Nat.digitChar (b.toNat / 16), Nat.digitChar (b.toNat % 16)]

def hexEncode (bytes : List UInt8) : List Char := bytes.flatMap hexByte

def plainName (jobID : List Char) : List Char := "job-".toList ++ jobID

def normalised (jobID : List Char) : List Char := (plainName jobID).map normaliseChar

def KeepsName (jobID : List Char) : Prop :=
  normalised jobID = plainName jobID ∧ (plainName jobID).length ≤ maxJobNameLength

instance (jobID : List Char) : Decidable (KeepsName jobID) :=
  inferInstanceAs (Decidable (_ ∧ _))

def hashSuffix (sum256 : Sum256) (jobID : List Char) : List Char :=
  '-' :: hexEncode ((sum256 jobID).toList.take 4)

/-- Cut at a limit, without hyphens and dots at the end. -/
def trimmed (limit : Nat) (name : List Char) : List Char :=
  (if name.length > limit then name.take limit else name).rdropWhile fun c => c = '-' || c = '.'

def jobNameFor (sum256 : Sum256) (jobID : List Char) : List Char :=
  if KeepsName jobID then plainName jobID
  else
    let suffix := hashSuffix sum256 jobID
    trimmed (maxJobNameLength - suffix.length) (normalised jobID) ++ suffix

/-! ## DNS-1123 subdomains -/

/-- A lower-case letter or a digit. -/
def IsAlnum (c : Char) : Prop := (c.isLower || c.isDigit) = true

instance (c : Char) : Decidable (IsAlnum c) := inferInstanceAs (Decidable (_ = true))

/-- Lower-case letters, digits and hyphens, beginning and ending with a letter or digit. -/
structure IsLabel (label : List Char) : Prop where
  chars : ∀ c ∈ label, IsAlnum c ∨ c = '-'
  bounded : Bounded IsAlnum IsAlnum label

structure IsJobName (name : List Char) : Prop where
  labels : ∀ label ∈ name.splitOn '.', IsLabel label
  fits : name.length ≤ maxJobNameLength

theorem not_isAlnum_dot : ¬ IsAlnum '.' := by decide

variable {c : Char}

theorem isAlnum_ne_dash (h : IsAlnum c) : c ≠ '-' := by
  rintro rfl
  exact absurd h (by decide)

/-- Labels, read off neighbouring characters. -/
theorem labels_iff (name : List Char) :
    (∀ label ∈ name.splitOn '.', IsLabel label) ↔
      (∀ c ∈ name, c ≠ '.' → IsAlnum c ∨ c = '-') ∧ Bounded IsAlnum IsAlnum name ∧
        name.IsChain (Beside IsAlnum IsAlnum '.') := by
  rw [← forall_splitOn_iff not_isAlnum_dot not_isAlnum_dot, ← forall_mem_splitOn_iff]
  exact ⟨fun h => ⟨fun label hl => (h label hl).chars, fun label hl => (h label hl).bounded⟩,
    fun h label hl => ⟨h.1 label hl, h.2 label hl⟩⟩

structure Begins (name : List Char) : Prop where
  chars : ∀ c ∈ name, c ≠ '.' → IsAlnum c ∨ c = '-'
  bounded : Bounded IsAlnum (· ≠ '.') name
  beside : name.IsChain (Beside IsAlnum (· ≠ '.') '.')

variable {name : List Char}

/-- Labels end well if no hyphen is before a dot or at the end. -/
theorem Begins.labels_iff (h : Begins name) :
    (∀ label ∈ name.splitOn '.', IsLabel label) ↔
      (∀ pre post, name ≠ pre ++ '-' :: '.' :: post) ∧ name.getLast? ≠ some '-' := by
  rw [Kubernetes.labels_iff, isChain_iff_forall_rel_of_append_cons_cons]
  have hdash : ¬ IsAlnum '-' := by decide
  constructor
  · rintro ⟨-, ⟨-, c, hc, halnum⟩, hbeside⟩
    refine ⟨fun pre post heq => hdash ((hbeside heq).2 rfl), fun hlast => ?_⟩
    rw [hlast] at hc
    cases hc
    exact hdash halnum
  · rintro ⟨hinside, hlast⟩
    obtain ⟨c, hc, hdot⟩ := h.bounded.last
    refine ⟨h.chars, ⟨h.bounded.first, c, hc, ?_⟩, ?_⟩
    · refine (h.chars c (mem_of_getLast? hc) hdot).resolve_right ?_
      rintro rfl
      exact hlast hc
    · intro c d pre post heq
      have hnext := isChain_iff_forall_rel_of_append_cons_cons.mp h.beside heq
      refine ⟨hnext.1, fun hd => ?_⟩
      refine (h.chars c (by rw [heq]; simp) (hnext.2 hd)).resolve_right ?_
      rintro rfl
      exact hinside pre post (hd ▸ heq)

/-! ## What becomes of an accepted id -/

theorem isAlnum_toLower (h : c.isAlphanum = true) : IsAlnum c.toLower := by
  have halnum : (decide (c.val ≥ 'A'.val ∧ c.val ≤ 'Z'.val) || c.isLower || c.isDigit) = true := h
  by_cases hupper : c.val ≥ 'A'.val ∧ c.val ≤ 'Z'.val
  · have hval : c.toLower.val = c.val + 32 := by
      delta Char.toLower
      rw [dif_pos hupper]
      rfl
    have hlower : 97 ≤ c.val + 32 ∧ c.val + 32 ≤ 122 := by
      have hA : 65 ≤ c.val.toNat := hupper.1
      have hZ : c.val.toNat ≤ 90 := hupper.2
      rw [UInt32.le_iff_toNat_le, UInt32.le_iff_toNat_le, UInt32.toNat_add]
      show 97 ≤ (c.val.toNat + 32) % 2 ^ 32 ∧ (c.val.toNat + 32) % 2 ^ 32 ≤ 122
      omega
    have hbool : (decide (c.toLower.val ≥ 97) && decide (c.toLower.val ≤ 122)) = true := by
      rw [hval, decide_eq_true hlower.1, decide_eq_true hlower.2]
      rfl
    exact Bool.or_eq_true_iff.mpr (.inl hbool)
  · have hsame : c.toLower = c := by
      delta Char.toLower
      exact dif_neg hupper
    rw [decide_eq_false hupper, Bool.false_or] at halnum
    rw [hsame]
    exact halnum

theorem normaliseChar_alnum (h : c.isAlphanum = true) : IsAlnum (normaliseChar c) := by
  have hlower := isAlnum_toLower h
  have hvalid : isJobNameChar c.toLower = true := by
    unfold isJobNameChar
    rw [show (c.toLower.isLower || c.toLower.isDigit) = true from hlower]
    rfl
  rw [normaliseChar, if_pos hvalid]
  exact hlower

theorem normaliseChar_eq_dot : normaliseChar c = '.' ↔ c = '.' := by
  constructor
  · intro h
    unfold normaliseChar at h
    split at h
    · delta Char.toLower at h
      split at h
      · rename_i hupper
        have hval := congrArg Char.val h
        grind
      · exact h
    · cases h
  · rintro rfl
    decide

theorem normaliseChar_name (c : Char) (h : normaliseChar c ≠ '.') :
    IsAlnum (normaliseChar c) ∨ normaliseChar c = '-' := by
  unfold normaliseChar at h ⊢
  split
  · rename_i hvalid
    rw [if_pos hvalid] at h
    unfold isJobNameChar at hvalid
    simp only [Bool.or_eq_true, decide_eq_true_eq] at hvalid
    rcases hvalid with ((hlower | hdigit) | hdot) | hdash
    · exact .inl (by unfold IsAlnum; rw [hlower]; rfl)
    · exact .inl (by unfold IsAlnum; rw [hdigit, Bool.or_true])
    · exact absurd hdot h
    · exact .inr hdash
  · exact .inr rfl

theorem isSegment_bounded {seg : List Char} (h : isSegment seg = true) (hdot : '.' ∉ seg) :
    Bounded (fun c => c.isAlphanum = true) (· ≠ '.') seg := by
  cases seg with
  | nil => cases h
  | cons c rest =>
    rw [isSegment, Bool.and_eq_true] at h
    refine ⟨⟨c, rfl, h.1⟩, _, getLast?_eq_some_getLast (by simp), ?_⟩
    intro heq
    exact hdot (heq ▸ getLast_mem (by simp))

/-- An accepted id begins with a letter or digit, and so does every segment behind a dot. -/
theorem Accepted.bounded (h : Accepted id) :
    Bounded (fun c => c.isAlphanum = true) (· ≠ '.') id ∧
      id.IsChain (Beside (fun c => c.isAlphanum = true) (· ≠ '.') '.') := by
  have hsegments := all_eq_true.mp h.matches
  have hdots := (forall_mem_splitOn_iff id).mpr fun c _ (hc : c ≠ '.') => hc
  refine (forall_splitOn_iff (by decide) (by simp) id).mp ?_
  intro seg hseg
  exact isSegment_bounded (hsegments seg hseg) fun hmem => hdots seg hseg '.' hmem rfl

theorem Accepted.normalised_begins (h : Accepted id) : Begins (normalised id) := by
  obtain ⟨⟨⟨a, ha, halnum⟩, b, hb, hlast⟩, hchain⟩ := h.bounded
  refine ⟨?_, ⟨⟨'j', rfl, by decide⟩, normaliseChar b, ?_, ?_⟩, ?_⟩
  · intro c hc hdot
    obtain ⟨d, -, rfl⟩ := mem_map.mp hc
    exact normaliseChar_name d hdot
  · rw [normalised, plainName, getLast?_map, getLast?_append, hb]
    rfl
  · exact fun heq => hlast (normaliseChar_eq_dot.mp heq)
  · refine isChain_map_of_isChain (R := Beside (fun c => c.isAlphanum = true) (· ≠ '.') '.')
      normaliseChar ?_ ?_
    · rintro c d ⟨hnext, hbefore⟩
      refine ⟨fun hc => normaliseChar_alnum (hnext (normaliseChar_eq_dot.mp hc)), ?_⟩
      intro hd hc
      exact hbefore (normaliseChar_eq_dot.mp hd) (normaliseChar_eq_dot.mp hc)
    · refine List.IsChain.append (isChain_beside_of_notMem (by decide)) hchain ?_
      rintro _ ⟨⟩ d hd
      rw [ha, Option.mem_some_iff] at hd
      subst hd
      exact ⟨fun heq => absurd heq (by decide), fun _ => by decide⟩

theorem Begins.front {part : List Char} (h : Begins name) (hpart : part <+: name)
    (hlast : ∃ c, part.getLast? = some c ∧ c ≠ '.') : Begins part := by
  obtain ⟨rest, rfl⟩ := hpart
  refine ⟨fun c hc => h.chars c (mem_append_left rest hc), ⟨?_, hlast⟩, h.beside.left_of_append⟩
  cases part with
  | nil => simp at hlast
  | cons c part => exact h.bounded.first

theorem length_hashSuffix (sum256 : Sum256) (id : List Char) :
    (hashSuffix sum256 id).length = 9 := by
  have hhex : ∀ bytes : List UInt8, (hexEncode bytes).length = 2 * bytes.length := by
    intro bytes
    induction bytes with
    | nil => rfl
    | cons b bytes ih =>
      rw [hexEncode, flatMap_cons, length_append, ← hexEncode, ih]
      simp only [hexByte, length_cons, length_nil]
      omega
  rw [hashSuffix, length_cons, hhex, length_take, Vector.length_toList]
  rfl

theorem isAlnum_of_mem_hexEncode {bytes : List UInt8} (h : c ∈ hexEncode bytes) :
    IsAlnum c := by
  obtain ⟨b, -, hc⟩ := mem_flatMap.mp h
  have hdigit : ∀ n < 16, IsAlnum (Nat.digitChar n) := by decide
  have hb : b.toNat < 256 := b.toNat_lt_size
  rcases mem_cons.mp hc with rfl | hc
  · exact hdigit _ (by omega)
  · rw [mem_singleton.mp hc]
    exact hdigit _ (by omega)

/-- The part of the name that is made from the id. -/
def keptName (id : List Char) : List Char :=
  if KeepsName id then plainName id else trimmed 54 (normalised id)

theorem jobNameFor_eq (sum256 : Sum256) (id : List Char) :
    jobNameFor sum256 id = keptName id ++ if KeepsName id then [] else hashSuffix sum256 id := by
  unfold jobNameFor keptName
  split
  · rw [append_nil]
  · simp only [length_hashSuffix]
    rfl

theorem trimmed_front (limit : Nat) (name : List Char) : trimmed limit name <+: name := by
  refine ( rdropWhile_prefix _ _).trans ?_
  split
  · exact take_prefix limit name
  · exact prefix_refl name

theorem length_trimmed_le (limit : Nat) (name : List Char) : (trimmed limit name).length ≤ limit := by
  refine (List.IsPrefix.length_le ( rdropWhile_prefix _ _)).trans ?_
  split
  · exact length_take_le limit name
  · omega

theorem trimmed_last {limit : Nat} (h : trimmed limit name ≠ []) :
    ∃ c, (trimmed limit name).getLast? = some c ∧ c ≠ '-' ∧ c ≠ '.' := by
  refine ⟨_, getLast?_eq_some_getLast h, ?_⟩
  have hlast := rdropWhile_last_not _ _ h
  rw [Bool.not_eq_true, Bool.or_eq_false_iff] at hlast
  exact ⟨of_decide_eq_false hlast.1, of_decide_eq_false hlast.2⟩

theorem trimmed_normalised_ne_nil (id : List Char) : trimmed 54 (normalised id) ≠ [] := by
  intro h
  have hall := rdropWhile_eq_nil_iff.mp h
  have hmem : 'j' ∈ if (normalised id).length > 54 then (normalised id).take 54 else normalised id := by
    split <;> exact mem_cons_self
  exact absurd (hall 'j' hmem) (by decide)

theorem Accepted.kept_begins (h : Accepted id) : Begins (keptName id) := by
  unfold keptName
  split
  · rename_i hkeeps
    rw [← hkeeps.1]
    exact h.normalised_begins
  · obtain ⟨c, hc, -, hdot⟩ := trimmed_last (trimmed_normalised_ne_nil id)
    exact h.normalised_begins.front (trimmed_front 54 _) ⟨c, hc, hdot⟩

/-! ## How segments end -/

/-- The id can be kept as it is: lower-case letters, digits, dots and hyphens, at most 59. -/
def Plain (id : List Char) : Prop := (∀ c ∈ id, isJobNameChar c = true) ∧ id.length ≤ 59

instance (id : List Char) : Decidable (Plain id) := inferInstanceAs (Decidable (_ ∧ _))

/-- No segment ends in a hyphen or an underscore.  Of an id that is rewritten only segments in
    the first 48 characters count, and not the last one. -/
structure EndsWell (id : List Char) : Prop where
  inside : ∀ pre c post, id = pre ++ c :: '.' :: post → c = '-' ∨ c = '_' →
    ¬ Plain id ∧ 48 ≤ pre.length
  last : Plain id → id.getLast? ≠ some '-'

theorem normaliseChar_eq_self : normaliseChar c = c ↔ isJobNameChar c = true := by
  rw [normaliseChar]
  constructor
  · intro h
    split at h
    · rename_i hvalid
      rwa [h] at hvalid
    · rw [← h]
      decide
  · intro h
    have hsame : c.toLower = c := by
      delta Char.toLower
      refine dif_neg fun hupper => ?_
      have hcases : (c.val ≥ 'a'.val && c.val ≤ 'z'.val || c.isDigit || c = '.' || c = '-') =
          true := h
      simp only [Char.isDigit, Bool.or_eq_true, Bool.and_eq_true, decide_eq_true_eq] at hcases
      rcases hcases with ((h | h) | rfl) | rfl
      · grind
      · grind
      · exact absurd hupper (by decide)
      · exact absurd hupper (by decide)
    rw [hsame, if_pos h]

theorem keepsName_iff : KeepsName id ↔ Plain id := by
  have hsame : normalised id = plainName id ↔ ∀ c ∈ id, isJobNameChar c = true := by
    rw [← map_id (plainName id), normalised, map_inj_left, plainName, forall_mem_append]
    simp only [id_eq, normaliseChar_eq_self]
    exact and_iff_right (by decide)
  have hlen : (plainName id).length = 4 + id.length := by
    rw [plainName, length_append]
    rfl
  rw [KeepsName, Plain, hsame, hlen, maxJobNameLength]
  exact and_congr_right fun _ => by omega

theorem rdropWhile_append_cons {p : Char → Bool} (hc : p c = false) (pre post : List Char) :
    (pre ++ c :: post).rdropWhile p = pre ++ c :: post.rdropWhile p := by
  induction post using reverseRecOn with
  | nil => exact rdropWhile_concat_neg p pre c (by simp [hc])
  | append_singleton post d ih =>
    rw [← cons_append, ← append_assoc, rdropWhile_concat, rdropWhile_concat]
    split
    · exact ih
    · simp

theorem Accepted.chars (h : Accepted id) :
    ∀ c ∈ id, c ≠ '.' → c.isAlphanum = true ∨ c = '-' ∨ c = '_' := by
  rw [← forall_mem_splitOn_iff]
  intro seg hseg c hc
  have hsegment := all_eq_true.mp h.matches seg hseg
  cases seg with
  | nil => cases hc
  | cons d rest =>
    rw [isSegment, Bool.and_eq_true, all_eq_true] at hsegment
    rcases mem_cons.mp hc with rfl | hc
    · exact .inl hsegment.1
    · have hchar := hsegment.2 c hc
      simp only [isSegmentChar, Bool.or_eq_true, decide_eq_true_eq] at hchar
      tauto

/-- A hyphen before a dot in the rewritten name comes from the end of a segment. -/
theorem Accepted.normalised_split (h : Accepted id) {front back : List Char}
    (heq : normalised id = front ++ '-' :: '.' :: back) :
    ∃ pre c post, id = pre ++ c :: '.' :: post ∧ (c = '-' ∨ c = '_') ∧
      front.length = pre.length + 4 := by
  obtain ⟨pre, rest, hid, rfl, hrest⟩ := map_eq_append_iff.mp heq
  obtain ⟨c, rest, rfl, hc, hrest⟩ := map_eq_cons_iff.mp hrest
  obtain ⟨d, post, rfl, hd, -⟩ := map_eq_cons_iff.mp hrest
  obtain rfl := normaliseChar_eq_dot.mp hd
  -- the hyphen of `job-` is followed by a letter or digit
  obtain ⟨a, ha, halnum⟩ := h.bounded.1.first
  replace hid : 'j' :: 'o' :: 'b' :: '-' :: id = pre ++ c :: '.' :: post := hid
  rcases pre with _ | ⟨p₁, _ | ⟨p₂, _ | ⟨p₃, _ | ⟨p₄, pre⟩⟩⟩⟩ <;>
    simp only [cons_append, nil_append, cons.injEq] at hid
  · exact absurd hid.2.1 (by decide)
  · exact absurd hid.2.2.1 (by decide)
  · exact absurd hid.2.2.2.1 (by decide)
  · rw [hid.2.2.2.2, head?_cons, Option.some.injEq] at ha
    exact absurd halnum (by rw [← ha]; decide)
  obtain rfl := hid.2.2.2.2
  refine ⟨pre, c, post, rfl, ?_, by simp⟩
  have hdot : c ≠ '.' := by
    rintro rfl
    cases hc
  refine (h.chars c (by simp) hdot).resolve_left fun halnum => ?_
  have hdash := normaliseChar_alnum halnum
  rw [hc] at hdash
  exact absurd hdash (by decide)

theorem trimmed_append_cons (hc : IsAlnum c) {pre : List Char} {limit : Nat}
    (hlen : pre.length < limit) (post : List Char) :
    ∃ rest, trimmed limit (pre ++ c :: post) = pre ++ c :: rest := by
  have hkeep : (c = '-' || c = '.') = false := by
    rw [Bool.or_eq_false_iff, decide_eq_false_iff_not, decide_eq_false_iff_not]
    exact ⟨isAlnum_ne_dash hc, fun hdot => not_isAlnum_dot (hdot ▸ hc)⟩
  rw [trimmed]
  split
  · obtain ⟨k, hk⟩ : ∃ k, limit - pre.length = k + 1 := ⟨limit - pre.length - 1, by omega⟩
    rw [take_append, take_of_length_le (by omega), hk, take_succ_cons]
    exact ⟨_, rdropWhile_append_cons hkeep pre _⟩
  · exact ⟨_, rdropWhile_append_cons hkeep pre post⟩

theorem Accepted.next {pre post : List Char} (h : Accepted (pre ++ c :: '.' :: post)) :
    ∃ d rest, post = d :: rest ∧ d.isAlphanum = true := by
  obtain ⟨⟨-, b, hb, hlast⟩, hchain⟩ := h.bounded
  cases post with
  | nil =>
    have hdot : '.' = b := by simpa using hb
    exact absurd hdot.symm hlast
  | cons d rest =>
    have hnext := isChain_iff_forall_rel_of_append_cons_cons.mp hchain
      (show _ = (pre ++ [c]) ++ '.' :: d :: rest by simp)
    exact ⟨d, rest, rfl, hnext.1 rfl⟩

theorem Accepted.endsWell_iff (h : Accepted id) :
    (∀ pre post, keptName id ≠ pre ++ '-' :: '.' :: post) ∧ (keptName id).getLast? ≠ some '-' ↔
      EndsWell id := by
  rw [keptName]
  -- an id that keeps its name, and one that is rewritten, cut and hashed
  by_cases hplain : Plain id
  · have hsame : normalised id = plainName id := (keepsName_iff.mpr hplain).1
    have hlast : (plainName id).getLast? = id.getLast? := by
      obtain ⟨b, hb, -⟩ := h.bounded.1.last
      rw [plainName, getLast?_append, hb]
      rfl
    rw [if_pos (keepsName_iff.mpr hplain), hlast]
    constructor
    · rintro ⟨hinside, hlast⟩
      refine ⟨?_, fun _ => hlast⟩
      rintro pre c post rfl (rfl | rfl)
      · exact absurd (append_assoc ..).symm (hinside ("job-".toList ++ pre) post)
      · exact absurd (hplain.1 '_' (by simp)) (by decide)
    · rintro ⟨hinside, hlast⟩
      refine ⟨fun front back heq => ?_, hlast hplain⟩
      obtain ⟨pre, c, post, hid, hsep, -⟩ := h.normalised_split (hsame.trans heq)
      exact (hinside pre c post hid hsep).1 hplain
  · rw [if_neg (mt keepsName_iff.mp hplain)]
    obtain ⟨c, hc, hdash, hdot⟩ := trimmed_last (trimmed_normalised_ne_nil id)
    constructor
    · rintro ⟨hinside, -⟩
      refine ⟨?_, fun h => absurd h hplain⟩
      rintro pre c post rfl hsep
      refine ⟨hplain, Nat.le_of_not_lt fun hlt => ?_⟩
      obtain ⟨d, rest, rfl, halnum⟩ := h.next
      have hnorm : normaliseChar c = '-' := by rcases hsep with rfl | rfl <;> decide
      -- the bad pair is in front of the cut, and what follows it keeps it from being trimmed
      have hshort : (normalised pre ++ ['-', '.']).length < 54 := by
        simp [normalised, plainName]
        omega
      obtain ⟨tail, htail⟩ := trimmed_append_cons (normaliseChar_alnum halnum) hshort
        (rest.map normaliseChar)
      refine hinside (normalised pre) (normaliseChar d :: tail) ?_
      have hsplit : normalised (pre ++ c :: '.' :: d :: rest) =
          (normalised pre ++ ['-', '.']) ++ normaliseChar d :: rest.map normaliseChar := by
        simp [normalised, plainName, hnorm, normaliseChar_eq_dot.mpr]
      rw [hsplit, htail, append_assoc]
      rfl
    · rintro ⟨hinside, -⟩
      refine ⟨fun front back heq => ?_, ?_⟩
      · obtain ⟨rest, hrest⟩ := trimmed_front 54 (normalised id)
        rw [heq] at hrest
        obtain ⟨pre, c, post, hid, hsep, hlen⟩ := h.normalised_split
          (hrest.symm.trans (append_assoc ..))
        have hfar := (hinside pre c post hid hsep).2
        have hle := length_trimmed_le 54 (normalised id)
        rw [heq, length_append, hlen] at hle
        -- a pair behind the cut could only be the end of the name, which is trimmed
        obtain rfl : back = [] := eq_nil_of_length_eq_zero (by simp at hle; omega)
        rw [heq] at hc
        exact hdot (by simpa using hc.symm)
      · rw [hc]
        exact fun heq => hdash (Option.some.inj heq)

/-- The hash at the end of a name that was trimmed changes nothing about its labels. -/
theorem labels_append_hash (h : Begins name)
    (hlast : ∃ c, name.getLast? = some c ∧ c ≠ '-' ∧ c ≠ '.') (sum256 : Sum256) (id : List Char) :
    (∀ label ∈ (name ++ hashSuffix sum256 id).splitOn '.', IsLabel label) ↔
      ∀ label ∈ name.splitOn '.', IsLabel label := by
  obtain ⟨c, hc, hdash, hdot⟩ := hlast
  have halnum : IsAlnum c :=
    (h.chars c (mem_of_getLast? hc) hdot).resolve_right hdash
  have hsuffix : ∀ d ∈ hashSuffix sum256 id, IsAlnum d ∨ d = '-' := by
    intro d hd
    rcases mem_cons.mp hd with rfl | hd
    · exact .inr rfl
    · exact .inl (isAlnum_of_mem_hexEncode hd)
  have hnodot : '.' ∉ hashSuffix sum256 id := fun hd => absurd (hsuffix '.' hd) (by decide)
  have hend : ∃ d, (name ++ hashSuffix sum256 id).getLast? = some d ∧ IsAlnum d := by
    have hne : hexEncode ((sum256 id).toList.take 4) ≠ [] := by
      intro hnil
      have hlen := length_hashSuffix sum256 id
      rw [hashSuffix, hnil] at hlen
      cases hlen
    refine ⟨_, ?_, isAlnum_of_mem_hexEncode (getLast_mem hne)⟩
    rw [hashSuffix, getLast?_append, getLast?_cons_of_ne_nil hne,
      getLast?_eq_some_getLast hne]
    rfl
  -- the labels are read off neighbouring characters; only the last label grows
  rw [labels_iff, labels_iff, forall_mem_append, isChain_append]
  constructor
  · rintro ⟨⟨hchars, -⟩, -, hchain, -⟩
    exact ⟨hchars, ⟨h.bounded.first, c, hc, halnum⟩, hchain⟩
  · rintro ⟨hchars, hbounded, hchain⟩
    refine ⟨⟨hchars, fun d hd _ => hsuffix d hd⟩, ⟨?_, hend⟩, hchain,
      isChain_beside_of_notMem hnodot, ?_⟩
    · obtain ⟨d, hd, hfirst⟩ := hbounded.first
      exact ⟨d, by rw [head?_append, hd]; rfl, hfirst⟩
    · rintro a ha b ⟨⟩
      rw [hc, Option.mem_some_iff] at ha
      exact ⟨fun heq => absurd (ha.trans heq) hdot, fun heq => absurd heq (by decide)⟩

theorem length_jobNameFor_le (sum256 : Sum256) (id : List Char) :
    (jobNameFor sum256 id).length ≤ maxJobNameLength := by
  rw [jobNameFor_eq]
  unfold keptName
  split
  · rename_i hkeeps
    rw [append_nil]
    exact hkeeps.2
  have htrimmed := length_trimmed_le 54 (normalised id)
  rw [length_append, length_hashSuffix]
  unfold maxJobNameLength
  omega

/-- **When the name of an accepted id is valid**: exactly when its segments end well. -/
theorem isJobName_iff_endsWell (sum256 : Sum256) {id : List Char} (h : Accepted id) :
    IsJobName (jobNameFor sum256 id) ↔ EndsWell id := by
  have hlabels : (∀ label ∈ (jobNameFor sum256 id).splitOn '.', IsLabel label) ↔
      ∀ label ∈ (keptName id).splitOn '.', IsLabel label := by
    rw [jobNameFor_eq]
    by_cases hkeeps : KeepsName id
    · rw [if_pos hkeeps, append_nil]
    rw [if_neg hkeeps]
    refine labels_append_hash h.kept_begins ?_ sum256 id
    rw [keptName, if_neg hkeeps]
    exact trimmed_last (trimmed_normalised_ne_nil id)
  rw [← h.endsWell_iff, ← h.kept_begins.labels_iff, ← hlabels]
  exact ⟨fun hname => hname.labels, fun hlabels => ⟨hlabels, length_jobNameFor_le sum256 id⟩⟩

theorem isJobName_web : EndsWell "Web.1".toList ∧
    ∀ sum256, IsJobName (jobNameFor sum256 "Web.1".toList) := by
  have hends : EndsWell "Web.1".toList := by
    refine ⟨fun pre c post heq hsep => ?_, fun hplain => absurd hplain (by decide)⟩
    have hmem : c ∈ "Web.1".toList := by
      rw [heq]
      simp
    rcases hsep with rfl | rfl <;> exact absurd hmem (by decide)
  exact ⟨hends, fun sum256 => (isJobName_iff_endsWell sum256 (by decide)).mpr hends⟩

/-- An id that ends in a hyphen is accepted, and its name is not valid, whatever the hash. -/
theorem trailing_hyphen_name :
    Accepted "a-".toList ∧ ∀ sum256 : Sum256, jobNameFor sum256 "a-".toList = "job-a-".toList ∧
      ¬ IsJobName (jobNameFor sum256 "a-".toList) := by
  refine ⟨by decide, ?_⟩
  intro sum256
  have hname : jobNameFor sum256 "a-".toList = "job-a-".toList := if_pos (by decide)
  refine ⟨hname, ?_⟩
  intro hvalid
  have hlabel := hvalid.labels "job-a-".toList (by rw [hname]; decide)
  obtain ⟨c, hc, halnum⟩ := hlabel.bounded.last
  cases hc
  exact absurd halnum (by decide)

/-! ## Different ids, one name -/

/-- `a` is what is kept of `b`, which cannot be kept as it is, with a hyphen and the eight digits of
    the hash of `b`. -/
def Clash (sum256 : Sum256) (a b : List Char) : Prop :=
  ¬ Plain b ∧ a = trimmed 50 (b.map normaliseChar) ++ hashSuffix sum256 b

/-- Two names that were both rewritten end in the two hashes. -/
theorem hashSuffix_eq_of_append {sum256 : Sum256} {a b pre pre' : List Char}
    (h : pre ++ hashSuffix sum256 a = pre' ++ hashSuffix sum256 b) :
    hashSuffix sum256 a = hashSuffix sum256 b := by
  have hlen : (hashSuffix sum256 a).length = (hashSuffix sum256 b).length := by
    rw [length_hashSuffix, length_hashSuffix]
  exact (append_inj' h hlen).2

theorem Accepted.trimmed_normalised (h : Accepted id) :
    trimmed 54 (normalised id) = "job-".toList ++ trimmed 50 (id.map normaliseChar) := by
  obtain ⟨a, ha, halnum⟩ := h.bounded.1.first
  obtain ⟨rest, rfl⟩ := head?_eq_some_iff.mp ha
  have hnorm : normalised (a :: rest) = "job-".toList ++ (a :: rest).map normaliseChar := by
    rw [normalised, plainName, map_append]
    rfl
  have hkeep : (normaliseChar a = '-' || normaliseChar a = '.') = false := by
    have hc := normaliseChar_alnum halnum
    rw [Bool.or_eq_false_iff, decide_eq_false_iff_not, decide_eq_false_iff_not]
    exact ⟨isAlnum_ne_dash hc, fun hdot => not_isAlnum_dot (hdot ▸ hc)⟩
  have hcut : ∀ name : List Char, (if 4 + name.length > 54 then ("job-".toList ++ name).take 54
      else "job-".toList ++ name) = "job-".toList ++ if name.length > 50 then name.take 50 else name := by
    intro name
    by_cases hlong : name.length > 50
    · rw [if_pos (by omega), if_pos hlong]
      rfl
    · rw [if_neg (by omega), if_neg hlong]
  have hfirst : ∀ rest : List Char, (if (normaliseChar a :: rest).length > 50 then
      (normaliseChar a :: rest).take 50 else normaliseChar a :: rest) =
      normaliseChar a :: if rest.length > 49 then rest.take 49 else rest := by
    intro rest
    rw [length_cons]
    by_cases hlong : rest.length > 49
    · rw [if_pos (by omega), if_pos hlong]
      rfl
    · rw [if_neg (by omega), if_neg hlong]
  rw [trimmed, trimmed, hnorm, length_append, show "job-".toList.length = 4 from rfl, hcut,
    map_cons, hfirst, rdropWhile_append_cons hkeep]
  exact congrArg _ (rdropWhile_append_cons hkeep [] _).symm

theorem plain_of_clash {sum256 : Sum256} {a b : List Char} (h : Clash sum256 a b) : Plain a := by
  obtain ⟨-, rfl⟩ := h
  have halnum : ∀ {c}, IsAlnum c → isJobNameChar c = true := by
    intro c hc
    rw [isJobNameChar, show (c.isLower || c.isDigit) = true from hc]
    rfl
  refine ⟨forall_mem_append.mpr ⟨fun c hc => ?_, forall_mem_cons.mpr ⟨rfl, ?_⟩⟩, ?_⟩
  · obtain ⟨d, -, rfl⟩ := mem_map.mp ((trimmed_front 50 _).mem hc)
    rw [normaliseChar]
    split
    · assumption
    · rfl
  · exact fun c hc => halnum (isAlnum_of_mem_hexEncode hc)
  · have hlen := length_trimmed_le 50 (b.map normaliseChar)
    rw [length_append, length_hashSuffix]
    omega

/-- **When two ids have different names**, given that their hashes differ: exactly when neither
    is what the other one is rewritten to. -/
theorem jobNameFor_ne_iff (sum256 : Sum256) {a b : List Char} (ha : Accepted a) (hb : Accepted b)
    (hne : a ≠ b) (hhash : hashSuffix sum256 a ≠ hashSuffix sum256 b) :
    jobNameFor sum256 a ≠ jobNameFor sum256 b ↔ ¬ Clash sum256 a b ∧ ¬ Clash sum256 b a := by
  have hclash : ∀ {a b}, Accepted b → Plain a → ¬ Plain b →
      (jobNameFor sum256 a = jobNameFor sum256 b ↔ Clash sum256 a b) := by
    intro a b hb ha hb'
    rw [jobNameFor_eq, jobNameFor_eq, keptName, keptName, if_pos (keepsName_iff.mpr ha),
      if_pos (keepsName_iff.mpr ha), if_neg (mt keepsName_iff.mp hb'),
      if_neg (mt keepsName_iff.mp hb'), hb.trimmed_normalised, append_nil, append_assoc,
      plainName, append_cancel_left_eq, Clash, and_iff_right hb']
  by_cases hpa : Plain a <;> by_cases hpb : Plain b
  · rw [jobNameFor_eq, jobNameFor_eq, keptName, keptName]
    simp only [if_pos (keepsName_iff.mpr hpa), if_pos (keepsName_iff.mpr hpb), append_nil]
    exact iff_of_true (fun heq => hne (append_cancel_left heq)) ⟨fun h => h.1 hpb, fun h => h.1 hpa⟩
  · rw [ne_eq, hclash hb hpa hpb]
    exact (and_iff_left fun h => h.1 hpa).symm
  · rw [ne_eq, eq_comm, hclash ha hpb hpa]
    exact (and_iff_right fun h => h.1 hpb).symm
  · rw [jobNameFor_eq, jobNameFor_eq, if_neg (mt keepsName_iff.mp hpa),
      if_neg (mt keepsName_iff.mp hpb)]
    exact iff_of_true (fun heq => hhash (hashSuffix_eq_of_append heq))
      ⟨fun h => hpa (plain_of_clash h), fun h => hpb (plain_of_clash h)⟩

end

def sum256At (id : List Char) : Vector UInt8 32 :=
  let sum :=
    if id = "A".toList then 0x559aead08264d5795d3909718cdd05abd49572e84fe55590eef31a88a08fdffd
    else if id = "b".toList then 0x3e23e8160039594a33894f6564e1b1348bbd7a0088d42c4acb73eeaed59c009d
    else 0xa7638c75dbb993513ed7691178dc0f474373f282384085dfd2ab55ea2f39ef9e
  Vector.ofFn fun i => UInt8.ofNat (sum >>> (8 * (31 - i.val)))

theorem jobNameFor_ne_iff_b :
    jobNameFor sum256At "A".toList ≠ jobNameFor sum256At "b".toList :=
  (jobNameFor_ne_iff _ (by decide) (by decide) (by decide) (by decide)).mpr
    ⟨by unfold Clash; decide, by unfold Clash; decide⟩

/-- An id with a capital letter, and the id that its rewritten name belongs to. -/
theorem hashed_name_kept :
    Accepted "A".toList ∧ Accepted "a-559aead0".toList ∧
      hashSuffix sum256At "A".toList ≠ hashSuffix sum256At "a-559aead0".toList ∧
      jobNameFor sum256At "A".toList = jobNameFor sum256At "a-559aead0".toList := by
  decide

end Orchestrator.Job.Kubernetes

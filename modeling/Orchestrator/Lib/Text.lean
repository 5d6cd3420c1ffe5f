/-
  Orchestrator.Lib.Text

  Cutting texts: at the first occurrence of a separator (`cut`), and into the fields
  between runs of white space (`fields`); what texts that were put together with a
  separator, and numbers in decimal, tell of their parts; and what the parts between
  separators begin and end with, read off neighbouring characters (`forall_splitOn_iff`).

  A text is a list of bytes, each written as the character of that number.  White space
  is what Unicode counts as such, in UTF-8.
-/

import Mathlib.Data.List.Chain
import Mathlib.Data.List.Infix

namespace Orchestrator.Lib.Text

open List

/-- Along the list, and not over the finite type of all characters. -/
instance decidableForallMem (text : List Char) (P : Char → Prop) [DecidablePred P] :
    Decidable (∀ c ∈ text, P c) :=
  decidableBAll P text

instance decidableExistsMem (text : List Char) (P : Char → Prop) [DecidablePred P] :
    Decidable (∃ c ∈ text, P c) :=
  decidableBEx P text

/-! ## The first occurrence of a separator -/

/-- The text before the first occurrence of `sep` and the text after it. -/
def cut (sep : List Char) : List Char → Option (List Char × List Char)
  | [] => if sep = [] then some ([], []) else none
  | c :: rest =>
    if sep.isPrefixOf (c :: rest) then some ([], (c :: rest).drop sep.length)
    else (cut sep rest).map fun r => (c :: r.1, r.2)

theorem cut_here {sep post : List Char} (h : sep ≠ []) : cut sep (sep ++ post) = some ([], post) := by
  obtain ⟨c, rest, rfl⟩ := exists_cons_of_ne_nil h
  have hpre : (c :: rest).isPrefixOf (c :: (rest ++ post)) = true :=
    List.isPrefixOf_iff_prefix.mpr (prefix_append (c :: rest) post)
  rw [cons_append, cut, if_pos hpre, ← cons_append, drop_left]

theorem cut_past {sep pre text : List Char} (h : ∀ t, t <:+ pre → t ≠ [] → ¬ sep <+: t ++ text) :
    cut sep (pre ++ text) = (cut sep text).map fun r => (pre ++ r.1, r.2) := by
  induction pre with
  | nil =>
    cases hcut : cut sep text with
    | none | some r => simp [hcut]
  | cons c pre ih =>
    have hhere : sep.isPrefixOf (c :: (pre ++ text)) = false := by
      rw [Bool.eq_false_iff, ne_eq, List.isPrefixOf_iff_prefix]
      exact h (c :: pre) (suffix_refl _) (by simp)
    have hrest := ih fun t ht hne => h t (ht.trans (suffix_cons c pre)) hne
    rw [cons_append, cut, if_neg (by rw [hhere]; decide), hrest, Option.map_map]
    rfl

/-! ## White space -/

/-- The encodings of the white space characters. -/
def spaces : List (List Char) :=
  ([[0x09], [0x0a], [0x0b], [0x0c], [0x0d], [0x20], [0xc2, 0x85], [0xc2, 0xa0],
    [0xe1, 0x9a, 0x80], [0xe2, 0x80, 0x80], [0xe2, 0x80, 0x81], [0xe2, 0x80, 0x82],
    [0xe2, 0x80, 0x83], [0xe2, 0x80, 0x84], [0xe2, 0x80, 0x85], [0xe2, 0x80, 0x86],
    [0xe2, 0x80, 0x87], [0xe2, 0x80, 0x88], [0xe2, 0x80, 0x89], [0xe2, 0x80, 0x8a],
    [0xe2, 0x80, 0xa8], [0xe2, 0x80, 0xa9], [0xe2, 0x80, 0xaf], [0xe2, 0x81, 0x9f],
    [0xe3, 0x80, 0x80]] : List (List Nat)).map fun bytes => bytes.map Char.ofNat

/-- The length of the white space character that a text starts with, 0 for none. -/
def spaceWidth (text : List Char) : Nat :=
  match spaces.find? fun space => space.isPrefixOf text with
  | some space => space.length
  | none => 0

/-- The last field, if there is anything in it. -/
def flush (field : List Char) : List (List Char) := if field = [] then [] else [field]

/-- The fields of a text, `field` being the one that is being read and `skip` the bytes of a
    white space character that are still to come. -/
def fieldsFrom : Nat → List Char → List Char → List (List Char)
  | _, field, [] => flush field
  | skip + 1, field, _ :: rest => fieldsFrom skip field rest
  | 0, field, c :: rest =>
    match spaceWidth (c :: rest) with
    | 0 => fieldsFrom 0 (field ++ [c]) rest
    | width + 1 => flush field ++ fieldsFrom width [] rest

/-- The fields between runs of white space. -/
def fields (text : List Char) : List (List Char) := fieldsFrom 0 [] text

example : fields " a\x0bbc  d ".toList = ["a".toList, "bc".toList, "d".toList] := by decide

/-- A text without white space. -/
def Solid (text : List Char) : Prop := ∀ space ∈ spaces, ¬ space <:+: text

theorem Solid.of_suffix {t text : List Char} (h : Solid text) (ht : t <:+ text) : Solid t :=
  fun space hspace hin => h space hspace (hin.trans ht.isInfix)

theorem Solid.not_mem {c : Char} {text : List Char} (h : Solid text) (hc : [c] ∈ spaces) :
    c ∉ text := by
  intro hmem
  obtain ⟨a, b, rfl⟩ := append_of_mem hmem
  exact h [c] hc ⟨a, b, by simp⟩

/-- No encoding has a plain space in it, but the one that is a plain space. -/
theorem blank_not_mem_tail {space : List Char} (h : space ∈ spaces) : ' ' ∉ space.tail := by
  have hall : ∀ space ∈ spaces, ' ' ∉ space.tail := by decide
  exact hall space h

/-- White space that starts inside a word ends inside it. -/
theorem prefix_of_prefix_blank {space t rest : List Char} (hspace : space ∈ spaces) (ht : t ≠ [])
    (h : space <+: t ++ ' ' :: rest) : space <+: t := by
  by_cases hlen : space.length ≤ t.length
  · exact prefix_of_prefix_length_le h (prefix_append t _) hlen
  have hpre : t <+: space :=
    prefix_of_prefix_length_le (prefix_append t _) h (by omega)
  obtain ⟨more, rfl⟩ := hpre
  rw [prefix_append_right_inj] at h
  obtain ⟨c, more, rfl⟩ : ∃ c more', more = c :: more' := by
    apply exists_cons_of_ne_nil
    rintro rfl
    simp at hlen
  have hc : c = ' ' := (cons_prefix_cons.mp h).1
  obtain ⟨d, t, rfl⟩ := exists_cons_of_ne_nil ht
  exact absurd (by simp [hc]) (blank_not_mem_tail hspace)

theorem spaceWidth_eq_zero {text : List Char} (h : ∀ space ∈ spaces, ¬ space <+: text) :
    spaceWidth text = 0 := by
  have hnone : spaces.find? (fun space => space.isPrefixOf text) = none := by
    rw [find?_eq_none]
    intro space hspace
    rw [List.isPrefixOf_iff_prefix]
    exact h space hspace
  rw [spaceWidth, hnone]

theorem spaceWidth_blank (rest : List Char) : spaceWidth (' ' :: rest) = 1 := rfl

theorem fieldsFrom_word {field word rest : List Char} (h : Solid word) :
    fieldsFrom 0 field (word ++ ' ' :: rest) = flush (field ++ word) ++ fieldsFrom 0 [] rest := by
  induction word generalizing field with
  | nil =>
    rw [nil_append, append_nil, fieldsFrom, spaceWidth_blank]
  | cons c word ih =>
    have hnone : spaceWidth (c :: (word ++ ' ' :: rest)) = 0 := by
      apply spaceWidth_eq_zero
      intro space hspace hpre
      have hword : space <+: c :: word := prefix_of_prefix_blank hspace (by simp) hpre
      exact h space hspace hword.isInfix
    rw [cons_append, fieldsFrom, hnone]
    simp only
    rw [ih (h.of_suffix (suffix_cons c word)), append_assoc, singleton_append]

theorem fieldsFrom_last {field word : List Char} (h : Solid word) :
    fieldsFrom 0 field word = flush (field ++ word) := by
  induction word generalizing field with
  | nil => rw [append_nil, fieldsFrom]
  | cons c word ih =>
    have hnone : spaceWidth (c :: word) = 0 :=
      spaceWidth_eq_zero fun space hspace hpre => h space hspace hpre.isInfix
    rw [fieldsFrom, hnone]
    simp only
    rw [ih (h.of_suffix (suffix_cons c word)), append_assoc, singleton_append]

theorem fields_cons {word rest : List Char} (h : Solid word) (hne : word ≠ []) :
    fields (word ++ ' ' :: rest) = word :: fields rest := by
  rw [fields, fieldsFrom_word h, nil_append, flush, if_neg hne]
  rfl

/-- Words with one blank between them. -/
def unwords (words : List (List Char)) : List Char := [' '].intercalate words

theorem unwords_singleton (w : List Char) : unwords [w] = w := by
  simp [unwords, intercalate]

theorem unwords_cons_cons (w v : List Char) (words : List (List Char)) :
    unwords (w :: v :: words) = w ++ ' ' :: unwords (v :: words) := by
  simp [unwords, intercalate]

/-- **Words are the fields of the text they make.** -/
theorem fields_unwords {words : List (List Char)} (h : ∀ w ∈ words, Solid w ∧ w ≠ []) :
    fields (unwords words) = words := by
  induction words with
  | nil => rfl
  | cons w words ih =>
    obtain ⟨hsolid, hne⟩ := h w mem_cons_self
    have hrest := ih fun v hv => h v (mem_cons_of_mem w hv)
    cases words with
    | nil =>
      rw [unwords_singleton, fields, fieldsFrom_last hsolid, nil_append, flush, if_neg hne]
    | cons v words =>
      rw [unwords_cons_cons, fields_cons hsolid hne, hrest]

/-! ## Texts put together -/

/-- A separator that neither end contains: the parts can be told apart from the right. -/
theorem append_sep_right {α : Type} {a : α} {xs ys ds es : List α} (hds : a ∉ ds) (hes : a ∉ es)
    (h : xs ++ a :: ds = ys ++ a :: es) : xs = ys ∧ ds = es := by
  rcases append_eq_append_iff.mp h with ⟨zs, rfl, htail⟩ | ⟨zs, rfl, htail⟩
  · cases zs with
    | nil => exact ⟨(append_nil xs).symm, (cons.inj htail).2⟩
    | cons z zs =>
      obtain ⟨-, hds'⟩ := cons.inj htail
      exact absurd (by simp [hds']) hds
  · cases zs with
    | nil => exact ⟨append_nil ys, (cons.inj htail).2.symm⟩
    | cons z zs =>
      obtain ⟨-, hes'⟩ := cons.inj htail
      exact absurd (by simp [hes']) hes

/-- A separator that neither beginning contains: the parts can be told apart from the left. -/
theorem append_sep_left {α : Type} {a : α} {xs ys ds es : List α} (hxs : a ∉ xs) (hys : a ∉ ys)
    (h : xs ++ a :: ds = ys ++ a :: es) : xs = ys ∧ ds = es := by
  have hrev : ds.reverse ++ a :: xs.reverse = es.reverse ++ a :: ys.reverse := by
    simpa using congrArg reverse h
  obtain ⟨hds, hxs'⟩ := append_sep_right (by simpa using hxs) (by simpa using hys) hrev
  exact ⟨reverse_inj.mp hxs', reverse_inj.mp hds⟩

/-! ## Parts between separators -/

section

variable {α : Type} {P Q : α → Prop} {s : α}

/-- A part that begins in `P` and ends in `Q`. -/
structure Bounded (P Q : α → Prop) (part : List α) : Prop where
  first : ∃ c, part.head? = some c ∧ P c
  last : ∃ c, part.getLast? = some c ∧ Q c

/-- What a separator may stand between. -/
def Beside (P Q : α → Prop) (s a b : α) : Prop := (a = s → P b) ∧ (b = s → Q a)

theorem isChain_beside_of_notMem {l : List α} (h : s ∉ l) : l.IsChain (Beside P Q s) := by
  refine (pairwise_of_forall_mem_list ?_).isChain
  intro a ha b hb
  exact ⟨fun heq => absurd (heq ▸ ha) h, fun heq => absurd (heq ▸ hb) h⟩

theorem isChain_beside_append (hP : ¬ P s) (hQ : ¬ Q s) {pre post : List α} :
    (pre ++ s :: post).IsChain (Beside P Q s) ↔
      (pre.IsChain (Beside P Q s) ∧ ∀ a ∈ pre.getLast?, Q a) ∧
        (∀ b ∈ post.head?, P b) ∧ post.IsChain (Beside P Q s) := by
  rw [isChain_append, isChain_cons]
  constructor
  · rintro ⟨hpre, ⟨hfirst, hpost⟩, hlast⟩
    exact ⟨⟨hpre, fun a ha => (hlast a ha s rfl).2 rfl⟩, fun b hb => (hfirst b hb).1 rfl, hpost⟩
  · rintro ⟨⟨hpre, hlast⟩, hfirst, hpost⟩
    refine ⟨hpre, ⟨?_, hpost⟩, ?_⟩
    · intro b hb
      exact ⟨fun _ => hfirst b hb, fun heq => absurd (heq ▸ hfirst b hb) hP⟩
    · rintro a ha _ ⟨⟩
      exact ⟨fun heq => absurd (heq ▸ hlast a ha) hQ, fun _ => hlast a ha⟩

theorem bounded_append_iff (hP : ¬ P s) (hQ : ¬ Q s) {pre post : List α} :
    Bounded P Q (pre ++ s :: post) ↔
      (∃ c, pre.head? = some c ∧ P c) ∧ ∃ c, post.getLast? = some c ∧ Q c := by
  have hhead : (∃ c, (pre ++ s :: post).head? = some c ∧ P c) ↔ ∃ c, pre.head? = some c ∧ P c := by
    cases pre with
    | nil => simp [hP]
    | cons a pre => simp
  have hlast : (∃ c, (pre ++ s :: post).getLast? = some c ∧ Q c) ↔
      ∃ c, post.getLast? = some c ∧ Q c := by
    rw [getLast?_append_cons]
    cases post with
    | nil => simp [hQ]
    | cons b post => rw [getLast?_cons_cons]
  rw [← hhead, ← hlast]
  exact ⟨fun h => ⟨h.first, h.last⟩, fun h => ⟨h.1, h.2⟩⟩

/-- What holds of the characters of all parts holds of all characters but the separators. -/
theorem forall_mem_splitOn_iff [DecidableEq α] (l : List α) :
    (∀ part ∈ l.splitOn s, ∀ c ∈ part, P c) ↔ ∀ c ∈ l, c ≠ s → P c := by
  induction l with
  | nil => simp
  | cons x l ih =>
    rw [splitOn_cons_eq_if_modifyHead, forall_mem_cons, ← ih]
    by_cases hx : x = s
    · simp [hx]
    · obtain ⟨first, more, hsplit⟩ := exists_cons_of_ne_nil (splitOn_ne_nil s l)
      simp [hx, hsplit, and_assoc]

/-- **All parts are bounded** when the text is and every separator has the right neighbours. -/
theorem forall_splitOn_iff [DecidableEq α] (hP : ¬ P s) (hQ : ¬ Q s) (l : List α) :
    (∀ part ∈ l.splitOn s, Bounded P Q part) ↔
      Bounded P Q l ∧ l.IsChain (Beside P Q s) := by
  induction hn : l.length using Nat.strong_induction_on generalizing l with
  | _ n ih =>
    by_cases hmem : s ∈ l
    · obtain ⟨pre, post, rfl, hpre⟩ := eq_append_cons_of_mem hmem
      have hsmaller : post.length < n := by
        rw [← hn, length_append, length_cons]
        omega
      have hparts : (pre ++ s :: post).splitOn s = pre :: post.splitOn s := by
        rw [splitOn_append_cons_self, splitOn_eq_singleton hpre, singleton_append]
      rw [hparts, forall_mem_cons, ih _ hsmaller post rfl, bounded_append_iff hP hQ,
        isChain_beside_append hP hQ]
      constructor
      · rintro ⟨⟨hfirst, hlast⟩, ⟨hfirst', hlast'⟩, hchain⟩
        obtain ⟨a, ha, hQa⟩ := hlast
        obtain ⟨b, hb, hPb⟩ := hfirst'
        refine ⟨⟨hfirst, hlast'⟩, ⟨isChain_beside_of_notMem hpre, ?_⟩, ?_, hchain⟩
        · intro c hc
          rw [ha, Option.mem_some_iff] at hc
          exact hc ▸ hQa
        · intro c hc
          rw [hb, Option.mem_some_iff] at hc
          exact hc ▸ hPb
      · rintro ⟨⟨hfirst, hlast'⟩, ⟨-, hlast⟩, hfirst', hchain⟩
        obtain ⟨a, ha⟩ : ∃ a, pre.getLast? = some a := by
          cases pre with
          | nil => simp at hfirst
          | cons c pre => exact ⟨_, getLast?_eq_some_getLast (by simp)⟩
        obtain ⟨b, hb⟩ : ∃ b, post.head? = some b := by
          cases post with
          | nil => simp at hlast'
          | cons c post => exact ⟨c, rfl⟩
        exact ⟨⟨hfirst, a, ha, hlast a ha⟩, ⟨⟨b, hb, hfirst' b hb⟩, hlast'⟩, hchain⟩
    · rw [splitOn_eq_singleton hmem, forall_mem_singleton]
      exact (and_iff_left (isChain_beside_of_notMem hmem)).symm

end

/-! ## Numbers -/

theorem mem_toDigits {n : Nat} {c : Char} (h : c ∈ Nat.toDigits 10 n) : c.isDigit = true :=
  Nat.isDigit_of_mem_toDigits (by decide) (by decide) h

theorem toDigits_inj {m n : Nat} (h : Nat.toDigits 10 m = Nat.toDigits 10 n) : m = n := by
  have hvalue := congrArg (fun digits => Nat.ofDigitChars 10 digits 0) h
  simpa only [Nat.ofDigitChars_ten_toDigits] using hvalue

/-- A number in decimal has digits, after a minus sign if it is negative. -/
theorem toList_toString_int (n : Int) :
    (toString n).toList =
      if 0 ≤ n then Nat.toDigits 10 n.toNat else '-' :: Nat.toDigits 10 (-n).toNat := by
  rw [Int.toString_eq_repr, Int.repr_eq_if, apply_ite String.toList, String.toList_append]
  simp [Nat.repr_eq_ofList_toDigits]

theorem mem_toString_int {n : Int} {c : Char} (h : c ∈ (toString n).toList) :
    c = '-' ∨ c.isDigit = true := by
  rw [toList_toString_int] at h
  split at h
  · exact .inr (mem_toDigits h)
  · rcases mem_cons.mp h with hc | hdigit
    · exact .inl hc
    · exact .inr (mem_toDigits hdigit)

theorem toString_int_ne_empty (n : Int) : toString n ≠ "" := by
  intro h
  have hlist := congrArg String.toList h
  rw [toList_toString_int] at hlist
  split at hlist
  · exact Nat.toDigits_ne_nil hlist
  · cases hlist

theorem toString_int_inj {m n : Int} (h : toString m = toString n) : m = n := by
  have hlist := congrArg String.toList h
  rw [toList_toString_int, toList_toString_int] at hlist
  have hsign : ∀ {k : Nat} {rest : List Char}, Nat.toDigits 10 k ≠ '-' :: rest := by
    intro k rest heq
    exact absurd (mem_toDigits (heq ▸ mem_cons_self)) (by decide)
  split at hlist <;> split at hlist
  · have habs := toDigits_inj hlist
    omega
  · exact absurd hlist hsign
  · exact absurd hlist.symm hsign
  · have habs := toDigits_inj (cons.inj hlist).2
    omega

end Orchestrator.Lib.Text

/-
  Orchestrator.Artifact.Unpack

  Extraction on a host where nothing goes wrong (internal/artifact/unarchive.go).

  The destination is a directory whose path has no links, and every entry comes after the
  directory it is in, as in a packed layer.  Then each entry adds exactly what it names:
  `Filled` says that the destination holds the records so far and nothing else, every kind
  of entry keeps it, and so does the loop.
-/

import Orchestrator.Artifact.Archive

namespace Orchestrator.Artifact

open Lib Lib.Posix Lib.Prog Lib.Overlay Lib.Posix.Tree List

theorem triple_checked_ok {α β : Type} {P : Fs → Prop} {Q : β → Fs → Prop}
    {E : Stop UnarchiveError → Fs → Prop} {what : Failed} {a : α} {f : α → Extract β}
    (h : Triple P (f a) Q E) : Triple P (checked what (.ok a) >>= f) Q E := h

section

variable {host : Host} {P : Tree → Prop} {E : Stop UnarchiveError → Fs → Prop}
  {cur : Path} {c : Name} {ds rest : List Name}

theorem triple_descend_cons {Q : Unit → Fs → Prop} (hcalm : host.Calm)
    (h : ∀ t, P t → t.get (cur ++ [c] ++ ds) = some .dir)
    (hrest : Triple (On P) (descend host (cur ++ [c]) rest) Q E) :
    Triple (On P) (descend host cur (c :: rest)) Q E := by
  have hlook : ∀ t, P t → t.lstat (cur ++ [c]) = .ok .dir := by
    intro t ht
    have hdir : t.get (cur ++ [c]) = some .dir := by
      by_cases hnil : ds = []
      · rw [← h t ht, hnil, append_nil]
      · exact get_prefix (by rw [h t ht]; exact nofun) hnil
    have hcur := get_prefix (by rw [hdir]; exact nofun) (cons_ne_nil c [])
    rw [lstat_physical hcur, hdir]
  apply (triple_look_calm hcalm hlook).bind_eq
  exact hrest

/-- Going down through directories that are there changes nothing. -/
theorem triple_descend (hcalm : host.Calm) (h : ∀ t, P t → t.get (cur ++ ds) = some .dir) :
    Triple (On P) (descend host cur ds) (fun _ => On P) E := by
  induction ds generalizing cur with
  | nil => exact triple_pure
  | cons c ds ih =>
    have hsplit : cur ++ c :: ds = cur ++ [c] ++ ds := by simp
    rw [hsplit] at h
    exact triple_descend_cons hcalm h (ih h)

/-- A directory that is missing at the end is made. -/
theorem triple_descend_new {Q : Tree → Prop} (hcalm : host.Calm)
    (h : ∀ t, P t → t.get (cur ++ ds) = some .dir) (hname : Proper c)
    (hnew : ∀ t, P t → t.get (cur ++ ds ++ [c]) = none)
    (hput : ∀ t t', P t → Put t t' (cur ++ ds ++ [c]) .dir → Q t') :
    Triple (On P) (descend host cur (ds ++ [c])) (fun _ => On Q) E := by
  induction ds generalizing cur with
  | nil =>
    rw [append_nil] at h hnew hput
    have hlook : ∀ t, P t → t.lstat (cur ++ [c]) = .error .noent := by
      intro t ht
      rw [lstat_physical (h t ht), hnew t ht]
    have hmkdir : ∀ t, P t → ∃ t', t.mkdir (cur ++ [c]) = .ok t' ∧ Q t' := by
      intro t ht
      have hparent := parent_physical (h t ht) c
      obtain ⟨t', ht'⟩ := mkdir_of_new hparent hname (hnew t ht)
      obtain ⟨d, b, hdb, -, hput'⟩ := place_ok ht'
      rw [hparent] at hdb
      cases hdb
      exact ⟨t', ht', hput t t' ht hput'⟩
    apply (triple_look_calm hcalm hlook).bind_eq
    apply (triple_edit_calm hcalm hmkdir).bind_eq
    exact triple_pure
  | cons b ds ih =>
    have hsplit : cur ++ b :: ds = cur ++ [b] ++ ds := by simp
    rw [hsplit] at h hnew hput
    exact triple_descend_cons hcalm h (ih h hnew hput)

theorem underRoot_append (root rest : Path) : underRoot (root ++ rest) root = true := by
  unfold underRoot
  rw [List.isPrefixOf_iff_prefix]
  exact prefix_append root rest

/-- `mkdirAllInRoot` below a destination that is there is its loop. -/
theorem triple_mkdirAllInRoot {root : Path} {Q : Unit → Fs → Prop} (hcalm : host.Calm)
    (hroot : ∀ t, P t → t.get root = some .dir)
    (h : Triple (On P) (descend host root ds) Q E) :
    Triple (On P) (mkdirAllInRoot host root (root ++ ds)) Q E := by
  unfold mkdirAllInRoot
  rw [if_pos (underRoot_append root ds), drop_left]
  apply (triple_mkdirAll_calm hcalm (fun t ht => stat_physical (hroot t ht))).bind_eq
  exact h

end

/-! ## What the destination holds -/

variable {t : Tree}

theorem itemAt_eq_dir {p : Path} : itemAt t p = some .dir ↔ t.get p = some .dir := by
  unfold itemAt
  split <;> simp_all

theorem itemAt_congr {t' : Tree} {q : Path} (hget : t'.get q = t.get q)
    (hdata : ∀ i < t.nextIno, t'.data i = t.data i) : itemAt t' q = itemAt t q := by
  unfold itemAt
  rw [hget]
  cases hq : t.get q with
  | none => rfl
  | some n =>
    cases n with
    | dir | link target => rfl
    | file i =>
      simp only
      rw [hdata i (t.ino_lt q i hq)]

/-- The destination holds the records, and nothing else. -/
structure Filled (dest : Path) (pre : List Record) (t : Tree) : Prop where
  root : t.get dest = some .dir
  item : ∀ q, q ≠ [] → itemAt t (dest ++ q) = (nodeAt pre q).bind LayerNode.item

section

variable {dest : Path} {pre : List Record} {r : Record} {t t' : Tree} {d : Path} {c : Name}

theorem Filled.dir (h : Filled dest pre t)
    (hd : d = [] ∨ ∃ isOpaque, nodeAt pre d = some (.dir isOpaque)) :
    t.get (dest ++ d) = some .dir := by
  by_cases hnil : d = []
  · rw [hnil, append_nil]
    exact h.root
  · obtain ⟨isOpaque, hnode⟩ := hd.resolve_left hnil
    rw [← itemAt_eq_dir, h.item d hnil, hnode]
    rfl

theorem Filled.free (h : Filled dest pre t) {q : Path} (hq : q ≠ []) (hnone : nodeAt pre q = none) :
    t.get (dest ++ q) = none := by
  rw [← itemAt_eq_none, h.item q hq, hnone]
  rfl

/-- One more record, and all else as it was. -/
theorem Filled.add (h : Filled dest pre t) (hpath : r.path ≠ []) (hnew : nodeAt pre r.path = none)
    (hitem : itemAt t' (dest ++ r.path) = r.node.item)
    (hrest : ∀ q, q ≠ dest ++ r.path → t.get q ≠ none → itemAt t' q = itemAt t q)
    (hnone : ∀ q, q ≠ r.path → t.get (dest ++ q) = none → t'.get (dest ++ q) = none) :
    Filled dest (pre ++ [r]) t' := by
  constructor
  · rw [← itemAt_eq_dir, hrest dest _ (by rw [h.root]; exact nofun), itemAt_eq_dir]
    · exact h.root
    · intro heq
      exact hpath (self_eq_append_right.mp heq)
  · intro q hq
    rw [nodeAt_append_of_new hnew]
    by_cases hqr : q = r.path
    · rw [if_pos hqr, hqr, hitem]
      rfl
    rw [if_neg hqr, ← h.item q hq]
    by_cases hfree : t.get (dest ++ q) = none
    · rw [itemAt_eq_none.mpr hfree, itemAt_eq_none.mpr (hnone q hqr hfree)]
    · exact hrest _ (fun heq => hqr (append_cancel_left heq)) hfree

theorem Filled.put {n : Node} (h : Filled dest pre t) (hpath : r.path ≠ [])
    (hnew : nodeAt pre r.path = none) (hput : Put t t' (dest ++ r.path) n)
    (hitem : itemAt t' (dest ++ r.path) = r.node.item) : Filled dest (pre ++ [r]) t' := by
  apply h.add hpath hnew hitem
  · intro q hq _
    exact itemAt_congr (by rw [hput.get, if_neg hq]) hput.data
  · intro q hq hfree
    rw [hput.get, if_neg (fun heq => hq (append_cancel_left heq))]
    exact hfree

end

/-! ## Entries -/

section

variable {host : Host} {E : Stop UnarchiveError → Fs → Prop} {dest : Path} {pre : List Record}
  {r : Record} {d : Path} {c : Name}

/-- The place of the next record: its directory is there, and its own path is free. -/
structure Place (pre : List Record) (r : Record) (d : Path) (c : Name) : Prop where
  path : r.path = d ++ [c]
  name : Proper c
  above : d = [] ∨ ∃ isOpaque, nodeAt pre d = some (.dir isOpaque)
  new : nodeAt pre r.path = none

theorem Place.path_ne (h : Place pre r d c) : r.path ≠ [] := by
  rw [h.path]
  exact concat_ne_nil c d

theorem Place.dir_eq (h : Place pre r d c) (dest : Path) : (dest ++ r.path).dropLast = dest ++ d := by
  rw [h.path, ← append_assoc, dropLast_concat]

/-- The directory is still there with the record in it. -/
theorem Place.dir_after (h : Place pre r d c) (hfill : Filled dest (pre ++ [r]) t) :
    t.get (dest ++ d) = some .dir := by
  apply hfill.dir
  apply h.above.imp_right
  rintro ⟨isOpaque, hnode⟩
  refine ⟨isOpaque, ?_⟩
  rw [nodeAt_append_of_new h.new, if_neg]
  · exact hnode
  · rw [h.path]
    exact fun heq => cons_ne_nil c [] (self_eq_append_right.mp heq)

theorem Place.get_none (h : Place pre r d c) (hfill : Filled dest pre t) :
    t.get (dest ++ d ++ [c]) = none := by
  have hfree := hfill.free h.path_ne h.new
  rw [h.path, ← append_assoc] at hfree
  exact hfree

theorem triple_mkdir_record (hcalm : host.Calm) (hp : Place pre r d c)
    (hnode : r.node.item = some .dir) :
    Triple (On (Filled dest pre)) (mkdirAllInRoot host dest (dest ++ r.path))
      (fun _ => On (Filled dest (pre ++ [r]))) E := by
  apply triple_mkdirAllInRoot hcalm (fun t h => h.root)
  rw [hp.path]
  apply triple_descend_new hcalm (fun t h => h.dir hp.above) hp.name (fun t h => hp.get_none h)
  intro t t' h hput
  rw [append_assoc, ← hp.path] at hput
  apply h.put hp.path_ne hp.new hput
  rw [hnode, itemAt_eq_dir, hput.get, if_pos rfl]

theorem triple_mkdir_parent (hcalm : host.Calm) (hp : Place pre r d c) :
    Triple (On (Filled dest pre)) (mkdirAllInRoot host dest (dest ++ d))
      (fun _ => On (Filled dest pre)) E :=
  triple_mkdirAllInRoot hcalm (fun _ h => h.root)
    (triple_descend hcalm (fun _ h => h.dir hp.above))

/-- The temporary file of the next record is there, under another name than its own. -/
def Staged (dest : Path) (pre : List Record) (d : Path) (c : Name) (tmp : Path) (ino : Nat)
    (t : Tree) : Prop :=
  ∃ t₀ b, Filled dest pre t₀ ∧ tmp = dest ++ d ++ [b] ∧ b ≠ c ∧ Holding t₀ t tmp ino

variable {tmp : Path} {ino : Nat}

theorem Staged.setData (h : Staged dest pre d c tmp ino t) (data : FileData) :
    Staged dest pre d c tmp ino (t.setData ino data) := by
  obtain ⟨t₀, b, hfill, htmp, hb, hhold⟩ := h
  exact ⟨t₀, b, hfill, htmp, hb, hhold.setData data⟩

theorem Staged.rename {bytes : List UInt8} (h : Staged dest pre d c tmp ino t) (hp : Place pre r d c)
    (hbytes : (t.data ino).bytes = bytes) (hnode : r.node.item = some (.file bytes)) :
    ∃ t', t.rename tmp (dest ++ r.path) = .ok t' ∧ Filled dest (pre ++ [r]) t' ∧
      t'.get tmp = none := by
  obtain ⟨t₀, b, hfill, rfl, hb, hhold⟩ := h
  have hdir₀ := hfill.dir hp.above
  have hdir : t.get (dest ++ d) = some .dir := by
    rw [hhold.put.get, if_neg (by simp)]
    exact hdir₀
  have hne : dest ++ d ++ [c] ≠ dest ++ d ++ [b] := by
    intro heq
    exact hb (by simpa using heq.symm)
  have hfree : t.get (dest ++ d ++ [c]) = none := by
    rw [hhold.put.get, if_neg hne]
    exact hp.get_none hfill
  have htarget : dest ++ r.path = dest ++ d ++ [c] := by rw [hp.path, append_assoc]
  obtain ⟨t', hren, hmove⟩ := rename_of_new (parent_physical hdir b)
    (by rw [hhold.put.get, if_pos rfl]) (parent_physical hdir c) hfree hp.name
  -- the temporary file is gone, and the record stands under its name
  have hget : ∀ q, t'.get q =
      if q = dest ++ d ++ [c] then some (.file ino) else t₀.get q := by
    intro q
    rw [hmove.get, hhold.put.get]
    by_cases htmp : q = dest ++ d ++ [b]
    · rw [if_pos htmp, htmp, if_neg hne.symm, hhold.new]
    · rw [if_neg htmp, if_neg htmp]
  have hdata : ∀ i < t₀.nextIno, t'.data i = t₀.data i := by
    intro i hi
    rw [hmove.data]
    exact hhold.put.data i hi
  refine ⟨t', ?_, ?_, ?_⟩
  · rw [htarget]
    exact hren
  · have hput : ∀ q, q ≠ dest ++ r.path → t'.get q = t₀.get q := by
      intro q hq
      rw [hget, if_neg (htarget ▸ hq)]
    apply hfill.add hp.path_ne hp.new
    · rw [hnode, htarget]
      unfold itemAt
      rw [hget, if_pos rfl]
      simp only
      rw [hmove.data, hbytes]
    · intro q hq _
      exact itemAt_congr (hput q hq) hdata
    · intro q hq hnone
      rw [hput _ (fun heq => hq (append_cancel_left heq))]
      exact hnone
  · rw [hmove.get, if_pos rfl]

theorem triple_fillAndRename {e : Entry} (hcalm : host.Calm) (hp : Place pre r d c)
    (hwhole : e.whole = true) (hnode : r.node.item = some (.file e.body)) :
    Triple (On (Staged dest pre d c tmp ino)) (fillAndRename host e tmp ino (dest ++ r.path))
      (fun _ => On fun t => Filled dest (pre ++ [r]) t ∧ t.get tmp = none) E := by
  have hchmod : ∀ t, Staged dest pre d c tmp ino t → ∃ t',
      (Except.ok (t.setData ino { t.data ino with mode := extractMode e.header.mode }) :
        Except Errno Tree) = .ok t' ∧ Staged dest pre d c tmp ino t' :=
    fun t h => ⟨_, rfl, h.setData _⟩
  have hwrite : ∀ t, Staged dest pre d c tmp ino t → ∃ t',
      (Except.ok (t.setData ino { t.data ino with bytes := e.body }) :
        Except Errno Tree) = .ok t' ∧
        (Staged dest pre d c tmp ino t' ∧ (t'.data ino).bytes = e.body) := by
    intro t h
    refine ⟨_, rfl, h.setData _, ?_⟩
    show (Function.update t.data ino _ ino).bytes = e.body
    rw [Function.update_self]
  apply (triple_edit_calm hcalm hchmod).bind_eq
  apply triple_checked_ok
  apply (triple_edit_calm hcalm hwrite).bind_eq
  apply triple_checked_ok
  rw [if_pos hwhole]
  have hrename : ∀ t, (Staged dest pre d c tmp ino t ∧ (t.data ino).bytes = e.body) → ∃ t',
      t.rename tmp (dest ++ r.path) = .ok t' ∧ (Filled dest (pre ++ [r]) t' ∧ t'.get tmp = none) :=
    fun t h => h.1.rename hp h.2 hnode
  apply (triple_edit_calm hcalm hrename).bind_eq
  exact triple_pure

theorem triple_writeRegularFile {e : Entry} (hcalm : host.Calm) (hp : Place pre r d c)
    (htemp : ∀ t p, host.temp t p ≠ c) (hwhole : e.whole = true)
    (hnode : r.node.item = some (.file e.body)) :
    Triple (On (Filled dest pre)) (writeRegularFile host e (dest ++ r.path) dest)
      (fun _ => On (Filled dest (pre ++ [r]))) E := by
  unfold writeRegularFile
  rw [hp.dir_eq dest]
  apply Triple.bind (triple_mkdir_parent hcalm hp)
  intro _
  have htmp : ∀ t, Filled dest pre t → ∃ tmp t', makeTemp host (dest ++ d) 0o600 t = .ok (tmp, t') ∧
      ((∃ b, tmp.1 = dest ++ d ++ [b]) ∧ Staged dest pre d c tmp.1 tmp.2 t') := by
    intro t h
    obtain ⟨ino, t', hmake, hhold⟩ := makeTemp_physical (h.dir hp.above) 0o600
    exact ⟨_, t', hmake, ⟨_, rfl⟩, t, _, h, rfl, htemp t _, hhold⟩
  apply (triple_call_calm hcalm htmp).bind_ok
  intro tmp
  apply triple_of_prop
  rintro ⟨b, hb⟩
  apply triple_checked_ok
  apply (triple_attempt_ok (triple_fillAndRename hcalm hp hwhole hnode)).bind_ok
  intro _
  -- the rename took the temporary name away
  have hgone : ∀ t, (Filled dest (pre ++ [r]) t ∧ t.get tmp.1 = none) →
      t.remove tmp.1 = .error .noent := by
    intro t h
    rw [hb] at h ⊢
    exact remove_of_none (hp.dir_after h.1) h.2
  apply (triple_edit_error hcalm hgone).bind_eq
  exact triple_pure (fun _ hs => hs.1)

theorem triple_replaceBy {target : List Char} (hcalm : host.Calm) (hp : Place pre r d c)
    (htarget : target ≠ []) (hnode : r.node.item = some (.link target)) :
    Triple (On (Filled dest pre))
      (replaceBy host (dest ++ r.path) dest .createSymlink (·.symlink target (dest ++ r.path)))
      (fun _ => On (Filled dest (pre ++ [r]))) E := by
  have hpath : dest ++ r.path = dest ++ d ++ [c] := by rw [hp.path, append_assoc]
  unfold replaceBy
  rw [hp.dir_eq dest]
  apply Triple.bind (triple_mkdir_parent hcalm hp)
  intro _
  have hremove : ∀ t, Filled dest pre t → t.remove (dest ++ r.path) = .error .noent := by
    intro t h
    rw [hpath]
    exact remove_of_none (h.dir hp.above) (hp.get_none h)
  apply (triple_edit_error hcalm hremove).bind_eq
  have hsymlink : ∀ t, Filled dest pre t → ∃ t', t.symlink target (dest ++ r.path) = .ok t' ∧
      Filled dest (pre ++ [r]) t' := by
    intro t h
    have hparent := parent_physical (h.dir hp.above) c
    rw [← hpath] at hparent
    obtain ⟨t', ht'⟩ := symlink_of_new htarget hparent hp.name (hp.get_none h)
    have hplace := ht'
    unfold symlink at hplace
    rw [if_neg htarget] at hplace
    obtain ⟨d', c', hparent', -, hput⟩ := place_ok hplace
    rw [hparent] at hparent'
    cases hparent'
    rw [← hpath] at hput
    refine ⟨t', ht', h.put hp.path_ne hp.new hput ?_⟩
    unfold itemAt
    rw [hput.get, if_pos rfl, hnode]
  apply (triple_edit_calm hcalm hsymlink).bind_eq
  exact triple_pure

end

/-! ## The loop -/

/-- An extraction that keeps names and links as they are. -/
structure Verbatim (a : Unarchive) : Prop where
  strip : a.strip = false
  subdir : a.subdir = ""
  policy : a.symlinkPolicy ≠ symlinkPolicyContained

theorem Verbatim.transform {a : Unarchive} (h : Verbatim a) (archiveRoot name : List Char) :
    a.transform [] archiveRoot name = (some name, archiveRoot) := by
  unfold Unarchive.transform
  rw [h.strip]
  rfl

/-- A name of the archive that extraction refuses: it reads as the way out of the
    destination. -/
def Climbs (r : Record) : Prop := dotdot.isPrefixOf (joinSlash r.path) = true

instance (r : Record) : Decidable (Climbs r) := inferInstanceAs (Decidable (_ = true))

section

variable {host : Host} {E : Stop UnarchiveError → Fs → Prop} {dest : Path} {pre : List Record}
  {r : Record} {d : Path} {c : Name} {a : Unarchive}

theorem join_record (hdest : t.get dest ≠ none) (hne : r.path ≠ []) (hplain : ∀ b ∈ r.path, Plain b) :
    join dest (joinSlash r.path) = dest ++ r.path := by
  unfold join
  rw [parts_joinSlash (fun b hb => (hplain b hb).2) hne]
  apply cleanComps_proper
  intro b hb
  rcases mem_append.mp hb with hin | hin
  · exact t.proper dest b hdest hin
  · exact (hplain b hin).1

theorem triple_extractSymlink {h : Header} (hcalm : host.Calm) (hp : Place pre r d c)
    (htarget : h.linkname ≠ []) (hnode : r.node.item = some (.link h.linkname)) :
    Triple (On (Filled dest pre)) (extractSymlink host h (dest ++ r.path) dest false)
      (fun _ => On (Filled dest (pre ++ [r]))) E := by
  apply Triple.bind (Q := fun _ => On (Filled dest pre)) (triple_get (fun _ hs => hs))
  intro _
  exact triple_replaceBy hcalm hp htarget hnode

theorem triple_writeEntry (hcalm : host.Calm) (ha : Verbatim a) (hp : Place pre r d c)
    (htemp : ∀ t p, host.temp t p ≠ c) (hwhite : r.node.isSpecial = false) (htarget : r.node ≠ .link [])
    (archiveRoot : List Char) :
    Triple (On (Filled dest pre))
      (a.writeEntry host [] archiveRoot (tarEntry r) (dest ++ r.path) dest)
      (fun _ => On (Filled dest (pre ++ [r]))) E := by
  unfold Unarchive.writeEntry tarEntry
  cases hnode : r.node with
  | whiteout | special kind =>
    rw [hnode] at hwhite
    cases hwhite
  | dir isOpaque =>
    apply Triple.bind (triple_mkdir_record hcalm hp (by rw [hnode]; rfl))
    intro _
    exact triple_pure
  | file bytes =>
    apply Triple.bind (triple_writeRegularFile hcalm hp htemp rfl (by rw [hnode]; rfl))
    intro _
    exact triple_pure
  | link target =>
    have hne : target ≠ [] := by
      rintro rfl
      exact htarget hnode
    simp only [decide_eq_false ha.policy]
    apply (triple_attempt_ok (triple_extractSymlink hcalm hp hne (by rw [hnode]; rfl))).bind_ok
    intro _
    exact triple_pure

theorem tarEntry_name (r : Record) : (tarEntry r).header.name = joinSlash r.path := by
  unfold tarEntry
  split <;> rfl

theorem tarEntry_typeflag (r : Record) :
    ¬((tarEntry r).header.typeflag = .xGlobalHeader ∨ (tarEntry r).header.typeflag = .xHeader) := by
  unfold tarEntry
  split <;> simp

/-- One entry of a packed layer adds its record. -/
theorem triple_extractEntry (hcalm : host.Calm) (ha : Verbatim a) (hp : Place pre r d c)
    (hplain : ∀ b ∈ r.path, Plain b) (htemp : ∀ t p, host.temp t p ≠ c)
    (hwhite : r.node.isSpecial = false) (htarget : r.node ≠ .link []) (hclimb : ¬Climbs r)
    (st : Progress) :
    Triple (On (Filled dest pre)) (a.extractEntry host dest st (tarEntry r))
      (fun _ => On (Filled dest (pre ++ [r]))) E := by
  have hclean : clean (tarEntry r).header.name = joinSlash r.path := by
    rw [tarEntry_name, clean_joinSlash hplain hp.path_ne]
  have hsubdir : cleanSubdir a.subdir.toList = [] := by
    rw [ha.subdir]
    decide
  apply triple_of_states
  intro s hs
  have hjoin : join dest (joinSlash r.path) = dest ++ r.path :=
    join_record (t := s.tree) (by rw [hs.root]; exact nofun) hp.path_ne hplain
  have hname : ¬dotdot.isPrefixOf (joinSlash r.path) = true := hclimb
  unfold Unarchive.extractEntry
  rw [if_neg (tarEntry_typeflag r)]
  simp only [hclean, if_neg hname, hsubdir, ha.transform, hjoin]
  apply Triple.bind ((triple_writeEntry hcalm ha hp htemp hwhite htarget _).pre _)
  · intro _
    exact triple_pure
  · rintro s' rfl
    exact hs

variable {l : Layer}

/-- The place of a record in a layer, after those before it. -/
theorem place_of_split {post : List Record} (h : l.records = pre ++ r :: post) :
    ∃ d c, Place pre r d c := by
  obtain ⟨d, c, hpath, hc, habove⟩ := l.placed pre r post h
  exact ⟨d, c, hpath, hc.1, habove, l.nodeAt_before h⟩

theorem clean_tarEntry (h : r ∈ l.records) :
    clean (tarEntry r).header.name = joinSlash r.path := by
  obtain ⟨pre, post, hsplit⟩ := append_of_mem h
  obtain ⟨d, c, hp⟩ := place_of_split hsplit
  rw [tarEntry_name, clean_joinSlash (l.plain h) hp.path_ne]

/-- The host gives no temporary file the name of an entry. -/
def Apart (host : Host) (l : Layer) : Prop :=
  ∀ t p, ∀ r ∈ l.records, r.path.getLast? ≠ some (host.temp t p)

/-- The records that the entries so far stand for are in the destination. -/
def Unpacked (dest : Path) (l : Layer) (done : List Entry) (t : Tree) : Prop :=
  ∃ pre post, l.records = pre ++ post ∧ done = pre.map tarEntry ∧ Filled dest pre t

theorem triple_extractEntries (hcalm : host.Calm) (ha : Verbatim a) (hapart : Apart host l)
    (hwhite : ∀ r ∈ l.records, r.node.isSpecial = false) (hclimb : ∀ r ∈ l.records, ¬Climbs r) :
    Triple (On (Filled dest [])) (a.extractEntries host { entries := l.records.map tarEntry } dest)
      (fun _ => On (Filled dest l.records)) E := by
  -- one entry: the records unpacked so far, and the next one
  have hstep : ∀ done e rest st, l.records.map tarEntry = done ++ e :: rest →
      Triple (On (Unpacked dest l done)) (a.extractEntry host dest st e)
        (fun _ => On (Unpacked dest l (done ++ [e]))) E := by
    intro done e rest st hsplit
    apply triple_exists
    intro pre
    apply triple_exists
    intro post
    apply triple_of_prop
    intro hrecords
    apply triple_of_prop
    intro hdone
    rw [hrecords, map_append, hdone, append_cancel_left_eq] at hsplit
    obtain ⟨r, post', rfl, rfl, -⟩ := map_eq_cons_iff.mp hsplit
    have hr : r ∈ l.records := by
      rw [hrecords]
      exact mem_append_right _ mem_cons_self
    obtain ⟨d, c, hp⟩ := place_of_split hrecords
    have htemp : ∀ t p, host.temp t p ≠ c := by
      intro t p heq
      apply hapart t p r hr
      rw [hp.path, getLast?_concat, heq]
    apply (triple_extractEntry hcalm ha hp (l.plain hr) htemp (hwhite r hr) (l.target_ne r hr)
      (hclimb r hr) st).post
    intro _ s hs
    refine ⟨pre ++ [r], post', ?_, ?_, hs⟩
    · rw [hrecords, append_assoc, singleton_append]
    · rw [hdone, map_append, map_singleton]
  unfold Unarchive.extractEntries
  rw [if_neg (by simp)]
  apply Triple.bind ((triple_foldlM (fun done _ => On (Unpacked dest l done)) _ hstep {}).pre _)
  · intro st
    rw [if_neg (by simp), if_neg]
    · apply triple_pure
      rintro s ⟨pre, post, hrecords, hdone, hs⟩
      have hnil : post = [] := by
        have hlen := congrArg length hdone
        rw [hrecords, map_append, length_append, length_map, length_map] at hlen
        exact length_eq_zero_iff.mp (by omega)
      rw [hnil, append_nil] at hrecords
      rw [hrecords]
      exact hs
    -- nothing is stripped and no subdirectory asked for, so no entry is skipped
    · have hkeep : ¬(a.strip = true ∨ cleanSubdir a.subdir.toList ≠ []) := by
        rw [ha.strip, ha.subdir]
        decide
      exact fun h => hkeep h.2
  · intro s hs
    exact ⟨[], l.records, rfl, rfl, hs⟩

theorem triple_extractTar_verbatim {P : Fs → Prop} {Q : Unit → Fs → Prop} {stream : Stream}
    (ha : Verbatim a) (h : Triple P (a.extractEntries host stream dest) Q E) :
    Triple P (a.extractTar host stream dest) Q E := by
  unfold Unarchive.extractTar
  simp only [if_neg ha.policy]
  apply Triple.bind (Q := fun r s =>
    match r with
    | .ok u => Q u s
    | .error e => E (.err e) s)
  · apply triple_attempt
    apply h.mono (fun _ hs => hs) (fun _ _ hq => hq)
    intro stop s he
    cases stop <;> exact he
  · intro r
    cases r with
    | ok u => exact triple_pure
    | error e => exact triple_throw (fun _ hs => hs)

/-- **Extraction rebuilds a packed layer** in an empty directory, name by name. -/
theorem triple_extractTar (hcalm : host.Calm) (ha : Verbatim a) (hapart : Apart host l)
    (hwhite : ∀ r ∈ l.records, r.node.isSpecial = false) (hclimb : ∀ r ∈ l.records, ¬Climbs r) :
    Triple (On (Filled dest [])) (a.extractTar host { entries := l.records.map tarEntry } dest)
      (fun _ => On (Filled dest l.records)) E :=
  triple_extractTar_verbatim ha (triple_extractEntries hcalm ha hapart hwhite hclimb)

/-- **A name that climbs is refused**: extraction succeeds on a packed layer without one
    only. -/
theorem triple_extractTar_climbs (ha : Verbatim a) :
    Triple (fun _ => True) (a.extractTar host { entries := l.records.map tarEntry } dest)
      (fun _ _ => ∀ r ∈ l.records, ¬Climbs r) (fun _ _ => True) := by
  -- an entry that leaves the destination is an error, whatever the host does
  have hstep : ∀ done e rest st, l.records.map tarEntry = done ++ e :: rest →
      Triple (fun _ => ∀ r ∈ l.records, tarEntry r ∈ done → ¬Climbs r)
        (a.extractEntry host dest st e)
        (fun _ _ => ∀ r ∈ l.records, tarEntry r ∈ done ++ [e] → ¬Climbs r) (fun _ _ => True) := by
    intro done e rest st hsplit
    obtain ⟨r₀, -, rfl⟩ : ∃ r ∈ l.records, tarEntry r = e := by
      rw [← mem_map, hsplit]
      exact mem_append_right _ mem_cons_self
    apply triple_of_states
    intro s hs
    unfold Unarchive.extractEntry
    rw [if_neg (tarEntry_typeflag r₀)]
    apply triple_ite
    · intro _
      exact triple_throw (fun _ _ => trivial)
    · intro hkeep
      apply triple_of_forall
      · intro _ _ r hr hmem
        rw [mem_append, mem_singleton] at hmem
        rcases hmem with hmem | heq
        · exact hs r hr hmem
        · rw [← heq, clean_tarEntry hr] at hkeep
          exact hkeep
      · exact fun _ _ => trivial
  apply triple_extractTar_verbatim ha
  unfold Unarchive.extractEntries
  rw [if_neg (by simp)]
  apply Triple.bind ((triple_foldlM
    (fun done _ _ => ∀ r ∈ l.records, tarEntry r ∈ done → ¬Climbs r) _ hstep {}).pre _)
  · intro st
    apply triple_of_states
    intro s hs
    apply triple_of_forall
    · intro _ _ r hr
      exact hs r hr (mem_map_of_mem hr)
    · exact fun _ _ => trivial
  · intro _ _ r _ hmem
    exact absurd hmem not_mem_nil

end

end Orchestrator.Artifact

/-
  Orchestrator.Sidecar.Delta

  The delta of a synced mount (internal/sidecar/sync.go): `pushDelta` packs the upper
  layer of the overlay and uploads it, `restoreDelta` seeds an empty upper layer from
  what was uploaded.

  The two artifacts of a push are run in order, and neither depends on the other: when
  the packing fails, the upload still sends what is in the archive by then.  The archive is
  staged at a path made from the mount's own, which a slash at its end puts into the mount.

  `comesBack_iff_restorable` says which layers come back: those without a whiteout or a
  special file, with names that the packing and the extraction take, no opaque mark that
  hides something, and a mount that does not hold its own archive.
-/

import Orchestrator.Artifact.Unpack
import Orchestrator.Sidecar.Runner

namespace Orchestrator.Sidecar

open Lib Lib.Posix Lib.Prog Lib.Overlay Artifact List

/-! ## State -/

structure DeltaPrint where
  entries : Nat
  bytes : Nat
  newest : Int
deriving DecidableEq, Repr

/-- The size that a directory walk reports; a directory counts none. -/
def LayerNode.size : LayerNode → Nat
  | .file bytes => bytes.length
  | .link target => target.length
  | .dir _ | .whiteout | .special _ => 0

def printStep (p : DeltaPrint) (r : Record) : DeltaPrint where
  entries := p.entries + 1
  bytes := p.bytes + LayerNode.size r.node
  newest := if r.mtime > p.newest then r.mtime else p.newest

/-- The walk starts with the layer's own directory. -/
def printDelta (l : Layer) : DeltaPrint :=
  l.records.foldl printStep ⟨1, 0, if l.mtime > 0 then l.mtime else 0⟩

structure SyncState where
  /-- What the last successful push of a mount carried. -/
  pushed : String → Option DeltaPrint := fun _ => none
  objects : String → Option Stream := fun _ => none
  staged : Option Stream := none

inductive StoreAnswer where
  | through
  | refused
  /-- The object is replaced, and the answer is an error. -/
  | lost
deriving DecidableEq, Repr

/-- What is not decided here. -/
structure SyncEnv where
  /-- The names that io/fs accepts (utf8.ValidString). -/
  utf8 : Name → Bool
  answer : StoreAnswer
  /-- A call of the packing fails, which it may report or not. -/
  faulty : Bool := false
  /-- What packing leaves, and reports, if a call fails or it comes upon its own archive, of
      which it reads whatever is written by then. -/
  disturbed : Option Stream × Option ArchiveError := (none, none)
  /-- The summary of a restored directory, if it can be walked. -/
  print : Tree → Path → Option DeltaPrint

inductive DeltaError where
  | createUpper (e : Errno)
  | unpack (e : UnarchiveError)
  | openUp (e : Errno)
  | invalidName (path : Path)
  | pack (e : ArchiveError)
  | openFile
  | upload
deriving DecidableEq, Repr

def SyncState.unchanged (s : SyncState) (id : String) (p : DeltaPrint) : Bool := s.pushed id = some p

def SyncState.recordPush (s : SyncState) (id : String) (p : DeltaPrint) : SyncState :=
  { s with pushed := Function.update s.pushed id (some p) }

/-! ## Push -/

/-- Meant to be next to the mount, not in it. -/
def deltaArchivePath (m : Mount) : String := m.out ++ ".delta.tgz"

/-- The archive is in the mount, and so in the upper layer, while it is written. -/
def stagedInside (m : Mount) : Bool :=
  (cleanComps false (parts m.out.toList)).isPrefixOf
    (cleanComps false (parts (deltaArchivePath m).toList))

example : stagedInside { id := "", in_ := "", out := "a/work" } = false := by decide
example : stagedInside { id := "", in_ := "", out := "a/work/" } = true := by decide

def upperRel (m : Mount) : String := target m ++ ".scratch/upper"

def packArtifact (m : Mount) : Archive :=
  { id := m.id ++ ".pack", in_ := upperRel m, out := deltaArchivePath m, format := "tar",
    compression := "gzip" }

def uploadArtifact (m : Mount) : Upload :=
  { id := m.id ++ ".push", in_ := deltaArchivePath m, out := m.sync }

/-- The archive of a layer, and the error that packing reports. -/
def packLayer (env : SyncEnv) (m : Mount) (l : Layer) : Option Stream × Option ArchiveError :=
  if env.faulty ∨ stagedInside m then env.disturbed
  else
    let (entries, err) := archiveDir env.utf8 l.records
    (some { entries := entries }, err)

/-- Apply one of the two artifacts of a push. -/
def applyPush (env : SyncEnv) (m : Mount) (l : Layer) :
    Artifact → Prog SyncState (Stop DeltaError) (Option DeltaError)
  | .archive _ => do
    let (stream, err) := packLayer env m l
    modify fun s => { s with staged := stream }
    return err.map .pack
  | .upload a => do
    match (← get).staged with
    | none => return some .openFile
    | some stream =>
      match env.answer with
      | .through =>
        modify fun s => { s with objects := Function.update s.objects a.out (some stream) }
        return none
      | .refused => return some .upload
      | .lost =>
        modify fun s => { s with objects := Function.update s.objects a.out (some stream) }
        return some .upload
  | _ => return none

/-- Archive the upper layer and upload it; `upper` is the layer, if there is a directory. -/
def pushDelta (env : SyncEnv) (m : Mount) (upper : Option Layer) :
    Prog SyncState (Stop DeltaError) Unit := do
  match upper with
  -- nothing mounted, nothing to push
  | none => return ()
  | some l =>
    if (← get).unchanged m.id (printDelta l) then return ()
    else
      let err ← runInOrder [.archive (packArtifact m), .upload (uploadArtifact m)] (applyPush env m l)
      -- deferred: the archive is removed
      modify fun s => { s with staged := none }
      match err with
      | some err => throw (.err err)
      | none => modify fun s => s.recordPush m.id (printDelta l)

/-! ## Restore -/

/-- The mode of a restored file: for everyone, with the execute bits if it had one. -/
def openMode (mode : Nat) : Nat := if mode &&& 0o111 ≠ 0 then 0o666 ||| 0o111 else 0o666

/-- Open one entry of a restored tree up; links are left alone, and the modes of
    directories are not part of the tree. -/
def makeWritableAt (host : Posix.Host) (utf8 : Name → Bool) (dir p : Path) :
    Prog Fs (Stop DeltaError) Unit := do
  if ¬(p.drop dir.length).all utf8 then throw (.err (.invalidName p))
  else
    let t := (← get).tree
    match t.get p with
    | some (.file i) =>
      match ← chmod host i (openMode (t.data i).mode) with
      | .ok () => return ()
      | .error e => throw (.err (.openUp e))
    | _ => return ()

def makeWritable (host : Posix.Host) (utf8 : Name → Bool) (dir : Path) :
    Prog Fs (Stop DeltaError) Unit := do
  let t := (← get).tree
  (t.nodes.keys.filter fun p => dir.isPrefixOf p).forM (makeWritableAt host utf8 dir)

def unpackArtifact (m : Mount) : Unarchive :=
  { id := m.id ++ ".unpack", in_ := deltaArchivePath m, out := upperRel m }

/-- Seed the upper layer at `upper` from the last push. -/
def restoreDelta (host : Posix.Host) (env : SyncEnv) (m : Mount) (upper : Path) (s : SyncState) :
    Prog Fs (Stop DeltaError) SyncState := do
  match ← mkdirAll host upper with
  | .error e => throw (.err (.createUpper e))
  | .ok () =>
    match s.objects m.sync with
    -- a first session
    | none => return s
    | some stream =>
      mapErr .unpack ((unpackArtifact m).extractTar host stream upper)
      makeWritable host env.utf8 upper
      match env.print (← get).tree upper with
      | some p => return s.recordPush m.id p
      | none => return s

/-! ## What a push leaves behind -/

section

variable {env : SyncEnv} {m : Mount} {l : Layer} {s : SyncState}

theorem runInOrder_push (env : SyncEnv) (m : Mount) (l : Layer) :
    runInOrder [.archive (packArtifact m), .upload (uploadArtifact m)] (applyPush env m l) = do
      let err ← applyPush env m l (.archive (packArtifact m))
      let err' ← applyPush env m l (.upload (uploadArtifact m))
      return err' <|> err := by
  have hne : artifactID (.upload (uploadArtifact m)) ≠ artifactID (.archive (packArtifact m)) := by
    show m.id ++ ".push" ≠ m.id ++ ".pack"
    simp
  have hpack : m.id ++ ".pack" ≠ "" := by simp
  have hpush : m.id ++ ".push" ≠ "" := by simp
  have hids : "" ∉ ids [.archive (packArtifact m), .upload (uploadArtifact m)] := by
    rw [mem_ids]
    rintro ⟨a, ha, hid⟩
    rw [mem_cons, mem_singleton] at ha
    rcases ha with rfl | rfl
    · exact hpack hid
    · exact hpush hid
  exact runInOrder_pair hne hids hids (applyPush env m l)

/-- **A push that is not skipped** replaces the object by the archive, if there is one and the
    store takes it, and succeeds if neither the packing nor the store reports an error. -/
theorem exec_pushDelta (hnew : s.unchanged m.id (printDelta l) = false) :
    exec (pushDelta env m (some l)) s =
      let packed := packLayer env m l
      match packed.1 with
      | none => (.error (.err .openFile), { s with staged := none })
      | some stream =>
        let objects := Function.update s.objects m.sync (some stream)
        match env.answer with
        | .refused => (.error (.err .upload), { s with staged := none })
        | .lost => (.error (.err .upload), { s with objects := objects, staged := none })
        | .through =>
          match packed.2 with
          | some e => (.error (.err (.pack e)), { s with objects := objects, staged := none })
          | none =>
            (.ok (), { s with objects := objects, staged := none }.recordPush m.id (printDelta l)) := by
  unfold pushDelta
  simp only [runInOrder_push]
  rw [exec_bind]
  show exec (if s.unchanged m.id (printDelta l) = true then _ else _) s = _
  rw [if_neg (by rw [hnew]; exact Bool.false_ne_true)]
  unfold applyPush
  simp only [bind_assoc, pure_bind]
  obtain ⟨stream, err⟩ := packLayer env m l
  cases stream with
  | none => rfl
  | some stream => cases env.answer <;> cases err <;> rfl

end

/-! ## What a restore leaves behind -/

section

variable {host : Posix.Host} {env : SyncEnv} {m : Mount} {dest : Path} {records : List Record}
  {t : Tree} {E : Stop DeltaError → Fs → Prop}

theorem itemAt_chmod (t : Tree) (i mode : Nat) (q : Path) :
    itemAt (t.setData i { t.data i with mode := mode }) q = itemAt t q := by
  unfold itemAt
  rw [Tree.get_setData]
  cases t.get q with
  | none => rfl
  | some n =>
    cases n with
    | dir | link target => rfl
    | file j =>
      by_cases hj : j = i
      · subst hj
        show some (Item.file (Function.update t.data j _ j).bytes) = _
        rw [Function.update_self]
      · show some (Item.file (Function.update t.data i _ j).bytes) = _
        rw [Function.update_of_ne hj]

theorem filled_chmod (h : Filled dest records t) (i mode : Nat) :
    Filled dest records (t.setData i { t.data i with mode := mode }) := by
  constructor
  · exact h.root
  · intro q hq
    rw [itemAt_chmod]
    exact h.item q hq

/-- The names below a filled destination are those of the records. -/
theorem filled_names (h : Filled dest records t) {utf8 : Name → Bool}
    (hutf8 : ∀ r ∈ records, r.path.all utf8 = true) {p : Path} (hp : dest.isPrefixOf p = true)
    (hget : t.get p ≠ none) : (p.drop dest.length).all utf8 = true := by
  rw [List.isPrefixOf_iff_prefix] at hp
  obtain ⟨q, rfl⟩ := hp
  rw [drop_left]
  by_cases hq : q = []
  · rw [hq]
    rfl
  have hitem := h.item q hq
  cases hnode : nodeAt records q with
  | none =>
    rw [hnode] at hitem
    exact absurd (itemAt_eq_none.mp hitem) hget
  | some n =>
    obtain ⟨r, hr, rfl, -⟩ := mem_of_nodeAt hnode
    exact hutf8 r hr

theorem triple_makeWritableAt (hcalm : host.Calm) {utf8 : Name → Bool} {p : Path}
    (hname : (p.drop dest.length).all utf8 = true) :
    Triple (On (Filled dest records)) (makeWritableAt host utf8 dest p)
      (fun _ => On (Filled dest records)) E := by
  unfold makeWritableAt
  rw [if_neg (not_not.mpr hname)]
  apply Triple.bind (Q := fun _ => On (Filled dest records)) (triple_get (fun _ hs => hs))
  intro s
  simp only
  split
  · rename_i i _
    have hchmod : ∀ t, Filled dest records t → ∃ t',
        (Except.ok (t.setData i { t.data i with mode := openMode (s.tree.data i).mode }) :
          Except Errno Tree) = .ok t' ∧ Filled dest records t' :=
      fun t h => ⟨_, rfl, filled_chmod h i _⟩
    apply (triple_edit_calm hcalm hchmod).bind_eq
    exact triple_pure
  · exact triple_pure

theorem triple_makeWritable (hcalm : host.Calm) {utf8 : Name → Bool}
    (hutf8 : ∀ r ∈ records, r.path.all utf8 = true) :
    Triple (On (Filled dest records)) (makeWritable host utf8 dest)
      (fun _ => On (Filled dest records)) E := by
  unfold makeWritable
  apply triple_of_states
  intro s hs
  apply Triple.bind (Q := fun s' => On fun t => s' = s ∧ Filled dest records t)
    (triple_get (by rintro s' rfl; exact ⟨rfl, hs⟩))
  intro s'
  apply triple_of_prop
  rintro rfl
  apply triple_forM (fun _ => On (Filled dest records))
  intro pre p post hsplit
  have hmem : p ∈ s'.tree.nodes.keys.filter (fun p => dest.isPrefixOf p) := by
    rw [hsplit]
    exact mem_append_right _ mem_cons_self
  rw [mem_filter] at hmem
  exact triple_makeWritableAt hcalm
    (filled_names hs hutf8 hmem.2 (Tree.get_of_mem_keys hmem.1))

theorem verbatim_unpack (m : Mount) : Verbatim (unpackArtifact m) where
  strip := rfl
  subdir := rfl
  policy := by
    show "" ≠ symlinkPolicyContained
    decide

/-- **A restore of what was packed** fills the upper layer with it. -/
theorem triple_restoreDelta {l : Layer} {s : SyncState} (hcalm : host.Calm) (hapart : Apart host l)
    (hobject : s.objects m.sync = some { entries := l.records.map tarEntry })
    (hpack : ∀ r ∈ l.records, Packable env.utf8 r) (hclimb : ∀ r ∈ l.records, ¬Climbs r) :
    Triple (On (Filled dest [])) (restoreDelta host env m dest s)
      (fun _ => On (Filled dest l.records)) E := by
  unfold restoreDelta
  apply (triple_mkdirAll_calm hcalm (fun t h => Tree.stat_physical h.root)).bind_eq
  simp only [hobject]
  apply Triple.bind (triple_mapErr (triple_extractTar hcalm (verbatim_unpack m) hapart
    (fun r hr => (hpack r hr).2) hclimb))
  intro _
  apply Triple.bind (triple_makeWritable hcalm (fun r hr => (hpack r hr).1))
  intro _
  apply Triple.bind (Q := fun _ => On (Filled dest l.records)) (triple_get (fun _ hs => hs))
  intro s'
  split
  · exact triple_pure
  · exact triple_pure

/-- A restore succeeds on names that do not climb only. -/
theorem triple_restoreDelta_climbs {l : Layer} {s : SyncState}
    (hobject : s.objects m.sync = some { entries := l.records.map tarEntry }) :
    Triple (fun _ => True) (restoreDelta host env m dest s)
      (fun _ _ => ∀ r ∈ l.records, ¬Climbs r) (fun _ _ => True) := by
  unfold restoreDelta
  apply Triple.bind (Q := fun _ _ => True)
    (triple_of_forall (fun _ _ => trivial) (fun _ _ => trivial))
  intro r
  cases r with
  | error e => exact triple_throw (fun _ _ => trivial)
  | ok u =>
    simp only [hobject]
    apply Triple.bind (triple_mapErr (triple_extractTar_climbs (verbatim_unpack m)))
    intro _
    apply triple_of_states
    intro s' hs'
    exact triple_of_forall (fun _ _ => hs') (fun _ _ => trivial)

end

/-! ## Push and restore -/

/-- The upper layer that a directory of a tree is. -/
def layerAt (t : Tree) (dir q : Path) : Option LayerNode :=
  match t.get (dir ++ q) with
  | none => none
  | some .dir => some (.dir false)
  | some (.file i) => some (.file (t.data i).bytes)
  | some (.link target) => some (.link target)

/-- The push of a layer succeeds, the object restores into the directory `dest` of `t`, and
    what is seen over the base is the same. -/
def ComesBack (host : Posix.Host) (env : SyncEnv) (m : Mount) (base : Path → Option Item) (l : Layer)
    (s : SyncState) (dest : Path) (t : Tree) : Prop :=
  ∃ s', exec (pushDelta env m (some l)) s = (.ok (), s') ∧
    ∃ r fs, exec (restoreDelta host env m dest { objects := s'.objects }) ⟨t, 0⟩ = (.ok r, fs) ∧
      ∀ q, merged base (layerAt fs.tree dest) q = merged base l.get q

/-- The layers that come back. -/
structure Restorable (utf8 : Name → Bool) (m : Mount) (base : Path → Option Item) (l : Layer) :
    Prop where
  beside : stagedInside m = false
  packable : ∀ r ∈ l.records, Packable utf8 r
  names : ∀ r ∈ l.records, ¬Climbs r
  shown : HidesNothing base l.get

theorem filled_nil {dest : Path} {t : Tree} (hdir : t.get dest = some .dir)
    (hempty : ∀ q, q ≠ [] → t.get (dest ++ q) = none) : Filled dest [] t := by
  refine ⟨hdir, ?_⟩
  intro q hq
  rw [itemAt_eq_none.mpr (hempty q hq)]
  rfl

theorem layerAt_item (t : Tree) (dir q : Path) :
    (layerAt t dir q).map LayerNode.item = (itemAt t (dir ++ q)).map some := by
  unfold layerAt itemAt
  cases t.get (dir ++ q) with
  | none => rfl
  | some n => cases n <;> rfl

theorem layerAt_plain {t : Tree} {dir q : Path} :
    layerAt t dir q = some (.dir false) ↔ itemAt t (dir ++ q) = some .dir := by
  unfold layerAt itemAt
  cases t.get (dir ++ q) with
  | none => simp
  | some n => cases n <;> simp

theorem unmarked_item {up : Path → Option LayerNode} {q : Path} (hwhite : up q ≠ some .whiteout) :
    (unmarked up q).map LayerNode.item = ((up q).bind LayerNode.item).map some := by
  unfold unmarked
  cases hup : up q with
  | none => rfl
  | some n =>
    cases n with
    | whiteout => exact absurd hup hwhite
    | dir isOpaque | file bytes | link target | special kind => rfl

theorem unmarked_plain {up : Path → Option LayerNode} {q : Path} :
    unmarked up q = some (.dir false) ↔ (up q).bind LayerNode.item = some .dir := by
  unfold unmarked
  cases up q with
  | none => simp
  | some n => cases n <;> simp [LayerNode.bare, LayerNode.item]

/-- A filled directory shows what the layer shows without its marks. -/
theorem merged_filled {base : Path → Option Item} {t : Tree} {l : Layer} {dest : Path}
    (h : Filled dest l.records t) (hwhite : ∀ r ∈ l.records, r.node.isSpecial = false) (q : Path) :
    merged base (layerAt t dest) q = merged base (unmarked l.get) q := by
  have hget : ∀ p, l.get p ≠ some .whiteout := by
    intro p hp
    obtain ⟨r, hr, -, hnode⟩ := mem_of_nodeAt hp
    have hspecial := hwhite r hr
    rw [hnode] at hspecial
    cases hspecial
  apply merged_congr
  · intro p hp
    rw [layerAt_item, unmarked_item (hget p), h.item p hp]
    rfl
  · intro p hp
    rw [layerAt_plain, unmarked_plain, h.item p hp]
    rfl

section

variable {host : Posix.Host} {env : SyncEnv} {m : Mount} {base : Path → Option Item} {l : Layer}
  {s : SyncState} {dest : Path} {t : Tree}

theorem packLayer_beside (hfaulty : env.faulty = false) (hbeside : stagedInside m = false) :
    packLayer env m l =
      (some { entries := (archiveDir env.utf8 l.records).1 }, (archiveDir env.utf8 l.records).2) := by
  unfold packLayer
  rw [if_neg (by simp [hfaulty, hbeside])]

/-- What a push that the store takes leaves there, if the walk has no error. -/
theorem pushDelta_stores (hfaulty : env.faulty = false) (haccepts : env.answer = .through)
    (hnew : s.unchanged m.id (printDelta l) = false) (hbeside : stagedInside m = false)
    (hpack : ∀ r ∈ l.records, Packable env.utf8 r) :
    ∃ s', exec (pushDelta env m (some l)) s = (.ok (), s') ∧
      ({ objects := s'.objects } : SyncState).objects m.sync =
        some { entries := l.records.map tarEntry } := by
  rw [exec_pushDelta hnew, packLayer_beside hfaulty hbeside, haccepts, archiveDir_entries hpack]
  exact ⟨_, rfl, Function.update_self ..⟩

theorem comesBack_of_restorable (hcalm : host.Calm) (hapart : Apart host l)
    (hfaulty : env.faulty = false) (haccepts : env.answer = .through)
    (hnew : s.unchanged m.id (printDelta l) = false) (hfilled : Filled dest [] t)
    (h : Restorable env.utf8 m base l) : ComesBack host env m base l s dest t := by
  obtain ⟨hbeside, hpack, hnames, hshown⟩ := h
  obtain ⟨s', hpush, hstored⟩ := pushDelta_stores hfaulty haccepts hnew hbeside hpack
  have hrun : ∃ r fs, exec (restoreDelta host env m dest { objects := s'.objects }) ⟨t, 0⟩ =
      (.ok r, fs) ∧ Filled dest l.records fs.tree :=
    (triple_restoreDelta hcalm hapart hstored hpack hnames).exec_ok hfilled
  obtain ⟨r, fs, hrestore, hback⟩ := hrun
  refine ⟨s', hpush, r, fs, hrestore, fun q => ?_⟩
  rw [merged_filled hback (fun r hr => (hpack r hr).2)]
  exact merged_bare_iff.mpr hshown q

theorem restorable_of_comesBack (hcalm : host.Calm) (hapart : Apart host l)
    (hfaulty : env.faulty = false) (haccepts : env.answer = .through)
    (hnew : s.unchanged m.id (printDelta l) = false) (hfilled : Filled dest [] t)
    (hbeside : stagedInside m = false) (h : ComesBack host env m base l s dest t) :
    Restorable env.utf8 m base l := by
  obtain ⟨s', hpush, r, fs, hrestore, hsame⟩ := h
  -- the push succeeded, so the walk did
  have hwalk : (archiveDir env.utf8 l.records).2 = none := by
    rw [exec_pushDelta hnew, packLayer_beside hfaulty hbeside, haccepts] at hpush
    cases herr : (archiveDir env.utf8 l.records).2 with
    | none => rfl
    | some e =>
      rw [herr] at hpush
      cases hpush
  have hpack := archiveDir_ok_iff.mp hwalk
  obtain ⟨s'', hpush', hstored⟩ := pushDelta_stores hfaulty haccepts hnew hbeside hpack
  obtain rfl := (Prod.mk.inj (hpush.symm.trans hpush')).2
  have hnames := (triple_restoreDelta_climbs hstored).of_exec trivial hrestore
  have hback := (triple_restoreDelta (E := fun _ _ => True) hcalm hapart hstored hpack
    hnames).of_exec hfilled hrestore
  refine ⟨hbeside, hpack, hnames, merged_bare_iff.mp fun q => ?_⟩
  rw [← merged_filled hback (fun r hr => (hpack r hr).2)]
  exact hsame q

end

/-- **The round trip of a delta.**  On a host where nothing goes wrong, a push that is not
    skipped and that the object store takes comes back, whatever a walk over its own archive
    would find, exactly if the layer is restorable. -/
theorem comesBack_iff_restorable {host : Posix.Host} {env : SyncEnv} {m : Mount}
    {base : Path → Option Item} {l : Layer} {s : SyncState} {dest : Path} {t : Tree}
    (hcalm : host.Calm) (hapart : Apart host l) (hfaulty : env.faulty = false)
    (haccepts : env.answer = .through) (hnew : s.unchanged m.id (printDelta l) = false)
    (hdir : t.get dest = some .dir) (hempty : ∀ q, q ≠ [] → t.get (dest ++ q) = none) :
    (∀ disturbed, ComesBack host { env with disturbed := disturbed } m base l s dest t) ↔
      Restorable env.utf8 m base l := by
  have hfilled := filled_nil hdir hempty
  constructor
  · intro hback
    have hbeside : stagedInside m = false := by
      rw [← Bool.not_eq_true]
      intro hinside
      -- the walk may find more of the archive than the header it has written for it says
      obtain ⟨s', hpush, -⟩ := hback (some ⟨true, [], true⟩, some (.writeTooLong []))
      rw [exec_pushDelta hnew] at hpush
      simp only [packLayer, hinside, or_true, if_true, haccepts] at hpush
      cases hpush
    exact restorable_of_comesBack hcalm hapart hfaulty haccepts hnew hfilled hbeside
      (hback env.disturbed)
  · intro h disturbed
    have h' : Restorable ({ env with disturbed := disturbed } : SyncEnv).utf8 m base l := h
    exact comesBack_of_restorable hcalm hapart hfaulty haccepts hnew hfilled h'

/-! ## A delta that comes back and one that does not -/

def syncedMount : Mount :=
  { id := "tree", in_ := "base.erofs", out := "work", writable := true, sync := "s3://acme/user-42.tgz" }

def openStore : SyncEnv :=
  { utf8 := fun _ => true, answer := .through, print := fun _ _ => none }

def baseImage (q : Path) : Option Item := if q = ["b".toList] then some (.file [1]) else none

def emptyUpper : Tree :=
  Tree.empty.insert [] "u".toList .dir (Tree.get_nil _) (by decide)
    (by rw [Tree.get_empty (by decide)]; exact nofun) nofun

def addition : Layer where
  records := [⟨["a".toList], .dir false, 0o755, 0⟩,
    ⟨["a".toList, "f".toList], .file [7], 0o644, 0⟩]
  nodup := by decide
  placed := by
    intro pre r post h
    match pre with
    | [] =>
      obtain ⟨rfl, -⟩ := cons.inj h
      exact ⟨[], "a".toList, rfl, by decide, .inl rfl⟩
    | [x] =>
      obtain ⟨rfl, hrest⟩ := cons.inj h
      obtain ⟨rfl, -⟩ := cons.inj hrest
      exact ⟨["a".toList], "f".toList, rfl, by decide, .inr ⟨false, by decide⟩⟩
    | x :: y :: pre =>
      have hlen := congrArg length h
      simp only [length_cons, length_append, length_nil] at hlen
      omega
  target_ne := by decide

theorem addition_comesBack : Host.calm.Calm ∧ ∀ disturbed, ComesBack Host.calm
    { openStore with disturbed := disturbed } syncedMount baseImage addition {} ["u".toList]
    emptyUpper := by
  refine ⟨Host.calm_calm, ?_⟩
  apply (comesBack_iff_restorable Host.calm_calm _ rfl rfl rfl _ _).mpr
  · exact ⟨by decide, by unfold Packable; decide, by decide, hidesNothing_of_unmarked (by decide)⟩
  · intro t p r hr htemp
    have hlast : ∀ r ∈ addition.records, (r.path.getLast?.bind head?) ≠ some '_' := by decide
    apply hlast r hr
    rw [htemp]
    rfl
  · rfl
  · intro q hq
    rw [emptyUpper, Tree.get_insert, if_neg (by simpa using hq), Tree.get_empty (by simp)]

def deletion : Layer where
  records := [⟨["b".toList], .whiteout, 0o600, 0⟩]
  nodup := by decide
  placed := by
    intro pre r post h
    match pre with
    | [] =>
      obtain ⟨rfl, -⟩ := cons.inj h
      exact ⟨[], "b".toList, rfl, by decide, .inl rfl⟩
    | x :: pre =>
      have hlen := congrArg length h
      simp only [length_cons, length_append, length_nil] at hlen
      omega
  target_ne := by decide

/-- The push of a deletion fails although the store takes the upload, and leaves an archive
    without entries there. -/
theorem deletion_not_pushed :
    merged baseImage (fun _ => none) ["b".toList] = some (.file [1]) ∧
      merged baseImage deletion.get ["b".toList] = none ∧ openStore.answer = .through ∧
      (exec (pushDelta openStore syncedMount (some deletion)) {}).1 =
        .error (.err (.pack (.notRegular ["b".toList]))) ∧
      (exec (pushDelta openStore syncedMount (some deletion)) {}).2.objects syncedMount.sync =
        some { entries := [] } := by
  refine ⟨rfl, by decide, rfl, ?_, ?_⟩
  · rw [exec_pushDelta rfl]
    rfl
  · rw [exec_pushDelta rfl]
    exact Function.update_self syncedMount.sync (some ({ entries := [] } : Stream)) (fun _ => none)

end Orchestrator.Sidecar

/-
  Orchestrator.Lib.Posix.Host

  Programs that make file system calls.

  A `Host` is what the tree does not determine: which calls fail for a reason of their
  own, before which call the process ends, and the name that a new temporary file gets.
  A call is a step of a program over `Fs`, the tree and the number of calls so far; it
  hands the error to the program as a value, since most programs look at it.

  `edit_bind` and `look_bind` are the rules on any host; on one where nothing goes wrong
  the outcome of a call is that of the tree (`triple_edit_calm`, `triple_look_calm`).
-/

import Orchestrator.Lib.Posix.Syscall
import Orchestrator.Lib.Prog

namespace Orchestrator.Lib.Posix

open Prog

/-- What becomes of a call: its outcome is the tree's, it fails for another reason, or the
    process ends before it. -/
inductive Fate where
  | fine
  | fault
  | crash
deriving DecidableEq, Repr

structure Host where
  fate : Nat → Fate
  /-- The name of a temporary file in a directory. -/
  temp : Tree → Path → Name
  temp_proper : ∀ (t : Tree) (d : Path), Proper (temp t d)
  temp_new : ∀ (t : Tree) (d : Path), t.get (d ++ [temp t d]) = none

/-- Nothing goes wrong. -/
def Host.Calm (host : Host) : Prop := ∀ n, host.fate n = .fine

/-- A host where nothing goes wrong, and temporary names are longer than all others. -/
def Host.calm : Host where
  fate := fun _ => .fine
  temp := fun t d => List.replicate ((t.children d).flatten.length + 1) '_'
  temp_proper := by
    intro t d
    have hhead : ∀ n, (List.replicate (n + 1) '_').head? = some '_' := fun n => rfl
    refine ⟨fun h => ?_, fun h => ?_, fun h => ?_⟩ <;>
      exact absurd ((hhead _).symm.trans (congrArg List.head? h)) (by decide)
  temp_new := by
    intro t d
    by_contra hne
    have hmem := Tree.mem_children.mpr hne
    have hle := (List.sublist_flatten_of_mem hmem).length_le
    rw [List.length_replicate] at hle
    omega

theorem Host.calm_calm : Host.calm.Calm := fun _ => rfl

structure Fs where
  tree : Tree
  calls : Nat

abbrev On (P : Tree → Prop) : Fs → Prop := fun s => P s.tree

/-! ## Calls -/

section

variable {ε α : Type} (host : Host)

def call (f : Tree → Except Errno (α × Tree)) : Prog Fs (Stop ε) (Except Errno α) := fun s =>
  match host.fate s.calls with
  | .crash => (.error .crash, { s with calls := s.calls + 1 })
  | .fault => (.ok (.error .io), { s with calls := s.calls + 1 })
  | .fine =>
    match f s.tree with
    | .error e => (.ok (.error e), { s with calls := s.calls + 1 })
    | .ok (a, t) => (.ok (.ok a), { tree := t, calls := s.calls + 1 })

def edit (f : Tree → Except Errno Tree) : Prog Fs (Stop ε) (Except Errno Unit) :=
  call host fun t => (f t).map fun t' => ((), t')

def look (f : Tree → Except Errno α) : Prog Fs (Stop ε) (Except Errno α) :=
  call host fun t => (f t).map fun a => (a, t)

/-- A new file under a name of the host's choice: its path and its inode. -/
def makeTemp (dir : Path) (mode : Nat) (t : Tree) : Except Errno ((Path × Nat) × Tree) :=
  match t.resolve dir with
  | .error e => .error e
  | .ok d =>
    let path := dir ++ [host.temp t d]
    (t.create path mode).map fun r => ((path, r.1), r.2)

def createTemp (dir : Path) (mode : Nat) : Prog Fs (Stop ε) (Except Errno (Path × Nat)) :=
  call host (makeTemp host dir mode)

def chmod (ino mode : Nat) : Prog Fs (Stop ε) (Except Errno Unit) :=
  edit host fun t => .ok (t.setData ino { t.data ino with mode := mode })

def write (ino : Nat) (bytes : List UInt8) : Prog Fs (Stop ε) (Except Errno Unit) :=
  edit host fun t => .ok (t.setData ino { t.data ino with bytes := bytes })

/-- Make `path` a directory; `above` does so for the directory it is in. -/
def ensureDir (path : Path) (above : Prog Fs (Stop ε) (Except Errno Unit)) :
    Prog Fs (Stop ε) (Except Errno Unit) := do
  match ← look host (·.stat path) with
  | .ok .dir => return .ok ()
  | .ok _ => return .error .notdir
  | .error _ =>
    match ← above with
    | .error e => return .error e
    | .ok () =>
      match ← edit host (·.mkdir path) with
      | .ok () => return .ok ()
      | .error e =>
        match ← look host (·.lstat path) with
        | .ok .dir => return .ok ()
        | _ => return .error e

/-- Make the first `n` names of `cs` a directory, with all directories above it. -/
def mkdirPrefix (cs : Path) : Nat → Prog Fs (Stop ε) (Except Errno Unit)
  | 0 => ensureDir host [] (return .ok ())
  | n + 1 => ensureDir host (cs.take (n + 1)) (mkdirPrefix cs n)

def mkdirAll (cs : Path) : Prog Fs (Stop ε) (Except Errno Unit) := mkdirPrefix host cs cs.length

end

theorem makeTemp_ok {host : Host} {dir path : Path} {mode ino : Nat} {t t' : Tree}
    (h : makeTemp host dir mode t = .ok ((path, ino), t')) :
    ∃ d, t.resolve dir = .ok d ∧ t.get d = some .dir ∧ path = dir ++ [host.temp t d] ∧
      Tree.Holding t t' (d ++ [host.temp t d]) ino := by
  unfold makeTemp at h
  cases hres : t.resolve dir with
  | error e => simp [hres] at h
  | ok d =>
    simp only [hres] at h
    cases hcreate : t.create (dir ++ [host.temp t d]) mode with
    | error e => simp [hcreate, Except.map] at h
    | ok r =>
      simp only [hcreate, Except.map, Except.ok.injEq, Prod.mk.injEq] at h
      obtain ⟨⟨rfl, rfl⟩, rfl⟩ := h
      obtain ⟨d', c, hparent, hnew, hino, -, hput⟩ := Tree.create_ok hcreate
      obtain ⟨hlast, hres', hdir⟩ := Tree.parent_ok hparent
      rw [List.dropLast_concat] at hlast hres'
      obtain rfl : host.temp t d = c := by simpa using hlast
      obtain rfl : d = d' := by
        rw [hres] at hres'
        exact Except.ok.inj hres'
      exact ⟨d, rfl, hdir, rfl, hnew, Nat.le_of_eq hino.symm, hput⟩

theorem makeTemp_physical {host : Host} {d : Path} {t : Tree} (hdir : t.get d = some .dir)
    (mode : Nat) :
    ∃ ino t', makeTemp host d mode t = .ok ((d ++ [host.temp t d], ino), t') ∧
      Tree.Holding t t' (d ++ [host.temp t d]) ino := by
  have hres : t.resolve d = .ok d := Tree.resolve_physical hdir
  obtain ⟨ino, t', hcreate⟩ := Tree.create_of_new (Tree.parent_physical hdir (host.temp t d))
    (host.temp_proper t d) (host.temp_new t d)
  have hmake : makeTemp host d mode t = .ok ((d ++ [host.temp t d], ino), t') := by
    unfold makeTemp
    rw [hres]
    simp only
    rw [hcreate]
    rfl
  obtain ⟨d', hres', -, -, hhold⟩ := makeTemp_ok hmake
  obtain rfl : d = d' := by
    rw [hres] at hres'
    exact Except.ok.inj hres'
  exact ⟨ino, t', hmake, hhold⟩

/-! ## Rules -/

section

variable {ε α β : Type} {host : Host} {P : Tree → Prop} {R : β → Fs → Prop}
  {E : Stop ε → Fs → Prop}

theorem call_bind {f : Tree → Except Errno (α × Tree)} {k : Except Errno α → Prog Fs (Stop ε) β}
    {Q : α → Tree → Prop} (hcrash : ∀ s, P s.tree → E .crash s)
    (hcall : ∀ t a t', P t → f t = .ok (a, t') → Q a t')
    (hok : ∀ a, Triple (On (Q a)) (k (.ok a)) R E)
    (herr : ∀ e, Triple (On fun t => P t ∧ (e = .io ∨ f t = .error e)) (k (.error e)) R E) :
    Triple (On P) (call host f >>= k) R E := by
  intro s hs
  have hrun : exec (call host f : Prog Fs (Stop ε) _) s = call host f s := rfl
  rw [exec_bind, hrun, call]
  cases host.fate s.calls with
  | crash => exact hcrash _ hs
  | fault => exact herr .io _ ⟨hs, .inl rfl⟩
  | fine =>
    simp only
    cases hf : f s.tree with
    | error e => exact herr e _ ⟨hs, .inr hf⟩
    | ok r => exact hok r.1 _ (hcall s.tree r.1 r.2 hs hf)

theorem map_eq_ok {β γ : Type} {r : Except Errno β} {g : β → γ} {c : γ} (h : r.map g = .ok c) :
    ∃ b, r = .ok b ∧ g b = c := by
  cases r with
  | error e => cases h
  | ok b => exact ⟨b, rfl, Except.ok.inj h⟩

theorem map_eq_error {β γ : Type} {r : Except Errno β} {g : β → γ} {e : Errno}
    (h : r.map g = .error e) : r = .error e := by
  cases r with
  | error e' =>
    cases h
    rfl
  | ok b => cases h

theorem edit_bind {f : Tree → Except Errno Tree} {k : Except Errno Unit → Prog Fs (Stop ε) β}
    {Q : Tree → Prop} (hcrash : ∀ s, P s.tree → E .crash s) (hedit : ∀ t t', P t → f t = .ok t' → Q t')
    (hok : Triple (On Q) (k (.ok ())) R E)
    (herr : ∀ e, Triple (On fun t => P t ∧ (e = .io ∨ f t = .error e)) (k (.error e)) R E) :
    Triple (On P) (edit host f >>= k) R E := by
  apply call_bind (Q := fun _ => Q) hcrash
  · intro t a t' ht hf
    obtain ⟨t₁, hft, heq⟩ := map_eq_ok hf
    cases heq
    exact hedit t t' ht hft
  · exact fun _ => hok
  · exact fun e => (herr e).pre fun s hs => ⟨hs.1, hs.2.imp_right map_eq_error⟩

theorem look_bind {f : Tree → Except Errno α} {k : Except Errno α → Prog Fs (Stop ε) β}
    (hcrash : ∀ s, P s.tree → E .crash s)
    (hok : ∀ a, Triple (On fun t => P t ∧ f t = .ok a) (k (.ok a)) R E)
    (herr : ∀ e, Triple (On fun t => P t ∧ (e = .io ∨ f t = .error e)) (k (.error e)) R E) :
    Triple (On P) (look host f >>= k) R E := by
  apply call_bind (Q := fun a t => P t ∧ f t = .ok a) hcrash
  · intro t a t' ht hf
    obtain ⟨b, hft, heq⟩ := map_eq_ok hf
    cases heq
    exact ⟨ht, hft⟩
  · exact hok
  · exact fun e => (herr e).pre fun s hs => ⟨hs.1, hs.2.imp_right map_eq_error⟩

end

section

variable {ε α : Type} {host : Host} {P : Tree → Prop} {E : Stop ε → Fs → Prop}

theorem exec_call_calm (hcalm : host.Calm) (f : Tree → Except Errno (α × Tree)) (s : Fs) :
    exec (call host f : Prog Fs (Stop ε) _) s =
      match f s.tree with
      | .error e => (.ok (.error e), { s with calls := s.calls + 1 })
      | .ok (a, t) => (.ok (.ok a), { tree := t, calls := s.calls + 1 }) := by
  show call host f s = _
  unfold call
  rw [hcalm s.calls]
  rfl

theorem triple_call_calm {f : Tree → Except Errno (α × Tree)} {Q : α → Tree → Prop}
    (hcalm : host.Calm) (h : ∀ t, P t → ∃ a t', f t = .ok (a, t') ∧ Q a t') :
    Triple (On P) (call host f) (fun r s => ∃ a, r = .ok a ∧ Q a s.tree) E := by
  intro s hs
  obtain ⟨a, t', hf, hq⟩ := h s.tree hs
  rw [exec_call_calm hcalm, hf]
  exact ⟨a, rfl, hq⟩

theorem triple_edit_calm {f : Tree → Except Errno Tree} {Q : Tree → Prop}
    (hcalm : host.Calm) (h : ∀ t, P t → ∃ t', f t = .ok t' ∧ Q t') :
    Triple (On P) (edit host f) (fun r s => r = .ok () ∧ Q s.tree) E := by
  intro s hs
  obtain ⟨t', hf, hq⟩ := h s.tree hs
  rw [edit, exec_call_calm hcalm, hf]
  exact ⟨rfl, hq⟩

theorem triple_edit_error {f : Tree → Except Errno Tree} {e : Errno} (hcalm : host.Calm)
    (h : ∀ t, P t → f t = .error e) :
    Triple (On P) (edit host f) (fun r s => r = .error e ∧ P s.tree) E := by
  intro s hs
  rw [edit, exec_call_calm hcalm, h s.tree hs]
  exact ⟨rfl, hs⟩

theorem triple_look_calm {f : Tree → Except Errno α} {r : Except Errno α}
    (hcalm : host.Calm) (h : ∀ t, P t → f t = r) :
    Triple (On P) (look host f) (fun r' s => r' = r ∧ P s.tree) E := by
  intro s hs
  rw [look, exec_call_calm hcalm, h s.tree hs]
  cases r with
  | error e | ok a => exact ⟨rfl, hs⟩

theorem triple_mkdirAll_calm {cs : Path} (hcalm : host.Calm)
    (h : ∀ t, P t → t.stat cs = .ok .dir) :
    Triple (On P) (mkdirAll host cs) (fun r s => r = .ok () ∧ P s.tree) E := by
  have hensure : ∀ above, Triple (On P) (ensureDir host cs above)
      (fun r s => r = .ok () ∧ P s.tree) E := by
    intro above
    apply (triple_look_calm hcalm h).bind_eq
    exact triple_pure (fun s hs => ⟨rfl, hs⟩)
  unfold mkdirAll
  cases hlen : cs.length with
  | zero =>
    obtain rfl : cs = [] := List.length_eq_zero_iff.mp hlen
    exact hensure _
  | succ n =>
    have htake : cs.take (n + 1) = cs := List.take_of_length_le (Nat.le_of_eq hlen)
    show Triple _ (ensureDir host (cs.take (n + 1)) (mkdirPrefix host cs n)) _ _
    rw [htake]
    exact hensure _

end

end Orchestrator.Lib.Posix

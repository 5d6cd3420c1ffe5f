/-
  Orchestrator.Warm.Idle

  The reaper of idle claims.  A sidecar counts the requests it has accepted; a sweep over
  the claimed pods reads the counters, and a claim whose counter has not moved for longer
  than its idle window is torn down.

  The reaper keeps one mark for each claim id: the counter, and the time of the sweep that
  first saw it.  Pods come and go while a sweep is under way, so a sweep is a sequence of
  steps: the listing, one visit to each pod, and the calls of a teardown, which goes by the
  id again.  Other replicas and clients delete pods as well (`delete`).

  Times are nanoseconds.  A window is declared in seconds, and the reaper's `time.Duration`
  of it is an int64, which wraps.
-/

import Mathlib.Data.List.Nodup
import Orchestrator.Lib.Machine
import Orchestrator.Lib.Objects

namespace Orchestrator.Warm.Idle

open Lib Lib.Machine List

/-! ## The reaper -/

/-- A claimed pod, with what its sidecar has accepted and when. -/
structure Claim where
  name : Nat
  id : String
  idleTimeoutSeconds : Nat
  created : Nat
  requests : List Nat
  deleting : Bool
deriving DecidableEq, Repr

/-- The durations of a `time.Duration` are below this many nanoseconds. -/
def durations : Nat := 9223372036854775808

def Claim.declared (pod : Claim) : Nat := pod.idleTimeoutSeconds * 1000000000

/-- `IdleReaper.window`: the window as the reaper computes it. -/
def Claim.window (pod : Claim) : Int :=
  ((pod.idleTimeoutSeconds : Int) * 1000000000).bmod (2 * durations)

structure Mark where
  requests : Nat
  since : Nat
deriving DecidableEq, Repr

/-- `now.Sub`, which saturates. -/
def sub (now since : Nat) : Int :=
  max (-durations) (min ((now : Int) - since) (durations - 1))

/-- `reap`: the marks, and whether the claim is to be torn down. -/
def reap (marks : Objects Mark) (pod : Claim) (reading : Option Nat) (now : Nat) :
    Objects Mark × Bool :=
  if pod.window ≤ 0 then (marks, false)
  else
    match reading with
    | none => (marks, false)
    | some requests =>
      match marks.lookup pod.id with
      | none => (marks.insert pod.id ⟨requests, now⟩, false)
      | some mark =>
        if requests ≠ mark.requests then (marks.insert pod.id ⟨requests, now⟩, false)
        else (marks, decide (pod.window < sub now mark.since))

/-- `forget`: the marks of ids that were not seen in the sweep go. -/
def forget (marks : Objects Mark) (live : List String) : Objects Mark :=
  (marks.keys.filter fun id => !live.contains id).foldl (fun t id => t.erase id) marks

/-! ## Sweeps -/

inductive Stage where
  | scanning
  /-- The teardown of a claim is about to list its pods; its counter was read at `read`. -/
  | listing (id : String) (read : Nat)
  | deleting (names : List Nat) (read : Nat)
deriving DecidableEq, Repr

/-- A sweep: its time, the pods it has still to visit as they were listed, and the ids seen. -/
structure Sweep where
  now : Nat
  ahead : List Claim
  live : List String
  stage : Stage
deriving DecidableEq, Repr

structure System where
  clock : Nat
  next : Nat
  pods : List Claim
  marks : Objects Mark
  sweep : Option Sweep

def System.init : System := ⟨0, 0, [], ∅, none⟩

inductive Answer where
  | through
  /-- It fails before it has any effect. -/
  | refused
  /-- It has its effect, and the answer is an error. -/
  | lost
deriving DecidableEq, Repr

inductive Event where
  | pass (duration : Nat)
  | create (id : String) (idleTimeoutSeconds : Nat)
  | request (name : Nat)
  | delete (name : Nat)
  | remove (name : Nat)
  /-- `TickClaims` lists the claimed pods. -/
  | tick
  /-- The sweep comes to its next pod: whether its reservation is pending, and whether its counter
      can be read. -/
  | visit (pending answers : Bool)
  | call (answer : Answer)
deriving DecidableEq, Repr

structure TornDown where
  pod : Claim
  read : Nat
deriving DecidableEq, Repr

def System.change (s : System) (name : Nat) (f : Claim → Claim) : System :=
  { s with pods := s.pods.map fun pod => if pod.name = name then f pod else pod }

def System.terminate (s : System) (name : Nat) : System :=
  s.change name fun pod => { pod with deleting := true }

def System.count (s : System) (name : Nat) : Option Nat :=
  (s.pods.find? fun pod => pod.name = name).map fun pod => pod.requests.length

/-- One pod of `TickClaims`, or its end. -/
def visit (s : System) (w : Sweep) (pending answers : Bool) : System :=
  match w.ahead with
  | [] => { s with marks := forget s.marks w.live, sweep := none }
  | pod :: rest =>
    if pod.deleting || pending then { s with sweep := some { w with ahead := rest } }
    else
      let r := reap s.marks pod (if answers then s.count pod.name else none) w.now
      { s with
        marks := r.1
        sweep := some
          { w with
            ahead := rest
            live := pod.id :: w.live
            stage := if r.2 then .listing pod.id s.clock else .scanning } }

/-- One call of the sandbox service's `Delete`, which is the teardown. -/
def teardown (s : System) (w : Sweep) (answer : Answer) : System × List TornDown :=
  match w.stage, answer with
  | .scanning, _ => (s, [])
  | .listing id read, .through =>
    ({ s with
        sweep := some
          { w with stage := .deleting ((s.pods.filter fun p => p.id = id).map Claim.name) read } },
      [])
  | .listing _ _, _ => ({ s with sweep := some { w with stage := .scanning } }, [])
  | .deleting [] _, _ => ({ s with sweep := some { w with stage := .scanning } }, [])
  | .deleting (_ :: _) _, .refused => ({ s with sweep := some { w with stage := .scanning } }, [])
  | .deleting (name :: rest) read, answer =>
    ({ s.terminate name with
        sweep := some
          { w with stage := if answer = .through then .deleting rest read else .scanning } },
      (s.pods.filter fun p => p.name = name ∧ p.deleting = false).map fun p => ⟨p, read⟩)

def step (s : System) : Event → System × List TornDown
  | .pass duration => ({ s with clock := s.clock + duration }, [])
  | .create id seconds =>
    ({ s with next := s.next + 1, pods := s.pods ++ [⟨s.next, id, seconds, s.clock, [], false⟩] },
      [])
  | .request name =>
    (s.change name fun pod => { pod with requests := pod.requests ++ [s.clock] }, [])
  | .delete name => (s.terminate name, [])
  | .remove name => ({ s with pods := s.pods.filter fun pod => pod.name ≠ name }, [])
  | .tick =>
    match s.sweep with
    | none => ({ s with sweep := some ⟨s.clock, s.pods, [], .scanning⟩ }, [])
    | some _ => (s, [])
  | .visit pending answers =>
    match s.sweep with
    | some w => if w.stage = .scanning then (visit s w pending answers, []) else (s, [])
    | none => (s, [])
  | .call answer =>
    match s.sweep with
    | some w => teardown s w answer
    | none => (s, [])

/-! ## Only idle claims are torn down -/

/-- The claim had existed for longer than its window when its counter was read, and had accepted no
    request in a window's length before. -/
def Rested (pod : Claim) (read : Nat) : Prop :=
  pod.created + pod.declared < read ∧ ∀ t ∈ pod.requests, t + pod.declared < read ∨ read ≤ t

/-- What a teardown can go wrong by. -/
inductive Trouble where
  /-- A claim is created under an id that has a mark. -/
  | inherited
  /-- A claim is created under an id that another pod still has. -/
  | shared
  /-- A request is accepted after the time of a sweep, before the sweep reads the counter. -/
  | slow
  /-- The window of a claim has `2 ^ 63` nanoseconds or more. -/
  | overflow
deriving DecidableEq, Repr

def troubles (s : System) : Event → List Trouble
  | .create id seconds =>
    (if (s.marks.lookup id).isSome then [.inherited] else []) ++
      (if s.pods.any fun pod => pod.id = id then [.shared] else []) ++
      if durations ≤ seconds * 1000000000 then [.overflow] else []
  | .request name =>
    match s.sweep with
    | some w => if w.now < s.clock && w.ahead.any (fun pod => pod.name = name) then [.slow] else []
    | none => []
  | _ => []

/-- The event is in no trouble but those of `A`. -/
def Only (A : Trouble → Prop) (s : System) (e : Event) : Prop := ∀ t ∈ troubles s e, A t

instance (A : Trouble → Prop) [DecidablePred A] (s : System) (e : Event) : Decidable (Only A s e) :=
  inferInstanceAs (Decidable (∀ t ∈ troubles s e, A t))

instance (pod : Claim) (read : Nat) : Decidable (Rested pod read) :=
  inferInstanceAs (Decidable (_ ∧ _))

/-- The runs whose troubles are those of `A` tear down idle claims only. -/
def TearsDownIdle (A : Trouble → Prop) : Prop :=
  ∀ events : List Event, Along (Only A) step System.init events →
    ∀ x ∈ (run step System.init events).2, Rested x.pod x.read

/-! ## What holds of the marks -/

/-- The mark is about this pod: the requests it has counted are not after its time. -/
structure Mark.About (m : Mark) (p : Claim) : Prop where
  created : p.created ≤ m.since
  counted : m.requests ≤ p.requests.length
  before : ∀ t ∈ p.requests.take m.requests, t ≤ m.since

/-- A pod that was listed, as it is when the sweep comes to it. -/
structure AsListed (now : Nat) (listed p : Claim) : Prop where
  id : p.id = listed.id
  seconds : p.idleTimeoutSeconds = listed.idleTimeoutSeconds
  created : p.created ≤ now
  requests : ∀ t ∈ p.requests, t ≤ now

/-- The pods a teardown is about have rested. -/
def Stage.Sound (s : System) : Stage → Prop
  | .scanning => True
  | .listing id read =>
    read ≤ s.clock ∧ (s.marks.lookup id).isSome ∧ ∀ p ∈ s.pods, p.id = id → Rested p read
  | .deleting names read =>
    read ≤ s.clock ∧ ∀ name ∈ names, name < s.next ∧ ∀ p ∈ s.pods, p.name = name → Rested p read

structure Sweep.Sound (s : System) (w : Sweep) : Prop where
  now : w.now ≤ s.clock
  ahead : ∀ q ∈ w.ahead, q.name < s.next ∧ ∀ p ∈ s.pods, p.name = q.name → AsListed w.now q p
  stage : w.stage.Sound s

structure Inv (s : System) : Prop where
  bounded : ∀ p ∈ s.pods, p.name < s.next
  names : (s.pods.map Claim.name).Nodup
  ids : (s.pods.map Claim.id).Nodup
  past : ∀ p ∈ s.pods, p.created ≤ s.clock ∧ ∀ t ∈ p.requests, t ≤ s.clock
  fits : ∀ p ∈ s.pods, p.declared < durations
  marked : ∀ id m, s.marks.lookup id = some m → ∀ p ∈ s.pods, p.id = id → m.About p
  swept : ∀ w, s.sweep = some w → w.Sound s

theorem inv_init : Inv System.init := by
  refine ⟨?_, nodup_nil, nodup_nil, ?_, ?_, ?_, ?_⟩
  · nofun
  · nofun
  · nofun
  · nofun
  · nofun

section

variable {s : System}

/-- Where a pod comes from that is there after a step. -/
inductive Origin (s : System) : Claim → Prop where
  | kept (p : Claim) (b : Bool) (h : p ∈ s.pods) : Origin s { p with deleting := b }
  /-- It has accepted a request; a sweep that has it still ahead has only begun. -/
  | asked (p : Claim) (h : p ∈ s.pods)
      (hsweep : ∀ w, s.sweep = some w → ∀ q ∈ w.ahead, p.name = q.name → s.clock ≤ w.now) :
      Origin s { p with requests := p.requests ++ [s.clock] }
  | new (id : String) (seconds : Nat) (hmark : s.marks.lookup id = none)
      (hfits : seconds * 1000000000 < durations) :
      Origin s ⟨s.next, id, seconds, s.clock, [], false⟩

variable {p : Claim} {clock : Nat}

/-- A request comes after what was read of the counter. -/
theorem Rested.asked {read : Nat} (h : Rested p read) (hread : read ≤ clock) :
    Rested { p with requests := p.requests ++ [clock] } read := by
  refine ⟨h.1, forall_mem_append.mpr ⟨h.2, ?_⟩⟩
  exact forall_mem_singleton.mpr (.inr hread)

variable {m : Mark}

theorem Mark.About.asked (h : m.About p) (clock : Nat) :
    m.About { p with requests := p.requests ++ [clock] } := by
  refine ⟨h.created, ?_, ?_⟩
  · rw [length_append]
    exact Nat.le_trans h.counted (Nat.le_add_right _ _)
  · intro t ht
    rw [take_append_of_le_length h.counted] at ht
    exact h.before t ht

variable {next : Nat} {pods : List Claim}

theorem Stage.Sound.carry {stage : Stage} (h : stage.Sound s) (hclock : s.clock ≤ clock)
    (hnext : s.next ≤ next) (hpods : ∀ p ∈ pods, Origin s p) :
    stage.Sound { s with clock, next, pods } := by
  cases stage with
  | scanning => trivial
  | listing id read =>
    obtain ⟨hread, hsome, hrested⟩ := h
    refine ⟨Nat.le_trans hread hclock, hsome, fun p hp hid => ?_⟩
    cases hpods p hp with
    | kept q b hq => exact hrested q hq hid
    | asked q hq _ => exact (hrested q hq hid).asked hread
    | new id' seconds hmark _ =>
      subst hid
      rw [hmark] at hsome
      cases hsome
  | deleting names read =>
    obtain ⟨hread, hrested⟩ := h
    refine ⟨Nat.le_trans hread hclock, fun name hname => ?_⟩
    obtain ⟨hlt, hall⟩ := hrested name hname
    refine ⟨Nat.lt_of_lt_of_le hlt hnext, fun p hp heq => ?_⟩
    cases hpods p hp with
    | kept q b hq => exact hall q hq heq
    | asked q hq _ => exact (hall q hq heq).asked hread
    | new id' seconds hmark _ => exact absurd heq (Nat.ne_of_gt hlt)

variable {w : Sweep}

theorem Sweep.Sound.carry (h : w.Sound s) (hw : s.sweep = some w) (hclock : s.clock ≤ clock)
    (hnext : s.next ≤ next) (hpods : ∀ p ∈ pods, Origin s p) :
    w.Sound { s with clock, next, pods } := by
  refine ⟨Nat.le_trans h.now hclock, ?_, h.stage.carry hclock hnext hpods⟩
  intro q hq
  obtain ⟨hlt, hlisted⟩ := h.ahead q hq
  refine ⟨Nat.lt_of_lt_of_le hlt hnext, fun p hp hname => ?_⟩
  cases hpods p hp with
  | kept p' b hp' =>
    obtain ⟨hid, hseconds, hcreated, hrequests⟩ := hlisted p' hp' hname
    exact ⟨hid, hseconds, hcreated, hrequests⟩
  | asked p' hp' hsweep =>
    obtain ⟨hid, hseconds, hcreated, hrequests⟩ := hlisted p' hp' hname
    refine ⟨hid, hseconds, hcreated, forall_mem_append.mpr ⟨hrequests, ?_⟩⟩
    exact forall_mem_singleton.mpr (hsweep w hw q hq hname)
  | new id seconds hmark _ => exact absurd hname (Nat.ne_of_gt hlt)

/-- What the cluster does while the reaper does nothing. -/
theorem Inv.carry (h : Inv s) (hclock : s.clock ≤ clock) (hnext : s.next ≤ next)
    (hpods : ∀ p ∈ pods, Origin s p) (hbounded : ∀ p ∈ pods, p.name < next)
    (hnames : (pods.map Claim.name).Nodup) (hids : (pods.map Claim.id).Nodup) :
    Inv { s with clock, next, pods } := by
  refine ⟨hbounded, hnames, hids, ?_, ?_, ?_, ?_⟩
  · intro p hp
    cases hpods p hp with
    | kept q b hq =>
      obtain ⟨hcreated, hrequests⟩ := h.past q hq
      exact ⟨Nat.le_trans hcreated hclock, fun t ht => Nat.le_trans (hrequests t ht) hclock⟩
    | asked q hq _ =>
      obtain ⟨hcreated, hrequests⟩ := h.past q hq
      refine ⟨Nat.le_trans hcreated hclock, forall_mem_append.mpr ⟨?_, ?_⟩⟩
      · exact fun t ht => Nat.le_trans (hrequests t ht) hclock
      · exact forall_mem_singleton.mpr hclock
    | new id seconds hmark _ => exact ⟨hclock, nofun⟩
  · intro p hp
    cases hpods p hp with
    | kept q b hq => exact h.fits q hq
    | asked q hq _ => exact h.fits q hq
    | new id seconds hmark hfits => exact hfits
  · intro id m hm p hp hid
    cases hpods p hp with
    | kept q b hq =>
      obtain ⟨hcreated, hcounted, hbefore⟩ := h.marked id m hm q hq hid
      exact ⟨hcreated, hcounted, hbefore⟩
    | asked q hq _ => exact (h.marked id m hm q hq hid).asked s.clock
    -- a new claim has an id without a mark
    | new id' seconds hmark _ =>
      subst hid
      change s.marks.lookup id' = some m at hm
      rw [hmark] at hm
      cases hm
  · exact fun w hw => (h.swept w hw).carry hw hclock hnext hpods

theorem Inv.pass (h : Inv s) (duration : Nat) : Inv { s with clock := s.clock + duration } :=
  h.carry (Nat.le_add_right _ _) (Nat.le_refl _) (fun p hp => .kept p p.deleting hp) h.bounded
    h.names h.ids

theorem Inv.remove (h : Inv s) (name : Nat) :
    Inv { s with pods := s.pods.filter fun pod => pod.name ≠ name } := by
  have hmem : ∀ p ∈ s.pods.filter (fun pod => pod.name ≠ name), p ∈ s.pods :=
    fun p hp => (mem_filter.mp hp).1
  exact h.carry (Nat.le_refl _) (Nat.le_refl _) (fun p hp => .kept p p.deleting (hmem p hp))
    (fun p hp => h.bounded p (hmem p hp)) (h.names.sublist (filter_sublist.map _))
    (h.ids.sublist (filter_sublist.map _))

theorem Inv.create (h : Inv s) {id : String} {seconds : Nat}
    (he : troubles s (.create id seconds) = []) : Inv (step s (.create id seconds)).1 := by
  rw [troubles, append_eq_nil_iff, append_eq_nil_iff] at he
  obtain ⟨⟨hinherited, hshared⟩, hoverflow⟩ := he
  have hfits : seconds * 1000000000 < durations := by
    by_contra hle
    rw [if_pos (Nat.not_lt.mp hle)] at hoverflow
    cases hoverflow
  have hmark : s.marks.lookup id = none := by
    cases hm : s.marks.lookup id with
    | none => rfl
    | some m =>
      rw [hm] at hinherited
      cases hinherited
  have hids : ∀ p ∈ s.pods, p.id ≠ id := by
    intro p hp hid
    have hany : (s.pods.any fun pod => pod.id = id) = true :=
      any_eq_true.mpr ⟨p, hp, decide_eq_true hid⟩
    rw [if_pos hany] at hshared
    cases hshared
  -- a pod with a new value of a field, behind pods whose values differ from each other
  have hnodup : ∀ {α : Type} (g : Claim → α) (new : Claim), (s.pods.map g).Nodup →
      (∀ p ∈ s.pods, g p ≠ g new) → ((s.pods ++ [new]).map g).Nodup := by
    intro α g new hold hnew
    rw [map_append]
    refine nodup_append.mpr ⟨hold, nodup_singleton _, ?_⟩
    exact forall_mem_map.mpr fun p hp => forall_mem_singleton.mpr (hnew p hp)
  refine h.carry (Nat.le_refl _) (Nat.le_succ _) (forall_mem_append.mpr ⟨?_, ?_⟩)
    (forall_mem_append.mpr ⟨?_, ?_⟩) ?_ (hnodup Claim.id _ h.ids hids)
  · exact fun p hp => .kept p p.deleting hp
  · exact forall_mem_singleton.mpr (.new id seconds hmark hfits)
  · exact fun p hp => Nat.lt_succ_of_lt (h.bounded p hp)
  · exact forall_mem_singleton.mpr (Nat.lt_succ_self _)
  · exact hnodup Claim.name _ h.names fun p hp => Nat.ne_of_lt (h.bounded p hp)

variable {name : Nat}

/-- A change of one pod that keeps its name and its id. -/
theorem Inv.change (h : Inv s) {f : Claim → Claim} (hname : ∀ p, (f p).name = p.name)
    (hid : ∀ p, (f p).id = p.id) (hf : ∀ p ∈ s.pods, p.name = name → Origin s (f p)) :
    Inv (s.change name f) := by
  have hmap : ∀ {α : Type} (g : Claim → α), (∀ p, g (f p) = g p) →
      (s.change name f).pods.map g = s.pods.map g := by
    intro α g hg
    rw [System.change, map_map]
    refine map_congr_left fun p _ => ?_
    change g (if p.name = name then f p else p) = g p
    split
    · exact hg p
    · rfl
  have hnames := hmap Claim.name hname
  have hids := hmap Claim.id hid
  refine h.carry (Nat.le_refl _) (Nat.le_refl _) ?_ ?_ (hnames ▸ h.names) (hids ▸ h.ids)
  · intro p hp
    obtain ⟨q, hq, rfl⟩ := mem_map.mp hp
    by_cases hqname : q.name = name
    · rw [if_pos hqname]
      exact hf q hq hqname
    · rw [if_neg hqname]
      exact .kept q q.deleting hq
  · intro p hp
    have hmem : p.name ∈ s.pods.map Claim.name := hnames ▸ mem_map_of_mem hp
    obtain ⟨q, hq, heq⟩ := mem_map.mp hmem
    exact heq ▸ h.bounded q hq

theorem Inv.terminate (h : Inv s) (name : Nat) : Inv (s.terminate name) :=
  h.change (fun _ => rfl) (fun _ => rfl) fun p hp _ => .kept p true hp

theorem Inv.request (h : Inv s) (he : troubles s (.request name) = []) :
    Inv (step s (.request name)).1 := by
  refine h.change (fun _ => rfl) (fun _ => rfl) fun p hp hname => .asked p hp ?_
  intro w hw q hq hsame
  by_contra hlt
  have hany : (w.ahead.any fun pod => pod.name = name) = true :=
    any_eq_true.mpr ⟨q, hq, decide_eq_true (hsame.symm.trans hname)⟩
  rw [troubles, hw] at he
  simp only [hany, Nat.not_le.mp hlt, decide_true, Bool.and_self, if_true] at he
  cases he

theorem Inv.reaper (h : Inv s) {marks : Objects Mark}
    (hmarked : ∀ id m, marks.lookup id = some m → ∀ p ∈ s.pods, p.id = id → m.About p)
    (hw : w.Sound { s with marks }) : Inv { s with marks, sweep := some w } := by
  refine ⟨h.bounded, h.names, h.ids, h.past, h.fits, hmarked, ?_⟩
  rintro _ ⟨⟩
  obtain ⟨hnow, hahead, hstage⟩ := hw
  refine ⟨hnow, hahead, ?_⟩
  cases hcase : w.stage <;> exact hcase ▸ hstage

theorem Inv.tick (h : Inv s) : Inv { s with sweep := some ⟨s.clock, s.pods, [], .scanning⟩ } := by
  refine h.reaper h.marked ⟨Nat.le_refl _, ?_, trivial⟩
  refine fun q hq => ⟨h.bounded q hq, fun p hp hname => ?_⟩
  obtain rfl := inj_on_of_nodup_map h.names hp hq hname
  exact ⟨rfl, rfl, (h.past p hp).1, (h.past p hp).2⟩

/-! ## The reaper's steps -/

/-- What `reap` does: nothing, a new mark, or a teardown. -/
theorem reap_cases (marks : Objects Mark) (pod : Claim) (reading : Option Nat) (now : Nat) :
    reap marks pod reading now = (marks, false) ∨
      (∃ n, reading = some n ∧
        reap marks pod reading now = (marks.insert pod.id ⟨n, now⟩, false)) ∨
      ∃ m, reading = some m.requests ∧ marks.lookup pod.id = some m ∧ pod.window < sub now m.since ∧
        reap marks pod reading now = (marks, true) := by
  unfold reap
  by_cases hwindow : pod.window ≤ 0
  · rw [if_pos hwindow]
    exact .inl rfl
  rw [if_neg hwindow]
  cases reading with
  | none => exact .inl rfl
  | some n =>
    cases hm : marks.lookup pod.id with
    | none => exact .inr (.inl ⟨n, rfl, rfl⟩)
    | some m =>
      by_cases hmoved : n ≠ m.requests
      · exact .inr (.inl ⟨n, rfl, if_pos hmoved⟩)
      simp only [if_neg hmoved]
      by_cases hidle : pod.window < sub now m.since
      · refine .inr (.inr ⟨m, ?_, rfl, hidle, ?_⟩)
        · rw [not_not.mp hmoved]
        · rw [decide_eq_true hidle]
      · exact .inl (by rw [decide_eq_false hidle])

theorem lookup_forget {marks : Objects Mark} {live : List String} {id : String}
    (h : (forget marks live).lookup id = some m) : marks.lookup id = some m := by
  have hfold : ∀ (gone : List String) (t : Objects Mark),
      (gone.foldl (fun t id => t.erase id) t).lookup id = some m → t.lookup id = some m := by
    intro gone
    induction gone with
    | nil => exact fun t ht => ht
    | cons k gone ih =>
      intro t ht
      have herase := ih (t.erase k) ht
      exact (Objects.lookup_of_erase herase).2
  exact hfold _ marks h

theorem count_eq_some {n : Nat} (h : s.count name = some n) :
    ∃ p ∈ s.pods, p.name = name ∧ p.requests.length = n := by
  obtain ⟨p, hp, hlen⟩ := Option.map_eq_some_iff.mp h
  have hname := find?_some hp
  exact ⟨p, mem_of_find?_eq_some hp, of_decide_eq_true hname, hlen⟩

/-- The pod whose counter a sweep has read is the one of the id. -/
theorem Inv.read (h : Inv s) (hw : w.Sound s) {pod : Claim} (hpod : pod ∈ w.ahead) {answers : Bool}
    {n : Nat} (hn : (if answers then s.count pod.name else none) = some n) :
    ∀ p ∈ s.pods, p.id = pod.id → p.requests.length = n ∧ AsListed w.now pod p := by
  cases answers with
  | false => cases hn
  | true =>
    obtain ⟨q, hq, hname, hlen⟩ := count_eq_some hn
    have hlisted := (hw.ahead pod hpod).2 q hq hname
    intro p hp hid
    obtain rfl := inj_on_of_nodup_map h.ids hp hq (hid.trans hlisted.id.symm)
    exact ⟨hlen, hlisted⟩

/-- A new mark counts requests up to the time of the sweep. -/
theorem AsListed.about {now : Nat} {listed : Claim} (h : AsListed now listed p) :
    (⟨p.requests.length, now⟩ : Mark).About p :=
  ⟨h.created, Nat.le_refl _, fun t ht => h.requests t (mem_of_mem_take ht)⟩

theorem window_eq_declared (h : p.declared < durations) : p.window = p.declared := by
  rw [Claim.declared, durations] at h
  rw [Claim.window, Claim.declared, durations, Int.bmod_eq_of_le (by omega) (by omega)]
  rfl

/-- A counter that has not moved since an old mark. -/
theorem Mark.About.rested (h : m.About p) (hfits : p.declared < durations)
    (hlen : p.requests.length = m.requests) {now read : Nat} (hidle : p.window < sub now m.since)
    (hread : now ≤ read) : Rested p read := by
  rw [window_eq_declared hfits, sub] at hidle
  have hbefore := h.before
  rw [← hlen, take_length] at hbefore
  have hcreated := h.created
  refine ⟨by omega, fun t ht => .inl ?_⟩
  have ht' := hbefore t ht
  omega

theorem Inv.visit (h : Inv s) (hw : s.sweep = some w) (pending answers : Bool) :
    Inv (visit s w pending answers) := by
  have hsound := h.swept w hw
  unfold Idle.visit
  cases hahead : w.ahead with
  | nil =>
    refine ⟨h.bounded, h.names, h.ids, h.past, h.fits, ?_, nofun⟩
    intro id m hm
    exact h.marked id m (lookup_forget hm)
  | cons pod rest =>
    have hpod : pod ∈ w.ahead := hahead ▸ mem_cons_self
    have hrest : ∀ q ∈ rest, q.name < s.next ∧
        ∀ p ∈ s.pods, p.name = q.name → AsListed w.now q p :=
      fun q hq => hsound.ahead q (hahead ▸ mem_cons_of_mem pod hq)
    by_cases hskip : (pod.deleting || pending) = true
    · simp only [if_pos hskip]
      exact h.reaper h.marked ⟨hsound.now, hrest, hsound.stage⟩
    simp only [if_neg hskip]
    -- no mark is touched, the counter has moved, or it has rested for the window
    rcases reap_cases s.marks pod (if answers then s.count pod.name else none) w.now with
      hsame | ⟨n, hn, hmoved⟩ | ⟨m, hn, hm, hidle, htorn⟩
    · rw [hsame]
      exact h.reaper h.marked ⟨hsound.now, hrest, trivial⟩
    · rw [hmoved]
      refine h.reaper ?_ ⟨hsound.now, hrest, trivial⟩
      intro id m hm p hp hid
      rcases Objects.lookup_insert_cases hm with ⟨hpodid, rfl⟩ | ⟨-, hold⟩
      · obtain ⟨hlen, hlisted⟩ := h.read hsound hpod hn p hp (hid.trans hpodid)
        exact hlen ▸ hlisted.about
      · exact h.marked id m hold p hp hid
    · rw [htorn]
      refine h.reaper h.marked ⟨hsound.now, hrest, Nat.le_refl _, by rw [hm]; rfl, ?_⟩
      intro p hp hid
      obtain ⟨hlen, hlisted⟩ := h.read hsound hpod hn p hp hid
      have hwindow : p.window = pod.window := by
        rw [Claim.window, Claim.window, hlisted.seconds]
      rw [← hwindow] at hidle
      exact (h.marked pod.id m hm p hp hid).rested (h.fits p hp) hlen hidle hsound.now

theorem Inv.stage (h : Inv s) (hw : s.sweep = some w) {stage : Stage} (hstage : stage.Sound s) :
    Inv { s with sweep := some { w with stage } } :=
  h.reaper h.marked ⟨(h.swept w hw).now, (h.swept w hw).ahead, hstage⟩

/-- A teardown deletes pods that have rested. -/
theorem Inv.teardown (h : Inv s) (hw : s.sweep = some w) (answer : Answer) :
    Inv (teardown s w answer).1 ∧ ∀ x ∈ (teardown s w answer).2, Rested x.pod x.read := by
  have hstage := (h.swept w hw).stage
  have hscanning : Inv { s with sweep := some { w with stage := .scanning } } := h.stage hw trivial
  unfold Idle.teardown
  cases hcase : w.stage with
  | scanning => exact ⟨h, nofun⟩
  -- the teardown goes by the id, which only the pod of the sweep has
  | listing id read =>
    rw [hcase] at hstage
    obtain ⟨hread, -, hrested⟩ := hstage
    cases answer with
    | refused | lost => exact ⟨hscanning, nofun⟩
    | through =>
      refine ⟨h.stage hw ⟨hread, fun name hname => ?_⟩, nofun⟩
      obtain ⟨q, hq, rfl⟩ := mem_map.mp hname
      obtain ⟨hmem, hid⟩ := mem_filter.mp hq
      refine ⟨h.bounded q hmem, fun p hp hsame => ?_⟩
      obtain rfl := inj_on_of_nodup_map h.names hp hmem hsame
      exact hrested p hp (of_decide_eq_true hid)
  | deleting names read =>
    rw [hcase] at hstage
    obtain ⟨hread, hrested⟩ := hstage
    cases names with
    | nil => exact ⟨hscanning, nofun⟩
    | cons name rest =>
      have hout : ∀ x ∈ (s.pods.filter fun p => p.name = name ∧ p.deleting = false).map
          fun p => (⟨p, read⟩ : TornDown), Rested x.pod x.read := by
        intro x hx
        obtain ⟨p, hp, rfl⟩ := mem_map.mp hx
        obtain ⟨hmem, hname⟩ := mem_filter.mp hp
        exact (hrested name mem_cons_self).2 p hmem (of_decide_eq_true hname).1
      have hgone : Inv (s.terminate name) := h.terminate name
      -- a pod that is being deleted has still rested
      have hleft : (Stage.deleting rest read).Sound (s.terminate name) := by
        have hstage' := (hgone.swept w hw).stage
        rw [hcase] at hstage'
        obtain ⟨hread', hrested'⟩ := hstage'
        exact ⟨hread', fun n hn => hrested' n (mem_cons_of_mem name hn)⟩
      cases answer with
      | refused => exact ⟨hscanning, nofun⟩
      | lost => exact ⟨hgone.stage hw trivial, hout⟩
      | through => exact ⟨hgone.stage hw hleft, hout⟩

theorem Inv.step (h : Inv s) {e : Event} (he : troubles s e = []) :
    Inv (step s e).1 ∧ ∀ x ∈ (step s e).2, Rested x.pod x.read := by
  cases e with
  | pass duration => exact ⟨h.pass duration, nofun⟩
  | create id seconds => exact ⟨h.create he, nofun⟩
  | request name => exact ⟨h.request he, nofun⟩
  | delete name => exact ⟨h.terminate name, nofun⟩
  | remove name => exact ⟨h.remove name, nofun⟩
  | tick =>
    rw [Idle.step]
    cases hw : s.sweep with
    | none => exact ⟨h.tick, nofun⟩
    | some w => exact ⟨h, nofun⟩
  | visit pending answers =>
    rw [Idle.step]
    cases hw : s.sweep with
    | none => exact ⟨h, nofun⟩
    | some w =>
      simp only
      split
      · exact ⟨h.visit hw pending answers, nofun⟩
      · exact ⟨h, nofun⟩
  | call answer =>
    rw [Idle.step]
    cases hw : s.sweep with
    | none => exact ⟨h, nofun⟩
    | some w => exact h.teardown hw answer

end

/-! ## Each trouble is enough -/

def fatalSweep : List Event :=
  [.tick, .visit false true, .call .through, .call .through]

/-- A run of each trouble.  The first sweep is at time 0. -/
def troubledRun : Trouble → List Event
  | .inherited =>
    [.create "x" 10, .tick, .visit false true, .visit false true, .pass 5000000000, .delete 0,
      .remove 0, .create "x" 10, .pass 6000000000] ++ fatalSweep
  | .shared =>
    [.create "x" 10, .create "x" 100, .tick, .visit false true, .visit false true,
      .visit false true, .pass 11000000000] ++ fatalSweep ++ [.call .through]
  | .slow =>
    [.create "x" 10, .tick, .pass 5000000000, .request 0, .visit false true, .visit false true,
      .pass 6000000000] ++ fatalSweep
  | .overflow =>
    [.create "x" 18446744074, .tick, .visit false true, .visit false true,
      .pass 1000000000] ++ fatalSweep

theorem troubledRun_only (t : Trouble) :
    Along (Only (· = t)) step System.init (troubledRun t) := by
  cases t <;> decide

theorem troubledRun_fails (t : Trouble) :
    ∃ x ∈ (run step System.init (troubledRun t)).2, ¬ Rested x.pod x.read := by
  cases t <;> decide

/-- **The reaper tears down idle claims only, in exactly the runs without trouble**: no claim is
    created under an id that still has a mark or a pod, a sweep reads the counters as of its own
    time, and the windows fit their type.  Each of the four alone lets it tear down a claim that is
    not idle. -/
theorem tearsDownIdle_iff (A : Trouble → Prop) : TearsDownIdle A ↔ ∀ t, ¬ A t := by
  constructor
  · intro h t ht
    obtain ⟨x, hx, hnot⟩ := troubledRun_fails t
    have honly := (troubledRun_only t).mono fun _ _ hsame t' ht' => hsame t' ht' ▸ ht
    exact hnot (h (troubledRun t) honly x hx)
  · intro hnone events honly
    have hstart : Inv System.init ∧ ∀ x ∈ ([] : List TornDown), Rested x.pod x.read :=
      ⟨inv_init, nofun⟩
    refine (run_invariant (fun s out => Inv s ∧ ∀ x ∈ out, Rested x.pod x.read) ?_ honly hstart).2
    rintro s out e he ⟨hs, hout⟩
    have hquiet : troubles s e = [] :=
      eq_nil_iff_forall_not_mem.mpr fun t ht => hnone t (he t ht)
    obtain ⟨hs', hnew⟩ := hs.step hquiet
    exact ⟨hs', forall_mem_append.mpr ⟨hout, hnew⟩⟩

/-- A sandbox with a window of 10 s is deleted at 5 s and created again under its id; the sweep at
    11 s finds the counter of the old one and tears the new one down, 6 s after its creation. -/
theorem recreated_claim_torn_down :
    (run step System.init
        [.create "x" 10, .tick, .visit false true, .visit false true, .pass 5000000000, .delete 0,
          .remove 0, .create "x" 10, .pass 6000000000, .tick, .visit false true, .call .through,
          .call .through]).2 =
      [⟨⟨1, "x", 10, 5000000000, [], false⟩, 11000000000⟩] ∧
      ¬ Rested ⟨1, "x", 10, 5000000000, [], false⟩ 11000000000 := by
  decide

end Orchestrator.Warm.Idle

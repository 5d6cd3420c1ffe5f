/-
  Orchestrator.Deployment.Kubernetes.Race

  Two `Apply` calls on one deployment at the same time, one API call a step.

  Each call relies on this of the other: it writes no spec but its own, it moves the
  latest revision only while the Secret holds its own spec, and Revisions stay as they
  were built.  Two of its own steps keep to that only with care (`careful`); both calls
  then end with a Secret and a head that belong together.
-/

import Orchestrator.Deployment.Kubernetes.Apply

namespace Orchestrator.Deployment

open Lib Lib.Proc Lib.Machine

def Cluster.HasBuilt (s : Cluster) (rev : String) (req : Request) : Prop :=
  ∃ r, s.revisions.lookup rev = some r ∧ r.builtFrom = req

/-- What the `Apply` of a request does to its deployment. -/
structure Moves (req : Request) (s s' : Cluster) : Prop where
  spec : s'.secrets.lookup req.id = s.secrets.lookup req.id ∨
    s'.secrets.lookup req.id = some req
  latest : ∀ rev, s.HasLatest req.id rev →
    s'.HasLatest req.id rev ∨ s'.secrets.lookup req.id = some req
  built : ∀ rev origin, s.HasBuilt rev origin → s'.HasBuilt rev origin

theorem Moves.refl (req : Request) (s : Cluster) : Moves req s s :=
  ⟨.inl rfl, fun _ h => .inl h, fun _ _ h => h⟩

theorem Moves.trans {req : Request} {s s' s'' : Cluster} (h : Moves req s s')
    (h' : Moves req s' s'') : Moves req s s'' := by
  have hkeep : s'.secrets.lookup req.id = some req → s''.secrets.lookup req.id = some req := by
    intro hspec
    rcases h'.spec with heq | heq
    · rw [heq, hspec]
    · exact heq
  refine ⟨?_, ?_, fun rev origin hb => h'.built rev origin (h.built rev origin hb)⟩
  · rcases h'.spec with heq | heq
    · rcases h.spec with heq' | heq'
      · exact .inl (heq.trans heq')
      · exact .inr (hkeep heq')
    · exact .inr heq
  · intro rev hrev
    rcases h.latest rev hrev with hrev' | hspec
    · exact h'.latest rev hrev'
    · exact .inr (hkeep hspec)

/-- A marker that was created still names its first revision as the latest. -/
def stillNamed (s : Cluster) : Call → Bool
  | .createMarker id m =>
    (s.markers.lookup id).any fun v => decide (v.value.latestRevision = m.latestRevision)
  | _ => true

/-- The calls of the `Apply` of a request that another `Apply` can spoil: a Revision that exists
    must be built from the request; after creating the marker the spec is written while the marker
    still names that revision; and the latest revision moves while the Secret holds the request. -/
def careful (req : Request) (log : List Call) (s : Cluster) : Call → Bool
  | .createRevision rev _ => (s.revisions.lookup rev).all fun r => decide (r.builtFrom = req)
  | .createSecret _ _ => log.all (stillNamed s)
  | .updateSecret _ _ => log.all (stillNamed s)
  | .updateMarker _ _ _ => decide (s.secrets.lookup req.id = some req)
  | _ => true

theorem hasLatest_of_stillNamed {s : Cluster} {id : String} {m : Marker}
    (h : stillNamed s (.createMarker id m) = true) : s.HasLatest id m.latestRevision := by
  rw [stillNamed, Option.any_eq_true] at h
  obtain ⟨v, hv, hlatest⟩ := h
  exact ⟨v, hv, of_decide_eq_true hlatest⟩

/-- The contract of the `Apply` of `req` next to that of `other`. -/
def raceTerms (req other : Request) : Terms where
  rely s s' := Later s s' ∧ Moves other s s'
  allowed log s k _ := careful req log s k = true
  guar s s' := Moves req s s'

theorem raceTerms_fair (req other : Request) : Fair (raceTerms req other) where
  refl s := ⟨Later.refl s, Moves.refl other s⟩
  trans _ _ _ h h' := ⟨h.1.trans h'.1, h.2.trans h'.2⟩
  later _ _ h := h.1
  still s := Moves.refl req s

/-- The call is through: its spec is the head, or the other's spec has replaced it. -/
def Through (req other : Request) (s : Cluster) : Prop :=
  s.secrets.lookup req.id = some other ∨
    (s.secrets.lookup req.id = some req ∧
      ∃ rev, s.HasLatest req.id rev ∧ s.HasBuilt rev req)

/-- The marker names the revision, unless the other's spec has been written. -/
def Names (req other : Request) (rev : String) (s : Cluster) : Prop :=
  s.HasLatest req.id rev ∨ s.secrets.lookup req.id = some other

/-- The marker names the revision and the Secret holds the request, unless the other's spec has
    been written. -/
def Holds (req other : Request) (rev : String) (s : Cluster) : Prop :=
  (s.HasLatest req.id rev ∧ s.secrets.lookup req.id = some req) ∨
    s.secrets.lookup req.id = some other

section

variable {req other : Request} (hid : other.id = req.id) {rev : String} {cfg : Config}
  {log : List Call} {s : Cluster}

theorem hasBuilt_stable : Stable (raceTerms req other) (fun s => s.HasBuilt rev req) :=
  fun _ _ h hb => h.2.built rev req hb

theorem Holds.through {s : Cluster} (h : Holds req other rev s) (hb : s.HasBuilt rev req) :
    Through req other s := by
  rcases h with ⟨hlatest, hspec⟩ | hspec
  · exact .inr ⟨hspec, rev, hlatest, hb⟩
  · exact .inl hspec

theorem Moves.of_eq {s s' : Cluster} (hmarkers : s'.markers = s.markers)
    (hsecrets : s'.secrets = s.secrets) (hrevisions : s'.revisions = s.revisions) :
    Moves req s s' := by
  refine ⟨.inl (by rw [hsecrets]), ?_, ?_⟩
  · rintro rev ⟨v, hv, hrev⟩
    exact .inl ⟨v, by rw [hmarkers, hv], hrev⟩
  · rintro rev origin ⟨r, hr, hb⟩
    exact ⟨r, by rw [hrevisions, hr], hb⟩

theorem moves_putRevision {r : Revision} (hnone : s.revisions.lookup rev = none) :
    Moves req s (s.putRevision rev r) := by
  refine ⟨.inl rfl, fun _ h => .inl h, ?_⟩
  rintro rev' origin ⟨r', hr', hb⟩
  have hne : rev' ≠ rev := by
    rintro rfl
    rw [hnone] at hr'
    cases hr'
  exact ⟨r', (AList.lookup_insert_ne hne).trans hr', hb⟩

theorem moves_putSecret : Moves req s (s.putSecret req.id req) :=
  ⟨.inr (AList.lookup_insert _), fun _ h => .inl h, fun _ _ h => h⟩

theorem hasLatest_putMarker {id : String} {v : Versioned Marker} :
    (s.putMarker id v).HasLatest id v.value.latestRevision :=
  ⟨v, AList.lookup_insert _, rfl⟩

/-- Ensuring a revision leaves one that was built from the request. -/
theorem race_ensureRevisionObjects {K : Cluster → Prop} (hK : Stable (raceTerms req other) K)
    (hrevisions : ∀ s r, K s → K (s.putRevision rev r))
    (hservices : ∀ s id, K s → K (s.putService rev id)) (hs : K s) :
    Meets serve (raceTerms req other) (fun _ _ s' => K s' ∧ s'.HasBuilt rev req)
      (ensureRevisionObjects req rev) log s := by
  refine meets_ensureRevisionObjects (K := K) (raceTerms_fair req other) hK
    (hK.and hasBuilt_stable) hs ?_ ?_ ?_
  · intro s' hk hnone _
    exact ⟨moves_putRevision hnone, hrevisions s' _ hk, _, AList.lookup_insert _, rfl⟩
  · rintro s' r hk hsome ⟨_, -, hcareful⟩
    have hbuilt : careful req log s' (.createRevision rev req) = true := hcareful
    rw [careful, hsome, Option.all_some, decide_eq_true_eq] at hbuilt
    exact ⟨hk, r, hsome, hbuilt⟩
  · rintro s' ⟨hk, hb⟩
    exact ⟨Moves.of_eq rfl rfl rfl, hservices s' _ hk, hb⟩

include hid

theorem Moves.other_stays {s s' : Cluster} (h : Moves other s s')
    (hspec : s.secrets.lookup req.id = some other) : s'.secrets.lookup req.id = some other := by
  have hmove := h.spec
  rw [hid] at hmove
  rcases hmove with heq | heq
  · rw [heq, hspec]
  · exact heq

theorem names_stable : Stable (raceTerms req other) (Names req other rev) := by
  intro s s' ⟨_, hmoves⟩ hnames
  rcases hnames with hlatest | hspec
  · have hmove := hmoves.latest rev
    rw [hid] at hmove
    exact hmove hlatest
  · exact .inr (hmoves.other_stays hid hspec)

theorem holds_stable : Stable (raceTerms req other) (Holds req other rev) := by
  intro s s' ⟨_, hmoves⟩ hholds
  rcases hholds with ⟨hlatest, hspec⟩ | hspec
  · have hmove := hmoves.latest rev
    have hwrite := hmoves.spec
    rw [hid] at hmove hwrite
    rcases hmove hlatest with hlatest' | hspec'
    · rcases hwrite with heq | heq
      · exact .inl ⟨hlatest', by rw [heq, hspec]⟩
      · exact .inr heq
    · exact .inr hspec'
  · exact .inr (hmoves.other_stays hid hspec)

theorem through_stable : Stable (raceTerms req other) (Through req other) := by
  intro s s' hrely hthrough
  rcases hthrough with hspec | ⟨hspec, rev, hlatest, hb⟩
  · exact .inl (hrely.2.other_stays hid hspec)
  · exact (holds_stable hid s s' hrely (.inl ⟨hlatest, hspec⟩)).through
      (hasBuilt_stable s s' hrely hb)

theorem race_ensureRoute {m : Marker} {targets : List Target} (hs : Through req other s) :
    Leaves (raceTerms req other) (Through req other)
      (ensureRoute cfg req.id m targets) log s :=
  meets_ensureRoute (raceTerms_fair req other) (through_stable hid) hs
    (fun _ _ hk _ _ => ⟨Moves.of_eq rfl rfl rfl, hk⟩)
    (fun _ _ hk _ => ⟨Moves.of_eq rfl rfl rfl, hk⟩)

theorem race_createFirstRevision :
    Leaves (raceTerms req other) (Through req other) (createFirstRevision cfg req) log s := by
  refine Meets.bind (Q := fun log' _ s' => Names req other (revisionName req.id 1) s' ∧
    .createMarker req.id ⟨req.hosts, revisionName req.id 1, "", .auto⟩ ∈ log')
    (meets_createMarker (raceTerms_fair req other) ?_) ?_
  · intro s' _ hnone _
    refine ⟨⟨.inl rfl, ?_, fun _ _ h => h⟩, .inl hasLatest_putMarker, by simp⟩
    rintro rev ⟨v, hv, -⟩
    rw [hnone] at hv
    cases hv
  intro log₁ _ s₁ ⟨hnames, hlog⟩
  refine Meets.bind (Q := fun _ _ s' => Holds req other (revisionName req.id 1) s')
    (meets_writeSpecJSON (raceTerms_fair req other) (names_stable hid) hnames ?_) ?_
  · rintro s' k log' hpre _ hk ⟨_, -, hcareful⟩
    have hall : log'.all (stillNamed s') = true := by
      rcases hk with rfl | rfl <;> exact hcareful
    have hlatest := hasLatest_of_stillNamed (List.all_eq_true.mp hall _ (hpre.subset hlog))
    exact ⟨moves_putSecret, .inl ⟨hlatest, AList.lookup_insert _⟩⟩
  intro log₂ _ s₂ hholds
  refine Meets.bind (race_ensureRevisionObjects (holds_stable hid) (fun _ _ h => h)
    (fun _ _ h => h) hholds) ?_
  intro log₃ _ s₃ ⟨hholds', hb⟩
  exact race_ensureRoute hid (hholds'.through hb)

theorem race_mintNextRevision {m : Marker} :
    Leaves (raceTerms req other) (Through req other) (mintNextRevision cfg req m) log s := by
  rw [mintNextRevision]
  refine Meets.bind (race_ensureRevisionObjects (K := fun _ => True) (fun _ _ _ h => h)
    (fun _ _ h => h) (fun _ _ h => h) trivial) ?_
  rintro log₁ _ s₁ ⟨-, hb⟩
  refine Meets.bind (Q := fun _ _ s' =>
    s'.HasBuilt (revisionName req.id (revisionNumber m.latestRevision + 1)) req)
    (meets_writeSpecJSON (raceTerms_fair req other) hasBuilt_stable hb ?_) ?_
  · intro s' k log' _ hb' _ _
    exact ⟨moves_putSecret, hb'⟩
  intro log₂ _ s₂ hb₂
  refine Meets.bind (Q := fun _ _ s' => Through req other s')
    (meets_updateMarker (raceTerms_fair req other) hasBuilt_stable hb₂ ?_) ?_
  · rintro s' v log' hb' _ ⟨_, -, hcareful⟩
    have hspec : s'.secrets.lookup req.id = some req := of_decide_eq_true hcareful
    refine ⟨⟨.inl rfl, fun _ _ => .inr hspec, fun _ _ h => h⟩, ?_⟩
    exact .inr ⟨hspec, _, hasLatest_putMarker, hb'⟩
  intro log₃ _ s₃ hthrough
  exact race_ensureRoute hid hthrough

/-- **An `Apply` that returns nil is through**, whatever the other one does meanwhile. -/
theorem race_apply (hne : req ≠ other) :
    Leaves (raceTerms req other) (Through req other) (apply cfg req)
      log s := by
  refine meets_apply (K := fun _ => True) (raceTerms_fair req other) (fun _ _ _ h => h) trivial
    (fun _ _ _ _ => race_createFirstRevision hid) ?_
    (fun _ _ _ _ _ _ _ _ => race_mintNextRevision hid)
  intro log' s₁ s₂ v _ hrely hv hspec
  -- the Secret holds the request, so the marker that was read is still stored
  have hnames := names_stable hid s₁ s₂ hrely (.inl ⟨v, hv, rfl⟩)
  have hholds : Holds req other v.value.latestRevision s₂ := by
    rcases hnames with hlatest | hother
    · exact .inl ⟨hlatest, hspec⟩
    · rw [hspec] at hother
      exact absurd (Option.some.inj hother) hne
  refine Meets.bind (race_ensureRevisionObjects (holds_stable hid) (fun _ _ h => h)
    (fun _ _ h => h) hholds) ?_
  intro log₁ _ s₃ ⟨hholds', hb⟩
  exact race_ensureRoute hid (hholds'.through hb)

end

/-! ## The two calls -/

inductive Side (a b : Request) : Nat → Request → Request → Prop where
  | first : Side a b 0 a b
  | second : Side a b 1 b a

def raceContract (a b : Request) (task : Task) : Terms :=
  if task = .apply a then raceTerms a b else raceTerms b a

def racePost (a b : Request) (task : Task) (r : Option AppError) (s : Cluster) : Prop :=
  r = none → if task = .apply a then Through a b s else Through b a s

/-- Only the two calls run, and one that has returned nil is through. -/
structure Racing (a b : Request) (w : DeploymentWorld)
    (out : List (Returned Task (Option AppError))) : Prop where
  held : World.Held serve (raceContract a b) (racePost a b) w
  running : ∀ i r, w.running i = some r → ∃ req other, Side a b i req other ∧ r.task = .apply req
  returned : ∀ i req other, Side a b i req other → ⟨.apply req, none⟩ ∈ out →
    w.running i = none ∧ Through req other w.state

/-- A call of the program with a number, made with care. -/
def raceCareful (w : DeploymentWorld) (c : Nat × Fate) : Bool :=
  match w.running c.1 with
  | some ⟨.apply req, log, .call k _⟩ => careful req log w.state k
  | _ => true

/-- The program with a number makes its next call. -/
def raceStep (cfg : Config) (w : DeploymentWorld) (c : Nat × Fate) :
    DeploymentWorld × List (Returned Task (Option AppError)) :=
  World.step serve (program cfg) w (.advance c.1 c.2)

section

variable {a b : Request} {cfg : Config} {w : DeploymentWorld}
  {out : List (Returned Task (Option AppError))}

variable {i j : Nat} {req req' other other' : Request}

theorem Side.choose (h : Side a b i req other) (hne : a ≠ b) {α : Sort*}
    (f : Request → Request → α) :
    (if Task.apply req = .apply a then f a b else f b a) = f req other := by
  cases h with
  | first => exact if_pos rfl
  | second => exact if_neg (by simp [Ne.symm hne])

theorem Side.contract (h : Side a b i req other) (hne : a ≠ b) :
    raceContract a b (.apply req) = raceTerms req other :=
  h.choose hne raceTerms

theorem raceContract_fair (task : Task) : Fair (raceContract a b task) := by
  rw [raceContract]
  split <;> exact raceTerms_fair _ _

theorem Side.eq (h : Side a b i req other) (h' : Side a b j req' other') (hne : a ≠ b) :
    (i = j ∧ req = req' ∧ other = other') ∨ (i ≠ j ∧ req = other' ∧ other = req' ∧ req ≠ req') := by
  cases h <;> cases h'
  · exact .inl ⟨rfl, rfl, rfl⟩
  · exact .inr ⟨by decide, rfl, rfl, hne⟩
  · exact .inr ⟨by decide, rfl, rfl, hne.symm⟩
  · exact .inl ⟨rfl, rfl, rfl⟩

theorem Side.id_eq (h : Side a b i req other) (hid : a.id = b.id) : other.id = req.id := by
  cases h with
  | first => exact hid.symm
  | second => exact hid

theorem Racing.obeys (h : Racing a b w out) (hne : a ≠ b) {c : Nat × Fate}
    (hcareful : raceCareful w c = true) :
    w.Obeys serve (raceContract a b) (racePost a b) (program cfg) (.advance c.1 c.2) := by
  intro task log k next hrun
  obtain ⟨req, other, hside, htask⟩ := h.running c.1 _ hrun
  simp only at htask
  subst htask
  rw [hside.contract hne]
  rw [raceCareful, hrun] at hcareful
  exact hcareful

/-- One call: what had returned stays through, and what returns now is. -/
theorem Racing.step (h : Racing a b w out) (hid : a.id = b.id) (hne : a ≠ b) {c : Nat × Fate}
    (hcareful : raceCareful w c = true) :
    Racing a b (raceStep cfg w c).1 (out ++ (raceStep cfg w c).2) := by
  have hobeys : w.Obeys serve (raceContract a b) (racePost a b) (program cfg) (.advance c.1 c.2) :=
    h.obeys hne hcareful
  have hlaw : ∀ task, (raceContract a b task).Lawful := fun task => (raceContract_fair task).toLawful
  have hheld := h.held.step hlaw hobeys
  rcases World.advance_cases serve (program cfg) w c.1 c.2 with ⟨task, log, k, next, hrun⟩ | hidle
  · obtain ⟨req, other, hside, htask⟩ := h.running c.1 _ hrun
    simp only at htask
    subst htask
    have hguar := (h.held.call hlaw hrun hobeys).1
    rw [hside.contract hne] at hguar
    refine ⟨hheld, ?_, ?_⟩
    · intro i r hi
      rw [raceStep, World.step_advance hrun] at hi
      rcases World.settle_running hi with ⟨rfl, rfl, -⟩ | ⟨-, hi'⟩
      · exact ⟨req, other, hside, rfl⟩
      · exact h.running i r hi'
    · intro i req' other' hside' hmem
      -- what one call has left stays, as the other one keeps to its contract
      rcases List.mem_append.mp hmem with hold | hnew
      · obtain ⟨hnone, hthrough⟩ := h.returned i req' other' hside' hold
        have hrely : (raceTerms req' other').rely w.state (serve w.state k c.2).2 := by
          rcases hside.eq hside' hne with ⟨rfl, -, -⟩ | ⟨-, rfl, -, -⟩
          · rw [hrun] at hnone
            cases hnone
          · exact ⟨serve_later _ _ _, hguar⟩
        rw [raceStep, World.step_advance hrun]
        refine ⟨?_, ?_⟩
        · cases hi : (World.settle _ c.1 _).1.running i with
          | none => rfl
          | some r =>
            rcases World.settle_running hi with ⟨rfl, -, -⟩ | ⟨-, hi'⟩
            · rw [hrun] at hnone
              cases hnone
            · rw [hnone] at hi'
              cases hi'
        · rw [World.settle_state]
          exact through_stable (hside'.id_eq hid) _ _ hrely hthrough
      -- the call that returns now has what its own contract promises
      · have hpost := h.held.returned hlaw hobeys hnew
        refine ⟨?_, (hside'.choose hne (Through · · _)).mp (hpost rfl)⟩
        rw [raceStep, World.step_advance hrun] at hnew ⊢
        obtain ⟨-, htask, hdone⟩ := World.settle_returned hnew
        have hreq : req' = req := by injection htask
        rcases hside.eq hside' hne with ⟨rfl, -, -⟩ | ⟨-, -, -, hdiff⟩
        · exact hdone
        · exact absurd hreq.symm hdiff
  · rw [raceStep, hidle, List.append_nil]
    exact h

/-- Both calls have been started, and none has called yet. -/
def bothStarted (cfg : Config) (a b : Request) (s : Cluster) : DeploymentWorld :=
  (run (World.step serve (program cfg)) (World.init s) [.start (.apply a), .start (.apply b)]).1

theorem raceContract_compatible (hne : a ≠ b) (h : Side a b i req other)
    (h' : Side a b j req' other') (hij : i ≠ j) :
    Compatible serve (raceContract a b) (.apply req) (.apply req') := by
  intro s k f hguar
  rw [h.contract hne] at hguar
  rw [h'.contract hne]
  rcases h.eq h' hne with ⟨hsame, -, -⟩ | ⟨-, rfl, -, -⟩
  · exact absurd hsame hij
  · exact ⟨serve_later s k f, hguar⟩

theorem safe_raceApply (hid : a.id = b.id) (hne : a ≠ b) (h : Side a b i req other) (s : Cluster) :
    Safe serve (raceContract a b (.apply req)) (fun _ r s => racePost a b (.apply req) r s)
      (program cfg (.apply req)) [] s := by
  have happly : Leaves (raceTerms req other) (Through req other) (apply cfg req) [] s := by
    refine race_apply (h.id_eq hid) ?_
    cases h with
    | first => exact hne
    | second => exact hne.symm
  rw [h.contract hne]
  refine (safe_errorOf happly).mono ?_
  intro log r s' hr hnone
  exact (h.choose hne (Through · · s')).mpr (hr hnone)

theorem bothStarted_racing (hid : a.id = b.id) (hne : a ≠ b) (s : Cluster) :
    Racing a b (bothStarted cfg a b s) [] := by
  have hlaw : ∀ task, (raceContract a b task).Lawful := fun task => (raceContract_fair task).toLawful
  let w₀ : DeploymentWorld := World.init s
  let w₁ : DeploymentWorld := (World.step serve (program cfg) w₀ (.start (.apply a))).1
  have hw₁ : w₁.next = 1 ∧ w₁.state = s := ⟨World.settle_next .., World.settle_state ..⟩
  have hrun₁ : ∀ i r, w₁.running i = some r → i = 0 ∧ r.task = .apply a := by
    intro i r hi
    rcases World.settle_running hi with ⟨hi', rfl, -⟩ | ⟨-, hi'⟩
    · exact ⟨hi', rfl⟩
    · cases hi'
  have hheld₁ : World.Held serve (raceContract a b) (racePost a b) w₁ :=
    (World.init_held s).step hlaw ⟨safe_raceApply hid hne .first s, fun i r hi => by cases hi⟩
  refine ⟨hheld₁.step hlaw ⟨safe_raceApply hid hne .second _, ?_⟩, ?_, ?_⟩
  · intro i r hi
    obtain ⟨-, htask⟩ := hrun₁ i r hi
    rw [htask]
    exact ⟨raceContract_compatible hne .second .first (by decide),
      raceContract_compatible hne .first .second (by decide)⟩
  · intro i r hi
    rcases World.settle_running hi with ⟨hi', rfl, -⟩ | ⟨-, hi'⟩
    · rw [hi', hw₁.1]
      exact ⟨b, a, .second, rfl⟩
    · obtain ⟨hi₀, htask⟩ := hrun₁ i r hi'
      rw [hi₀]
      exact ⟨a, b, .first, htask⟩
  · nofun

/-- **Two careful `Apply` calls leave a Secret and a head that belong together**: over every
    interleaving of their API calls, if both return nil. -/
theorem race_settles (cfg : Config) (a b : Request) (hid : a.id = b.id) (hne : a ≠ b) (s : Cluster)
    (calls : List (Nat × Fate))
    (hcareful : Along (fun w c => raceCareful w c = true) (raceStep cfg) (bothStarted cfg a b s) calls)
    (hfirst : ⟨.apply a, none⟩ ∈ (run (raceStep cfg) (bothStarted cfg a b s) calls).2)
    (hsecond : ⟨.apply b, none⟩ ∈ (run (raceStep cfg) (bothStarted cfg a b s) calls).2) :
    ∃ req, (req = a ∨ req = b) ∧
      Applied (run (raceStep cfg) (bothStarted cfg a b s) calls).1.state req := by
  have hracing := run_invariant (Racing a b) (fun w out c hc hr => hr.step hid hne hc) hcareful
    (bothStarted_racing hid hne s)
  rw [List.nil_append] at hracing
  obtain ⟨-, hthrough⟩ := hracing.returned 0 a b .first hfirst
  obtain ⟨-, hthrough'⟩ := hracing.returned 1 b a .second hsecond
  rcases hthrough with hspec | ⟨hspec, rev, ⟨v, hv, rfl⟩, r, hr, hb⟩
  · rcases hthrough' with hspec' | ⟨hspec', rev, ⟨v, hv, rfl⟩, r, hr, hb⟩
    · rw [← hid, hspec] at hspec'
      exact absurd (Option.some.inj hspec').symm hne
    · exact ⟨b, .inr rfl, ⟨v, r, hv, hr, hb⟩, hspec'⟩
  · exact ⟨a, .inl rfl, ⟨v, r, hv, hr, hb⟩, hspec⟩

end

def webCluster : Cluster :=
  (run (applyStep gatewayConfig) emptyCluster [⟨webRequest "a", fun _ _ => .through⟩]).1

/-- The call with a number makes its next calls, and all go through. -/
def turn (i n : Nat) : List (Nat × Fate) := List.replicate n (i, .through)

/-- The second call runs while the first has only its route left. -/
theorem race_settles_overlapping :
    ∃ req, (req = webRequest "b" ∨ req = webRequest "c") ∧
      Applied (run (raceStep gatewayConfig)
        (bothStarted gatewayConfig (webRequest "b") (webRequest "c") webCluster)
        (turn 0 8 ++ turn 1 9 ++ turn 0 1)).1.state req :=
  race_settles gatewayConfig (webRequest "b") (webRequest "c") (by decide) (by decide) webCluster
    (turn 0 8 ++ turn 1 9 ++ turn 0 1) (by decide) (by decide) (by decide)

/-- Both calls read the marker before either has moved it: they ensure one revision, and the one
    that writes the Secret last did not build it. -/
theorem race_mismatch :
    let w := run (raceStep gatewayConfig)
      (bothStarted gatewayConfig (webRequest "b") (webRequest "c") webCluster)
      (turn 0 4 ++ turn 1 5 ++ turn 0 5 ++ turn 1 5)
    w.2 = [⟨.apply (webRequest "b"), none⟩, ⟨.apply (webRequest "c"), none⟩] ∧
      (w.1.state.markers.lookup "web").map (·.value.latestRevision) = some "web-00002" ∧
      (w.1.state.revisions.lookup "web-00002").map Revision.builtFrom = some (webRequest "b") ∧
      w.1.state.secrets.lookup "web" = some (webRequest "c") := by
  decide

end Orchestrator.Deployment

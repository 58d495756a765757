import PlanarSketch.Proofs.LeastSquares.Solve
import PlanarSketch.Proofs.Session.Radii

/-!
When a solve succeeds. A solution that meets the constraints is rejected exactly if it gives a
negative radius to a circle or arc that the solver looks at. These are not all that there are: the
solver looks at what some constraint has named by id since the last clear. A circle that is reached
by a reference to its radius, or by no constraint at all, may end up inverted in a success.
-/

namespace PlanarSketch

open LeastSquares

namespace LeastSquares

variable {α : Type} [Scalar α] {s : LeastSquares α} {error : α} {solution : Array α} {d : Diagnosis}

theorem classify_of_met (h : d.conflicting = [] ∧ error ≤ s.config.convergence) :
    s.classify error solution d =
      if s.radii.any fun r => System.read solution r < 0.0 then .invalid else .success := by
  simp [classify, h.1, h.2]

theorem classify_of_unmet (h : ¬ (d.conflicting = [] ∧ error ≤ s.config.convergence))
    (x : Array α) : s.classify error x d = .failed ∨ s.classify error x d = .converged := by
  by_cases hconflict : d.conflicting = []
  · have herror : ¬ error ≤ s.config.convergence := fun herror => h ⟨hconflict, herror⟩
    rw [classify, hconflict, if_neg (by simp), if_neg herror]
    by_cases hrelaxed : error ≤ s.config.convergence * relaxation
    · exact .inr (if_pos hrelaxed)
    · exact .inl (if_neg hrelaxed)
  · exact .inl (if_pos (by simpa using hconflict))

theorem classify_eq_success : s.classify error solution d = .success ↔
    (d.conflicting = [] ∧ error ≤ s.config.convergence) ∧ ¬ s.Inverted solution := by
  by_cases hmet : d.conflicting = [] ∧ error ≤ s.config.convergence
  · rw [classify_of_met hmet, ← any_iff_inverted, and_iff_right hmet]
    simp
  · rcases classify_of_unmet hmet solution with hfailed | hconverged
    · simp [hmet, hfailed]
    · simp [hmet, hconverged]

theorem classify_eq_invalid : s.classify error solution d = .invalid ↔
    (d.conflicting = [] ∧ error ≤ s.config.convergence) ∧ s.Inverted solution := by
  by_cases hmet : d.conflicting = [] ∧ error ≤ s.config.convergence
  · rw [classify_of_met hmet, ← any_iff_inverted, and_iff_right hmet]
    simp
  · rcases classify_of_unmet hmet solution with hfailed | hconverged
    · simp [hmet, hfailed]
    · simp [hmet, hconverged]

end LeastSquares

namespace Session

variable {α : Type} [Scalar α] [Decompositions α] {s t u : Session (LeastSquares α) α} {id : Oid} {a : Nat}

/-- After a solve no constraints conflict and the driving ones hold within the threshold. -/
def Meets (s : Session (LeastSquares α) α) (algorithm : Algorithm) : Prop :=
  (s.solveWith algorithm).2.solver.diagnosis.conflicting = [] ∧
    (s.solver.descend algorithm).error ≤ s.solver.config.convergence

/-- A solve finds this radius for the circle or arc under an id. -/
def FindsRadius (s : Session (LeastSquares α) α) (algorithm : Algorithm) (id : Oid) (v : α) :
    Prop :=
  ∃ a, s.RadiusAt id a ∧ (s.solveWith algorithm).2.solver.found? a = some v

/-- Radii are unknowns, so a solve finds them. -/
theorem RadiusAt.found? (hs : Sound s) (h : s.RadiusAt id a) (algorithm : Algorithm) :
    (s.solveWith algorithm).2.solver.found? a =
      some (System.read (s.solver.solution algorithm) a) := by
  change (s.solver.solve algorithm).2.found? a = _
  rw [found?_solve, if_pos (List.mem_append_left _ (h.mem_unknowns hs))]

theorem RadiusAt.findsRadius_iff (hs : Sound s) (h : s.RadiusAt id a) (algorithm : Algorithm)
    {v : α} :
    s.FindsRadius algorithm id v ↔ v = System.read (s.solver.solution algorithm) a := by
  constructor
  · rintro ⟨b, hb, hfound⟩
    obtain rfl := h.unique hb
    exact Option.some.inj (hfound.symm.trans (h.found? hs algorithm))
  · rintro rfl
    exact ⟨a, h, h.found? hs algorithm⟩

/-- The radii that the solver looks at are those that the sketch has at the circles and arcs that
it checks. -/
theorem Reachable.inverted_iff (h : Reachable s) (algorithm : Algorithm) :
    s.solver.Inverted (s.solver.solution algorithm) ↔
      ∃ id v, s.Checks id ∧ s.FindsRadius algorithm id v ∧ v < 0.0 := by
  constructor
  · rintro ⟨a, ha, hneg⟩
    obtain ⟨id, hradius⟩ := h.radiusAt a ha
    exact ⟨id, _, ⟨a, ha, hradius⟩, (hradius.findsRadius_iff h.sound algorithm).2 rfl, hneg⟩
  · rintro ⟨id, v, ⟨a, ha, hradius⟩, hv, hneg⟩
    obtain rfl := (hradius.findsRadius_iff h.sound algorithm).1 hv
    exact ⟨a, ha, hneg⟩

theorem Reachable.apart (h : Reachable s) : Apart s := by
  obtain ⟨s₀, es, hfresh, hrun⟩ := h.exists_run
  refine hrun.invariant (P := fun _ t => Apart t) hfresh.sound ?_ fun es t es' u ht hapart hmove =>
    hapart.move ht hmove
  cases hfresh <;> exact .of_empty rfl rfl rfl

theorem Reachable.radiusAt_inj (h : Reachable s) {id' : Oid} (hid : s.RadiusAt id a)
    (hid' : s.RadiusAt id' a) : id = id' := by
  obtain ⟨o, rfl, -, ho⟩ := hid.owned h.sound.toAnchored
  obtain ⟨o', rfl, -, ho'⟩ := hid'.owned h.sound.toAnchored
  rw [h.apart.owners ho ho']

/-- Whatever else a session is asked, a circle or arc is looked at only after a constraint has
named it by id. -/
theorem Reachable.checks_perform (h : Reachable s) {r : Request α}
    (hchecks : (s.perform r).Checks id) :
    s.Checks id ∨ ∃ c ∈ r.constraints, id ∈ c.handed := by
  obtain ⟨a, ha, hradius⟩ := hchecks
  have hr : r ≠ .clear := by
    rintro rfl
    cases ha
  have hlater : Reachable (s.perform r) := h.perform r
  rcases h.sound.mem_radii_perform r ha with hold | ⟨c, hc, id', hid', hradius'⟩
  · obtain ⟨id', hradius'⟩ := h.radiusAt a hold
    obtain rfl := hlater.radiusAt_inj hradius (hradius'.perform h.sound hr)
    exact .inl ⟨a, hold, hradius'⟩
  · obtain rfl := hlater.radiusAt_inj hradius hradius'
    exact .inr ⟨c, hc, hid'⟩

/-- A constraint that is taken has the circles and arcs that it names looked at from then on. -/
theorem Sound.checks_of_push (hs : Sound s) {c : Constraint α}
    (hpush : s.push (.constraint c) = (.ok (), t) ∨ s.pushExtra c = (.ok (), t))
    (hid : id ∈ c.handed) (hradius : s.RadiusAt id a) (hu : Later t u) : u.Checks id := by
  have ⟨g, hg, ha⟩ := hradius
  have htaken : Step s t ∧ a ∈ t.solver.radii := by
    rcases hpush with hpush | hpush
    · have hstep := step_push hs.toAnchored (.constraint c)
      rw [hpush] at hstep
      refine ⟨hstep, ?_⟩
      rcases push_guard s (.constraint c) with ⟨e, hguard⟩ | ⟨hfresh, hc⟩
      · cases hpush.symm.trans hguard
      rcases pushConstraint_cases hfresh hc with ⟨e, -, hcase⟩ |
        ⟨tag, -, ⟨e, -, hcase⟩ | ⟨outputs, t', hok, hcase, hsolver, -⟩⟩
      · cases hpush.symm.trans hcase
      · cases hpush.symm.trans hcase
      · cases hpush.symm.trans hcase
        rw [hsolver]
        exact Constraint.mem_radii_push (Prod.ext hok rfl) hid hg ha
    · have hstep := step_pushExtra s c
      rw [hpush] at hstep
      refine ⟨hstep, ?_⟩
      rcases s.pushExtra_cases c with hcase | ⟨e, solver, -, hcase⟩ |
        ⟨outputs, solver, -, hcall, hcase⟩
      · cases hpush.symm.trans hcase
      · cases hpush.symm.trans hcase
      · cases hpush.symm.trans hcase
        exact Constraint.mem_radii_push hcall hid hg ha
  have ht := hs.step htaken.1
  exact ⟨a, hu.subset_radii ht htaken.2, hu.radiusAt ht (hradius.step hs.toAnchored htaken.1)⟩

/-- A solve finds a radius for every circle and arc. What meets the constraints is a success unless
one of those radii that the solver looks at is negative. It looks at the circles and arcs that a
constraint which was taken has named by id, and at no others but those that a constraint which was
refused has named so. -/
theorem Reachable.success_iff (h : Reachable s) (algorithm : Algorithm) :
    (∀ id a, s.RadiusAt id a → ∃ v, s.FindsRadius algorithm id v) ∧
    ((s.solveWith algorithm).1 = .success ↔ s.Meets algorithm ∧
      ∀ id v, s.Checks id → s.FindsRadius algorithm id v → ¬ v < 0.0) ∧
    ((s.solveWith algorithm).1 = .invalid ↔ s.Meets algorithm ∧
      ∃ id v, s.Checks id ∧ s.FindsRadius algorithm id v ∧ v < 0.0) ∧
    (∀ c t, s.push (.constraint c) = (.ok (), t) ∨ s.pushExtra c = (.ok (), t) →
      ∀ id ∈ c.handed, ∀ a, s.RadiusAt id a → ∀ u, Later t u → u.Checks id) ∧
    ∀ r id, (s.perform r).Checks id → s.Checks id ∨ ∃ c ∈ r.constraints, id ∈ c.handed := by
  have hs := h.sound
  refine ⟨fun id a ha => ⟨_, (ha.findsRadius_iff hs algorithm).2 rfl⟩, ?_, ?_,
    fun c t hpush id hid a ha u hu => hs.checks_of_push hpush hid ha hu,
    fun r id hchecks => h.checks_perform hchecks⟩
  · change (s.solver.solve algorithm).1 = .success ↔ _
    rw [status_solve, classify_eq_success, h.inverted_iff algorithm]
    simp only [not_exists, not_and]
    rfl
  · change (s.solver.solve algorithm).1 = .invalid ↔ _
    rw [status_solve, classify_eq_invalid, h.inverted_iff algorithm]
    rfl

/-- A circle around the free point, turned inside out. -/
def circleSession : Session (LeastSquares Float) Float :=
  smallSession.perform (.push (.geometry ⟨⟨3⟩, .circle ⟨1⟩ (-1.0)⟩))

/-- Gives the circle a negative radius by a reference to the radius. -/
def radiusByReference : Constraint Float :=
  { Constraint.new ⟨4⟩ .equal with
    params := .ofList [("param1", .ref ⟨⟨3⟩, .radius⟩), ("param2", .number (-2.0))] }

/-- Gives it the same radius by its id. -/
def radiusById : Constraint Float :=
  { Constraint.new ⟨5⟩ .circleRadius with
    params := .ofList [("c_id", .number 3.0), ("radius", .number (-2.0))] }

/-- The inverted circle passes until a constraint names it. -/
theorem success_circleSession :
    let s := circleSession.perform (.push (.constraint radiusByReference))
    let t := s.perform (.push (.constraint radiusById))
    (s.solveWith .dogLeg).1 = .success ∧ ¬ s.Checks ⟨3⟩ ∧
      (∃ v, s.FindsRadius .dogLeg ⟨3⟩ v ∧ v < 0.0) ∧
      (t.solveWith .dogLeg).1 = .invalid ∧ t.Checks ⟨3⟩ := by
  intro s t
  have hs : Reachable s := (reachable_smallSession.perform _).perform _
  have hsuccess : (s.solveWith .dogLeg).1 = .success := by decide +kernel
  have hradius : s.RadiusAt ⟨3⟩ 5 := ⟨_, rfl, rfl⟩
  have hfinds := (hradius.findsRadius_iff hs.sound .dogLeg).2 rfl
  have hneg : System.read (s.solver.solution .dogLeg) 5 < 0.0 := by decide +kernel
  obtain ⟨-, hiff, -, htaken, -⟩ := hs.success_iff .dogLeg
  refine ⟨hsuccess, fun hchecks => ?_, ⟨_, hfinds, hneg⟩, by decide +kernel, ?_⟩
  · exact (hiff.1 hsuccess).2 ⟨3⟩ _ hchecks hfinds hneg
  · have hpush : s.push (.constraint radiusById) = (.ok (), t) := Prod.ext rfl rfl
    exact htaken radiusById t (.inl hpush) ⟨3⟩ (by decide +kernel) 5 hradius t .refl

end Session

end PlanarSketch

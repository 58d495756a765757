import PlanarSketch.Proofs.LeastSquares.Fit
import PlanarSketch.Proofs.Session.Agreement
import PlanarSketch.Proofs.Session.FixedPoint

/-!
When the measurements of a sketch are true. A solve that is reported successful has met the driving
constraints; how well the measuring constraints have been fitted afterwards is not part of the
report. What stands in a measuring constraint once the solution is applied is the number at which
the fit has ended, and it measures the solved geometry as far as the error of the fit is small for
the scale of the constraint. For a constraint that is the only one to measure this is exact.
-/

namespace PlanarSketch

open LeastSquares

variable {α : Type}

namespace Session

section

variable [Scalar α] {s t u : Session (LeastSquares α) α} {id : Oid} {c c₀ : Constraint α}
  {s₀ w : Session (LeastSquares α) α} {ns : List String}

/-- What is a constraint after a solution has been applied was one before, and only its parameters
have been written. -/
theorem constraint_of_applied (hget : t.applied.index.get? id = some (.constraint c)) :
    ∃ c₁, t.index.get? id = some (.constraint c₁) ∧
      Primitive.Reread (.constraint c₁) (.constraint c) := by
  have hreread := (t.written.get?_readBack id).symm.trans hget
  obtain ⟨p, hp, heq⟩ := Option.map_eq_some_iff.1 hreread
  have hrel := t.written.rereads id p
  rw [heq] at hrel
  cases hrel with
  | constraint c₁ params => exact ⟨c₁, hp, .constraint c₁ params⟩

variable [Decompositions α]

/-- A constraint that measures has its entry, and after a solution has been applied the numbers
among its parameters are those in the datums that the entry reads. -/
theorem Origin.measures_applied (h : Origin s₀ c₀ w ns t) (ht : Reachable t)
    (hget : t.applied.index.get? c₀.id = some (.constraint c)) (hc : c.isDriving = false) :
    ∃ e ∈ t.solver.entries, e.Belongs c ∧
      (∀ e' ∈ t.solver.entries, e'.Belongs c → e' = e) ∧ t.applied.Measures c₀ e c.params := by
  obtain ⟨es, hl⟩ := ht.exists_ledger
  obtain ⟨es₀, hl₀⟩ := h.reachable.exists_ledger
  obtain ⟨e, hbelongs, hstands, hreads, hrecords⟩ :=
    h.reachable.sound.records_of_push hl₀ h.push
  have hw : Reachable w := by
    have hlater := h.reachable.perform (.push (.constraint c₀))
    rwa [Session.perform, h.push] at hlater
  obtain ⟨c₁, hget₁, happlied⟩ := constraint_of_applied hget
  obtain ⟨-, ⟨c', hget', hreread, -⟩, hentry⟩ := h.keeps.stands hw hstands
  cases hget'.symm.trans hget₁
  -- from the push on, only the parameters have changed
  have hc₀ : c₀.isDriving = false := by
    cases hreread
    cases happlied
    exact hc
  obtain ⟨params, hparams, hmeasures, -⟩ :=
    ht.readable.measures_applied hreads (h.keeps.records hw hstands hrecords) hget₁ hc₀
  cases hparams.symm.trans hget
  refine ⟨e, hentry, (hbelongs.reread hreread).reread happlied, fun e' he' hb' => ?_, hmeasures⟩
  exact hl.belongs_unique hget₁ hentry he' (hbelongs.reread hreread)
    ⟨hb'.1, hb'.2.tag, hb'.2.driving, hb'.2.scale, hb'.2.equation⟩

end

section

variable [EuclideanScalar α] [Decompositions α] {s u : Session (LeastSquares α) α}

/-- No error is within a negative threshold. -/
theorem convergence_nonneg {algorithm : Algorithm}
    (hstatus : (s.solveWith algorithm).1 = .success ∨ (s.solveWith algorithm).1 = .converged) :
    0 ≤ s.solver.config.convergence := by
  have hnonneg : 0 ≤ (s.solver.descend algorithm).error := by
    rw [(s.solver.measures_descend algorithm).error]
    exact halfSq_nonneg _
  have hconflicts : (s.solver.diagnose (s.solver.descend algorithm).x).conflicting ≠ [] →
      10 ^ 4 * s.solver.config.convergence < (s.solver.descend algorithm).error := by
    rw [(s.solver.measures_descend algorithm).error]
    exact lt_halfSq_of_reported
  obtain h | h := hstatus
  · exact ((classify_met (s.solver.solution algorithm) hnonneg hconflicts).1 (.inl h)).1
  · have hle := ((classify_eq_converged (s.solver.solution algorithm) hnonneg hconflicts).1 h).2
    linarith

/-- After a solve that is reported successful has been applied, a constraint that measures has, for
each of its parameters that was pushed as a literal, the number that the fit has ended with in the
datum that its equation reads. What is left of the equation there is bounded by the error of the
fit: within the tolerance of a row if that error is small enough for the scale of the constraint,
and only then if the constraint is the only one to measure and has one row. The fit need not come so
far: it may also have spent its iterations, seen no slope, or stalled. -/
theorem Reachable.measurements_true (h : Reachable s) (algorithm : Algorithm)
    (hstatus : (s.solveWith algorithm).1 = .success ∨ (s.solveWith algorithm).1 = .converged)
    (hok : (s.solveWith algorithm).2.applySolution = (.ok (), u)) :
    (∀ id c, u.index.get? id = some (.constraint c) → c.isDriving = false →
      ∃ s₀ c₀ w ns, c₀.id = id ∧ Origin s₀ c₀ w ns (s.solveWith algorithm).2 ∧
        ∃ e ∈ u.solver.entries, e.Belongs c ∧ (∀ e' ∈ u.solver.entries, e'.Belongs c → e' = e) ∧
          u.Measures c₀ e c.params ∧
          let x := System.read u.solver.values
          let error := (s.solver.fit algorithm).error
          let bound := 10 ^ 4 * s.solver.config.convergence * c.scaleOrDefault ^ 2
          (∀ r ∈ e.equation.residuals x, (r * c.scaleOrDefault) ^ 2 ≤ 2 * error) ∧
          (c.scaleOrDefault ≠ 0 → error ≤ bound → u.solver.RowsWithin x e) ∧
          (c.scaleOrDefault ≠ 0 → u.solver.measuringEntries = [e] → e.equation.rows = 1 →
            (u.solver.RowsWithin x e ↔ error ≤ bound))) ∧
    Damped.Ends (problem (s.solver.measuringAt algorithm)) Decompositions.algebra s.solver.limits
      (s.solver.fit algorithm) := by
  have ht : Reachable (s.solveWith algorithm).2 := h.perform (.solveWith algorithm)
  obtain rfl : (s.solveWith algorithm).2.applied = u :=
    congrArg Prod.snd ((h.apply_solveWith algorithm).symm.trans hok)
  have hc := convergence_nonneg hstatus
  refine ⟨fun id c hget hmeasuring => ?_, ends_fit s.solver algorithm⟩
  obtain ⟨c₁, hc₁, -⟩ := constraint_of_applied hget
  obtain ⟨s₀, c₀, w, ns, rfl, horigin⟩ := ht.exists_origin hc₁
  obtain ⟨e, he, hbelongs, hunique, hmeasures⟩ := horigin.measures_applied ht hget hmeasuring
  refine ⟨s₀, c₀, w, ns, rfl, horigin, e, he, hbelongs, hunique, hmeasures, ?_⟩
  have hentry : e ∈ s.solver.measuringEntries := by
    refine List.mem_filter.2 ⟨he, ?_⟩
    rw [hbelongs.2.driving, hmeasuring]
    rfl
  have hsolver : (s.solveWith algorithm).2.applied.solver = s.solver.settled algorithm := rfl
  have hentries : (s.solver.settled algorithm).measuringEntries = s.solver.measuringEntries := rfl
  rw [← hbelongs.2.scale, hsolver, hentries]
  refine ⟨fun r hr => sq_le_fit hentry hr, fun hscale hle => ?_, fun hscale halone hrows => ?_⟩
  · exact rowsWithin_settled.2 (rowsWithin_of_fit_le hentry hscale hc hle)
  · exact rowsWithin_settled.trans (rowsWithin_iff_of_alone halone hrows hscale hc)

end

section

variable [Scalar α]

/-- The abscissa of a point, measured at a scale of one to a million. -/
def gauge : Constraint α :=
  { (Constraint.new ⟨2⟩ .equal : Constraint α) with
    driving := some false
    scale := some 1e-6
    params := .ofList [("param1", .ref ⟨⟨1⟩, .x⟩), ("param2", .number 5.0)] }

/-- The point is fixed, and the measure is off by two. -/
def gaugeSession (α : Type) [Scalar α] [Decompositions α] : Session (LeastSquares α) α :=
  ((Session.new (.ofConfig .standard)).perform
    (.push (.geometry ⟨⟨1⟩, .point 3.0 0.0 true⟩))).perform (.push (.constraint gauge))

end

theorem values_gaugeSession : (gaugeSession ℝ).solver.values = #[3.0, 0.0, 5.0] := by
  have hcells : (gaugeSession ℝ).solver.cells = #[⟨3.0, true⟩, ⟨0.0, true⟩, ⟨5.0, false⟩] := rfl
  rw [values, hcells]
  simp

theorem descend_gaugeSession (algorithm : Algorithm) :
    (gaugeSession ℝ).solver.descend algorithm = ⟨[], 0, 0⟩ := by
  have herror : halfSq ((problem (gaugeSession ℝ).solver.drivingSystem).residuals
      (problem (gaugeSession ℝ).solver.drivingSystem).start) = 0 := by
    rw [halfSq_eq]
    change Vec.normSq [] / 2 = 0
    rw [Vec.normSq_eq]
    simp
  rw [descend, Problem.minimize_of_inactive, herror]
  · rfl
  · -- the point is fixed, so there is nothing to move
    rw [isActive]
    exact Bool.and_false _

theorem fit_gaugeSession (algorithm : Algorithm) :
    ((gaugeSession ℝ).solver.fit algorithm).error = 2 / 10 ^ 12 := by
  have hresiduals : (problem ((gaugeSession ℝ).solver.measuringAt algorithm)).residuals
      (problem ((gaugeSession ℝ).solver.measuringAt algorithm)).start = [(3.0 - 5.0) * 1e-6] := by
    have hsystem : (gaugeSession ℝ).solver.measuringAt algorithm =
        ⟨#[3.0, 0.0, 5.0], [2], [(.equal 0 2, 1e-6)]⟩ := by
      rw [measuringAt, descend_gaugeSession]
      change (gaugeSession ℝ).solver.measuringSystem (gaugeSession ℝ).solver.values = _
      rw [values_gaugeSession]
      rfl
    rw [hsystem]
    rfl
  have herror : halfSq [((3.0 - 5.0) * 1e-6 : ℝ)] = 2 / 10 ^ 12 := by
    rw [halfSq_eq, Vec.normSq_eq]
    norm_num
  rw [fit, Problem.minimize_of_inactive, hresiduals, herror]
  rw [hresiduals, herror, isActive, Bool.and_eq_false_iff]
  refine .inl (decide_eq_false ?_)
  change ¬ (1e-10 : ℝ) < _
  norm_num

theorem status_gaugeSession (algorithm : Algorithm) :
    ((gaugeSession ℝ).solveWith algorithm).1 = .success := by
  change ((gaugeSession ℝ).solver.solve algorithm).1 = _
  rw [status_solve, descend_gaugeSession]
  have hle : (0 : ℝ) ≤ (gaugeSession ℝ).solver.config.convergence := by
    change (0 : ℝ) ≤ 1e-10
    norm_num
  have hconflicting : ((gaugeSession ℝ).solver.diagnose []).conflicting = [] := rfl
  have hradii : (gaugeSession ℝ).solver.radii = [] := rfl
  rw [classify, hconflicting, hradii]
  simp [hle]

/-- The solve succeeds, and yet the measure stays as far off as it was. So it does in exact
arithmetic, and with doubles. -/
theorem untrue_gaugeSession :
    (let t := ((gaugeSession ℝ).solveWith .dogLeg).2
    Reachable (gaugeSession ℝ) ∧ ((gaugeSession ℝ).solveWith .dogLeg).1 = .success ∧
    t.applySolution = (.ok (), t.applied) ∧
    ∃ e, t.applied.solver.entries = [e] ∧
      ¬ t.applied.solver.RowsWithin (System.read t.applied.solver.values) e) ∧
    let t := ((gaugeSession Float).solveWith .dogLeg).2
    Reachable (gaugeSession Float) ∧ ((gaugeSession Float).solveWith .dogLeg).1 = .success ∧
    t.applySolution = (.ok (), t.applied) ∧ t.applied.solver.values = #[3.0, 0.0, 5.0] ∧
    ∃ c, t.applied.index.get? ⟨2⟩ = some (.constraint c) ∧
      c.params.find? "param2" = some (.number 5.0) := by
  constructor
  · intro t
    have hreach : Reachable (gaugeSession ℝ) := .perform (.perform (.new _) _) _
    have hok := hreach.apply_solveWith .dogLeg
    obtain ⟨hmeasurements, -⟩ :=
      hreach.measurements_true .dogLeg (.inl (status_gaugeSession .dogLeg)) hok
    obtain ⟨-, -, -, -, -, -, e, he, -, -, -, -, -, halone⟩ := hmeasurements ⟨2⟩ _ rfl rfl
    refine ⟨hreach, status_gaugeSession .dogLeg, hok, e, ?_⟩
    cases List.mem_singleton.1 he
    refine ⟨rfl, fun hwithin => ?_⟩
    have hle := (halone ?_ rfl rfl).1 hwithin
    · rw [fit_gaugeSession] at hle
      change (2 / 10 ^ 12 : ℝ) ≤ 10 ^ 4 * 1e-10 * 1e-6 ^ 2 at hle
      norm_num at hle
    · change (1e-6 : ℝ) ≠ 0
      norm_num
  · have hreach : Reachable (gaugeSession Float) := .perform (.perform (.new _) _) _
    exact ⟨hreach, by decide +kernel, hreach.apply_solveWith .dogLeg, by decide +kernel, _, rfl,
      by decide +kernel⟩

end Session

end PlanarSketch

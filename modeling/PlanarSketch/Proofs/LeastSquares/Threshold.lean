import PlanarSketch.Proofs.Linear.Closest
import PlanarSketch.Proofs.LeastSquares.Diagnosis
import PlanarSketch.Proofs.LeastSquares.Operands

/-!
How the thresholds of a solve fit together in exact arithmetic. A residual that is too large for its
row is too large for the whole solve: half its square alone exceeds the relaxed threshold, and the
error is a sum of such halves. So a conflict, even one that is not reported, is only found where the
error has failed the solve already, and the status is a matter of the error and of nothing else. A
negative threshold is exceeded by every error, whatever is taken for the root of it.
-/

namespace PlanarSketch

namespace LeastSquares

section

variable {α : Type} [Scalar α]

/-- The residuals that a group is judged by are among those that the error is made of. -/
theorem mem_residuals_of_group (s : LeastSquares α) (x : Vec α) :
    ∀ g ∈ s.groupsAt x, ∀ r ∈ g.rows, r.2 ∈ s.drivingSystem.residuals x := by
  refine forall₂_right (s.groupOf_groupsAt x).1 ?_
  intro e g he hgroup r hr
  apply List.mem_flatMap.2
  refine ⟨Entry.scaled e, List.mem_map_of_mem he, ?_⟩
  rw [← hgroup.residuals]
  exact List.mem_map_of_mem hr

variable [Decompositions α]

/-- The verdicts on the driving constraints, those on extra ones included. -/
def verdictsAt (s : LeastSquares α) (x : Vec α) : Diagnosis.Verdicts :=
  ((s.groupsAt x).zipIdx.foldl (Diagnosis.visit s.rowTolerance) (⟨[], []⟩, ⟨[], [], []⟩)).2

theorem conflicting_diagnose (s : LeastSquares α) (x : Vec α) :
    (s.diagnose x).conflicting =
      Diagnosis.tags (s.groupsAt x) (s.verdictsAt x).conflicting := rfl

end

variable {α : Type} [EuclideanScalar α] {s : LeastSquares α}

theorem relaxed_eq (c : α) : c * relaxation = 10 ^ 4 * c := by
  rw [relaxation, ExactScalar.decimal_whole, Nat.cast_one, one_mul, mul_comm]

/-- The tolerance of a row is what half a square may be within the relaxed threshold. -/
theorem lt_halfSq_of_exceeds {r : Vec α} {a : α} (ha : a ∈ r)
    (h : ¬ Scalar.abs a ≤ s.rowTolerance) : 10 ^ 4 * s.config.convergence < halfSq r := by
  have htwo : (2.0 : α) = 2 := by
    rw [ExactScalar.decimal_fraction]
    norm_num
  have hsq := lt_sq_of_not_abs_le h
  have hle := Vec.sq_le_normSq ha
  rw [mul_assoc, relaxed_eq, htwo] at hsq
  rw [halfSq_eq]
  linarith

section

variable {error : α} {d : Diagnosis} (solution : Array α) (herror : 0 ≤ error)
  (hconflicts : d.conflicting ≠ [] → 10 ^ 4 * s.config.convergence < error)

include herror hconflicts

/-- The thresholds part the errors, as long as conflicts come with errors that fail anyway. -/
theorem classify_cases :
    (error ≤ s.config.convergence ∧ error ≤ 10 ^ 4 * s.config.convergence ∧
      (s.classify error solution d = .success ∨ s.classify error solution d = .invalid)) ∨
    (s.config.convergence < error ∧ error ≤ 10 ^ 4 * s.config.convergence ∧
      s.classify error solution d = .converged) ∨
    (s.config.convergence < error ∧ 10 ^ 4 * s.config.convergence < error ∧
      s.classify error solution d = .failed) := by
  rw [classify, relaxed_eq]
  obtain hlt | hle := lt_or_ge (10 ^ 4 * s.config.convergence) error
  · -- the factor only lowers a threshold that every error exceeds
    have hunmet : s.config.convergence < error := by
      by_contra
      linarith
    refine .inr (.inr ⟨hunmet, hlt, ?_⟩)
    rw [if_neg hunmet.not_ge, if_neg hlt.not_ge, ite_self]
  have hnone : (!d.conflicting.isEmpty) = false := by
    rw [Bool.not_eq_false', List.isEmpty_iff]
    exact not_imp_comm.1 hconflicts hle.not_gt
  rw [hnone, if_neg Bool.false_ne_true]
  obtain hmet | hunmet := le_or_gt error s.config.convergence
  · refine .inl ⟨hmet, hle, ?_⟩
    rw [if_pos hmet]
    split
    · exact .inr rfl
    · exact .inl rfl
  · refine .inr (.inl ⟨hunmet, hle, ?_⟩)
    rw [if_neg hunmet.not_ge, if_pos hle]

theorem classify_eq_failed :
    s.classify error solution d = .failed ↔ 10 ^ 4 * s.config.convergence < error := by
  obtain ⟨-, hle, hcase | hcase⟩ | ⟨-, hle, hcase⟩ | ⟨-, hlt, hcase⟩ :=
    classify_cases solution herror hconflicts
  · simp [hcase, hle]
  · simp [hcase, hle]
  · simp [hcase, hle]
  · simp [hcase, hlt]

theorem classify_eq_converged : s.classify error solution d = .converged ↔
    s.config.convergence < error ∧ error ≤ 10 ^ 4 * s.config.convergence := by
  obtain ⟨hmet, -, hcase | hcase⟩ | ⟨hunmet, hle, hcase⟩ | ⟨-, hlt, hcase⟩ :=
    classify_cases solution herror hconflicts
  · simp [hcase, hmet.not_gt]
  · simp [hcase, hmet.not_gt]
  · simp [hcase, hunmet, hle]
  · simp [hcase, hlt.not_ge]

/-- An error is never within a negative threshold. -/
theorem classify_met :
    s.classify error solution d = .success ∨ s.classify error solution d = .invalid ↔
      0 ≤ s.config.convergence ∧ error ≤ s.config.convergence := by
  rw [and_iff_right_of_imp herror.trans]
  obtain ⟨hmet, -, hcase⟩ | ⟨hunmet, -, hcase⟩ | ⟨hunmet, -, hcase⟩ :=
    classify_cases solution herror hconflicts
  · simp [hcase, hmet]
  · simp [hcase, hunmet]
  · simp [hcase, hunmet]

end

variable [Decompositions α]

/-- Where anything is found to conflict, the error exceeds the relaxed threshold. -/
theorem lt_halfSq_of_conflicting {x : Vec α} {i : Nat} (h : i ∈ (s.verdictsAt x).conflicting) :
    10 ^ 4 * s.config.convergence < halfSq (s.drivingSystem.residuals x) := by
  have hjudged := Diagnosis.judged s.rowTolerance (s.groupsAt x)
  obtain ⟨j, ⟨-, hexceeds⟩, -⟩ := (hjudged.conflicting i).1 h
  unfold Diagnosis.Within at hexceeds
  push Not at hexceeds
  obtain ⟨g, hg, r, hr, hlt⟩ := hexceeds
  apply lt_halfSq_of_exceeds (s.mem_residuals_of_group x g (List.mem_of_getElem? hg) r hr)
  exact not_le.2 hlt

/-- A conflict that is reported has been found. -/
theorem lt_halfSq_of_reported {x : Vec α} (h : (s.diagnose x).conflicting ≠ []) :
    10 ^ 4 * s.config.convergence < halfSq (s.drivingSystem.residuals x) := by
  obtain ⟨t, ht⟩ := List.exists_mem_of_ne_nil _ h
  rw [conflicting_diagnose] at ht
  obtain ⟨-, i, g, hi, -, -⟩ := (Diagnosis.mem_tags _ _).1 ht
  exact lt_halfSq_of_conflicting hi

/-- The status of a solve is a matter of the error at the point that it has found. -/
theorem status_by_error (s : LeastSquares α) (algorithm : Algorithm) :
    let x := (s.descend algorithm).x
    let error := halfSq (s.drivingSystem.residuals x)
    let c := s.config.convergence
    let status := (s.solve algorithm).1
    let t := (s.solve algorithm).2
    (∀ a ∈ s.unknowns, t.found? a = some (System.read (s.drivingSystem.expand x) a)) ∧
      (status = .failed ↔ 10 ^ 4 * c < error) ∧
      (∀ i ∈ (s.verdictsAt x).conflicting, 10 ^ 4 * c < error) ∧
      (error ≤ 10 ^ 4 * c → t.diagnosis.conflicting = []) ∧
      (t.diagnosis.conflicting ≠ [] → status = .failed) ∧
      (status = .success ∨ status = .invalid ↔ 0 ≤ c ∧ error ≤ c) ∧
      (status = .converged ↔ c < error ∧ error ≤ 10 ^ 4 * c) := by
  intro x error c status t
  have hnonneg : 0 ≤ error := halfSq_nonneg _
  have hreported : t.diagnosis.conflicting ≠ [] → 10 ^ 4 * c < error := lt_halfSq_of_reported
  have hstatus : status = s.classify error (s.solution algorithm) t.diagnosis := by
    rw [show error = (s.descend algorithm).error from (s.measures_descend algorithm).error.symm]
    rfl
  have hfailed : status = .failed ↔ 10 ^ 4 * c < error := by
    rw [hstatus]
    exact classify_eq_failed _ hnonneg hreported
  refine ⟨?_, hfailed, ?_, ?_, ?_, ?_, ?_⟩
  · exact fun a ha => found?_of_mem_unknowns algorithm ha
  · exact fun i hi => lt_halfSq_of_conflicting hi
  · exact fun hle => not_imp_comm.1 hreported hle.not_gt
  · exact fun h => hfailed.2 (hreported h)
  · rw [hstatus]
    exact classify_met _ hnonneg hreported
  · rw [hstatus]
    exact classify_eq_converged _ hnonneg hreported

/-- Two scalars that should be equal and are not, with nothing to move them. -/
noncomputable def unequal : LeastSquares ℝ :=
  { ofConfig .standard with
    cells := #[⟨0, true⟩, ⟨1, true⟩]
    entries := [⟨0, true, 1, .equal 0 1, []⟩] }

theorem descend_unequal (algorithm : Algorithm) : (unequal.descend algorithm).x = [] := by
  apply List.eq_nil_of_length_eq_zero
  rw [length_descend]
  rfl

theorem residuals_unequal : unequal.drivingSystem.residuals [] = [-1] := by
  simp [System.residuals, System.expand, System.equationResiduals, drivingSystem, drivingEntries,
    Entry.scaled, Equation.residuals, System.read, values, unequal]

theorem groupsAt_unequal : unequal.groupsAt [] = [⟨0, [([], -1)]⟩] := by
  rw [groupsAt, residuals_unequal]
  rfl

theorem rowTolerance_unequal : unequal.rowTolerance < 1 := by
  have hlt : (2.0 * 1e-10 * 1e4 : ℝ) < 1 ^ 2 := by
    simp only [ExactScalar.decimal_fraction, ExactScalar.decimal_whole]
    norm_num
  exact (Real.sqrt_lt' zero_lt_one).2 hlt

/-- A row without coordinates depends on nothing at all. -/
theorem isIndependent_nil : Diagnosis.isIndependent ([] : Vec ℝ) [] = false := by
  have hnorm : Vec.norm ([] : Vec ℝ) = 0 := by
    rw [Vec.norm, Vec.normSq_eq]
    exact Real.sqrt_zero
  rw [Diagnosis.isIndependent, hnorm]
  simp [Scalar.larger, Diagnosis.rankTolerance]

theorem conflicting_unequal : (unequal.verdictsAt []).conflicting = [0] := by
  have hexceeds : unequal.rowTolerance < Scalar.abs (-1 : ℝ) := by
    rw [EuclideanScalar.abs_eq, abs_neg, abs_one]
    exact rowTolerance_unequal
  rw [verdictsAt, groupsAt_unequal]
  simp [Diagnosis.visit, Diagnosis.absorb, Diagnosis.reduce, isIndependent_nil, hexceeds,
    Diagnosis.owners]

/-- Two scalars that should be equal, of which one may be moved, and no iterations to move it. -/
noncomputable def apart (c : ℝ) : LeastSquares ℝ :=
  { ofConfig ⟨.dogLeg, 0, c, .noDebug⟩ with
    cells := #[⟨0, false⟩, ⟨1, true⟩]
    entries := [⟨0, true, 1, .equal 0 1, []⟩] }

theorem drivingSystem_apart (c : ℝ) :
    (apart c).drivingSystem = ⟨#[0, 1], [0], [(.equal 0 1, 1)]⟩ := by
  have hcells : (apart c).cells = #[⟨0, false⟩, ⟨1, true⟩] := rfl
  have hvalues : (apart c).values = #[0, 1] := by
    rw [values, hcells]
    simp
  rw [drivingSystem, hvalues]
  rfl

theorem residuals_descend_apart (c : ℝ) (algorithm : Algorithm) :
    (apart c).drivingSystem.residuals ((apart c).descend algorithm).x = [-1] := by
  rw [descend, Problem.minimize_of_no_iterations rfl, drivingSystem_apart]
  simp [problem, System.start, System.residuals, System.expand, System.equationResiduals,
    Equation.residuals, System.read]

/-- Nothing can be moved, so the solve stays where it is and fails. Where it stays because no
iterations are left, it is the threshold that tells the status. -/
theorem status_unequal :
    (unequal.solve .dogLeg).1 = .failed ∧
      (unequal.verdictsAt (unequal.descend .dogLeg).x).conflicting = [0] ∧
      (∀ c, (apart c).unknowns = [0]) ∧ ((apart 1).solve .dogLeg).1 = .success ∧
      ((apart (1 / 10 ^ 4)).solve .dogLeg).1 = .converged := by
  have hconflict : 0 ∈ (unequal.verdictsAt (unequal.descend .dogLeg).x).conflicting := by
    rw [descend_unequal, conflicting_unequal]
    exact List.mem_singleton_self 0
  obtain ⟨-, hfailed, hexceeds, -⟩ := status_by_error unequal .dogLeg
  have herror : ∀ c, halfSq ((apart c).drivingSystem.residuals ((apart c).descend .dogLeg).x) =
      1 / 2 := by
    intro c
    rw [residuals_descend_apart, halfSq_eq, Vec.normSq_eq]
    norm_num
  refine ⟨hfailed.2 (hexceeds 0 hconflict), ?_, fun _ => rfl, ?_, ?_⟩
  · rw [descend_unequal, conflicting_unequal]
  · obtain ⟨-, -, -, -, -, hmet, -⟩ := status_by_error (apart 1) .dogLeg
    rw [herror] at hmet
    have hle : (1 / 2 : ℝ) ≤ 1 := by norm_num
    refine (hmet.2 ⟨zero_le_one, hle⟩).resolve_right fun hinvalid => ?_
    -- there are no radii that could be negative
    have hradii : (apart 1).radii = [] := rfl
    rw [status_solve, classify, hradii, List.any_nil] at hinvalid
    split_ifs at hinvalid with _ _ hnone
    exact hnone
  · obtain ⟨-, -, -, -, -, -, hconverged⟩ := status_by_error (apart (1 / 10 ^ 4)) .dogLeg
    rw [herror] at hconverged
    refine hconverged.2 ⟨?_, ?_⟩
    · change (1 / 10 ^ 4 : ℝ) < 1 / 2
      norm_num
    · change (1 / 2 : ℝ) ≤ 10 ^ 4 * (1 / 10 ^ 4)
      norm_num

end LeastSquares

end PlanarSketch

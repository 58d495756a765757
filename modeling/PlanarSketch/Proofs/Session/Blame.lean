import PlanarSketch.Proofs.LeastSquares.Threshold
import PlanarSketch.Proofs.LeastSquares.Shares
import PlanarSketch.Proofs.Session.Reports

/-!
Who is blamed for a conflict. A constraint of which every row is accepted is reported only if a
later one conflicts and has rows that depend on it. What a row depends on is found by least squares.
In exact arithmetic these are the accepted rows that it combines, unless they are so nearly
dependent that a singular value counts as zero. A singular value counts as zero by its size alone,
so accepted rows of very different lengths can be enough for that; then a constraint may be blamed
of which the row has no part, and the one that it repeats is not.
-/

namespace PlanarSketch

open LeastSquares

namespace Session

/-- After a solve each constraint is reported by the rows and residuals of its group, and by the
later conflicts in which the rows of its group have a share. With linear algebra that does what it
should, these are the conflicts in rows that combine rows of the group, as long as the rows
that had been accepted by then are not nearly dependent. -/
theorem diagnosis_solveWith (algorithm : Algorithm) :
    (∀ {α : Type} [Scalar α] [Decompositions α] {s : Session (LeastSquares α) α}, Reachable s →
      s.Diagnosed algorithm Diagnosis.Shared) ∧
    ∀ [Decompositions ℝ] {s : Session (LeastSquares ℝ) ℝ},
      (Decompositions.algebra (α := ℝ)).Exact → Reachable s →
        let groups := s.solver.groupsAt (s.solver.descend algorithm).x
        let n := s.solver.unknowns.length
        (∀ j, Diagnosis.Conflicts s.solver.rowTolerance groups j →
          Conditioned n (Diagnosis.spanOf (Diagnosis.labelled (groups.take (j + 1)))).rows) →
        s.Diagnosed algorithm (Diagnosis.Combines n) := by
  refine ⟨fun h => h.diagnosed algorithm, ?_⟩
  intro _ s hexact h groups n hconditioned
  refine (h.diagnosed algorithm).congr fun i j hj => ?_
  refine Diagnosis.blames_iff_combines hexact ?_ (hconditioned j hj)
  intro g hg r hr
  rw [s.solver.length_row_groupsAt _ g hg r hr, length_descend]

/-- The group that a constraint is classified by is found by its tag. -/
theorem Diagnosed.classified {α : Type} [Scalar α] [Decompositions α]
    {s : Session (LeastSquares α) α} {algorithm : Algorithm}
    {part : Diagnosis.Span α → Vec α → Nat → Prop} (h : s.Diagnosed algorithm part) (id : Oid)
    {c : Constraint α} {tag : Int} {i : Nat}
    (hget : s.index.get? id = some (.constraint c)) (hc : c.isDriving = true)
    (htag : id.tag = .ok tag)
    (hplace : ∀ j, (s.solver.drivingEntries.map Entry.tag)[j]? = some tag → j = i) :
    Diagnosis.Classified part (s.solveWith algorithm).2.solver.diagnosis s.solver.rowTolerance
      (s.solver.groupsAt (s.solver.descend algorithm).x) i tag := by
  obtain ⟨-, -, -, heach⟩ := h
  obtain ⟨j, e, he, -, -, htag', hclassified⟩ := heach id c hget hc
  cases Except.ok.inj (htag.symm.trans htag')
  obtain rfl : j = i := hplace j (by rw [List.getElem?_map, he]; rfl)
  exact hclassified

section

variable {α : Type} [Scalar α]

/-- Where the point is to be, at some scale. -/
def abscissaIs (id : UInt32) (scale v : α) : Constraint α :=
  { (Constraint.new ⟨id⟩ .equal : Constraint α) with
    scale := some scale
    params := .ofList [("param1", .ref ⟨⟨1⟩, .x⟩), ("param2", .number v)] }

end

/-! A row of length `1e-5` and a row of length one that is almost a multiple of it. The first one is
taken once more and cannot be met again. -/

/-- A line through the origin that hardly leaves the ordinate. -/
def steepLine : Constraint Float :=
  { (Constraint.new ⟨3⟩ .proportional : Constraint Float) with
    params := .ofList [("param1", .ref ⟨⟨1⟩, .y⟩), ("param2", .ref ⟨⟨1⟩, .x⟩),
      ("ratio", .number (-2e-8))] }

/-- The point is to be far out on either side, and on the line. -/
def misblamedSession : Session (LeastSquares Float) Float :=
  (Session.new (.ofConfig .standard)).perform (.pushAll
    [.geometry ⟨⟨1⟩, .point 0.0 0.0 false⟩, .constraint (abscissaIs 2 1e-5 1000.0),
      .constraint steepLine, .constraint (abscissaIs 4 1e-5 (-1000.0))])

def misblamedGroups : List (RowGroup Float) :=
  misblamedSession.solver.groupsAt (misblamedSession.solver.descend .dogLeg).x

theorem diagnosis_misblamedSession :
    (misblamedSession.solveWith .dogLeg).2.solver.diagnosis = ⟨[3, 4], [], [], 0⟩ := by
  decide +kernel

/-- The point ends on the line. -/
theorem within_misblamedSession :
    Diagnosis.Within misblamedSession.solver.rowTolerance misblamedGroups 1 := by
  have hall : (misblamedGroups[1]?.all fun g => g.rows.all fun r =>
      decide (Scalar.abs r.2 ≤ misblamedSession.solver.rowTolerance)) = true := by
    decide +kernel
  intro g hg r hr
  rw [hg] at hall
  exact of_decide_eq_true (List.all_eq_true.1 hall r hr)

/-! A point that is to be in two places, and is not moved at all. -/

noncomputable def tornSession : Session (LeastSquares ℝ) ℝ :=
  (Session.new (.ofConfig ⟨.dogLeg, 0, 1e-10, .noDebug⟩)).perform (.pushAll
    [.geometry ⟨⟨1⟩, .point 0.0 0.0 false⟩, .constraint (abscissaIs 2 1.0 0.0),
      .constraint (abscissaIs 3 1.0 5.0)])

def tornGroups : List (RowGroup ℝ) := [⟨2, [([1, 0], 0)]⟩, ⟨3, [([1, 0], -5)]⟩]

theorem drivingSystem_tornSession : tornSession.solver.drivingSystem =
    ⟨#[0, 0, 0, 5], [0, 1], [(.equal 0 2, 1), (.equal 0 3, 1)]⟩ := by
  have hcells : tornSession.solver.cells =
      #[⟨0.0, false⟩, ⟨0.0, false⟩, ⟨0.0, true⟩, ⟨5.0, true⟩] := rfl
  have hvalues : tornSession.solver.values = #[0, 0, 0, 5] := by
    rw [values, hcells]
    norm_num
  have hsystem : tornSession.solver.drivingSystem = ⟨tornSession.solver.values, [0, 1],
      [(.equal 0 2, 1.0), (.equal 0 3, 1.0)]⟩ := rfl
  rw [hsystem, hvalues]
  norm_num

theorem residuals_tornSession (x y : ℝ) :
    tornSession.solver.drivingSystem.residuals [x, y] = [x, x - 5] := by
  rw [drivingSystem_tornSession]
  simp [System.residuals, System.expand, System.equationResiduals, Equation.residuals,
    System.read]

theorem jacobian_tornSession :
    tornSession.solver.drivingSystem.jacobian [0, 0] = ⟨2, [[1, 1], [0, 0]]⟩ := by
  have hprobe : System.probe (0 : ℝ) = 1 / 10 ^ 7 := by
    norm_num [System.probe, EuclideanScalar.abs_eq]
  have hheight : tornSession.solver.drivingSystem.height = 2 := rfl
  simp only [System.jacobian, System.slope, hheight, hprobe, List.zipIdx_cons, List.zipIdx_nil,
    List.map_cons, List.map_nil, List.set_cons_zero, List.set_cons_succ, residuals_tornSession]
  norm_num [Vec.sub]

theorem groupsAt_tornSession (algorithm : Algorithm) :
    tornSession.solver.groupsAt (tornSession.solver.descend algorithm).x = tornGroups := by
  have hstart : (tornSession.solver.descend algorithm).x = [0, 0] := by
    rw [descend, Problem.minimize_of_no_iterations rfl, drivingSystem_tornSession]
    simp [problem, System.start, System.read]
  have hentries : tornSession.solver.drivingEntries =
      [⟨2, true, 1.0, .equal 0 2, [2]⟩, ⟨3, true, 1.0, .equal 0 3, [3]⟩] := rfl
  rw [groupsAt, hstart, jacobian_tornSession, residuals_tornSession, hentries, tornGroups]
  simp [rowGroups, ColumnMatrix.rows, ColumnMatrix.row, Equation.rows, List.range_succ]

/-- Only the first of the two rows is accepted. -/
theorem spanOf_tornGroups {j : ℕ} (hj : j < 2) :
    Diagnosis.spanOf (Diagnosis.labelled (tornGroups.take (j + 1))) =
      ⟨[[1, 0]], [(0, [1, 0])]⟩ := by
  interval_cases j
  · exact Diagnosis.spanOf_unit 0
  · exact Diagnosis.spanOf_multiple 0 1 1

theorem dependent_tornGroups :
    Diagnosis.DependentIn (Diagnosis.labelled (tornGroups.take 1)) 1 [] [1, 0] := by
  rw [Diagnosis.dependentIn_nil, Diagnosis.Dependent, spanOf_tornGroups Nat.two_pos]
  exact Diagnosis.isIndependent_multiple 1

theorem conflicts_tornGroups :
    Diagnosis.Conflicts tornSession.solver.rowTolerance tornGroups 1 := by
  refine ⟨⟨[], [1, 0], ⟨_, [], rfl, rfl⟩, dependent_tornGroups⟩, fun hwithin => ?_⟩
  have hle := hwithin _ rfl _ List.mem_cons_self
  have htolerance : tornSession.solver.rowTolerance < 1 := rowTolerance_unequal
  have habs : Scalar.abs (-5 : ℝ) = 5 := by
    rw [EuclideanScalar.abs_eq, abs_neg, Nat.abs_ofNat]
  rw [habs] at hle
  linarith

theorem blames_tornGroups : Diagnosis.Blames tornGroups (Diagnosis.Combines 2) 1 0 := by
  refine ⟨[], [1, 0], ⟨_, [], rfl, rfl⟩, dependent_tornGroups, ?_⟩
  rw [spanOf_tornGroups Nat.one_lt_two]
  exact Diagnosis.combines_of_accepted (k := 0) rfl

/-- The row in conflict is that of the first constraint, and yet the second one is blamed, of which
every row has been accepted. Exactly, the blame falls on the constraint that is repeated. -/
theorem blame_misplaced :
    (Reachable misblamedSession ∧
      (misblamedSession.solveWith .dogLeg).2.solver.diagnosis.conflicting = [3, 4] ∧
      (misblamedGroups.map fun g => g.rows.map Prod.fst)[0]? =
        (misblamedGroups.map fun g => g.rows.map Prod.fst)[2]? ∧
      ¬ Diagnosis.SomeDependent misblamedGroups 1 ∧
      ∃ j, 1 < j ∧ Diagnosis.Blames misblamedGroups Diagnosis.Shared j 1) ∧
    LinearAlgebra.closest.Exact ∧ Reachable tornSession ∧
      2 ∈ (tornSession.solveWith .dogLeg).2.solver.diagnosis.conflicting ∧
      3 ∈ (tornSession.solveWith .dogLeg).2.solver.diagnosis.conflicting := by
  obtain ⟨hshared, hcombines⟩ := diagnosis_solveWith .dogLeg
  constructor
  · have hreach : Reachable misblamedSession := .perform (.new _) _
    have htags : misblamedSession.solver.drivingEntries.map Entry.tag = [2, 3, 4] := by
      decide +kernel
    have hline := (hshared hreach).classified ⟨3⟩ (c := steepLine) (i := 1)
      rfl rfl rfl (by rw [htags]; grind)
    obtain ⟨hredundant, hpartial, hconflicting, -⟩ := hline
    rw [diagnosis_misblamedSession] at hredundant hpartial hconflicting
    -- its residuals are small, so with a dependent row the line would be redundant, if only in part
    have haccepted : ¬ Diagnosis.SomeDependent misblamedGroups 1 := by
      intro hsome
      by_cases hall : Diagnosis.AllDependent misblamedGroups 1
      · exact List.not_mem_nil (hredundant.2 ⟨hall, within_misblamedSession⟩)
      · exact List.not_mem_nil (hpartial.2 ⟨hsome, hall, within_misblamedSession⟩)
    refine ⟨hreach, by rw [diagnosis_misblamedSession], by decide +kernel, haccepted, ?_⟩
    obtain hconflicts | ⟨j, hlt, -, hblames⟩ := hconflicting.1 List.mem_cons_self
    · exact absurd hconflicts.1 haccepted
    · exact ⟨j, hlt, hblames⟩
  · have hreach : Reachable tornSession := .perform (.new _) _
    have hconditioned : ∀ j, Diagnosis.Conflicts tornSession.solver.rowTolerance tornGroups j →
        Conditioned 2 (Diagnosis.spanOf (Diagnosis.labelled (tornGroups.take (j + 1)))).rows := by
      intro j hj
      have hunit : ‖Vec.inSpace 2 [1, 0]‖ = 1 := (norm_inSpace rfl).trans Diagnosis.norm_unit
      rw [spanOf_tornGroups hj.1.lt]
      refine conditioned_singleton.2 (lt_of_lt_of_eq ?_ hunit.symm)
      norm_num
    have hdiagnosed := hcombines LinearAlgebra.exact_closest hreach
      (groupsAt_tornSession .dogLeg ▸ hconditioned)
    have htags : tornSession.solver.drivingEntries.map Entry.tag = [2, 3] := rfl
    have hfirst := hdiagnosed.classified ⟨2⟩ (c := abscissaIs 2 1.0 0.0) (i := 0)
      rfl rfl rfl (by rw [htags]; grind)
    have hsecond := hdiagnosed.classified ⟨3⟩ (c := abscissaIs 3 1.0 5.0) (i := 1)
      rfl rfl rfl (by rw [htags]; grind)
    rw [groupsAt_tornSession] at hfirst hsecond
    refine ⟨LinearAlgebra.exact_closest, hreach, hfirst.conflicting.2 (.inr ?_),
      hsecond.conflicting.2 (.inl conflicts_tornGroups)⟩
    exact ⟨1, Nat.one_pos, conflicts_tornGroups, blames_tornGroups⟩

end Session

end PlanarSketch

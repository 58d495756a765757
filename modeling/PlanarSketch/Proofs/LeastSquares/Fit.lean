import PlanarSketch.Proofs.LeastSquares.Descent
import PlanarSketch.Proofs.LeastSquares.Resting
import PlanarSketch.Proofs.LeastSquares.Threshold

/-!
The fit of the measuring constraints. It is a minimisation of its own, after that of the driving
constraints: it has its own error and its own way to end, and what is kept of it is the point and
nothing else. In exact arithmetic the error bounds every residual of a measuring constraint, after
scaling. But the error need not be small: besides reaching the threshold, the fit also ends when its
iterations are spent, when it sees no slope, or when its step has become too short.
-/

namespace PlanarSketch

/-! ### How an iteration ends -/

section

variable {σ : Type} (active : σ → Bool) {step : σ → Progress σ} {P : σ → Prop}

/-- An iteration ends in a state that is not active, or when its steps are spent, or with a step
that stops. -/
theorem iterate_ends (hstep : ∀ s, P s → P (step s).state) (n k : Nat) {s : σ} (hs : P s) :
    active (iterate active step n k s).1 = false ∨ (iterate active step n k s).2 = n + k ∨
      ∃ t, P t ∧ step t = .stop (iterate active step n k s).1 := by
  induction n generalizing k s with
  | zero => exact .inr (.inl (Nat.zero_add k).symm)
  | succ n ih =>
      have hnext := hstep s hs
      rw [iterate]
      cases hactive : active s with
      | false => exact .inl hactive
      | true =>
          rw [if_pos rfl]
          cases hprogress : step s with
          | next t =>
              rw [hprogress] at hnext
              rw [Nat.add_right_comm, Nat.add_assoc]
              exact ih (k + 1) hnext
          | stop t => exact .inr (.inr ⟨s, hs, hprogress⟩)

end

variable {α : Type} [ExactScalar α]

namespace Damped

variable {p : Problem α} {alg : LinearAlgebra α} {limits : Limits α} {s t : Damped α}

/-- The gradient at a point. -/
def gradient (p : Problem α) (x : Vec α) : Vec α :=
  (p.jacobian x).transposeMulVec (p.residuals x)

/-- The step from a point, with some damping. -/
def step? (p : Problem α) (alg : LinearAlgebra α) (damping : α) (x : Vec α) : Option (Vec α) :=
  alg.positive? (RowMatrix.addDiagonal damping (p.jacobian x).gram) (Vec.neg (gradient p x))

/-- The ways to end. Only the first says anything of the error. -/
inductive Ends (p : Problem α) (alg : LinearAlgebra α) (limits : Limits α) (o : Outcome α) :
    Prop where
  | met (h : o.error ≤ limits.convergence)
  | nothing (h : o.x = [])
  | spent (h : o.iterations = limits.maxIterations)
  | flat (h : Vec.greatestAbs (gradient p o.x) < gradientTolerance)
  | short (damping : α) (d : Vec α) (h : step? p alg damping o.x = some d) (hd : stalled d o.x)

theorem x_begin (s : Damped α) (gram : RowMatrix α) : (s.begin gram).x = s.x := by
  unfold begin
  split <;> rfl

theorem Tracks.stop (h : s.Tracks p) (hstop : step p alg s = .stop t) :
    Vec.greatestAbs (gradient p t.x) < gradientTolerance ∨
      ∃ damping d, step? p alg damping t.x = some d ∧ stalled d t.x := by
  unfold step at hstop
  dsimp only at hstop
  rw [h.1] at hstop
  split at hstop
  · next hflat =>
      cases hstop
      exact .inl hflat
  split at hstop
  · cases hstop
  next d hd =>
    split at hstop
    · next hshort =>
        cases hstop
        rw [x_begin] at hshort ⊢
        exact .inr ⟨_, d, hd, hshort⟩
    · cases hstop

theorem ends_minimize (p : Problem α) (alg : LinearAlgebra α) (limits : Limits α) :
    Ends p alg limits (minimize p alg limits) := by
  have hinit : (init p).Tracks p := ⟨rfl, rfl⟩
  have hstep : ∀ s : Damped α, s.Tracks p → (step p alg s).state.Tracks p :=
    fun s hs => (step_falls alg hs).1
  obtain hidle | hspent | ⟨s, hs, hstop⟩ := iterate_ends
    (fun s => isActive limits s.x s.error) hstep limits.maxIterations 0 hinit
  · rw [isActive, Bool.and_eq_false_iff, decide_eq_false_iff_not, not_lt, Bool.not_eq_false',
      List.isEmpty_iff] at hidle
    obtain hmet | hnothing := hidle
    · exact .met hmet
    · exact .nothing hnothing
  · exact .spent hspent
  · obtain hflat | ⟨damping, d, hd, hshort⟩ := hs.stop hstop
    · exact .flat hflat
    · exact .short damping d hd hshort

end Damped

namespace LeastSquares

section

variable {α : Type} [Scalar α] [Decompositions α] {s : LeastSquares α} {algorithm : Algorithm}

/-- The measuring constraints over what the driving ones have been solved for. -/
def measuringAt (s : LeastSquares α) (algorithm : Algorithm) : System α :=
  s.measuringSystem (s.drivingSystem.expand (s.descend algorithm).x)

/-- What comes of the fit of the measuring constraints. -/
def fit (s : LeastSquares α) (algorithm : Algorithm) : Outcome α :=
  (problem (s.measuringAt algorithm)).minimize Decompositions.algebra .levenbergMarquardt s.limits

/-- Only the point is kept. -/
theorem solution_eq_fit (s : LeastSquares α) (algorithm : Algorithm) :
    s.solution algorithm = (s.measuringAt algorithm).expand (s.fit algorithm).x := by
  rw [solution, readOut]
  split
  · next hnone =>
      have hunknowns : (s.measuringAt algorithm).unknowns = [] := List.isEmpty_iff.1 hnone
      rw [System.expand.eq_def (s.measuringAt algorithm), hunknowns]
      rfl
  · rfl

/-- Written, the solution is what stands in all scalars, also in those that were not solved for. -/
theorem read_settled_eq_solution (s : LeastSquares α) (algorithm : Algorithm) :
    System.read (s.settled algorithm).values = System.read (s.solution algorithm) := by
  funext a
  obtain hlt | hge := Nat.lt_or_ge a s.size
  · by_cases ha : a ∈ s.outputs
    · have hvalue := s.value?_settled algorithm hlt
      rw [if_pos (List.mem_append_right _ ha)] at hvalue
      exact read_values hvalue
    · rw [read_settled algorithm hlt ha, read_solution algorithm ha]
  · have hsize : (s.settled algorithm).values.size = s.size := by
      rw [size_values]
      exact size_applySolution _
    rw [System.read, System.read, Array.getD_eq_getD_getElem?, Array.getD_eq_getD_getElem?,
      Array.getElem?_eq_none (hsize ▸ hge),
      Array.getElem?_eq_none (s.size_solution algorithm ▸ hge)]

end

section

variable {α : Type} [ExactScalar α] [Decompositions α] {s : LeastSquares α} {algorithm : Algorithm}
  {e : Entry α}

theorem ends_fit (s : LeastSquares α) (algorithm : Algorithm) :
    Damped.Ends (problem (s.measuringAt algorithm)) Decompositions.algebra s.limits
      (s.fit algorithm) :=
  Damped.ends_minimize ..

/-- What is left of the measuring constraints when the fit ends, each times its scale. -/
theorem error_fit (s : LeastSquares α) (algorithm : Algorithm) :
    (s.fit algorithm).error = halfSq (s.measuringEntries.flatMap fun e =>
      (e.equation.residuals (System.read (s.settled algorithm).values)).map (· * e.scale)) := by
  have hdescent := (Problem.descent_minimize (problem (s.measuringAt algorithm))
    Decompositions.algebra .levenbergMarquardt s.limits).1
  rw [read_settled_eq_solution, solution_eq_fit, fit, hdescent.error_eq]
  change halfSq (((s.measuringEntries.map Entry.scaled).flatMap _)) = _
  rw [List.flatMap_map]
  rfl

theorem sq_le_fit (he : e ∈ s.measuringEntries) {r : α}
    (hr : r ∈ e.equation.residuals (System.read (s.settled algorithm).values)) :
    (r * e.scale) ^ 2 ≤ 2 * (s.fit algorithm).error := by
  have hscaled : r * e.scale ∈ s.measuringEntries.flatMap fun e =>
      (e.equation.residuals (System.read (s.settled algorithm).values)).map (· * e.scale) :=
    List.mem_flatMap.2 ⟨e, he, List.mem_map.2 ⟨r, hr, rfl⟩⟩
  have hle := Vec.sq_le_normSq hscaled
  rw [error_fit, halfSq_eq]
  linarith

/-- A measuring constraint that is alone has the error to itself. -/
theorem fit_eq_of_alone (he : s.measuringEntries = [e]) {r : α}
    (hr : e.equation.residuals (System.read (s.settled algorithm).values) = [r]) :
    (s.fit algorithm).error = (r * e.scale) ^ 2 / 2 := by
  rw [error_fit, he, halfSq_eq, Vec.normSq_eq]
  simp [hr]

end

section

variable {α : Type} [EuclideanScalar α] {s : LeastSquares α} {algorithm : Algorithm} {e : Entry α}

/-- What is left of every equation of an entry is within the tolerance of a row. -/
def RowsWithin (s : LeastSquares α) (x : Address → α) (e : Entry α) : Prop :=
  ∀ r ∈ e.equation.residuals x, Scalar.abs r ≤ s.rowTolerance

variable [Decompositions α]

theorem rowsWithin_settled {x : Address → α} :
    (s.settled algorithm).RowsWithin x e ↔ s.RowsWithin x e := Iff.rfl

omit [Decompositions α] in
theorem abs_le_rowTolerance (hc : 0 ≤ s.config.convergence) (r : α) :
    Scalar.abs r ≤ s.rowTolerance ↔ r ^ 2 ≤ 2 * (10 ^ 4 * s.config.convergence) := by
  have htwo : (2.0 : α) = 2 := by
    rw [ExactScalar.decimal_fraction]
    norm_num
  have hradicand : 2.0 * s.config.convergence * relaxation =
      2 * (10 ^ 4 * s.config.convergence) := by
    rw [mul_assoc, relaxed_eq, htwo]
  have hnonneg : 0 ≤ 2 * (10 ^ 4 * s.config.convergence) := by positivity
  rw [rowTolerance, hradicand, EuclideanScalar.abs_eq,
    ← pow_le_pow_iff_left₀ (abs_nonneg r) (EuclideanScalar.sqrt_nonneg hnonneg) two_ne_zero, sq_abs,
    EuclideanScalar.sq_sqrt hnonneg]

/-- If the fit comes close enough for the scale of an entry, it is close for each of its rows. -/
theorem rowsWithin_of_fit_le (he : e ∈ s.measuringEntries) (hscale : e.scale ≠ 0)
    (hc : 0 ≤ s.config.convergence)
    (h : (s.fit algorithm).error ≤ 10 ^ 4 * s.config.convergence * e.scale ^ 2) :
    s.RowsWithin (System.read (s.settled algorithm).values) e := by
  intro r hr
  rw [abs_le_rowTolerance hc]
  have hsq := sq_le_fit he hr
  have hpos : 0 < e.scale ^ 2 := by positivity
  rw [mul_pow] at hsq
  refine le_of_mul_le_mul_right ?_ hpos
  linarith

theorem rowsWithin_iff_of_alone (he : s.measuringEntries = [e]) (hrows : e.equation.rows = 1)
    (hscale : e.scale ≠ 0) (hc : 0 ≤ s.config.convergence) :
    s.RowsWithin (System.read (s.settled algorithm).values) e ↔
      (s.fit algorithm).error ≤ 10 ^ 4 * s.config.convergence * e.scale ^ 2 := by
  have hmem : e ∈ s.measuringEntries := he ▸ List.mem_singleton_self e
  refine ⟨fun h => ?_, rowsWithin_of_fit_le hmem hscale hc⟩
  obtain ⟨r, hr⟩ := List.length_eq_one_iff.1 ((Equation.residuals_length
    (System.read (s.settled algorithm).values) e.equation).trans hrows)
  have hwithin := (abs_le_rowTolerance hc r).1 (h r (by rw [hr]; exact List.mem_singleton_self r))
  rw [fit_eq_of_alone he hr, mul_pow]
  have hle := mul_le_mul_of_nonneg_right hwithin (sq_nonneg e.scale)
  linarith

end

end LeastSquares

end PlanarSketch

import PlanarSketch.Proofs.Comparison
import PlanarSketch.Proofs.LeastSquares.Solve

/-!
A solver that has nothing to do. Once its scalars meet the threshold, no method moves an unknown,
and the verdict and the diagnosis are those of the point it stands at. A solve that meets the
threshold brings the solver there, as soon as its solution is written.
-/

namespace PlanarSketch.LeastSquares

variable {α : Type} [Scalar α] {s : LeastSquares α} {a : Nat} {algorithm : Algorithm}

/-! ### Writing a solution -/

variable [Decompositions α]

/-- The solver after a solve whose solution is written. -/
def settled (s : LeastSquares α) (algorithm : Algorithm) : LeastSquares α :=
  (s.solve algorithm).2.applySolution

theorem value?_settled (algorithm : Algorithm) (h : a < s.size) :
    (s.settled algorithm).value? a =
      if a ∈ s.unknowns ++ s.outputs then some (System.read (s.solution algorithm) a)
      else s.value? a :=
  value?_applySolution_of_pending (s := (s.solve algorithm).2) rfl h

/-- The driving constraints alone decide on what is not measured. -/
theorem read_settled (algorithm : Algorithm) (hlt : a < s.size) (ha : a ∉ s.outputs) :
    System.read (s.settled algorithm).values a =
      System.read (s.drivingSystem.expand (s.descend algorithm).x) a := by
  have hvalue := s.value?_settled algorithm hlt
  by_cases hmem : a ∈ s.unknowns
  · rw [if_pos (List.mem_append_left _ hmem)] at hvalue
    rw [read_values hvalue, read_solution _ ha]
  · have hno : a ∉ s.unknowns ++ s.outputs := by
      rw [List.mem_append, not_or]
      exact ⟨hmem, ha⟩
    rw [if_neg hno] at hvalue
    rw [System.read_expand_of_not_mem (s := s.drivingSystem) _ hmem]
    exact read_congr hvalue

theorem unknowns_settled (s : LeastSquares α) (algorithm : Algorithm) :
    (s.settled algorithm).unknowns = s.unknowns := by
  refine unknowns_congr fun a => ?_
  rw [mem_unknowns, mem_unknowns, settled, fixed?_applySolution]
  exact Iff.rfl

theorem outputs_settled (algorithm : Algorithm) :
    a ∈ (s.settled algorithm).outputs ↔ a ∈ s.outputs := by
  rw [mem_outputs, mem_outputs, settled, fixed?_applySolution]
  exact Iff.rfl

/-- No driving constraint reads a scalar that is measured, and none is checked as a radius. -/
structure Unmixed (s : LeastSquares α) : Prop where
  reads : ∀ e ∈ s.drivingEntries, ∀ a ∈ e.equation.addresses, a < s.size ∧ a ∉ s.outputs
  radii : ∀ a ∈ s.radii, a < s.size ∧ a ∉ s.outputs

theorem Unmixed.sameDrive (h : s.Unmixed) (algorithm : Algorithm) :
    SameDrive s (s.settled algorithm) where
  config := rfl
  entries := rfl
  unknowns := s.unknowns_settled algorithm
  reads := by
    intro e he a ha hno
    obtain ⟨hlt, hout⟩ := h.reads e he a ha
    rw [read_settled algorithm hlt hout]
    exact System.read_expand_of_not_mem (s := s.drivingSystem) _ hno

/-- The next solve starts at the point where the last one ended. -/
theorem start_settled (s : LeastSquares α) (algorithm : Algorithm) :
    (s.settled algorithm).drivingSystem.start = (s.descend algorithm).x := by
  have hread : (s.settled algorithm).drivingSystem.start =
      s.unknowns.map (System.read (s.drivingSystem.expand (s.descend algorithm).x)) := by
    show (s.settled algorithm).unknowns.map (System.read (s.settled algorithm).values) = _
    rw [unknowns_settled]
    exact List.map_congr_left fun a ha =>
      read_settled algorithm (lt_of_mem_unknowns ha) (not_mem_outputs ha)
  rw [hread]
  exact s.proper_drivingSystem.map_read_expand (length_descend s algorithm)

/-! ### At rest -/

/-- The scalars satisfy the driving constraints up to the threshold. -/
def Resting (s : LeastSquares α) : Prop :=
  halfSq (s.drivingSystem.residuals s.drivingSystem.start) ≤ s.config.convergence

/-- The error that a solve tells of is the one of the point it ends at. -/
theorem Unmixed.error_settled (h : s.Unmixed) (algorithm : Algorithm) :
    halfSq ((s.settled algorithm).drivingSystem.residuals
      (s.settled algorithm).drivingSystem.start) = (s.descend algorithm).error := by
  rw [start_settled, (h.sameDrive algorithm).residuals (length_descend s algorithm)]
  exact (s.measures_descend algorithm).error.symm

theorem Unmixed.resting_settled (h : s.Unmixed)
    (hstatus : (s.solve algorithm).1 = .success ∨ (s.solve algorithm).1 = .invalid) :
    (s.settled algorithm).Resting := by
  rw [Resting, h.error_settled]
  exact le_of_classify hstatus

variable [Scalar.Consistent α]

namespace Resting

theorem descend_eq (h : s.Resting) (algorithm : Algorithm) :
    s.descend algorithm = ⟨s.drivingSystem.start,
      halfSq (s.drivingSystem.residuals s.drivingSystem.start), 0⟩ := by
  refine Problem.minimize_of_inactive ?_ _ algorithm
  have hno := Scalar.Consistent.not_lt_of_le h
  simp only [isActive, problem, limits, hno, decide_false, Bool.false_and]

/-- A solve finds what is not measured where it is. -/
theorem read_solution_eq (h : s.Resting) (algorithm : Algorithm) (ha : a ∉ s.outputs) :
    System.read (s.solution algorithm) a = System.read s.values a := by
  rw [read_solution _ ha, h.descend_eq]
  exact s.proper_drivingSystem.read_expand_start a

theorem found?_eq (h : s.Resting) (algorithm : Algorithm) (ha : a ∈ s.unknowns) :
    (s.solve algorithm).2.found? a = s.value? a := by
  obtain ⟨v, hv⟩ := Option.isSome_iff_exists.1 (value?_isSome.2 (lt_of_mem_unknowns ha))
  rw [found?_solve, if_pos (List.mem_append_left _ ha), h.read_solution_eq _ (not_mem_outputs ha),
    read_values hv, hv]

theorem read_settled_eq (h : s.Resting) (algorithm : Algorithm) (hlt : a < s.size)
    (ha : a ∉ s.outputs) :
    System.read (s.settled algorithm).values a = System.read s.values a := by
  rw [read_settled algorithm hlt ha, h.descend_eq]
  exact s.proper_drivingSystem.read_expand_start a

end Resting

/-- A solve after a solve that met the threshold finds the same point, and tells the same of it. -/
theorem Unmixed.solve_settled (h : s.Unmixed)
    (hstatus : (s.solve algorithm).1 = .success ∨ (s.solve algorithm).1 = .invalid)
    (b : Algorithm) : ((s.settled algorithm).solve b).1 = (s.solve algorithm).1 ∧
      ((s.settled algorithm).solve b).2.diagnosis = (s.solve algorithm).2.diagnosis := by
  have hrest := h.resting_settled hstatus
  have hsame := h.sameDrive algorithm
  have hx : ((s.settled algorithm).descend b).x = (s.descend algorithm).x := by
    rw [hrest.descend_eq, start_settled]
  have hdiagnosis : (s.settled algorithm).diagnose ((s.settled algorithm).descend b).x =
      s.diagnose (s.descend algorithm).x := by
    rw [hx, hsame.diagnose (length_descend s algorithm)]
  have herror : ((s.settled algorithm).descend b).error = (s.descend algorithm).error := by
    rw [hrest.descend_eq, h.error_settled]
  have hread : ∀ r ∈ s.radii, System.read ((s.settled algorithm).solution b) r =
      System.read (s.solution algorithm) r := by
    intro r hr
    obtain ⟨hlt, hout⟩ := h.radii r hr
    rw [hrest.read_solution_eq b (mt (outputs_settled algorithm).1 hout),
      read_settled algorithm hlt hout, read_solution algorithm hout]
  refine ⟨?_, hdiagnosis⟩
  rw [status_solve, status_solve, hdiagnosis, herror]
  refine classify_congr rfl ?_
  -- the same radii are checked, and they have the same values
  constructor
  · rintro ⟨r, hr, hneg⟩
    exact ⟨r, hr, by rwa [← hread r hr]⟩
  · rintro ⟨r, hr, hneg⟩
    exact ⟨r, hr, by rwa [hread r hr]⟩

end PlanarSketch.LeastSquares

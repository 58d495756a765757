import PlanarSketch.Proofs.LeastSquares.Solve
import PlanarSketch.Proofs.Session.Reads

/-!
Two sessions with the same geometry that is driven by the same constraints. A solve takes the same
way in both, and finds the same values for the geometry and the same constraints in conflict. Only
the radii that are looked at afterwards may differ, and so may the verdict.
-/

namespace PlanarSketch

open LeastSquares

namespace Session

variable {α : Type} [Scalar α] {s t : Session (LeastSquares α) α}

structure Alike (s t : Session (LeastSquares α) α) : Prop where
  sound : Sound s
  sound' : Sound t
  owns : ∀ {o} {a : Nat}, t.Owns o a ↔ s.Owns o a
  drive : SameDrive s.solver t.solver
  reads : ∀ {a : Nat}, a < s.solver.size →
    System.read t.solver.values a = System.read s.solver.values a

namespace Alike

variable [Decompositions α]

theorem descend_eq (h : Alike s t) (algorithm : Algorithm) :
    t.solver.descend algorithm = s.solver.descend algorithm :=
  h.drive.descend (fun _ ha => h.reads (lt_of_mem_unknowns ha)) algorithm

/-- Scalars of geometry are solved for the same values. -/
theorem read_solution_eq (h : Alike s t) (algorithm : Algorithm) {o : Outline} {a : Nat}
    (ho : s.Owns o a) :
    System.read (t.solver.solution algorithm) a = System.read (s.solver.solution algorithm) a := by
  rw [read_solution _ (h.sound'.not_mem_outputs (.inr ⟨o, h.owns.2 ho⟩)),
    read_solution _ (h.sound.not_mem_outputs (.inr ⟨o, ho⟩)), h.descend_eq]
  exact h.drive.read_expand (length_descend _ _) fun _ => h.reads (ho.lt h.sound.toAnchored)

theorem diagnose_eq (h : Alike s t) (algorithm : Algorithm) :
    t.solver.diagnose (t.solver.descend algorithm).x =
      s.solver.diagnose (s.solver.descend algorithm).x := by
  rw [h.descend_eq, h.drive.diagnose (length_descend s.solver algorithm)]

theorem found?_eq (h : Alike s t) (algorithm : Algorithm) {a : Nat} (ha : a ∈ s.solver.unknowns) :
    (t.solver.solve algorithm).2.found? a = (s.solver.solve algorithm).2.found? a := by
  have ha' : a ∈ t.solver.unknowns := by rwa [h.drive.unknowns]
  rw [found?_of_mem_unknowns algorithm ha, found?_of_mem_unknowns algorithm ha', h.descend_eq]
  exact congrArg some (h.drive.read_expand (length_descend _ _) fun hno => absurd ha hno)

theorem status_eq (h : Alike s t) (algorithm : Algorithm)
    (hinverted : t.solver.Inverted (t.solver.solution algorithm) ↔
      s.solver.Inverted (s.solver.solution algorithm)) :
    (t.solver.solve algorithm).1 = (s.solver.solve algorithm).1 := by
  rw [status_solve, status_solve, h.diagnose_eq, h.descend_eq]
  exact classify_congr h.drive.config hinverted

end Alike

end Session

end PlanarSketch

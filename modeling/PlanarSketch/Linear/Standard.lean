import PlanarSketch.Binary64
import PlanarSketch.Linear.Algebra
import PlanarSketch.Proofs.Linear.Lengths

/-!
Linear algebra by the square-root method and by plane rotations, as it is used on doubles.
-/

namespace PlanarSketch

variable {α : Type} [Scalar α]

namespace LinearAlgebra

def standard : LinearAlgebra α where
  positive? rows b := Cholesky.solve? rows.length rows b
  leastNorm := LeastNorm.solve 1e-12

theorem sized_standard : (standard : LinearAlgebra α).Sized where
  positive := by
    intro n rows b x hrows hb h
    obtain ⟨rfl, hrow⟩ := hrows
    exact Cholesky.length_solve ⟨rfl, hrow⟩ hb h
  leastNorm := LeastNorm.length_solve 1e-12

end LinearAlgebra

@[reducible] def Decompositions.standard : Decompositions α :=
  ⟨LinearAlgebra.standard, LinearAlgebra.sized_standard⟩

instance : Decompositions Float := .standard

end PlanarSketch

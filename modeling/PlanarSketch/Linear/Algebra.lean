import PlanarSketch.Linear.Matrix

/-!
What is asked of linear algebra: solutions of two sorts of systems, of which nothing need be known
but how long they are. How they are found is left open; a scalar brings its own way along.
-/

namespace PlanarSketch

/-- Solvers for the linear systems inside a step. -/
structure LinearAlgebra (α : Type) where
  /-- Solution of a symmetric positive system, unless it is not positive. -/
  positive? : RowMatrix α → Vec α → Option (Vec α)
  leastNorm : ColumnMatrix α → Vec α → Vec α

structure LinearAlgebra.Sized {α : Type} [Scalar α] (alg : LinearAlgebra α) : Prop where
  positive : ∀ {n rows b x}, RowMatrix.Square n rows → b.length = n →
    alg.positive? rows b = some x → x.length = n
  leastNorm : ∀ a b, (alg.leastNorm a b).length = a.width

/-- The linear algebra that goes with a scalar. -/
class Decompositions (α : Type) [Scalar α] where
  algebra : LinearAlgebra α
  sized : algebra.Sized

end PlanarSketch

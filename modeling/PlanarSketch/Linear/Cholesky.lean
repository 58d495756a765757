import PlanarSketch.Linear.Matrix

/-!
Symmetric positive systems by the square-root method. Each step takes the root of the leading
entry, removes the first row and column from the system and from the right-hand side, and
recovers the first unknown from the others.
-/

namespace PlanarSketch.Cholesky

variable {α : Type} [Scalar α]

/-- What is left of a row after its first entry `v` has been eliminated by `factor`. -/
def eliminate (factor : Vec α) (v : α) (row : Vec α) : Vec α :=
  Vec.sub row.tail (Vec.scale v factor)

/-- Solves the system of the first `n` rows; refuses a leading entry that is not positive. -/
def solve? : Nat → RowMatrix α → Vec α → Option (Vec α)
  | 0, _, _ => some []
  | n + 1, (a :: b) :: rows, r :: rs =>
      if 0.0 < a then
        let root := Scalar.sqrt a
        let factor := b.map (· / root)
        let y := r / root
        let rest := List.zipWith (eliminate factor) factor rows
        (solve? n rest (Vec.sub rs (Vec.scale y factor))).map fun x =>
          (y - Vec.dot factor x) / root :: x
      else none
  | _ + 1, _, _ => some []

end PlanarSketch.Cholesky

import PlanarSketch.Scalar

/-!
Representatives of an angle modulo a full turn: `wrap` in `(-π, π]` for differences of angles,
`normalize` in `[0, 2π)` for angles that are stored.
-/

namespace PlanarSketch.Angle

variable {α : Type} [Scalar α]

/-- Angles that fall short of a full turn by less than this are stored as zero. -/
def snapTolerance : α := 1e-8

def wrap (angle : α) : α :=
  let a := Scalar.rem angle Scalar.tau
  if Scalar.pi < a then a - Scalar.tau
  else if a ≤ -Scalar.pi then a + Scalar.tau
  else a

def normalize (angle : α) : α :=
  let r := Scalar.rem angle Scalar.tau
  if r < 0.0 ∧ -snapTolerance < r then 0.0
  else if r < 0.0 then r + Scalar.tau
  else if Scalar.tau ≤ r then r - Scalar.tau
  else r

end PlanarSketch.Angle

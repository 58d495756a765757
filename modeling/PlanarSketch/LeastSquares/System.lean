import PlanarSketch.LeastSquares.Equation
import PlanarSketch.Linear.Matrix

/-!
Scaled equations over an array of scalars of which only some may move. A point of the search
space assigns the unknowns; it is expanded to an assignment of all scalars before the equations
are read, and derivatives are taken by central differences.
-/

namespace PlanarSketch

structure System (α : Type) where
  values : Array α
  unknowns : List Address
  equations : List (Equation α × α)

namespace System

variable {α : Type} [Scalar α]

def read (values : Array α) (a : Address) : α := values.getD a 0.0

def start (s : System α) : Vec α := s.unknowns.map (read s.values)

/-- All scalars, with the unknowns set to the coordinates of a point. -/
def expand (s : System α) (x : Vec α) : Array α :=
  (s.unknowns.zip x).foldl (fun values e => values.setIfInBounds e.1 e.2) s.values

def equationResiduals (values : Array α) (e : Equation α × α) : Vec α :=
  (e.1.residuals (read values)).map (· * e.2)

def residuals (s : System α) (x : Vec α) : Vec α :=
  let values := s.expand x
  s.equations.flatMap (equationResiduals values)

def height (s : System α) : Nat := s.equations.foldr (fun e n => e.1.rows + n) 0

/-- Distance of the probes from a coordinate, relative to its size. -/
def probe (x : α) : α := 1e-7 * (1.0 + Scalar.abs x)

/-- Rate of change of the residuals along one coordinate. -/
def slope (s : System α) (x : Vec α) (j : Nat) (xj : α) : Vec α :=
  let h := probe xj
  let forward := s.residuals (x.set j (xj + h))
  let backward := s.residuals (x.set j (xj - h))
  (Vec.sub forward backward).map (· / (2.0 * h))

def jacobian (s : System α) (x : Vec α) : ColumnMatrix α :=
  ⟨s.height, x.zipIdx.map fun (xj, j) => s.slope x j xj⟩

/-- First row and number of rows of each equation, when the first of them begins at `start`. -/
def rowRanges (start : Nat) : List (Equation α × α) → List (Nat × Nat)
  | [] => []
  | e :: es => (start, e.1.rows) :: rowRanges (start + e.1.rows) es

theorem equationResiduals_length (values : Array α) (e : Equation α × α) :
    (equationResiduals values e).length = e.1.rows := by
  simp [equationResiduals, Equation.residuals_length]

theorem residuals_length (s : System α) (x : Vec α) : (s.residuals x).length = s.height := by
  unfold residuals height
  generalize s.expand x = values
  induction s.equations with
  | nil => rfl
  | cons e es ih => simp [equationResiduals_length, ih]

end System

end PlanarSketch

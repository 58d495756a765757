import PlanarSketch.Linear.Matrix

/-!
The shortest least-squares solution of a linear system, by plane rotations. Pairs of columns are
turned until all columns are orthogonal; their lengths are then the singular values, and each
column long enough to count contributes one orthogonal direction to the solution.
-/

namespace PlanarSketch.LeastNorm

variable {α : Type} [Scalar α]

/-- A column together with the combination of the given columns that it has become. -/
structure Tracked (α : Type) where
  column : Vec α
  weights : Vec α

/-- Cosine of an angle below which two columns count as orthogonal. -/
def orthogonality : α := 1e-15

/-- Rounds of rotations over all pairs; far more than are ever needed. -/
def sweepLimit : Nat := 60

def turn (c s : α) (p q : Vec α) : Vec α × Vec α :=
  (Vec.sub (Vec.scale c p) (Vec.scale s q), Vec.add (Vec.scale s p) (Vec.scale c q))

/-- Turns two columns in their plane until they are orthogonal; tells whether it had to. -/
def rotate (p q : Tracked α) : Tracked α × Tracked α × Bool :=
  let a := Vec.normSq p.column
  let b := Vec.normSq q.column
  let g := Vec.dot p.column q.column
  if Scalar.abs g ≤ orthogonality * Scalar.sqrt (a * b) then (p, q, false)
  else
    let z := (b - a) / (2.0 * g)
    let tangent := 1.0 / (Scalar.abs z + Scalar.sqrt (1.0 + z * z))
    let t := if z < 0.0 then -tangent else tangent
    let c := 1.0 / Scalar.sqrt (1.0 + t * t)
    let s := c * t
    let columns := turn c s p.column q.column
    let weights := turn c s p.weights q.weights
    (⟨columns.1, weights.1⟩, ⟨columns.2, weights.2⟩, true)

def rotateAll (p : Tracked α) : List (Tracked α) → Tracked α × List (Tracked α) × Bool
  | [] => (p, [], false)
  | q :: qs =>
      let (p, q, turned) := rotate p q
      let (p, qs, later) := rotateAll p qs
      (p, q :: qs, turned || later)

/-- One round over all pairs of the first `n` columns. -/
def sweep : Nat → List (Tracked α) → List (Tracked α) × Bool
  | n + 1, p :: qs =>
      let (p, qs, turned) := rotateAll p qs
      let (qs, later) := sweep n qs
      (p :: qs, turned || later)
  | _, qs => (qs, false)

def orthogonalize : Nat → List (Tracked α) → List (Tracked α)
  | 0, qs => qs
  | n + 1, qs =>
      let (qs, turned) := sweep qs.length qs
      if turned then orthogonalize n qs else qs

def tracked (columns : List (Vec α)) : List (Tracked α) :=
  columns.zipIdx.map fun (c, i) => ⟨c, Vec.axis columns.length i⟩

/-- Adds up one direction per column longer than `bound`, from zero in `n` dimensions. The columns
are those of a matrix that has been divided by `c`. -/
def combine (n : Nat) (bound c : α) (direction measure : Tracked α → Vec α) (b : Vec α)
    (qs : List (Tracked α)) : Vec α :=
  qs.foldl (fun x q =>
    if bound < c * Vec.norm q.column then
      let share := Vec.dot (measure q) b / (c * Vec.normSq q.column)
      Vec.add x (Vec.scale share (direction q))
    else x) (Vec.zero n)

/-- What a matrix is divided by, so that no product of its entries is too large or too small to be
told from zero. -/
def unit (a : ColumnMatrix α) : α := if a.magnitude == 0.0 then 1.0 else a.magnitude

/-- Minimises `|a x - b|`, and `|x|` among the minimisers; singular values up to `bound` are taken
for zero. A wide matrix is worked on by its rows. -/
def solve (bound : α) (a : ColumnMatrix α) (b : Vec α) : Vec α :=
  let c := unit a
  let a := a.unscale c
  if a.width ≤ a.height then
    combine a.width bound c Tracked.weights Tracked.column b
      (orthogonalize sweepLimit (tracked a.columns))
  else
    combine a.width bound c Tracked.column Tracked.weights b
      (orthogonalize sweepLimit (tracked a.rows))

end PlanarSketch.LeastNorm

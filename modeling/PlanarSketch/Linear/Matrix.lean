import PlanarSketch.Linear.Vector

/-!
Matrices: general ones by their columns, with a height that also holds when there are none, and
square ones by their rows.
-/

namespace PlanarSketch

/-- A square matrix by its rows. -/
abbrev RowMatrix (α : Type) := List (Vec α)

structure ColumnMatrix (α : Type) where
  height : Nat
  columns : List (Vec α)

namespace ColumnMatrix

variable {α : Type} [Scalar α]

def width (a : ColumnMatrix α) : Nat := a.columns.length

def row (a : ColumnMatrix α) (i : Nat) : Vec α := a.columns.map fun c => c.getD i 0.0

def rows (a : ColumnMatrix α) : List (Vec α) := (List.range a.height).map a.row

def mulVec (a : ColumnMatrix α) (v : Vec α) : Vec α := a.rows.map fun r => r.dot v

/-- The transpose applied to a vector. -/
def transposeMulVec (a : ColumnMatrix α) (v : Vec α) : Vec α := a.columns.map fun c => c.dot v

/-- The largest magnitude of an entry, zero when there is none. -/
def magnitude (a : ColumnMatrix α) : α := Vec.greatest (a.columns.map Vec.greatestAbs)

/-- Divides every entry. -/
def unscale (c : α) (a : ColumnMatrix α) : ColumnMatrix α :=
  ⟨a.height, a.columns.map fun v => v.map (· / c)⟩

/-- Inner products of all columns. -/
def gram (a : ColumnMatrix α) : RowMatrix α := a.columns.map fun c => a.columns.map fun d => c.dot d

end ColumnMatrix

namespace RowMatrix

variable {α : Type} [Scalar α]

/-- As many rows as columns. -/
def Square (n : Nat) (rows : RowMatrix α) : Prop := rows.length = n ∧ ∀ r ∈ rows, r.length = n

def identity (n : Nat) : RowMatrix α := (List.range n).map fun i => Vec.axis n i

def diagonal (rows : RowMatrix α) : Vec α := rows.zipIdx.map fun (r, i) => r.getD i 0.0

def addDiagonal (c : α) (rows : RowMatrix α) : RowMatrix α :=
  rows.zipIdx.map fun (r, i) => r.modify i (· + c)

def mulVec (rows : RowMatrix α) (v : Vec α) : Vec α := rows.map fun r => r.dot v

def outer (u v : Vec α) : RowMatrix α := u.map fun a => v.map fun b => a * b

def scale (c : α) (rows : RowMatrix α) : RowMatrix α := rows.map (Vec.scale c)

def add (a b : RowMatrix α) : RowMatrix α := List.zipWith Vec.add a b

def sub (a b : RowMatrix α) : RowMatrix α := List.zipWith Vec.sub a b

def column (rows : RowMatrix α) (j : Nat) : Vec α := rows.map fun r => r.getD j 0.0

def mul (a b : RowMatrix α) : RowMatrix α :=
  let columns := (List.range b.length).map (column b)
  a.map fun r => columns.map fun c => r.dot c

end RowMatrix

end PlanarSketch

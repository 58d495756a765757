import PlanarSketch.Linear.Algebra

/-!
Which constraints depend on others. The rows of the derivative are visited in order and made
orthogonal to those accepted before; a row of which nothing is left is dependent. A constraint
with dependent rows is redundant if it holds, wholly or in part, and otherwise conflicts with the
owners of the rows that it depends on.
-/

namespace PlanarSketch

structure Diagnosis where
  conflicting : List Int
  redundant : List Int
  partiallyRedundant : List Int
  freedom : Int
  deriving DecidableEq, Repr

def Diagnosis.empty : Diagnosis := ⟨[], [], [], 0⟩

/-- The rows of one constraint with their residuals. -/
structure RowGroup (α : Type) where
  tag : Int
  rows : List (Vec α × α)

namespace Diagnosis

/-- Accepted rows, with an orthonormal basis of their span and the group each belongs to. -/
structure Span (α : Type) where
  basis : List (Vec α)
  accepted : List (Nat × Vec α)

/-- Groups by their verdict, oldest first. -/
structure Verdicts where
  conflicting : List Nat
  redundant : List Nat
  partiallyRedundant : List Nat

variable {α : Type} [Scalar α]

/-- What must be left of a row, relative to its length, for it to be independent. -/
def rankTolerance : α := 1e-8

/-- Coefficients above this make an accepted row part of a dependency. -/
def dependencyTolerance : α := 1e-6

/-- A row without its components along the basis. -/
def reduce (basis : List (Vec α)) (row : Vec α) : Vec α :=
  basis.foldl (fun v b => Vec.sub v (Vec.scale (Vec.dot b v) b)) row

def isIndependent (row left : Vec α) : Bool :=
  rankTolerance * Scalar.larger (Vec.norm row) 1.0 < Vec.norm left

def direction (v : Vec α) : Vec α := v.map (· / Vec.norm v)

/-- Splits the rows of a group into accepted ones, which extend the span, and dependent ones. -/
def absorb (owner : Nat) : List (Vec α) → Span α → Span α × List (Vec α)
  | [], s => (s, [])
  | row :: rows, s =>
      let left := reduce s.basis row
      if isIndependent row left then
        absorb owner rows ⟨s.basis ++ [direction left], s.accepted ++ [(owner, row)]⟩
      else
        let (s, dependent) := absorb owner rows s
        (s, row :: dependent)

def insertTag (t : Int) : List Int → List Int
  | [] => [t]
  | u :: us => if t < u then t :: u :: us else if t = u then u :: us else u :: insertTag t us

/-- The tags of groups, ascending and without repetition; negative tags are not reported. -/
def tags (groups : List (RowGroup α)) (indices : List Nat) : List Int :=
  (indices.filterMap fun i => groups[i]?.map RowGroup.tag).foldl
    (fun ts t => if 0 ≤ t then insertTag t ts else ts) []

section

variable [Decompositions α]

/-- The shares that accepted rows have in a row. -/
def shares (s : Span α) (row : Vec α) : Vec α :=
  Decompositions.algebra.leastNorm ⟨row.length, s.accepted.map Prod.snd⟩ row

/-- Owners of the accepted rows that a row combines. -/
def owners (s : Span α) (row : Vec α) : List Nat :=
  if s.accepted.isEmpty then []
  else
    (s.accepted.zip (shares s row)).filterMap fun (a, c) =>
      if dependencyTolerance < Scalar.abs c then some a.1 else none

def visit (tolerance : α) (state : Span α × Verdicts) (g : RowGroup α × Nat) :
    Span α × Verdicts :=
  let (s, v) := state
  let (group, index) := g
  let (s, dependent) := absorb index (group.rows.map Prod.fst) s
  if dependent.isEmpty then (s, v)
  else if !group.rows.all fun r => Scalar.abs r.2 ≤ tolerance then
    (s, { v with conflicting := v.conflicting ++ index :: dependent.flatMap (owners s) })
  else if dependent.length = group.rows.length then
    (s, { v with redundant := v.redundant ++ [index] })
  else (s, { v with partiallyRedundant := v.partiallyRedundant ++ [index] })

def diagnose (width : Nat) (tolerance : α) (groups : List (RowGroup α)) : Diagnosis :=
  let (s, v) := groups.zipIdx.foldl (visit tolerance) (⟨[], []⟩, ⟨[], [], []⟩)
  { conflicting := tags groups v.conflicting
    redundant := tags groups v.redundant
    partiallyRedundant := tags groups v.partiallyRedundant
    freedom := Int.ofNat width - Int.ofNat s.basis.length }

end

end Diagnosis

end PlanarSketch

import PlanarSketch.Plane
import PlanarSketch.Sketch.Constraint

/-!
What passes between a sketch and a solver: parameter addresses, geometry described by the
addresses of its scalars, and constraints as a kind with positional arguments.
-/

namespace PlanarSketch

abbrev Address := Nat

/-- A shape given by the addresses of its points and scalars. -/
abbrev Record := Shape (Vec2 Address) Address

/-- Every address that a record mentions: those of its points, then its own. -/
def Shape.addresses (r : Record) : List Address :=
  r.points.flatMap (fun p => [p.x, p.y]) ++ r.scalars

/-- Name under which a solver holds a record. -/
structure Handle where
  val : UInt32
  deriving DecidableEq, Repr, Inhabited

inductive Arg (α : Type) where
  /-- A scalar of a geometry or a named parameter. -/
  | param (a : Address)
  /-- A scalar that was allocated for this constraint alone. -/
  | datum (a : Address)
  | geometry (h : Handle)
  | bool (b : Bool)
  | number (x : α)
  | tag (t : Int)
  | alignment (a : Alignment)
  | scale (x : α)
  deriving DecidableEq, Repr

structure Call (α : Type) where
  kind : Kind
  args : List (Arg α)
  deriving DecidableEq, Repr

/-- What the argument of a call must be. -/
inductive ArgSort where
  | address | handle | number | boolean | tag | drivingFlag | alignment | scale
  deriving DecidableEq, Repr

def ArgSort.text : ArgSort → String
  | address => "a parameter address"
  | handle => "a geometry handle"
  | number => "a number"
  | boolean => "a boolean"
  | tag => "a tag"
  | drivingFlag => "the driving flag"
  | alignment => "an internal alignment"
  | scale => "a scale"

inductive SolverError where
  | addressOutOfRange (a : Address)
  | unknownHandle (h : Handle)
  | arityMismatch (kind : Kind) (found : Nat)
  | argumentType (kind : Kind) (index : Nat) (expected : ArgSort)
  | unsupportedGeometry (kind : Kind) (found : GeometryClass)
  deriving DecidableEq, Repr

def SolverError.message : SolverError → String
  | addressOutOfRange a => s!"parameter address {a} is out of range"
  | unknownHandle h => s!"unknown geometry handle {h.val.toNat}"
  | arityMismatch k found =>
      s!"constraint <{k.name}> expects {k.arity true} arguments, got {found}"
  | argumentType k i expected =>
      s!"argument {i} of constraint <{k.name}> must be {expected.text}"
  | unsupportedGeometry k c => s!"constraint <{k.name}> does not support {c.name} geometry"

end PlanarSketch

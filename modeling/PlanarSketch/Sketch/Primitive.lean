import PlanarSketch.Sketch.Constraint

/-!
What a sketch is made of: primitives, which are geometry or constraints, and named parameters.
-/

namespace PlanarSketch

inductive Primitive (α : Type) where
  | geometry (g : Geometry α)
  | constraint (c : Constraint α)
  deriving BEq

/-- The class of a geometry or the kind of a constraint. -/
inductive PrimitiveSort where
  | geometry (c : GeometryClass)
  | constraint (k : Kind)
  deriving DecidableEq, Repr

def PrimitiveSort.name : PrimitiveSort → String
  | geometry c => c.name
  | constraint k => k.name

namespace Primitive

variable {α : Type}

def id : Primitive α → Oid
  | geometry g => g.id
  | constraint c => c.id

def sort : Primitive α → PrimitiveSort
  | geometry g => .geometry g.geometryClass
  | constraint c => .constraint c.kind

def geometry? : Primitive α → Option (Geometry α)
  | geometry g => some g
  | constraint _ => none

def constraint? : Primitive α → Option (Constraint α)
  | constraint c => some c
  | geometry _ => none

end Primitive

/-- A free-standing scalar that constraints share by name. -/
structure NamedParam (α : Type) where
  name : String
  value : α
  deriving BEq, Repr

/-- One entry of a flat list of objects. -/
inductive SketchObject (α : Type) where
  | param (p : NamedParam α)
  | primitive (p : Primitive α)
  deriving BEq

structure Document (α : Type) where
  params : List (NamedParam α)
  primitives : List (Primitive α)
  deriving BEq

end PlanarSketch

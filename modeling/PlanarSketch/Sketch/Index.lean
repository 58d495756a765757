import PlanarSketch.Sketch.Error
import PlanarSketch.Table

/-!
The primitives of a sketch under their ids, in the order in which the ids came in, with a count
of the insertions since the last clear.
-/

namespace PlanarSketch

structure Index (α : Type) where
  items : Table Oid (Primitive α)
  counter : Nat

namespace Index

variable {α : Type}

def empty : Index α := ⟨.empty, 0⟩

/-- Insertions are counted up to this number. -/
def counterLimit : Nat := 4294967295

def has (x : Index α) (id : Oid) : Bool := x.items.contains id

def get? (x : Index α) (id : Oid) : Option (Primitive α) := x.items.find? id

def ids (x : Index α) : List Oid := x.items.keys

/-- All primitives, oldest id first. -/
def all (x : Index α) : List (Primitive α) := x.items.values

def geometries (x : Index α) : List (Geometry α) := x.all.filterMap Primitive.geometry?

def constraints (x : Index α) : List (Constraint α) := x.all.filterMap Primitive.constraint?

/-- Stores a primitive under its id; a present id keeps its place and is not counted again. -/
def set (x : Index α) (p : Primitive α) : Except SketchError (Index α) :=
  if x.has p.id then .ok { x with items := x.items.insert p.id p }
  else if x.counter = counterLimit then .error .counterOverflow
  else .ok ⟨x.items.insert p.id p, x.counter + 1⟩

/-- Replaces the primitive in the slot of a present id, whatever id the new one carries. -/
def put (x : Index α) (id : Oid) (p : Primitive α) : Index α :=
  if x.has id then { x with items := x.items.insert id p } else x

def delete (x : Index α) (id : Oid) : Index α := { x with items := x.items.erase id }

def get (x : Index α) (id : Oid) : Except SketchError (Primitive α) :=
  match x.get? id with
  | some p => .ok p
  | none => .error (.notFound id)

def geometry (x : Index α) (id : Oid) : Except SketchError (Geometry α) := do
  match ← x.get id with
  | .geometry g => .ok g
  | .constraint c => .error (.typeMismatch id .anyGeometry (.constraint c.kind))

/-- The geometry with an id, which must be of exactly this class. -/
def geometryOf (x : Index α) (c : GeometryClass) (id : Oid) :
    Except SketchError (Geometry α) := do
  let p ← x.get id
  match p with
  | .geometry g =>
      if g.geometryClass = c then .ok g
      else .error (.typeMismatch id (.geometry c) p.sort)
  | .constraint _ => .error (.typeMismatch id (.geometry c) p.sort)

def constraint (x : Index α) (id : Oid) : Except SketchError (Constraint α) := do
  match ← x.get id with
  | .constraint c => .ok c
  | .geometry g => .error (.typeMismatch id .anyConstraint (.geometry g.geometryClass))

end Index

end PlanarSketch

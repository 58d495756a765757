import PlanarSketch.Angle
import PlanarSketch.Session.Allocator
import PlanarSketch.Sketch.Index

/-!
Geometry on its way into the solver and back. Before a geometry the points it is built on get
their blocks; what belongs to the geometry itself lies in one block in the order of its
properties.
-/

namespace PlanarSketch.Layout

variable {σ α : Type} [Solver σ α]

/-- Gives a block to every listed point that has none. Points before one that is missing keep
theirs. -/
def pushPoints (x : Index α) :
    List Oid → Allocator × σ → Except SketchError Unit × (Allocator × σ)
  | [], s => (.ok (), s)
  | id :: ids, s =>
      if s.1.has id then pushPoints x ids s
      else
        match x.geometryOf .point id with
        | .error e => (.error e, s)
        | .ok g => pushPoints x ids (s.1.push s.2 g.id g.shape.scalars g.shape.fixed)

/-- Gives a block to a geometry that has none and owns scalars. -/
def pushOwn (g : Geometry α) (s : Allocator × σ) : Allocator × σ :=
  if s.1.has g.id || g.shape.scalars.isEmpty then s
  else s.1.push s.2 g.id g.shape.scalars g.shape.fixed

def push (x : Index α) (g : Geometry α) (s : Allocator × σ) :
    Except SketchError Unit × (Allocator × σ) :=
  match pushPoints x g.points s with
  | (.error e, s) => (.error e, s)
  | (.ok (), s) => (.ok (), pushOwn g s)

/-- Copies the scalars of a block into the listed properties of a geometry, angles normalised. -/
def pullFrom [Scalar α] (s : σ) (base : Address) :
    List (Property × Nat) → Geometry α → Except SketchError Unit × Geometry α
  | [], g => (.ok (), g)
  | (p, i) :: ps, g =>
      match Solver.value s (base + i) with
      | .error e => (.error (.solver e), g)
      | .ok v =>
          let v := if p.isAngle then Angle.normalize v else v
          pullFrom s base ps { g with shape := g.shape.set p v }

/-- Copies the solver's scalars back; a geometry without a block stays as it is. -/
def pull [Scalar α] (s : σ) (al : Allocator) (g : Geometry α) :
    Except SketchError Unit × Geometry α :=
  match al.blocks.find? g.id with
  | none => (.ok (), g)
  | some base => pullFrom s base g.geometryClass.ownProperties.zipIdx g

def propertyAddress (al : Allocator) (g : Geometry α) (p : Property) :
    Except SketchError Address :=
  match g.geometryClass.offset? p with
  | none => .error (.unknownProperty g.geometryClass p)
  | some i => (al.address g.id).map (· + i)

def pointAddress (al : Allocator) (id : Oid) : Except SketchError (Vec2 Address) :=
  (al.address id).map fun a => ⟨a, a + 1⟩

/-- The addresses that describe a geometry to the solver. -/
def record (al : Allocator) (g : Geometry α) : Except SketchError Record :=
  g.shape.mapM (pointAddress al) fun i => (al.address g.id).map (· + i)

end PlanarSketch.Layout

import PlanarSketch.Sketch.Primitive
import PlanarSketch.Solver.Call

/-!
Why an operation on a sketch is refused. How well a solve went is not an error but a status.
-/

namespace PlanarSketch

/-- Where a session stands in its cycle of building, solving and applying. -/
inductive Phase where
  | empty | building | solved
  deriving DecidableEq, Repr

def Phase.name : Phase → String
  | empty => "empty"
  | building => "building"
  | solved => "solved"

/-- What a primitive was expected to be. -/
inductive Expected where
  | anyGeometry | anyConstraint
  | geometry (c : GeometryClass)
  deriving DecidableEq, Repr

def Expected.name : Expected → String
  | anyGeometry => "geometry"
  | anyConstraint => "constraint"
  | geometry c => c.name

inductive SketchError where
  | notFound (id : Oid)
  | addressNotFound (id : Oid)
  | duplicateId (id : Oid)
  | typeMismatch (id : Oid) (expected : Expected) (found : PrimitiveSort)
  | unknownKind (name : String)
  | unknownProperty (c : GeometryClass) (p : Property)
  | unknownName (name : String)
  /-- A constraint stands where geometry is referred to. -/
  | unsupportedReference (id : Oid)
  | counterOverflow
  | missingParameter (kind : Kind) (name : String)
  | malformedParameter (kind : Kind) (spec : ParamSpec) (found : ValueSort)
  | nonDrivingExtra (kind : Kind)
  | tagOutOfRange (id : Oid)
  /-- A solution is applied in a phase that has none. -/
  | notSolved (phase : Phase)
  | solver (e : SolverError)
  deriving DecidableEq, Repr

/-- What a malformed parameter should have been. -/
def Slot.expectation : Slot → String
  | .geometry _ => "a primitive id"
  | _ => "a number or boolean"

def SketchError.message : SketchError → String
  | notFound id => s!"sketch primitive {id.text} not found"
  | addressNotFound id => s!"sketch primitive {id.text} has no allocated parameters"
  | duplicateId id => s!"sketch primitive with id {id.text} already exists"
  | typeMismatch id expected found =>
      s!"sketch primitive {id.text} is a {found.name}, expected {expected.name}"
  | unknownKind name => s!"unknown primitive kind: {name}"
  | unknownProperty c p => s!"unknown property {p.name} for primitive <{c.name}>"
  | unknownName name => s!"unknown sketch parameter: {name}"
  | unsupportedReference id =>
      s!"sketch primitive {id.text} is a constraint and cannot be referenced as geometry"
  | counterOverflow => "sketch index counter overflow"
  | missingParameter k name => s!"constraint <{k.name}> is missing parameter {name}"
  | malformedParameter k spec found =>
      s!"malformed parameter {spec.name} in constraint <{k.name}>: " ++
        s!"expected {spec.slot.expectation}, got {found.text}"
  | nonDrivingExtra k => s!"extra constraint <{k.name}> must be driving"
  | tagOutOfRange id => s!"constraint id {id.text} does not fit into a solver tag"
  | notSolved phase => s!"apply_solution is not valid in the {phase.name} state"
  | solver e => e.message

end PlanarSketch

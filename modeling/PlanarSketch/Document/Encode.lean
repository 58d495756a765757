import PlanarSketch.Json.Printer
import PlanarSketch.Sketch.Index
import PlanarSketch.Solver.Config

/-!
The JSON form of sketches. Geometry writes its class, its id, its points and its scalars;
a constraint writes its options only when they are set, and its parameters in the order of their
names.
-/

namespace PlanarSketch

variable {α : Type}

def Oid.toJson (id : Oid) : Json α := .ofNat id.val.toNat

/-- The members of a geometry besides its class. -/
def Geometry.members [Scalar α] (g : Geometry α) : List (String × Json α) :=
  ("id", g.id.toJson) ::
    (g.geometryClass.pointNames.zip (g.points.map Oid.toJson) ++
      ((g.geometryClass.ownProperties.map Property.name).zip (g.shape.scalars.map Json.ofScalar) ++
        if g.geometryClass = .point then [("fixed", .bool g.shape.fixed)] else []))

def Geometry.toJson [Scalar α] (g : Geometry α) : Json α :=
  .obj (("type", .str g.geometryClass.name) :: g.members)

def PropertyRef.toJson (r : PropertyRef) : Json α :=
  .obj [("o_id", r.target.toJson), ("param", .str r.property.name)]

def ParamValue.toJson [Scalar α] : ParamValue α → Json α
  | bool b => .bool b
  | number x => .ofScalar x
  | name s => .str s
  | ref r => r.toJson

def Alignment.code : Alignment → Nat
  | free => 0
  | internal => 1

def optionalMember {β : Type} (name : String) (f : β → Json α) :
    Option β → List (String × Json α)
  | some b => [(name, f b)]
  | none => []

def Constraint.toJson [Scalar α] (c : Constraint α) : Json α :=
  .obj (("id", c.id.toJson) :: ("type", .str c.kind.name) ::
    (optionalMember "driving" .bool c.driving ++ optionalMember "scale" .ofScalar c.scale ++
      optionalMember "internalalignment" (fun a => .ofNat a.code) c.alignment ++
      c.params.entries.map fun e => (e.1, e.2.toJson)))

def Primitive.toJson [Scalar α] : Primitive α → Json α
  | geometry g => g.toJson
  | constraint c => c.toJson

def NamedParam.members [Scalar α] (p : NamedParam α) : List (String × Json α) :=
  [("name", .str p.name), ("value", .ofScalar p.value)]

def NamedParam.toJson [Scalar α] (p : NamedParam α) : Json α := .obj p.members

def SketchObject.toJson [Scalar α] : SketchObject α → Json α
  | param p => .obj (("type", .str "param") :: p.members)
  | primitive p => p.toJson

def Document.toJson [Scalar α] (d : Document α) : Json α :=
  .obj [("params", .arr (d.params.map NamedParam.toJson)),
    ("primitives", .arr (d.primitives.map Primitive.toJson))]

def Config.toJson [Scalar α] (c : Config α) : Json α :=
  .obj [("algorithm", .str c.algorithm.name), ("max_iterations", .ofNat c.maxIterations),
    ("convergence", .ofScalar c.convergence), ("debug_mode", .str c.debugMode.name)]

/-- One line per primitive, in order. -/
def Index.text (x : Index Float) : String :=
  String.join (x.all.map fun p => p.toJson.text ++ "\n")

end PlanarSketch

import PlanarSketch.Document.Encode
import PlanarSketch.Json.Reader

/-!
Reading sketches from JSON. A record is an object, in which members it does not have are passed
over and those it has may occur once, or an array of its members in order. Constraints are
objects whose further members are all parameters.
-/

namespace PlanarSketch

variable {α : Type}

namespace Json

def toBool? : Json α → Option Bool
  | bool b => some b
  | _ => none

def toStr? : Json α → Option String
  | str s => some s
  | _ => none

def toArray? : Json α → Option (List (Json α))
  | arr xs => some xs
  | _ => none

def toNat? : Json α → Option Nat
  | int n => if 0 ≤ n then some n.toNat else none
  | _ => none

def toScalar? [Scalar α] : Json α → Option α
  | int n => some (Scalar.ofInt n)
  | real x => some x
  | _ => none

def toOid? (j : Json α) : Option Oid :=
  j.toNat?.bind fun n => if n < UInt32.size then some ⟨n.toUInt32⟩ else none

/-- The name in a choice between names, written alone or as the only member of an object. -/
def toChoice? : Json α → Option String
  | str s => some s
  | obj [(s, null)] => some s
  | _ => none

def occursOnce (members : List (String × Json α)) (name : String) : Bool :=
  (members.filter fun e => e.1 = name).length ≤ 1

/-- The members of a record with the given names. -/
def record? (names : List String) : Json α → Option (List (String × Json α))
  | obj members => if names.all (occursOnce members) then some members else none
  | arr xs => if xs.length ≤ names.length then some (names.zip xs) else none
  | _ => none

/-- The members of a record behind the tag that tells its variant. A tag is an object's member
`type` or an array's first element. -/
def tagged? : Json α → Option (Json α × Json α)
  | obj members =>
      if occursOnce members "type" then
        (get? members "type").map fun tag => (tag, obj (members.filter fun e => e.1 ≠ "type"))
      else none
  | arr (tag :: xs) => some (tag, arr xs)
  | _ => none

/-- The variant that a tag tells, by name or, where that is allowed, by its place. -/
def variant? {β : Type} (byPlace : Bool) (name : β → String) (variants : List β) :
    Json α → Option β
  | str s => variants.find? fun v => name v = s
  | int n => if byPlace ∧ 0 ≤ n then variants[n.toNat]? else none
  | _ => none

end Json

open Json in
def PropertyRef.ofJson? (j : Json α) : Option PropertyRef := do
  let j := match j with
    | .obj members => .obj (members.map fun e => (if e.1 = "prop" then "param" else e.1, e.2))
    | j => j
  let members ← record? ["o_id", "param"] j
  let target ← (← get? members "o_id").toOid?
  let property ← Property.ofName? (← (← get? members "param").toChoice?)
  return ⟨target, property⟩

variable [Scalar α]

def ParamValue.ofJson? (j : Json α) : Option (ParamValue α) :=
  match j with
  | .bool b => some (.bool b)
  | .int n => some (.number (Scalar.ofInt n))
  | .real x => some (.number x)
  | .str s => some (.name s)
  | j => (PropertyRef.ofJson? j).map .ref

/-- Names of the members of a geometry besides its class, in order. -/
def GeometryClass.memberNames (c : GeometryClass) : List String :=
  "id" :: (c.pointNames ++ (c.ownProperties.map Property.name ++
    if c = .point then ["fixed"] else []))

/-- A flag that is off unless it is given. -/
def flag? (members : List (String × Json α)) (name : String) : Option Bool :=
  match Json.get? members name with
  | some j => j.toBool?
  | none => some false

open Json in
def Geometry.ofMembers? (c : GeometryClass) (j : Json α) : Option (Geometry α) := do
  let members ← record? c.memberNames j
  let id ← (← get? members "id").toOid?
  let points ← c.pointNames.mapM fun n => (get? members n).bind toOid?
  let scalars ← (c.ownProperties.map Property.name).mapM fun n =>
    (get? members n).bind toScalar?
  let fixed ← if c = .point then flag? members "fixed" else some false
  return ⟨id, ← Shape.ofParts? c points scalars fixed⟩

def Geometry.ofTagged? (byPlace : Bool) (j : Json α) : Option (Geometry α) := do
  let (tag, j) ← j.tagged?
  Geometry.ofMembers? (← tag.variant? byPlace GeometryClass.name GeometryClass.concrete) j

def Geometry.ofJson? (j : Json α) : Option (Geometry α) := Geometry.ofTagged? false j

def Alignment.ofJson? (j : Json α) : Option Alignment :=
  match j with
  | .int 0 => some .free
  | .int 1 => some .internal
  | _ => none

def Kind.ofJson? (j : Json α) : Option Kind := j.toStr?.bind Kind.ofName?

/-- An option that is absent or null, or else must be readable. -/
def optional? {β : Type} (read : Json α → Option β) (members : List (String × Json α))
    (name : String) : Option (Option β) :=
  match Json.get? members name with
  | none | some .null => some none
  | some j => (read j).map some

def Constraint.ownNames : List String := ["id", "type", "driving", "scale", "internalalignment"]

open Json in
def Constraint.ofJson? (j : Json α) : Option (Constraint α) :=
  match j with
  | .obj all => do
      let members ← record? ownNames (.obj all)
      let id ← (← get? members "id").toOid?
      let kind ← Kind.ofJson? (← get? members "type")
      let driving ← optional? toBool? members "driving"
      let scale ← optional? toScalar? members "scale"
      let alignment ← optional? Alignment.ofJson? members "internalalignment"
      let params ← (members.filter fun e => !ownNames.contains e.1).mapM fun e =>
        (ParamValue.ofJson? e.2).map fun v => (e.1, v)
      return ⟨id, kind, driving, scale, alignment, .ofList params⟩
  | _ => none

/-- Geometry if it can be read as that, and otherwise a constraint. -/
def Primitive.ofJson? (j : Json α) : Option (Primitive α) :=
  match Geometry.ofTagged? true j with
  | some g => some (.geometry g)
  | none => (Constraint.ofJson? j).map .constraint

def NamedParam.memberNames : List String := ["name", "value"]

open Json in
def NamedParam.ofJson? (j : Json α) : Option (NamedParam α) := do
  let members ← record? memberNames j
  return ⟨← (← get? members "name").toStr?, ← (← get? members "value").toScalar?⟩

def NamedParam.ofTagged? (j : Json α) : Option (NamedParam α) := do
  let (tag, j) ← j.tagged?
  let _ ← tag.variant? true id ["param"]
  NamedParam.ofJson? j

def SketchObject.ofJson? (j : Json α) : Option (SketchObject α) :=
  match NamedParam.ofTagged? j with
  | some p => some (.param p)
  | none => (Primitive.ofJson? j).map .primitive

def Document.memberNames : List String := ["params", "primitives"]

open Json in
def Document.ofJson? (j : Json α) : Option (Document α) := do
  let members ← record? memberNames j
  let params ← match get? members "params" with
    | some j => do (← j.toArray?).mapM NamedParam.ofJson?
    | none => some []
  let primitives ← (← (← get? members "primitives").toArray?).mapM Primitive.ofJson?
  return ⟨params, primitives⟩

def Config.memberNames : List String :=
  ["algorithm", "max_iterations", "convergence", "debug_mode"]

open Json in
def Config.ofJson? (j : Json α) : Option (Config α) := do
  let members ← record? memberNames j
  let algorithm ← Algorithm.ofName? (← (← get? members "algorithm").toChoice?)
  let maxIterations ← (← get? members "max_iterations").toNat?
  let convergence ← (← get? members "convergence").toScalar?
  let debugMode ← DebugMode.ofName? (← (← get? members "debug_mode").toChoice?)
  return ⟨algorithm, maxIterations, convergence, debugMode⟩

end PlanarSketch

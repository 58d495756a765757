import PlanarSketch.NameMap
import PlanarSketch.Sketch.Geometry
import PlanarSketch.Sketch.Kind

/-!
Constraints: a kind and a bag of named parameter values. The ids and parameter names that a
constraint depends on are read off the schema of its kind, and `remapM` replaces exactly those
ids.
-/

namespace PlanarSketch

/-- A property of another primitive. -/
structure PropertyRef where
  target : Oid
  property : Property
  deriving DecidableEq, Repr

inductive ParamValue (α : Type) where
  | bool (b : Bool)
  | number (x : α)
  /-- The name of a sketch parameter. -/
  | name (s : String)
  | ref (r : PropertyRef)
  deriving BEq, DecidableEq, Repr

/-- The sort of a parameter value, as errors name it. -/
inductive ValueSort where
  | bool | number | name | ref
  deriving DecidableEq, Repr

def ValueSort.text : ValueSort → String
  | bool => "boolean"
  | number => "number"
  | name => "string"
  | ref => "object reference"

/-- Whether an equality concerns the internal alignment of a conic. -/
inductive Alignment where
  | free | internal
  deriving DecidableEq, Repr, Inhabited

namespace ParamValue

variable {α : Type}

def sort : ParamValue α → ValueSort
  | bool _ => .bool
  | number _ => .number
  | name _ => .name
  | ref _ => .ref

variable [Scalar α]

def ofOid (id : Oid) : ParamValue α := number (Scalar.ofIndex id.val)

/-- The id that a number stands for. -/
def toOid? : ParamValue α → Option Oid
  | number x => (Scalar.toIndex? x).map Oid.mk
  | _ => none

end ParamValue

structure Constraint (α : Type) where
  id : Oid
  kind : Kind
  driving : Option Bool
  scale : Option α
  alignment : Option Alignment
  params : NameMap (ParamValue α)
  deriving BEq

namespace Constraint

variable {α : Type}

def new (id : Oid) (kind : Kind) : Constraint α := ⟨id, kind, none, none, none, .empty⟩

def param? (c : Constraint α) (name : String) : Option (ParamValue α) := c.params.find? name

def setParam (c : Constraint α) (name : String) (v : ParamValue α) : Constraint α :=
  { c with params := c.params.insert name v }

/-- A constraint drives the geometry unless it says that it only measures. -/
def isDriving (c : Constraint α) : Bool := c.driving.getD true

def paramNameOf? (c : Constraint α) (p : ParamSpec) : Option String :=
  match c.param? p.name with
  | some (.name s) => some s
  | _ => none

/-- Names of the sketch parameters that the constraint reads. -/
def referencedNames (c : Constraint α) : List String := c.kind.userParams.filterMap c.paramNameOf?

variable [Scalar α]

def scaleOrDefault (c : Constraint α) : α := c.scale.getD 1.0

def idOf? (c : Constraint α) (p : ParamSpec) : Option Oid :=
  match p.slot, c.param? p.name with
  | .geometry _, some v => v.toOid?
  | _, some (.ref r) => some r.target
  | _, _ => none

/-- Ids of the primitives that the constraint refers to, in schema order. -/
def referencedIds (c : Constraint α) : List Oid := c.kind.userParams.filterMap c.idOf?

variable {m : Type → Type} [Monad m]

/-- Asks `f` about the id that a parameter holds, and puts the answer in its place. -/
def remapParamM (f : Oid → m (Option Oid)) (c : Constraint α) (p : ParamSpec) :
    m (Constraint α) :=
  match c.param? p.name with
  | none => pure c
  | some v =>
      match p.slot, v with
      | .geometry _, v =>
          match v.toOid? with
          | none => pure c
          | some id => do
              match ← f id with
              | none => pure c
              | some id' => pure (c.setParam p.name (.ofOid id'))
      | _, .ref r => do
          match ← f r.target with
          | none => pure c
          | some id' => pure (c.setParam p.name (.ref { r with target := id' }))
      | _, _ => pure c

/-- Asks `f` about every referenced id in turn; an id without an answer stays. -/
def remapM (f : Oid → m (Option Oid)) (c : Constraint α) : m (Constraint α) :=
  c.kind.userParams.foldlM (remapParamM f) c

def remap (f : Oid → Option Oid) (c : Constraint α) : Constraint α :=
  Id.run (c.remapM fun id => pure (f id))

end Constraint

end PlanarSketch

import PlanarSketch.Session.Layout

/-!
From a constraint to one call of the solver. Each parameter of the schema is resolved against the
sketch, and its literal or handle placed in the solver, before the next one is looked at. Handles
live only as long as the call takes; a call that fails leaves its measured scalars fixed.
-/

namespace PlanarSketch

/-- Tag of the constraints that are not part of the sketch. -/
def extraTag : Int := -1

/-- The tag of a constraint is its id, as far as that fits into 31 bits. -/
def Oid.tag (id : Oid) : Except SketchError Int :=
  if id.val < 0x80000000 then .ok id.val.toNat else .error (.tagOutOfRange id)

/-- What a parameter comes to in a sketch. -/
inductive Resolved (α : Type) where
  /-- A number that needs a scalar of its own. -/
  | literal (x : α)
  /-- A geometry that needs a handle. -/
  | record (r : Record)
  | ready (a : Arg α)

namespace Constraint

variable {α : Type} [Scalar α]

def required (c : Constraint α) (p : ParamSpec) : Except SketchError (ParamValue α) :=
  match c.param? p.name with
  | some v => .ok v
  | none => .error (.missingParameter c.kind p.name)

def malformed (c : Constraint α) (p : ParamSpec) (v : ParamValue α) : SketchError :=
  .malformedParameter c.kind p v.sort

def referenced (x : Index α) (id : Oid) : Except SketchError (Geometry α) := do
  match ← x.get id with
  | .geometry g => .ok g
  | .constraint _ => .error (.unsupportedReference id)

def accepted (g : Geometry α) (expected : GeometryClass) : Except SketchError Unit :=
  if expected.accepts g.geometryClass then .ok ()
  else .error (.typeMismatch g.id (.geometry expected) (.geometry g.geometryClass))

def resolveValue (x : Index α) (al : Allocator) :
    ParamValue α → Except SketchError (Resolved α)
  | .number v => .ok (.literal v)
  | .name s => (al.nameAddress s).map fun a => .ready (.param a)
  | .bool b => .ok (.ready (.bool b))
  | .ref r => do
      let g ← referenced x r.target
      let a ← Layout.propertyAddress al g r.property
      return .ready (.param a)

def resolveGeometry (x : Index α) (al : Allocator) (c : Constraint α) (p : ParamSpec)
    (expected : GeometryClass) (v : ParamValue α) : Except SketchError (Resolved α) :=
  match v.toOid? with
  | none => .error (c.malformed p v)
  | some id => do
      let g ← referenced x id
      accepted g expected
      let r ← Layout.record al g
      return .record r

def resolve (x : Index α) (al : Allocator) (c : Constraint α) (tag : Int) (p : ParamSpec) :
    Except SketchError (Resolved α) :=
  match p.slot with
  | .tag => .ok (.ready (.tag tag))
  | .driving => .ok (.ready (.bool c.isDriving))
  | .alignment => .ok (.ready (.alignment (c.alignment.getD .free)))
  | .value => do resolveValue x al (← c.required p)
  | .geometry expected => do resolveGeometry x al c p expected (← c.required p)
  | .raw => do
      match ← c.required p with
      | .number v => .ok (.ready (.number v))
      | .bool b => .ok (.ready (.bool b))
      | v => .error (c.malformed p v)

end Constraint

/-- Scalars that a constraint measures into, with the parameters they belong to. -/
abbrev Outputs := List (String × Address)

/-- A call in the making: the solver, the handles made for it and its outputs. -/
structure Placement (σ : Type) where
  solver : σ
  handles : List Handle
  outputs : Outputs

namespace Placement

variable {σ α : Type} [Solver σ α]

/-- Gives a resolved parameter its scalar or handle. The scalar of a driving constraint is
fixed; that of any other is an output. -/
def place (driving : Bool) (name : String) (pl : Placement σ) :
    Resolved α → Except SketchError (Arg α) × Placement σ
  | .ready a => (.ok a, pl)
  | .literal v =>
      let a := Solver.size pl.solver
      (.ok (.datum a), { pl with
        solver := Allocator.pushPrivate pl.solver [v] driving
        outputs := if driving then pl.outputs else pl.outputs ++ [(name, a)] })
  | .record r =>
      match Solver.make pl.solver r with
      | (.ok h, s) =>
          (.ok (.geometry h), { pl with solver := s, handles := pl.handles ++ [h] })
      | (.error e, s) => (.error (.solver e), { pl with solver := s })

variable [Scalar α]

/-- Resolves and places the parameters of a schema in turn. -/
def placeAll (x : Index α) (al : Allocator) (c : Constraint α) (tag : Int) :
    List ParamSpec → Placement σ → Except SketchError (List (Arg α)) × Placement σ
  | [], pl => (.ok [], pl)
  | p :: ps, pl =>
      match c.resolve x al tag p with
      | .error e => (.error e, pl)
      | .ok r =>
          match pl.place c.isDriving p.name r with
          | (.error e, pl) => (.error e, pl)
          | (.ok a, pl) =>
              match placeAll x al c tag ps pl with
              | (.error e, pl) => (.error e, pl)
              | (.ok as, pl) => (.ok (a :: as), pl)

/-- Hands a call to the solver, with a scale if the solver takes one. -/
def call (c : Constraint α) (args : List (Arg α)) (pl : Placement σ) :
    Except SketchError Unit × Placement σ :=
  let scale := if Solver.takesScale pl.solver then [.scale c.scaleOrDefault] else []
  match Solver.add pl.solver ⟨c.kind, args ++ scale⟩ with
  | (.ok (), s) => (.ok (), { pl with solver := s })
  | (.error e, s) => (.error (.solver e), { pl with solver := s })

/-- Fixes a scalar at its value, as far as the solver lets it. -/
def pin (s : σ) (a : Address) : σ :=
  match Solver.value s a with
  | .ok v => (Solver.assign s a v true).2
  | .error _ => s

def pinAll (pl : Placement σ) : Placement σ :=
  { pl with solver := pl.outputs.foldl (fun s o => pin s o.2) pl.solver }

/-- The solver without the handles. -/
def close (pl : Placement σ) : σ := pl.handles.foldl Solver.release pl.solver

end Placement

/-- Adds a constraint to the solver and gives its outputs. -/
def Constraint.push {σ α : Type} [Solver σ α] [Scalar α] (x : Index α) (al : Allocator) (s : σ)
    (c : Constraint α) (tag : Int) : Except SketchError Outputs × σ :=
  match Placement.placeAll x al c tag c.kind.schema ⟨s, [], []⟩ with
  | (.error e, pl) => (.error e, pl.pinAll.close)
  | (.ok args, pl) =>
      match pl.call c args with
      | (.error e, pl) => (.error e, pl.pinAll.close)
      | (.ok (), pl) => (.ok pl.outputs, pl.close)

end PlanarSketch

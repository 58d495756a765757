import PlanarSketch.Session.Resolve

/-!
A session: a sketch bound to a solver. Primitives are pushed one by one, the whole is solved, and
a solution is applied, which brings the solved geometry and the measured values back into the
sketch. Each operation gives its result, or why it was refused, with the session it leaves.
-/

namespace PlanarSketch

structure Session (σ α : Type) where
  solver : σ
  index : Index α
  allocator : Allocator
  /-- Where the constraints that only measure have their results. -/
  measured : Table Oid Outputs
  phase : Phase
  /-- Used when a solve names no algorithm. -/
  algorithm : Algorithm

namespace Session

variable {σ α : Type} [Solver σ α]

def new (solver : σ) : Session σ α := ⟨solver, .empty, .empty, .empty, .empty, .dogLeg⟩

def ofConfig (solver : σ) (c : Config α) : Session σ α :=
  let solver := Solver.setDebugMode solver c.debugMode
  let solver := Solver.setMaxIterations solver c.maxIterations
  { new (Solver.setConvergence solver c.convergence) with algorithm := c.algorithm }

/-- Records a primitive that the solver has taken. -/
def store (s : Session σ α) (p : Primitive α) : Except SketchError Unit × Session σ α :=
  match s.index.set p with
  | .ok x => (.ok (), { s with index := x, phase := .building })
  | .error e => (.error e, s)

def pushGeometry (s : Session σ α) (g : Geometry α) : Except SketchError Unit × Session σ α :=
  match Layout.push s.index g (s.allocator, s.solver) with
  | (.error e, al, solver) => (.error e, { s with allocator := al, solver := solver })
  | (.ok (), al, solver) => store { s with allocator := al, solver := solver } (.geometry g)

variable [Scalar α]

def pushConstraint (s : Session σ α) (c : Constraint α) : Except SketchError Unit × Session σ α :=
  match c.id.tag with
  | .error e => (.error e, s)
  | .ok tag =>
      match c.push s.index s.allocator s.solver tag with
      | (.error e, solver) => (.error e, { s with solver := solver })
      | (.ok outputs, solver) =>
          store { s with
            solver := solver
            measured := if outputs.isEmpty then s.measured else s.measured.insert c.id outputs }
            (.constraint c)

def push (s : Session σ α) (p : Primitive α) : Except SketchError Unit × Session σ α :=
  if s.index.has p.id then (.error (.duplicateId p.id), s)
  else if s.index.counter = Index.counterLimit then (.error .counterOverflow, s)
  else
    match p with
    | .geometry g => s.pushGeometry g
    | .constraint c => s.pushConstraint c

/-- Pushes a named parameter, at the address where the solver ended before. -/
def pushName (s : Session σ α) (name : String) (value : α) : Session σ α :=
  let (al, solver) := s.allocator.pushName s.solver name value
  { s with allocator := al, solver := solver, phase := .building }

def pushObject (s : Session σ α) : SketchObject α → Except SketchError Unit × Session σ α
  | .param p => (.ok (), s.pushName p.name p.value)
  | .primitive p => s.push p

/-- Pushes in order and stops at the first refusal. -/
def pushObjects (s : Session σ α) : List (SketchObject α) → Except SketchError Unit × Session σ α
  | [] => (.ok (), s)
  | o :: os =>
      match s.pushObject o with
      | (.error e, s) => (.error e, s)
      | (.ok (), s) => s.pushObjects os

def pushAll (s : Session σ α) (ps : List (Primitive α)) :
    Except SketchError Unit × Session σ α :=
  s.pushObjects (ps.map .primitive)

def pushDocument (s : Session σ α) (d : Document α) : Except SketchError Unit × Session σ α :=
  s.pushObjects (d.params.map .param ++ d.primitives.map .primitive)

/-- Pushes a constraint that is not part of the sketch. It has nowhere to write a measurement,
so it must be driving. -/
def pushExtra (s : Session σ α) (c : Constraint α) : Except SketchError Unit × Session σ α :=
  if c.isDriving then
    match c.push s.index s.allocator s.solver extraTag with
    | (.error e, solver) => (.error e, { s with solver := solver })
    | (.ok _, solver) => (.ok (), { s with solver := solver, phase := .building })
  else (.error (.nonDrivingExtra c.kind), s)

def clearExtra (s : Session σ α) : Session σ α :=
  { s with solver := Solver.clearTag s.solver extraTag, phase := .building }

/-- Removes a constraint; tells whether the sketch had it. -/
def delete (s : Session σ α) (id : Oid) : Except SketchError Bool × Session σ α :=
  match s.index.get? id with
  | some (.geometry g) =>
      (.error (.typeMismatch id .anyConstraint (.geometry g.geometryClass)), s)
  | _ =>
      match id.tag with
      | .error e => (.error e, s)
      | .ok tag =>
          (.ok (s.index.has id), { s with
            solver := Solver.clearTag s.solver tag
            index := s.index.delete id
            measured := s.measured.erase id
            phase := .building })

def setName (s : Session σ α) (name : String) (value : α) :
    Except SketchError Unit × Session σ α :=
  match s.allocator.nameAddress name with
  | .error e => (.error e, s)
  | .ok a =>
      match Solver.assign s.solver a value true with
      | (.error e, solver) => (.error (.solver e), { s with solver := solver })
      | (.ok (), solver) => (.ok (), { s with solver := solver, phase := .building })

def getName (s : Session σ α) (name : String) : Except SketchError α := do
  let a ← s.allocator.nameAddress name
  (Solver.value s.solver a).mapError .solver

def solveWith (s : Session σ α) (algorithm : Algorithm) : Status × Session σ α :=
  let (status, solver) := Solver.solve s.solver algorithm
  (status, { s with solver := solver, phase := .solved })

def solve (s : Session σ α) : Status × Session σ α := s.solveWith s.algorithm

/-- Writes measured values into a constraint. -/
def pullOutputs (solver : σ) : Outputs → Constraint α → Except SketchError Unit × Constraint α
  | [], c => (.ok (), c)
  | (name, a) :: os, c =>
      match Solver.value solver a with
      | .error e => (.error (.solver e), c)
      | .ok v => pullOutputs solver os (c.setParam name (.number v))

/-- A primitive with the values that the solver has for it. -/
def pullPrimitive (s : Session σ α) (id : Oid) :
    Primitive α → Except SketchError Unit × Primitive α
  | .geometry g =>
      let (r, g) := Layout.pull s.solver s.allocator g
      (r, .geometry g)
  | .constraint c =>
      let (r, c) := pullOutputs s.solver ((s.measured.find? id).getD []) c
      (r, .constraint c)

/-- Brings primitives up to date, one id after another. -/
def pullAll : List Oid → Session σ α → Except SketchError Unit × Session σ α
  | [], s => (.ok (), s)
  | id :: ids, s =>
      match s.index.get? id with
      | none => pullAll ids s
      | some p =>
          let (r, p) := s.pullPrimitive id p
          let s := { s with index := s.index.put id p }
          match r with
          | .error e => (.error e, s)
          | .ok () => pullAll ids s

def applySolution (s : Session σ α) : Except SketchError Unit × Session σ α :=
  if s.phase = .solved then
    let s := { s with solver := Solver.applySolution s.solver }
    pullAll s.index.ids s
  else (.error (.notSolved s.phase), s)

/-- Drops all that was pushed; settings stay. -/
def clear (s : Session σ α) : Session σ α :=
  { new (Solver.clear s.solver) with algorithm := s.algorithm }

/-- The constraints of the sketch behind some of the solver's tags. -/
def constraintsOf (s : Session σ α) (tags : List Int) : List Oid :=
  let ids := tags.filterMap fun t =>
    if 0 ≤ t ∧ t.toNat < UInt32.size then some ⟨t.toNat.toUInt32⟩ else none
  ids.filter fun id => ((s.index.get? id).bind Primitive.constraint?).isSome

end Session

end PlanarSketch

import PlanarSketch.LeastSquares.Argument
import PlanarSketch.LeastSquares.Diagnosis
import PlanarSketch.LeastSquares.Minimize
import PlanarSketch.LeastSquares.System
import PlanarSketch.Linear.Standard
import PlanarSketch.Solver.Basic

/-!
A solver that minimises squared residuals. A solve leaves the scalars alone: it moves a copy of
the unknowns until the driving constraints hold, then fits the datums of the other constraints to
the solved geometry, and keeps the result until it is applied.
-/

namespace PlanarSketch

structure Cell (α : Type) where
  value : α
  fixed : Bool

structure LeastSquares (α : Type) where
  cells : Array (Cell α)
  /-- What the last solve found, until it is applied. -/
  pending : Option (List (Address × α))
  records : Table Handle Record
  nextHandle : UInt32
  /-- Radius addresses of every circle and arc ever made. -/
  radii : List Address
  entries : List (Entry α)
  config : Config α
  diagnosis : Diagnosis

namespace LeastSquares

variable {α : Type}

def ofConfig (config : Config α) : LeastSquares α :=
  ⟨#[], none, .empty, 0, [], [], config, .empty⟩

def size (s : LeastSquares α) : Nat := s.cells.size

def values (s : LeastSquares α) : Array α := s.cells.map Cell.value

def isFixed (s : LeastSquares α) (a : Address) : Bool :=
  match s.cells[a]? with
  | some c => c.fixed
  | none => true

def push (s : LeastSquares α) (v : α) (fixed : Bool) : LeastSquares α :=
  { s with cells := s.cells.push ⟨v, fixed⟩ }

def value (s : LeastSquares α) (a : Address) : Except SolverError α :=
  match s.cells[a]? with
  | some c => .ok c.value
  | none => .error (.addressOutOfRange a)

def assign (s : LeastSquares α) (a : Address) (v : α) (fixed : Bool) :
    Except SolverError (LeastSquares α) :=
  if a < s.size then .ok { s with cells := s.cells.setIfInBounds a ⟨v, fixed⟩ }
  else .error (.addressOutOfRange a)

/-- The radius of a shape that has one outright. -/
def radius? : Record → Option Address
  | .circle _ r => some r
  | .arc _ _ _ _ _ r => some r
  | _ => none

def addRadius (radii : List Address) (r : Record) : List Address :=
  match radius? r with
  | some a => if radii.contains a then radii else a :: radii
  | none => radii

def make (s : LeastSquares α) (r : Record) : Except SolverError (Handle × LeastSquares α) :=
  match r.addresses.find? fun a => s.size ≤ a with
  | some a => .error (.addressOutOfRange a)
  | none =>
      .ok (⟨s.nextHandle⟩, { s with
        radii := addRadius s.radii r
        nextHandle := s.nextHandle + 1
        records := s.records.insert ⟨s.nextHandle⟩ r })

def release (s : LeastSquares α) (h : Handle) : LeastSquares α :=
  { s with records := s.records.erase h }

def scope (s : LeastSquares α) : Scope := ⟨s.records, s.size⟩

def fix (cells : Array (Cell α)) (a : Address) : Array (Cell α) :=
  cells.modify a fun c => { c with fixed := true }

/-- Removes the constraints with a tag. Their datums are fixed, for nothing measures them any
more and they must not become unknowns. -/
def clearTag (s : LeastSquares α) (tag : Int) : LeastSquares α :=
  let gone := s.entries.filter fun e => e.tag = tag
  { s with
    cells := (gone.flatMap Entry.datums).foldl fix s.cells
    entries := s.entries.filter fun e => e.tag ≠ tag }

def drivingEntries (s : LeastSquares α) : List (Entry α) := s.entries.filter Entry.driving

def measuringEntries (s : LeastSquares α) : List (Entry α) :=
  s.entries.filter fun e => !e.driving

/-- Scalars that the other constraints measure into. -/
def measured (s : LeastSquares α) : List Address := s.measuringEntries.flatMap Entry.datums

/-- Scalars that the driving constraints may move. -/
def unknowns (s : LeastSquares α) : List Address :=
  (List.range s.size).filter fun a => !s.isFixed a && !s.measured.contains a

/-- Measured scalars that a solve sets. -/
def outputs (s : LeastSquares α) : List Address :=
  (List.range s.size).filter fun a => !s.isFixed a && s.measured.contains a

def Entry.scaled (e : Entry α) : Equation α × α := (e.equation, e.scale)

/-- Gives each entry its rows. -/
def rowGroups : List (Entry α) → List (Vec α × α) → List (RowGroup α)
  | [], _ => []
  | e :: es, rows =>
      ⟨e.tag, rows.take e.equation.rows⟩ :: rowGroups es (rows.drop e.equation.rows)

variable [Scalar α]

instance : Inhabited (LeastSquares α) := ⟨ofConfig .standard⟩

def add (s : LeastSquares α) (c : Call α) : Except SolverError (LeastSquares α) :=
  (Entry.ofCall s.scope c).map fun e => { s with entries := s.entries ++ [e] }

def drivingSystem (s : LeastSquares α) : System α :=
  ⟨s.values, s.unknowns, s.drivingEntries.map Entry.scaled⟩

/-- The measuring constraints over scalars that the driving ones have moved. -/
def measuringSystem (s : LeastSquares α) (values : Array α) : System α :=
  ⟨values, s.outputs, s.measuringEntries.map Entry.scaled⟩

def problem (s : System α) : Problem α := ⟨s.start, s.residuals, s.jacobian⟩

def limits (s : LeastSquares α) : Limits α := ⟨s.config.maxIterations, s.config.convergence⟩

/-- A relaxed solve may exceed the convergence threshold by this factor. -/
def relaxation : α := 1e4

/-- A residual up to this does not by itself exceed the relaxed threshold. -/
def rowTolerance (s : LeastSquares α) : α :=
  Scalar.sqrt (2.0 * s.config.convergence * relaxation)

def classify (s : LeastSquares α) (error : α) (solution : Array α) (d : Diagnosis) : Status :=
  if !d.conflicting.isEmpty then .failed
  else if error ≤ s.config.convergence then
    if s.radii.any fun r => System.read solution r < 0.0 then .invalid else .success
  else if error ≤ s.config.convergence * relaxation then .converged
  else .failed

/-- The result of an operation that leaves the state alone when it fails. -/
def attempt {β : Type} (s : LeastSquares α) :
    Except SolverError (β × LeastSquares α) → Except SolverError β × LeastSquares α
  | .ok (b, s') => (.ok b, s')
  | .error e => (.error e, s)

def write (cells : Array (Cell α)) (e : Address × α) : Array (Cell α) :=
  cells.modify e.1 fun c => { c with value := e.2 }

def applySolution (s : LeastSquares α) : LeastSquares α :=
  { s with cells := (s.pending.getD []).foldl write s.cells, pending := none }

variable [Decompositions α]

/-- The point that the driving constraints lead to. -/
def descend (s : LeastSquares α) (algorithm : Algorithm) : Outcome α :=
  (problem s.drivingSystem).minimize Decompositions.algebra algorithm s.limits

def diagnose (s : LeastSquares α) (x : Vec α) : Diagnosis :=
  let system := s.drivingSystem
  let jacobian := system.jacobian x
  Diagnosis.diagnose jacobian.width s.rowTolerance
    (rowGroups s.drivingEntries (jacobian.rows.zip (system.residuals x)))

/-- Fits the datums of the measuring constraints. -/
def readOut (s : LeastSquares α) (values : Array α) : Array α :=
  if s.outputs.isEmpty then values
  else
    let system := s.measuringSystem values
    system.expand ((problem system).minimize Decompositions.algebra .levenbergMarquardt
      s.limits).x

def solve (s : LeastSquares α) (algorithm : Algorithm) : Status × LeastSquares α :=
  let outcome := s.descend algorithm
  let diagnosis := s.diagnose outcome.x
  let solution := s.readOut (s.drivingSystem.expand outcome.x)
  (s.classify outcome.error solution diagnosis, { s with
    diagnosis := diagnosis
    pending := some ((s.unknowns ++ s.outputs).map fun a => (a, System.read solution a)) })

instance : Solver (LeastSquares α) α where
  size := size
  push := push
  value := value
  assign s a v fixed := s.attempt ((s.assign a v fixed).map fun s' => ((), s'))
  values s := s.values.toList
  make s r := s.attempt (s.make r)
  release := release
  add s c := s.attempt ((s.add c).map fun s' => ((), s'))
  takesScale _ := true
  clearTag := clearTag
  solve := solve
  applySolution := applySolution
  clear s := ofConfig s.config
  conflicting s := s.diagnosis.conflicting
  redundant s := s.diagnosis.redundant
  partiallyRedundant s := s.diagnosis.partiallyRedundant
  freedom s := s.diagnosis.freedom
  debugMode s := s.config.debugMode
  setDebugMode s m := { s with config := { s.config with debugMode := m } }
  maxIterations s := s.config.maxIterations
  setMaxIterations s n := { s with config := { s.config with maxIterations := n } }
  convergence s := s.config.convergence
  setConvergence s c := { s with config := { s.config with convergence := c } }

end LeastSquares

end PlanarSketch

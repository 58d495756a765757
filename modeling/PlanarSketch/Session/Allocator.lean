import PlanarSketch.Sketch.Error
import PlanarSketch.Solver.Basic
import PlanarSketch.Table

/-!
Where the scalars of primitives and the named parameters of a sketch live in the solver. A
primitive keeps the first block it was given; a name that is given again is bound anew.
-/

namespace PlanarSketch

structure Allocator where
  blocks : Table Oid Address
  names : Table String Address

namespace Allocator

variable {σ α : Type} [Solver σ α]

def empty : Allocator := ⟨.empty, .empty⟩

def has (al : Allocator) (id : Oid) : Bool := al.blocks.contains id

def address (al : Allocator) (id : Oid) : Except SketchError Address :=
  match al.blocks.find? id with
  | some a => .ok a
  | none => .error (.addressNotFound id)

def nameAddress (al : Allocator) (name : String) : Except SketchError Address :=
  match al.names.find? name with
  | some a => .ok a
  | none => .error (.unknownName name)

/-- Appends scalars that belong to nobody; they begin where the solver ended before. -/
def pushPrivate (s : σ) (values : List α) (fixed : Bool) : σ :=
  values.foldl (fun s v => Solver.push s v fixed) s

/-- Appends the scalars of a primitive. -/
def push (al : Allocator) (s : σ) (id : Oid) (values : List α) (fixed : Bool) :
    Allocator × σ :=
  let al' := if al.has id then al else { al with blocks := al.blocks.insert id (Solver.size s) }
  (al', pushPrivate s values fixed)

/-- Appends a named parameter, which is always fixed. -/
def pushName (al : Allocator) (s : σ) (name : String) (value : α) : Allocator × σ :=
  ({ al with names := al.names.insert name (Solver.size s) }, pushPrivate s [value] true)

end Allocator

end PlanarSketch

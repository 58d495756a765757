import PlanarSketch.Solver.Basic

/-!
A solver that writes down what is asked of another one and can be told to refuse or to answer for
it. Assignments and constraints are written down before they are tried, geometry only once it has
been made.
-/

namespace PlanarSketch

inductive SolverEvent (α : Type) where
  | pushed (a : Address) (v : α) (fixed : Bool)
  | assigned (a : Address) (v : α) (fixed : Bool)
  | made (h : Handle) (r : Record)
  | added (c : Call α)
  | released (h : Handle)
  | clearedTag (t : Int)
  deriving DecidableEq, Repr

/-- Operations that can be refused. -/
inductive Refusable where
  | get | set | make | add
  deriving DecidableEq, Repr

structure Script where
  conflicting : Option (List Int)
  redundant : Option (List Int)
  partiallyRedundant : Option (List Int)
  refused : List Refusable
  refusal : SolverError

structure Transcript (σ α : Type) where
  inner : σ
  takesScale : Bool
  script : Script
  events : List (SolverEvent α)

namespace Transcript

variable {σ α : Type}

def note (t : Transcript σ α) (e : SolverEvent α) : Transcript σ α :=
  { t with events := t.events ++ [e] }

/-- Does as the script says, or else asks the inner solver. -/
def unlessRefused {β : Type} (t : Transcript σ α) (op : Refusable)
    (run : σ → Except SolverError β × σ) : Except SolverError β × Transcript σ α :=
  if t.script.refused.contains op then (.error t.script.refusal, t)
  else
    let (r, inner) := run t.inner
    (r, { t with inner := inner })

variable [Solver σ α]

def make (t : Transcript σ α) (r : Record) : Except SolverError Handle × Transcript σ α :=
  match t.unlessRefused .make fun s => Solver.make s r with
  | (.ok h, t) => (.ok h, t.note (.made h r))
  | (.error e, t) => (.error e, t)

instance : Solver (Transcript σ α) α where
  size t := Solver.size t.inner
  push t v fixed :=
    { t with inner := Solver.push t.inner v fixed }.note
      (.pushed (Solver.size t.inner) v fixed)
  value t a := if t.script.refused.contains .get then .error t.script.refusal
    else Solver.value t.inner a
  assign t a v fixed :=
    (t.note (.assigned a v fixed)).unlessRefused .set fun s => Solver.assign s a v fixed
  values t := Solver.values t.inner
  make := make
  release t h := { t with inner := Solver.release t.inner h }.note (.released h)
  add t c := (t.note (.added c)).unlessRefused .add fun s => Solver.add s c
  takesScale t := t.takesScale
  clearTag t tag := { t with inner := Solver.clearTag t.inner tag }.note (.clearedTag tag)
  solve t algorithm :=
    let (status, inner) := Solver.solve t.inner algorithm
    (status, { t with inner := inner })
  applySolution t := { t with inner := Solver.applySolution t.inner }
  clear t := { t with inner := Solver.clear t.inner }
  conflicting t := t.script.conflicting.getD (Solver.conflicting t.inner)
  redundant t := t.script.redundant.getD (Solver.redundant t.inner)
  partiallyRedundant t := t.script.partiallyRedundant.getD (Solver.partiallyRedundant t.inner)
  freedom t := Solver.freedom t.inner
  debugMode t := Solver.debugMode t.inner
  setDebugMode t m := { t with inner := Solver.setDebugMode t.inner m }
  maxIterations t := Solver.maxIterations t.inner
  setMaxIterations t n := { t with inner := Solver.setMaxIterations t.inner n }
  convergence t := Solver.convergence t.inner
  setConvergence t c := { t with inner := Solver.setConvergence t.inner c }

end Transcript

end PlanarSketch

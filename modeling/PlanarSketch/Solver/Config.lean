import PlanarSketch.Scalar

/-! Settings of a solver and the outcomes of a solve. -/

namespace PlanarSketch

inductive Algorithm where
  | bfgs | levenbergMarquardt | dogLeg
  deriving DecidableEq, Repr

namespace Algorithm

def all : List Algorithm := [bfgs, levenbergMarquardt, dogLeg]

def name : Algorithm → String
  | bfgs => "Bfgs"
  | levenbergMarquardt => "LevenbergMarquardt"
  | dogLeg => "DogLeg"

def ofName? (s : String) : Option Algorithm := all.find? fun a => a.name = s

theorem ofName?_name (a : Algorithm) : ofName? a.name = some a := by cases a <;> decide

end Algorithm

inductive DebugMode where
  | noDebug | minimal | iterationLevel
  deriving DecidableEq, Repr

namespace DebugMode

def all : List DebugMode := [noDebug, minimal, iterationLevel]

def name : DebugMode → String
  | noDebug => "NoDebug"
  | minimal => "Minimal"
  | iterationLevel => "IterationLevel"

def ofName? (s : String) : Option DebugMode := all.find? fun m => m.name = s

theorem ofName?_name (m : DebugMode) : ofName? m.name = some m := by cases m <;> decide

end DebugMode

structure Config (α : Type) where
  /-- Used when a solve names no algorithm. -/
  algorithm : Algorithm
  /-- Bound on the iterations of each phase of a solve. -/
  maxIterations : Nat
  /-- Half squared residual norm up to which a solve is a success. -/
  convergence : α
  debugMode : DebugMode
  deriving BEq, Repr

def Config.standard {α : Type} [Scalar α] : Config α := ⟨.dogLeg, 100, 1e-10, .noDebug⟩

inductive Status where
  /-- The driving constraints hold within the convergence threshold. -/
  | success
  /-- They hold only within a relaxed threshold. -/
  | converged
  | failed
  /-- They hold in a configuration that no sketch can have, such as a negative radius. -/
  | invalid
  deriving DecidableEq, Repr

namespace Status

def name : Status → String
  | success => "Success"
  | converged => "Converged"
  | failed => "Failed"
  | invalid => "SuccessfulSolutionInvalid"

def isSuccess (s : Status) : Bool := s = success || s = converged

end Status

end PlanarSketch

import PlanarSketch.Solver.Call
import PlanarSketch.Solver.Config

/-!
A solver as a sketch sees it: a growing array of scalars, geometry held under handles, and
constraints added by kind. An operation that can fail gives its error together with the state it
leaves behind.
-/

namespace PlanarSketch

class Solver (σ : Type) (α : outParam Type) where
  /-- Number of scalars, which is also the next free address. -/
  size : σ → Nat
  push : σ → α → Bool → σ
  value : σ → Address → Except SolverError α
  assign : σ → Address → α → Bool → Except SolverError Unit × σ
  values : σ → List α
  make : σ → Record → Except SolverError Handle × σ
  release : σ → Handle → σ
  add : σ → Call α → Except SolverError Unit × σ
  /-- Whether calls end with a scale. -/
  takesScale : σ → Bool
  /-- Removes every constraint with a tag. -/
  clearTag : σ → Int → σ
  solve : σ → Algorithm → Status × σ
  /-- Writes the last solution into the scalars. -/
  applySolution : σ → σ
  /-- Drops scalars, geometry and constraints. -/
  clear : σ → σ
  conflicting : σ → List Int
  redundant : σ → List Int
  partiallyRedundant : σ → List Int
  /-- Degrees of freedom left after the last solve. -/
  freedom : σ → Int
  debugMode : σ → DebugMode
  setDebugMode : σ → DebugMode → σ
  maxIterations : σ → Nat
  setMaxIterations : σ → Nat → σ
  convergence : σ → α
  setConvergence : σ → α → σ

end PlanarSketch

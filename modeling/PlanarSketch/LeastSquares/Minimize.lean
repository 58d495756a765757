import PlanarSketch.Linear.Algebra
import PlanarSketch.Solver.Config

/-!
Minimisation of half the squared norm of a residual vector by three methods. A method is a step
on its own state; a step either goes on or stops, and goes to a new point only if the error falls
there. What a step asks of linear algebra is a parameter.
-/

namespace PlanarSketch

structure Problem (α : Type) where
  start : Vec α
  residuals : Vec α → Vec α
  jacobian : Vec α → ColumnMatrix α

structure Limits (α : Type) where
  maxIterations : Nat
  convergence : α

structure Outcome (α : Type) where
  x : Vec α
  error : α
  iterations : Nat

/-- The verdict of a step. -/
inductive Progress (σ : Type) where
  | next (s : σ)
  | stop (s : σ)

/-- Takes steps while the state is active, at most as many as the second argument says, and
counts them from `k`. -/
def iterate {σ : Type} (active : σ → Bool) (step : σ → Progress σ) :
    Nat → Nat → σ → σ × Nat
  | 0, k, s => (s, k)
  | n + 1, k, s =>
      if active s then
        match step s with
        | .next s' => iterate active step n (k + 1) s'
        | .stop s' => (s', k + 1)
      else (s, k)

section

variable {α : Type} [Scalar α]

def halfSq (r : Vec α) : α := 0.5 * Vec.normSq r

/-- Gradients below this in every coordinate count as zero. -/
def gradientTolerance : α := 1e-14

/-- Steps below this, relative to the point, count as zero. -/
def stepTolerance : α := 1e-14

def stalled (h x : Vec α) : Bool :=
  Vec.norm h ≤ stepTolerance * (Vec.norm x + stepTolerance)

/-- The error that vanished over the error that was predicted to. -/
def gain (before after predicted : α) : α :=
  if 0.0 < predicted then (before - after) / predicted else -1.0

def isActive (limits : Limits α) (x : Vec α) (error : α) : Bool :=
  limits.convergence < error && !x.isEmpty

end

/-! Levenberg–Marquardt: the normal equations with a damping term on their diagonal. -/

structure Damped (α : Type) where
  x : Vec α
  r : Vec α
  error : α
  damping : α
  growth : α

namespace Damped

variable {α : Type} [Scalar α]

def init (p : Problem α) : Damped α :=
  let r := p.residuals p.start
  ⟨p.start, r, halfSq r, 0.0, 2.0⟩

def raise (s : Damped α) : Damped α :=
  { s with damping := s.damping * s.growth, growth := s.growth * 2.0 }

/-- The first damping fits the size of the normal matrix. -/
def begin (s : Damped α) (gram : RowMatrix α) : Damped α :=
  if s.damping == 0.0 then
    { s with damping := 1e-3 * Scalar.larger (Vec.greatest (RowMatrix.diagonal gram)) 1e-12 }
  else s

def relax (rho : α) : α :=
  let c := 2.0 * rho - 1.0
  Scalar.larger (1.0 - c * c * c) (1.0 / 3.0)

/-- Goes along `h` if the error falls. -/
def advance (p : Problem α) (s : Damped α) (g h : Vec α) : Damped α :=
  let x := Vec.add s.x h
  let r := p.residuals x
  let error := halfSq r
  let predicted := 0.5 * Vec.dot h (Vec.sub (Vec.scale s.damping h) g)
  let rho := gain s.error error predicted
  if 0.0 < rho then ⟨x, r, error, s.damping * relax rho, 2.0⟩ else s.raise

def step (p : Problem α) (alg : LinearAlgebra α) (s : Damped α) : Progress (Damped α) :=
  let j := p.jacobian s.x
  let gram := j.gram
  let g := j.transposeMulVec s.r
  if Vec.greatestAbs g < gradientTolerance then .stop s
  else
    let s := s.begin gram
    match alg.positive? (RowMatrix.addDiagonal s.damping gram) (Vec.neg g) with
    | none => .next s.raise
    | some h => if stalled h s.x then .stop s else .next (s.advance p g h)

def minimize (p : Problem α) (alg : LinearAlgebra α) (limits : Limits α) : Outcome α :=
  let (s, k) := iterate (fun s => isActive limits s.x s.error) (step p alg)
    limits.maxIterations 0 (init p)
  ⟨s.x, s.error, k⟩

end Damped

/-! Dog leg: between steepest descent and the least-squares step, within a trusted radius. -/

structure Trusted (α : Type) where
  x : Vec α
  r : Vec α
  error : α
  radius : α

namespace Trusted

variable {α : Type} [Scalar α]

def init (p : Problem α) : Trusted α :=
  let r := p.residuals p.start
  ⟨p.start, r, halfSq r, Scalar.larger 1.0 (0.1 * Vec.norm p.start)⟩

/-- Where the way from `a` to `b` leaves the ball of the given radius. -/
def crossing (radius : α) (a b : Vec α) : Vec α :=
  let d := Vec.sub b a
  let aa := Vec.normSq a
  let dd := Vec.normSq d
  let c := Vec.dot a d
  let room := radius * radius - aa
  let root := Scalar.sqrt (Scalar.larger (c * c + dd * room) 0.0)
  let beta := if c ≤ 0.0 then (root - c) / dd else room / (c + root)
  Vec.add a (Vec.scale beta d)

/-- The step within the radius: the full step, a piece of the steepest descent, or a bend from
the one towards the other. -/
def bend (radius : α) (g descent full : Vec α) : Vec α :=
  if Vec.norm full ≤ radius then full
  else if radius ≤ Vec.norm descent then Vec.scale (-radius / Vec.norm g) g
  else crossing radius descent full

/-- Halves or widens the radius by the gain; stops when it has shrunk to nothing. -/
def adapt (rho : α) (h : Vec α) (s : Trusted α) : Progress (Trusted α) :=
  if 0.75 < rho then
    .next { s with radius := Scalar.larger s.radius (3.0 * Vec.norm h) }
  else if rho < 0.25 then
    let s := { s with radius := s.radius * 0.5 }
    if s.radius < stepTolerance * (Vec.norm s.x + stepTolerance) then .stop s else .next s
  else .next s

/-- Goes along `h` if the error falls. -/
def advance (p : Problem α) (j : ColumnMatrix α) (s : Trusted α) (h : Vec α) :
    Progress (Trusted α) :=
  let x := Vec.add s.x h
  let r := p.residuals x
  let error := halfSq r
  let predicted := s.error - halfSq (Vec.add s.r (j.mulVec h))
  let rho := gain s.error error predicted
  adapt rho h (if 0.0 < rho then ⟨x, r, error, s.radius⟩ else s)

def step (p : Problem α) (alg : LinearAlgebra α) (s : Trusted α) : Progress (Trusted α) :=
  let j := p.jacobian s.x
  let g := j.transposeMulVec s.r
  if Vec.greatestAbs g < gradientTolerance then .stop s
  else
    let curvature := Vec.normSq (j.mulVec g)
    if curvature ≤ 0.0 then .stop s
    else
      let descent := Vec.scale (-(Vec.normSq g / curvature)) g
      let h := bend s.radius g descent (alg.leastNorm j (Vec.neg s.r))
      if stalled h s.x then .stop s else s.advance p j h

def minimize (p : Problem α) (alg : LinearAlgebra α) (limits : Limits α) : Outcome α :=
  let (s, k) := iterate (fun s => isActive limits s.x s.error) (step p alg)
    limits.maxIterations 0 (init p)
  ⟨s.x, s.error, k⟩

end Trusted

/-! Quasi-Newton: an inverse curvature that is learnt from the steps taken, with a line search. -/

structure Learnt (α : Type) where
  x : Vec α
  error : α
  g : Vec α
  /-- Rows of the inverse curvature. -/
  inverse : RowMatrix α

namespace Learnt

variable {α : Type} [Scalar α]

def gradient (p : Problem α) (x r : Vec α) : Vec α := (p.jacobian x).transposeMulVec r

def init (p : Problem α) : Learnt α :=
  let r := p.residuals p.start
  ⟨p.start, halfSq r, gradient p p.start r, RowMatrix.identity p.start.length⟩

/-- Halvings of a step until it is shorter than any that is tried. -/
def halvingLimit : Nat := 41

/-- Halves the step from `t` on until the error falls enough; gives the point, its residuals and
its error. -/
def search? (p : Problem α) (s : Learnt α) (direction : Vec α) (slope : α) :
    Nat → α → Option (Vec α × Vec α × α)
  | 0, _ => none
  | n + 1, t =>
      let x := Vec.add s.x (Vec.scale t direction)
      let r := p.residuals x
      let error := halfSq r
      if error ≤ s.error + 1e-4 * t * slope then some (x, r, error)
      else
        let t := t * 0.5
        if t < 1e-12 then none else search? p s direction slope n t

/-- The inverse curvature after a step `d` that changed the gradient by `y`. -/
def learn (inverse : RowMatrix α) (d y : Vec α) : RowMatrix α :=
  let dy := Vec.dot d y
  if 1e-16 < dy then
    let rho := 1.0 / dy
    let one := RowMatrix.identity d.length
    let left := RowMatrix.sub one (RowMatrix.scale rho (RowMatrix.outer d y))
    let right := RowMatrix.sub one (RowMatrix.scale rho (RowMatrix.outer y d))
    RowMatrix.add (RowMatrix.mul (RowMatrix.mul left inverse) right)
      (RowMatrix.scale rho (RowMatrix.outer d d))
  else inverse

/-- A direction of descent with its slope; forgets what was learnt if that gives none. -/
def descend (s : Learnt α) : Learnt α × Vec α × α :=
  let direction := Vec.neg (RowMatrix.mulVec s.inverse s.g)
  let slope := Vec.dot s.g direction
  if 0.0 ≤ slope then
    ({ s with inverse := RowMatrix.identity s.x.length }, Vec.neg s.g, -Vec.normSq s.g)
  else (s, direction, slope)

def step (p : Problem α) (s : Learnt α) : Progress (Learnt α) :=
  if Vec.greatestAbs s.g < gradientTolerance then .stop s
  else
    let (s, direction, slope) := s.descend
    match search? p s direction slope halvingLimit 1.0 with
    | none => .stop s
    | some (x, r, error) =>
        let g := gradient p x r
        .next ⟨x, error, g, learn s.inverse (Vec.sub x s.x) (Vec.sub g s.g)⟩

def minimize (p : Problem α) (limits : Limits α) : Outcome α :=
  let (s, k) := iterate (fun s => isActive limits s.x s.error) (step p)
    limits.maxIterations 0 (init p)
  ⟨s.x, s.error, k⟩

end Learnt

def Problem.minimize {α : Type} [Scalar α] (p : Problem α) (alg : LinearAlgebra α)
    (algorithm : Algorithm) (limits : Limits α) : Outcome α :=
  match algorithm with
  | .levenbergMarquardt => Damped.minimize p alg limits
  | .dogLeg => Trusted.minimize p alg limits
  | .bfgs => Learnt.minimize p limits

end PlanarSketch

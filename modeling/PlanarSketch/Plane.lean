import PlanarSketch.Scalar

/-!
Points and vectors of the plane, and the measurements that the residuals of a sketch are made
of: distances, products, unit directions and the signed distance of a point from a line.
-/

namespace PlanarSketch

structure Vec2 (α : Type) where
  x : α
  y : α
  deriving DecidableEq, Repr

/-- Lengths below this bound count as degenerate. -/
def lengthTolerance {α : Type} [Scalar α] : α := 1e-6

namespace Vec2

variable {α : Type} [Scalar α]

def sub (a b : Vec2 α) : Vec2 α := ⟨a.x - b.x, a.y - b.y⟩

def dot (a b : Vec2 α) : α := a.x * b.x + a.y * b.y

/-- Positive when `b` is counter-clockwise from `a`. -/
def cross (a b : Vec2 α) : α := a.x * b.y - a.y * b.x

def length (a : Vec2 α) : α := Scalar.sqrt (a.dot a)

/-- The unit vector in the direction of `a`, or zero when `a` is degenerate. -/
def unit (a : Vec2 α) : Vec2 α :=
  let n := a.length
  if n < lengthTolerance then ⟨0.0, 0.0⟩ else ⟨a.x / n, a.y / n⟩

/-- A quarter turn counter-clockwise. -/
def perp (a : Vec2 α) : Vec2 α := ⟨-a.y, a.x⟩

def distanceSq (p q : Vec2 α) : α := (q.sub p).dot (q.sub p)

def distance (p q : Vec2 α) : α := Scalar.sqrt (p.distanceSq q)

def midpoint (p q : Vec2 α) : Vec2 α := ⟨(p.x + q.x) * 0.5, (p.y + q.y) * 0.5⟩

/-- The point of a circle at an angle. -/
def onCircle (center : Vec2 α) (radius angle : α) : Vec2 α :=
  ⟨center.x + radius * Scalar.cos angle, center.y + radius * Scalar.sin angle⟩

/-- Signed distance of `p` from the line through `a` and `b`; from `a` itself when the two
coincide. -/
def lineDistance (a b p : Vec2 α) : α :=
  let direction := b.sub a
  let n := direction.length
  if n < lengthTolerance then a.distance p else direction.cross (p.sub a) / n

/-- Signed angle from `a` to `b`. -/
def angleTo (a b : Vec2 α) : α := Scalar.atan2 (a.cross b) (a.dot b)

end Vec2

end PlanarSketch

import PlanarSketch.Angle
import PlanarSketch.Solver.Call

/-!
Equations between scalars, given by their addresses, and the residuals that vanish when they
hold. Many kinds of constraint share an equation: a radius, a coordinate and a horizontal line
all say that two scalars are equal.
-/

namespace PlanarSketch

/-- The line through two points. -/
structure Segment (π : Type) where
  p1 : π
  p2 : π
  deriving DecidableEq, Repr

/-- A curve whose direction at a point is known. -/
inductive Tangent where
  | line (l : Segment (Vec2 Address))
  | circular (center : Vec2 Address)
  deriving DecidableEq, Repr

/-- End points and end angles of an arc. -/
structure ArcEnds where
  start : Vec2 Address
  stop : Vec2 Address
  startAngle : Address
  endAngle : Address
  deriving DecidableEq, Repr

inductive Equation (α : Type) where
  | equal (a b : Address)
  | difference (a b d : Address)
  | proportional (a b ratio : Address)
  | twice (half whole : Address)
  | coincident (p q : Vec2 Address)
  | distance (p q : Vec2 Address) (d : Address)
  /-- The direction from `p` to `q` is an angle and a constant more. -/
  | direction (p q : Vec2 Address) (angle : Address) (more : α)
  | lineDistance (p : Vec2 Address) (l : Segment (Vec2 Address)) (d : Address)
  | onLine (p : Vec2 Address) (l : Segment (Vec2 Address))
  | onBisector (p : Vec2 Address) (l : Segment (Vec2 Address))
  | parallel (l m : Segment (Vec2 Address))
  | perpendicular (l m : Segment (Vec2 Address))
  | lineAngle (l m : Segment (Vec2 Address)) (angle : Address)
  | midpointOnLine (l m : Segment (Vec2 Address))
  | arcRules (center : Vec2 Address) (ends : ArcEnds) (radius : Address)
  | onEllipse (p center focus1 : Vec2 Address) (radmin : Address)
  | equalLength (l m : Segment (Vec2 Address))
  | symmetric (p q : Vec2 Address) (l : Segment (Vec2 Address))
  | centered (p q mid : Vec2 Address)
  | curveAngle (c d : Tangent) (p : Vec2 Address) (angle : Address)
  /-- Two arcs meet at right angles in their end points `p` and `q`. -/
  | perpendicularArcs (c p d q : Vec2 Address)
  deriving DecidableEq, Repr

namespace Equation

variable {α : Type} [Scalar α]

def pointAt (x : Address → α) (p : Vec2 Address) : Vec2 α := ⟨x p.x, x p.y⟩

def ends (x : Address → α) (l : Segment (Vec2 Address)) : Segment (Vec2 α) :=
  ⟨pointAt x l.p1, pointAt x l.p2⟩

def along (x : Address → α) (l : Segment (Vec2 Address)) : Vec2 α :=
  (pointAt x l.p2).sub (pointAt x l.p1)

def tangentAt (x : Address → α) (p : Vec2 α) : Tangent → Vec2 α
  | .line l => along x l
  | .circular c => (p.sub (pointAt x c)).perp

/-- Number of residuals. -/
def rows : Equation α → Nat
  | coincident .. | symmetric .. | centered .. => 2
  | perpendicularArcs .. => 3
  | arcRules .. => 4
  | _ => 1

def onSegment (l : Segment (Vec2 α)) (p : Vec2 α) : α := Vec2.lineDistance l.p1 l.p2 p

/-- The distances of a point from the foci of an ellipse exceed its major axis by this. -/
def ellipseExcess (p center focus1 : Vec2 α) (radmin : α) : α :=
  let focus2 : Vec2 α := ⟨2.0 * center.x - focus1.x, 2.0 * center.y - focus1.y⟩
  let focal := center.distance focus1
  let radmaj := Scalar.sqrt (radmin * radmin + focal * focal)
  p.distance focus1 + p.distance focus2 - 2.0 * radmaj

/-- What is left of each side of the equation under an assignment of the scalars. -/
def residuals (x : Address → α) : Equation α → List α
  | equal a b => [x a - x b]
  | difference a b d => [x b - x a - x d]
  | proportional a b ratio => [x b - x ratio * x a]
  | twice half whole => [2.0 * x half - x whole]
  | coincident p q => [x p.x - x q.x, x p.y - x q.y]
  | distance p q d => [(pointAt x p).distance (pointAt x q) - x d]
  | direction p q angle more =>
      let v := (pointAt x q).sub (pointAt x p)
      [Angle.wrap (Scalar.atan2 v.y v.x - (x angle + more))]
  | lineDistance p l d => [Scalar.abs (onSegment (ends x l) (pointAt x p)) - x d]
  | onLine p l => [onSegment (ends x l) (pointAt x p)]
  | onBisector p l =>
      let s := ends x l
      [((pointAt x p).sub (s.p1.midpoint s.p2)).dot (s.p2.sub s.p1).unit]
  | parallel l m => [(along x l).unit.cross (along x m).unit]
  | perpendicular l m => [(along x l).unit.dot (along x m).unit]
  | lineAngle l m angle => [Angle.wrap ((along x l).angleTo (along x m) - x angle)]
  | midpointOnLine l m =>
      let s := ends x l
      [onSegment (ends x m) (s.p1.midpoint s.p2)]
  | arcRules center e radius =>
      let c := pointAt x center
      let start := c.onCircle (x radius) (x e.startAngle)
      let stop := c.onCircle (x radius) (x e.endAngle)
      [x e.start.x - start.x, x e.start.y - start.y, x e.stop.x - stop.x, x e.stop.y - stop.y]
  | onEllipse p center focus1 radmin =>
      [ellipseExcess (pointAt x p) (pointAt x center) (pointAt x focus1) (x radmin)]
  | equalLength l m => [(along x l).length - (along x m).length]
  | symmetric p q l =>
      let s := ends x l
      [onSegment s ((pointAt x p).midpoint (pointAt x q)),
        ((pointAt x q).sub (pointAt x p)).dot (s.p2.sub s.p1).unit]
  | centered p q mid =>
      let c := (pointAt x p).midpoint (pointAt x q)
      [c.x - x mid.x, c.y - x mid.y]
  | curveAngle c d p angle =>
      let q := pointAt x p
      [Angle.wrap ((tangentAt x q c).angleTo (tangentAt x q d) - x angle)]
  | perpendicularArcs c p d q =>
      let u := pointAt x p
      let v := pointAt x q
      [u.x - v.x, u.y - v.y, (u.sub (pointAt x c)).unit.dot (v.sub (pointAt x d)).unit]

theorem residuals_length (x : Address → α) (e : Equation α) :
    (e.residuals x).length = e.rows := by
  cases e <;> rfl

end Equation

end PlanarSketch

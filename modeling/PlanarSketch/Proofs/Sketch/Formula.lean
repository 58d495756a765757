import PlanarSketch.Angle
import PlanarSketch.Plane
import PlanarSketch.Sketch.Index

/-!
What constraints say about figures of the plane, without a solver and without addresses. A
parameter is read off the sketch as a number or a figure; the kind then says which residuals
vanish when the constraint holds.
-/

namespace PlanarSketch

variable {α : Type}

/-- A geometry with its points in place. -/
abbrev Figure (α : Type) := Shape (Vec2 α) α

inductive Reading (α : Type) where
  | value (v : α)
  | figure (f : Figure α)
  | number (v : α)
  | flag (b : Bool)

namespace Index

def pointAt? (x : Index α) (id : Oid) : Option (Vec2 α) :=
  match x.get? id with
  | some (.geometry ⟨_, .point a b _⟩) => some ⟨a, b⟩
  | _ => none

/-- The figure of a geometry, whose points are looked up by id. -/
def figure? (x : Index α) : Shape Oid α → Option (Figure α)
  | .point a b fixed => some (.point a b fixed)
  | .line p q => do return .line (← x.pointAt? p) (← x.pointAt? q)
  | .circle c r => do return .circle (← x.pointAt? c) r
  | .arc c s e a b r => do
      return .arc (← x.pointAt? c) (← x.pointAt? s) (← x.pointAt? e) a b r
  | .ellipse c f r => do return .ellipse (← x.pointAt? c) (← x.pointAt? f) r
  | .arcOfEllipse c f s e a b r => do
      return .arcOfEllipse (← x.pointAt? c) (← x.pointAt? f) (← x.pointAt? s) (← x.pointAt? e)
        a b r
  | .hyperbola c f r => do return .hyperbola (← x.pointAt? c) (← x.pointAt? f) r
  | .arcOfHyperbola c f s e a b r => do
      return .arcOfHyperbola (← x.pointAt? c) (← x.pointAt? f) (← x.pointAt? s) (← x.pointAt? e)
        a b r
  | .parabola w f => do return .parabola (← x.pointAt? w) (← x.pointAt? f)
  | .arcOfParabola w f s e a b => do
      return .arcOfParabola (← x.pointAt? w) (← x.pointAt? f) (← x.pointAt? s) (← x.pointAt? e)
        a b

end Index

namespace Reading

/-- Center and radius of a circle or of the circle that an arc lies on. -/
def circle? : Figure α → Option (Vec2 α × α)
  | .circle c r => some (c, r)
  | .arc c _ _ _ _ r => some (c, r)
  | _ => none

/-- Center, first focus and minor radius of an ellipse or of the one that an arc lies on. -/
def ellipse? : Figure α → Option (Vec2 α × Vec2 α × α)
  | .ellipse c f r => some (c, f, r)
  | .arcOfEllipse c f _ _ _ _ r => some (c, f, r)
  | _ => none

variable [Scalar α]

/-- The direction of a curve at a point, for lines and circles. -/
def direction? (p : Vec2 α) : Figure α → Option (Vec2 α)
  | .line a b => some (b.sub a)
  | f => (circle? f).map fun c => (p.sub c.1).perp

/-- How much farther a point is from the foci of an ellipse than the points of the ellipse. -/
def ellipseExcess (p center focus : Vec2 α) (radmin : α) : α :=
  let other : Vec2 α := ⟨2.0 * center.x - focus.x, 2.0 * center.y - focus.y⟩
  let focal := center.distance focus
  p.distance focus + p.distance other -
    2.0 * Scalar.sqrt (radmin * radmin + focal * focal)

end Reading

variable [Scalar α]

open Reading in
/-- The residuals of a constraint of each kind between its parameters. -/
def Kind.formula : Kind → List (Reading α) → Option (List α)
  | .equal, [.value a, .value b] => some [a - b]
  | .difference, [.value a, .value b, .value d] => some [b - a - d]
  | .proportional, [.value a, .value b, .value ratio] => some [b - ratio * a]
  | .coordinateX, [.figure (.point a _ _), .value x] => some [a - x]
  | .coordinateY, [.figure (.point _ b _), .value y] => some [b - y]
  | .p2pCoincident, [.figure (.point a b _), .figure (.point c d _)] => some [a - c, b - d]
  | .p2pDistance, [.figure (.point a b _), .figure (.point c d _), .value v] =>
      some [Vec2.distance ⟨a, b⟩ ⟨c, d⟩ - v]
  | .p2pAngle, [.figure (.point a b _), .figure (.point c d _), .value angle] =>
      some [Angle.wrap (Scalar.atan2 (d - b) (c - a) - (angle + 0.0))]
  | .p2pAngleIncrAngle,
      [.figure (.point a b _), .figure (.point c d _), .value angle, .number more] =>
      some [Angle.wrap (Scalar.atan2 (d - b) (c - a) - (angle + more))]
  | .p2lDistance, [.figure (.point a b _), .figure (.line p q), .value v] =>
      some [Scalar.abs (Vec2.lineDistance p q ⟨a, b⟩) - v]
  | .pointOnLinePl, [.figure (.point a b _), .figure (.line p q)] =>
      some [Vec2.lineDistance p q ⟨a, b⟩]
  | .pointOnLinePpp,
      [.figure (.point a b _), .figure (.point c d _), .figure (.point e f _)] =>
      some [Vec2.lineDistance ⟨c, d⟩ ⟨e, f⟩ ⟨a, b⟩]
  | .pointOnPerpBisectorPl, [.figure (.point a b _), .figure (.line p q)] =>
      some [(Vec2.sub ⟨a, b⟩ (p.midpoint q)).dot (q.sub p).unit]
  | .parallel, [.figure (.line p q), .figure (.line r s)] =>
      some [(q.sub p).unit.cross (s.sub r).unit]
  | .perpendicularLl, [.figure (.line p q), .figure (.line r s)] =>
      some [(q.sub p).unit.dot (s.sub r).unit]
  | .l2lAngleLl, [.figure (.line p q), .figure (.line r s), .value angle] =>
      some [Angle.wrap ((q.sub p).angleTo (s.sub r) - angle)]
  | .midpointOnLineLl, [.figure (.line p q), .figure (.line r s)] =>
      some [Vec2.lineDistance r s (p.midpoint q)]
  | .horizontalL, [.figure (.line p q)] => some [q.y - p.y]
  | .horizontalPp, [.figure (.point _ b _), .figure (.point _ d _)] => some [d - b]
  | .verticalL, [.figure (.line p q)] => some [q.x - p.x]
  | .verticalPp, [.figure (.point a _ _), .figure (.point c _ _)] => some [c - a]
  | .tangentLc, [.figure (.line p q), .figure c] =>
      (circle? c).map fun (center, r) => [Scalar.abs (Vec2.lineDistance p q center) - r]
  | .arcRules, [.figure (.arc c s e a b r)] =>
      some [s.x - (c.onCircle r a).x, s.y - (c.onCircle r a).y,
        e.x - (c.onCircle r b).x, e.y - (c.onCircle r b).y]
  | .pointOnCircle, [.figure (.point a b _), .figure c] =>
      (circle? c).map fun (center, r) => [Vec2.distance ⟨a, b⟩ center - r]
  | .pointOnArc, [.figure (.point a b _), .figure (.arc c _ _ _ _ r)] =>
      some [Vec2.distance ⟨a, b⟩ c - r]
  | .pointOnEllipse, [.figure (.point a b _), .figure e] =>
      (ellipse? e).map fun (center, focus, r) => [ellipseExcess ⟨a, b⟩ center focus r]
  | .circleRadius, [.figure c, .value v] => (circle? c).map fun (_, r) => [r - v]
  | .arcRadius, [.figure (.arc _ _ _ _ _ r), .value v] => some [r - v]
  | .circleDiameter, [.figure c, .value v] => (circle? c).map fun (_, r) => [2.0 * r - v]
  | .arcDiameter, [.figure (.arc _ _ _ _ _ r), .value v] => some [2.0 * r - v]
  | .equalLength, [.figure (.line p q), .figure (.line r s)] =>
      some [(q.sub p).length - (s.sub r).length]
  | .equalRadiusCc, [.figure c, .figure d] => do return [(← circle? c).2 - (← circle? d).2]
  | .p2pSymmetricPpl,
      [.figure (.point a b _), .figure (.point c d _), .figure (.line p q)] =>
      some [Vec2.lineDistance p q (Vec2.midpoint ⟨a, b⟩ ⟨c, d⟩),
        (Vec2.sub ⟨c, d⟩ ⟨a, b⟩).dot (q.sub p).unit]
  | .p2pSymmetricPpp,
      [.figure (.point a b _), .figure (.point c d _), .figure (.point e f _)] =>
      some [(Vec2.midpoint ⟨a, b⟩ ⟨c, d⟩).x - e, (Vec2.midpoint ⟨a, b⟩ ⟨c, d⟩).y - f]
  | .angleViaPoint, [.figure c, .figure d, .figure (.point a b _), .value angle] => do
      return [Angle.wrap ((← direction? ⟨a, b⟩ c).angleTo (← direction? ⟨a, b⟩ d) - angle)]
  | .perpendicularArc2arc,
      [.figure (.arc c s e _ _ _), .flag reverse1, .figure (.arc d t f _ _ _), .flag reverse2] =>
      let p := if reverse1 then s else e
      let q := if reverse2 then f else t
      some [p.x - q.x, p.y - q.y, (p.sub c).unit.dot (q.sub d).unit]
  | _, _ => none

end PlanarSketch

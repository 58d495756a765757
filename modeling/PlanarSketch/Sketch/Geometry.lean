import PlanarSketch.Scalar
import PlanarSketch.Sketch.Class

/-!
Geometry of a sketch. A point carries its own coordinates; every other shape is built on points
and owns at most a few scalars besides. A shape is written over any type of point and of scalar:
in a sketch it names its points by id and holds numbers, in a solver it holds addresses.
-/

namespace PlanarSketch

/-- Identity of a primitive within a sketch. -/
structure Oid where
  val : UInt32
  deriving DecidableEq, Repr, Inhabited

def Oid.text (id : Oid) : String := s!"#{id.val.toNat}"

inductive Shape (π α : Type) where
  | point (x y : α) (fixed : Bool)
  | line (p1 p2 : π)
  | circle (center : π) (radius : α)
  | arc (center start stop : π) (startAngle endAngle radius : α)
  | ellipse (center focus1 : π) (radmin : α)
  | arcOfEllipse (center focus1 start stop : π) (startAngle endAngle radmin : α)
  | hyperbola (center focus1 : π) (radmin : α)
  | arcOfHyperbola (center focus1 start stop : π) (startAngle endAngle radmin : α)
  | parabola (vertex focus1 : π)
  | arcOfParabola (vertex focus1 start stop : π) (startAngle endAngle : α)
  deriving BEq, DecidableEq, Repr

namespace Shape

variable {π α : Type}

def geometryClass : Shape π α → GeometryClass
  | point .. => .point
  | line .. => .line
  | circle .. => .circle
  | arc .. => .arc
  | ellipse .. => .ellipse
  | arcOfEllipse .. => .arcOfEllipse
  | hyperbola .. => .hyperbola
  | arcOfHyperbola .. => .arcOfHyperbola
  | parabola .. => .parabola
  | arcOfParabola .. => .arcOfParabola

/-- The points that the shape is built on, in the order of `GeometryClass.pointNames`. -/
def points : Shape π α → List π
  | point .. => []
  | line p1 p2 => [p1, p2]
  | circle c _ => [c]
  | arc c s e _ _ _ => [c, s, e]
  | ellipse c f _ | hyperbola c f _ => [c, f]
  | arcOfEllipse c f s e _ _ _ | arcOfHyperbola c f s e _ _ _ => [c, f, s, e]
  | parabola v f => [v, f]
  | arcOfParabola v f s e _ _ => [v, f, s, e]

/-- The scalars that the shape owns, in the order of `GeometryClass.ownProperties`. -/
def scalars : Shape π α → List α
  | point x y _ => [x, y]
  | line .. | parabola .. => []
  | circle _ r => [r]
  | arc _ _ _ a b r => [a, b, r]
  | ellipse _ _ r | hyperbola _ _ r => [r]
  | arcOfEllipse _ _ _ _ a b r | arcOfHyperbola _ _ _ _ a b r => [a, b, r]
  | arcOfParabola _ _ _ _ a b => [a, b]

/-- Whether the shape is a point that must not move. -/
def fixed : Shape π α → Bool
  | point _ _ fixed => fixed
  | _ => false

/-- The shape of a class with the given points and scalars. -/
def ofParts? : GeometryClass → List π → List α → Bool → Option (Shape π α)
  | .point, [], [x, y], fixed => some (point x y fixed)
  | .line, [p1, p2], [], _ => some (line p1 p2)
  | .circle, [c], [r], _ => some (circle c r)
  | .arc, [c, s, e], [a, b, r], _ => some (arc c s e a b r)
  | .ellipse, [c, f], [r], _ => some (ellipse c f r)
  | .arcOfEllipse, [c, f, s, e], [a, b, r], _ => some (arcOfEllipse c f s e a b r)
  | .hyperbola, [c, f], [r], _ => some (hyperbola c f r)
  | .arcOfHyperbola, [c, f, s, e], [a, b, r], _ => some (arcOfHyperbola c f s e a b r)
  | .parabola, [v, f], [], _ => some (parabola v f)
  | .arcOfParabola, [v, f, s, e], [a, b], _ => some (arcOfParabola v f s e a b)
  | _, _, _, _ => none

theorem ofParts?_parts (s : Shape π α) : ofParts? s.geometryClass s.points s.scalars s.fixed = some s := by
  cases s <;> rfl

@[simp] theorem points_length (s : Shape π α) : s.points.length = s.geometryClass.pointNames.length := by
  cases s <;> rfl

@[simp] theorem scalars_length (s : Shape π α) : s.scalars.length = s.geometryClass.ownCount := by
  cases s <;> rfl

/-- Replaces points, then scalars by their places among the shape's own. -/
def mapM {m : Type → Type} [Monad m] {ρ β : Type} (f : π → m ρ) (own : Nat → m β) :
    Shape π α → m (Shape ρ β)
  | point _ _ fixed => return point (← own 0) (← own 1) fixed
  | line p1 p2 => return line (← f p1) (← f p2)
  | circle c _ => return circle (← f c) (← own 0)
  | arc c s e _ _ _ => return arc (← f c) (← f s) (← f e) (← own 0) (← own 1) (← own 2)
  | ellipse c g _ => return ellipse (← f c) (← f g) (← own 0)
  | arcOfEllipse c g s e _ _ _ =>
      return arcOfEllipse (← f c) (← f g) (← f s) (← f e) (← own 0) (← own 1) (← own 2)
  | hyperbola c g _ => return hyperbola (← f c) (← f g) (← own 0)
  | arcOfHyperbola c g s e _ _ _ =>
      return arcOfHyperbola (← f c) (← f g) (← f s) (← f e) (← own 0) (← own 1) (← own 2)
  | parabola v g => return parabola (← f v) (← f g)
  | arcOfParabola v g s e _ _ =>
      return arcOfParabola (← f v) (← f g) (← f s) (← f e) (← own 0) (← own 1)

/-- A scalar of the shape, when it has that property. -/
def get? (s : Shape π α) (p : Property) : Option α :=
  (s.geometryClass.offset? p).bind fun i => s.scalars[i]?

/-- Replaces a scalar; a shape without that property stays as it is. -/
def set (s : Shape π α) (p : Property) (v : α) : Shape π α :=
  match s, p with
  | point _ y fixed, .x => point v y fixed
  | point x _ fixed, .y => point x v fixed
  | circle c _, .radius => circle c v
  | arc c s e _ b r, .startAngle => arc c s e v b r
  | arc c s e a _ r, .endAngle => arc c s e a v r
  | arc c s e a b _, .radius => arc c s e a b v
  | ellipse c f _, .radmin => ellipse c f v
  | hyperbola c f _, .radmin => hyperbola c f v
  | arcOfEllipse c f s e _ b r, .startAngle => arcOfEllipse c f s e v b r
  | arcOfEllipse c f s e a _ r, .endAngle => arcOfEllipse c f s e a v r
  | arcOfEllipse c f s e a b _, .radmin => arcOfEllipse c f s e a b v
  | arcOfHyperbola c f s e _ b r, .startAngle => arcOfHyperbola c f s e v b r
  | arcOfHyperbola c f s e a _ r, .endAngle => arcOfHyperbola c f s e a v r
  | arcOfHyperbola c f s e a b _, .radmin => arcOfHyperbola c f s e a b v
  | arcOfParabola w f s e _ b, .startAngle => arcOfParabola w f s e v b
  | arcOfParabola w f s e a _, .endAngle => arcOfParabola w f s e a v
  | s, _ => s

theorem get?_set (s : Shape π α) (p q : Property) (v : α) :
    (s.set p v).get? q = if q = p then (s.get? p).map fun _ => v else s.get? q := by
  cases s <;> cases p <;> cases q <;> rfl

@[simp] theorem class_set (s : Shape π α) (p : Property) (v : α) :
    (s.set p v).geometryClass = s.geometryClass := by
  cases s <;> cases p <;> rfl

@[simp] theorem points_set (s : Shape π α) (p : Property) (v : α) :
    (s.set p v).points = s.points := by
  cases s <;> cases p <;> rfl

@[simp] theorem fixed_set (s : Shape π α) (p : Property) (v : α) :
    (s.set p v).fixed = s.fixed := by
  cases s <;> cases p <;> rfl

end Shape

structure Geometry (α : Type) where
  id : Oid
  shape : Shape Oid α
  deriving BEq, DecidableEq, Repr

namespace Geometry

variable {α : Type}

def geometryClass (g : Geometry α) : GeometryClass := g.shape.geometryClass

def points (g : Geometry α) : List Oid := g.shape.points

end Geometry

end PlanarSketch

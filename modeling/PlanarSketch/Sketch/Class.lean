/-!
The classes of geometry, which of them may stand in for which, and the scalars that a geometry
of each class owns. The scalars of one geometry lie side by side in the order of
`ownProperties`; everything else that shapes it belongs to the points it is built on.
-/

namespace PlanarSketch

inductive GeometryClass where
  | point | line | circle | arc
  | ellipse | arcOfEllipse | hyperbola | arcOfHyperbola | parabola | arcOfParabola
  | curve
  deriving DecidableEq, Repr

namespace GeometryClass

def name : GeometryClass → String
  | point => "point"
  | line => "line"
  | circle => "circle"
  | arc => "arc"
  | ellipse => "ellipse"
  | arcOfEllipse => "arc_of_ellipse"
  | hyperbola => "hyperbola"
  | arcOfHyperbola => "arc_of_hyperbola"
  | parabola => "parabola"
  | arcOfParabola => "arc_of_parabola"
  | curve => "curve"

/-- Whether a geometry of the second class may be passed where the first is expected: arcs are
circles, arcs of a conic are that conic, and everything but a point is a curve. -/
def accepts : GeometryClass → GeometryClass → Bool
  | curve, found => found ≠ point && found ≠ curve
  | circle, found => found = circle || found = arc
  | ellipse, found => found = ellipse || found = arcOfEllipse
  | hyperbola, found => found = hyperbola || found = arcOfHyperbola
  | parabola, found => found = parabola || found = arcOfParabola
  | expected, found => expected = found

end GeometryClass

/-- A scalar of a geometry that constraints may refer to. -/
inductive Property where
  | x | y | radius | startAngle | endAngle | radmin
  deriving DecidableEq, Repr

namespace Property

def all : List Property := [x, y, radius, startAngle, endAngle, radmin]

def name : Property → String
  | x => "x"
  | y => "y"
  | radius => "radius"
  | startAngle => "start_angle"
  | endAngle => "end_angle"
  | radmin => "radmin"

def ofName? (s : String) : Option Property := all.find? fun p => p.name = s

theorem ofName?_name (p : Property) : ofName? p.name = some p := by cases p <;> decide

def isAngle (p : Property) : Bool := p = startAngle || p = endAngle

end Property

namespace GeometryClass

/-- The classes that a sketch holds; `curve` only ever occurs as an expectation. -/
def concrete : List GeometryClass :=
  [point, line, circle, arc, ellipse, arcOfEllipse, hyperbola, arcOfHyperbola, parabola,
    arcOfParabola]

def ownProperties : GeometryClass → List Property
  | point => [.x, .y]
  | circle => [.radius]
  | arc => [.startAngle, .endAngle, .radius]
  | ellipse | hyperbola => [.radmin]
  | arcOfEllipse | arcOfHyperbola => [.startAngle, .endAngle, .radmin]
  | arcOfParabola => [.startAngle, .endAngle]
  | line | parabola | curve => []

/-- Names of the points that a geometry of this class is built on. -/
def pointNames : GeometryClass → List String
  | line => ["p1_id", "p2_id"]
  | circle => ["c_id"]
  | arc => ["c_id", "start_id", "end_id"]
  | ellipse | hyperbola => ["c_id", "focus1_id"]
  | arcOfEllipse | arcOfHyperbola => ["c_id", "focus1_id", "start_id", "end_id"]
  | parabola => ["vertex_id", "focus1_id"]
  | arcOfParabola => ["vertex_id", "focus1_id", "start_id", "end_id"]
  | point | curve => []

/-- Place of a property among the scalars of a geometry of this class. -/
def offset? (c : GeometryClass) (p : Property) : Option Nat :=
  c.ownProperties.findIdx? (· = p)

def ownCount (c : GeometryClass) : Nat := c.ownProperties.length

theorem offset?_lt {c : GeometryClass} {p : Property} {i : Nat} (h : c.offset? p = some i) :
    i < c.ownCount := by
  simp only [offset?, List.findIdx?_eq_some_iff_getElem] at h
  exact h.1

end GeometryClass

end PlanarSketch

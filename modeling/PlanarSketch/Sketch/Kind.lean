import PlanarSketch.Sketch.Class

/-!
The kinds of constraint, and for each kind the ordered list of what its equation takes. A
constraint names its parameters; the schema gives them their order and says what each must be.
-/

namespace PlanarSketch

inductive Kind where
  | equal | difference | proportional | coordinateX | coordinateY
  | p2pCoincident | p2pDistance | p2pAngle | p2pAngleIncrAngle | p2lDistance
  | pointOnLinePl | pointOnLinePpp | pointOnPerpBisectorPl
  | parallel | perpendicularLl | l2lAngleLl | midpointOnLineLl
  | horizontalL | horizontalPp | verticalL | verticalPp
  | tangentLc | arcRules | pointOnCircle | pointOnArc | pointOnEllipse
  | circleRadius | arcRadius | circleDiameter | arcDiameter
  | equalLength | equalRadiusCc | p2pSymmetricPpl | p2pSymmetricPpp
  | angleViaPoint | perpendicularArc2arc
  deriving DecidableEq, Repr

namespace Kind

def all : List Kind :=
  [equal, difference, proportional, coordinateX, coordinateY,
    p2pCoincident, p2pDistance, p2pAngle, p2pAngleIncrAngle, p2lDistance,
    pointOnLinePl, pointOnLinePpp, pointOnPerpBisectorPl,
    parallel, perpendicularLl, l2lAngleLl, midpointOnLineLl,
    horizontalL, horizontalPp, verticalL, verticalPp,
    tangentLc, arcRules, pointOnCircle, pointOnArc, pointOnEllipse,
    circleRadius, arcRadius, circleDiameter, arcDiameter,
    equalLength, equalRadiusCc, p2pSymmetricPpl, p2pSymmetricPpp,
    angleViaPoint, perpendicularArc2arc]

def name : Kind → String
  | equal => "equal"
  | difference => "difference"
  | proportional => "proportional"
  | coordinateX => "coordinate_x"
  | coordinateY => "coordinate_y"
  | p2pCoincident => "p2p_coincident"
  | p2pDistance => "p2p_distance"
  | p2pAngle => "p2p_angle"
  | p2pAngleIncrAngle => "p2p_angle_incr_angle"
  | p2lDistance => "p2l_distance"
  | pointOnLinePl => "point_on_line_pl"
  | pointOnLinePpp => "point_on_line_ppp"
  | pointOnPerpBisectorPl => "point_on_perp_bisector_pl"
  | parallel => "parallel"
  | perpendicularLl => "perpendicular_ll"
  | l2lAngleLl => "l2l_angle_ll"
  | midpointOnLineLl => "midpoint_on_line_ll"
  | horizontalL => "horizontal_l"
  | horizontalPp => "horizontal_pp"
  | verticalL => "vertical_l"
  | verticalPp => "vertical_pp"
  | tangentLc => "tangent_lc"
  | arcRules => "arc_rules"
  | pointOnCircle => "point_on_circle"
  | pointOnArc => "point_on_arc"
  | pointOnEllipse => "point_on_ellipse"
  | circleRadius => "circle_radius"
  | arcRadius => "arc_radius"
  | circleDiameter => "circle_diameter"
  | arcDiameter => "arc_diameter"
  | equalLength => "equal_length"
  | equalRadiusCc => "equal_radius_cc"
  | p2pSymmetricPpl => "p2p_symmetric_ppl"
  | p2pSymmetricPpp => "p2p_symmetric_ppp"
  | angleViaPoint => "angle_via_point"
  | perpendicularArc2arc => "perpendicular_arc2arc"

def ofName? (s : String) : Option Kind := all.find? fun k => k.name = s

theorem mem_all (k : Kind) : k ∈ all := by cases k <;> decide

theorem ofName?_name (k : Kind) : ofName? k.name = some k := by cases k <;> decide

end Kind

/-- What a parameter of a schema is filled with. -/
inductive Slot where
  /-- The tag, driving flag and alignment, which come from the constraint as a whole. -/
  | tag | driving | alignment
  /-- A literal number, a named parameter or a property of another primitive. -/
  | value
  /-- The id of a geometry of an accepted class. -/
  | geometry (c : GeometryClass)
  /-- A number or boolean, passed on as it is. -/
  | raw
  deriving DecidableEq, Repr

structure ParamSpec where
  name : String
  slot : Slot
  deriving DecidableEq, Repr

namespace ParamSpec

/-- Whether the parameter carries data of the constraint itself. -/
def isUserData (p : ParamSpec) : Bool :=
  match p.slot with
  | .value | .geometry _ | .raw => true
  | .tag | .driving | .alignment => false

def value (name : String) : ParamSpec := ⟨name, .value⟩
def point (name : String) : ParamSpec := ⟨name, .geometry .point⟩
def line (name : String) : ParamSpec := ⟨name, .geometry .line⟩
def circle (name : String) : ParamSpec := ⟨name, .geometry .circle⟩
def arc (name : String) : ParamSpec := ⟨name, .geometry .arc⟩
def ellipse (name : String) : ParamSpec := ⟨name, .geometry .ellipse⟩
def curve (name : String) : ParamSpec := ⟨name, .geometry .curve⟩
def raw (name : String) : ParamSpec := ⟨name, .raw⟩

end ParamSpec

namespace Kind

open ParamSpec in
/-- The parameters that a constraint of this kind names, in the order its equation takes them. -/
def userParams : Kind → List ParamSpec
  | equal => [value "param1", value "param2"]
  | difference => [value "param1", value "param2", value "difference"]
  | proportional => [value "param1", value "param2", value "ratio"]
  | coordinateX => [point "p_id", value "x"]
  | coordinateY => [point "p_id", value "y"]
  | p2pCoincident => [point "p1_id", point "p2_id"]
  | p2pDistance => [point "p1_id", point "p2_id", value "distance"]
  | p2pAngle => [point "p1_id", point "p2_id", value "angle"]
  | p2pAngleIncrAngle => [point "p1_id", point "p2_id", value "angle", raw "incr_angle"]
  | p2lDistance => [point "p_id", line "l_id", value "distance"]
  | pointOnLinePl => [point "p_id", line "l_id"]
  | pointOnLinePpp => [point "p_id", point "lp1_id", point "lp2_id"]
  | pointOnPerpBisectorPl => [point "p_id", line "l_id"]
  | parallel => [line "l1_id", line "l2_id"]
  | perpendicularLl => [line "l1_id", line "l2_id"]
  | l2lAngleLl => [line "l1_id", line "l2_id", value "angle"]
  | midpointOnLineLl => [line "l1_id", line "l2_id"]
  | horizontalL => [line "l_id"]
  | horizontalPp => [point "p1_id", point "p2_id"]
  | verticalL => [line "l_id"]
  | verticalPp => [point "p1_id", point "p2_id"]
  | tangentLc => [line "l_id", circle "c_id"]
  | arcRules => [arc "a_id"]
  | pointOnCircle => [point "p_id", circle "c_id"]
  | pointOnArc => [point "p_id", arc "a_id"]
  | pointOnEllipse => [point "p_id", ellipse "e_id"]
  | circleRadius => [circle "c_id", value "radius"]
  | arcRadius => [arc "a_id", value "radius"]
  | circleDiameter => [circle "c_id", value "diameter"]
  | arcDiameter => [arc "a_id", value "diameter"]
  | equalLength => [line "l1_id", line "l2_id"]
  | equalRadiusCc => [circle "c1_id", circle "c2_id"]
  | p2pSymmetricPpl => [point "p1_id", point "p2_id", line "l_id"]
  | p2pSymmetricPpp => [point "p1_id", point "p2_id", point "p_id"]
  | angleViaPoint => [curve "crv1_id", curve "crv2_id", point "p_id", value "angle"]
  | perpendicularArc2arc => [arc "a1_id", raw "reverse1", arc "a2_id", raw "reverse2"]

/-- The trailing parameters that every kind shares; only `equal` knows internal alignment. -/
def sharedParams (k : Kind) : List ParamSpec :=
  [⟨"tagId", .tag⟩, ⟨"driving", .driving⟩] ++
    if k = equal then [⟨"internalalignment", .alignment⟩] else []

/-- Everything the equation of a kind takes, in order. -/
def schema (k : Kind) : List ParamSpec := k.userParams ++ k.sharedParams

/-- Number of arguments, with or without the trailing scale. -/
def arity (k : Kind) (withScale : Bool) : Nat :=
  k.schema.length + if withScale then 1 else 0

theorem userParams_isUserData (k : Kind) : ∀ p ∈ k.userParams, p.isUserData := by
  cases k <;> decide

theorem sharedParams_not_isUserData (k : Kind) : ∀ p ∈ k.sharedParams, ¬ p.isUserData := by
  cases k <;> decide

theorem filter_schema (k : Kind) : k.schema.filter ParamSpec.isUserData = k.userParams := by
  cases k <;> rfl

end Kind

end PlanarSketch

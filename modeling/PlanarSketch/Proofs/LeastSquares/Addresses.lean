import PlanarSketch.LeastSquares.Argument

/-!
Which scalars an equation reads. The addresses are read off the equation, and two assignments that
agree on them leave the same residuals, so nothing else enters.
-/

namespace PlanarSketch

variable {α : Type}

def Vec2.addresses (p : Vec2 Address) : List Address := [p.x, p.y]

def Segment.addresses (l : Segment (Vec2 Address)) : List Address :=
  l.p1.addresses ++ l.p2.addresses

def Tangent.addresses : Tangent → List Address
  | .line l => l.addresses
  | .circular c => c.addresses

def ArcEnds.addresses (e : ArcEnds) : List Address :=
  e.start.addresses ++ e.stop.addresses ++ [e.startAngle, e.endAngle]

def Operand.addresses : Operand α → List Address
  | .address a => [a]
  | .record r => r.addresses
  | .number _ | .flag _ | .tag _ | .driving _ | .alignment _ | .scale _ => []

def Operand.address? : Operand α → Option Address
  | .address a => some a
  | _ => none

/-- The addresses that an equation of this kind reads for its value parameters, in their order. -/
def Kind.valueReads : Kind → Equation α → List Address
  | .equal, .equal a b => [a, b]
  | .difference, .difference a b d => [a, b, d]
  | .proportional, .proportional a b ratio => [a, b, ratio]
  | .coordinateX, .equal _ v | .coordinateY, .equal _ v => [v]
  | .circleRadius, .equal _ v | .arcRadius, .equal _ v => [v]
  | .circleDiameter, .twice _ v | .arcDiameter, .twice _ v => [v]
  | .p2pDistance, .distance _ _ v => [v]
  | .p2pAngle, .direction _ _ v _ | .p2pAngleIncrAngle, .direction _ _ v _ => [v]
  | .p2lDistance, .lineDistance _ _ v => [v]
  | .l2lAngleLl, .lineAngle _ _ v => [v]
  | .angleViaPoint, .curveAngle _ _ _ v => [v]
  | _, _ => []

namespace Equation

/-- Addresses of the scalars that the residuals depend on. -/
def addresses : Equation α → List Address
  | equal a b => [a, b]
  | difference a b d => [a, b, d]
  | proportional a b ratio => [a, b, ratio]
  | twice half whole => [half, whole]
  | coincident p q => p.addresses ++ q.addresses
  | distance p q d => p.addresses ++ q.addresses ++ [d]
  | direction p q angle _ => p.addresses ++ q.addresses ++ [angle]
  | lineDistance p l d => p.addresses ++ l.addresses ++ [d]
  | onLine p l | onBisector p l => p.addresses ++ l.addresses
  | parallel l m | perpendicular l m | midpointOnLine l m | equalLength l m =>
      l.addresses ++ m.addresses
  | lineAngle l m angle => l.addresses ++ m.addresses ++ [angle]
  | arcRules center e radius => center.addresses ++ e.addresses ++ [radius]
  | onEllipse p center focus1 radmin =>
      p.addresses ++ center.addresses ++ focus1.addresses ++ [radmin]
  | symmetric p q l => p.addresses ++ q.addresses ++ l.addresses
  | centered p q mid => p.addresses ++ q.addresses ++ mid.addresses
  | curveAngle c d p angle => c.addresses ++ d.addresses ++ p.addresses ++ [angle]
  | perpendicularArcs c p d q => c.addresses ++ p.addresses ++ d.addresses ++ q.addresses

theorem valueReads_subset (k : Kind) (e : Equation α) : k.valueReads e ⊆ e.addresses := by
  unfold Kind.valueReads
  split <;> simp [addresses]

section

variable {x y : Address → α}

theorem pointAt_congr {p : Vec2 Address} (h : ∀ a ∈ p.addresses, x a = y a) :
    pointAt x p = pointAt y p := by
  rw [pointAt, pointAt, h p.x (by simp [Vec2.addresses]), h p.y (by simp [Vec2.addresses])]

theorem ends_congr {l : Segment (Vec2 Address)} (h : ∀ a ∈ l.addresses, x a = y a) :
    ends x l = ends y l := by
  rw [Segment.addresses, List.forall_mem_append] at h
  rw [ends, ends, pointAt_congr h.1, pointAt_congr h.2]

variable [Scalar α]

theorem along_congr {l : Segment (Vec2 Address)} (h : ∀ a ∈ l.addresses, x a = y a) :
    along x l = along y l := by
  rw [Segment.addresses, List.forall_mem_append] at h
  rw [along, along, pointAt_congr h.1, pointAt_congr h.2]

theorem tangentAt_congr {t : Tangent} (h : ∀ a ∈ t.addresses, x a = y a) (p : Vec2 α) :
    tangentAt x p t = tangentAt y p t := by
  cases t with
  | line l => exact along_congr h
  | circular c => rw [tangentAt, tangentAt, pointAt_congr h]

/-- Nothing but the scalars at its addresses enters an equation. -/
theorem residuals_congr {e : Equation α} (h : ∀ a ∈ e.addresses, x a = y a) :
    e.residuals x = e.residuals y := by
  cases e <;> simp only [addresses, List.forall_mem_append, List.forall_mem_cons] at h
  all_goals
    simp only [residuals]
    grind [pointAt_congr, ends_congr, along_congr, tangentAt_congr, Vec2.addresses,
      ArcEnds.addresses]

end

end Equation

end PlanarSketch

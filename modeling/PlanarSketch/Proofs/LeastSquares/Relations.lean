import Mathlib.Geometry.Euclidean.Sphere.Tangent
import PlanarSketch.LeastSquares.Argument
import PlanarSketch.Proofs.Plane

/-!
What the equations between points and lines say. Their residuals are made of products with unit
directions and of signed distances; over the reals they vanish just where the points and lines are
in the relation that the equation is named for, whatever the coordinates are. All that is asked is
that the lines whose direction is taken are not degenerate.
-/

namespace PlanarSketch

open EuclideanGeometry

open scoped RealInnerProductSpace

namespace Equation

/-- Nothing is left of either side. -/
def Holds (x : Address → ℝ) (e : Equation ℝ) : Prop := ∀ r ∈ e.residuals x, r = 0

variable (x : Address → ℝ)

/-- Where a point is. -/
noncomputable def place (p : Vec2 Address) : EuclideanPlane := (pointAt x p).inPlane

noncomputable def heading (l : Segment (Vec2 Address)) : EuclideanPlane :=
  place x l.p2 - place x l.p1

/-- The line that a segment is on. -/
noncomputable def carrier (l : Segment (Vec2 Address)) : AffineSubspace ℝ EuclideanPlane :=
  line[ℝ, place x l.p1, place x l.p2]

/-- The ends of the segment are far enough apart to tell its direction. -/
def Long (l : Segment (Vec2 Address)) : Prop :=
  lengthTolerance ≤ dist (place x l.p1) (place x l.p2)

noncomputable instance (l : Segment (Vec2 Address)) : Nonempty (carrier x l) :=
  ⟨⟨place x l.p1, left_mem_affineSpan_pair ℝ _ _⟩⟩

variable {x} {l m : Segment (Vec2 Address)}

theorem heading_eq : heading x l = (along x l).inPlane := (inPlane_sub _ _).symm

theorem Long.le_norm (h : Long x l) : lengthTolerance ≤ ‖(along x l).inPlane‖ := by
  rwa [← heading_eq, heading, ← dist_eq_norm, dist_comm]

variable {p q : Vec2 Address} {d : Address}

/-! ### One relation after the other -/

theorem holds_onLine (h : Long x l) : Holds x (.onLine p l) ↔ place x p ∈ carrier x l := by
  simp only [Holds, residuals, List.mem_singleton, forall_eq]
  exact lineDistance_eq_zero _ h.le_norm

theorem holds_midpointOnLine (h : Long x m) : Holds x (.midpointOnLine l m) ↔
    midpoint ℝ (place x l.p1) (place x l.p2) ∈ carrier x m := by
  simp only [Holds, residuals, List.mem_singleton, forall_eq]
  rw [place, place, ← inPlane_midpoint]
  exact lineDistance_eq_zero _ h.le_norm

theorem holds_lineDistance (h : Long x l) : Holds x (.lineDistance p l d) ↔
    Metric.infDist (place x p) (carrier x l) = x d := by
  simp only [Holds, residuals, List.mem_singleton, forall_eq]
  rw [sub_eq_zero]
  exact Eq.congr_left (abs_lineDistance _ h.le_norm)

theorem holds_parallel (hl : Long x l) (hm : Long x m) :
    Holds x (.parallel l m) ↔ ¬ LinearIndependent ℝ ![heading x l, heading x m] := by
  simp only [Holds, residuals, List.mem_singleton, forall_eq]
  rw [cross_unit_eq_zero hl.le_norm hm.le_norm, cross_eq_zero, heading_eq, heading_eq]

theorem holds_perpendicular (hl : Long x l) (hm : Long x m) :
    Holds x (.perpendicular l m) ↔ ⟪heading x l, heading x m⟫ = 0 := by
  simp only [Holds, residuals, List.mem_singleton, forall_eq]
  rw [dot_unit_eq_zero hm.le_norm, real_inner_comm, inner_inPlane, dot_unit_eq_zero hl.le_norm,
    real_inner_comm, heading_eq, heading_eq]

theorem holds_onBisector (h : Long x l) : Holds x (.onBisector p l) ↔
    dist (place x p) (place x l.p1) = dist (place x p) (place x l.p2) := by
  simp only [Holds, residuals, List.mem_singleton, forall_eq]
  rw [← AffineSubspace.mem_perpBisector_iff_dist_eq,
    AffineSubspace.mem_perpBisector_iff_inner_eq_zero]
  refine (dot_unit_eq_zero h.le_norm).trans ?_
  rw [inPlane_sub, inPlane_midpoint, ← heading_eq]
  rfl

theorem holds_symmetric (h : Long x l) : Holds x (.symmetric p q l) ↔
    reflection (carrier x l) (place x p) = place x q := by
  simp only [Holds, residuals, List.forall_mem_cons, List.not_mem_nil, false_implies,
    implies_true, and_true]
  refine (and_congr (lineDistance_eq_zero _ h.le_norm) (dot_unit_eq_zero h.le_norm)).trans ?_
  rw [inPlane_midpoint, inPlane_sub]
  exact (reflection_line_eq_iff ..).symm

/-- A line and the circle of a record are tangent when the line is as far from the center as the
circle is wide. -/
theorem holds_tangentLc {c : Record} {center : Vec2 Address} {r : Address}
    (hc : circle? c = some (center, r)) (h : Long x l) :
    ∃ e, ofOperands? .tangentLc [.record (.line l.p1 l.p2), .record c] = some e ∧
      (Holds x e ↔ Metric.infDist (place x center) (carrier x l) = x r) := by
  refine ⟨.lineDistance center l r, ?_, holds_lineDistance h⟩
  change (circle? c).map _ = _
  rw [hc]
  rfl

/-- Such a line touches the circle. -/
theorem holds_lineDistance_iff_isTangent (h : Long x l) : Holds x (.lineDistance p l d) ↔
    (⟨place x p, x d⟩ : Sphere EuclideanPlane).IsTangent (carrier x l) := by
  rw [holds_lineDistance h]
  exact Sphere.infDist_eq_radius_iff_isTangent (s := ⟨place x p, x d⟩)

variable (x) in
/-- The equations between points and lines hold just in the relations that they are named for,
wherever the lines that are involved are not degenerate. -/
theorem holds_iff_related :
    (∀ p l, Long x l → (Holds x (.onLine p l) ↔ place x p ∈ carrier x l)) ∧
    (∀ l m, Long x l → Long x m →
      (Holds x (.parallel l m) ↔ ¬ LinearIndependent ℝ ![heading x l, heading x m])) ∧
    (∀ l m, Long x l → Long x m →
      (Holds x (.perpendicular l m) ↔ ⟪heading x l, heading x m⟫ = 0)) ∧
    (∀ p l, Long x l → (Holds x (.onBisector p l) ↔
      dist (place x p) (place x l.p1) = dist (place x p) (place x l.p2))) ∧
    (∀ l m, Long x m → (Holds x (.midpointOnLine l m) ↔
      midpoint ℝ (place x l.p1) (place x l.p2) ∈ carrier x m)) ∧
    (∀ p q l, Long x l → (Holds x (.symmetric p q l) ↔
      reflection (carrier x l) (place x p) = place x q)) ∧
    (∀ p l d, Long x l → (Holds x (.lineDistance p l d) ↔
      Metric.infDist (place x p) (carrier x l) = x d)) ∧
    ∀ l c center r, circle? c = some (center, r) → Long x l →
      ∃ e, ofOperands? .tangentLc [.record (.line l.p1 l.p2), .record c] = some e ∧
        (Holds x e ↔ Metric.infDist (place x center) (carrier x l) = x r) :=
  ⟨fun _ _ => holds_onLine, fun _ _ => holds_parallel, fun _ _ => holds_perpendicular,
    fun _ _ => holds_onBisector, fun _ _ => holds_midpointOnLine, fun _ _ _ => holds_symmetric,
    fun _ _ _ => holds_lineDistance, fun _ _ _ _ => holds_tangentLc⟩

/-- A kite over the line from the origin to `(3, 4)`: the corners `(25, 0)` and `(-7, 24)` are
mirror images, twenty away from the line, and `(9, 12)` is half way between them. -/
noncomputable def kite : Address → ℝ
  | 2 => 3
  | 3 => 4
  | 4 => 25
  | 6 => -7
  | 7 => 24
  | 8 => 9
  | 9 => 12
  | 10 => 20
  | _ => 0

theorem length_of_sq {a b n : ℝ} (hn : 0 ≤ n) (h : a * a + b * b = n * n) :
    (⟨a, b⟩ : Vec2 ℝ).length = n := by
  rw [← Real.sqrt_mul_self hn, ← h]
  rfl

theorem long_kite {n : ℝ} (hn : 1 ≤ n) (h : (along kite l).length = n) : Long kite l := by
  have hsmall : (lengthTolerance : ℝ) ≤ 1 := by
    rw [lengthTolerance, ExactScalar.decimal_fraction]
    norm_num
  rw [Long, dist_comm, dist_eq_norm]
  change _ ≤ ‖heading kite l‖
  rw [heading_eq, norm_inPlane, h]
  exact hsmall.trans hn

theorem kite_related :
    let axis : Segment (Vec2 Address) := ⟨⟨0, 1⟩, ⟨2, 3⟩⟩
    let across : Segment (Vec2 Address) := ⟨⟨4, 5⟩, ⟨6, 7⟩⟩
    let half : Segment (Vec2 Address) := ⟨⟨0, 1⟩, ⟨8, 9⟩⟩
    (Long kite axis ∧ Long kite across ∧ Long kite half) ∧
    place kite ⟨8, 9⟩ ∈ carrier kite axis ∧
    ¬ LinearIndependent ℝ ![heading kite axis, heading kite half] ∧
    ⟪heading kite axis, heading kite across⟫ = 0 ∧
    dist (place kite ⟨0, 1⟩) (place kite ⟨4, 5⟩) = dist (place kite ⟨0, 1⟩) (place kite ⟨6, 7⟩) ∧
    midpoint ℝ (place kite ⟨4, 5⟩) (place kite ⟨6, 7⟩) ∈ carrier kite axis ∧
    reflection (carrier kite axis) (place kite ⟨4, 5⟩) = place kite ⟨6, 7⟩ ∧
    Metric.infDist (place kite ⟨4, 5⟩) (carrier kite axis) = kite 10 ∧
    ∃ e, ofOperands? .tangentLc [.record (.line axis.p1 axis.p2), .record (.circle ⟨4, 5⟩ 10)] =
        some e ∧ Holds kite e := by
  intro axis across half
  have h5 : (⟨3, 4⟩ : Vec2 ℝ).length = 5 := length_of_sq (by norm_num) (by norm_num)
  have h15 : (⟨9, 12⟩ : Vec2 ℝ).length = 15 := length_of_sq (by norm_num) (by norm_num)
  have h40 : (⟨-32, 24⟩ : Vec2 ℝ).length = 40 := length_of_sq (by norm_num) (by norm_num)
  have haxis : Long kite axis := by
    refine long_kite (n := 5) (by norm_num) ?_
    norm_num [along, axis, pointAt, kite, Vec2.sub, h5]
  have hacross : Long kite across := by
    refine long_kite (n := 40) (by norm_num) ?_
    norm_num [along, across, pointAt, kite, Vec2.sub, h40]
  have hhalf : Long kite half := by
    refine long_kite (n := 15) (by norm_num) ?_
    norm_num [along, half, pointAt, kite, Vec2.sub, h15]
  obtain ⟨honLine, hparallel, hperpendicular, honBisector, hmidpoint, hsymmetric, hdistance,
    htangent⟩ := holds_iff_related kite
  obtain ⟨e, he, htouches⟩ := htangent axis (.circle ⟨4, 5⟩ 10) ⟨4, 5⟩ 10 rfl haxis
  refine ⟨⟨haxis, hacross, hhalf⟩, (honLine _ _ haxis).1 ?_, (hparallel _ _ haxis hhalf).1 ?_,
    (hperpendicular _ _ haxis hacross).1 ?_, (honBisector ⟨0, 1⟩ _ hacross).1 ?_,
    (hmidpoint across axis haxis).1 ?_, (hsymmetric _ _ _ haxis).1 ?_,
    (hdistance _ _ _ haxis).1 ?_, e, he, htouches.2 ((hdistance _ _ _ haxis).1 ?_)⟩
  all_goals
    norm_num [Holds, residuals, onSegment, ends, pointAt, along, axis, across, half, kite,
      Vec2.lineDistance, Vec2.midpoint, Vec2.sub, Vec2.cross, Vec2.dot, Vec2.unit, h5, h15, h40,
      lengthTolerance, EuclideanScalar.abs_eq]

end Equation

end PlanarSketch

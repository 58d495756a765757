import PlanarSketch.Proofs.LeastSquares.Operands
import PlanarSketch.Proofs.Sketch.Formula

/-!
Equations mean what the formulas of their kinds say. An assignment of the scalars turns addresses
into numbers and records into figures; the residuals of the equation between some operands are
then the formula of the kind between the figures.
-/

namespace PlanarSketch

variable {α : Type}

namespace Shape

variable {π ρ β : Type}

def map (f : π → ρ) (g : α → β) : Shape π α → Shape ρ β
  | point x y fixed => point (g x) (g y) fixed
  | line p q => line (f p) (f q)
  | circle c r => circle (f c) (g r)
  | arc c s e a b r => arc (f c) (f s) (f e) (g a) (g b) (g r)
  | ellipse c h r => ellipse (f c) (f h) (g r)
  | arcOfEllipse c h s e a b r => arcOfEllipse (f c) (f h) (f s) (f e) (g a) (g b) (g r)
  | hyperbola c h r => hyperbola (f c) (f h) (g r)
  | arcOfHyperbola c h s e a b r => arcOfHyperbola (f c) (f h) (f s) (f e) (g a) (g b) (g r)
  | parabola w h => parabola (f w) (f h)
  | arcOfParabola w h s e a b => arcOfParabola (f w) (f h) (f s) (f e) (g a) (g b)

/-- The figure of a record under an assignment of the scalars. -/
def figureAt (x : Address → α) (r : Record) : Figure α := r.map (Equation.pointAt x) x

theorem circle?_figureAt (x : Address → α) (r : Record) :
    Reading.circle? (r.figureAt x) =
      (Equation.circle? r).map fun c => (Equation.pointAt x c.1, x c.2) := by
  cases r <;> rfl

theorem ellipse?_figureAt (x : Address → α) (r : Record) :
    Reading.ellipse? (r.figureAt x) = (Equation.ellipse? r).map fun e =>
      (Equation.pointAt x e.1, Equation.pointAt x e.2.1, x e.2.2) := by
  cases r <;> rfl

theorem direction?_figureAt [Scalar α] (x : Address → α) (p : Vec2 α) (r : Record) :
    Reading.direction? p (r.figureAt x) =
      (Equation.tangent? r).map (Equation.tangentAt x p) := by
  cases r <;> rfl

end Shape

namespace Operand

/-- What an operand reads as under an assignment of the scalars. -/
inductive Reads (x : Address → α) : Operand α → Reading α → Prop where
  | address (a : Address) : Reads x (.address a) (.value (x a))
  | record (r : Record) : Reads x (.record r) (.figure (r.figureAt x))
  | number (v : α) : Reads x (.number v) (.number v)
  | flag (b : Bool) : Reads x (.flag b) (.flag b)

variable {x : Address → α}

section

variable {os : List (Operand α)} {rs : List (Reading α)}

theorem reads_address {a : Address} : List.Forall₂ (Reads x) (.address a :: os) rs ↔
    ∃ rs', List.Forall₂ (Reads x) os rs' ∧ rs = .value (x a) :: rs' := by
  constructor
  · rintro (_ | ⟨⟨⟩, h⟩)
    exact ⟨_, h, rfl⟩
  · rintro ⟨rs', h, rfl⟩
    exact .cons (.address a) h

theorem reads_record {r : Record} : List.Forall₂ (Reads x) (.record r :: os) rs ↔
    ∃ rs', List.Forall₂ (Reads x) os rs' ∧ rs = .figure (r.figureAt x) :: rs' := by
  constructor
  · rintro (_ | ⟨⟨⟩, h⟩)
    exact ⟨_, h, rfl⟩
  · rintro ⟨rs', h, rfl⟩
    exact .cons (.record r) h

theorem reads_number {v : α} : List.Forall₂ (Reads x) (.number v :: os) rs ↔
    ∃ rs', List.Forall₂ (Reads x) os rs' ∧ rs = .number v :: rs' := by
  constructor
  · rintro (_ | ⟨⟨⟩, h⟩)
    exact ⟨_, h, rfl⟩
  · rintro ⟨rs', h, rfl⟩
    exact .cons (.number v) h

theorem reads_flag {b : Bool} : List.Forall₂ (Reads x) (.flag b :: os) rs ↔
    ∃ rs', List.Forall₂ (Reads x) os rs' ∧ rs = .flag b :: rs' := by
  constructor
  · rintro (_ | ⟨⟨⟩, h⟩)
    exact ⟨_, h, rfl⟩
  · rintro ⟨rs', h, rfl⟩
    exact .cons (.flag b) h

end

end Operand

open Operand in
theorem Equation.formula_eq_residuals [Scalar α] {x : Address → α} {k : Kind}
    {os : List (Operand α)} {rs : List (Reading α)} {eq : Equation α}
    (hs : List.Forall₂ (fun p o => Operand.Suits k p.slot o) k.userParams os)
    (hr : List.Forall₂ (Reads x) os rs) (heq : ofOperands? k os = some eq) :
    k.formula rs = some (eq.residuals x) := by
  revert os
  cases k <;>
    simp only [Kind.userParams, ParamSpec.value, ParamSpec.point, ParamSpec.line, ParamSpec.circle,
      ParamSpec.arc, ParamSpec.ellipse, ParamSpec.curve, ParamSpec.raw, List.forall₂_cons_left_iff,
      List.forall₂_nil_left_iff, suits_value, suits_point, suits_line, suits_arc, suits_circle,
      suits_ellipse, suits_curve, suits_flag, suits_number, forall_exists_index, and_imp]
  -- suitability has fixed the constructors of the operands, and these those of the readings
  all_goals
    intros
    subst_vars
    rename_i hr heq
    simp only [reads_address, reads_record, reads_number, reads_flag, List.forall₂_nil_left_iff,
      exists_eq_left] at hr
    subst hr
  -- a circle may be given by an arc, so its record is not known to be one of the two
  case tangentLc c _ hc | pointOnCircle c _ hc | circleRadius c _ hc _ | circleDiameter c _ hc _ =>
    cases (congrArg (Option.map _) hc).symm.trans heq
    change (Reading.circle? (c.figureAt x)).map _ = _
    rw [Shape.circle?_figureAt, hc]
    rfl
  case pointOnEllipse c _ hc =>
    cases (congrArg (Option.map _) hc).symm.trans heq
    change (Reading.ellipse? (c.figureAt x)).map _ = _
    rw [Shape.ellipse?_figureAt, hc]
    rfl
  case equalRadiusCc c p hc d q hd =>
    change (do return Equation.equal (← circle? c).2 (← circle? d).2) = some eq at heq
    rw [hc, hd] at heq
    cases heq
    change (do return [(← Reading.circle? (c.figureAt x)).2 -
        (← Reading.circle? (d.figureAt x)).2] :
      Option (List α)) = _
    rw [Shape.circle?_figureAt, Shape.circle?_figureAt, hc, hd]
    rfl
  case angleViaPoint c p hc d q hd a b _ v =>
    change (do return Equation.curveAngle (← tangent? c) (← tangent? d) ⟨a, b⟩ v) = some eq at heq
    rw [hc, hd] at heq
    cases heq
    change (do return [Angle.wrap ((← Reading.direction? _ (c.figureAt _)).angleTo
      (← Reading.direction? _ (d.figureAt _)) - _)] : Option (List α)) = _
    rw [Shape.direction?_figureAt, Shape.direction?_figureAt, hc, hd]
    rfl
  -- the flags choose the ends at which the arcs meet
  case perpendicularArc2arc reverse1 _ _ _ _ _ _ reverse2 =>
    cases heq
    cases reverse1 <;> cases reverse2 <;> rfl
  all_goals
    cases heq
    rfl

end PlanarSketch

import PlanarSketch.LeastSquares.Equation
import PlanarSketch.Table

/-!
From calls to equations. The arguments of a call are checked one by one against the schema of
its kind, each becoming an operand; the operands then determine the equation. The first argument
that does not fit decides the error.
-/

namespace PlanarSketch

/-- An argument that fits its place. -/
inductive Operand (α : Type) where
  | address (a : Address)
  | record (r : Record)
  | number (x : α)
  | flag (b : Bool)
  /-- What belongs to the constraint as a whole. -/
  | tag (t : Int) | driving (b : Bool) | alignment (a : Alignment) | scale (x : α)
  deriving DecidableEq, Repr

/-- A constraint as a solver holds it. -/
structure Entry (α : Type) where
  tag : Int
  driving : Bool
  scale : α
  equation : Equation α
  /-- Addresses of the scalars that were allocated for this constraint alone. -/
  datums : List Address

/-- What the arguments of a call are checked against. -/
structure Scope where
  records : Table Handle Record
  size : Nat

namespace Scope

def checkAddress (s : Scope) (a : Address) : Except SolverError Address :=
  if a < s.size then .ok a else .error (.addressOutOfRange a)

/-- Curves have a known direction only if they are straight or circular. -/
def supported (c : GeometryClass) (r : Record) : Bool :=
  c.accepts r.geometryClass &&
    (c ≠ .curve || r.geometryClass = .line || GeometryClass.accepts .circle r.geometryClass)

def checkHandle (s : Scope) (k : Kind) (c : GeometryClass) (h : Handle) :
    Except SolverError Record :=
  match s.records.find? h with
  | none => .error (.unknownHandle h)
  | some r =>
      if supported c r then .ok r else .error (.unsupportedGeometry k r.geometryClass)

variable {α : Type} [Scalar α]

/-- Checks the argument at one place of the schema. -/
def operand (s : Scope) (k : Kind) (slot : Slot) (index : Nat) (arg : Arg α) :
    Except SolverError (Operand α) :=
  match slot, arg with
  | .value, .param a => (s.checkAddress a).map .address
  | .value, .datum a => (s.checkAddress a).map .address
  | .value, _ => .error (.argumentType k index .address)
  | .geometry c, .geometry h => (s.checkHandle k c h).map .record
  | .geometry _, _ => .error (.argumentType k index .handle)
  | .raw, arg =>
      if k = .perpendicularArc2arc then
        match arg with
        | .bool b => .ok (.flag b)
        | .number x => .ok (.flag (!(x == 0.0)))
        | _ => .error (.argumentType k index .boolean)
      else
        match arg with
        | .number x => .ok (.number x)
        | _ => .error (.argumentType k index .number)
  | .tag, .tag t => .ok (.tag t)
  | .tag, _ => .error (.argumentType k index .tag)
  | .driving, .bool b => .ok (.driving b)
  | .driving, _ => .error (.argumentType k index .drivingFlag)
  | .alignment, .alignment a => .ok (.alignment a)
  | .alignment, _ => .error (.argumentType k index .alignment)

/-- Checks arguments from a place of the schema on; behind the schema only a scale may stand. -/
def operands (s : Scope) (k : Kind) : List ParamSpec → Nat → List (Arg α) →
    Except SolverError (List (Operand α))
  | p :: ps, i, a :: as => do
      let o ← s.operand k p.slot i a
      let os ← s.operands k ps (i + 1) as
      return o :: os
  | [], i, a :: _ =>
      match a with
      | .scale x => .ok [.scale x]
      | _ => .error (.argumentType k i .scale)
  | _, _, [] => .ok []

end Scope

def Arg.datum? {α : Type} : Arg α → Option Address
  | datum a => some a
  | _ => none

namespace Operand

variable {α : Type}

/-- Whether the operand enters the equation. -/
def isOwn : Operand α → Bool
  | address _ | record _ | number _ | flag _ => true
  | tag _ | driving _ | alignment _ | scale _ => false

def tag? : Operand α → Option Int
  | tag t => some t
  | _ => none

def driving? : Operand α → Option Bool
  | driving b => some b
  | _ => none

def scale? : Operand α → Option α
  | scale x => some x
  | _ => none

end Operand

namespace Equation

variable {α : Type} [Scalar α]

def circle? : Record → Option (Vec2 Address × Address)
  | .circle c r => some (c, r)
  | .arc c _ _ _ _ r => some (c, r)
  | _ => none

def ellipse? : Record → Option (Vec2 Address × Vec2 Address × Address)
  | .ellipse c f r => some (c, f, r)
  | .arcOfEllipse c f _ _ _ _ r => some (c, f, r)
  | _ => none

def tangent? : Record → Option Tangent
  | .line p q => some (.line ⟨p, q⟩)
  | r => (circle? r).map fun c => .circular c.1

/-- The equation of a kind between operands that fit its schema. -/
def ofOperands? : Kind → List (Operand α) → Option (Equation α)
  | .equal, [.address a, .address b] => some (.equal a b)
  | .difference, [.address a, .address b, .address d] => some (.difference a b d)
  | .proportional, [.address a, .address b, .address r] => some (.proportional a b r)
  | .coordinateX, [.record (.point x _ _), .address v] => some (.equal x v)
  | .coordinateY, [.record (.point _ y _), .address v] => some (.equal y v)
  | .p2pCoincident, [.record (.point a b _), .record (.point c d _)] =>
      some (.coincident ⟨a, b⟩ ⟨c, d⟩)
  | .p2pDistance, [.record (.point a b _), .record (.point c d _), .address v] =>
      some (.distance ⟨a, b⟩ ⟨c, d⟩ v)
  | .p2pAngle, [.record (.point a b _), .record (.point c d _), .address v] =>
      some (.direction ⟨a, b⟩ ⟨c, d⟩ v 0.0)
  | .p2pAngleIncrAngle,
      [.record (.point a b _), .record (.point c d _), .address v, .number more] =>
      some (.direction ⟨a, b⟩ ⟨c, d⟩ v more)
  | .p2lDistance, [.record (.point a b _), .record (.line p q), .address v] =>
      some (.lineDistance ⟨a, b⟩ ⟨p, q⟩ v)
  | .pointOnLinePl, [.record (.point a b _), .record (.line p q)] =>
      some (.onLine ⟨a, b⟩ ⟨p, q⟩)
  | .pointOnLinePpp,
      [.record (.point a b _), .record (.point c d _), .record (.point e f _)] =>
      some (.onLine ⟨a, b⟩ ⟨⟨c, d⟩, ⟨e, f⟩⟩)
  | .pointOnPerpBisectorPl, [.record (.point a b _), .record (.line p q)] =>
      some (.onBisector ⟨a, b⟩ ⟨p, q⟩)
  | .parallel, [.record (.line p q), .record (.line r s)] =>
      some (.parallel ⟨p, q⟩ ⟨r, s⟩)
  | .perpendicularLl, [.record (.line p q), .record (.line r s)] =>
      some (.perpendicular ⟨p, q⟩ ⟨r, s⟩)
  | .l2lAngleLl, [.record (.line p q), .record (.line r s), .address v] =>
      some (.lineAngle ⟨p, q⟩ ⟨r, s⟩ v)
  | .midpointOnLineLl, [.record (.line p q), .record (.line r s)] =>
      some (.midpointOnLine ⟨p, q⟩ ⟨r, s⟩)
  | .horizontalL, [.record (.line p q)] => some (.equal q.y p.y)
  | .horizontalPp, [.record (.point _ b _), .record (.point _ d _)] => some (.equal d b)
  | .verticalL, [.record (.line p q)] => some (.equal q.x p.x)
  | .verticalPp, [.record (.point a _ _), .record (.point c _ _)] => some (.equal c a)
  | .tangentLc, [.record (.line p q), .record c] =>
      (circle? c).map fun (center, r) => .lineDistance center ⟨p, q⟩ r
  | .arcRules, [.record (.arc c s e a b r)] => some (.arcRules c ⟨s, e, a, b⟩ r)
  | .pointOnCircle, [.record (.point a b _), .record c] =>
      (circle? c).map fun (center, r) => .distance ⟨a, b⟩ center r
  | .pointOnArc, [.record (.point a b _), .record c] =>
      (circle? c).map fun (center, r) => .distance ⟨a, b⟩ center r
  | .pointOnEllipse, [.record (.point a b _), .record e] =>
      (ellipse? e).map fun (c, f, r) => .onEllipse ⟨a, b⟩ c f r
  | .circleRadius, [.record c, .address v] => (circle? c).map fun (_, r) => .equal r v
  | .arcRadius, [.record c, .address v] => (circle? c).map fun (_, r) => .equal r v
  | .circleDiameter, [.record c, .address v] => (circle? c).map fun (_, r) => .twice r v
  | .arcDiameter, [.record c, .address v] => (circle? c).map fun (_, r) => .twice r v
  | .equalLength, [.record (.line p q), .record (.line r s)] =>
      some (.equalLength ⟨p, q⟩ ⟨r, s⟩)
  | .equalRadiusCc, [.record c, .record d] => do
      return .equal (← circle? c).2 (← circle? d).2
  | .p2pSymmetricPpl,
      [.record (.point a b _), .record (.point c d _), .record (.line p q)] =>
      some (.symmetric ⟨a, b⟩ ⟨c, d⟩ ⟨p, q⟩)
  | .p2pSymmetricPpp,
      [.record (.point a b _), .record (.point c d _), .record (.point e f _)] =>
      some (.centered ⟨a, b⟩ ⟨c, d⟩ ⟨e, f⟩)
  | .angleViaPoint, [.record c, .record d, .record (.point a b _), .address v] => do
      return .curveAngle (← tangent? c) (← tangent? d) ⟨a, b⟩ v
  | .perpendicularArc2arc,
      [.record (.arc c s e _ _ _), .flag reverse1, .record (.arc d t f _ _ _), .flag reverse2] =>
      some (.perpendicularArcs c (if reverse1 then s else e) d (if reverse2 then f else t))
  | _, _ => none

end Equation

namespace Entry

variable {α : Type} [Scalar α]

/-- The entry that operands describe. -/
def ofOperands? (c : Call α) (os : List (Operand α)) : Option (Entry α) := do
  return {
    tag := ← os.findSome? Operand.tag?
    driving := ← os.findSome? Operand.driving?
    scale := (os.findSome? Operand.scale?).getD 1.0
    equation := ← Equation.ofOperands? c.kind (os.filter Operand.isOwn)
    datums := c.args.filterMap Arg.datum? }

/-- Checks a call and builds its entry. -/
def ofCall (s : Scope) (c : Call α) : Except SolverError (Entry α) :=
  if c.args.length ≠ c.kind.arity true ∧ c.args.length ≠ c.kind.arity false then
    .error (.arityMismatch c.kind c.args.length)
  else do
    let os ← s.operands c.kind c.kind.schema 0 c.args
    match ofOperands? c os with
    | some e => .ok e
    | none => .error (.arityMismatch c.kind c.args.length)

end Entry

end PlanarSketch

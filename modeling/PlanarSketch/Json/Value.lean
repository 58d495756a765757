import PlanarSketch.Scalar

/-!
JSON values. A number is an integer when it is written without point and exponent and fits into
a machine word, and a scalar otherwise. An object keeps its members in the order they came in,
repeated names included.
-/

namespace PlanarSketch

inductive Json (α : Type) where
  | null
  | bool (b : Bool)
  | int (n : Int)
  | real (x : α)
  | str (s : String)
  | arr (xs : List (Json α))
  | obj (members : List (String × Json α))
  deriving Repr, Inhabited

namespace Json

variable {α : Type}

def get? (members : List (String × Json α)) (name : String) : Option (Json α) :=
  (members.find? fun e => e.1 = name).map Prod.snd

/-- A finite number as it is; JSON has no other numbers, so the rest become null. -/
def ofScalar [Scalar α] (x : α) : Json α := if Scalar.isFinite x then real x else null

def ofNat (n : Nat) : Json α := int n

end Json

end PlanarSketch

import PlanarSketch.Scalar

/-!
Vectors as lists of their coordinates. Sums are taken from the left, starting at zero.
-/

namespace PlanarSketch

abbrev Vec (α : Type) := List α

namespace Vec

variable {α : Type} [Scalar α]

def sum (u : Vec α) : α := u.foldl (· + ·) 0.0

def add (u v : Vec α) : Vec α := List.zipWith (· + ·) u v

def sub (u v : Vec α) : Vec α := List.zipWith (· - ·) u v

def scale (c : α) (u : Vec α) : Vec α := u.map (· * c)

def neg (u : Vec α) : Vec α := u.map (- ·)

def dot (u v : Vec α) : α := sum (List.zipWith (· * ·) u v)

def normSq (u : Vec α) : α := dot u u

def norm (u : Vec α) : α := Scalar.sqrt (normSq u)

def zero (n : Nat) : Vec α := List.replicate n 0.0

/-- The unit vector along an axis of an `n`-dimensional space. -/
def axis (n i : Nat) : Vec α := (List.range n).map fun j => if j = i then 1.0 else 0.0

/-- The later of two numbers unless the earlier one is at least as large. -/
def upper (a b : α) : α := if b ≤ a then a else b

/-- The largest coordinate, zero when there is none. -/
def greatest : Vec α → α
  | [] => 0.0
  | a :: u => u.foldl upper a

/-- The largest magnitude of a coordinate. -/
def greatestAbs (u : Vec α) : α := greatest (u.map Scalar.abs)

end Vec

end PlanarSketch

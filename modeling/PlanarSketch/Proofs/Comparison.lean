import PlanarSketch.Binary64

/-!
The one law of order that a solver relies on: a number that is at most another does not exceed it.
Doubles obey it because a comparison from the other side has the opposite outcome; a value that is
not a number compares with nothing.
-/

namespace PlanarSketch

/-- Scalars whose comparisons do not contradict each other. -/
class Scalar.Consistent (α : Type) [Scalar α] : Prop where
  not_lt_of_le : ∀ {a b : α}, a ≤ b → ¬ b < a

namespace Binary64

open Float.Model

theorem Sign.compare_swap (r s : UnpackedFloat.Sign) : compare s r = (compare r s).swap := by
  cases r <;> cases s <;> rfl

/-- Finite numbers of one sign compare by exponent and then by digits. -/
theorem compare_magnitude_swap (m n : Nat) (d e : Int) :
    (compare e d).then (compare n m) = ((compare d e).then (compare m n)).swap := by
  rw [Ordering.swap_then, ← Int.compare_swap e d, ← Nat.compare_swap n m, Ordering.swap_swap,
    Ordering.swap_swap]

theorem compare_swap (a b : UnpackedFloat) : b.compare a = (a.compare b).map Ordering.swap := by
  cases a with
  | notANumber => cases b <;> rfl
  | infinity r =>
      cases b with
      | infinity s => exact congrArg some (Sign.compare_swap r s)
      | _ => cases r <;> rfl
  | zero r =>
      cases b with
      | infinity s => cases s <;> rfl
      | finite s n e => cases s <;> rfl
      | _ => rfl
  | finite r m d =>
      cases b with
      | notANumber => rfl
      | infinity s => cases r <;> cases s <;> rfl
      | zero s => cases r <;> rfl
      | finite s n e =>
          have hswap := compare_magnitude_swap m n d e
          cases r <;> cases s
          · exact congrArg (fun o => some o.swap) hswap
          · rfl
          · rfl
          · exact congrArg some hswap

theorem not_lt_of_le {a b : UnpackedFloat} (h : a.le b = true) : b.lt a = false := by
  rw [UnpackedFloat.le] at h
  rw [UnpackedFloat.lt, compare_swap]
  cases hab : a.compare b with
  | none => rfl
  | some o =>
      rw [hab] at h
      cases o with
      | lt => rfl
      | eq => rfl
      | gt => cases h

instance : Scalar.Consistent Float where
  not_lt_of_le := by
    intro a b hle hlt
    have hle' : a.toModel.unpack.le b.toModel.unpack = true := of_decide_eq_true hle
    have hlt' : b.toModel.unpack.lt a.toModel.unpack = true := of_decide_eq_true hlt
    exact Bool.false_ne_true ((not_lt_of_le hle').symm.trans hlt')

end Binary64

end PlanarSketch

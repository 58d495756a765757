import PlanarSketch.Proofs.LeastSquares.Diagnosis

/-!
Which rows of a system are whose. Each equation has as many residuals as it counts rows, so the
ranges of rows that are dealt out beforehand, one behind the other, cut the residuals into those of
each equation. The derivative has the same rows, and a diagnosis takes its groups from there.
-/

namespace PlanarSketch

/-! ### Ranges of rows -/

/-- The entries of a list in a range, given by its first place and their number. -/
def slice {β : Type} (range : Nat × Nat) (bs : List β) : List β := (bs.drop range.1).take range.2

/-- Each range begins where the one before it ends: the first at `start`, and the last ends at
`stop`. -/
def Consecutive : Nat → List (Nat × Nat) → Nat → Prop
  | start, [], stop => stop = start
  | start, r :: rs, stop => r.1 = start ∧ Consecutive (start + r.2) rs stop

/-- Where the last range ends; without a range nothing has begun. -/
def lastEnd (ranges : List (Nat × Nat)) : Nat := (ranges.getLast?.map fun r => r.1 + r.2).getD 0

theorem Consecutive.lastEnd_eq {start stop : Nat} {r : Nat × Nat} {rs : List (Nat × Nat)}
    (h : Consecutive start (r :: rs) stop) : lastEnd (r :: rs) = stop := by
  induction rs generalizing start r with
  | nil =>
      obtain ⟨rfl, rfl⟩ := h
      rfl
  | cons r' rs ih =>
      obtain ⟨-, hrest⟩ := h
      rw [← ih hrest, lastEnd, lastEnd, List.getLast?_cons_cons]

namespace System

variable {α : Type} {es : List (Equation α × α)}

/-! ### The ranges of the equations -/

theorem consecutive_rowRanges (start : Nat) (es : List (Equation α × α)) :
    Consecutive start (rowRanges start es) (start + es.foldr (fun e n => e.1.rows + n) 0) := by
  induction es generalizing start with
  | nil => rfl
  | cons e es ih =>
      rw [List.foldr_cons, ← Nat.add_assoc]
      exact ⟨rfl, ih (start + e.1.rows)⟩

theorem lastEnd_rowRanges (s : System α) : lastEnd (rowRanges 0 s.equations) = s.height := by
  rw [height]
  cases s.equations with
  | nil => rfl
  | cons e es =>
      have hconsecutive := consecutive_rowRanges 0 (e :: es)
      rw [Nat.zero_add] at hconsecutive
      exact hconsecutive.lastEnd_eq

/-- A list that gives each equation as many entries as it has rows is cut by the ranges into these
pieces, wherever the list begins. -/
theorem forall₂_rowRanges {β : Type} {part : Equation α × α → List β}
    (hpart : ∀ e ∈ es, (part e).length = e.1.rows) {bs : List β} {start : Nat}
    (hbs : bs.drop start = es.flatMap part) :
    List.Forall₂ (fun e r => r.2 = e.1.rows ∧ slice r bs = part e) es (rowRanges start es) := by
  induction es generalizing start with
  | nil => exact .nil
  | cons e es ih =>
      obtain ⟨hown, hrest⟩ := List.forall_mem_cons.1 hpart
      rw [List.flatMap_cons] at hbs
      refine .cons ⟨rfl, ?_⟩ (ih hrest ?_)
      · rw [slice, hbs, List.take_left' hown]
      · rw [← List.drop_drop, hbs, List.drop_left' hown]

variable [Scalar α]

/-- The shapes of a system agree. Each equation has as many residuals as rows, the ranges follow one
another from zero, and what stands in a range is what is left of its equation, times the scale of
that equation. Residuals and derivative have as many rows as the ranges. -/
theorem shapes_agree (s : System α) (x : Vec α) :
    let values := s.expand x
    let ranges := rowRanges 0 s.equations
    (∀ (y : Address → α) (e : Equation α), (e.residuals y).length = e.rows) ∧
    Consecutive 0 ranges (lastEnd ranges) ∧
    ((s.residuals x).length = lastEnd ranges ∧ (s.jacobian x).height = lastEnd ranges ∧
      (s.jacobian x).columns.length = x.length ∧
      ∀ column ∈ (s.jacobian x).columns, column.length = lastEnd ranges) ∧
    List.Forall₂ (fun e r => r.2 = e.1.rows ∧
      slice r (s.residuals x) = (e.1.residuals (read values)).map (· * e.2))
      s.equations ranges := by
  intro values ranges
  have hend : lastEnd ranges = s.height := lastEnd_rowRanges s
  have hconsecutive := consecutive_rowRanges 0 s.equations
  rw [Nat.zero_add] at hconsecutive
  refine ⟨Equation.residuals_length, ?_, ⟨?_, hend.symm, ?_, ?_⟩, ?_⟩
  · rw [hend]
    exact hconsecutive
  · rw [hend, s.residuals_length]
  · simp [jacobian]
  · intro column hcolumn
    obtain ⟨⟨xj, j⟩, -, rfl⟩ := List.mem_map.1 hcolumn
    simp [slope, s.residuals_length, hend]
  · have hown : ∀ e ∈ s.equations, (equationResiduals values e).length = e.1.rows :=
      fun e _ => equationResiduals_length values e
    exact forall₂_rowRanges hown List.drop_zero

end System

namespace LeastSquares

variable {α : Type}

theorem rowGroups_eq_slices (es : List (Entry α)) (rows : List (Vec α × α)) (start : Nat) :
    rowGroups es (rows.drop start) = List.zipWith (fun e r => ⟨e.tag, slice r rows⟩) es
      (System.rowRanges start (es.map Entry.scaled)) := by
  induction es generalizing start with
  | nil => rfl
  | cons e es ih =>
      rw [rowGroups, List.drop_drop, ih]
      rfl

variable [Scalar α]

/-- A diagnosis has a group for each driving constraint, of the rows in the range of its
equation. -/
theorem groupsAt_eq_slices (s : LeastSquares α) (x : Vec α) :
    s.groupsAt x = List.zipWith (fun e r => ⟨e.tag, slice r
      ((s.drivingSystem.jacobian x).rows.zip (s.drivingSystem.residuals x))⟩)
      s.drivingEntries (System.rowRanges 0 s.drivingSystem.equations) :=
  rowGroups_eq_slices s.drivingEntries _ 0

end LeastSquares

end PlanarSketch

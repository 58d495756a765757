import PlanarSketch.Linear.Cholesky
import PlanarSketch.Linear.LeastNorm

/-!
Lengths of vectors through linear algebra. Vectors are lists and operations on two of them stop at
the shorter one, so nothing but the lengths keeps a computation in its space: the solution of a
square system is as long as the system is wide, and so is a least-squares solution.
-/

namespace PlanarSketch

variable {α : Type} [Scalar α]

namespace Vec

variable (u v : Vec α)

@[simp] theorem length_add : (add u v).length = min u.length v.length := List.length_zipWith ..

@[simp] theorem length_sub : (sub u v).length = min u.length v.length := List.length_zipWith ..

@[simp] theorem length_scale (c : α) : (scale c u).length = u.length := List.length_map ..

@[simp] theorem length_neg : (neg u).length = u.length := List.length_map ..

@[simp] theorem length_zero (n : Nat) : (zero n : Vec α).length = n := List.length_replicate ..

@[simp] theorem length_axis (n i : Nat) : (axis n i : Vec α).length = n := by
  simp [axis]

end Vec

namespace ColumnMatrix

variable (a : ColumnMatrix α) (v : Vec α)

@[simp] theorem length_row (i : Nat) : (a.row i).length = a.width := List.length_map ..

@[simp] theorem width_unscale (c : α) : (a.unscale c).width = a.width := List.length_map ..

@[simp] theorem length_transposeMulVec : (a.transposeMulVec v).length = a.width :=
  List.length_map ..

end ColumnMatrix

namespace RowMatrix

variable {n : Nat} {rows : RowMatrix α}

theorem square_gram (a : ColumnMatrix α) : Square a.width a.gram := by
  constructor
  · simp [ColumnMatrix.gram, ColumnMatrix.width]
  · intro r hr
    obtain ⟨c, -, rfl⟩ := List.mem_map.1 hr
    simp [ColumnMatrix.width]

theorem Square.addDiagonal (h : Square n rows) (c : α) : Square n (rows.addDiagonal c) := by
  constructor
  · simp [RowMatrix.addDiagonal, h.1]
  · intro r hr
    obtain ⟨⟨r', i⟩, hmem, rfl⟩ := List.mem_map.1 hr
    rw [List.length_modify]
    exact h.2 r' (List.fst_mem_of_mem_zipIdx hmem)

@[simp] theorem length_identity (n : Nat) : (identity n : RowMatrix α).length = n := by
  simp [identity]

@[simp] theorem length_mulVec (v : Vec α) : (rows.mulVec v).length = rows.length :=
  List.length_map ..

@[simp] theorem length_outer (u v : Vec α) : (outer u v).length = u.length := List.length_map ..

@[simp] theorem length_scale (c : α) : (scale c rows).length = rows.length := List.length_map ..

@[simp] theorem length_add (a b : RowMatrix α) : (add a b).length = min a.length b.length :=
  List.length_zipWith ..

@[simp] theorem length_sub (a b : RowMatrix α) : (sub a b).length = min a.length b.length :=
  List.length_zipWith ..

@[simp] theorem length_mul (a b : RowMatrix α) : (mul a b).length = a.length := List.length_map ..

end RowMatrix

namespace Cholesky

/-- One step leaves a square system with a row and a column less. -/
theorem square_rest {n : Nat} {rows : RowMatrix α} {factor : Vec α} (hfactor : factor.length = n)
    (hlen : rows.length = n) (hrows : ∀ r ∈ rows, r.length = n + 1) :
    RowMatrix.Square n (List.zipWith (eliminate factor) factor rows) := by
  constructor
  · simp [hfactor, hlen]
  · intro r hr
    obtain ⟨i, hi, rfl⟩ := List.getElem_of_mem hr
    rw [List.getElem_zipWith, eliminate, Vec.length_sub, Vec.length_scale, List.length_tail,
      hrows _ (List.getElem_mem _), hfactor, Nat.add_sub_cancel, Nat.min_self]

theorem length_solve {n : Nat} {rows : RowMatrix α} {b x : Vec α}
    (hrows : RowMatrix.Square n rows) (hb : b.length = n) (h : solve? n rows b = some x) :
    x.length = n := by
  induction n generalizing rows b x with
  | zero =>
      cases h
      rfl
  | succ n ih =>
      obtain ⟨hlen, hrow⟩ := hrows
      -- a system with rows has a leading entry
      obtain _ | ⟨_ | ⟨a, c⟩, rows⟩ := rows
      · cases hlen
      · cases hrow [] List.mem_cons_self
      · obtain _ | ⟨r, rs⟩ := b
        · cases hb
        · rw [List.length_cons, Nat.add_right_cancel_iff] at hb hlen
          have hc : c.length = n := Nat.succ.inj (hrow _ List.mem_cons_self)
          rw [solve?] at h
          split at h
          · obtain ⟨y, hy, rfl⟩ := Option.map_eq_some_iff.1 h
            have hfactor : (c.map (· / Scalar.sqrt a)).length = n := by
              rw [List.length_map, hc]
            have hrest := square_rest hfactor hlen fun r hr => hrow r (List.mem_cons_of_mem _ hr)
            rw [List.length_cons, ih hrest (by simp [hb, hc]) hy]
          · cases h

end Cholesky

namespace LeastNorm

variable {n : Nat} {part : Tracked α → Vec α}

/-- A rotation keeps the lengths of the columns, and of what they are combinations of. -/
theorem length_rotate (hpart : part = Tracked.column ∨ part = Tracked.weights) {p q : Tracked α}
    (hp : (part p).length = n) (hq : (part q).length = n) :
    (part (rotate p q).1).length = n ∧ (part (rotate p q).2.1).length = n := by
  unfold rotate
  rcases hpart with rfl | rfl
  all_goals
    dsimp only
    split
    · exact ⟨hp, hq⟩
    · simp [turn, hp, hq]

theorem length_rotateAll (hpart : part = Tracked.column ∨ part = Tracked.weights) {p : Tracked α}
    {qs : List (Tracked α)} (hp : (part p).length = n) (hqs : ∀ q ∈ qs, (part q).length = n) :
    (part (rotateAll p qs).1).length = n ∧ ∀ q ∈ (rotateAll p qs).2.1, (part q).length = n := by
  induction qs generalizing p with
  | nil => exact ⟨hp, hqs⟩
  | cons q qs ih =>
      rw [List.forall_mem_cons] at hqs
      obtain ⟨hp', hq'⟩ := length_rotate hpart hp hqs.1
      obtain ⟨hlast, hrest⟩ := ih hp' hqs.2
      exact ⟨hlast, List.forall_mem_cons.2 ⟨hq', hrest⟩⟩

theorem length_sweep (hpart : part = Tracked.column ∨ part = Tracked.weights) (k : Nat)
    {qs : List (Tracked α)} (hqs : ∀ q ∈ qs, (part q).length = n) :
    ∀ q ∈ (sweep k qs).1, (part q).length = n := by
  induction k generalizing qs with
  | zero => exact hqs
  | succ k ih =>
      cases qs with
      | nil => exact hqs
      | cons p qs =>
          rw [List.forall_mem_cons] at hqs
          obtain ⟨hp, hrest⟩ := length_rotateAll hpart hqs.1 hqs.2
          exact List.forall_mem_cons.2 ⟨hp, ih hrest⟩

theorem length_orthogonalize (hpart : part = Tracked.column ∨ part = Tracked.weights) (k : Nat)
    {qs : List (Tracked α)} (hqs : ∀ q ∈ qs, (part q).length = n) :
    ∀ q ∈ orthogonalize k qs, (part q).length = n := by
  induction k generalizing qs with
  | zero => exact hqs
  | succ k ih =>
      have hsweep := length_sweep hpart qs.length hqs
      rw [orthogonalize]
      dsimp only
      split
      · exact ih hsweep
      · exact hsweep

theorem length_combine (bound c : α) {direction : Tracked α → Vec α} (measure : Tracked α → Vec α)
    (b : Vec α) {qs : List (Tracked α)} (hqs : ∀ q ∈ qs, (direction q).length = n) :
    (combine n bound c direction measure b qs).length = n := by
  unfold combine
  have hzero : (Vec.zero n : Vec α).length = n := Vec.length_zero n
  generalize (Vec.zero n : Vec α) = x at hzero
  induction qs generalizing x with
  | nil => exact hzero
  | cons q qs ih =>
      rw [List.forall_mem_cons] at hqs
      rw [List.foldl_cons]
      refine ih hqs.2 _ ?_
      split
      · simp [hzero, hqs.1]
      · exact hzero

/-- A solution has a coordinate for each column of the matrix. -/
theorem length_solve (bound : α) (a : ColumnMatrix α) (b : Vec α) :
    (solve bound a b).length = a.width := by
  rw [← a.width_unscale (unit a)]
  unfold solve
  dsimp only
  split
  · refine length_combine bound _ _ b (length_orthogonalize (.inr rfl) sweepLimit fun q hq => ?_)
    obtain ⟨c, -, rfl⟩ := List.mem_map.1 hq
    exact Vec.length_axis ..
  · refine length_combine bound _ _ b (length_orthogonalize (.inl rfl) sweepLimit fun q hq => ?_)
    obtain ⟨⟨r, i⟩, hmem, rfl⟩ := List.mem_map.1 hq
    obtain ⟨j, -, rfl⟩ := List.mem_map.1 (List.fst_mem_of_mem_zipIdx hmem)
    exact ColumnMatrix.length_row _ j

end LeastNorm

end PlanarSketch

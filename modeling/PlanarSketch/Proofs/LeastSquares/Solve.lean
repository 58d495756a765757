import Mathlib.Data.List.Sort
import PlanarSketch.Proofs.LeastSquares.Addresses
import PlanarSketch.Proofs.LeastSquares.Cells
import PlanarSketch.Proofs.LeastSquares.Minimize

/-!
What a solve depends on. The driving constraints see the scalars through their unknowns and through
the scalars that they read besides; two solvers that agree on these have the same residuals, the
same derivative and the same diagnosis at every point of the search space, and search the same way
from the same start. The fit of the measuring constraints afterwards touches measured scalars only.
-/

namespace PlanarSketch

variable {α : Type}

namespace LeastSquares

variable {s : LeastSquares α} {a : Nat}

theorem size_values (s : LeastSquares α) : s.values.size = s.size := Array.size_map ..

theorem lt_of_mem_unknowns (h : a ∈ s.unknowns) : a < s.size :=
  List.mem_range.1 (List.mem_filter.1 h).1

theorem lt_of_mem_outputs (h : a ∈ s.outputs) : a < s.size :=
  List.mem_range.1 (List.mem_filter.1 h).1

theorem pairwise_unknowns (s : LeastSquares α) : s.unknowns.Pairwise (· < ·) :=
  List.pairwise_lt_range.filter _

theorem unknowns_congr {t : LeastSquares α} (h : ∀ a, a ∈ t.unknowns ↔ a ∈ s.unknowns) :
    t.unknowns = s.unknowns :=
  t.pairwise_unknowns.eq_of_mem_iff s.pairwise_unknowns h

theorem not_mem_outputs (h : a ∈ s.unknowns) : a ∉ s.outputs := fun hout =>
  (mem_unknowns.1 h).2 (mem_outputs.1 hout).2

end LeastSquares

namespace System

/-- The unknowns are scalars of the system, each listed once. -/
structure Proper (s : System α) : Prop where
  nodup : s.unknowns.Nodup
  lt : ∀ a ∈ s.unknowns, a < s.values.size

variable {s t : System α} {x : Vec α} {a : Nat}

@[simp] theorem size_expand (s : System α) (x : Vec α) : (s.expand x).size = s.values.size := by
  obtain ⟨values, unknowns, equations⟩ := s
  simp only [expand]
  generalize unknowns.zip x = es
  induction es generalizing values with
  | nil => rfl
  | cons e es ih => rw [List.foldl_cons, ih, Array.size_setIfInBounds]

variable [Scalar α]

theorem read_expand_of_not_mem (x : Vec α) (h : a ∉ s.unknowns) :
    read (s.expand x) a = read s.values a := by
  obtain ⟨values, unknowns, equations⟩ := s
  have hzip : ∀ e ∈ unknowns.zip x, e.1 ≠ a := by
    rintro e he rfl
    exact h (List.of_mem_zip he).1
  simp only [expand]
  generalize unknowns.zip x = es at hzip
  clear h
  induction es generalizing values with
  | nil => rfl
  | cons e es ih =>
      rw [List.forall_mem_cons] at hzip
      rw [List.foldl_cons, ih _ hzip.2]
      simp only [read, Array.getD_eq_getD_getElem?]
      rw [Array.getElem?_setIfInBounds_ne hzip.1]

/-- The unknowns get the coordinates of the point. -/
theorem Proper.map_read_expand (h : s.Proper) (hx : x.length = s.unknowns.length) :
    s.unknowns.map (read (s.expand x)) = x := by
  obtain ⟨values, unknowns, equations⟩ := s
  obtain ⟨hnodup, hlt⟩ := h
  dsimp only at *
  induction unknowns generalizing values x with
  | nil => rw [List.length_eq_zero_iff.1 hx, List.map_nil]
  | cons u us ih =>
      cases x with
      | nil => cases hx
      | cons v x =>
          rw [List.nodup_cons] at hnodup
          rw [List.forall_mem_cons] at hlt
          -- the first coordinate is written and not written again
          have hstep : (⟨values, u :: us, equations⟩ : System α).expand (v :: x) =
              (⟨values.setIfInBounds u v, us, equations⟩ : System α).expand x := rfl
          have hfirst := read_expand_of_not_mem (a := u)
            (s := ⟨values.setIfInBounds u v, us, equations⟩) x hnodup.1
          rw [List.map_cons, hstep, hfirst]
          congr 1
          · simp [read, hlt.1]
          · refine ih (values.setIfInBounds u v) (Nat.succ.inj hx) hnodup.2 fun a ha => ?_
            rw [Array.size_setIfInBounds]
            exact hlt.2 a ha

/-- Expanding the start changes nothing. -/
theorem Proper.read_expand_start (h : s.Proper) (a : Nat) :
    read (s.expand s.start) a = read s.values a := by
  by_cases ha : a ∈ s.unknowns
  · have hmap : s.unknowns.map (read (s.expand s.start)) = s.unknowns.map (read s.values) :=
      h.map_read_expand (List.length_map ..)
    exact List.map_inj_left.1 hmap a ha
  · exact read_expand_of_not_mem _ ha

/-- The systems differ at most in scalars that are neither unknowns nor read. -/
structure Same (s t : System α) : Prop where
  unknowns : t.unknowns = s.unknowns
  equations : t.equations = s.equations
  reads : ∀ e ∈ s.equations, ∀ a ∈ e.1.addresses, a ∉ s.unknowns →
    read t.values a = read s.values a

theorem Same.read_expand (hs : s.Proper) (ht : t.Proper) (h : Same s t)
    (hx : x.length = s.unknowns.length)
    (ha : a ∉ s.unknowns → read t.values a = read s.values a) :
    read (t.expand x) a = read (s.expand x) a := by
  by_cases hmem : a ∈ s.unknowns
  · have hmap : s.unknowns.map (read (t.expand x)) = s.unknowns.map (read (s.expand x)) := by
      rw [hs.map_read_expand hx, ← h.unknowns]
      exact ht.map_read_expand (by rw [h.unknowns, hx])
    exact List.map_inj_left.1 hmap a hmem
  · rw [read_expand_of_not_mem x hmem, read_expand_of_not_mem x (by rwa [h.unknowns]), ha hmem]

theorem Same.residuals (hs : s.Proper) (ht : t.Proper) (h : Same s t)
    (hx : x.length = s.unknowns.length) : t.residuals x = s.residuals x := by
  have heach : ∀ e ∈ s.equations,
      equationResiduals (t.expand x) e = equationResiduals (s.expand x) e := by
    intro e he
    rw [equationResiduals, equationResiduals,
      Equation.residuals_congr fun a ha => h.read_expand hs ht hx (h.reads e he a ha)]
  simp only [System.residuals, h.equations, List.flatMap_def, List.map_congr_left heach]

theorem Same.jacobian (hs : s.Proper) (ht : t.Proper) (h : Same s t)
    (hx : x.length = s.unknowns.length) : t.jacobian x = s.jacobian x := by
  have hslope : ∀ (xj : α) (j : Nat), t.slope x j xj = s.slope x j xj := by
    intro xj j
    -- the probes are points of the same space
    simp only [slope]
    rw [h.residuals hs ht (by rw [List.length_set, hx]),
      h.residuals hs ht (by rw [List.length_set, hx])]
  simp only [System.jacobian, height, h.equations, hslope]

end System

namespace LeastSquares

theorem proper_drivingSystem (s : LeastSquares α) : s.drivingSystem.Proper where
  nodup := List.nodup_range.filter _
  lt := fun _ ha => Nat.lt_of_lt_of_eq (lt_of_mem_unknowns ha) s.size_values.symm

theorem proper_measuringSystem (s : LeastSquares α) {values : Array α}
    (h : values.size = s.size) : (s.measuringSystem values).Proper where
  nodup := List.nodup_range.filter _
  lt := fun _ ha => Nat.lt_of_lt_of_eq (lt_of_mem_outputs ha) h.symm

theorem lookup_map_pair (as : List Address) (f : Address → α) (a : Address) :
    (as.map fun a => (a, f a)).lookup a = if a ∈ as then some (f a) else none := by
  induction as with
  | nil => rfl
  | cons b as ih =>
      rw [List.map_cons, List.lookup_cons]
      by_cases hab : a = b
      · subst hab
        simp
      · simp [beq_eq_false_iff_ne.2 hab, hab, ih]

variable [Scalar α]

theorem sized_problem (s : System α) : (problem s).Sized := by
  intro x
  simp [problem, System.jacobian, ColumnMatrix.width]

theorem agrees_problem {s t : System α} (hs : s.Proper) (ht : t.Proper) (h : System.Same s t)
    (hstart : t.start = s.start) : (problem s).Agrees (problem t) where
  start := hstart
  residuals := fun _ hx => h.residuals hs ht (hx.trans (List.length_map ..))
  jacobian := fun _ hx => h.jacobian hs ht (hx.trans (List.length_map ..))

variable {s t : LeastSquares α} {a : Nat}

/-- The solvers drive the same scalars by the same constraints. -/
structure SameDrive (s t : LeastSquares α) : Prop where
  config : t.config = s.config
  entries : t.drivingEntries = s.drivingEntries
  unknowns : t.unknowns = s.unknowns
  reads : ∀ e ∈ s.drivingEntries, ∀ a ∈ e.equation.addresses, a ∉ s.unknowns →
    System.read t.values a = System.read s.values a

namespace SameDrive

theorem system (h : SameDrive s t) : System.Same s.drivingSystem t.drivingSystem where
  unknowns := h.unknowns
  equations := congrArg (List.map Entry.scaled) h.entries
  reads := by
    intro e he a ha hno
    obtain ⟨entry, hentry, rfl⟩ := List.mem_map.1 he
    exact h.reads entry hentry a ha hno

variable {x : Vec α}

theorem residuals (h : SameDrive s t) (hx : x.length = s.unknowns.length) :
    t.drivingSystem.residuals x = s.drivingSystem.residuals x :=
  h.system.residuals s.proper_drivingSystem t.proper_drivingSystem hx

theorem read_expand (h : SameDrive s t) (hx : x.length = s.unknowns.length)
    (ha : a ∉ s.unknowns → System.read t.values a = System.read s.values a) :
    System.read (t.drivingSystem.expand x) a = System.read (s.drivingSystem.expand x) a :=
  h.system.read_expand s.proper_drivingSystem t.proper_drivingSystem hx ha

variable [Decompositions α]

theorem diagnose (h : SameDrive s t) (hx : x.length = s.unknowns.length) :
    t.diagnose x = s.diagnose x := by
  have hjacobian :=
    h.system.jacobian s.proper_drivingSystem t.proper_drivingSystem (x := x) hx
  simp only [LeastSquares.diagnose, rowTolerance, h.config, h.entries, h.residuals hx, hjacobian]

/-- From the same start the search takes the same way. -/
theorem descend (h : SameDrive s t)
    (hstart : ∀ a ∈ s.unknowns, System.read t.values a = System.read s.values a)
    (algorithm : Algorithm) : t.descend algorithm = s.descend algorithm := by
  have hsame : t.drivingSystem.start = s.drivingSystem.start := by
    rw [System.start, h.system.unknowns]
    exact List.map_congr_left hstart
  have hagrees := agrees_problem s.proper_drivingSystem t.proper_drivingSystem h.system hsame
  rw [LeastSquares.descend, LeastSquares.descend, limits, h.config, ← limits]
  exact (Problem.minimize_spec (sized_problem _) Decompositions.sized hagrees algorithm
    s.limits).1

end SameDrive

/-! ### The verdict -/

/-- Some circle or arc has a negative radius. -/
def Inverted (s : LeastSquares α) (solution : Array α) : Prop :=
  ∃ r ∈ s.radii, System.read solution r < 0.0

theorem any_iff_inverted {solution : Array α} :
    (s.radii.any fun r => System.read solution r < 0.0) = true ↔ s.Inverted solution := by
  simp [Inverted]

/-- A solver that finds at least as many radii negative gives the same verdict, unless it rejects
what would be a success. -/
theorem classify_of_inverted {error : α} {solution solution' : Array α} {d : Diagnosis}
    (hconfig : t.config = s.config) (h : s.Inverted solution → t.Inverted solution') :
    t.classify error solution' d = s.classify error solution d ∨
      s.classify error solution d = .success ∧ t.classify error solution' d = .invalid := by
  simp only [classify, hconfig]
  split
  · exact .inl rfl
  split
  · by_cases hs : s.Inverted solution
    · rw [if_pos (any_iff_inverted.2 hs), if_pos (any_iff_inverted.2 (h hs))]
      exact .inl rfl
    · rw [if_neg (mt any_iff_inverted.1 hs)]
      split
      · exact .inr ⟨rfl, rfl⟩
      · exact .inl rfl
  · exact .inl rfl

theorem classify_congr {error : α} {solution solution' : Array α} {d : Diagnosis}
    (hconfig : t.config = s.config) (h : t.Inverted solution' ↔ s.Inverted solution) :
    t.classify error solution' d = s.classify error solution d := by
  have hany := Bool.eq_iff_iff.2 (any_iff_inverted.trans (h.trans any_iff_inverted.symm))
  simp only [classify, hconfig, hany]

/-- A success, and a solution that is only rejected for its radii, meet the threshold. -/
theorem le_of_classify {error : α} {solution : Array α} {d : Diagnosis}
    (h : s.classify error solution d = .success ∨ s.classify error solution d = .invalid) :
    error ≤ s.config.convergence := by
  refine Decidable.byContradiction fun hno => ?_
  unfold classify at h
  rw [if_neg hno] at h
  split at h
  · simp at h
  · split at h <;> simp at h

/-! ### The result of a solve -/

variable [Decompositions α]

/-- The point that a descent leads to has a coordinate for each unknown, and its error is the one
that is found for it. -/
theorem measures_descend (s : LeastSquares α) (algorithm : Algorithm) :
    (problem s.drivingSystem).Measures (s.descend algorithm).x (s.descend algorithm).error :=
  (Problem.minimize_spec (sized_problem _) Decompositions.sized (.refl _) algorithm
    s.limits).2

theorem length_descend (s : LeastSquares α) (algorithm : Algorithm) :
    (s.descend algorithm).x.length = s.unknowns.length :=
  (s.measures_descend algorithm).length.trans (List.length_map ..)

/-- All scalars as a solve leaves them. -/
def solution (s : LeastSquares α) (algorithm : Algorithm) : Array α :=
  s.readOut (s.drivingSystem.expand (s.descend algorithm).x)

/-- What the last solve found for a scalar, until it is applied. -/
def found? (s : LeastSquares α) (a : Address) : Option α := (s.pending.getD []).lookup a

theorem status_solve (s : LeastSquares α) (algorithm : Algorithm) :
    (s.solve algorithm).1 = s.classify (s.descend algorithm).error (s.solution algorithm)
      (s.diagnose (s.descend algorithm).x) := rfl

theorem size_readOut {values : Array α} : (s.readOut values).size = values.size := by
  unfold readOut
  split
  · rfl
  · exact System.size_expand ..

theorem size_solution (s : LeastSquares α) (algorithm : Algorithm) :
    (s.solution algorithm).size = s.size := by
  rw [solution, size_readOut, System.size_expand]
  exact s.size_values

/-- The measuring constraints move measured scalars only. -/
theorem read_solution (algorithm : Algorithm) (h : a ∉ s.outputs) :
    System.read (s.solution algorithm) a =
      System.read (s.drivingSystem.expand (s.descend algorithm).x) a := by
  rw [solution, readOut]
  split
  · rfl
  · exact System.read_expand_of_not_mem (s := s.measuringSystem _) _ h

theorem found?_solve (s : LeastSquares α) (algorithm : Algorithm) (a : Address) :
    (s.solve algorithm).2.found? a =
      if a ∈ s.unknowns ++ s.outputs then some (System.read (s.solution algorithm) a)
      else none :=
  lookup_map_pair (s.unknowns ++ s.outputs) (System.read (s.solution algorithm)) a

/-- An unknown is found where the driving constraints lead to. -/
theorem found?_of_mem_unknowns (algorithm : Algorithm) (h : a ∈ s.unknowns) :
    (s.solve algorithm).2.found? a =
      some (System.read (s.drivingSystem.expand (s.descend algorithm).x) a) := by
  rw [found?_solve, if_pos (List.mem_append_left _ h), read_solution _ (not_mem_outputs h)]

end LeastSquares

end PlanarSketch

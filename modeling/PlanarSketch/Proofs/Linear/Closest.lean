import Mathlib.Analysis.InnerProductSpace.Projection.FiniteDimensional
import PlanarSketch.Proofs.Linear.Space

/-!
Combinations of vectors. Among the combinations of some vectors one comes closest to a given one,
and it has only one set of coefficients as long as no combination is much shorter than its
coefficients: these are the shares that the vectors have in the given one. They are what a
least-squares solution is in exact arithmetic.
-/

namespace PlanarSketch

variable {n : ℕ} {vs : List (Vec ℝ)} {v : Vec ℝ}

/-- The combination of some vectors by these coefficients. -/
noncomputable def combination (n : ℕ) (vs : List (Vec ℝ))
    (c : EuclideanSpace ℝ (Fin vs.length)) : EuclideanSpace ℝ (Fin n) :=
  ∑ k, c k • points n vs k

/-- No combination comes closer to a vector than that by these coefficients. -/
def Closest (n : ℕ) (vs : List (Vec ℝ)) (v : Vec ℝ) (c : EuclideanSpace ℝ (Fin vs.length)) : Prop :=
  ∀ c', ‖v.inSpace n - combination n vs c‖ ≤ ‖v.inSpace n - combination n vs c'‖

/-- Combinations are not shorter than their coefficients by the factor that counts as zero: all
singular values of the matrix with these columns are above it. -/
def Conditioned (n : ℕ) (vs : List (Vec ℝ)) : Prop :=
  ∀ c, c ≠ 0 → 1 / (10 ^ 12 : ℕ) * ‖c‖ < ‖combination n vs c‖

variable {c c' : EuclideanSpace ℝ (Fin vs.length)}

theorem combination_sub (c c' : EuclideanSpace ℝ (Fin vs.length)) :
    combination n vs (c - c') = combination n vs c - combination n vs c' := by
  simp only [combination, PiLp.sub_apply, sub_smul, Finset.sum_sub_distrib]

theorem combination_single (n : ℕ) (vs : List (Vec ℝ)) (k : Fin vs.length) :
    combination n vs (EuclideanSpace.single k 1) = points n vs k := by
  rw [combination, Finset.sum_eq_single k]
  · simp
  · intro k' _ hne
    simp [hne]
  · exact fun hk => absurd (Finset.mem_univ k) hk

/-- A single vector only has to be longer than what counts as zero. -/
theorem conditioned_singleton : Conditioned n [v] ↔ 1 / (10 ^ 12 : ℕ) < ‖v.inSpace n‖ := by
  have hcombination : ∀ c : EuclideanSpace ℝ (Fin 1),
      combination n [v] c = c 0 • v.inSpace n := fun _ => Fin.sum_univ_one _
  have hnorm : ∀ c : EuclideanSpace ℝ (Fin 1), ‖c‖ = |c 0| := by
    intro c
    simp [EuclideanSpace.norm_eq, Real.sqrt_sq_eq_abs]
  constructor
  · intro h
    have hone := h (EuclideanSpace.single (0 : Fin 1) 1) (by simp)
    rw [combination_single, PiLp.norm_single, norm_one, mul_one] at hone
    exact hone
  · intro h c hc
    have hpos : 0 < |c 0| := hnorm c ▸ norm_pos_iff.2 hc
    rw [hcombination, norm_smul, Real.norm_eq_abs, hnorm, mul_comm]
    exact mul_lt_mul_of_pos_left h hpos

theorem mem_hull_iff {u : EuclideanSpace ℝ (Fin n)} :
    u ∈ hull n vs ↔ ∃ c, combination n vs c = u := by
  rw [hull, Submodule.mem_span_range_iff_exists_fun]
  constructor
  · rintro ⟨f, hf⟩
    exact ⟨WithLp.toLp 2 f, hf⟩
  · rintro ⟨c, hc⟩
    exact ⟨c, hc⟩

/-- To come closest is to be the foot of the perpendicular. -/
theorem closest_iff :
    Closest n vs v c ↔ combination n vs c = (hull n vs).starProjection (v.inSpace n) := by
  have hmem : combination n vs c ∈ hull n vs := mem_hull_iff.2 ⟨c, rfl⟩
  have hbelow : BddBelow (Set.range fun w : hull n vs => ‖v.inSpace n - w‖) := by
    refine ⟨0, ?_⟩
    rintro - ⟨w, rfl⟩
    exact norm_nonneg _
  constructor
  · intro h
    -- what is closest among the combinations attains the distance to their span
    have hleast : ‖v.inSpace n - combination n vs c‖ = ⨅ w : hull n vs, ‖v.inSpace n - w‖ := by
      refine le_antisymm (le_ciInf fun w => ?_) (ciInf_le hbelow ⟨_, hmem⟩)
      obtain ⟨c', hc'⟩ := mem_hull_iff.1 w.2
      exact hc' ▸ h c'
    have horthogonal := ((hull n vs).norm_eq_iInf_iff_real_inner_eq_zero hmem).1 hleast
    exact (Submodule.eq_starProjection_of_mem_of_inner_eq_zero hmem horthogonal).symm
  · intro h c'
    rw [h, Submodule.starProjection_minimal]
    exact ciInf_le hbelow ⟨_, mem_hull_iff.2 ⟨c', rfl⟩⟩

theorem exists_closest (n : ℕ) (vs : List (Vec ℝ)) (v : Vec ℝ) : ∃ c, Closest n vs v c := by
  obtain ⟨c, hc⟩ := mem_hull_iff.1 ((hull n vs).starProjection_apply_mem (v.inSpace n))
  exact ⟨c, closest_iff.2 hc⟩

/-- A vector that is a combination comes closest to itself. -/
theorem closest_of_combination_eq (h : combination n vs c = v.inSpace n) : Closest n vs v c := by
  intro c'
  rw [h, sub_self, norm_zero]
  exact norm_nonneg _

theorem Closest.eq (h : Conditioned n vs) (hc : Closest n vs v c) (hc' : Closest n vs v c') :
    c = c' := by
  have hzero : combination n vs (c - c') = 0 := by
    rw [combination_sub, closest_iff.1 hc, closest_iff.1 hc', sub_self]
  by_contra hne
  have hlong := h (c - c') (sub_ne_zero.2 hne)
  rw [hzero, norm_zero] at hlong
  exact hlong.not_ge (by positivity)

namespace LinearAlgebra

/-- A least-squares solution comes as close as any, unless a singular value counts as zero. -/
def Exact (alg : LinearAlgebra ℝ) : Prop :=
  ∀ (n : ℕ) (vs : List (Vec ℝ)) (v : Vec ℝ), (∀ u ∈ vs, u.length = n) → v.length = n →
    Conditioned n vs → Closest n vs v ((alg.leastNorm ⟨n, vs⟩ v).inSpace vs.length)

/-- Least squares as they should be; positive systems are solved as usual. -/
noncomputable def closest : LinearAlgebra ℝ where
  positive? := standard.positive?
  leastNorm a b := List.ofFn (exists_closest a.height a.columns b).choose

theorem sized_closest : closest.Sized where
  positive := sized_standard.positive
  leastNorm _ _ := List.length_ofFn

theorem exact_closest : closest.Exact := by
  intro n vs v _ _ _
  have hsame : ((closest.leastNorm ⟨n, vs⟩ v).inSpace vs.length) =
      (exists_closest n vs v).choose := by
    ext i
    rw [inSpace_apply, closest, List.getD_eq_getElem _ _ (by simp)]
    simp
  rw [hsame]
  exact (exists_closest n vs v).choose_spec

end LinearAlgebra

noncomputable instance : Decompositions ℝ := ⟨LinearAlgebra.closest, LinearAlgebra.sized_closest⟩

end PlanarSketch

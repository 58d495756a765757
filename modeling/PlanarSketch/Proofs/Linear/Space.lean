import Mathlib.Analysis.InnerProductSpace.PiL2
import Mathlib.Data.List.GetD
import PlanarSketch.Proofs.Exact
import PlanarSketch.Proofs.Linear.Lengths

/-!
Vectors of the same length are the points of a Euclidean space. Over the reals, and as long as the
lengths agree, what is computed on lists is what the space has: differences, multiples, inner
products and norms. A list of vectors is a family of points there, and spans a subspace.
-/

namespace PlanarSketch

open scoped RealInnerProductSpace

variable {n : ℕ}

/-- A vector as a point of the space with `n` coordinates. -/
noncomputable def Vec.inSpace (n : ℕ) (v : Vec ℝ) : EuclideanSpace ℝ (Fin n) :=
  WithLp.toLp _ fun i => v.getD i 0

variable {u v : Vec ℝ}

theorem inSpace_apply (v : Vec ℝ) (i : Fin n) : v.inSpace n i = v.getD i 0 := rfl

theorem inSpace_sub (hu : u.length = n) (hv : v.length = n) :
    (u.sub v).inSpace n = u.inSpace n - v.inSpace n := by
  ext i
  have hi : (i : ℕ) < (u.sub v).length := by
    rw [Vec.length_sub, hu, hv, min_self]
    exact i.isLt
  rw [PiLp.sub_apply, inSpace_apply, inSpace_apply, inSpace_apply, List.getD_eq_getElem _ _ hi,
    List.getD_eq_getElem _ _ (hu ▸ i.isLt), List.getD_eq_getElem _ _ (hv ▸ i.isLt)]
  exact List.getElem_zipWith

theorem inSpace_scale (c : ℝ) (v : Vec ℝ) : (Vec.scale c v).inSpace n = c • v.inSpace n := by
  ext i
  have hget := List.getD_map v 0 (n := i) (· * c)
  rw [zero_mul] at hget
  rw [PiLp.smul_apply, inSpace_apply, inSpace_apply, smul_eq_mul, mul_comm]
  exact hget

theorem inner_inSpace (hu : u.length = n) (hv : v.length = n) :
    ⟪u.inSpace n, v.inSpace n⟫ = u.dot v := by
  have hproducts : List.zipWith (· * ·) u v =
      List.ofFn fun i : Fin n => u.getD i 0 * v.getD i 0 := by
    refine List.ext_getElem (by simp [hu, hv]) fun i hi hi' => ?_
    rw [List.length_ofFn] at hi'
    rw [List.getElem_zipWith, List.getElem_ofFn, List.getD_eq_getElem _ _ (hu ▸ hi'),
      List.getD_eq_getElem _ _ (hv ▸ hi')]
  rw [Vec.dot, Vec.sum_eq, hproducts, List.sum_ofFn, PiLp.inner_apply]
  refine Finset.sum_congr rfl fun i _ => ?_
  rw [inSpace_apply, inSpace_apply]
  exact mul_comm ..

theorem norm_inSpace (hv : v.length = n) : ‖v.inSpace n‖ = v.norm := by
  rw [Vec.norm, Vec.normSq, ← inner_inSpace hv hv, real_inner_self_eq_norm_sq]
  exact (Real.sqrt_sq (norm_nonneg _)).symm

/-! ### Families -/

/-- The vectors of a list as a family of points. -/
noncomputable def points (n : ℕ) (vs : List (Vec ℝ)) (i : Fin vs.length) :
    EuclideanSpace ℝ (Fin n) :=
  vs[i].inSpace n

/-- What the vectors of a list span. -/
noncomputable def hull (n : ℕ) (vs : List (Vec ℝ)) : Submodule ℝ (EuclideanSpace ℝ (Fin n)) :=
  Submodule.span ℝ (Set.range (points n vs))

variable {vs : List (Vec ℝ)}

theorem range_points (n : ℕ) (vs : List (Vec ℝ)) :
    Set.range (points n vs) = Vec.inSpace n '' {v | v ∈ vs} := by
  ext w
  constructor
  · rintro ⟨i, rfl⟩
    exact ⟨vs[i], List.getElem_mem _, rfl⟩
  · rintro ⟨v, hv, rfl⟩
    obtain ⟨i, hi, rfl⟩ := List.mem_iff_getElem.1 hv
    exact ⟨⟨i, hi⟩, rfl⟩

theorem hull_concat (n : ℕ) (vs : List (Vec ℝ)) (v : Vec ℝ) :
    hull n (vs ++ [v]) = hull n vs ⊔ Submodule.span ℝ {v.inSpace n} := by
  have hmem : {u | u ∈ vs ++ [v]} = {u | u ∈ vs} ∪ {v} := by
    ext u
    simp [or_comm]
  rw [hull, hull, range_points, range_points, hmem, Set.image_union, Set.image_singleton,
    Submodule.span_union]

/-- Vectors of a list are orthonormal when each is a unit vector and any two of them, taken in
order, are orthogonal. -/
theorem orthonormal_points : Orthonormal ℝ (points n vs) ↔
    (∀ v ∈ vs, ‖v.inSpace n‖ = 1) ∧ vs.Pairwise fun u v => ⟪u.inSpace n, v.inSpace n⟫ = 0 := by
  rw [Orthonormal, List.pairwise_iff_getElem, List.forall_mem_iff_getElem]
  refine and_congr ⟨fun h i hi => h ⟨i, hi⟩, fun h i => h i i.isLt⟩ ⟨fun h i j hi hj hij => ?_, ?_⟩
  · exact h (i := ⟨i, hi⟩) (j := ⟨j, hj⟩) (Fin.ne_of_lt hij)
  · intro h i j hij
    rcases lt_or_gt_of_ne hij with hlt | hlt
    · exact h i j i.isLt j.isLt hlt
    · exact inner_eq_zero_symm.1 (h j i j.isLt i.isLt hlt)

end PlanarSketch

import PlanarSketch.Proofs.LeastSquares.Basis

/-!
Of which groups a row has parts, in exact arithmetic. The accepted rows are independent, so among
their combinations the one that comes closest to a dependent row has definite coefficients; it is
the row itself if that lies in their span. If these rows are not so nearly dependent that least
squares take a singular value for zero, the shares that a diagnosis works with are these
coefficients.
-/

namespace PlanarSketch

namespace Diagnosis

/-- An accepted row of the group takes part in the combination of the accepted rows that comes
closest to a row. -/
def Combines (n : ℕ) (s : Span ℝ) (row : Vec ℝ) (i : ℕ) : Prop :=
  ∃ c, Closest n s.rows row c ∧ ∃ k : Fin s.rows.length,
    (s.accepted.map Prod.fst)[(k : ℕ)]? = some i ∧ 1 / (10 ^ 6 : ℕ) < |c k|

theorem exceeds_iff {c : ℝ} : dependencyTolerance < Scalar.abs c ↔ 1 / (10 ^ 6 : ℕ) < |c| := by
  rw [dependencyTolerance, ExactScalar.decimal_fraction, EuclideanScalar.abs_eq, Nat.cast_one,
    Nat.cast_pow, Nat.cast_ofNat]

variable {n i : ℕ} {s : Span ℝ} {row : Vec ℝ}

/-- A row that has been accepted is a combination of its own. -/
theorem combines_of_accepted {k : ℕ} (h : s.accepted[k]? = some (i, row)) : Combines n s row i := by
  obtain ⟨hk, hget⟩ := List.getElem?_eq_some_iff.1 h
  have hlt : k < s.rows.length := by simpa [Span.rows] using hk
  have hrow : combination n s.rows (EuclideanSpace.single ⟨k, hlt⟩ 1) = row.inSpace n := by
    rw [combination_single, points]
    simp [Span.rows, hget]
  refine ⟨_, closest_of_combination_eq hrow, ⟨k, hlt⟩, by simp [h], ?_⟩
  norm_num

variable [Decompositions ℝ]

theorem length_shares (s : Span ℝ) (row : Vec ℝ) : (shares s row).length = s.rows.length :=
  Decompositions.sized.leastNorm _ _

theorem shared_iff_combines (hexact : (Decompositions.algebra (α := ℝ)).Exact)
    (hrows : ∀ r ∈ s.rows, r.length = n) (hrow : row.length = n)
    (hconditioned : Conditioned n s.rows) : Shared s row i ↔ Combines n s row i := by
  have hclosest : Closest n s.rows row ((shares s row).inSpace s.rows.length) := by
    rw [shares, hrow]
    exact hexact n s.rows row hrows hrow hconditioned
  have hlength := length_shares s row
  constructor
  · rintro ⟨k, r, c, hr, hc, hlarge⟩
    obtain ⟨hk, rfl⟩ := List.getElem?_eq_some_iff.1 hc
    refine ⟨_, hclosest, ⟨k, hlength ▸ hk⟩, by simp [hr], ?_⟩
    rw [inSpace_apply, List.getD_eq_getElem _ _ hk]
    exact exceeds_iff.1 hlarge
  · rintro ⟨c, hc, k, howner, hlarge⟩
    obtain rfl := hc.eq hconditioned hclosest
    have hk : (k : ℕ) < (shares s row).length := k.isLt.trans_eq hlength.symm
    rw [inSpace_apply, List.getD_eq_getElem _ _ hk] at hlarge
    rw [List.getElem?_map, Option.map_eq_some_iff] at howner
    obtain ⟨⟨_, r⟩, hr, rfl⟩ := howner
    exact ⟨k, r, _, hr, List.getElem?_eq_getElem hk, exceeds_iff.2 hlarge⟩

variable {groups : List (RowGroup ℝ)} {j : ℕ}

theorem blames_iff_combines (hexact : (Decompositions.algebra (α := ℝ)).Exact)
    (hlength : ∀ g ∈ groups, ∀ r ∈ g.rows, r.1.length = n)
    (hconditioned : Conditioned n (spanOf (labelled (groups.take (j + 1)))).rows) :
    Blames groups Shared j i ↔ Blames groups (Combines n) j i := by
  refine Blames.congr fun own row hrow => shared_iff_combines hexact ?_ ?_ hconditioned
  · have hbefore : ∀ r ∈ labelled (groups.take (j + 1)), r.2.length = n :=
      length_labelled fun g hg => hlength g (List.mem_of_mem_take hg)
    intro r hr
    obtain ⟨r', hr', rfl⟩ := List.mem_map.1 hr
    obtain ⟨before, after, hsplit, -⟩ := exists_of_accepted hr'
    exact hbefore r' (hsplit ▸ List.mem_append_cons_self)
  · obtain ⟨g, rest, hg, hsplit⟩ := hrow
    have hmem : row ∈ g.rows.map Prod.fst := hsplit ▸ List.mem_append_cons_self
    obtain ⟨r, hr, rfl⟩ := List.mem_map.1 hmem
    exact hlength g (List.mem_of_getElem? hg) r hr

end Diagnosis

end PlanarSketch

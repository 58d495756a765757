import Mathlib.LinearAlgebra.Dimension.OrzechProperty
import PlanarSketch.Proofs.LeastSquares.Diagnosis
import PlanarSketch.Proofs.Linear.Closest

/-!
The basis of a diagnosis. In exact arithmetic what a visit keeps is what orthogonalisation promises:
each accepted row is made orthogonal to those accepted before it and then a unit, so the basis is
orthonormal and spans what the accepted rows span. As many independent rows have been accepted as
the basis is long, and a row that is not accepted was close to the span of those before it.
-/

namespace PlanarSketch

open scoped RealInnerProductSpace

namespace Diagnosis

variable {n : ℕ} {basis : List (Vec ℝ)} {row : Vec ℝ}

/-- The accepted rows, without their owners. -/
def Span.rows {α : Type} (s : Span α) : List (Vec α) := s.accepted.map Prod.snd

/-! ### One row -/

theorem reduce_concat {α : Type} [Scalar α] (basis : List (Vec α)) (b row : Vec α) :
    reduce (basis ++ [b]) row =
      Vec.sub (reduce basis row) (Vec.scale (Vec.dot b (reduce basis row)) b) := by
  simp [reduce]

/-- What is left of a row is orthogonal to the basis, and what was taken away is in its span. -/
structure Remainder (n : ℕ) (basis : List (Vec ℝ)) (row left : Vec ℝ) : Prop where
  length_eq : left.length = n
  orthogonal : ∀ b ∈ basis, ⟪b.inSpace n, left.inSpace n⟫ = 0
  mem_hull : row.inSpace n - left.inSpace n ∈ hull n basis

/-- The components along the vectors of an orthonormal basis are taken away one after the other;
those that have been taken away do not come back. -/
theorem remainder_reduce (hlength : ∀ b ∈ basis, b.length = n)
    (horthonormal : Orthonormal ℝ (points n basis)) (hrow : row.length = n) :
    Remainder n basis row (reduce basis row) := by
  rw [orthonormal_points] at horthonormal
  induction basis using List.reverseRecOn with
  | nil => exact ⟨hrow, by simp, by simp [reduce]⟩
  | append_singleton basis b ih =>
      obtain ⟨hunit, hpairwise⟩ := horthonormal
      rw [List.forall_mem_append, List.forall_mem_singleton] at hlength hunit
      obtain ⟨hpairs, -, hlast⟩ := List.pairwise_append.1 hpairwise
      have hold := ih hlength.1 ⟨hunit.1, hpairs⟩
      have hleft : (reduce (basis ++ [b]) row).inSpace n = (reduce basis row).inSpace n -
          ⟪b.inSpace n, (reduce basis row).inSpace n⟫ • b.inSpace n := by
        rw [reduce_concat, inSpace_sub hold.length_eq (by simp [hlength.2]), inSpace_scale,
          inner_inSpace hlength.2 hold.length_eq]
      refine ⟨?_, ?_, ?_⟩
      · simp [reduce_concat, hold.length_eq, hlength.2]
      · rw [hleft, List.forall_mem_append, List.forall_mem_singleton]
        constructor
        · intro b' hb'
          rw [inner_sub_right, real_inner_smul_right, hold.orthogonal b' hb',
            hlast b' hb' b (List.mem_singleton_self b), mul_zero, sub_zero]
        · rw [inner_sub_right, real_inner_smul_right, real_inner_self_eq_norm_sq, hunit.2]
          ring
      · rw [hleft, hull_concat, ← sub_add]
        exact Submodule.add_mem_sup hold.mem_hull
          (Submodule.smul_mem _ _ (Submodule.mem_span_singleton_self _))

theorem larger_eq (a b : ℝ) : Scalar.larger a b = max a b := by
  rw [Scalar.larger]
  obtain hlt | hle := lt_or_ge a b
  · rw [if_pos hlt, max_eq_right hlt.le]
  · rw [if_neg hle.not_gt, if_pos BEq.rfl, max_eq_left hle]

theorem isIndependent_iff {left : Vec ℝ} (hrow : row.length = n) (hleft : left.length = n) :
    isIndependent row left = true ↔
      1 / 10 ^ 8 * max ‖row.inSpace n‖ 1 < ‖left.inSpace n‖ := by
  rw [isIndependent, decide_eq_true_iff, norm_inSpace hrow, norm_inSpace hleft, larger_eq,
    rankTolerance, ExactScalar.decimal_fraction, ExactScalar.decimal_fraction]
  norm_num

theorem direction_eq (v : Vec ℝ) : direction v = Vec.scale (Vec.norm v)⁻¹ v := by
  simp only [direction, Vec.scale, div_eq_mul_inv]

/-! ### All rows -/

/-- What holds of the accepted rows and their basis after any number of rows. -/
structure Span.Sound (n : ℕ) (s : Span ℝ) : Prop where
  length_eq : ∀ b ∈ s.basis, b.length = n
  orthonormal : Orthonormal ℝ (points n s.basis)
  hull_eq : hull n s.basis = hull n s.rows
  count : s.basis.length = s.rows.length

variable {s : Span ℝ} {r : ℕ × Vec ℝ}

theorem sup_span_singleton_eq {E : Type*} [AddCommGroup E] [Module ℝ E] {S : Submodule ℝ E}
    {u v : E} (h : u - v ∈ S) : S ⊔ Submodule.span ℝ {u} = S ⊔ Submodule.span ℝ {v} := by
  have hle : ∀ {u v : E}, u - v ∈ S → S ⊔ Submodule.span ℝ {u} ≤ S ⊔ Submodule.span ℝ {v} := by
    intro u v h
    rw [sup_le_iff, Submodule.span_singleton_le_iff_mem, ← sub_add_cancel u v]
    exact ⟨le_sup_left, Submodule.add_mem_sup h (Submodule.mem_span_singleton_self v)⟩
  refine le_antisymm (hle h) (hle ?_)
  rw [← neg_sub]
  exact S.neg_mem h

theorem Span.Sound.take (h : s.Sound n) (hr : r.2.length = n) : (take s r).Sound n := by
  rw [Diagnosis.take]
  by_cases hfree : isIndependent r.2 (reduce s.basis r.2) = true
  · have hleft := remainder_reduce h.length_eq h.orthonormal hr
    have hpos : 0 < ‖(reduce s.basis r.2).inSpace n‖ := by
      rw [isIndependent_iff hr hleft.length_eq] at hfree
      exact hfree.trans' (by positivity)
    have hdirection : (direction (reduce s.basis r.2)).inSpace n =
        ‖(reduce s.basis r.2).inSpace n‖⁻¹ • (reduce s.basis r.2).inSpace n := by
      rw [direction_eq, inSpace_scale, norm_inSpace hleft.length_eq]
    obtain ⟨hunit, hpairwise⟩ := orthonormal_points.1 h.orthonormal
    simp only [hfree, if_true]
    refine ⟨?_, orthonormal_points.2 ⟨?_, ?_⟩, ?_, ?_⟩
    · rw [List.forall_mem_append, List.forall_mem_singleton]
      exact ⟨h.length_eq, by simp [direction, hleft.length_eq]⟩
    · rw [List.forall_mem_append, List.forall_mem_singleton, hdirection, norm_smul, norm_inv,
        norm_norm, inv_mul_cancel₀ hpos.ne']
      exact ⟨hunit, rfl⟩
    · rw [List.pairwise_append]
      refine ⟨hpairwise, List.pairwise_singleton _ _, fun b hb v hv => ?_⟩
      rw [List.mem_singleton.1 hv, hdirection, real_inner_smul_right, hleft.orthogonal b hb,
        mul_zero]
    · rw [Span.rows, List.map_append, List.map_singleton, hull_concat, hull_concat, hdirection,
        Submodule.span_singleton_smul_eq (IsUnit.mk0 _ (inv_ne_zero hpos.ne')), ← Span.rows,
        ← h.hull_eq]
      exact (sup_span_singleton_eq hleft.mem_hull).symm
    · simp [Span.rows, h.count]
  · rw [Bool.not_eq_true] at hfree
    simp only [hfree, Bool.false_eq_true, if_false]
    exact h

theorem sound_spanOf {rows : List (ℕ × Vec ℝ)} (h : ∀ r ∈ rows, r.2.length = n) :
    (spanOf rows).Sound n := by
  induction rows using List.reverseRecOn with
  | nil => exact ⟨by simp [spanOf], orthonormal_points.2 ⟨by simp [spanOf], .nil⟩, rfl, rfl⟩
  | append_singleton rows r ih =>
      rw [List.forall_mem_append, List.forall_mem_singleton] at h
      rw [spanOf_concat]
      exact (ih h.1).take h.2

/-- As many rows are accepted as the basis is long, so they are independent. -/
theorem Span.Sound.linearIndependent (h : s.Sound n) : LinearIndependent ℝ (points n s.rows) := by
  have hbasis := linearIndependent_iff_card_eq_finrank_span.1 h.orthonormal.linearIndependent
  apply linearIndependent_iff_card_eq_finrank_span.2
  rw [Fintype.card_fin] at hbasis ⊢
  calc s.rows.length
    _ = s.basis.length := h.count.symm
    _ = Module.finrank ℝ (hull n s.basis) := hbasis
    _ = Module.finrank ℝ (hull n s.rows) := by rw [h.hull_eq]

theorem Span.Sound.count_le (h : s.Sound n) : s.basis.length ≤ n := by
  simpa using h.orthonormal.linearIndependent.fintype_card_le_finrank

/-- A row that is not accepted is close to the span of those that are. -/
theorem Span.Sound.infDist_le (h : s.Sound n) (hrow : row.length = n)
    (hdependent : isIndependent row (reduce s.basis row) = false) :
    Metric.infDist (row.inSpace n) (hull n s.rows) ≤ 1 / 10 ^ 8 * max ‖row.inSpace n‖ 1 := by
  have hleft := remainder_reduce h.length_eq h.orthonormal hrow
  have hsmall := mt (isIndependent_iff hrow hleft.length_eq).2 (Bool.not_eq_true _ ▸ hdependent)
  have hmem := hleft.mem_hull
  rw [h.hull_eq] at hmem
  calc Metric.infDist (row.inSpace n) (hull n s.rows)
    _ ≤ dist (row.inSpace n) (row.inSpace n - (reduce s.basis row).inSpace n) :=
        Metric.infDist_le_dist_of_mem hmem
    _ = ‖(reduce s.basis row).inSpace n‖ := by rw [dist_eq_norm, sub_sub_cancel]
    _ ≤ 1 / 10 ^ 8 * max ‖row.inSpace n‖ 1 := not_lt.1 hsmall

/-! ### More groups -/

section

variable {α : Type} [Scalar α] [Decompositions α] (tolerance : α)

/-- What the visit of all groups leaves behind. -/
def visited (groups : List (RowGroup α)) : Span α × Verdicts :=
  groups.zipIdx.foldl (visit tolerance) (⟨[], []⟩, ⟨[], [], []⟩)

/-- What has been accepted when a row is reached, behind all rows of some groups and these of its
own. -/
def reached (before : List (RowGroup α)) (own : List (Vec α)) : Span α :=
  (absorb before.length own (visited tolerance before).1).1

theorem visited_concat (groups : List (RowGroup α)) (g : RowGroup α) :
    visited tolerance (groups ++ [g]) =
      visit tolerance (visited tolerance groups) (g, groups.length) := by
  rw [visited, List.zipIdx_append, List.foldl_append]
  simp [visited]

theorem visited_span (groups : List (RowGroup α)) :
    (visited tolerance groups).1 = spanOf (labelled groups) :=
  (judged tolerance groups).span

theorem reached_eq (before : List (RowGroup α)) (own : List (Vec α)) :
    reached tolerance before own =
      spanOf (labelled before ++ own.map fun row => (before.length, row)) := by
  rw [reached, visited_span]
  exact (absorb_spanOf ..).1

theorem reached_concat (before : List (RowGroup α)) (own : List (Vec α)) (row : Vec α) :
    reached tolerance before (own ++ [row]) =
      take (reached tolerance before own) (before.length, row) := by
  rw [reached_eq, reached_eq, List.map_append, List.map_singleton, ← List.append_assoc,
    spanOf_concat]

/-- Nothing is taken back, and what is added is from a place on. -/
def Extended (start : ℕ) (old new : List ℕ) : Prop :=
  ∃ later, new = old ++ later ∧ ∀ i ∈ later, start ≤ i

theorem Extended.refl (start : ℕ) (old : List ℕ) : Extended start old old :=
  ⟨[], (List.append_nil old).symm, List.forall_mem_nil _⟩

theorem Extended.concat {start i : ℕ} {old new : List ℕ} (h : Extended start old new)
    (hi : start ≤ i) : Extended start old (new ++ [i]) := by
  obtain ⟨later, rfl, hlater⟩ := h
  refine ⟨later ++ [i], List.append_assoc .., ?_⟩
  rw [List.forall_mem_append, List.forall_mem_singleton]
  exact ⟨hlater, hi⟩

/-- The verdict on a group comes behind those on the groups before it. -/
theorem Extended.visit {start i : ℕ} {v : Verdicts} (hi : start ≤ i) (state : Span α × Verdicts)
    (g : RowGroup α) :
    (Extended start v.redundant state.2.redundant →
      Extended start v.redundant (visit tolerance state (g, i)).2.redundant) ∧
    (Extended start v.partiallyRedundant state.2.partiallyRedundant →
      Extended start v.partiallyRedundant (visit tolerance state (g, i)).2.partiallyRedundant) := by
  simp only [Diagnosis.visit]
  split
  · exact ⟨id, id⟩
  split
  · exact ⟨id, id⟩
  split
  · exact ⟨fun h => h.concat hi, id⟩
  · exact ⟨id, fun h => h.concat hi⟩

theorem extended_visited (groups more : List (RowGroup α)) :
    Extended groups.length (visited tolerance groups).2.redundant
      (visited tolerance (groups ++ more)).2.redundant ∧
    Extended groups.length (visited tolerance groups).2.partiallyRedundant
      (visited tolerance (groups ++ more)).2.partiallyRedundant := by
  induction more using List.reverseRecOn with
  | nil =>
      rw [List.append_nil]
      exact ⟨.refl .., .refl ..⟩
  | append_singleton more g ih =>
      rw [← List.append_assoc, visited_concat]
      have hle : groups.length ≤ (groups ++ more).length := by simp
      obtain ⟨hredundant, hpartial⟩ := Extended.visit tolerance hle _ g
      exact ⟨hredundant ih.1, hpartial ih.2⟩

/-- What was reported still is, and what is new is the tag of one of these groups. -/
def Kept (more : List (RowGroup α)) (old new : List ℤ) : Prop :=
  (∀ t ∈ old, t ∈ new) ∧ ∀ t ∈ new, t ∈ old ∨ ∃ g ∈ more, g.tag = t

omit [Scalar α] in
theorem Extended.kept {groups more : List (RowGroup α)} {old new : List ℕ}
    (h : Extended groups.length old new) (hold : ∀ i ∈ old, i < groups.length) :
    Kept more (tags groups old) (tags (groups ++ more) new) := by
  obtain ⟨later, rfl, hlater⟩ := h
  constructor
  · intro t ht
    obtain ⟨hpos, i, g, hi, hg, htag⟩ := (mem_tags _ _).1 ht
    refine (mem_tags _ _).2 ⟨hpos, i, g, List.mem_append_left _ hi, ?_, htag⟩
    rw [List.getElem?_append_left (hold i hi), hg]
  · intro t ht
    obtain ⟨hpos, i, g, hi, hg, htag⟩ := (mem_tags _ _).1 ht
    rcases List.mem_append.1 hi with hi | hi
    · rw [List.getElem?_append_left (hold i hi)] at hg
      exact .inl ((mem_tags _ _).2 ⟨hpos, i, g, hi, hg, htag⟩)
    · rw [List.getElem?_append_right (hlater i hi)] at hg
      exact .inr ⟨g, List.mem_of_getElem? hg, htag⟩

/-- Reports of redundancy are final. -/
theorem kept_diagnose (width : ℕ) (groups more : List (RowGroup α)) :
    Kept more (diagnose width tolerance groups).redundant
      (diagnose width tolerance (groups ++ more)).redundant ∧
    Kept more (diagnose width tolerance groups).partiallyRedundant
      (diagnose width tolerance (groups ++ more)).partiallyRedundant := by
  have hjudged := judged tolerance groups
  obtain ⟨hredundant, hpartial⟩ := extended_visited tolerance groups more
  constructor
  · exact hredundant.kept fun i hi => ((hjudged.redundant i).1 hi).1.lt
  · exact hpartial.kept fun i hi => ((hjudged.partiallyRedundant i).1 hi).1.lt

omit [Decompositions α] in
theorem length_basis_le (rows more : List (ℕ × Vec α)) :
    (spanOf rows).basis.length ≤ (spanOf (rows ++ more)).basis.length := by
  induction more using List.reverseRecOn with
  | nil => rw [List.append_nil]
  | append_singleton more r ih =>
      rw [← List.append_assoc, spanOf_concat, take]
      split
      · rw [List.length_append]
        exact Nat.le_add_right_of_le ih
      · exact ih

/-- Groups that come later can only take freedom away. -/
theorem freedom_append_le (width : ℕ) (groups more : List (RowGroup α)) :
    (diagnose width tolerance (groups ++ more)).freedom ≤
      (diagnose width tolerance groups).freedom := by
  have hle : (visited tolerance groups).1.basis.length ≤
      (visited tolerance (groups ++ more)).1.basis.length := by
    rw [visited_span, visited_span, labelled, labelled, List.zipIdx_append, List.flatMap_append]
    exact length_basis_le ..
  change Int.ofNat width - Int.ofNat _ ≤ Int.ofNat width - Int.ofNat _
  exact Int.sub_le_sub_left (Int.ofNat_le.2 hle) _

end

/-- Counts that fit the machine's integers are subtracted there as they should be. -/
theorem toInt_sub_ofNat {a b : ℕ} (hle : b ≤ a) (ha : a < 2 ^ 31) :
    (Int32.ofNat a - Int32.ofNat b).toInt = a - b := by
  rw [Int32.toInt_sub, Int32.toInt_ofNat_of_lt ha, Int32.toInt_ofNat_of_lt (hle.trans_lt ha)]
  apply Int.bmod_eq_of_le <;> omega

section

variable [Decompositions ℝ] {groups : List (RowGroup ℝ)} (tolerance : ℝ)

omit [Decompositions ℝ] in
theorem length_labelled (h : ∀ g ∈ groups, ∀ r ∈ g.rows, r.1.length = n) :
    ∀ r ∈ labelled groups, r.2.length = n := by
  intro r hr
  obtain ⟨⟨g, i⟩, hg, hrow⟩ := List.mem_flatMap.1 hr
  obtain ⟨r', hr', rfl⟩ := List.mem_map.1 hrow
  exact h g (List.fst_mem_of_mem_zipIdx hg) r' hr'

theorem sound_visited (h : ∀ g ∈ groups, ∀ r ∈ g.rows, r.1.length = n) :
    (visited tolerance groups).1.Sound n := by
  rw [visited_span]
  exact sound_spanOf (length_labelled h)

theorem sound_reached {before after : List (RowGroup ℝ)} {g : RowGroup ℝ} {own rest : List (Vec ℝ)}
    (h : ∀ g' ∈ before ++ g :: after, ∀ r ∈ g'.rows, r.1.length = n)
    (hrows : g.rows.map Prod.fst = own ++ row :: rest) :
    (reached tolerance before own).Sound n ∧ row.length = n := by
  rw [List.forall_mem_append, List.forall_mem_cons] at h
  obtain ⟨hbefore, hg, -⟩ := h
  rw [← List.forall_mem_map (f := Prod.fst) (P := fun row : Vec ℝ => row.length = n), hrows,
    List.forall_mem_append, List.forall_mem_cons] at hg
  refine ⟨?_, hg.2.1⟩
  rw [reached_eq]
  apply sound_spanOf
  rw [List.forall_mem_append, List.forall_mem_map]
  exact ⟨length_labelled hbefore, hg.1⟩

/-- A row is accepted when it is reached, or left out and close to those that are accepted. -/
theorem reached_row {before after : List (RowGroup ℝ)} {g : RowGroup ℝ} {own rest : List (Vec ℝ)}
    (h : ∀ g' ∈ before ++ g :: after, ∀ r ∈ g'.rows, r.1.length = n)
    (hrows : g.rows.map Prod.fst = own ++ row :: rest) :
    let t := reached tolerance before own
    let t' := reached tolerance before (own ++ [row])
    if isIndependent row (reduce t.basis row) then t'.rows = t.rows ++ [row]
    else t' = t ∧ Metric.infDist (row.inSpace n) (hull n t.rows) ≤
      1 / 10 ^ 8 * max ‖row.inSpace n‖ 1 := by
  intro t t'
  have ht' : t' = take t (before.length, row) := reached_concat ..
  rw [take] at ht'
  split
  · next hfree =>
      rw [hfree, if_pos rfl] at ht'
      simp [ht', Span.rows]
  · next hdependent =>
      obtain ⟨ht, hrow⟩ := sound_reached tolerance h hrows
      rw [Bool.not_eq_true] at hdependent
      rw [hdependent] at ht'
      exact ⟨ht', ht.infDist_le hrow hdependent⟩

/-- The basis that a diagnosis works with is orthonormal and spans just the rows that are accepted,
which are independent. A row that is not accepted when it is reached is as close to the span of
those before it as the tolerance says. So the freedom is what the accepted rows leave of the width,
which the machine's integers hold for any width that they hold, and groups that come later neither
add to it nor change what is found redundant before. -/
theorem basis_sound (width : ℕ) (h : ∀ g ∈ groups, ∀ r ∈ g.rows, r.1.length = width) :
    let s := (visited tolerance groups).1
    let d := diagnose width tolerance groups
    (Orthonormal ℝ (points width s.basis) ∧ hull width s.basis = hull width s.rows ∧
      LinearIndependent ℝ (points width s.rows)) ∧
    (∀ before g after, groups = before ++ g :: after →
      ∀ own row rest, g.rows.map Prod.fst = own ++ row :: rest →
        let t := reached tolerance before own
        let t' := reached tolerance before (own ++ [row])
        if isIndependent row (reduce t.basis row) then t'.rows = t.rows ++ [row]
        else t' = t ∧ Metric.infDist (row.inSpace width) (hull width t.rows) ≤
          1 / 10 ^ 8 * max ‖row.inSpace width‖ 1) ∧
    ((d.freedom = width - s.rows.length ∧ 0 ≤ d.freedom ∧ d.freedom ≤ width) ∧
      (width < 2 ^ 31 →
        (Int32.ofNat width - Int32.ofNat s.basis.length).toInt = d.freedom)) ∧
    ∀ more,
      let d' := diagnose width tolerance (groups ++ more)
      let v := (visited tolerance groups).2
      let v' := (visited tolerance (groups ++ more)).2
      d'.freedom ≤ d.freedom ∧
      (Extended groups.length v.redundant v'.redundant ∧
        Extended groups.length v.partiallyRedundant v'.partiallyRedundant) ∧
      Kept more d.redundant d'.redundant ∧
      Kept more d.partiallyRedundant d'.partiallyRedundant := by
  intro s d
  have hsound : s.Sound width := sound_visited tolerance h
  have hfreedom : d.freedom = width - s.rows.length := by
    rw [← hsound.count]
    rfl
  have hcount := hsound.count_le
  rw [hsound.count] at hcount
  refine ⟨⟨hsound.orthonormal, hsound.hull_eq, hsound.linearIndependent⟩, ?_, ?_, ?_⟩
  · rintro before g after rfl own row rest hrows
    exact reached_row tolerance h hrows
  · constructor
    · rw [hfreedom]
      omega
    · intro hwidth
      rw [hfreedom, ← hsound.count]
      exact toInt_sub_ofNat (hsound.count ▸ hcount) hwidth
  · intro more d' v v'
    exact ⟨freedom_append_le tolerance width groups more, extended_visited tolerance groups more,
      kept_diagnose tolerance width groups more⟩

end

/-! A row is accepted once; a multiple of it depends on it, whoever owns it. -/

theorem norm_unit : Vec.norm ([1, 0] : Vec ℝ) = 1 := by
  change Real.sqrt _ = 1
  norm_num [Vec.normSq, Vec.dot, Vec.sum_eq]

theorem isIndependent_multiple (c : ℝ) :
    isIndependent [c, 0] (reduce [[1, 0]] ([c, 0] : Vec ℝ)) = false := by
  have hnothing : Vec.norm ([0, 0] : Vec ℝ) = 0 := by
    change Real.sqrt _ = 0
    norm_num [Vec.normSq, Vec.dot, Vec.sum_eq]
  have hleft : reduce [[1, 0]] ([c, 0] : Vec ℝ) = [0, 0] := by
    norm_num [reduce, Vec.sub, Vec.scale, Vec.dot, Vec.sum_eq]
  rw [hleft, isIndependent, hnothing, larger_eq, decide_eq_false_iff_not, not_lt, rankTolerance,
    ExactScalar.decimal_fraction]
  exact mul_nonneg (by positivity) (le_max_of_le_left (Real.sqrt_nonneg _))

theorem spanOf_unit (i : ℕ) : spanOf [(i, ([1, 0] : Vec ℝ))] = ⟨[[1, 0]], [(i, [1, 0])]⟩ := by
  norm_num [spanOf, take, reduce, isIndependent, direction, norm_unit, larger_eq, rankTolerance]

theorem spanOf_multiple (i j : ℕ) (c : ℝ) :
    spanOf [(i, ([1, 0] : Vec ℝ)), (j, [c, 0])] = ⟨[[1, 0]], [(i, [1, 0])]⟩ := by
  change take (spanOf [(i, [1, 0])]) (j, [c, 0]) = _
  rw [spanOf_unit, take, isIndependent_multiple]
  rfl

theorem basis_of_multiples :
    let groups : List (RowGroup ℝ) := [⟨7, [([1, 0], 0)]⟩, ⟨8, [([2, 0], 0)]⟩]
    (∀ g ∈ groups, ∀ r ∈ g.rows, r.1.length = 2) ∧
    (diagnose 2 0 groups).freedom = 1 ∧
    Metric.infDist (Vec.inSpace 2 [2, 0]) (hull 2 [[1, 0]]) ≤
      1 / 10 ^ 8 * max ‖Vec.inSpace 2 [2, 0]‖ 1 := by
  intro groups
  have hlength : ∀ g ∈ groups, ∀ r ∈ g.rows, r.1.length = 2 := by simp [groups]
  obtain ⟨-, hrow, ⟨⟨hfreedom, -⟩, -⟩, -⟩ := basis_sound 0 2 hlength
  refine ⟨hlength, ?_, ?_⟩
  · rw [hfreedom, visited_span]
    change (2 : ℤ) - (spanOf [(0, [1, 0]), (1, [2, 0])]).rows.length = 1
    rw [spanOf_multiple]
    rfl
  · have hclose := hrow [groups[0]] groups[1] [] rfl [] [2, 0] [] rfl
    have hreached : reached (0 : ℝ) [groups[0]] [] = ⟨[[1, 0]], [(0, ([1, 0] : Vec ℝ))]⟩ := by
      rw [reached_eq]
      exact spanOf_unit 0
    simp only [hreached, isIndependent_multiple] at hclose
    exact hclose.2

end Diagnosis

/-- What a solver reports as freedom is between none and the number of its unknowns. -/
theorem LeastSquares.freedom_bounds [Decompositions ℝ] (s : LeastSquares ℝ) (x : Vec ℝ) :
    0 ≤ (s.diagnose x).freedom ∧ (s.diagnose x).freedom ≤ x.length := by
  have hcount := (Diagnosis.sound_visited s.rowTolerance (s.length_row_groupsAt x)).count_le
  rw [s.diagnose_eq, s.width_jacobian]
  change 0 ≤ (x.length : ℤ) - _ ∧ (x.length : ℤ) - _ ≤ x.length
  constructor
  · exact Int.sub_nonneg_of_le (Int.ofNat_le.2 hcount)
  · exact Int.sub_le_self _ (Int.natCast_nonneg _)

end PlanarSketch

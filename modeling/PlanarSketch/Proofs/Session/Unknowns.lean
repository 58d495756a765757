import PlanarSketch.Proofs.Session.Run

/-!
What a solve may move. The unknowns are the scalars of the geometry that is not fixed, whatever
calls came before, and a scalar that exists never changes sides.
-/

namespace PlanarSketch

open LeastSquares Relation

variable {α : Type}

/-- Addresses of the scalars that a geometry owns. -/
def Allocator.own (al : Allocator) (g : Geometry α) : List Address :=
  match al.blocks.find? g.id with
  | some base => List.range' base g.geometryClass.ownCount
  | none => []

namespace Session

variable {s t u : Session (LeastSquares α) α}

theorem mem_own {al : Allocator} {g : Geometry α} {a : Nat} :
    a ∈ al.own g ↔ ∃ base : Nat, al.blocks.find? g.id = some base ∧ base ≤ a ∧
      a < base + g.geometryClass.ownCount := by
  unfold Allocator.own
  cases al.blocks.find? g.id with
  | none => simp
  | some base => simp [List.mem_range'_1]

theorem Anchored.exists_owns (h : Anchored s) {a : Nat} :
    (∃ o, s.Owns o a ∧ o.fixed = false) ↔
      ∃ g ∈ s.index.geometries, g.shape.fixed = false ∧ a ∈ s.allocator.own g := by
  constructor
  · rintro ⟨o, ⟨ho, hblock⟩, hfixed⟩
    obtain ⟨g, hg, rfl⟩ := Option.map_eq_some_iff.1 ho
    exact ⟨g, Index.mem_geometries.2 ⟨_, Index.geometryAt?_eq_some.1 hg⟩, hfixed, mem_own.2 hblock⟩
  · rintro ⟨g, hg, hfixed, ha⟩
    obtain ⟨id, hid⟩ := Index.mem_geometries.1 hg
    have ho : s.index.outline? g.outline.id = some g.outline := by
      rw [show g.outline.id = id from h.key hid]
      exact Index.outline?_of_get? hid
    exact ⟨g.outline, ⟨ho, mem_own.1 ha⟩, hfixed⟩

/-- The scalars of `s` are still there in `t` and belong to the same geometry. -/
structure Retains (s t : Session (LeastSquares α) α) : Prop where
  size : s.solver.size ≤ t.solver.size
  owns : ∀ {o} {a : Nat}, a < s.solver.size → (t.Owns o a ↔ s.Owns o a)

theorem Retains.refl (s : Session (LeastSquares α) α) : Retains s s :=
  ⟨Nat.le_refl _, fun _ => .rfl⟩

theorem Retains.trans (h : Retains s t) (h' : Retains t u) : Retains s u where
  size := Nat.le_trans h.size h'.size
  owns := fun ha => (h'.owns (Nat.lt_of_lt_of_le ha h.size)).trans (h.owns ha)

theorem Step.retains (h : Step s t) : Retains s t := by
  cases h with
  | append geometries blocks _ solver =>
      obtain ⟨_, _, hgrown, -⟩ := solver.grown
      refine ⟨?_, fun _ => owns_congr (outline?_congr geometries) blocks⟩
      rw [hgrown.size]
      omega
  | place fresh points geometries blocks names grown =>
      refine ⟨?_, ?_⟩
      · rw [grown.size]
        omega
      · intro o a ha
        rw [owns_place fresh geometries blocks]
        constructor
        · rintro (ho | ⟨-, hge, -⟩)
          · exact ho
          · omega
        · exact .inl
  | forget tag geometries allocator solver =>
      refine ⟨?_, fun _ => owns_congr (outline?_congr geometries) (by rw [allocator])⟩
      exact Nat.le_of_eq (by rw [solver, size_clearTag])
  | assign geometries allocator _ cells _ =>
      refine ⟨?_, fun _ => owns_congr (outline?_congr geometries) (by rw [allocator])⟩
      exact Nat.le_of_eq (by
        rw [LeastSquares.size, LeastSquares.size, cells, Array.size_setIfInBounds])
  | keep geometries allocator cells _ =>
      refine ⟨?_, fun _ => owns_congr (outline?_congr geometries) (by rw [allocator])⟩
      exact Nat.le_of_eq (by rw [LeastSquares.size, LeastSquares.size, cells])

theorem Retains.steps (h : ReflTransGen Step s t) : Retains s t := by
  induction h with
  | refl => exact .refl s
  | tail _ hstep ih => exact ih.trans hstep.retains

theorem Applied.retains (h : Applied s t) : Retains s t :=
  ⟨Nat.le_of_eq h.size.symm, fun _ => owns_congr h.outlines (by rw [h.allocator])⟩

theorem Sound.retains_unknowns (hs : Sound s) (ht : Sound t) (h : Retains s t) {a : Nat}
    (ha : a < s.solver.size) : a ∈ t.solver.unknowns ↔ a ∈ s.solver.unknowns := by
  simp only [hs.mem_unknowns, ht.mem_unknowns, h.owns ha]

/-- Scalars that come in with a constraint, whether it is taken or refused, are not unknowns. -/
theorem Sound.not_unknown_of_same (hs : Sound s) (hu : Sound u)
    (hg : u.index.geometryAt? = s.index.geometryAt?) (hal : u.allocator = s.allocator) {a : Nat}
    (ha : s.solver.size ≤ a) : a ∉ u.solver.unknowns := by
  rw [hu.mem_unknowns]
  rintro ⟨o, ho, -⟩
  rw [owns_congr (outline?_congr hg) (by rw [hal])] at ho
  have := ho.lt hs.toAnchored
  omega

variable [Scalar α] [Decompositions α]

theorem Later.retains (hs : Sound s) (h : Later s t) : Sound t ∧ Retains s t := by
  induction h with
  | refl => exact ⟨hs, .refl s⟩
  | perform _ r hr ih =>
      rcases perform_cases ih.1 r with hsteps | ⟨-, -, happlied⟩ | hclear
      · exact ⟨ih.1.steps hsteps, ih.2.trans (.steps hsteps)⟩
      · exact ⟨ih.1.applied happlied, ih.2.trans happlied.retains⟩
      · exact absurd hclear hr

/-- A scalar that exists never changes sides. -/
theorem Later.mem_unknowns (hs : Sound s) (h : Later s t) {a : Nat} (ha : a < s.solver.size) :
    a ∈ t.solver.unknowns ↔ a ∈ s.solver.unknowns :=
  hs.retains_unknowns (h.retains hs).1 (h.retains hs).2 ha

/-- The unknowns of a solve are the scalars of the geometry that is not fixed. The scalar of a
name, or one that came in with a constraint, is not among them and never will be, whatever becomes
of the constraint. -/
theorem Reachable.unknowns_iff_free_scalar (h : Reachable s) :
    (∀ a, a ∈ s.solver.unknowns ↔
      ∃ g ∈ s.index.geometries, g.shape.fixed = false ∧ a ∈ s.allocator.own g) ∧
    (∀ t, Later s t → ∀ n a, s.allocator.names.find? n = some a → a ∉ t.solver.unknowns) ∧
    (∀ t, Later s t → ∀ e ∈ s.solver.entries, ∀ a ∈ e.datums, a ∉ t.solver.unknowns) ∧
    ∀ c : Constraint α, ∀ u ∈ [(s.push (.constraint c)).2, (s.pushExtra c).2],
      ∀ t, Later u t → ∀ a, s.solver.size ≤ a → a < u.solver.size → a ∉ t.solver.unknowns := by
  have hs := h.sound
  refine ⟨?_, ?_, ?_, ?_⟩
  · intro a
    rw [hs.mem_unknowns, hs.toAnchored.exists_owns]
  · intro t ht n a hn
    obtain ⟨hfixed, hno⟩ := hs.named hn
    have ha : a < s.solver.size := fixed?_isSome.1 (by rw [hfixed]; rfl)
    rw [ht.mem_unknowns hs ha, hs.mem_unknowns]
    rintro ⟨o, ho, -⟩
    exact hno o ho
  · intro t ht e he a hdatum
    obtain ⟨ha, hno⟩ := hs.datums he hdatum
    rw [ht.mem_unknowns hs ha, hs.mem_unknowns]
    rintro ⟨o, ho, -⟩
    exact hno o ho
  · -- neither call touches the geometry, so no scalar from the old size on has an owner
    intro c u hu t ht a hge hlt
    have hsame : Sound u ∧ u.index.geometryAt? = s.index.geometryAt? ∧
        u.allocator = s.allocator := by
      rcases List.mem_pair.1 hu with rfl | rfl
      · exact ⟨hs.step (step_push hs.toAnchored _), push_constraint_same s c⟩
      · obtain ⟨hindex, hal⟩ := pushExtra_same s c
        exact ⟨hs.step (step_pushExtra s c), by rw [hindex], hal⟩
    obtain ⟨hu', hg, hal⟩ := hsame
    rw [ht.mem_unknowns hu' hlt]
    exact hs.not_unknown_of_same hu' hg hal hge

theorem unknowns_smallSession :
    (∃ g ∈ smallSession.index.geometries, g.shape.fixed = false ∧
      1 ∈ smallSession.allocator.own g) ∧
    smallSession.allocator.names.find? "width" = some 4 ∧
    1 ∈ smallSession.solver.unknowns ∧
    4 ∉ (smallSession.perform (.setName "width" 5.0)).solver.unknowns := by
  have h := reachable_smallSession
  have hfree : ∃ g ∈ smallSession.index.geometries, g.shape.fixed = false ∧
      1 ∈ smallSession.allocator.own g := by
    refine ⟨⟨⟨1⟩, .point 1.0 2.0 false⟩, ?_, rfl, by decide⟩
    rw [geometries_smallSession]
    exact List.mem_cons_self
  have hname : smallSession.allocator.names.find? "width" = some 4 := rfl
  refine ⟨hfree, hname, ?_, ?_⟩
  · exact (h.unknowns_iff_free_scalar.1 1).2 hfree
  · exact h.unknowns_iff_free_scalar.2.1 _ (.perform .refl (.setName "width" 5.0) nofun) _ _ hname

end Session

end PlanarSketch

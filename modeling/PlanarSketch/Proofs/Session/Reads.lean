import PlanarSketch.Proofs.Session.Leftover
import PlanarSketch.Proofs.Session.Refusal
import PlanarSketch.Proofs.Session.Unknowns

/-!
What the driving constraints read. In a session that is built on points a reference leads to a
scalar of some geometry, a name to one that is fixed, and a driving constraint brings no others but
fixed ones of its own. So nothing that is only measured ever enters a driving constraint, and the
radii that are checked are those of geometry as well.
-/

namespace PlanarSketch

open LeastSquares

variable {α : Type}

/-- The scalars that a resolved parameter stands for, as far as they were there before. -/
def Resolved.addresses : Resolved α → List Address
  | .record r => r.addresses
  | .ready (.param a) => [a]
  | .literal _ | .ready _ => []

namespace Constraint

variable [Scalar α] {x : Index α} {al : Allocator} {c : Constraint α} {tag : Int}
  {s t : LeastSquares α} {b : Nat}

/-- An argument mentions what its parameter stands for, unless it is a datum. -/
theorem mem_addresses_of_mentions {pl : Placement (LeastSquares α)} {p : ParamSpec} {a : Arg α}
    (ha : c.Supplies x al tag pl p a) (hb : pl.solver.scope.Mentions b a) :
    a = .datum b ∨ ∃ r, c.resolve x al tag p = .ok r ∧ b ∈ r.addresses := by
  obtain ⟨r, hr, hfits⟩ := ha
  cases hb with
  | datum _ => exact .inl rfl
  | param _ =>
      cases r with
      | literal v | record q => exact False.elim hfits
      | ready a =>
          obtain rfl : Arg.param b = a := hfits
          exact .inr ⟨_, hr, List.mem_singleton_self b⟩
  | geometry hrecord hmem =>
      cases r with
      | literal v => exact False.elim hfits
      | record q =>
          cases hrecord.symm.trans hfits.2
          exact .inr ⟨_, hr, hmem⟩
      | ready a =>
          -- no parameter resolves to a handle
          obtain rfl : Arg.geometry _ = a := hfits
          cases resolves_of_ok hr

variable [Decompositions α]

/-- The entry of a constraint reads its own datums and what its parameters stand for. -/
theorem push_reads {outputs : Outputs} {e : Entry α}
    (h : c.push x al s tag = (.ok outputs, t)) (he : t.entries = s.entries ++ [e])
    (hb : b ∈ e.equation.addresses) :
    b ∈ e.datums ∨ ∃ p ∈ c.kind.schema, ∃ r, c.resolve x al tag p = .ok r ∧ b ∈ r.addresses := by
  obtain ⟨literals, pl, hcont, hrest⟩ := c.push_cases x al s tag
  rcases hrest with ⟨e', hpush, -⟩ | ⟨rs, as, hrs, has, -, -, ⟨e', hpush, -⟩ | ⟨e', hpush, hcall⟩⟩
  · cases h.symm.trans hpush
  · cases h.symm.trans hpush
  · obtain ⟨-, rfl⟩ := Prod.ext_iff.1 (h.symm.trans hpush)
    have hentries : pl.solver.entries = s.entries := by
      rw [hcont.grown.entries, List.append_nil]
    rw [hentries] at he
    obtain rfl : e' = e := by simpa using he
    obtain ⟨hreads, -⟩ := Entry.ofCall_ok hcall
    obtain ⟨-, os, -, hos⟩ := Entry.ofCall_eq_ok hcall
    obtain ⟨-, hdatums⟩ := Entry.ofOperands?_eq_some hos
    obtain ⟨a, ha, hmentions⟩ := hreads b hb
    rcases List.mem_append.1 ha with ha' | ha'
    · have hsupplied : ∃ p ∈ c.kind.schema, c.Supplies x al tag pl p a :=
        forall₂_right (forall₂_comp hrs has)
          (Q := fun a => ∃ p ∈ c.kind.schema, c.Supplies x al tag pl p a)
          (fun p a hp hpa => ⟨p, hp, hpa⟩) a ha'
      obtain ⟨p, hp, hpa⟩ := hsupplied
      rcases mem_addresses_of_mentions hpa hmentions with rfl | hresolved
      · left
        rw [hdatums]
        exact List.mem_filterMap.2 ⟨_, ha, rfl⟩
      · exact .inr ⟨p, hp, hresolved⟩
    · obtain rfl := List.mem_singleton.1 ha'
      cases hmentions

/-- A push changes the radii only where a parameter stands for a record. -/
theorem push_radii_preserves {P : List Address → Prop} (start : P s.radii)
    (record : ∀ radii p r, p ∈ c.kind.schema → c.resolve x al tag p = .ok (.record r) →
      P radii → P (addRadius radii r)) : P (c.push x al s tag).2.radii := by
  have hplace : ∀ (pl : Placement (LeastSquares α)) p r, p ∈ c.kind.schema →
      c.resolve x al tag p = .ok r → P pl.solver.radii →
        P (pl.place c.isDriving p.name r).2.solver.radii := by
    intro pl p r hp hr hpl
    cases r with
    | ready a => exact hpl
    | literal v =>
        change P (Allocator.pushPrivate pl.solver [v] c.isDriving).radii
        rw [Placement.pushPrivate_eq]
        exact hpl
    | record q =>
        rcases make_cases pl.solver q with ⟨a, -, -, hmake⟩ | ⟨-, hmake⟩ <;>
          rw [Placement.place, hmake]
        · exact hpl
        · exact record _ p q hp hr hpl
  have hcall : ∀ (pl : Placement (LeastSquares α)) args, P pl.solver.radii →
      P (pl.call c args).2.solver.radii := by
    intro pl args hpl
    cases hcall : Entry.ofCall pl.solver.scope ⟨c.kind, args ++ [.scale c.scaleOrDefault]⟩ with
    | error e =>
        rw [Placement.call_error hcall]
        exact hpl
    | ok entry =>
        rw [Placement.call_ok hcall]
        exact hpl
  have hpin : ∀ pl : Placement (LeastSquares α), P pl.solver.radii → P pl.pinAll.solver.radii := by
    intro pl hpl
    rw [Placement.pinAll_solver]
    exact hpl
  obtain ⟨pl, hpl, hpush⟩ := push_preserves (P := fun pl => P pl.solver.radii) start hplace hcall hpin
  rw [hpush, Placement.close_eq]
  exact hpl

/-- The radii that a push adds are those of records that its parameters stand for. -/
theorem push_radii : ∀ b ∈ (c.push x al s tag).2.radii, b ∈ s.radii ∨
    ∃ p ∈ c.kind.schema, ∃ r, c.resolve x al tag p = .ok (.record r) ∧ b ∈ r.addresses := by
  refine push_radii_preserves (P := fun radii => ∀ b ∈ radii, b ∈ s.radii ∨
    ∃ p ∈ c.kind.schema, ∃ r, c.resolve x al tag p = .ok (.record r) ∧ b ∈ r.addresses)
    (fun b hb => .inl hb) ?_
  intro radii p r hp hr hold b hb
  rcases mem_addRadius hb with hb | hb
  · exact hold b hb
  · exact .inr ⟨p, hp, r, hr, mem_addresses_of_radius? hb⟩

theorem subset_push_radii : s.radii ⊆ (c.push x al s tag).2.radii :=
  push_radii_preserves (P := fun radii => s.radii ⊆ radii) (List.Subset.refl _)
    fun radii _ r _ _ hold => List.Subset.trans hold (subset_addRadius radii r)

end Constraint

namespace Session

variable {s t : Session (LeastSquares α) α} {a : Nat}

/-- No measurement is ever written to the scalar. -/
def Steady (s : Session (LeastSquares α) α) (a : Nat) : Prop :=
  s.solver.fixed? a = some true ∨ ∃ o, s.Owns o a

theorem Sound.lt_of_steady (hs : Sound s) (h : s.Steady a) : a < s.solver.size := by
  rcases h with hfixed | ⟨o, ho⟩
  · exact fixed?_isSome.1 (by rw [hfixed]; rfl)
  · exact ho.lt hs.toAnchored

theorem Sound.not_measured_of_owns (hs : Sound s) {o : Outline} (ho : s.Owns o a) :
    a ∉ s.solver.measured := by
  intro hmem
  obtain ⟨e, he, -, ha⟩ := mem_measured.1 hmem
  exact (hs.datums he ha).2 o ho

theorem Sound.not_mem_outputs (hs : Sound s) (h : s.Steady a) : a ∉ s.solver.outputs := by
  rw [LeastSquares.mem_outputs]
  rintro ⟨hfree, hmeasured⟩
  rcases h with hfixed | ⟨o, ho⟩
  · cases hfixed.symm.trans hfree
  · exact hs.not_measured_of_owns ho hmeasured

/-! ### Steps -/

theorem Step.outline_old (h : Step s t) {id : Oid} {o : Outline}
    (ho : s.index.outline? id = some o) : t.index.outline? id = some o := by
  cases h with
  | place fresh _ geometries _ _ _ => exact (outline?_place_old fresh geometries ho).1
  | append geometries _ _ _ => rw [outline?_congr geometries, ho]
  | forget _ geometries _ _ => rw [outline?_congr geometries, ho]
  | assign geometries _ _ _ _ => rw [outline?_congr geometries, ho]
  | keep geometries _ _ _ => rw [outline?_congr geometries, ho]

/-- Geometry that is not built on points stays where it is. -/
theorem Step.builtOnPoints_old (hs : Anchored s) (h : Step s t) (hb : t.index.BuiltOnPoints) :
    s.index.BuiltOnPoints := by
  rw [Index.builtOnPoints_iff] at hb ⊢
  intro id o ho p hp
  obtain ⟨o', ho', hclass⟩ := Index.isPoint_iff.1 (hb id o (h.outline_old ho) p hp)
  -- the point was there already, for it had its block
  obtain ⟨base, hbase⟩ := Allocator.has_iff.1 (hs.grounded ho hp)
  obtain ⟨q, hq, -⟩ := hs.held hbase
  obtain rfl : o' = q := Option.some.inj (ho'.symm.trans (h.outline_old hq))
  exact Index.isPoint_iff.2 ⟨o', hq, hclass⟩

theorem Step.fixed_old (h : Step s t) (ha : s.solver.fixed? a = some true) :
    t.solver.fixed? a = some true := by
  have hlt : a < s.solver.cells.size := fixed?_isSome.1 (by rw [ha]; rfl)
  cases h with
  | append _ _ _ solver =>
      obtain ⟨_, _, hgrown, -⟩ := solver.grown
      rw [hgrown.fixed?_old hlt, ha]
  | place _ _ _ _ _ grown => rw [grown.fixed?_old hlt, ha]
  | forget _ _ _ solver =>
      rw [solver]
      exact fixed?_clearTag_eq_true ha
  | @assign n b v _ _ _ cells _ =>
      rw [fixed?, cells, Array.getElem?_setIfInBounds]
      by_cases hb : b = a
      · subst hb
        rw [if_pos rfl, if_pos hlt]
        rfl
      · rw [if_neg hb]
        exact ha
  | keep _ _ cells _ =>
      rw [fixed?, cells]
      exact ha

theorem Step.owned_old (hs : Anchored s) (h : Step s t) (ha : ∃ o, s.Owns o a) :
    ∃ o, t.Owns o a := by
  obtain ⟨o, ho⟩ := ha
  exact ⟨o, (h.retains.owns (ho.lt hs)).2 ho⟩

theorem Step.steady_old (hs : Anchored s) (h : Step s t) (ha : s.Steady a) : t.Steady a :=
  ha.imp h.fixed_old (h.owned_old hs)

/-- Driving constraints read what no measurement is written to, and all radii are those of
geometry. -/
structure Wired (s : Session (LeastSquares α) α) : Prop where
  reads : ∀ {e} {a : Nat}, e ∈ s.solver.entries → e.driving = true → a ∈ e.equation.addresses →
    s.Steady a
  radii : ∀ {a : Nat}, a ∈ s.solver.radii → ∃ o, s.Owns o a

theorem Wired.keep (h : Wired s) (hs : Anchored s) (ht : Step s t)
    (radii : t.solver.radii = s.solver.radii) (entries : t.solver.entries ⊆ s.solver.entries) :
    Wired t where
  reads := fun he hdriving ha => ht.steady_old hs (h.reads (entries he) hdriving ha)
  radii := by
    rw [radii]
    exact fun ha => ht.owned_old hs (h.radii ha)

/-! ### Constraints -/

variable [Scalar α]

theorem Sound.owned_of_resolve (hs : Sound s) (hb : s.index.BuiltOnPoints) {c : Constraint α}
    {tag : Int} {p : ParamSpec} {r : Record}
    (hr : c.resolve s.index s.allocator tag p = .ok (.record r)) (ha : a ∈ r.addresses) :
    ∃ o, s.Owns o a := by
  cases Constraint.resolves_of_ok hr with
  | geometry _ _ _ hg _ hrecord =>
      obtain ⟨q, hq, -, howned⟩ := hs.toAnchored.record_ok hb hg
      cases hrecord.symm.trans hq
      exact howned a ha

theorem Sound.steady_of_resolve (hs : Sound s) (hb : s.index.BuiltOnPoints) {c : Constraint α}
    {tag : Int} {p : ParamSpec} {r : Resolved α}
    (hr : c.resolve s.index s.allocator tag p = .ok r) (ha : a ∈ r.addresses) : s.Steady a := by
  cases Constraint.resolves_of_ok hr with
  | name _ _ hn =>
      obtain rfl := List.mem_singleton.1 ha
      exact .inl (hs.named hn).1
  | ref _ _ hg hi hbase =>
      obtain rfl := List.mem_singleton.1 ha
      rw [hs.toAnchored.key hg] at hbase
      exact .inr ⟨_, hs.toAnchored.owns_offset hg hbase (GeometryClass.offset?_lt hi)⟩
  | geometry _ _ _ _ _ _ => exact .inr (hs.owned_of_resolve hb hr ha)
  | tag | driving | alignment | literal | truth | number | flag => cases ha

variable [Decompositions α]

theorem Wiring.subset_radii (h : Wiring s t) : s.solver.radii ⊆ t.solver.radii := by
  cases h with
  | keep _ radii _ =>
      rw [radii]
      exact List.Subset.refl _
  | push c tag _ _ solver =>
      rw [solver]
      exact Constraint.subset_push_radii

namespace Wired

/-- What a driving constraint brings itself is fixed from the start. -/
theorem push (h : Wired s) (hs : Sound s) (hb : s.index.BuiltOnPoints) (ht : Step s t)
    (c : Constraint α) (tag : Int)
    (solver : t.solver = (c.push s.index s.allocator s.solver tag).2) : Wired t where
  reads := by
    intro e a he hdriving ha
    rcases hpush : c.push s.index s.allocator s.solver tag with ⟨e' | outputs, u⟩
    · obtain ⟨vs, hgrown⟩ := Constraint.push_error hpush
      rw [solver, hpush, hgrown.entries, List.append_nil] at he
      exact ht.steady_old hs.toAnchored (h.reads he hdriving ha)
    · obtain ⟨e', henters⟩ := Constraint.push_ok hpush
      obtain ⟨vs, hgrown, hdatums⟩ := henters.grown
      have hsolver : t.solver = u := by rw [solver, hpush]
      rw [hsolver, hgrown.entries] at he
      rcases List.mem_append.1 he with he | he
      · exact ht.steady_old hs.toAnchored (h.reads he hdriving ha)
      · obtain rfl := List.mem_singleton.1 he
        rcases Constraint.push_reads hpush hgrown.entries ha with hown | ⟨p, -, r, hr, har⟩
        · rw [hdatums, List.mem_range'_1] at hown
          rw [← henters.stores.driving, hdriving] at hgrown
          have hlt := hgrown.size
          rw [List.length_map] at hlt
          left
          rw [hsolver]
          exact hgrown.fixed?_new (f := fun v => v) hown.1 (by omega)
        · exact ht.steady_old hs.toAnchored (hs.steady_of_resolve hb hr har)
  radii := by
    intro a ha
    rw [solver] at ha
    rcases Constraint.push_radii a ha with ha | ⟨p, -, r, hr, har⟩
    · exact ht.owned_old hs.toAnchored (h.radii ha)
    · exact ht.owned_old hs.toAnchored (hs.owned_of_resolve hb hr har)

theorem act (h : Wired s) (hs : Sound s) (hb : s.index.BuiltOnPoints) (hact : Act s t) :
    Wired t := by
  cases hact.wiring with
  | keep _ radii entries => exact h.keep hs.toAnchored hact.step radii entries
  | push c tag _ _ solver => exact h.push hs hb hact.step c tag solver

theorem apply (h : Wired s) (hphase : s.phase = .solved) : Wired s.applySolution.2 := by
  have happlied := applied_applySolution s
  have hsolver := (applySolution_of_solved hphase).2.2
  have howns : ∀ {a : Nat}, (∃ o, s.Owns o a) → ∃ o, s.applySolution.2.Owns o a := by
    rintro a ⟨o, ho⟩
    exact ⟨o, (owns_congr happlied.outlines (by rw [happlied.allocator])).2 ho⟩
  constructor
  · intro e a he hdriving ha
    rw [happlied.entries] at he
    refine (h.reads he hdriving ha).imp (fun hfixed => ?_) howns
    rw [happlied.fixed, hfixed]
  · intro a ha
    rw [hsolver] at ha
    exact howns (h.radii ha)

end Wired

theorem Reachable.wired (h : Reachable s) (hb : s.index.BuiltOnPoints) : Wired s := by
  refine h.invariant (P := fun s => s.index.BuiltOnPoints → Wired s) ?_ ?_ ?_ hb
  · exact fun _ _ _ => ⟨fun he => absurd he List.not_mem_nil, fun ha => absurd ha List.not_mem_nil⟩
  · intro s t hs ih hact hb
    have hold := hact.step.builtOnPoints_old hs.toAnchored hb
    exact (ih hold).act hs hold hact
  · intro s hs ih hphase hb
    have hold := (Index.builtOnPoints_congr (applied_applySolution s).outlines).1 hb
    exact (ih hold).apply hphase

end Session

end PlanarSketch

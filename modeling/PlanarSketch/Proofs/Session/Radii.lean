import PlanarSketch.Proofs.Session.Blocks
import PlanarSketch.Proofs.Session.Reads

/-!
Which radii the solver looks at after a solve. It remembers the radius of every circle and arc for
which it has ever made a handle, and a handle is made where a constraint names geometry by its id.
So a radius is remembered from the first push that names its circle on, whatever becomes of the
constraint, and a circle that constraints reach in no other way than by a reference to one of its
properties is never looked at.
-/

namespace PlanarSketch

open LeastSquares Relation

variable {α : Type}

theorem GeometryClass.offset?_radius (k : GeometryClass) :
    k.offset? .radius = if k = .circle then some 0 else if k = .arc then some 2 else none := by
  cases k <;> rfl

namespace LeastSquares

theorem mem_addRadius_of_radius? {radii : List Address} {r : Record} {a : Nat}
    (h : radius? r = some a) : a ∈ addRadius radii r := by
  rw [addRadius, h]
  dsimp only
  split
  · next hmem => simpa using hmem
  · exact List.mem_cons_self

end LeastSquares

/-- The radius of a record is the scalar that the shape has as its radius. -/
theorem Shape.radius?_of_mapM {shape : Shape Oid α} {f : Oid → Except SketchError (Vec2 Address)}
    {own : Nat → Except SketchError Address} {r : Record} (h : shape.mapM f own = .ok r) {a : Nat} :
    radius? r = some a ↔ ∃ i, shape.geometryClass.offset? .radius = some i ∧ own i = .ok a := by
  rw [GeometryClass.offset?_radius]
  cases shape <;>
    simp only [Shape.mapM, bind_eq_ok, pure, Except.pure, Except.ok.injEq] at h <;>
    grind [radius?, Shape.geometryClass]

theorem Layout.radius?_of_record {al : Allocator} {g : Geometry α} {r : Record}
    (h : Layout.record al g = .ok r) {a : Nat} :
    radius? r = some a ↔ Layout.propertyAddress al g .radius = .ok a := by
  rw [Shape.radius?_of_mapM h, Constraint.propertyAddress_eq_ok]
  simp only [map_eq_ok, Allocator.address_eq_ok]
  constructor
  · rintro ⟨i, hi, base, hrest⟩
    exact ⟨i, base, hi, hrest⟩
  · rintro ⟨i, base, hi, hrest⟩
    exact ⟨i, hi, base, hrest⟩

/-! ### Constraints -/

namespace Constraint

variable [Scalar α] {x : Index α} {al : Allocator} {c : Constraint α} {tag : Int} {a : Nat}

def handedBy? (c : Constraint α) (p : ParamSpec) : Option Oid :=
  match p.slot, c.param? p.name with
  | .geometry _, some v => v.toOid?
  | _, _ => none

/-- Ids of the geometry that the constraint names as such, and not for one of its properties. -/
def handed (c : Constraint α) : List Oid := c.kind.schema.filterMap c.handedBy?

theorem exists_handed {p : ParamSpec} {r : Record} (hp : p ∈ c.kind.schema)
    (hr : c.resolve x al tag p = .ok (.record r)) :
    ∃ id ∈ c.handed, ∃ g, x.get? id = some (.geometry g) ∧ Layout.record al g = .ok r := by
  cases Constraint.resolves_of_ok hr with
  | @geometry k v id g _ hslot hv hid hg _ hrecord =>
      refine ⟨id, List.mem_filterMap.2 ⟨p, hp, ?_⟩, g, hg, hrecord⟩
      simp only [handedBy?, hslot, hv, hid]

theorem record_of_handed {id : Oid} (hid : id ∈ c.handed)
    (hall : ∀ p ∈ c.kind.schema, ∃ r, c.resolve x al tag p = .ok r) :
    ∃ p ∈ c.kind.schema, ∃ g r, x.get? id = some (.geometry g) ∧ Layout.record al g = .ok r ∧
      c.resolve x al tag p = .ok (.record r) := by
  obtain ⟨p, hp, hby⟩ := List.mem_filterMap.1 hid
  obtain ⟨q, hq⟩ := hall p hp
  unfold handedBy? at hby
  split at hby
  · next k v hslot hv =>
      cases Constraint.resolves_of_ok hq with
      | @geometry k' v' id' g r hslot' hv' hid' hg _ hrecord =>
          cases hv.symm.trans hv'
          cases hby.symm.trans hid'
          exact ⟨p, hp, g, r, hg, hrecord, hq⟩
      | _ => simp_all
  · cases hby

end Constraint

namespace Placement

variable [Scalar α] [Decompositions α] {x : Index α} {al : Allocator} {c : Constraint α} {tag : Int}
  {a : Nat} {pl pl' : Placement (LeastSquares α)}

theorem radii_place (driving : Bool) (name : String) (r : Resolved α) :
    (pl.place driving name r).2.solver.radii = pl.solver.radii ∨
      ∃ q, r = .record q ∧
        (pl.place driving name r).2.solver.radii = addRadius pl.solver.radii q := by
  cases r with
  | ready b => exact .inl rfl
  | literal v =>
      left
      change (Allocator.pushPrivate pl.solver [v] driving).radii = _
      rw [pushPrivate_eq]
  | record q =>
      rcases make_cases pl.solver q with ⟨b, -, -, hmake⟩ | ⟨-, hmake⟩ <;> rw [place, hmake]
      · exact .inl rfl
      · exact .inr ⟨q, rfl, rfl⟩

theorem subset_radii_place (driving : Bool) (name : String) (r : Resolved α) :
    pl.solver.radii ⊆ (pl.place driving name r).2.solver.radii := by
  rcases pl.radii_place driving name r with hsame | ⟨q, -, hadd⟩
  · rw [hsame]
    exact List.Subset.refl _
  · rw [hadd]
    exact subset_addRadius _ _

theorem mem_radii_place {driving : Bool} {name : String} {r : Record} {b : Arg α}
    (h : pl.place driving name (.record r) = (.ok b, pl')) (ha : radius? r = some a) :
    a ∈ pl'.solver.radii := by
  rcases make_cases pl.solver r with ⟨b, -, -, hmake⟩ | ⟨-, hmake⟩ <;> rw [place, hmake] at h <;>
    cases h
  exact mem_addRadius_of_radius? ha

/-- The radii of all records are remembered when the whole schema has been placed. -/
theorem mem_radii_placeAll {ps : List ParamSpec} {as : List (Arg α)} {p : ParamSpec} {r : Record}
    (h : placeAll x al c tag ps pl = (.ok as, pl')) (hp : p ∈ ps)
    (hr : c.resolve x al tag p = .ok (.record r)) (ha : radius? r = some a) :
    a ∈ pl'.solver.radii := by
  induction ps generalizing pl as with
  | nil => cases hp
  | cons q ps ih =>
      rw [placeAll] at h
      split at h
      · cases h
      · next q' hq =>
          split at h
          · cases h
          · next b pl₁ hplace =>
              split at h
              · cases h
              · next as' pl₂ hrest =>
                  cases h
                  rcases List.mem_cons.1 hp with rfl | hp
                  · cases hr.symm.trans hq
                    have hkept : a ∈ (placeAll x al c tag ps pl₁).2.solver.radii :=
                      placeAll_preserves (P := fun pl => a ∈ pl.solver.radii)
                        (mem_radii_place hplace ha) fun pl q r _ _ hpl =>
                          pl.subset_radii_place c.isDriving q.name r hpl
                    rwa [hrest] at hkept
                  · exact ih hrest hp

end Placement

namespace Constraint

variable [Scalar α] [Decompositions α] {x : Index α} {al : Allocator} {c : Constraint α} {tag : Int}
  {a : Nat} {s t : LeastSquares α}

/-- A radius that a push brings is that of geometry which the constraint names by id. -/
theorem radius_of_push (h : a ∈ (c.push x al s tag).2.radii) :
    a ∈ s.radii ∨ ∃ id ∈ c.handed, ∃ g, x.get? id = some (.geometry g) ∧
      Layout.propertyAddress al g .radius = .ok a := by
  refine push_radii_preserves (P := fun radii => ∀ a ∈ radii, a ∈ s.radii ∨
    ∃ id ∈ c.handed, ∃ g, x.get? id = some (.geometry g) ∧
      Layout.propertyAddress al g .radius = .ok a) (fun a ha => .inl ha) ?_ a h
  intro radii p r hp hr hold a ha
  rcases mem_addRadius ha with ha | ha
  · exact hold a ha
  · obtain ⟨id, hid, g, hg, hrecord⟩ := exists_handed hp hr
    exact .inr ⟨id, hid, g, hg, (Layout.radius?_of_record hrecord).1 ha⟩

/-- A push that goes through brings all of them. -/
theorem mem_radii_push {outputs : Outputs} {id : Oid} {g : Geometry α}
    (h : c.push x al s tag = (.ok outputs, t)) (hid : id ∈ c.handed)
    (hg : x.get? id = some (.geometry g)) (ha : Layout.propertyAddress al g .radius = .ok a) :
    a ∈ t.radii := by
  obtain ⟨literals, pl₀, -, hrest⟩ := c.push_outcome x al s tag
  have hall : ∀ p ∈ c.kind.schema, ∃ r, c.resolve x al tag p = .ok r := by
    rcases hrest with ⟨e, hpush, -⟩ | ⟨hall, -⟩
    · cases h.symm.trans hpush
    · exact hall
  obtain ⟨p, hp, g', r, hg', hrecord, hr⟩ := record_of_handed hid hall
  cases hg.symm.trans hg'
  unfold Constraint.push at h
  split at h
  · cases h
  · next args pl hplaced =>
      have hmem := Placement.mem_radii_placeAll hplaced hp hr
        ((Layout.radius?_of_record hrecord).2 ha)
      split at h
      · cases h
      · next pl' hcall =>
          cases h
          rw [Placement.close_eq]
          cases hentry : Entry.ofCall pl.solver.scope ⟨c.kind, args ++ [.scale c.scaleOrDefault]⟩ with
          | error e => cases hcall.symm.trans (Placement.call_error hentry)
          | ok entry =>
              cases hcall.symm.trans (Placement.call_ok hentry)
              exact hmem

end Constraint

/-! ### Sessions -/

def SketchObject.constraint? : SketchObject α → Option (Constraint α)
  | .param _ => none
  | .primitive p => p.constraint?

/-- The constraints that a call is given. -/
def Request.constraints : Request α → List (Constraint α)
  | .push p => p.constraint?.toList
  | .pushAll ps => ps.filterMap Primitive.constraint?
  | .pushObject o => o.constraint?.toList
  | .pushObjects os => os.filterMap SketchObject.constraint?
  | .pushDocument d => d.primitives.filterMap Primitive.constraint?
  | .pushExtra c => [c]
  | _ => []

namespace Session

variable {s t u : Session (LeastSquares α) α} {id : Oid} {a : Nat}

/-- The circle or arc under an id has its radius at an address. -/
def RadiusAt (s : Session (LeastSquares α) α) (id : Oid) (a : Nat) : Prop :=
  ∃ g, s.index.get? id = some (.geometry g) ∧
    Layout.propertyAddress s.allocator g .radius = .ok a

/-- The solver looks at the radius of the circle or arc under an id. -/
def Checks (s : Session (LeastSquares α) α) (id : Oid) : Prop :=
  ∃ a ∈ s.solver.radii, s.RadiusAt id a

theorem radiusAt_iff : s.RadiusAt id a ↔ ∃ o i base, s.index.outline? id = some o ∧
    o.geometryClass.offset? .radius = some i ∧ s.allocator.blocks.find? o.id = some base ∧
      base + i = a := by
  simp only [RadiusAt, Constraint.propertyAddress_eq_ok, Index.outline?_eq_some]
  constructor
  · rintro ⟨g, hg, i, base, hi, hbase, rfl⟩
    exact ⟨g.outline, i, base, ⟨g, hg, rfl⟩, hi, hbase, rfl⟩
  · rintro ⟨o, i, base, ⟨g, hg, rfl⟩, hi, hbase, rfl⟩
    exact ⟨g, hg, i, base, hi, hbase, rfl⟩

theorem RadiusAt.unique {b : Nat} (h : s.RadiusAt id a) (h' : s.RadiusAt id b) : a = b := by
  obtain ⟨g, hg, ha⟩ := h
  obtain ⟨g', hg', hb⟩ := h'
  cases hg.symm.trans hg'
  exact Except.ok.inj (ha.symm.trans hb)

/-- No circle is a fixed point. -/
theorem RadiusAt.owned (hs : Anchored s) (h : s.RadiusAt id a) :
    ∃ o, o.id = id ∧ o.fixed = false ∧ s.Owns o a := by
  obtain ⟨⟨gid, shape⟩, hg, ha⟩ := h
  obtain ⟨i, base, hi, hbase, rfl⟩ := Constraint.propertyAddress_eq_ok.1 ha
  have hkey := hs.key hg
  rw [hkey] at hbase
  refine ⟨_, hkey, ?_, hs.owns_offset hg hbase (GeometryClass.offset?_lt hi)⟩
  cases shape with
  | point x y fixed => cases hi
  | _ => rfl

theorem RadiusAt.mem_unknowns (hs : Sound s) (h : s.RadiusAt id a) : a ∈ s.solver.unknowns := by
  obtain ⟨o, -, hfixed, ho⟩ := h.owned hs.toAnchored
  exact hs.mem_unknowns.2 ⟨o, ho, hfixed⟩

theorem radiusAt_congr (houtlines : t.index.outline? = s.index.outline?)
    (hblocks : t.allocator.blocks = s.allocator.blocks) : t.RadiusAt id a ↔ s.RadiusAt id a := by
  rw [radiusAt_iff, radiusAt_iff, houtlines, hblocks]

theorem RadiusAt.step (h : s.RadiusAt id a) (hs : Anchored s) (ht : Step s t) :
    t.RadiusAt id a := by
  obtain ⟨o, i, base, ho, hi, hbase, rfl⟩ := radiusAt_iff.1 h
  exact radiusAt_iff.2 ⟨o, i, base, ht.outline_old ho, hi, ht.block_old hs hbase, rfl⟩

theorem RadiusAt.steps (h : s.RadiusAt id a) (hs : Sound s) (ht : ReflTransGen Step s t) :
    t.RadiusAt id a := by
  induction ht with
  | refl => exact h
  | tail hsteps hstep ih => exact ih.step (hs.steps hsteps).toAnchored hstep

variable [Scalar α] [Decompositions α]

theorem RadiusAt.perform (h : s.RadiusAt id a) (hs : Sound s) {r : Request α}
    (hr : r ≠ .clear) : (s.perform r).RadiusAt id a := by
  rcases perform_cases hs r with hsteps | ⟨-, -, happlied⟩ | hclear
  · exact h.steps hs hsteps
  · exact (radiusAt_congr happlied.outlines (by rw [happlied.allocator])).2 h
  · exact absurd hclear hr

/-! ### What a call does to the radii -/

theorem radii_steps (h : ReflTransGen Act s t) : s.solver.radii ⊆ t.solver.radii := by
  induction h with
  | refl => exact List.Subset.refl _
  | tail _ hact ih => exact List.Subset.trans ih hact.wiring.subset_radii

/-- Radii are only forgotten when everything is. -/
theorem Later.subset_radii (hs : Sound s) (h : Later s t) : s.solver.radii ⊆ t.solver.radii := by
  induction h with
  | refl => exact List.Subset.refl _
  | @perform t ht r hr ih =>
      refine List.Subset.trans ih ?_
      rcases perform_acts (ht.retains hs).1 r with hacts | ⟨rfl, -, -⟩ | hclear
      · exact radii_steps hacts
      · exact (wiring_applySolution t).subset_radii
      · exact absurd hclear hr

theorem Later.radiusAt (hs : Sound s) (h : Later s t) (ha : s.RadiusAt id a) :
    t.RadiusAt id a := by
  induction h with
  | refl => exact ha
  | perform ht r hr ih => exact ih.perform (ht.retains hs).1 hr

theorem radii_pushGeometry (s : Session (LeastSquares α) α) (g : Geometry α) :
    (s.pushGeometry g).2.solver.radii = s.solver.radii := by
  obtain ⟨cells, hcells⟩ := Layout.push_cells s.index g s.allocator s.solver
  unfold pushGeometry
  rcases hcase : Layout.push s.index g (s.allocator, s.solver) with ⟨e | u, al, solver⟩ <;>
    rw [hcase] at hcells
  · dsimp only at hcells ⊢
    rw [hcells]
  · dsimp only at hcells ⊢
    rw [solver_store, hcells]

theorem RadiusAt.of_push {c : Constraint α} (tag : Int) (hs : Anchored s) (ht : Step s t)
    (ha : a ∈ (c.push s.index s.allocator s.solver tag).2.radii) :
    a ∈ s.solver.radii ∨ ∃ id ∈ c.handed, t.RadiusAt id a :=
  (Constraint.radius_of_push ha).imp_right fun ⟨id, hid, g, hg, hradius⟩ =>
    ⟨id, hid, RadiusAt.step ⟨g, hg, hradius⟩ hs ht⟩

theorem Sound.mem_radii_push (hs : Sound s) (p : Primitive α)
    (ha : a ∈ (s.push p).2.solver.radii) :
    a ∈ s.solver.radii ∨ ∃ c ∈ p.constraint?, ∃ id ∈ c.handed, (s.push p).2.RadiusAt id a := by
  have hstep := step_push hs.toAnchored p
  rcases push_guard s p with ⟨e, hpush⟩ | ⟨hid, hc⟩
  · rw [hpush] at ha
    exact .inl ha
  cases p with
  | geometry g =>
      have hpush : s.push (.geometry g) = s.pushGeometry g := by
        rw [Session.push, if_neg (by rw [hid]; exact Bool.false_ne_true), if_neg hc]
      rw [hpush, radii_pushGeometry] at ha
      exact .inl ha
  | constraint c =>
      have hradii : a ∈ s.solver.radii ∨ ∃ tag,
          a ∈ (c.push s.index s.allocator s.solver tag).2.radii := by
        rcases pushConstraint_cases hid hc with ⟨e, -, hpush⟩ |
          ⟨tag, -, ⟨e, -, hpush⟩ | ⟨outputs, t, -, hpush, hsolver, -⟩⟩
        · rw [hpush] at ha
          exact .inl ha
        · rw [hpush] at ha
          exact .inr ⟨tag, ha⟩
        · rw [hpush, hsolver] at ha
          exact .inr ⟨tag, ha⟩
      rcases hradii with ha | ⟨tag, ha⟩
      · exact .inl ha
      · exact (RadiusAt.of_push tag hs.toAnchored hstep ha).imp_right fun hnew => ⟨c, rfl, hnew⟩

theorem Sound.mem_radii_pushObjects (hs : Sound s) (os : List (SketchObject α))
    (ha : a ∈ (s.pushObjects os).2.solver.radii) :
    a ∈ s.solver.radii ∨ ∃ c ∈ os.filterMap SketchObject.constraint?, ∃ id ∈ c.handed,
      (s.pushObjects os).2.RadiusAt id a := by
  induction os generalizing s with
  | nil => exact .inl ha
  | cons o os ih =>
      have hact := act_pushObject hs.toAnchored o
      have hfirst : ∀ a ∈ (s.pushObject o).2.solver.radii, a ∈ s.solver.radii ∨
          ∃ c ∈ o.constraint?, ∃ id ∈ c.handed, (s.pushObject o).2.RadiusAt id a := by
        intro a ha
        cases o with
        | param p =>
            left
            change a ∈ (Allocator.pushPrivate s.solver [p.value] true).radii at ha
            rwa [Placement.pushPrivate_eq] at ha
        | primitive p => exact hs.mem_radii_push p ha
      have hmem : ∀ c ∈ o.constraint?, c ∈ (o :: os).filterMap SketchObject.constraint? :=
        fun c hc => List.mem_filterMap.2 ⟨o, List.mem_cons_self, hc⟩
      rw [pushObjects] at ha ⊢
      rcases hpush : s.pushObject o with ⟨e | u, t⟩ <;> rw [hpush] at hact hfirst ha
      · rcases hfirst a ha with ha | ⟨c, hc, hnew⟩
        · exact .inl ha
        · exact .inr ⟨c, hmem c hc, hnew⟩
      · have ht := hs.step hact.step
        rcases ih ht ha with ha | ⟨c, hc, hnew⟩
        · rcases hfirst a ha with ha | ⟨c, hc, id, hid, hradius⟩
          · exact .inl ha
          · -- what the first object has brought is still there after the others
            have hsteps := ReflTransGen.mono (r := Act) (fun _ _ hact => hact.step) _ _
              (acts_pushObjects ht os)
            exact .inr ⟨c, hmem c hc, id, hid, hradius.steps ht hsteps⟩
        · obtain ⟨o', ho', hc⟩ := List.mem_filterMap.1 hc
          exact .inr ⟨c, List.mem_filterMap.2 ⟨o', List.mem_cons_of_mem o ho', hc⟩, hnew⟩

theorem Sound.mem_radii_pushExtra (hs : Sound s) (c : Constraint α)
    (ha : a ∈ (s.pushExtra c).2.solver.radii) :
    a ∈ s.solver.radii ∨ ∃ id ∈ c.handed, (s.pushExtra c).2.RadiusAt id a := by
  have hstep := step_pushExtra s c
  rcases s.pushExtra_cases c with hpush | ⟨e, solver, hcall, hpush⟩ |
    ⟨outputs, solver, -, hcall, hpush⟩
  · rw [hpush] at ha
    exact .inl ha
  · refine RadiusAt.of_push extraTag hs.toAnchored hstep ?_
    rw [hpush] at ha
    rwa [hcall]
  · refine RadiusAt.of_push extraTag hs.toAnchored hstep ?_
    rw [hpush] at ha
    rwa [hcall]

/-- What a call adds to the radii is that of a circle or arc which one of its constraints names by
id. -/
theorem Sound.mem_radii_perform (hs : Sound s) (r : Request α)
    (ha : a ∈ (s.perform r).solver.radii) :
    a ∈ s.solver.radii ∨ ∃ c ∈ r.constraints, ∃ id ∈ c.handed, (s.perform r).RadiusAt id a := by
  cases r with
  | push p =>
      rcases hs.mem_radii_push p ha with ha | ⟨c, hc, hnew⟩
      · exact .inl ha
      · exact .inr ⟨c, Option.mem_toList.2 hc, hnew⟩
  | pushObject o =>
      rw [perform, ← pushObjects_singleton] at ha ⊢
      rcases hs.mem_radii_pushObjects [o] ha with ha | ⟨c, hc, hnew⟩
      · exact .inl ha
      · obtain ⟨o', ho', hc⟩ := List.mem_filterMap.1 hc
        cases List.mem_singleton.1 ho'
        exact .inr ⟨c, Option.mem_toList.2 hc, hnew⟩
  | pushAll ps =>
      have hps : (ps.map SketchObject.primitive).filterMap SketchObject.constraint? =
          ps.filterMap Primitive.constraint? := List.filterMap_map
      rw [Request.constraints, ← hps]
      exact hs.mem_radii_pushObjects _ ha
  | pushObjects os => exact hs.mem_radii_pushObjects os ha
  | pushDocument d =>
      have hd : (d.params.map SketchObject.param ++
          d.primitives.map SketchObject.primitive).filterMap SketchObject.constraint? =
            d.primitives.filterMap Primitive.constraint? := by
        rw [List.filterMap_append, List.filterMap_map, List.filterMap_map]
        simp [Function.comp_def, SketchObject.constraint?]
      rw [Request.constraints, ← hd]
      exact hs.mem_radii_pushObjects _ ha
  | pushExtra c =>
      rcases hs.mem_radii_pushExtra c ha with ha | hnew
      · exact .inl ha
      · exact .inr ⟨c, List.mem_singleton_self c, hnew⟩
  | delete id =>
      rw [perform] at ha
      rcases s.delete_cases id with ⟨e, hdelete⟩ | ⟨tag, -, -, hdelete⟩ <;>
        rw [hdelete] at ha <;> exact .inl ha
  | pushName name v =>
      left
      change a ∈ (Allocator.pushPrivate s.solver [v] true).radii at ha
      rwa [Placement.pushPrivate_eq] at ha
  | setName name v =>
      rw [perform] at ha
      rcases s.setName_cases name v with ⟨e, hset⟩ | ⟨b, -, hset⟩ <;>
        rw [hset] at ha <;> exact .inl ha
  | apply =>
      left
      rw [perform] at ha
      by_cases hphase : s.phase = .solved
      · rwa [(applySolution_of_solved hphase).2.2] at ha
      · rwa [applySolution, if_neg hphase] at ha
  | clear => cases ha
  | clearExtra | solve | solveWith _ | setAlgorithm _ | setDebugMode _ | setMaxIterations _
  | setConvergence _ => exact .inl ha

/-- All radii are those of circles and arcs of the sketch. -/
theorem Reachable.radiusAt (h : Reachable s) : ∀ a ∈ s.solver.radii, ∃ id, s.RadiusAt id a := by
  induction h with
  | new own => nofun
  | ofConfig own c => nofun
  | @perform s hs r ih =>
      intro a ha
      by_cases hr : r = .clear
      · subst hr
        cases ha
      · rcases hs.sound.mem_radii_perform r ha with ha | ⟨-, -, id, -, hradius⟩
        · obtain ⟨id, hradius⟩ := ih a ha
          exact ⟨id, hradius.perform hs.sound hr⟩
        · exact ⟨id, hradius⟩

end Session

end PlanarSketch

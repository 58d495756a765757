import PlanarSketch.Proofs.Lookup

/-!
What a parameter of a constraint resolves to, one rule for each way in which it can. The rules
read the sketch and the allocator alone; nothing depends on the solver.
-/

namespace PlanarSketch

theorem Oid.tag_eq_ok {id : Oid} {tag : Int} :
    id.tag = .ok tag ↔ id.val < 0x80000000 ∧ tag = id.val.toNat := by
  unfold Oid.tag
  by_cases h : id.val < 0x80000000
  · simp only [h, if_true, Except.ok.injEq, true_and]
    exact eq_comm
  · simp only [h, if_false, false_and, iff_false]
    nofun

theorem GeometryClass.exists_offset? {k : GeometryClass} {q : Property} :
    (∃ i, k.offset? q = some i) ↔ q ∈ k.ownProperties := by
  rw [← Option.isSome_iff_exists, GeometryClass.offset?, List.findIdx?_isSome, List.any_eq_true]
  simp

namespace Constraint

variable {α : Type}

theorem required_eq_ok {c : Constraint α} {p : ParamSpec} {v : ParamValue α} :
    c.required p = .ok v ↔ c.param? p.name = some v := by
  unfold required
  cases c.param? p.name <;> simp

theorem referenced_eq_ok {x : Index α} {id : Oid} {g : Geometry α} :
    referenced x id = .ok g ↔ x.get? id = some (.geometry g) := by
  unfold referenced
  rw [bind_eq_ok]
  simp only [Index.get_eq_ok]
  constructor
  · rintro ⟨p, hp, h⟩
    cases p with
    | geometry g' =>
        rw [Except.ok.injEq] at h
        exact h ▸ hp
    | constraint c => simp at h
  · intro h
    exact ⟨_, h, rfl⟩

theorem referenced_of_none {x : Index α} {id : Oid} (h : x.get? id = none) :
    referenced x id = .error (.notFound id) := by
  rw [referenced, Index.get, h]
  rfl

theorem referenced_of_constraint {x : Index α} {id : Oid} {c : Constraint α}
    (h : x.get? id = some (.constraint c)) :
    referenced x id = .error (.unsupportedReference id) := by
  rw [referenced, Index.get, h]
  rfl

theorem accepted_eq_ok {g : Geometry α} {k : GeometryClass} {u : Unit} :
    accepted g k = .ok u ↔ k.accepts g.geometryClass := by
  unfold accepted
  split <;> simp_all

theorem propertyAddress_eq_ok {al : Allocator} {g : Geometry α} {q : Property} {a : Address} :
    Layout.propertyAddress al g q = .ok a ↔ ∃ i base, g.geometryClass.offset? q = some i ∧
      al.blocks.find? g.id = some base ∧ base + i = a := by
  unfold Layout.propertyAddress
  cases g.geometryClass.offset? q with
  | none => simp
  | some i => simp [map_eq_ok, Allocator.address_eq_ok]

variable [Scalar α]

inductive Resolves (x : Index α) (al : Allocator) (c : Constraint α) (tag : Int) (p : ParamSpec) :
    Resolved α → Prop where
  | tag (hs : p.slot = .tag) : Resolves x al c tag p (.ready (.tag tag))
  | driving (hs : p.slot = .driving) : Resolves x al c tag p (.ready (.bool c.isDriving))
  | alignment (hs : p.slot = .alignment) :
      Resolves x al c tag p (.ready (.alignment (c.alignment.getD .free)))
  | literal {v : α} (hs : p.slot = .value) (hv : c.param? p.name = some (.number v)) :
      Resolves x al c tag p (.literal v)
  | name {n : String} {a : Address} (hs : p.slot = .value)
      (hv : c.param? p.name = some (.name n)) (ha : al.names.find? n = some a) :
      Resolves x al c tag p (.ready (.param a))
  | truth {b : Bool} (hs : p.slot = .value) (hv : c.param? p.name = some (.bool b)) :
      Resolves x al c tag p (.ready (.bool b))
  | ref {r : PropertyRef} {g : Geometry α} {i : Nat} {base : Address} (hs : p.slot = .value)
      (hv : c.param? p.name = some (.ref r)) (hg : x.get? r.target = some (.geometry g))
      (hi : g.geometryClass.offset? r.property = some i)
      (hb : al.blocks.find? g.id = some base) :
      Resolves x al c tag p (.ready (.param (base + i)))
  | geometry {k : GeometryClass} {v : ParamValue α} {id : Oid} {g : Geometry α} {r : Record}
      (hs : p.slot = .geometry k) (hv : c.param? p.name = some v) (hid : v.toOid? = some id)
      (hg : x.get? id = some (.geometry g)) (hk : k.accepts g.geometryClass)
      (hr : Layout.record al g = .ok r) : Resolves x al c tag p (.record r)
  | number {v : α} (hs : p.slot = .raw) (hv : c.param? p.name = some (.number v)) :
      Resolves x al c tag p (.ready (.number v))
  | flag {b : Bool} (hs : p.slot = .raw) (hv : c.param? p.name = some (.bool b)) :
      Resolves x al c tag p (.ready (.bool b))

variable {x : Index α} {al : Allocator} {c : Constraint α} {tag : Int} {p : ParamSpec}
  {r : Resolved α}

theorem resolves_of_value (hs : p.slot = .value)
    (h : (do resolveValue x al (← c.required p)) = Except.ok r) : Resolves x al c tag p r := by
  obtain ⟨v, hv, h⟩ := bind_eq_ok.1 h
  rw [required_eq_ok] at hv
  cases v with
  | number v =>
      rw [resolveValue, Except.ok.injEq] at h
      exact h ▸ .literal hs hv
  | name n =>
      obtain ⟨a, ha, rfl⟩ := map_eq_ok.1 h
      exact .name hs hv (Allocator.nameAddress_eq_ok.1 ha)
  | bool b =>
      rw [resolveValue, Except.ok.injEq] at h
      exact h ▸ .truth hs hv
  | ref q =>
      obtain ⟨g, hg, h⟩ := bind_eq_ok.1 h
      obtain ⟨a, ha, h⟩ := bind_eq_ok.1 h
      obtain ⟨i, base, hi, hb, rfl⟩ := propertyAddress_eq_ok.1 ha
      cases h
      exact .ref hs hv (referenced_eq_ok.1 hg) hi hb

theorem resolves_of_geometry {k : GeometryClass} (hs : p.slot = .geometry k)
    (h : (do resolveGeometry x al c p k (← c.required p)) = Except.ok r) :
    Resolves x al c tag p r := by
  obtain ⟨v, hv, h⟩ := bind_eq_ok.1 h
  rw [required_eq_ok] at hv
  unfold resolveGeometry at h
  cases hid : v.toOid? with
  | none => simp [hid] at h
  | some id =>
      simp only [hid] at h
      obtain ⟨g, hg, h⟩ := bind_eq_ok.1 h
      obtain ⟨u, hk, h⟩ := bind_eq_ok.1 h
      obtain ⟨rec, hr, h⟩ := bind_eq_ok.1 h
      cases h
      exact .geometry hs hv hid (referenced_eq_ok.1 hg) (accepted_eq_ok.1 hk) hr

theorem resolves_of_raw (hs : p.slot = .raw) (h : c.resolve x al tag p = .ok r) :
    Resolves x al c tag p r := by
  simp only [resolve, hs] at h
  obtain ⟨v, hv, h⟩ := bind_eq_ok.1 h
  rw [required_eq_ok] at hv
  cases v with
  | number v =>
      cases h
      exact .number hs hv
  | bool b =>
      cases h
      exact .flag hs hv
  | name n => cases h
  | ref q => cases h

theorem resolves_of_ok (h : c.resolve x al tag p = .ok r) : Resolves x al c tag p r := by
  cases hs : p.slot with
  | raw => exact resolves_of_raw hs h
  | value => exact resolves_of_value hs (by simpa only [resolve, hs] using h)
  | geometry k => exact resolves_of_geometry hs (by simpa only [resolve, hs] using h)
  | tag =>
      simp only [resolve, hs, Except.ok.injEq] at h
      exact h ▸ .tag hs
  | driving =>
      simp only [resolve, hs, Except.ok.injEq] at h
      exact h ▸ .driving hs
  | alignment =>
      simp only [resolve, hs, Except.ok.injEq] at h
      exact h ▸ .alignment hs

end Constraint

end PlanarSketch

import Mathlib.Tactic.Choose
import PlanarSketch.Proofs.Session.Points

/-!
Which parameters of a constraint cannot be resolved in a sketch, and why. In a session that is
built on points the sketch alone decides: whatever a parameter refers to has its scalars.
-/

namespace PlanarSketch

open LeastSquares

variable {α : Type}

namespace Shape

variable {ε π : Type} {f : π → Except ε (Vec2 Address)} {own : Nat → Except ε Address}
  {shape : Shape π α}

theorem mapM_eq_ok {q : π → Vec2 Address} {a : Nat → Address}
    (hf : ∀ p ∈ shape.points, f p = .ok (q p))
    (hown : ∀ i < shape.scalars.length, own i = .ok (a i)) :
    ∃ r : Record, shape.mapM f own = .ok r ∧ r.geometryClass = shape.geometryClass ∧
      r.points = shape.points.map q ∧ r.scalars = (List.range shape.scalars.length).map a := by
  refine ⟨shape.mapM (m := Id) q a, ?_, ?_⟩
  · cases shape
    all_goals
      simp only [points, List.forall_mem_cons, scalars, List.length_cons, List.length_nil]
        at hf hown
      simp only [mapM, hf, hown, Nat.reduceAdd, Nat.reduceLT, ok_bind]
      rfl
  · cases shape <;> exact ⟨rfl, rfl, rfl⟩

/-- Replacing points and scalars succeeds where each replacement does. -/
theorem mapM_ok {P : Address → Prop}
    (hf : ∀ p ∈ shape.points, ∃ q, f p = .ok q ∧ P q.x ∧ P q.y)
    (hown : ∀ i < shape.scalars.length, ∃ a, own i = .ok a ∧ P a) :
    ∃ r : Record, shape.mapM f own = .ok r ∧ r.geometryClass = shape.geometryClass ∧
      ∀ a ∈ r.addresses, P a := by
  have : Nonempty (Vec2 Address) := ⟨⟨0, 0⟩⟩
  choose! q hq hpoint using hf
  choose! a ha hscalar using hown
  obtain ⟨r, hr, hclass, hpoints, hscalars⟩ := mapM_eq_ok hq ha
  refine ⟨r, hr, hclass, ?_⟩
  intro b hb
  rw [addresses, hpoints, hscalars, List.flatMap_map] at hb
  rcases List.mem_append.1 hb with hb | hb
  · obtain ⟨p, hp, hb⟩ := List.mem_flatMap.1 hb
    rcases List.mem_pair.1 hb with rfl | rfl
    · exact (hpoint p hp).1
    · exact (hpoint p hp).2
  · obtain ⟨i, hi, rfl⟩ := List.mem_map.1 hb
    exact hscalar i (List.mem_range.1 hi)

end Shape

/-- A record has its scalars below a bound. -/
def Resolved.InRange (size : Nat) : Resolved α → Prop
  | .record r => ∀ a ∈ r.addresses, a < size
  | .literal _ | .ready _ => True

namespace Session

def unresolvedValue? (s : Session (LeastSquares α) α) : ParamValue α → Option SketchError
  | .number _ | .bool _ => none
  | .name n => if (s.allocator.names.find? n).isSome then none else some (.unknownName n)
  | .ref r =>
      match s.index.get? r.target with
      | none => some (.notFound r.target)
      | some (.constraint _) => some (.unsupportedReference r.target)
      | some (.geometry g) =>
          if r.property ∈ g.geometryClass.ownProperties then none
          else some (.unknownProperty g.geometryClass r.property)

def unresolvedGeometry? [Scalar α] (s : Session (LeastSquares α) α) (c : Constraint α)
    (p : ParamSpec) (k : GeometryClass) (v : ParamValue α) : Option SketchError :=
  match v.toOid? with
  | none => some (.malformedParameter c.kind p v.sort)
  | some id =>
      match s.index.get? id with
      | none => some (.notFound id)
      | some (.constraint _) => some (.unsupportedReference id)
      | some (.geometry g) =>
          if k.accepts g.geometryClass then none
          else some (.typeMismatch id (.geometry k) (.geometry g.geometryClass))

def unresolvedRaw? (c : Constraint α) (p : ParamSpec) : ParamValue α → Option SketchError
  | .number _ | .bool _ => none
  | v => some (.malformedParameter c.kind p v.sort)

/-- Why a parameter of a constraint cannot be resolved in the sketch. -/
def unresolved? [Scalar α] (s : Session (LeastSquares α) α) (c : Constraint α) (p : ParamSpec) :
    Option SketchError :=
  match p.slot, c.param? p.name with
  | .tag, _ | .driving, _ | .alignment, _ => none
  | _, none => some (.missingParameter c.kind p.name)
  | .value, some v => s.unresolvedValue? v
  | .geometry k, some v => s.unresolvedGeometry? c p k v
  | .raw, some v => unresolvedRaw? c p v

variable {s : Session (LeastSquares α) α} {id : Oid} {g : Geometry α}

theorem Anchored.block (hs : Anchored s) (hg : s.index.get? id = some (.geometry g))
    (hpos : 0 < g.geometryClass.ownCount) :
    ∃ base : Nat, s.allocator.blocks.find? id = some base ∧
      base + g.geometryClass.ownCount ≤ s.solver.size := by
  have ho : s.index.outline? id = some g.outline := Index.outline?_of_get? hg
  obtain ⟨base, hbase⟩ := Allocator.has_iff.1 (hs.allocated ho hpos)
  obtain ⟨o, ho', -, hle⟩ := hs.held hbase
  obtain rfl := Option.some.inj (ho.symm.trans ho')
  exact ⟨base, hbase, hle⟩

/-- A geometry has a record, and each of its scalars belongs to a geometry. -/
theorem Anchored.record_ok (hs : Anchored s) (hb : s.index.BuiltOnPoints)
    (hg : s.index.get? id = some (.geometry g)) :
    ∃ r, Layout.record s.allocator g = .ok r ∧ r.geometryClass = g.geometryClass ∧
      ∀ a ∈ r.addresses, ∃ o, s.Owns o a := by
  refine Shape.mapM_ok ?_ ?_
  · intro p hp
    obtain ⟨q, hq, hclass⟩ := hb g (Index.mem_geometries.2 ⟨id, hg⟩) p hp
    have hcount : q.geometryClass.ownCount = 2 := by
      rw [hclass]
      rfl
    obtain ⟨base, hbase, -⟩ := hs.block hq (by omega)
    refine ⟨⟨base, base + 1⟩, ?_, ⟨_, hs.owns_offset (i := 0) hq hbase (by omega)⟩,
      ⟨_, hs.owns_offset (i := 1) hq hbase (by omega)⟩⟩
    rw [Layout.pointAddress, Allocator.address_eq_ok.2 hbase]
    rfl
  · intro i hi
    rw [Shape.scalars_length] at hi
    obtain ⟨base, hbase, -⟩ := hs.block hg (Nat.lt_of_le_of_lt (Nat.zero_le i) hi)
    refine ⟨base + i, ?_, _, hs.owns_offset hg hbase hi⟩
    rw [hs.key hg, Allocator.address_eq_ok.2 hbase]
    rfl

variable [Scalar α] {c : Constraint α} {tag : Int} {p : ParamSpec}

def Resolvable (s : Session (LeastSquares α) α) (c : Constraint α) (tag : Int) (p : ParamSpec) :
    Prop :=
  ∃ r, c.resolve s.index s.allocator tag p = .ok r ∧ r.InRange s.solver.size

theorem resolve_missing (hp : p.isUserData) (hv : c.param? p.name = none) :
    c.resolve s.index s.allocator tag p = .error (.missingParameter c.kind p.name) := by
  obtain ⟨name, slot⟩ := p
  have hreq : c.required ⟨name, slot⟩ = .error (.missingParameter c.kind name) := by
    rw [Constraint.required, hv]
  cases slot
  case value | geometry | raw => simp only [Constraint.resolve, hreq, error_bind]
  all_goals cases hp

theorem Anchored.resolve_value (hs : Anchored s) (hslot : p.slot = .value) {v : ParamValue α}
    (hv : c.param? p.name = some v) :
    (∃ e, s.unresolved? c p = some e ∧ c.resolve s.index s.allocator tag p = .error e) ∨
      s.unresolved? c p = none ∧ s.Resolvable c tag p := by
  have hresolve : c.resolve s.index s.allocator tag p =
      Constraint.resolveValue s.index s.allocator v := by
    simp only [Constraint.resolve, hslot, Constraint.required, hv]
    rfl
  simp only [unresolved?, hslot, hv, Resolvable, hresolve, unresolvedValue?.eq_def]
  cases v with
  | number v => exact .inr ⟨rfl, _, rfl, trivial⟩
  | bool b => exact .inr ⟨rfl, _, rfl, trivial⟩
  | name n =>
      dsimp only
      cases hn : s.allocator.names.find? n with
      | none =>
          refine .inl ⟨.unknownName n, rfl, ?_⟩
          rw [Constraint.resolveValue, Allocator.nameAddress, hn]
          rfl
      | some a =>
          refine .inr ⟨rfl, .ready (.param a), ?_, trivial⟩
          rw [Constraint.resolveValue, Allocator.nameAddress, hn]
          rfl
  | ref r =>
      rw [Constraint.resolveValue]
      dsimp only
      rcases hget : s.index.get? r.target with _ | (g | c)
      · refine .inl ⟨_, rfl, ?_⟩
        rw [Constraint.referenced_of_none hget]
        rfl
      · rw [Constraint.referenced_eq_ok.2 hget]
        dsimp only
        by_cases hprop : r.property ∈ g.geometryClass.ownProperties
        · rw [if_pos hprop]
          obtain ⟨i, hi⟩ := GeometryClass.exists_offset?.2 hprop
          -- geometry with a property owns scalars, so it has a block
          obtain ⟨base, hbase, -⟩ :=
            hs.block hget (Nat.lt_of_le_of_lt (Nat.zero_le i) (GeometryClass.offset?_lt hi))
          have haddress : Layout.propertyAddress s.allocator g r.property = .ok (base + i) :=
            Constraint.propertyAddress_eq_ok.2 ⟨i, base, hi, by rw [hs.key hget]; exact hbase, rfl⟩
          refine .inr ⟨rfl, .ready (.param (base + i)), ?_, trivial⟩
          simp only [ok_bind, haddress]
          rfl
        · rw [if_neg hprop]
          have hnone : g.geometryClass.offset? r.property = none := by
            cases hi : g.geometryClass.offset? r.property with
            | none => rfl
            | some i => exact absurd (GeometryClass.exists_offset?.1 ⟨i, hi⟩) hprop
          refine .inl ⟨_, rfl, ?_⟩
          simp only [ok_bind, Layout.propertyAddress, hnone, error_bind]
      · refine .inl ⟨_, rfl, ?_⟩
        rw [Constraint.referenced_of_constraint hget]
        rfl

theorem Anchored.resolve_geometry (hs : Anchored s) (hb : s.index.BuiltOnPoints)
    {k : GeometryClass} (hslot : p.slot = .geometry k) {v : ParamValue α}
    (hv : c.param? p.name = some v) :
    (∃ e, s.unresolved? c p = some e ∧ c.resolve s.index s.allocator tag p = .error e) ∨
      s.unresolved? c p = none ∧ s.Resolvable c tag p := by
  have hresolve : c.resolve s.index s.allocator tag p =
      Constraint.resolveGeometry s.index s.allocator c p k v := by
    simp only [Constraint.resolve, hslot, Constraint.required, hv]
    rfl
  simp only [unresolved?, hslot, hv, Resolvable, hresolve, Constraint.resolveGeometry,
    unresolvedGeometry?]
  cases v.toOid? with
  | none => exact .inl ⟨_, rfl, rfl⟩
  | some id =>
      dsimp only
      rcases hget : s.index.get? id with _ | (g | c)
      · refine .inl ⟨_, rfl, ?_⟩
        rw [Constraint.referenced_of_none hget]
        rfl
      · rw [Constraint.referenced_eq_ok.2 hget]
        dsimp only
        obtain ⟨r, hr, -, howned⟩ := hs.record_ok hb hget
        by_cases hk : k.accepts g.geometryClass = true
        · rw [if_pos hk]
          refine .inr ⟨rfl, .record r, ?_, ?_⟩
          · simp only [Constraint.accepted, hk, if_true, hr, ok_bind]
            rfl
          · intro a ha
            obtain ⟨o, ho⟩ := howned a ha
            exact ho.lt hs
        · rw [if_neg hk]
          refine .inl ⟨_, rfl, ?_⟩
          simp only [ok_bind, Constraint.accepted, if_neg hk, error_bind, hs.key hget]
      · refine .inl ⟨_, rfl, ?_⟩
        rw [Constraint.referenced_of_constraint hget]
        rfl

theorem resolve_raw (hslot : p.slot = .raw) {v : ParamValue α}
    (hv : c.param? p.name = some v) :
    (∃ e, s.unresolved? c p = some e ∧ c.resolve s.index s.allocator tag p = .error e) ∨
      s.unresolved? c p = none ∧ s.Resolvable c tag p := by
  simp only [unresolved?, hslot, hv, Resolvable, Constraint.resolve, Constraint.required]
  cases v with
  | number v => exact .inr ⟨rfl, _, rfl, trivial⟩
  | bool b => exact .inr ⟨rfl, _, rfl, trivial⟩
  | name n => exact .inl ⟨_, rfl, rfl⟩
  | ref r => exact .inl ⟨_, rfl, rfl⟩

theorem Anchored.resolve_cases (hs : Anchored s) (hb : s.index.BuiltOnPoints)
    (c : Constraint α) (tag : Int) (p : ParamSpec) :
    (∃ e, s.unresolved? c p = some e ∧ c.resolve s.index s.allocator tag p = .error e) ∨
      s.unresolved? c p = none ∧ s.Resolvable c tag p := by
  cases hslot : p.slot with
  | tag =>
      refine .inr ⟨by simp only [unresolved?, hslot], .ready (.tag tag), ?_, trivial⟩
      simp only [Constraint.resolve, hslot]
  | driving =>
      refine .inr ⟨by simp only [unresolved?, hslot], .ready (.bool c.isDriving), ?_, trivial⟩
      simp only [Constraint.resolve, hslot]
  | alignment =>
      refine .inr ⟨by simp only [unresolved?, hslot],
        .ready (.alignment (c.alignment.getD .free)), ?_, trivial⟩
      simp only [Constraint.resolve, hslot]
  | value =>
      cases hv : c.param? p.name with
      | none =>
          refine .inl ⟨_, by simp only [unresolved?, hslot, hv], resolve_missing ?_ hv⟩
          simp [ParamSpec.isUserData, hslot]
      | some v => exact hs.resolve_value hslot hv
  | geometry k =>
      cases hv : c.param? p.name with
      | none =>
          refine .inl ⟨_, by simp only [unresolved?, hslot, hv], resolve_missing ?_ hv⟩
          simp [ParamSpec.isUserData, hslot]
      | some v => exact hs.resolve_geometry hb hslot hv
  | raw =>
      cases hv : c.param? p.name with
      | none =>
          refine .inl ⟨_, by simp only [unresolved?, hslot, hv], resolve_missing ?_ hv⟩
          simp [ParamSpec.isUserData, hslot]
      | some v => exact resolve_raw hslot hv

theorem Anchored.unresolved?_eq_none (hs : Anchored s) (hb : s.index.BuiltOnPoints)
    {r : Resolved α} (h : c.resolve s.index s.allocator tag p = .ok r) :
    s.unresolved? c p = none := by
  rcases hs.resolve_cases hb c tag p with ⟨e, -, he⟩ | ⟨hnone, -⟩
  · cases he.symm.trans h
  · exact hnone

/-- Placing parameters stops at the first that cannot be resolved. -/
theorem Anchored.findSome?_of_stops (hs : Anchored s) (hb : s.index.BuiltOnPoints)
    {e : SketchError} {ps : List ParamSpec}
    (h : Placement.Stops s.index s.allocator c tag s.solver.size e ps) :
    ps.findSome? (s.unresolved? c) = some e := by
  induction h with
  | @unresolved p ps h =>
      rcases hs.resolve_cases hb c tag p with ⟨e', he, hr⟩ | ⟨-, r, hr, -⟩
      · cases hr.symm.trans h
        rw [List.findSome?_cons, he]
      · cases hr.symm.trans h
  | @outOfRange p ps r a h ha hsize =>
      -- the scalars of indexed geometry are never out of range
      rcases hs.resolve_cases hb c tag p with ⟨e', -, hr⟩ | ⟨-, r', hr, hlt⟩
      · cases hr.symm.trans h
      · cases hr.symm.trans h
        exact absurd (hlt a ha) (Nat.not_lt.2 hsize)
  | later h _ ih =>
      -- a parameter that resolves is passed over
      rw [List.findSome?_cons, hs.unresolved?_eq_none hb h]
      exact ih

end Session

end PlanarSketch

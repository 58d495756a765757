import PlanarSketch.Proofs.Session.Run

/-!
The points that geometry is built on. An id that a geometry lists is only checked to be a point
if it has no block yet, so what is certain is less: it is the id of a geometry that owns scalars.
A session in which no call names anything else as a point is built on points throughout.
-/

namespace PlanarSketch

open LeastSquares

variable {α : Type}

def SketchObject.geometryOf? : SketchObject α → Option (Geometry α)
  | param _ => none
  | primitive p => p.geometry?

/-- The geometry that a call brings along. -/
def Request.geometries : Request α → List (Geometry α)
  | push p => [SketchObject.primitive p].filterMap SketchObject.geometryOf?
  | pushObject o => [o].filterMap SketchObject.geometryOf?
  | pushObjects os => os.filterMap SketchObject.geometryOf?
  | pushAll ps => (ps.map SketchObject.primitive).filterMap SketchObject.geometryOf?
  | pushDocument d => (d.params.map SketchObject.param ++
      d.primitives.map SketchObject.primitive).filterMap SketchObject.geometryOf?
  | _ => []

namespace Index

def IsPoint (x : Index α) (id : Oid) : Prop :=
  ∃ q, x.get? id = some (.geometry q) ∧ q.geometryClass = .point

def OwnsScalars (x : Index α) (id : Oid) : Prop :=
  ∃ q, x.get? id = some (.geometry q) ∧ 0 < q.geometryClass.ownCount

def BuiltOnPoints (x : Index α) : Prop := ∀ g ∈ x.geometries, ∀ p ∈ g.points, x.IsPoint p

/-- Each id that one of these geometries lists is a point, as far as it occurs among them or in
the sketch. -/
def NamesPoints (x : Index α) (gs : List (Geometry α)) : Prop :=
  ∀ g ∈ gs, ∀ p ∈ g.points, ∀ q ∈ x.geometries ++ gs, q.id = p → q.geometryClass = .point

/-- Why an id cannot stand for a point. -/
def pointError (x : Index α) (id : Oid) : SketchError :=
  match x.get? id with
  | none => .notFound id
  | some q => .typeMismatch id (.geometry .point) q.sort

variable {x y : Index α} {id : Oid}

theorem isPoint_iff :
    x.IsPoint id ↔ ∃ o, x.outline? id = some o ∧ o.geometryClass = .point := by
  simp only [outline?_eq_some]
  constructor
  · rintro ⟨q, hq, hclass⟩
    exact ⟨q.outline, ⟨q, hq, rfl⟩, hclass⟩
  · rintro ⟨o, ⟨q, hq, rfl⟩, hclass⟩
    exact ⟨q, hq, hclass⟩

theorem ownsScalars_iff : x.OwnsScalars id ↔ ∃ o, x.outline? id = some o ∧ 0 < o.count := by
  simp only [outline?_eq_some]
  constructor
  · rintro ⟨q, hq, hpos⟩
    exact ⟨q.outline, ⟨q, hq, rfl⟩, hpos⟩
  · rintro ⟨o, ⟨q, hq, rfl⟩, hpos⟩
    exact ⟨q, hq, hpos⟩

theorem builtOnPoints_iff :
    x.BuiltOnPoints ↔ ∀ id o, x.outline? id = some o → ∀ p ∈ o.points, x.IsPoint p := by
  simp only [BuiltOnPoints, mem_geometries, outline?_eq_some]
  constructor
  · rintro h id o ⟨g, hg, rfl⟩
    exact h g ⟨id, hg⟩
  · rintro h g ⟨id, hg⟩
    exact h id g.outline ⟨g, hg, rfl⟩

theorem builtOnPoints_congr (h : y.outline? = x.outline?) :
    y.BuiltOnPoints ↔ x.BuiltOnPoints := by
  simp only [builtOnPoints_iff, isPoint_iff, h]

theorem geometryOf_point_error {e : SketchError} (h : x.geometryOf .point id = .error e) :
    e = x.pointError id := by
  unfold geometryOf get at h
  unfold pointError
  cases hget : x.get? id with
  | none =>
      rw [hget] at h
      cases h
      rfl
  | some q =>
      rw [hget] at h
      cases q with
      | geometry g =>
          by_cases hclass : g.geometryClass = .point
          · simp [bind, Except.bind, hclass] at h
          · simp only [bind, Except.bind, if_neg hclass, Except.error.injEq] at h
            exact h.symm
      | constraint c =>
          cases h
          rfl

theorem isPoint_insert {g : Geometry α} {n : Nat} (hid : id ≠ g.id) :
    (⟨x.items.insert g.id (.geometry g), n⟩ : Index α).IsPoint id ↔ x.IsPoint id := by
  have hget : (⟨x.items.insert g.id (.geometry g), n⟩ : Index α).get? id = x.get? id := by
    rw [get?, Table.find?_insert, if_neg hid]
    rfl
  rw [IsPoint, hget, IsPoint]

theorem mem_geometries_insert {g g' : Geometry α} {n : Nat} (h : x.has g.id = false) :
    g' ∈ (⟨x.items.insert g.id (.geometry g), n⟩ : Index α).geometries ↔
      g' ∈ x.geometries ∨ g' = g := by
  have hins : (⟨x.items.insert g.id (.geometry g), n⟩ : Index α).geometryAt? =
      Function.update x.geometryAt? g.id (some g) := geometryAt?_insert x (.geometry g) n
  simp only [mem_geometries, ← geometryAt?_eq_some, hins, Function.update_apply]
  constructor
  · rintro ⟨id, hid⟩
    split at hid
    · exact .inr (Option.some.inj hid).symm
    · exact .inl ⟨id, hid⟩
  · rintro (⟨id, hid⟩ | rfl)
    · have hne : id ≠ g.id := by
        rintro rfl
        rw [geometryAt?_of_has h] at hid
        cases hid
      exact ⟨id, by rw [if_neg hne, hid]⟩
    · exact ⟨g'.id, if_pos rfl⟩

/-- A new geometry leaves the others on their points. -/
theorem builtOnPoints_insert {g : Geometry α} (n : Nat) (h : x.has g.id = false)
    (hold : ∀ g' ∈ x.geometries, ∀ p ∈ g'.points, x.OwnsScalars p)
    (hnew : ∀ p ∈ g.points, x.OwnsScalars p) :
    (⟨x.items.insert g.id (.geometry g), n⟩ : Index α).BuiltOnPoints ↔
      x.BuiltOnPoints ∧ ∀ p ∈ g.points, x.IsPoint p := by
  -- what owns scalars is indexed, so no such id is the new one
  have hne : ∀ {p}, x.OwnsScalars p → p ≠ g.id := by
    rintro p ⟨q, hq, -⟩ rfl
    have := has_iff.2 ⟨_, hq⟩
    simp [h] at this
  have hmem : ∀ g', g' ∈ (⟨x.items.insert g.id (.geometry g), n⟩ : Index α).geometries ↔
      g' ∈ x.geometries ∨ g' = g := fun _ => mem_geometries_insert h
  constructor
  · intro hb
    refine ⟨fun g' hg' p hp => ?_, fun p hp => ?_⟩
    · exact (isPoint_insert (hne (hold g' hg' p hp))).1 (hb g' ((hmem g').2 (.inl hg')) p hp)
    · exact (isPoint_insert (hne (hnew p hp))).1 (hb g ((hmem g).2 (.inr rfl)) p hp)
  · rintro ⟨hb, hpoints⟩ g' hg' p hp
    rcases (hmem g').1 hg' with hg' | rfl
    · exact (isPoint_insert (hne (hold g' hg' p hp))).2 (hb g' hg' p hp)
    · exact (isPoint_insert (hne (hnew p hp))).2 (hpoints p hp)

end Index

namespace Session

variable {s : Session (LeastSquares α) α}

theorem Anchored.has_iff_ownsScalars (h : Anchored s) {id : Oid} :
    s.allocator.has id ↔ s.index.OwnsScalars id := by
  rw [Index.ownsScalars_iff]
  constructor
  · intro hhas
    obtain ⟨base, hbase⟩ := Allocator.has_iff.1 hhas
    obtain ⟨o, ho, hpos, -⟩ := h.held hbase
    exact ⟨o, ho, hpos⟩
  · rintro ⟨o, ho, hpos⟩
    exact h.allocated ho hpos

theorem Anchored.points_own (h : Anchored s) :
    ∀ g ∈ s.index.geometries, ∀ p ∈ g.points, s.index.OwnsScalars p := by
  intro g hg p hp
  obtain ⟨id, hid⟩ := Index.mem_geometries.1 hg
  rw [← h.has_iff_ownsScalars]
  exact h.grounded (Index.outline?_of_get? hid) hp

variable [Scalar α] [Decompositions α]

/-- A geometry with an unused id is taken exactly if all ids it lists belong to geometry that owns
scalars. -/
theorem Anchored.push_geometry (h : Anchored s) {g : Geometry α}
    (hid : s.index.has g.id = false) (hc : s.index.counter ≠ Index.counterLimit) :
    (∃ p ∈ g.points, ¬ s.index.OwnsScalars p ∧
      s.push (.geometry g) = (.error (s.index.pointError p), s)) ∨
    (∀ p ∈ g.points, s.index.OwnsScalars p) ∧ (s.push (.geometry g)).1 = .ok () ∧
      (s.push (.geometry g)).2.index =
        ⟨s.index.items.insert g.id (.geometry g), s.index.counter + 1⟩ := by
  rcases pushGeometry_cases h hid hc with ⟨p, e, hfind, he, hpush⟩ | ⟨t, hpush, hplaced⟩
  · refine .inl ⟨p, List.mem_of_find?_eq_some hfind, ?_, ?_⟩
    · rw [← h.has_iff_ownsScalars]
      simpa using List.find?_some hfind
    · rw [hpush, Index.geometryOf_point_error he]
  · refine .inr ⟨fun p hp => h.has_iff_ownsScalars.1 (hplaced.points p hp), ?_, ?_⟩
    · rw [hpush]
    · rw [hpush, hplaced.index]

theorem push_geometry_mem (h : Anchored s) {g q : Geometry α}
    (hq : q ∈ (s.push (.geometry g)).2.index.geometries) : q ∈ s.index.geometries ∨ q = g := by
  rcases push_guard s (.geometry g) with ⟨e, hpush⟩ | ⟨hid, hc⟩
  · rw [hpush] at hq
    exact .inl hq
  rcases h.push_geometry hid hc with ⟨p, -, -, hpush⟩ | ⟨-, -, hindex⟩
  · rw [hpush] at hq
    exact .inl hq
  · rw [hindex, Index.mem_geometries_insert hid] at hq
    exact hq

theorem Sound.builtOnPoints_push (h : Sound s) (hb : s.index.BuiltOnPoints) {g : Geometry α}
    (hg : ∀ p ∈ g.points, ∀ q ∈ s.index.geometries, q.id = p → q.geometryClass = .point) :
    (s.push (.geometry g)).2.index.BuiltOnPoints := by
  rcases push_guard s (.geometry g) with ⟨e, hpush⟩ | ⟨hid, hc⟩
  · rw [hpush]
    exact hb
  rcases h.push_geometry hid hc with ⟨p, -, -, hpush⟩ | ⟨hown, -, hindex⟩
  · rw [hpush]
    exact hb
  · rw [hindex, Index.builtOnPoints_insert _ hid h.points_own hown]
    refine ⟨hb, fun p hp => ?_⟩
    obtain ⟨q, hq, -⟩ := hown p hp
    exact ⟨q, hq, hg p hp q (Index.mem_geometries.2 ⟨p, hq⟩) (h.key hq)⟩

theorem Sound.builtOnPoints_pushObject (h : Sound s) (hb : s.index.BuiltOnPoints)
    {o : SketchObject α} (ho : ∀ g ∈ o.geometryOf?, ∀ p ∈ g.points, ∀ q ∈ s.index.geometries,
      q.id = p → q.geometryClass = .point) :
    (s.pushObject o).2.index.BuiltOnPoints ∧
      ∀ q ∈ (s.pushObject o).2.index.geometries, q ∈ s.index.geometries ∨ q ∈ o.geometryOf? := by
  cases o with
  | param p => exact ⟨hb, fun q hq => .inl hq⟩
  | primitive p =>
      cases p with
      | geometry g =>
          refine ⟨h.builtOnPoints_push hb (ho g rfl), fun q hq => ?_⟩
          rcases push_geometry_mem h.toAnchored hq with hq | rfl
          · exact .inl hq
          · exact .inr rfl
      | constraint c =>
          obtain ⟨hg, -⟩ := push_constraint_same s c
          refine ⟨(Index.builtOnPoints_congr (outline?_congr hg)).2 hb, fun q hq => .inl ?_⟩
          simp only [Index.mem_geometries, ← Index.geometryAt?_eq_some] at hq ⊢
          rwa [← hg]

theorem Sound.builtOnPoints_pushObjects (h : Sound s) (hb : s.index.BuiltOnPoints)
    {os : List (SketchObject α)}
    (hos : s.index.NamesPoints (os.filterMap SketchObject.geometryOf?)) :
    (s.pushObjects os).2.index.BuiltOnPoints := by
  -- the geometry of one object joins the sketch before the next object is looked at
  induction os generalizing s with
  | nil => exact hb
  | cons o os ih =>
      have hmem : ∀ {g : Geometry α}, g ∈ o.geometryOf? →
          g ∈ (o :: os).filterMap SketchObject.geometryOf? :=
        fun hg => List.mem_filterMap.2 ⟨o, List.mem_cons_self, hg⟩
      have hrest : ∀ {g : Geometry α}, g ∈ os.filterMap SketchObject.geometryOf? →
          g ∈ (o :: os).filterMap SketchObject.geometryOf? := by
        intro g hg
        obtain ⟨o', ho', hg'⟩ := List.mem_filterMap.1 hg
        exact List.mem_filterMap.2 ⟨o', List.mem_cons_of_mem _ ho', hg'⟩
      obtain ⟨hb', hnew⟩ := h.builtOnPoints_pushObject hb fun g hg p hp q hq =>
        hos g (hmem hg) p hp q (List.mem_append_left _ hq)
      have hstep := (act_pushObject h.toAnchored o).step
      rw [pushObjects]
      rcases hpush : s.pushObject o with ⟨e | u, t⟩ <;> rw [hpush] at hb' hnew hstep
      · exact hb'
      · refine ih (h.step hstep) hb' fun g hg p hp q hq hkey => ?_
        refine hos g (hrest hg) p hp q ?_ hkey
        rcases List.mem_append.1 hq with hq | hq
        · rcases hnew q hq with hq | hq
          · exact List.mem_append_left _ hq
          · exact List.mem_append_right _ (hmem hq)
        · exact List.mem_append_right _ (hrest hq)

theorem outline?_delete (s : Session (LeastSquares α) α) (id : Oid) :
    (s.delete id).2.index.outline? = s.index.outline? := by
  rcases s.delete_cases id with ⟨e, hdelete⟩ | ⟨tag, habsent, -, hdelete⟩
  · rw [hdelete]
  · rw [hdelete]
    exact outline?_congr (Index.geometryAt?_delete habsent)

theorem index_setName (s : Session (LeastSquares α) α) (name : String) (v : α) :
    (s.setName name v).2.index = s.index := by
  rcases s.setName_cases name v with ⟨e, hset⟩ | ⟨a, -, hset⟩
  · rw [hset]
  · rw [hset]

/-- As long as calls name nothing but points as points, a session is built on points. -/
theorem Sound.builtOnPoints_perform (h : Sound s) (hb : s.index.BuiltOnPoints) {r : Request α}
    (hr : s.index.NamesPoints r.geometries) : (s.perform r).index.BuiltOnPoints := by
  cases r with
  | push p =>
      have := h.builtOnPoints_pushObjects hb hr
      rwa [pushObjects_singleton] at this
  | pushObject o =>
      have := h.builtOnPoints_pushObjects hb hr
      rwa [pushObjects_singleton] at this
  | pushAll ps => exact h.builtOnPoints_pushObjects hb hr
  | pushObjects os => exact h.builtOnPoints_pushObjects hb hr
  | pushDocument d => exact h.builtOnPoints_pushObjects hb hr
  | pushExtra c =>
      rw [perform, (pushExtra_same s c).1]
      exact hb
  | setName name v =>
      rw [perform, index_setName]
      exact hb
  | delete id => exact (Index.builtOnPoints_congr (outline?_delete s id)).2 hb
  | apply => exact (Index.builtOnPoints_congr (applied_applySolution s).outlines).2 hb
  | clear => exact fun g hg => absurd hg List.not_mem_nil
  | clearExtra => exact hb
  | pushName name v => exact hb
  | solve => exact hb
  | solveWith a => exact hb
  | setAlgorithm a => exact hb
  | setDebugMode m => exact hb
  | setMaxIterations n => exact hb
  | setConvergence v => exact hb

theorem builtOnPoints_smallSession : smallSession.index.BuiltOnPoints := by
  intro g hg p hp
  rw [geometries_smallSession] at hg
  rcases List.mem_pair.1 hg with rfl | rfl <;> cases hp

/-- An id that geometry lists is certain to be that of a geometry that owns scalars, and nothing
more is checked: a push of geometry is taken whenever all its ids are such, and leaves a session
that is built on points exactly if they are points. -/
theorem Reachable.push_geometry_iff (h : Reachable s) :
    (∀ g ∈ s.index.geometries, ∀ p ∈ g.points, s.index.OwnsScalars p) ∧
    (∀ g : Geometry α, s.index.has g.id = false → s.index.counter ≠ Index.counterLimit →
      ((s.push (.geometry g)).1 = .ok () ↔ ∀ p ∈ g.points, s.index.OwnsScalars p) ∧
      ((s.push (.geometry g)).1 ≠ .ok () → ∃ p ∈ g.points, ¬ s.index.OwnsScalars p ∧
        s.push (.geometry g) = (.error (s.index.pointError p), s)) ∧
      ((s.push (.geometry g)).1 = .ok () →
        (g ∈ (s.push (.geometry g)).2.index.geometries) ∧
        ((s.push (.geometry g)).2.index.BuiltOnPoints ↔
          s.index.BuiltOnPoints ∧ ∀ p ∈ g.points, s.index.IsPoint p))) ∧
    ∀ r : Request α, s.index.NamesPoints r.geometries → s.index.BuiltOnPoints →
      (s.perform r).index.BuiltOnPoints := by
  have hs := h.sound
  refine ⟨hs.points_own, ?_, fun r hr hb => hs.builtOnPoints_perform hb hr⟩
  intro g hid hc
  rcases hs.push_geometry hid hc with ⟨p, hp, hown, hpush⟩ | ⟨hown, hok, hindex⟩
  · have hno : (s.push (.geometry g)).1 ≠ .ok () := by
      rw [hpush]
      nofun
    exact ⟨⟨fun hok => absurd hok hno, fun hall => absurd (hall p hp) hown⟩,
      fun _ => ⟨p, hp, hown, hpush⟩, fun hok => absurd hok hno⟩
  · refine ⟨⟨fun _ => hown, fun _ => hok⟩, fun hno => absurd hok hno, fun _ => ⟨?_, ?_⟩⟩
    · rw [hindex, Index.mem_geometries_insert hid]
      exact .inr rfl
    · rw [hindex]
      exact Index.builtOnPoints_insert _ hid hs.points_own hown

/-- A point, a circle around it, and a circle that takes the first circle for its center. -/
def circleOnCircle : Session (LeastSquares Float) Float :=
  (Session.new (LeastSquares.ofConfig .standard)).perform (.pushAll
    [.geometry ⟨⟨1⟩, .point 0.0 0.0 false⟩, .geometry ⟨⟨2⟩, .circle ⟨1⟩ 1.0⟩])

theorem push_circle_on_circle :
    (circleOnCircle.push (.geometry ⟨⟨3⟩, .circle ⟨2⟩ 1.0⟩)).1 = .ok () ∧
    ¬ (circleOnCircle.push (.geometry ⟨⟨3⟩, .circle ⟨2⟩ 1.0⟩)).2.index.BuiltOnPoints := by
  have h : Reachable circleOnCircle := .perform (.new _) _
  obtain ⟨-, hpush, -⟩ := h.push_geometry_iff
  obtain ⟨hok, -, hpoints⟩ := hpush ⟨⟨3⟩, .circle ⟨2⟩ 1.0⟩ rfl (by decide)
  have htaken : (circleOnCircle.push (.geometry ⟨⟨3⟩, .circle ⟨2⟩ 1.0⟩)).1 = .ok () := by
    refine hok.2 fun p hp => ?_
    obtain rfl := List.mem_singleton.1 hp
    exact ⟨⟨⟨2⟩, .circle ⟨1⟩ 1.0⟩, rfl, by decide⟩
  refine ⟨htaken, fun hb => ?_⟩
  obtain ⟨q, hq, hclass⟩ := ((hpoints htaken).2.1 hb).2 ⟨2⟩ (List.mem_singleton_self _)
  cases hq
  cases hclass

end Session

end PlanarSketch

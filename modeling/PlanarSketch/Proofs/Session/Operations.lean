import PlanarSketch.Proofs.Session.Ownership
import PlanarSketch.Proofs.Session.Push

/-!
Every operation of a session is a step, also when it is refused.
-/

namespace PlanarSketch

open LeastSquares

variable {α : Type}

namespace Index

theorem geometryAt?_insert (x : Index α) (p : Primitive α) (n : Nat) :
    (⟨x.items.insert p.id p, n⟩ : Index α).geometryAt? =
      Function.update x.geometryAt? p.id p.geometry? := by
  funext id
  rw [Function.update_apply, geometryAt?, get?, Table.find?_insert]
  by_cases hid : id = p.id
  · simp [hid]
  · simp [hid, geometryAt?, get?]

theorem geometryAt?_insert_constraint {x : Index α} {c : Constraint α} (n : Nat)
    (h : x.has c.id = false) :
    (⟨x.items.insert c.id (.constraint c), n⟩ : Index α).geometryAt? = x.geometryAt? := by
  have hins := geometryAt?_insert x (.constraint c) n
  have hnone : x.geometryAt? c.id = Primitive.geometry? (.constraint c) := geometryAt?_of_has h
  rw [show (Primitive.constraint c).id = c.id from rfl] at hins
  rw [hins, ← hnone, Function.update_eq_self]

theorem geometryAt?_delete {x : Index α} {id : Oid} (h : x.geometryAt? id = none) :
    (x.delete id).geometryAt? = x.geometryAt? := by
  funext id'
  rw [geometryAt?, get?_delete]
  by_cases hid : id' = id
  · rw [if_pos hid, hid, h]
    rfl
  · rw [if_neg hid, geometryAt?]

theorem outline?_put {x : Index α} {id : Oid} {p q : Primitive α} (h : x.get? id = some p)
    (hq : Option.map Geometry.outline q.geometry? = Option.map Geometry.outline p.geometry?) :
    (x.put id q).outline? = x.outline? := by
  funext id'
  rw [outline?, geometryAt?, get?_put, outline?, geometryAt?]
  by_cases hid : id' = id
  · rw [if_pos ⟨hid, has_iff.2 ⟨p, h⟩⟩, hid, h]
    exact hq
  · rw [if_neg fun hc => hid hc.1]

end Index

namespace Session

section

variable {σ : Type}

theorem store_new {s : Session σ α} {p : Primitive α} (h : s.index.has p.id = false)
    (hc : s.index.counter ≠ Index.counterLimit) :
    s.store p = (.ok (), { s with
      index := ⟨s.index.items.insert p.id p, s.index.counter + 1⟩, phase := .building }) := by
  rw [store, Index.set_new h hc]

variable [Solver σ α]

/-- A push under a used id, or past the last insertion that can be counted, does nothing. -/
theorem push_guard [Scalar α] (s : Session σ α) (p : Primitive α) :
    (∃ e, s.push p = (.error e, s)) ∨
      s.index.has p.id = false ∧ s.index.counter ≠ Index.counterLimit := by
  by_cases hid : s.index.has p.id = true
  · exact .inl ⟨_, by rw [push.eq_def, if_pos hid]⟩
  by_cases hc : s.index.counter = Index.counterLimit
  · exact .inl ⟨_, by rw [push.eq_def, if_neg hid, if_pos hc]⟩
  exact .inr ⟨by simpa using hid, hc⟩

/-- Points that have their blocks are left alone, so placing points does nothing but check. -/
theorem pushPoints_eq {x : Index α} {al : Allocator} (solver : σ)
    (h : ∀ {id g}, x.geometryOf .point id = .ok g → al.has id) (ids : List Oid) :
    Layout.pushPoints x ids (al, solver) =
      (match ids.find? fun id => !al.has id with
        | none => .ok ()
        | some id => (x.geometryOf .point id).map fun _ => (), al, solver) := by
  induction ids with
  | nil => rfl
  | cons id ids ih =>
      rw [Layout.pushPoints, List.find?_cons]
      cases hhas : al.has id with
      | true =>
          rw [if_pos rfl]
          exact ih
      | false =>
          rw [if_neg Bool.false_ne_true]
          -- a point without a block is not indexed as a point, so nothing is ever allocated
          cases hg : x.geometryOf .point id with
          | error e =>
              simp only [Bool.not_false, hg]
              rfl
          | ok g =>
              have := h hg
              simp [hhas] at this

/-- A geometry without a block gets one at the end of the solver, unless it owns no scalars. -/
theorem pushOwn_blocks {al : Allocator} {g : Geometry α} (solver : σ) (h : al.has g.id = false) :
    (∀ id, (Layout.pushOwn g (al, solver)).1.blocks.find? id =
        if id = g.id ∧ 0 < g.geometryClass.ownCount then some (Solver.size solver)
        else al.blocks.find? id) ∧
      (Layout.pushOwn g (al, solver)).1.names = al.names ∧
      (Layout.pushOwn g (al, solver)).2 =
        Allocator.pushPrivate solver g.shape.scalars g.shape.fixed := by
  have hlen : g.shape.scalars.length = g.geometryClass.ownCount := Shape.scalars_length _
  unfold Layout.pushOwn
  cases hscalars : g.shape.scalars with
  | nil =>
      rw [hscalars, List.length_nil] at hlen
      rw [← hlen]
      simp [Allocator.pushPrivate]
  | cons v vs =>
      rw [hscalars, List.length_cons] at hlen
      have hpos : 0 < g.geometryClass.ownCount := by omega
      simp only [h, List.isEmpty_cons, Bool.or_false, Bool.false_eq_true, if_false,
        Allocator.push, Table.find?_insert, hpos, and_true]
      exact fun _ => trivial

end

variable {s t : Session (LeastSquares α) α}

theorem Anchored.has_point (h : Anchored s) {id : Oid} {g : Geometry α}
    (hg : s.index.geometryOf .point id = .ok g) : s.allocator.has id := by
  obtain ⟨hget, hclass⟩ := Index.geometryOf_eq_ok.1 hg
  refine h.allocated (Index.outline?_of_get? hget) ?_
  change 0 < g.geometryClass.ownCount
  rw [hclass]
  decide

theorem Anchored.no_block (h : Anchored s) {id : Oid} (hid : s.index.has id = false) :
    s.allocator.has id = false := by
  rw [Bool.eq_false_iff]
  intro hhas
  obtain ⟨base, hbase⟩ := Allocator.has_iff.1 hhas
  obtain ⟨o, ho, -⟩ := h.held hbase
  rw [Index.outline?, Index.geometryAt?_of_has hid] at ho
  cases ho

theorem Step.refl (s : Session (LeastSquares α) α) : Step s s := .keep rfl rfl rfl rfl

/-- The session `t` is `s` with a new geometry and its block. -/
structure Placed (s : Session (LeastSquares α) α) (g : Geometry α)
    (t : Session (LeastSquares α) α) : Prop where
  fresh : s.index.has g.id = false
  points : ∀ p ∈ g.points, s.allocator.has p
  index : t.index = ⟨s.index.items.insert g.id (.geometry g), s.index.counter + 1⟩
  blocks : ∀ id, t.allocator.blocks.find? id =
    if id = g.id ∧ 0 < g.geometryClass.ownCount then some s.solver.size
    else s.allocator.blocks.find? id
  names : t.allocator.names = s.allocator.names
  grown : s.solver.Grown (g.shape.scalars.map fun v => ⟨v, g.shape.fixed⟩) [] t.solver
  measured : t.measured = s.measured
  phase : t.phase = .building

theorem Placed.step {g : Geometry α} (h : Placed s g t) : Step s t := by
  refine .place (Index.geometryAt?_of_has h.fresh) h.points ?_ h.blocks h.names h.grown
  rw [h.index]
  exact Index.geometryAt?_insert _ (.geometry g) _

variable [Scalar α]

/-- The session `t` is `s` with a new constraint and its entry. -/
structure Admitted (s : Session (LeastSquares α) α) (c : Constraint α) (e : Entry α)
    (outputs : Outputs) (t : Session (LeastSquares α) α) : Prop where
  fresh : s.index.has c.id = false
  tagged : c.id.tag = .ok e.tag
  enters : c.Enters e.tag s.solver e outputs t.solver
  index : t.index = ⟨s.index.items.insert c.id (.constraint c), s.index.counter + 1⟩
  allocator : t.allocator = s.allocator
  measured : t.measured = if outputs.isEmpty then s.measured else s.measured.insert c.id outputs
  phase : t.phase = .building

theorem Admitted.step {c : Constraint α} {e : Entry α} {outputs : Outputs}
    (h : Admitted s c e outputs t) : Step s t := by
  refine .append ?_ (by rw [h.allocator]) ?_ h.enters.annexed
  · rw [h.index]
    exact Index.geometryAt?_insert_constraint _ h.fresh
  · rw [h.allocator]
    exact .inl

variable [Decompositions α]

theorem grown_pushPrivate (s : LeastSquares α) (vs : List α) (fixed : Bool) :
    s.Grown (vs.map fun v => ⟨v, fixed⟩) [] (Allocator.pushPrivate s vs fixed) := by
  rw [Placement.pushPrivate_eq]
  exact ⟨rfl, by simp, rfl, rfl, rfl⟩

theorem pushOwn_spec {al : Allocator} {g : Geometry α} (solver : LeastSquares α)
    (h : al.has g.id = false) :
    (∀ id, (Layout.pushOwn g (al, solver)).1.blocks.find? id =
        if id = g.id ∧ 0 < g.geometryClass.ownCount then some solver.size
        else al.blocks.find? id) ∧
      (Layout.pushOwn g (al, solver)).1.names = al.names ∧
      solver.Grown (g.shape.scalars.map fun v => ⟨v, g.shape.fixed⟩) []
        (Layout.pushOwn g (al, solver)).2 := by
  obtain ⟨hblocks, hnames, hsolver⟩ := pushOwn_blocks solver h
  exact ⟨hblocks, hnames, hsolver ▸ grown_pushPrivate solver g.shape.scalars g.shape.fixed⟩

/-- A geometry with an unused id is stored with its block, or a point is refused and nothing
happens. -/
theorem pushGeometry_cases (h : Anchored s) {g : Geometry α} (hid : s.index.has g.id = false)
    (hc : s.index.counter ≠ Index.counterLimit) :
    (∃ id e, g.points.find? (fun id => !s.allocator.has id) = some id ∧
      s.index.geometryOf .point id = .error e ∧ s.push (.geometry g) = (.error e, s)) ∨
    ∃ t, s.push (.geometry g) = (.ok (), t) ∧ Placed s g t := by
  have hpoints := pushPoints_eq s.solver h.has_point g.points
  have hpush : s.push (.geometry g) = s.pushGeometry g := by
    rw [push, if_neg (by rw [show (Primitive.geometry g).id = g.id from rfl, hid]; simp), if_neg hc]
  rw [hpush, pushGeometry, Layout.push, hpoints]
  cases hfind : g.points.find? fun id => !s.allocator.has id with
  | some id =>
      cases hof : s.index.geometryOf .point id with
      | error e => exact .inl ⟨id, e, rfl, hof, by simp only [hof]; rfl⟩
      | ok g' =>
          have hhas := List.find?_some hfind
          rw [h.has_point hof] at hhas
          cases hhas
  | none =>
      have hhas : ∀ p ∈ g.points, s.allocator.has p := by
        intro p hp
        simpa using List.find?_eq_none.1 hfind p hp
      obtain ⟨hblocks, hnames, hgrown⟩ := pushOwn_spec s.solver (h.no_block hid)
      exact .inr ⟨_, store_new hid hc, hid, hhas, rfl, hblocks, hnames, hgrown, rfl, rfl⟩

theorem pushConstraint_cases {c : Constraint α} (hid : s.index.has c.id = false)
    (hc : s.index.counter ≠ Index.counterLimit) :
    (∃ e, c.id.tag = .error e ∧ s.push (.constraint c) = (.error e, s)) ∨
    ∃ tag, c.id.tag = .ok tag ∧
      ((∃ e, (c.push s.index s.allocator s.solver tag).1 = .error e ∧
        s.push (.constraint c) =
          (.error e, { s with solver := (c.push s.index s.allocator s.solver tag).2 })) ∨
      ∃ outputs t, (c.push s.index s.allocator s.solver tag).1 = .ok outputs ∧
        s.push (.constraint c) = (.ok (), t) ∧
        t.solver = (c.push s.index s.allocator s.solver tag).2 ∧
        t.index = ⟨s.index.items.insert c.id (.constraint c), s.index.counter + 1⟩ ∧
        t.allocator = s.allocator ∧
        t.measured = (if outputs.isEmpty then s.measured else s.measured.insert c.id outputs) ∧
        t.phase = .building) := by
  have hpush : s.push (.constraint c) = s.pushConstraint c := by
    rw [push, if_neg (by rw [show (Primitive.constraint c).id = c.id from rfl, hid]; simp),
      if_neg hc]
  rw [hpush, pushConstraint]
  cases htag : c.id.tag with
  | error e => exact .inl ⟨e, rfl, rfl⟩
  | ok tag =>
      refine .inr ⟨tag, rfl, ?_⟩
      dsimp only
      rcases hcall : c.push s.index s.allocator s.solver tag with ⟨e | outputs, solver⟩
      · exact .inl ⟨e, rfl, rfl⟩
      · exact .inr ⟨outputs, _, rfl, store_new hid hc, rfl, rfl, rfl, rfl, rfl⟩

/-- All ways in which a push can end. -/
theorem push_cases (h : Anchored s) (p : Primitive α) :
    (∃ e, s.push p = (.error e, s)) ∨
    (∃ c tag e solver, p = .constraint c ∧
      c.push s.index s.allocator s.solver tag = (.error e, solver) ∧
      s.push p = (.error e, { s with solver := solver })) ∨
    (∃ g t, p = .geometry g ∧ s.push p = (.ok (), t) ∧ Placed s g t) ∨
    ∃ c e outputs t, p = .constraint c ∧ s.push p = (.ok (), t) ∧ Admitted s c e outputs t := by
  rcases push_guard s p with ⟨e, hpush⟩ | ⟨hid, hc⟩
  · exact .inl ⟨e, hpush⟩
  cases p with
  | geometry g =>
      rcases pushGeometry_cases h hid hc with ⟨id, e, -, -, hpush⟩ | ⟨t, hpush, hplaced⟩
      · exact .inl ⟨e, hpush⟩
      · exact .inr (.inr (.inl ⟨g, t, rfl, hpush, hplaced⟩))
  | constraint c =>
      rcases pushConstraint_cases hid hc with ⟨e, -, hpush⟩ | ⟨tag, htag, ⟨e, herror, hpush⟩ |
        ⟨outputs, t, hok, hpush, hsolver, hindex, hallocator, hmeasured, hphase⟩⟩
      · exact .inl ⟨e, hpush⟩
      · exact .inr (.inl ⟨c, tag, e, _, rfl, Prod.ext herror rfl, hpush⟩)
      · obtain ⟨e, henters⟩ := Constraint.push_ok (Prod.ext hok hsolver.symm)
        obtain rfl := henters.stores.tag
        exact .inr (.inr (.inr ⟨c, e, outputs, t, rfl, hpush, hid, htag, henters, hindex,
          hallocator, hmeasured, hphase⟩))

theorem Anchored.admitted_of_push (h : Anchored s) {c : Constraint α}
    (hpush : s.push (.constraint c) = (.ok (), t)) : ∃ e outputs, Admitted s c e outputs t := by
  rcases push_cases h (.constraint c) with ⟨e, hcase⟩ | ⟨c', tag, e, solver, -, -, hcase⟩ |
    ⟨g, t', hp, -⟩ | ⟨c', e, outputs, t', hp, hcase, hadmitted⟩
  · cases hpush.symm.trans hcase
  · cases hpush.symm.trans hcase
  · cases hp
  · cases hp
    obtain rfl : t = t' := congrArg Prod.snd (hpush.symm.trans hcase)
    exact ⟨e, outputs, hadmitted⟩

theorem push_constraint_same (s : Session (LeastSquares α) α) (c : Constraint α) :
    (s.push (.constraint c)).2.index.geometryAt? = s.index.geometryAt? ∧
      (s.push (.constraint c)).2.allocator = s.allocator := by
  rcases push_guard s (.constraint c) with ⟨e, hpush⟩ | ⟨hid, hc⟩
  · rw [hpush]
    exact ⟨rfl, rfl⟩
  rcases pushConstraint_cases hid hc with ⟨e, -, hpush⟩ |
    ⟨tag, -, ⟨e, -, hpush⟩ | ⟨outputs, t, -, hpush, -, hindex, hallocator, -⟩⟩
  · rw [hpush]
    exact ⟨rfl, rfl⟩
  · rw [hpush]
    exact ⟨rfl, rfl⟩
  · rw [hpush, hindex]
    exact ⟨Index.geometryAt?_insert_constraint _ hid, hallocator⟩

theorem pushExtra_cases (s : Session (LeastSquares α) α) (c : Constraint α) :
    s.pushExtra c = (.error (.nonDrivingExtra c.kind), s) ∨
    (∃ e solver, c.push s.index s.allocator s.solver extraTag = (.error e, solver) ∧
      s.pushExtra c = (.error e, { s with solver := solver })) ∨
    ∃ outputs solver, c.isDriving = true ∧
      c.push s.index s.allocator s.solver extraTag = (.ok outputs, solver) ∧
      s.pushExtra c = (.ok (), { s with solver := solver, phase := .building }) := by
  unfold pushExtra
  split
  · next hdriving =>
      rcases c.push s.index s.allocator s.solver extraTag with ⟨e | outputs, solver⟩
      · exact .inr (.inl ⟨e, solver, rfl, rfl⟩)
      · exact .inr (.inr ⟨outputs, solver, hdriving, rfl, rfl⟩)
  · exact .inl rfl

theorem pushExtra_same (s : Session (LeastSquares α) α) (c : Constraint α) :
    (s.pushExtra c).2.index = s.index ∧ (s.pushExtra c).2.allocator = s.allocator := by
  rcases s.pushExtra_cases c with hpush | ⟨e, solver, -, hpush⟩ | ⟨outputs, solver, -, -, hpush⟩
  · rw [hpush]
    exact ⟨rfl, rfl⟩
  · rw [hpush]
    exact ⟨rfl, rfl⟩
  · rw [hpush]
    exact ⟨rfl, rfl⟩

/-- A deletion is refused, or takes out whatever is stored under the id of a constraint. -/
theorem delete_cases (s : Session (LeastSquares α) α) (id : Oid) :
    (∃ e, s.delete id = (.error e, s)) ∨
    ∃ tag, s.index.geometryAt? id = none ∧ id.tag = .ok tag ∧
      s.delete id = (.ok (s.index.has id), { s with
        solver := s.solver.clearTag tag
        index := s.index.delete id
        measured := s.measured.erase id
        phase := .building }) := by
  unfold delete
  split
  · exact .inl ⟨_, rfl⟩
  · next hget =>
      cases id.tag with
      | error e => exact .inl ⟨e, rfl⟩
      | ok tag => exact .inr ⟨tag, Index.geometryAt?_eq_none hget, rfl, rfl⟩

theorem setName_cases (s : Session (LeastSquares α) α) (name : String) (v : α) :
    (∃ e, s.setName name v = (.error e, s)) ∨
    ∃ a : Address, s.allocator.names.find? name = some a ∧
      s.setName name v = (.ok (), { s with
        solver := { s.solver with cells := s.solver.cells.setIfInBounds a ⟨v, true⟩ }
        phase := .building }) := by
  unfold setName
  cases hname : s.allocator.nameAddress name with
  | error e => exact .inl ⟨e, rfl⟩
  | ok a =>
      have hassign : Solver.assign s.solver a v true =
          s.solver.attempt ((s.solver.assign a v true).map fun t => ((), t)) := rfl
      dsimp only
      rw [hassign, LeastSquares.assign]
      by_cases ha : a < s.solver.size
      · rw [if_pos ha]
        exact .inr ⟨a, Allocator.nameAddress_eq_ok.1 hname, rfl⟩
      · rw [if_neg ha]
        exact .inl ⟨_, rfl⟩

/-! ### Steps -/

theorem step_push (h : Anchored s) (p : Primitive α) : Step s (s.push p).2 := by
  rcases push_cases h p with ⟨e, hpush⟩ | ⟨c, tag, e, solver, -, hcall, hpush⟩ |
    ⟨g, t, -, hpush, hplaced⟩ | ⟨c, e, outputs, t, -, hpush, hadmitted⟩
  · rw [hpush]
    exact .refl s
  · -- what a failed push leaves behind is fixed
    rw [hpush]
    obtain ⟨vs, hgrown⟩ := Constraint.push_error hcall
    exact .append rfl rfl .inl (.of_fixed (f := id) hgrown)
  · rw [hpush]
    exact hplaced.step
  · rw [hpush]
    exact hadmitted.step

theorem step_pushExtra (s : Session (LeastSquares α) α) (c : Constraint α) :
    Step s (s.pushExtra c).2 := by
  rcases s.pushExtra_cases c with hpush | ⟨e, solver, hcall, hpush⟩ |
    ⟨outputs, solver, -, hcall, hpush⟩
  · rw [hpush]
    exact .refl s
  · rw [hpush]
    obtain ⟨vs, hgrown⟩ := Constraint.push_error hcall
    exact .append rfl rfl .inl (.of_fixed (f := id) hgrown)
  · rw [hpush]
    obtain ⟨e, henters⟩ := Constraint.push_ok hcall
    exact .append rfl rfl .inl henters.annexed

theorem step_pushName (s : Session (LeastSquares α) α) (name : String) (v : α) :
    Step s (s.pushName name v) := by
  have hgrown := grown_pushPrivate s.solver [v] true
  refine .append rfl rfl ?_ (.of_fixed (f := id) hgrown)
  intro n a ha
  change (s.allocator.names.insert name s.solver.size).find? n = some a at ha
  rw [Table.find?_insert] at ha
  by_cases hn : n = name
  · rw [if_pos hn, Option.some.injEq] at ha
    subst ha
    have hlt : s.solver.size < (Allocator.pushPrivate s.solver [v] true).size := by
      rw [hgrown.size]
      simp
    exact .inr ⟨Nat.le_refl _, hgrown.fixed?_new (f := id) (Nat.le_refl _) hlt⟩
  · rw [if_neg hn] at ha
    exact .inl ha

theorem step_clearExtra (s : Session (LeastSquares α) α) : Step s s.clearExtra :=
  .forget extraTag rfl rfl rfl

theorem step_delete (s : Session (LeastSquares α) α) (id : Oid) : Step s (s.delete id).2 := by
  rcases s.delete_cases id with ⟨e, hdelete⟩ | ⟨tag, habsent, -, hdelete⟩
  · rw [hdelete]
    exact .refl s
  · rw [hdelete]
    exact .forget tag (Index.geometryAt?_delete habsent) rfl rfl

theorem step_setName (s : Session (LeastSquares α) α) (name : String) (v : α) :
    Step s (s.setName name v).2 := by
  rcases s.setName_cases name v with ⟨e, hset⟩ | ⟨a, hname, hset⟩
  · rw [hset]
    exact .refl s
  · rw [hset]
    exact .assign rfl rfl hname rfl rfl

theorem step_solveWith (s : Session (LeastSquares α) α) (algorithm : Algorithm) :
    Step s (s.solveWith algorithm).2 := .keep rfl rfl rfl rfl

/-! ### Applying a solution -/

theorem outline_pullFrom (solver : LeastSquares α) (base : Address)
    (ps : List (Property × Nat)) (g : Geometry α) :
    (Layout.pullFrom solver base ps g).2.outline = g.outline := by
  induction ps generalizing g with
  | nil => rfl
  | cons p ps ih =>
      rw [Layout.pullFrom]
      cases Solver.value solver (base + p.2) with
      | error e => rfl
      | ok v =>
          refine (ih _).trans ?_
          simp only [Geometry.outline, Geometry.geometryClass, Geometry.points,
            Shape.class_set, Shape.points_set, Shape.fixed_set]

theorem outline_pull (solver : LeastSquares α) (al : Allocator) (g : Geometry α) :
    (Layout.pull solver al g).2.outline = g.outline := by
  unfold Layout.pull
  split
  · rfl
  · exact outline_pullFrom ..

theorem outline_pullPrimitive (s : Session (LeastSquares α) α) (id : Oid) (p : Primitive α) :
    Option.map Geometry.outline (Primitive.geometry? (s.pullPrimitive id p).2) =
      Option.map Geometry.outline p.geometry? := by
  cases p with
  | geometry g => exact congrArg some (outline_pull s.solver s.allocator g)
  | constraint c => rfl

theorem pullAll_spec (ids : List Oid) (s : Session (LeastSquares α) α) :
    (pullAll ids s).2.index.outline? = s.index.outline? ∧
      (pullAll ids s).2.allocator = s.allocator ∧ (pullAll ids s).2.solver = s.solver := by
  induction ids generalizing s with
  | nil => exact ⟨rfl, rfl, rfl⟩
  | cons id ids ih =>
      rw [pullAll]
      cases hget : s.index.get? id with
      | none => exact ih s
      | some p =>
          have hput := Index.outline?_put hget (outline_pullPrimitive s id p)
          dsimp only
          rcases hpull : s.pullPrimitive id p with ⟨e | u, p'⟩ <;> rw [hpull] at hput
          · exact ⟨hput, rfl, rfl⟩
          · obtain ⟨hindex, hallocator, hsolver⟩ := ih { s with index := s.index.put id p' }
            exact ⟨hindex.trans hput, hallocator, hsolver⟩

theorem applySolution_of_solved (h : s.phase = .solved) :
    s.applySolution.2.index.outline? = s.index.outline? ∧
      s.applySolution.2.allocator = s.allocator ∧
      s.applySolution.2.solver = s.solver.applySolution := by
  rw [applySolution, if_pos h]
  exact pullAll_spec s.index.ids { s with solver := s.solver.applySolution }

theorem applied_applySolution (s : Session (LeastSquares α) α) :
    Applied s s.applySolution.2 := by
  by_cases hphase : s.phase = .solved
  · obtain ⟨hindex, hallocator, hsolver⟩ := applySolution_of_solved hphase
    refine ⟨hindex, hallocator, ?_, ?_⟩
    · rw [hsolver]
      exact fixed?_applySolution s.solver
    · rw [hsolver]
      rfl
  · rw [applySolution, if_neg hphase]
    exact ⟨rfl, rfl, rfl, rfl⟩

end Session

end PlanarSketch

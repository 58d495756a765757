import PlanarSketch.Proofs.Session.Operations

/-!
What an operation does to the solver besides its scalars. Handles, radii and constraints come in
with a push of a constraint, and with nothing else: geometry and names only bring scalars.
-/

namespace PlanarSketch

open LeastSquares

variable {α : Type}

theorem Session.solver_store {σ : Type} (s : Session σ α) (p : Primitive α) :
    (s.store p).2.solver = s.solver := by
  unfold store
  split <;> rfl

variable [Scalar α]

namespace Layout

variable [Decompositions α]

theorem block_cells (al : Allocator) (s : LeastSquares α) (id : Oid) (vs : List α)
    (fixed : Bool) : ∃ cells, (al.push s id vs fixed).2 = { s with cells := cells } :=
  ⟨_, Placement.pushPrivate_eq s vs fixed⟩

theorem pushPoints_cells (x : Index α) (ids : List Oid) (al : Allocator) (s : LeastSquares α) :
    ∃ cells, (pushPoints x ids (al, s)).2.2 = { s with cells := cells } := by
  induction ids generalizing al s with
  | nil => exact ⟨s.cells, rfl⟩
  | cons id ids ih =>
      rw [pushPoints]
      split
      · exact ih al s
      · split
        · exact ⟨s.cells, rfl⟩
        · next g _ =>
            obtain ⟨cells, hblock⟩ := block_cells al s g.id g.shape.scalars g.shape.fixed
            obtain ⟨cells', hrest⟩ := ih (al.push s g.id g.shape.scalars g.shape.fixed).1
              (al.push s g.id g.shape.scalars g.shape.fixed).2
            exact ⟨cells', by rw [hrest, hblock]⟩

theorem pushOwn_cells (g : Geometry α) (al : Allocator) (s : LeastSquares α) :
    ∃ cells, (pushOwn g (al, s)).2 = { s with cells := cells } := by
  unfold pushOwn
  split
  · exact ⟨s.cells, rfl⟩
  · exact block_cells ..

theorem push_cells (x : Index α) (g : Geometry α) (al : Allocator) (s : LeastSquares α) :
    ∃ cells, (push x g (al, s)).2.2 = { s with cells := cells } := by
  obtain ⟨cells, hpoints⟩ := pushPoints_cells x g.points al s
  rw [push]
  rcases hcase : pushPoints x g.points (al, s) with ⟨e | u, al', s'⟩ <;> rw [hcase] at hpoints
  · exact ⟨cells, hpoints⟩
  · obtain ⟨cells', hown⟩ := pushOwn_cells g al' s'
    obtain rfl : s' = { s with cells := cells } := hpoints
    exact ⟨cells', hown⟩

end Layout

namespace Session

variable [Decompositions α] {s t : Session (LeastSquares α) α}

/-- What one call to a session can do to the records, the radii and the entries of its solver. -/
inductive Wiring (s t : Session (LeastSquares α) α) : Prop where
  /-- Constraints may go. -/
  | keep (records : t.solver.records = s.solver.records) (radii : t.solver.radii = s.solver.radii)
      (entries : t.solver.entries ⊆ s.solver.entries)
  /-- A constraint is pushed, be it taken or refused. -/
  | push (c : Constraint α) (tag : Int)
      (geometries : t.index.geometryAt? = s.index.geometryAt?)
      (allocator : t.allocator = s.allocator)
      (solver : t.solver = (c.push s.index s.allocator s.solver tag).2)

theorem Wiring.refl (s : Session (LeastSquares α) α) : Wiring s s :=
  .keep rfl rfl (List.Subset.refl _)

theorem Wiring.of_cells (cells : Array (Cell α))
    (h : t.solver = { s.solver with cells := cells }) : Wiring s t :=
  .keep (by rw [h]) (by rw [h]) (by rw [h]; exact List.Subset.refl _)

theorem wiring_pushGeometry (s : Session (LeastSquares α) α) (g : Geometry α) :
    Wiring s (s.pushGeometry g).2 := by
  obtain ⟨cells, hcells⟩ := Layout.push_cells s.index g s.allocator s.solver
  unfold pushGeometry
  rcases hcase : Layout.push s.index g (s.allocator, s.solver) with ⟨e | u, al, solver⟩ <;>
    rw [hcase] at hcells
  · exact .of_cells cells hcells
  · refine .of_cells cells ?_
    dsimp only
    rw [solver_store]
    exact hcells

theorem wiring_push (s : Session (LeastSquares α) α) (p : Primitive α) :
    Wiring s (s.push p).2 := by
  rcases push_guard s p with ⟨e, hpush⟩ | ⟨hid, hc⟩
  · rw [hpush]
    exact .refl s
  cases p with
  | geometry g =>
      have hpush : s.push (.geometry g) = s.pushGeometry g := by
        rw [Session.push, if_neg (by rw [hid]; exact Bool.false_ne_true), if_neg hc]
      rw [hpush]
      exact wiring_pushGeometry s g
  | constraint c =>
      obtain ⟨hgeometries, hallocator⟩ := push_constraint_same s c
      rcases pushConstraint_cases hid hc with ⟨e, -, hpush⟩ |
        ⟨tag, -, ⟨e, -, hpush⟩ | ⟨outputs, t, -, hpush, hsolver, -⟩⟩
      · rw [hpush]
        exact .refl s
      · refine .push c tag hgeometries hallocator ?_
        rw [hpush]
      · refine .push c tag hgeometries hallocator ?_
        rw [hpush]
        exact hsolver

theorem wiring_pushExtra (s : Session (LeastSquares α) α) (c : Constraint α) :
    Wiring s (s.pushExtra c).2 := by
  rcases s.pushExtra_cases c with hpush | ⟨e, solver, hcall, hpush⟩ |
    ⟨outputs, solver, -, hcall, hpush⟩
  · rw [hpush]
    exact .refl s
  · rw [hpush]
    exact .push c extraTag rfl rfl (by rw [hcall])
  · rw [hpush]
    exact .push c extraTag rfl rfl (by rw [hcall])

theorem wiring_pushName (s : Session (LeastSquares α) α) (name : String) (v : α) :
    Wiring s (s.pushName name v) := .of_cells _ (Placement.pushPrivate_eq s.solver [v] true)

theorem wiring_clearExtra (s : Session (LeastSquares α) α) : Wiring s s.clearExtra :=
  .keep rfl rfl List.filter_sublist.subset

theorem wiring_delete (s : Session (LeastSquares α) α) (id : Oid) :
    Wiring s (s.delete id).2 := by
  rcases s.delete_cases id with ⟨e, hdelete⟩ | ⟨tag, -, -, hdelete⟩
  · rw [hdelete]
    exact .refl s
  · rw [hdelete]
    exact .keep rfl rfl List.filter_sublist.subset

theorem wiring_setName (s : Session (LeastSquares α) α) (name : String) (v : α) :
    Wiring s (s.setName name v).2 := by
  rcases s.setName_cases name v with ⟨e, hset⟩ | ⟨a, -, hset⟩
  · rw [hset]
    exact .refl s
  · rw [hset]
    exact .of_cells _ rfl

theorem wiring_solveWith (s : Session (LeastSquares α) α) (algorithm : Algorithm) :
    Wiring s (s.solveWith algorithm).2 := .keep rfl rfl (List.Subset.refl _)

theorem wiring_applySolution (s : Session (LeastSquares α) α) :
    Wiring s s.applySolution.2 := by
  by_cases hphase : s.phase = .solved
  · have hsolver := (applySolution_of_solved hphase).2.2
    exact .keep (by rw [hsolver]; rfl) (by rw [hsolver]; rfl)
      (by rw [hsolver]; exact List.Subset.refl _)
  · rw [applySolution, if_neg hphase]
    exact .refl s

/-- A step that an operation really takes. -/
structure Act (s t : Session (LeastSquares α) α) : Prop where
  step : Step s t
  wiring : Wiring s t

/-- A change of settings. -/
theorem act_tune (s : Session (LeastSquares α) α) (config : Config α) (algorithm : Algorithm) :
    Act s { s with solver := { s.solver with config := config }, algorithm := algorithm } :=
  ⟨.keep rfl rfl rfl rfl, .keep rfl rfl (List.Subset.refl _)⟩

end Session

end PlanarSketch

import PlanarSketch.Proofs.LeastSquares.Resting
import PlanarSketch.Proofs.Session.Entries
import PlanarSketch.Proofs.Session.Reads

/-!
A solution that has been applied is a fixed point of solving. The next solve starts where the last
one ended and finds nothing to improve, whichever method it uses, so it comes to the same verdict
and the same diagnosis; and since no geometry owns a scalar that is measured, what it brings back
for the geometry is what is there.
-/

namespace PlanarSketch

open LeastSquares

variable {α : Type} [Scalar α]

namespace Session

variable [Decompositions α] {s t : Session (LeastSquares α) α}

theorem Reachable.readable (h : Reachable s) : Readable s := by
  obtain ⟨es, hl⟩ := h.exists_ledger
  exact hl.readable h.sound

theorem Reachable.unmixed (h : Reachable s) (hb : s.index.BuiltOnPoints) : s.solver.Unmixed where
  reads := by
    intro e he a ha
    obtain ⟨he, hdriving⟩ := List.mem_filter.1 he
    have hsteady := (h.wired hb).reads he hdriving ha
    exact ⟨h.sound.lt_of_steady hsteady, h.sound.not_mem_outputs hsteady⟩
  radii := by
    intro a ha
    have hsteady : s.Steady a := .inr ((h.wired hb).radii ha)
    exact ⟨h.sound.lt_of_steady hsteady, h.sound.not_mem_outputs hsteady⟩

/-- Solving and applying leads to the session with the solution written and read back. -/
theorem Reachable.apply_solveWith (h : Reachable s) (algorithm : Algorithm) :
    (s.solveWith algorithm).2.applySolution = (.ok (), (s.solveWith algorithm).2.applied) :=
  (h.perform (.solveWith algorithm)).readable.applySolution_eq rfl

theorem Reachable.solved (h : Reachable s) (algorithm : Algorithm) :
    Reachable (s.solveWith algorithm).2.applied := by
  have hreach := (h.perform (.solveWith algorithm)).perform .apply
  have heq : ((s.perform (.solveWith algorithm)).perform .apply) =
      (s.solveWith algorithm).2.applied := congrArg Prod.snd (h.apply_solveWith algorithm)
  rwa [heq] at hreach

/-- Where the solver has nothing to do, applying another solution leaves the geometry as it is. -/
theorem Reachable.geometry_at_rest [Scalar.Consistent α] (h : Reachable s) (hsynced : Synced s)
    (hrest : s.solver.Resting) (algorithm : Algorithm) :
    (s.solveWith algorithm).2.applied.index.geometryAt? = s.index.geometryAt? := by
  have hanchored := h.sound.toAnchored
  have hreread : ∀ id g, s.index.get? id = some (.geometry g) →
      (s.solveWith algorithm).2.written.reread id (.geometry g) = .geometry g := by
    intro id g hg
    refine Eq.trans ?_ (hsynced id _ hg)
    refine reread_geometry_congr rfl fun {base i} hbase hi => ?_
    rw [hanchored.key hg] at hbase
    have howns := hanchored.owns_offset hg hbase hi
    exact hrest.read_settled_eq algorithm (howns.lt hanchored)
      (h.sound.not_mem_outputs (.inr ⟨_, howns⟩))
  funext id
  have hget : (s.solveWith algorithm).2.applied.index.get? id =
      (s.index.get? id).map ((s.solveWith algorithm).2.written.reread id) := get?_readBack _ id
  rw [Index.geometryAt?, hget, Index.geometryAt?]
  cases hp : s.index.get? id with
  | none => rfl
  | some p =>
      cases p with
      | geometry g => rw [Option.map_some, hreread id g hp]
      | constraint c => rfl

/-- A solve that met the threshold, with its solution applied, is followed by solves that come to
the same verdict and the same diagnosis, whatever their method, find every unknown where it is, and
leave the geometry as it is. -/
theorem Reachable.solve_again [Scalar.Consistent α] (h : Reachable s)
    (hb : s.index.BuiltOnPoints) {a : Algorithm}
    (hstatus : (s.solveWith a).1 = .success ∨ (s.solveWith a).1 = .invalid) :
    ∃ t, (s.solveWith a).2.applySolution = (.ok (), t) ∧ ∀ b,
      (t.solveWith b).1 = (s.solveWith a).1 ∧
      (t.solveWith b).2.solver.diagnosis = (s.solveWith a).2.solver.diagnosis ∧
      (∀ u ∈ t.solver.unknowns, ∃ v, t.solver.value? u = some v ∧
        (t.solveWith b).2.solver.found? u = some v) ∧
      ∃ w, (t.solveWith b).2.applySolution = (.ok (), w) ∧
        w.index.geometryAt? = t.index.geometryAt? := by
  have hunmixed := h.unmixed hb
  have hrest : (s.solveWith a).2.applied.solver.Resting := hunmixed.resting_settled hstatus
  have hsynced := (h.perform (.solveWith a)).readable.synced_applied
  have ht := h.solved a
  refine ⟨_, h.apply_solveWith a, fun b => ?_⟩
  obtain ⟨hagain, hdiagnosis⟩ := hunmixed.solve_settled hstatus b
  refine ⟨hagain, hdiagnosis, fun u hu => ?_, _, ht.apply_solveWith b,
    ht.geometry_at_rest hsynced hrest b⟩
  obtain ⟨v, hv⟩ := Option.isSome_iff_exists.1 (value?_isSome.2 (lt_of_mem_unknowns hu))
  exact ⟨v, hv, (hrest.found?_eq b hu).trans hv⟩

/-- The two points at a distance that the free one has to move for. -/
def spacedSession : Session (LeastSquares Float) Float :=
  smallSession.perform (.push (.constraint { Constraint.new ⟨8⟩ .p2pDistance with
    params := .ofList
      [("p1_id", .number 1.0), ("p2_id", .number 2.0), ("distance", .number 2.0)] }))

theorem builtOnPoints_spacedSession : spacedSession.index.BuiltOnPoints := by
  have hgeometries : spacedSession.index.geometries = smallSession.index.geometries := rfl
  intro g hg p hp
  rw [hgeometries, geometries_smallSession] at hg
  rcases List.mem_pair.1 hg with rfl | rfl <;> cases hp

/-- Once the free point is at its distance, a solve by another method leaves it there. -/
theorem solve_spacedSession :
    (spacedSession.solveWith .dogLeg).1 = .success ∧
    ∃ t, (spacedSession.solveWith .dogLeg).2.applySolution = (.ok (), t) ∧
      (t.solveWith .bfgs).1 = .success ∧
      ∀ u ∈ t.solver.unknowns, ∃ v, t.solver.value? u = some v ∧
        (t.solveWith .bfgs).2.solver.found? u = some v := by
  have hsuccess : (spacedSession.solveWith .dogLeg).1 = .success := by decide +kernel
  have hreach : Reachable spacedSession := reachable_smallSession.perform _
  obtain ⟨t, happly, hagain⟩ :=
    hreach.solve_again builtOnPoints_spacedSession (.inl hsuccess)
  obtain ⟨hstatus, -, hfound, -⟩ := hagain .bfgs
  exact ⟨hsuccess, t, happly, hstatus.trans hsuccess, hfound⟩

end Session

end PlanarSketch

import PlanarSketch.Proofs.Session.Run
import PlanarSketch.Proofs.Tables

/-!
What a push leaves behind besides what it is for. Handles do not outlive the call they are made
for: while a constraint is placed the live handles are among those of the placement, and closing it
releases them all, whether the call has gone through or not. So no handle is live between two
calls, and of a push that is refused nothing stays but scalars at the end, all of them fixed.
-/

namespace PlanarSketch

open LeastSquares

variable {α : Type}

namespace Placement

/-- Every live handle is one of the placement's own. -/
def Holds (pl : Placement (LeastSquares α)) : Prop :=
  ∀ h r, pl.solver.records.find? h = some r → h ∈ pl.handles

variable {pl pl' : Placement (LeastSquares α)}

theorem Holds.congr (hp : pl.Holds) (hrecords : pl'.solver.records = pl.solver.records)
    (hhandles : pl'.handles = pl.handles) : pl'.Holds := by
  intro h r hr
  rw [hrecords] at hr
  rw [hhandles]
  exact hp h r hr

variable [Scalar α] [Decompositions α]

theorem Holds.place (hp : pl.Holds) (driving : Bool) (name : String) (r : Resolved α) :
    (pl.place driving name r).2.Holds := by
  cases r with
  | ready a => exact hp
  | literal v =>
      refine hp.congr ?_ rfl
      change (Allocator.pushPrivate pl.solver [v] driving).records = _
      rw [pushPrivate_eq]
  | record r =>
      rcases make_cases pl.solver r with ⟨a, -, -, hmake⟩ | ⟨-, hmake⟩ <;>
        rw [Placement.place, hmake]
      · exact hp
      · intro h q hq
        change h ∈ pl.handles ++ [⟨pl.solver.nextHandle⟩]
        rw [Table.find?_insert] at hq
        by_cases hnew : h = ⟨pl.solver.nextHandle⟩
        · exact List.mem_append_right _ (List.mem_singleton.2 hnew)
        · rw [if_neg hnew] at hq
          exact List.mem_append_left _ (hp h q hq)

theorem Holds.call (hp : pl.Holds) (c : Constraint α) (args : List (Arg α)) :
    (pl.call c args).2.Holds := by
  cases hcall : Entry.ofCall pl.solver.scope ⟨c.kind, args ++ [.scale c.scaleOrDefault]⟩ with
  | error e =>
      rw [call_error hcall]
      exact hp
  | ok entry =>
      rw [call_ok hcall]
      exact hp.congr rfl rfl

theorem Holds.pinAll (hp : pl.Holds) : pl.pinAll.Holds := by
  refine hp.congr ?_ rfl
  rw [pinAll_solver]

theorem Holds.records_close (hp : pl.Holds) : pl.close.records = .empty := by
  refine Table.eq_empty fun h => ?_
  rw [close_eq, Table.find?_foldl_erase]
  split
  · rfl
  · next hno =>
      cases hfind : pl.solver.records.find? h with
      | none => rfl
      | some r => exact absurd (hp h r hfind) hno

end Placement

namespace Session

variable {s t : Session (LeastSquares α) α}

/-- The session `t` is `s`, up to some fixed scalars at the end. -/
structure Untouched (s t : Session (LeastSquares α) α) : Prop where
  index : t.index = s.index
  allocator : t.allocator = s.allocator
  measured : t.measured = s.measured
  phase : t.phase = s.phase
  algorithm : t.algorithm = s.algorithm
  entries : t.solver.entries = s.solver.entries
  pending : t.solver.pending = s.solver.pending
  diagnosis : t.solver.diagnosis = s.solver.diagnosis
  config : t.solver.config = s.solver.config
  cells : ∃ vs : List α,
    t.solver.cells = s.solver.cells ++ (vs.map fun v => (⟨v, true⟩ : Cell α)).toArray

theorem Untouched.refl (s : Session (LeastSquares α) α) : Untouched s s :=
  ⟨rfl, rfl, rfl, rfl, rfl, rfl, rfl, rfl, rfl, [], by simp⟩

theorem Untouched.of_grown {solver : LeastSquares α} {vs : List α}
    (h : s.solver.Grown (vs.map fun v => ⟨v, true⟩) [] solver) :
    Untouched s { s with solver := solver } :=
  ⟨rfl, rfl, rfl, rfl, rfl, by simpa using h.entries, h.pending, h.diagnosis, h.config, vs,
    h.cells⟩

theorem Untouched.getElem?_old (h : Untouched s t) {a : Nat} (ha : a < s.solver.size) :
    t.solver.cells[a]? = s.solver.cells[a]? := by
  obtain ⟨vs, hcells⟩ := h.cells
  rw [hcells, Array.getElem?_append_left ha]

theorem Untouched.step (h : Untouched s t) : Step s t := by
  obtain ⟨vs, hcells⟩ := h.cells
  have hgrown : s.solver.Grown (vs.map fun v => ⟨v, true⟩) [] t.solver :=
    ⟨hcells, by rw [h.entries, List.append_nil], h.pending, h.config, h.diagnosis⟩
  refine .append (by rw [h.index]) (by rw [h.allocator]) ?_ (.of_fixed (f := fun v => v) hgrown)
  rw [h.allocator]
  exact .inl

end Session

variable [Scalar α] [Decompositions α]

/-- A push releases what it makes, on every way out. -/
theorem Constraint.records_push {s : LeastSquares α} (h : s.records = .empty) (x : Index α)
    (al : Allocator) (c : Constraint α) (tag : Int) :
    (c.push x al s tag).2.records = .empty := by
  have hstart : Placement.Holds ⟨s, [], []⟩ := by
    intro k r hr
    rw [h] at hr
    cases hr
  obtain ⟨pl, hpl, hpush⟩ : ∃ pl, Placement.Holds pl ∧ (c.push x al s tag).2 = pl.close :=
    Constraint.push_preserves hstart (fun _ p r _ _ hpl => hpl.place c.isDriving p.name r)
      (fun _ args hpl => hpl.call c args) fun _ hpl => hpl.pinAll
  rw [hpush]
  exact hpl.records_close

namespace Session

variable {s t : Session (LeastSquares α) α}

theorem Wiring.records (ht : Wiring s t) (h : s.solver.records = .empty) :
    t.solver.records = .empty := by
  cases ht with
  | keep records _ _ => rw [records, h]
  | push _ _ _ _ solver =>
      rw [solver]
      exact Constraint.records_push h ..

/-- No handle is live between two calls. -/
theorem Reachable.records (h : Reachable s) : s.solver.records = .empty :=
  h.invariant (P := fun s => s.solver.records = .empty) (fun _ _ => rfl)
    (fun _ _ _ hrecords hact => hact.wiring.records hrecords)
    fun s _ hrecords _ => (wiring_applySolution s).records hrecords

/-! ### Refused pushes -/

theorem Anchored.untouched_push (h : Anchored s) {p : Primitive α} {e : SketchError}
    {t : Session (LeastSquares α) α} (hpush : s.push p = (.error e, t)) : Untouched s t := by
  rcases push_cases h p with ⟨e', hcase⟩ | ⟨c, tag, e', solver, -, hcall, hcase⟩ |
    ⟨g, t', -, hcase, -⟩ | ⟨c, e', outputs, t', -, hcase, -⟩
  · cases hpush.symm.trans hcase
    exact .refl s
  · cases hpush.symm.trans hcase
    obtain ⟨vs, hgrown⟩ := Constraint.push_error hcall
    exact .of_grown hgrown
  · cases hpush.symm.trans hcase
  · cases hpush.symm.trans hcase

theorem untouched_pushExtra {c : Constraint α} {e : SketchError}
    {t : Session (LeastSquares α) α} (hpush : s.pushExtra c = (.error e, t)) : Untouched s t := by
  rcases s.pushExtra_cases c with hcase | ⟨e', solver, hcall, hcase⟩ | ⟨outputs, solver, -, -, hcase⟩
  · cases hpush.symm.trans hcase
    exact .refl s
  · cases hpush.symm.trans hcase
    obtain ⟨vs, hgrown⟩ := Constraint.push_error hcall
    exact .of_grown hgrown
  · cases hpush.symm.trans hcase

/-- A refused push is as if it had not been made, whatever it was refused for: no handle is live
and nothing has changed, but for fixed scalars after all those that there were. -/
theorem Reachable.push_refused (h : Reachable s) {e : SketchError}
    {t : Session (LeastSquares α) α}
    (hpush : (∃ p, s.push p = (.error e, t)) ∨ ∃ c, s.pushExtra c = (.error e, t)) :
    Untouched s t ∧ t.solver.records = .empty := by
  rcases hpush with ⟨p, hpush⟩ | ⟨c, hpush⟩
  · refine ⟨h.sound.toAnchored.untouched_push hpush, ?_⟩
    have hrecords := (wiring_push s p).records h.records
    rwa [hpush] at hrecords
  · refine ⟨untouched_pushExtra hpush, ?_⟩
    have hrecords := (wiring_pushExtra s c).records h.records
    rwa [hpush] at hrecords

/-- Measures an angle between two points. The solver finds the last parameter to be of the wrong
sort, when both points have their handles and the angle its scalar. -/
def angleWithFlag : Constraint Float :=
  { Constraint.new ⟨7⟩ .p2pAngleIncrAngle with
    driving := some false
    params := .ofList [("p1_id", .number 1.0), ("p2_id", .number 2.0), ("angle", .number 0.5),
      ("incr_angle", .bool true)] }

theorem untouched_angleWithFlag :
    (smallSession.push (.constraint angleWithFlag)).1 =
      .error (.solver (.argumentType .p2pAngleIncrAngle 3 .number)) ∧
    (smallSession.push (.constraint angleWithFlag)).2.solver.cells.size =
      smallSession.solver.cells.size + 1 ∧
    Untouched smallSession (smallSession.push (.constraint angleWithFlag)).2 := by
  have hpush : (smallSession.push (.constraint angleWithFlag)).1 =
      .error (.solver (.argumentType .p2pAngleIncrAngle 3 .number)) := rfl
  exact ⟨hpush, by decide +kernel,
    (reachable_smallSession.push_refused (.inl ⟨_, Prod.ext hpush rfl⟩)).1⟩

end Session

end PlanarSketch

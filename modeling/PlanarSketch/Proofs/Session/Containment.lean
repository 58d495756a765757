import PlanarSketch.Proofs.LeastSquares.Bounds
import PlanarSketch.Proofs.Session.Run

/-!
A session does nothing to its solver but through the operations that the solver offers. So what any
operations preserve, every call preserves; above all, no address that the solver of a session holds
outlives its scalar.
-/

namespace PlanarSketch

open LeastSquares

variable {α : Type} [Scalar α]

namespace LeastSquares

variable [Decompositions α]

/-- Operations lead from one solver to the other. -/
def Operated (s t : LeastSquares α) : Prop := ∃ ops, t = Operation.runAll s ops

namespace Operated

variable {s t u : LeastSquares α}

theorem refl (s : LeastSquares α) : Operated s s := ⟨[], rfl⟩

theorem run (s : LeastSquares α) (op : Operation α) : Operated s (op.run s) := ⟨[op], rfl⟩

theorem trans (h : Operated s t) (h' : Operated t u) : Operated s u := by
  obtain ⟨ops, rfl⟩ := h
  obtain ⟨ops', rfl⟩ := h'
  exact ⟨ops ++ ops', (List.foldl_append ..).symm⟩

theorem foldl {β : Type} {f : LeastSquares α → β → LeastSquares α} (hf : ∀ s b, Operated s (f s b))
    (bs : List β) (s : LeastSquares α) : Operated s (bs.foldl f s) := by
  induction bs generalizing s with
  | nil => exact .refl s
  | cons b bs ih => exact (hf s b).trans (ih (f s b))

theorem bounded (h : Operated s t) (hs : s.Bounded) : t.Bounded := by
  obtain ⟨ops, rfl⟩ := h
  exact bounded_runAll hs ops

end Operated

end LeastSquares

variable [Decompositions α]

theorem Allocator.operated_pushPrivate (s : LeastSquares α) (vs : List α) (fixed : Bool) :
    Operated s (Allocator.pushPrivate s vs fixed) :=
  .foldl (fun s v => .run s (.push v fixed)) vs s

/-! ### Constraints -/

namespace Placement

variable {s : LeastSquares α} {pl : Placement (LeastSquares α)}

theorem operated_place (driving : Bool) (name : String) (r : Resolved α)
    (h : Operated s pl.solver) : Operated s (pl.place driving name r).2.solver := by
  cases r with
  | ready a => exact h
  | literal v => exact h.trans (Allocator.operated_pushPrivate pl.solver [v] driving)
  | record r =>
      have hmake := Operated.run pl.solver (.make r)
      rw [Operation.run] at hmake
      rw [Placement.place]
      rcases hcase : Solver.make pl.solver r with ⟨e | k, t⟩ <;> rw [hcase] at hmake <;>
        exact h.trans hmake

theorem operated_call (c : Constraint α) (args : List (Arg α)) (h : Operated s pl.solver) :
    Operated s (pl.call c args).2.solver := by
  have hadd := Operated.run pl.solver (.add ⟨c.kind, args ++ [.scale c.scaleOrDefault]⟩)
  rw [Operation.run] at hadd
  have hscale : Solver.takesScale pl.solver = true := rfl
  simp only [Placement.call, hscale, if_true]
  split
  · next hcase =>
      rw [hcase] at hadd
      exact h.trans hadd
  · next hcase =>
      rw [hcase] at hadd
      exact h.trans hadd

theorem operated_pin (s : LeastSquares α) (a : Address) : Operated s (pin s a) := by
  unfold pin
  split
  · next v _ => exact .run s (.assign a v true)
  · exact .refl s

end Placement

theorem Constraint.operated_push (x : Index α) (al : Allocator) (s : LeastSquares α)
    (c : Constraint α) (tag : Int) : Operated s (c.push x al s tag).2 := by
  obtain ⟨pl, hpl, hpush⟩ : ∃ pl : Placement (LeastSquares α), Operated s pl.solver ∧
      (c.push x al s tag).2 = pl.close :=
    Constraint.push_preserves (.refl s) (fun _ p r _ _ => Placement.operated_place c.isDriving p.name r)
      (fun _ args => Placement.operated_call c args)
      fun pl hpl => hpl.trans
        (Operated.foldl (fun s (o : String × Address) => Placement.operated_pin s o.2) ..)
  rw [hpush]
  exact hpl.trans (.foldl (fun s h => .run s (.release h)) pl.handles pl.solver)

/-! ### Geometry -/

namespace Layout

theorem operated_pushPoints (x : Index α) (ids : List Oid) (s : Allocator × LeastSquares α) :
    Operated s.2 (pushPoints x ids s).2.2 := by
  induction ids generalizing s with
  | nil => exact .refl s.2
  | cons id ids ih =>
      rw [pushPoints]
      split
      · exact ih s
      · split
        · exact .refl s.2
        · exact (Allocator.operated_pushPrivate ..).trans (ih _)

theorem operated_pushOwn (g : Geometry α) (s : Allocator × LeastSquares α) :
    Operated s.2 (pushOwn g s).2 := by
  unfold pushOwn
  split
  · exact .refl s.2
  · exact Allocator.operated_pushPrivate ..

theorem operated_push (x : Index α) (g : Geometry α) (s : Allocator × LeastSquares α) :
    Operated s.2 (push x g s).2.2 := by
  have hpoints := operated_pushPoints x g.points s
  rw [push]
  rcases hcase : pushPoints x g.points s with ⟨e | u, t⟩ <;> rw [hcase] at hpoints
  · exact hpoints
  · exact hpoints.trans (operated_pushOwn g t)

end Layout

/-! ### Calls -/

namespace Session

variable {s : Session (LeastSquares α) α}

theorem operated_push (s : Session (LeastSquares α) α) (p : Primitive α) :
    Operated s.solver (s.push p).2.solver := by
  unfold push
  split
  · exact .refl s.solver
  split
  · exact .refl s.solver
  cases p with
  | geometry g =>
      have hlayout := Layout.operated_push s.index g (s.allocator, s.solver)
      dsimp only
      rw [pushGeometry]
      rcases hcase : Layout.push s.index g (s.allocator, s.solver) with ⟨e | u, al, solver⟩ <;>
        rw [hcase] at hlayout
      · exact hlayout
      · dsimp only
        rw [solver_store]
        exact hlayout
  | constraint c =>
      dsimp only
      rw [pushConstraint]
      cases c.id.tag with
      | error e => exact .refl s.solver
      | ok tag =>
          have hcall := c.operated_push s.index s.allocator s.solver tag
          dsimp only
          rcases hcase : c.push s.index s.allocator s.solver tag with ⟨e | os, solver⟩ <;>
            rw [hcase] at hcall
          · exact hcall
          · dsimp only
            rw [solver_store]
            exact hcall

theorem operated_pushObjects (s : Session (LeastSquares α) α) (os : List (SketchObject α)) :
    Operated s.solver (s.pushObjects os).2.solver := by
  induction os generalizing s with
  | nil => exact .refl s.solver
  | cons o os ih =>
      have hobject : Operated s.solver (s.pushObject o).2.solver := by
        cases o with
        | param p => exact Allocator.operated_pushPrivate s.solver [p.value] true
        | primitive p => exact operated_push s p
      rw [pushObjects]
      rcases hcase : s.pushObject o with ⟨e | u, t⟩ <;> rw [hcase] at hobject
      · exact hobject
      · exact hobject.trans (ih t)

theorem operated_pushExtra (s : Session (LeastSquares α) α) (c : Constraint α) :
    Operated s.solver (s.pushExtra c).2.solver := by
  have hcall := c.operated_push s.index s.allocator s.solver extraTag
  rcases s.pushExtra_cases c with hpush | ⟨e, solver, hcase, hpush⟩ |
    ⟨outputs, solver, -, hcase, hpush⟩
  · rw [hpush]
    exact .refl s.solver
  · rw [hcase] at hcall
    rw [hpush]
    exact hcall
  · rw [hcase] at hcall
    rw [hpush]
    exact hcall

theorem operated_delete (s : Session (LeastSquares α) α) (id : Oid) :
    Operated s.solver (s.delete id).2.solver := by
  rcases s.delete_cases id with ⟨e, hdelete⟩ | ⟨tag, -, -, hdelete⟩
  · rw [hdelete]
    exact .refl s.solver
  · rw [hdelete]
    exact .run s.solver (.clearTag tag)

theorem operated_setName (s : Session (LeastSquares α) α) (name : String) (v : α) :
    Operated s.solver (s.setName name v).2.solver := by
  rw [setName]
  cases s.allocator.nameAddress name with
  | error e => exact .refl s.solver
  | ok a =>
      have hassign := Operated.run s.solver (.assign a v true)
      rw [Operation.run] at hassign
      dsimp only
      rcases hcase : Solver.assign s.solver a v true with ⟨e | u, solver⟩ <;>
        rw [hcase] at hassign <;> exact hassign

theorem operated_applySolution (s : Session (LeastSquares α) α) :
    Operated s.solver s.applySolution.2.solver := by
  by_cases hphase : s.phase = .solved
  · rw [(applySolution_of_solved hphase).2.2]
    exact .run s.solver .applySolution
  · rw [applySolution, if_neg hphase]
    exact .refl s.solver

/-- What a call does to the solver are operations of the solver. -/
theorem operated_perform (s : Session (LeastSquares α) α) (r : Request α) :
    Operated s.solver (s.perform r).solver := by
  cases r with
  | push p => exact operated_push s p
  | pushObject o =>
      rw [perform, ← pushObjects_singleton]
      exact operated_pushObjects s [o]
  | pushAll ps => exact operated_pushObjects s _
  | pushObjects os => exact operated_pushObjects s os
  | pushDocument d => exact operated_pushObjects s _
  | pushExtra c => exact operated_pushExtra s c
  | clearExtra => exact .run s.solver (.clearTag extraTag)
  | delete id => exact operated_delete s id
  | pushName name v => exact Allocator.operated_pushPrivate s.solver [v] true
  | setName name v => exact operated_setName s name v
  | solve => exact .run s.solver (.solve s.algorithm)
  | solveWith a => exact .run s.solver (.solve a)
  | apply => exact operated_applySolution s
  | clear => exact .run s.solver .clear
  | setAlgorithm a => exact .refl s.solver
  | setDebugMode m => exact .run s.solver (.setDebugMode m)
  | setMaxIterations n => exact .run s.solver (.setMaxIterations n)
  | setConvergence v => exact .run s.solver (.setConvergence v)

theorem Reachable.bounded (h : Reachable s) : s.solver.Bounded := by
  induction h with
  | new own => exact bounded_ofConfig own
  | ofConfig own c => exact bounded_ofConfig { c with algorithm := own.algorithm }
  | perform _ r ih => exact (operated_perform _ r).bounded ih

end Session

end PlanarSketch

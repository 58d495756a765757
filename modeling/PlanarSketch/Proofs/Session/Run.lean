import PlanarSketch.Binary64
import PlanarSketch.Proofs.Session.Wiring

/-!
Runs of a session: any sequence of calls, refused ones included. Queries are left out, since they
change nothing.
-/

namespace PlanarSketch

open LeastSquares Relation

/-- A call that can change a session. -/
inductive Request (α : Type) where
  | push (p : Primitive α)
  | pushAll (ps : List (Primitive α))
  | pushObject (o : SketchObject α)
  | pushObjects (os : List (SketchObject α))
  | pushDocument (d : Document α)
  | pushExtra (c : Constraint α)
  | clearExtra
  | delete (id : Oid)
  | pushName (name : String) (v : α)
  | setName (name : String) (v : α)
  | solve
  | solveWith (a : Algorithm)
  | apply
  | clear
  | setAlgorithm (a : Algorithm)
  | setDebugMode (m : DebugMode)
  | setMaxIterations (n : Nat)
  | setConvergence (v : α)

variable {α : Type} [Scalar α]

namespace Session

def perform {σ : Type} [Solver σ α] (s : Session σ α) : Request α → Session σ α
  | .push p => (s.push p).2
  | .pushAll ps => (s.pushAll ps).2
  | .pushObject o => (s.pushObject o).2
  | .pushObjects os => (s.pushObjects os).2
  | .pushDocument d => (s.pushDocument d).2
  | .pushExtra c => (s.pushExtra c).2
  | .clearExtra => s.clearExtra
  | .delete id => (s.delete id).2
  | .pushName name v => s.pushName name v
  | .setName name v => (s.setName name v).2
  | .solve => s.solve.2
  | .solveWith a => (s.solveWith a).2
  | .apply => s.applySolution.2
  | .clear => s.clear
  | .setAlgorithm a => { s with algorithm := a }
  | .setDebugMode m => { s with solver := Solver.setDebugMode s.solver m }
  | .setMaxIterations n => { s with solver := Solver.setMaxIterations s.solver n }
  | .setConvergence v => { s with solver := Solver.setConvergence s.solver v }

variable [Decompositions α]

/-- Sessions that calls lead to from a fresh solver with settings of its own. -/
inductive Reachable : Session (LeastSquares α) α → Prop where
  | new (own : Config α) : Reachable (.new (.ofConfig own))
  | ofConfig (own c : Config α) : Reachable (.ofConfig (.ofConfig own) c)
  | perform {s : Session (LeastSquares α) α} (h : Reachable s) (r : Request α) :
      Reachable (s.perform r)

/-- Sessions to which no solution has been applied since they were last empty. -/
inductive Unapplied : Session (LeastSquares α) α → Prop where
  | new (own : Config α) : Unapplied (.new (.ofConfig own))
  | ofConfig (own c : Config α) : Unapplied (.ofConfig (.ofConfig own) c)
  | clear {s : Session (LeastSquares α) α} (h : Reachable s) : Unapplied s.clear
  | perform {s : Session (LeastSquares α) α} (h : Unapplied s) (r : Request α)
      (hr : r = .apply → s.phase ≠ .solved) : Unapplied (s.perform r)

/-- Sessions that calls other than a clear lead to. -/
inductive Later (s : Session (LeastSquares α) α) : Session (LeastSquares α) α → Prop where
  | refl : Later s s
  | perform {t : Session (LeastSquares α) α} (h : Later s t) (r : Request α)
      (hr : r ≠ .clear) : Later s (t.perform r)

/-- One free point, one fixed point and a name. -/
def smallSession : Session (LeastSquares Float) Float :=
  ((Session.new (LeastSquares.ofConfig .standard)).perform (.pushAll
    [.geometry ⟨⟨1⟩, .point 1.0 2.0 false⟩, .geometry ⟨⟨2⟩, .point 0.0 0.0 true⟩])).perform
    (.pushName "width" 3.0)

theorem reachable_smallSession : Reachable smallSession := .perform (.perform (.new _) _) _

theorem geometries_smallSession : smallSession.index.geometries =
    [⟨⟨1⟩, .point 1.0 2.0 false⟩, ⟨⟨2⟩, .point 0.0 0.0 true⟩] := rfl

variable {s t : Session (LeastSquares α) α}

theorem Unapplied.reachable (h : Unapplied s) : Reachable s := by
  induction h with
  | new own => exact .new own
  | ofConfig own c => exact .ofConfig own c
  | clear h => exact h.perform .clear
  | perform _ r _ ih => exact ih.perform r

theorem act_pushObject (h : Anchored s) (o : SketchObject α) : Act s (s.pushObject o).2 := by
  cases o with
  | param p => exact ⟨step_pushName s p.name p.value, wiring_pushName s p.name p.value⟩
  | primitive p => exact ⟨step_push h p, wiring_push s p⟩

theorem pushObjects_singleton (s : Session (LeastSquares α) α) (o : SketchObject α) :
    (s.pushObjects [o]).2 = (s.pushObject o).2 := by
  rw [pushObjects]
  rcases s.pushObject o with ⟨e | u, t⟩ <;> rfl

theorem acts_pushObjects (h : Sound s) (os : List (SketchObject α)) :
    ReflTransGen Act s (s.pushObjects os).2 := by
  induction os generalizing s with
  | nil => exact .refl
  | cons o os ih =>
      have hact := act_pushObject h.toAnchored o
      rw [pushObjects]
      rcases hpush : s.pushObject o with ⟨e | u, t⟩ <;> rw [hpush] at hact
      · exact .single hact
      · exact .head hact (ih (h.step hact.step))

/-- A call is a sequence of acts, unless it applies a solution or clears everything. -/
theorem perform_acts (h : Sound s) (r : Request α) :
    ReflTransGen Act s (s.perform r) ∨
      (r = .apply ∧ s.phase = .solved ∧ Applied s (s.perform r)) ∨ r = .clear := by
  cases r with
  | push p => exact .inl (.single ⟨step_push h.toAnchored p, wiring_push s p⟩)
  | pushAll ps => exact .inl (acts_pushObjects h _)
  | pushObject o => exact .inl (.single (act_pushObject h.toAnchored o))
  | pushObjects os => exact .inl (acts_pushObjects h os)
  | pushDocument d => exact .inl (acts_pushObjects h _)
  | pushExtra c => exact .inl (.single ⟨step_pushExtra s c, wiring_pushExtra s c⟩)
  | clearExtra => exact .inl (.single ⟨step_clearExtra s, wiring_clearExtra s⟩)
  | delete id => exact .inl (.single ⟨step_delete s id, wiring_delete s id⟩)
  | pushName name v => exact .inl (.single ⟨step_pushName s name v, wiring_pushName s name v⟩)
  | setName name v => exact .inl (.single ⟨step_setName s name v, wiring_setName s name v⟩)
  | solve =>
      exact .inl (.single ⟨step_solveWith s s.algorithm, wiring_solveWith s s.algorithm⟩)
  | solveWith a => exact .inl (.single ⟨step_solveWith s a, wiring_solveWith s a⟩)
  | apply =>
      by_cases hphase : s.phase = .solved
      · exact .inr (.inl ⟨rfl, hphase, applied_applySolution s⟩)
      · refine .inl ?_
        rw [perform, applySolution, if_neg hphase]
  | clear => exact .inr (.inr rfl)
  | setAlgorithm a => exact .inl (.single (act_tune s s.solver.config a))
  | setDebugMode m =>
      exact .inl (.single (act_tune s { s.solver.config with debugMode := m } s.algorithm))
  | setMaxIterations n =>
      exact .inl (.single (act_tune s { s.solver.config with maxIterations := n } s.algorithm))
  | setConvergence v =>
      exact .inl (.single (act_tune s { s.solver.config with convergence := v } s.algorithm))

theorem perform_cases (h : Sound s) (r : Request α) :
    ReflTransGen Step s (s.perform r) ∨
      (r = .apply ∧ s.phase = .solved ∧ Applied s (s.perform r)) ∨ r = .clear :=
  (perform_acts h r).imp_left (ReflTransGen.mono (r := Act) (fun _ _ hact => hact.step) _ _)

theorem sound_clear (s : Session (LeastSquares α) α) : Sound s.clear :=
  .of_empty rfl rfl rfl rfl rfl

theorem Act.preserves_steps {P : Session (LeastSquares α) α → Prop}
    (act : ∀ s t, Sound s → P s → Act s t → P t) (hs : Sound s) (start : P s)
    (h : ReflTransGen Act s t) : Sound t ∧ P t := by
  induction h with
  | refl => exact ⟨hs, start⟩
  | tail _ hact ih => exact ⟨ih.1.step hact.step, act _ _ ih.1 ih.2 hact⟩

theorem Reachable.sound (h : Reachable s) : Sound s := by
  induction h with
  | new own => exact .of_empty rfl rfl rfl rfl rfl
  | ofConfig own c => exact .of_empty rfl rfl rfl rfl rfl
  | @perform s _ r ih =>
      rcases perform_cases ih r with hsteps | ⟨-, -, happlied⟩ | rfl
      · exact ih.steps hsteps
      · exact ih.applied happlied
      · exact sound_clear s

/-- What holds of a session without content, and is preserved by acts and by applying a solution,
holds of all reachable sessions. -/
theorem Reachable.invariant {P : Session (LeastSquares α) α → Prop}
    (empty : ∀ (config : Config α) (algorithm : Algorithm),
      P { Session.new (.ofConfig config) with algorithm := algorithm })
    (act : ∀ s t, Sound s → P s → Act s t → P t)
    (apply : ∀ s, Sound s → P s → s.phase = .solved → P s.applySolution.2)
    (h : Reachable s) : P s := by
  induction h with
  | new own => exact empty own .dogLeg
  | ofConfig own c => exact empty { c with algorithm := own.algorithm } c.algorithm
  | @perform s hs r ih =>
      rcases perform_acts hs.sound r with hacts | ⟨rfl, hphase, -⟩ | rfl
      · exact (Act.preserves_steps act hs.sound ih hacts).2
      · exact apply s hs.sound ih hphase
      · exact empty s.solver.config s.algorithm

end Session

end PlanarSketch
